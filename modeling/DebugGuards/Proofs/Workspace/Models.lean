import DebugGuards.Workspace.Basic
import DebugGuards.Proofs.Table
import DebugGuards.Proofs.Workspace.Settle

/-! Workspaces and heaps. A workspace has a heap if its document and its loose parts are
shown by it and nothing of the heap is lost. Looking a part up is then reading the
heap, and each operation on the workspace is a write to one cell of the heap together
with new cells. -/

namespace DebugGuards

open DebugGuards.Tree List

/-- The heap is what the workspace holds. -/
structure Models (w : Workspace) (h : Heap) : Prop where
  root : Shows h w.root
  loose : ∀ t ∈ w.loose, Shows h t
  held : ∀ m c, h m = some c → m ∈ w.root.marks ∨ ∃ t ∈ w.loose, m ∈ t.marks
  below : h.Below w.fresh

namespace Models

variable {w : Workspace} {h h' : Heap} {m : Mark} {s t : Tree Mark} {c : Cell}

section

variable (hw : Models w h)
include hw

theorem shows_part? (hs : w.part? m = some s) : Shows h s ∧ s.ref = .part m := by
  rw [Workspace.part?, Option.or_eq_some_iff] at hs
  rcases hs with hs | ⟨_, hs⟩
  · exact ⟨hw.root.find? hs, (find?_spec hs).1⟩
  · obtain ⟨t, ht, hs⟩ := exists_of_findSome?_eq_some hs
    exact ⟨(hw.loose t ht).find? hs, (find?_spec hs).1⟩

theorem exists_part? (hc : h m = some c) : ∃ s, w.part? m = some s := by
  rw [← Option.isSome_iff_exists, Workspace.part?, Option.isSome_or, Bool.or_eq_true]
  rcases hw.held m c hc with hm | ⟨t, ht, hm⟩
  · obtain ⟨s, hs⟩ := find?_isSome hm
    exact .inl (by rw [hs]; rfl)
  · obtain ⟨s, hs⟩ := find?_isSome hm
    exact .inr (findSome?_isSome_iff.mpr ⟨t, ht, by rw [hs]; rfl⟩)

theorem part?_eq (hs : Shows h s) (hm : s.ref = .part m) : w.part? m = some s := by
  obtain ⟨c, hc⟩ := hs.some_of_mem (mem_marks_of_ref hm)
  obtain ⟨s', hs'⟩ := hw.exists_part? hc
  obtain ⟨h1, h2⟩ := hw.shows_part? hs'
  rw [hs', h1.unique hs (h2.trans hm.symm)]

theorem deref_eq (hs : Shows h s) : w.deref s.ref = s := by
  cases e : s.ref with
  | scalar x =>
    cases s with
    | scalar y => cases e; rfl
    | arr | obj => cases e
  | part m => rw [Workspace.deref, hw.part?_eq hs e]; rfl

/-- Every cell of the heap is that of a part. -/
theorem exists_shows (hc : h m = some c) : ∃ s, Shows h s ∧ s.ref = .part m ∧ s.cell? = some c := by
  obtain ⟨s, hs⟩ := hw.exists_part? hc
  obtain ⟨h1, h2⟩ := hw.shows_part? hs
  exact ⟨s, h1, h2, by rw [← h1.here h2, hc]⟩

theorem exists_list {rs : List Ref} (hc : h m = some (.list rs)) :
    ∃ items, Shows h (.arr m items) ∧ items.map ref = rs := by
  obtain ⟨s, h1, h2, h3⟩ := hw.exists_shows hc
  cases s with
  | scalar => cases h2
  | obj => simp [cell?] at h3
  | arr n items => cases h2; exact ⟨items, h1, by simpa [cell?] using h3⟩

theorem exists_record {fs : List (String × Ref)} (hc : h m = some (.record fs)) :
    ∃ fields, Shows h (.obj m fields) ∧ Table.mapValues ref fields = fs := by
  obtain ⟨s, h1, h2, h3⟩ := hw.exists_shows hc
  cases s with
  | scalar => cases h2
  | arr => simp [cell?] at h3
  | obj n fields => cases h2; exact ⟨fields, h1, by simpa [cell?] using h3⟩

end

end Models

section Value

/-- The plain value of what a reference stands for. -/
def Workspace.value (w : Workspace) (r : Ref) : Json := (w.deref r).erase

/-- The plain value of a part whose own parts have given values. -/
def Cell.value (v : Ref → Json) : Cell → Json
  | .list rs => .arr () (rs.map v)
  | .record fs => .obj () (Table.mapValues v fs)

mutual
/-- The plain value of a draft whose marked parts have given values. -/
def Tree.resolve (v : Mark → Json) : Draft → Json
  | .scalar s => .scalar s
  | .arr (some m) _ => v m
  | .arr none items => .arr () (resolveItems v items)
  | .obj (some m) _ => v m
  | .obj none fields => .obj () (resolveFields v fields)
def Tree.resolveItems (v : Mark → Json) : List Draft → List Json
  | [] => []
  | t :: ts => resolve v t :: resolveItems v ts
def Tree.resolveFields (v : Mark → Json) : List (String × Draft) → List (String × Json)
  | [] => []
  | (k, t) :: ts => (k, resolve v t) :: resolveFields v ts
end

theorem Tree.resolveItems_eq (v : Mark → Json) (items : List Draft) :
    resolveItems v items = items.map (resolve v) := by
  induction items with
  | nil => rfl
  | cons t ts ih => rw [resolveItems, ih, map_cons]

theorem Tree.resolveFields_eq (v : Mark → Json) (fields : List (String × Draft)) :
    resolveFields v fields = Table.mapValues (resolve v) fields := by
  induction fields with
  | nil => rfl
  | cons e ts ih => rw [resolveFields, ih]; rfl

theorem Tree.erase_arr {α : Type} (m : α) (items : List (Tree α)) :
    (arr m items).erase = .arr () (items.map erase) := by
  rw [erase, map, mapItems_eq_map]; rfl

theorem Tree.erase_obj {α : Type} (m : α) (fields : Fields α) :
    (obj m fields).erase = .obj () (Table.mapValues erase fields) := by
  rw [erase, map, mapFields_eq_mapValues]; rfl

variable {w : Workspace} {h : Heap} {m : Mark} {t : Tree Mark} {c : Cell} {k : ℕ} {d : Draft} {r : Ref}

@[simp] theorem Workspace.value_scalar (w : Workspace) (s : Scalar) : w.value (.scalar s) = .scalar s := rfl

namespace Models

section

variable (hw : Models w h)
include hw

theorem value_ref (ht : Shows h t) : w.value t.ref = t.erase := by
  rw [Workspace.value, hw.deref_eq ht]

/-- The value of a part is read off its cell. -/
theorem value_cell (hc : h m = some c) : w.value (.part m) = c.value w.value := by
  cases c with
  | list rs =>
    obtain ⟨items, hs, rfl⟩ := hw.exists_list hc
    rw [show Ref.part m = (arr m items).ref from rfl, hw.value_ref hs, erase_arr, Cell.value, List.map_map]
    congr 1
    exact map_congr_left fun t ht => (hw.value_ref (hs.child ht)).symm
  | record fs =>
    obtain ⟨fields, hs, rfl⟩ := hw.exists_record hc
    rw [show Ref.part m = (obj m fields).ref from rfl, hw.value_ref hs, erase_obj, Cell.value,
      Table.mapValues, Table.mapValues, Table.mapValues, List.map_map]
    congr 1
    refine map_congr_left fun e he => Prod.ext rfl ?_
    exact (hw.value_ref (hs.child (mem_map_of_mem he))).symm

/-- The value of a settled draft is that of the draft. -/
theorem value_reflects (hr : Reflects h k d r) : w.value r = d.resolve fun m => w.value (.part m) := by
  induction hr with
  | scalar s => rfl
  | old d m hm =>
    cases d with
    | scalar => cases hm
    | arr _ _ | obj _ _ => cases hm; rfl
  | new d m c hd _ hc fits _ ih =>
    rw [hw.value_cell hc]
    cases d with
    | scalar => cases hd
    | arr _ items =>
      cases hd
      cases c with
      | record fs => exact fits.elim
      | list rs =>
        rw [resolve, resolveItems_eq, Cell.value]
        congr 1
        exact (map_eq_map_of_zip fits.symm fun p hp => (ih p hp).symm).symm
    | obj _ fields =>
      cases hd
      cases c with
      | list rs => exact fits.elim
      | record fs =>
        rw [resolve, resolveFields_eq, Cell.value]
        congr 1
        have hl : (fields.map Prod.snd).length = (fs.map Prod.snd).length := by
          simpa using congrArg List.length fits.symm
        exact Table.mapValues_eq_mapValues fits (map_eq_map_of_zip hl fun p hp => (ih p hp).symm).symm

theorem shows_of_refs (hc : h m = some c) (hr : r ∈ c.refs) : (w.deref r).ref = r ∧ Shows h (w.deref r) := by
  obtain ⟨s, hs, _, hcell⟩ := hw.exists_shows hc
  rw [cell?_refs hcell] at hr
  obtain ⟨x, hx, rfl⟩ := mem_map.mp hr
  rw [hw.deref_eq (hs.child hx)]
  exact ⟨rfl, hs.child hx⟩

/-- What a part refers to lies inside it, and the part does not lie inside that. -/
theorem marks_of_refs (hc : h m = some c) {n : Mark} (hn : .part n ∈ c.refs) :
    (w.deref (.part n)).marks ⊆ (w.deref (.part m)).marks ∧ m ∉ (w.deref (.part n)).marks := by
  obtain ⟨s, hs, e, hcell⟩ := hw.exists_shows hc
  rw [cell?_refs hcell] at hn
  obtain ⟨x, hx, hr⟩ := mem_map.mp hn
  have hs' : w.deref (.part m) = s := by rw [← e, hw.deref_eq hs]
  have hx' : w.deref (.part n) = x := by rw [← hr, hw.deref_eq (hs.child hx)]
  rw [hs', hx']
  exact ⟨marks_child hx, hs.not_mem_child e hx⟩

/-- A settled draft does not hold a part that the marked parts of the draft do not hold. -/
theorem not_mem_of_reflects (hr : Reflects h k d r) {n : ℕ} (hn : n < k)
    (ho : ∀ l ∈ d.olds, n ∉ (w.deref (.part l)).marks) : n ∉ (w.deref r).marks := by
  induction hr with
  | scalar s => rw [Workspace.deref, marks_scalar]; simp
  | old d l hl => exact ho l (by rw [olds_old hl]; exact mem_singleton.mpr rfl)
  | new d l c hd hk hc fits _ ih =>
    obtain ⟨s, hs, e, hcell⟩ := hw.exists_shows hc
    have hs' : w.deref (.part l) = s := by rw [← e, hw.deref_eq hs]
    rw [hs', marks_eq, ref_eq_part_iff.mp e, mem_append, mem_flatMap]
    rintro (h1 | ⟨x, hx, h1⟩)
    · have := mem_singleton.mp h1
      omega
    · have hxr : x.ref ∈ c.refs := by rw [cell?_refs hcell]; exact mem_map_of_mem hx
      obtain ⟨d', hd', hp⟩ := exists_mem_zip fits.length_eq hxr
      refine ih _ hp (fun q hq => ho q ?_) ?_
      · rw [olds_new hd]
        exact mem_flatMap.mpr ⟨d', hd', hq⟩
      · rw [hw.deref_eq (hs.child hx)]; exact h1

end

end Models

end Value

section Writes

/-- The second heap has another cell at one mark, and new cells from `k` to `k'`. -/
structure Heap.Writes (h : Heap) (k m : ℕ) (c : Cell) (h' : Heap) (k' : ℕ) : Prop where
  le : k ≤ k'
  here : h' m = some c
  old : ∀ n : ℕ, n < k → n ≠ m → h' n = h n
  below : h'.Below k'

variable {w : Workspace} {h h' : Heap} {m : ℕ} {s t : Tree Mark} {c : Cell} {k k' : ℕ}

theorem Heap.Writes.cell (hw : h.Writes k m c h' k') (hk : h.Below k) {n : ℕ} {x : Cell} (hn : n ≠ m)
    (hx : h n = some x) : h' n = some x := by
  rw [hw.old n (hk n x hx) hn, hx]

theorem Shows.writes (ht : Shows h t) (hw : h.Writes k m c h' k') (hk : h.Below k) (hm : m ∉ t.marks) :
    Shows h' t :=
  ht.congr fun n hn => by
    obtain ⟨x, hx⟩ := ht.some_of_mem hn
    rw [hw.cell hk (fun e => hm (e ▸ hn)) hx, hx]

namespace Models

theorem keep (hw : Models w h) (ht : Shows h t) : Models (w.keep t) h := by
  cases t with
  | scalar s => exact hw
  | arr _ _ | obj _ _ =>
    refine ⟨hw.root, ?_, fun m c hc => ?_, hw.below⟩
    · intro x hx
      rcases mem_append.mp hx with hx | hx
      · exact hw.loose x hx
      · rw [mem_singleton.mp hx]; exact ht
    · rcases hw.held m c hc with h1 | ⟨x, hx, h1⟩
      · exact .inl h1
      · exact .inr ⟨x, mem_append_left _ hx, h1⟩

/-- Writing to one part. Its new parts are settled drafts, each put in once, and the
parts it no longer holds are among the loose ones. -/
theorem write (hw : Models w h) (hs : Shows h s) (hm : s.ref = .part m) {ds : List Draft} {h₁ : Heap}
    (hd : SettledItems h w.fresh ds h₁) (avoids : ∀ t ∈ (settleItems w.fresh ds).1, m ∉ t.marks)
    {f : Tree Mark → Tree Mark} (hr : (f s).ref = .part m) (hc : (f s).cell? = some c)
    (hch : ∀ x ∈ (f s).children, x ∈ s.children ∨ x ∈ (settleItems w.fresh ds).1)
    (hnew : ∀ x ∈ (settleItems w.fresh ds).1, x ∈ (f s).children)
    (hkeep : ∀ x ∈ s.children, x ∈ (f s).children ∨ x ∈ w.loose ∨ x.marks = [])
    (hcount : ∀ r, c.refs.count r ≤ (s.children.map ref).count r + ((settleItems w.fresh ds).1.map ref).count r) :
    Models ({ w with fresh := (settleItems w.fresh ds).2 }.editPart m f) (Function.update h₁ m (some c)) ∧
      h.Writes w.fresh m c (Function.update h₁ m (some c)) (settleItems w.fresh ds).2 ∧
      h.Charges w.fresh (ds.flatMap olds) (Function.update h₁ m (some c)) (settleItems w.fresh ds).2 [] := by
  obtain ⟨c₀, hc₀⟩ := hs.some_of_mem (mem_marks_of_ref hm)
  have hlt := hw.below m c₀ hc₀
  have hle := hd.grows.le
  have writes : h.Writes w.fresh m c (Function.update h₁ m (some c)) (settleItems w.fresh ds).2 := by
    refine ⟨hle, Function.update_self .., fun n hn hne => ?_, fun n x hx => ?_⟩
    · rw [Function.update_of_ne hne, hd.grows.old n hn]
    · by_cases e : n = m
      · omega
      · rw [Function.update_of_ne e] at hx
        exact hd.grows.below n x hx
  have hself : m ∈ (f s).marks := mem_marks_of_ref hr
  have shown : Shows (Function.update h₁ m (some c)) (f s) := by
    refine .intro _ (fun n hn => ?_) fun x hx => ?_
    · rw [hr] at hn; cases hn
      rw [writes.here, hc]
    · rcases hch x hx with hx | hx
      · exact (hs.child hx).writes writes hw.below (hs.not_mem_child hm hx)
      · refine (hd.shows x hx).congr fun n hn => Function.update_of_ne ?_ _ _
        rintro rfl
        exact avoids x hx hn
  have edited : ∀ t, Shows h t → Shows (Function.update h₁ m (some c)) (t.edit m f) := fun t ht =>
    (ht.edit (m := m) (fun s' hs' hm' => by
      rw [hs'.unique hs (hm'.trans hm.symm)]; exact ⟨shown, hr⟩)
      fun n x hne hx => writes.cell hw.below hne hx).1
  -- a part of an edited document is still there, or it was in the part written to
  have moved : ∀ t, Shows h t → ∀ n ∈ t.marks, n ∈ (t.edit m f).marks ∨
      n ∈ s.marks ∧ (f s).marks ⊆ (t.edit m f).marks := by
    intro t ht n hn
    rcases ht.mem_marks_edit (m := m) (f := f) hn with h1 | ⟨s', h1, h2, h3, h4⟩
    · exact .inl h1
    · obtain rfl : s' = s := h1.unique hs (h2.trans hm.symm)
      exact .inr ⟨h3, h4⟩
  -- some occurrence of the part written to
  have place : ∃ t, (t = w.root ∨ t ∈ w.loose) ∧ Shows h t ∧ m ∈ t.marks := by
    rcases hw.held m c₀ hc₀ with h1 | ⟨t, ht, h1⟩
    · exact ⟨_, .inl rfl, hw.root, h1⟩
    · exact ⟨t, .inr ht, hw.loose t ht, h1⟩
  have holds : ∀ t, (t = w.root ∨ t ∈ w.loose) → ∀ n, n ∈ (t.edit m f).marks →
      n ∈ (w.root.edit m f).marks ∨ ∃ t ∈ w.loose.map (Tree.edit m f), n ∈ t.marks := by
    rintro t (rfl | ht) n hn
    · exact .inl hn
    · exact .inr ⟨_, mem_map_of_mem ht, hn⟩
  have held_f : ∀ n ∈ (f s).marks,
      n ∈ (w.root.edit m f).marks ∨ ∃ t ∈ w.loose.map (Tree.edit m f), n ∈ t.marks := by
    intro n hn
    obtain ⟨t, ht, hts, hmt⟩ := place
    have hme : m ∈ (t.edit m f).marks := by
      rcases moved t hts m hmt with h1 | ⟨_, h1⟩
      · exact h1
      · exact h1 hself
    exact holds t ht n ((edited t hts).marks_subset hme shown hr hn)
  have charges : h.Charges w.fresh (ds.flatMap olds) (Function.update h₁ m (some c)) (settleItems w.fresh ds).2 [] := by
    intro n
    have hbefore : h₁.usesAt (.part n) m = (s.children.map ref).count (.part n) := by
      rw [Heap.usesAt_of_some ((hd.grows.old m hlt).trans hc₀), cell?_refs ((hs.here hm).symm.trans hc₀)]
    have huses := hd.uses n
    have hupdate := Heap.uses_update (h := h₁) (r := .part n) (Nat.lt_of_lt_of_le hlt hle) c
    have := hcount (.part n)
    rw [count_nil]
    omega
  refine ⟨⟨edited _ hw.root, ?_, fun n x hx => ?_, writes.below⟩, writes, charges⟩
  · intro t' ht'
    obtain ⟨t, ht, rfl⟩ := mem_map.mp ht'
    exact edited t (hw.loose t ht)
  · by_cases hn : n = m
    · subst hn; exact held_f n hself
    rcases Nat.lt_or_ge n w.fresh with hold | hold
    · rw [writes.old n hold hn] at hx
      have hn' : ∃ t, (t = w.root ∨ t ∈ w.loose) ∧ Shows h t ∧ n ∈ t.marks := by
        rcases hw.held n x hx with h1 | ⟨t, ht, h1⟩
        · exact ⟨_, .inl rfl, hw.root, h1⟩
        · exact ⟨t, .inr ht, hw.loose t ht, h1⟩
      obtain ⟨t, ht, hts, hnt⟩ := hn'
      rcases moved t hts n hnt with h1 | ⟨h1, h2⟩
      · exact holds t ht n h1
      rw [marks_eq, ref_eq_part_iff.mp hm, mem_append, mem_flatMap] at h1
      rcases h1 with h1 | ⟨y, hy, h1⟩
      · exact absurd (mem_singleton.mp h1) hn
      rcases hkeep y hy with h3 | h3 | h3
      · exact holds t ht n (h2 (marks_child h3 h1))
      · refine holds y (.inr h3) n ?_
        rw [edit_of_not_mem (hs.not_mem_child hm hy)]
        exact h1
      · rw [h3] at h1; cases h1
    · rw [Function.update_of_ne hn] at hx
      obtain ⟨y, hy, h1⟩ := mem_flatMap.mp (hd.held n x hold hx)
      exact held_f n (marks_child (hnew y hy) h1)

end Models

end Writes

end DebugGuards
