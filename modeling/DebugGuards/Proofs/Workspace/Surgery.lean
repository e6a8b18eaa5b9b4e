import DebugGuards.Proofs.Workspace.Models

/-! The operations on a workspace as writes to its heap: keeping a new part at hand,
setting a field, putting items in the place of one, putting a statement on top. Each
leaves the paths, the program node and the dialect as they are. -/

namespace DebugGuards

open DebugGuards.Tree List

/-- The parts of a workspace that no surgery touches. -/
structure Workspace.SameFrame (w w' : Workspace) : Prop where
  program : w'.program = w.program
  dialect : w'.dialect = w.dialect
  paths : w'.paths = w.paths
  root : w'.root.ref = w.root.ref

namespace Workspace.SameFrame

variable {w w' w'' : Workspace}

theorem refl (w : Workspace) : w.SameFrame w := ⟨rfl, rfl, rfl, rfl⟩

theorem trans (h1 : w.SameFrame w') (h2 : w'.SameFrame w'') : w.SameFrame w'' :=
  ⟨h2.program.trans h1.program, h2.dialect.trans h1.dialect, h2.paths.trans h1.paths,
    h2.root.trans h1.root⟩

end Workspace.SameFrame

/-- The same, except that there may be more paths. -/
structure Workspace.Keeps (w w' : Workspace) : Prop where
  program : w'.program = w.program
  dialect : w'.dialect = w.dialect
  root : w'.root.ref = w.root.ref
  size : w.paths.size ≤ w'.paths.size
  path : ∀ i < w.paths.size, w'.path i = w.path i

namespace Workspace.Keeps

variable {w w' w'' : Workspace}

theorem trans (h1 : w.Keeps w') (h2 : w'.Keeps w'') : w.Keeps w'' :=
  ⟨h2.program.trans h1.program, h2.dialect.trans h1.dialect, h2.root.trans h1.root,
    Nat.le_trans h1.size h2.size, fun i hi => (h2.path i (Nat.lt_of_lt_of_le hi h1.size)).trans (h1.path i hi)⟩

theorem addPath (w : Workspace) (p : Path) : w.Keeps (w.addPath p).2 := by
  refine ⟨rfl, rfl, rfl, ?_, fun i hi => ?_⟩
  · simp [Workspace.addPath]
  · rw [Workspace.path, Workspace.path, Workspace.addPath, Array.getD_eq_getD_getElem?,
      Array.getD_eq_getD_getElem?, Array.getElem?_push_lt hi, Array.getElem?_eq_getElem hi]

end Workspace.Keeps

theorem Workspace.SameFrame.keeps {w w' : Workspace} (h : w.SameFrame w') : w.Keeps w' :=
  ⟨h.program, h.dialect, h.root, Nat.le_of_eq (by rw [h.paths]),
    fun i _ => by rw [Workspace.path, h.paths, Workspace.path]⟩

namespace Workspace

/-- The path just made. -/
theorem addPath_path (w : Workspace) (p : Path) : (w.addPath p).2.path (w.addPath p).1 = p := by
  simp [addPath, path, Array.getD_eq_getD_getElem?]


@[simp] theorem keep_root (w : Workspace) (t : Tree Mark) : (w.keep t).root = w.root := by cases t <;> rfl
@[simp] theorem keep_fresh (w : Workspace) (t : Tree Mark) : (w.keep t).fresh = w.fresh := by cases t <;> rfl
@[simp] theorem keep_paths (w : Workspace) (t : Tree Mark) : (w.keep t).paths = w.paths := by cases t <;> rfl
@[simp] theorem keep_program (w : Workspace) (t : Tree Mark) : (w.keep t).program = w.program := by cases t <;> rfl
@[simp] theorem keep_dialect (w : Workspace) (t : Tree Mark) : (w.keep t).dialect = w.dialect := by cases t <;> rfl

theorem keep_fresh_comm (w : Workspace) (t : Tree Mark) (k : Mark) :
    ({ w with fresh := k } : Workspace).keep t = { w.keep t with fresh := k } := by cases t <;> rfl

/-- What is kept is at hand, unless it has no parts. -/
theorem mem_loose_keep (w : Workspace) (t : Tree Mark) : t ∈ (w.keep t).loose ∨ t.marks = [] := by
  cases t with
  | scalar s => exact .inr (marks_scalar s)
  | arr _ _ | obj _ _ => exact .inl (mem_append_right _ (mem_singleton.mpr rfl))

end Workspace

section References

theorem Tree.setField_ref (key : String) (v t : Tree Mark) : (Tree.setField key v t).ref = t.ref := by
  cases t <;> rfl
theorem Tree.splice_ref (r : Ref) (new : List (Tree Mark)) (t : Tree Mark) : (Tree.splice r new t).ref = t.ref := by
  cases t <;> rfl
theorem Tree.push_ref (v t : Tree Mark) : (Tree.push v t).ref = t.ref := by cases t <;> rfl

theorem Tree.edit_ref {f : Tree Mark → Tree Mark} (hf : ∀ t, (f t).ref = t.ref) (m : Mark) (t : Tree Mark) :
    (t.edit m f).ref = t.ref := by
  rw [edit_eq]
  split_ifs
  · exact hf t
  · exact Shows.mapChildren_ref _ t

end References

variable {w : Workspace} {h : Heap} {m : ℕ}

/-- A document without a given part is shown by the heap without that part. -/
theorem Shows.without {t : Tree Mark} (ht : Shows h t) (hm : m ∉ t.marks) :
    Shows (Function.update h m none) t :=
  ht.congr fun n hn => Function.update_of_ne (by rintro rfl; exact hm hn) _ _

theorem Grounded.of_without {d : Draft} (hd : Grounded (Function.update h m none) d) : Grounded h d := by
  induction hd with
  | shown t ht =>
    refine .shown t (ht.congr fun n hn => ?_)
    obtain ⟨c, hc⟩ := ht.some_of_mem hn
    by_cases e : n = m
    · subst e; rw [Function.update_self] at hc; cases hc
    · rw [Function.update_of_ne e]
  | made d new _ ih => exact .made d new ih

/-- A draft over the heap without a part settles to something without that part. -/
theorem not_mem_settleItems (ds : List Draft) {k : ℕ} (hk : h.Below k) (hm : m < k)
    (hd : ∀ d ∈ ds, Grounded (Function.update h m none) d) : ∀ t ∈ (settleItems k ds).1, m ∉ t.marks := by
  have hk' : Heap.Below (Function.update h m none) k := by
    intro n c hc
    by_cases e : n = m
    · omega
    · rw [Function.update_of_ne e] at hc; exact hk n c hc
  obtain ⟨h', hs⟩ := settleItems_settled hk' hd fun d _ h k hk hd => settle_settled hk hd
  intro t ht hmt
  obtain ⟨c, hc⟩ := (hs.shows t ht).some_of_mem hmt
  rw [hs.grows.old m hm, Function.update_self] at hc
  cases hc

theorem exists_settledItems (ds : List Draft) {k : ℕ} (hk : h.Below k) (hd : ∀ d ∈ ds, Grounded h d) :
    ∃ h', SettledItems h k ds h' :=
  settleItems_settled hk hd fun _ _ _ _ hk hd => settle_settled hk hd

/-- New parts are kept at hand, and the document is as before. -/
structure Enlarges (w : Workspace) (h : Heap) (w' : Workspace) (h' : Heap) : Prop where
  models : Models w' h'
  grows : h.Grows w.fresh h' w'.fresh
  frame : w.SameFrame w'
  root : w'.root = w.root

namespace Enlarges

variable {w' w'' : Workspace} {h' h'' : Heap}

theorem refl (hw : Models w h) : Enlarges w h w h := ⟨hw, .refl hw.below, .refl w, rfl⟩

theorem trans (h1 : Enlarges w h w' h') (h2 : Enlarges w' h' w'' h'') : Enlarges w h w'' h'' :=
  ⟨h2.models, h1.grows.trans h2.grows, h1.frame.trans h2.frame, h2.root.trans h1.root⟩

end Enlarges

/-- The items of a list with the first occurrence of one replaced by others. -/
def spliced (r : Ref) (new rs : List Ref) : List Ref :=
  rs.takeWhile (· ≠ r) ++ new ++ (rs.dropWhile (· ≠ r)).drop 1

theorem count_spliced (r q : Ref) (new rs : List Ref) : (spliced r new rs).count q ≤ rs.count q + new.count q := by
  have hcut : (rs.takeWhile (· ≠ r)).count q + ((rs.dropWhile (· ≠ r)).drop 1).count q ≤ rs.count q := by
    conv => rhs; rw [← takeWhile_append_dropWhile (p := (· ≠ r)) (l := rs), count_append]
    exact Nat.add_le_add_left ((drop_sublist 1 _).count_le q) _
  rw [spliced, count_append, count_append]
  omega

namespace Models

theorem shows_deref (hw : Models w h) (r : Ref) : Shows h (w.deref r) := by
  cases r with
  | scalar s => exact .scalar h s
  | part m =>
    rw [Workspace.deref]
    cases hm : w.part? m with
    | none => exact .scalar h .null
    | some s => exact (hw.shows_part? hm).1

/-- A new part kept at hand. -/
theorem hold (hw : Models w h) {d : Draft} (hd : Grounded h d) :
    ∃ h', Enlarges w h (w.hold d).2 h' ∧ Reflects h' w.fresh d (w.hold d).1 ∧
      h.Charges w.fresh d.olds h' (w.hold d).2.fresh [(w.hold d).1] := by
  obtain ⟨h', hs⟩ := settle_settled hw.below hd
  have e : w.hold d = ((d.settle w.fresh).1.ref,
      ({ w with fresh := (d.settle w.fresh).2 } : Workspace).keep (d.settle w.fresh).1) := rfl
  rw [e]
  refine ⟨h', ⟨⟨?_, ?_, ?_, ?_⟩, ?_, ⟨?_, ?_, ?_, ?_⟩, ?_⟩, hs.reflects, ?_⟩
  · rw [Workspace.keep_root]; exact hw.root.grows hw.below hs.grows
  · intro t ht
    rcases mem_append.mp (show t ∈ w.loose ++ [(d.settle w.fresh).1] by
      revert ht
      cases (d.settle w.fresh).1 with
      | scalar s => exact fun ht => mem_append_left _ ht
      | arr _ _ | obj _ _ => exact id) with ht | ht
    · exact (hw.loose t ht).grows hw.below hs.grows
    · rw [mem_singleton.mp ht]; exact hs.shows
  · intro m c hc
    rcases Nat.lt_or_ge m w.fresh with hm | hm
    · rw [hs.grows.old m hm] at hc
      rcases hw.held m c hc with h1 | ⟨t, ht, h1⟩
      · left; rw [Workspace.keep_root]; exact h1
      · refine .inr ⟨t, ?_, h1⟩
        cases (d.settle w.fresh).1 with
        | scalar s => exact ht
        | arr _ _ | obj _ _ => exact mem_append_left _ ht
    · have hmem := hs.held m c hm hc
      rcases Workspace.mem_loose_keep { w with fresh := (d.settle w.fresh).2 } (d.settle w.fresh).1 with h1 | h1
      · exact .inr ⟨_, h1, hmem⟩
      · rw [h1] at hmem; cases hmem
  · rw [Workspace.keep_fresh]; exact hs.grows.below
  · rw [Workspace.keep_fresh]; exact hs.grows
  · rw [Workspace.keep_program]
  · rw [Workspace.keep_dialect]
  · rw [Workspace.keep_paths]
  · rw [Workspace.keep_root]
  · rw [Workspace.keep_root]
  · rw [Workspace.keep_fresh]; exact fun n => Nat.le_of_eq (hs.uses n)

theorem addPath (hw : Models w h) (p : Path) : Models (w.addPath p).2 h := ⟨hw.root, hw.loose, hw.held, hw.below⟩

theorem lt_fresh (hw : Models w h) {c : Cell} (hc : h m = some c) : m < w.fresh := hw.below m c hc

theorem setPartField (hw : Models w h) {fs : List (String × Ref)} (hc : h m = some (.record fs))
    (key : String) {v : Draft} (hv : Grounded (Function.update h m none) v) :
    ∃ h' r, Models (w.setPartField m key v) h' ∧
      h.Writes w.fresh m (.record (Table.set fs key r)) h' (w.setPartField m key v).fresh ∧
      Reflects h' w.fresh v r ∧ w.SameFrame (w.setPartField m key v) ∧
      h.Charges w.fresh v.olds h' (w.setPartField m key v).fresh [] := by
  obtain ⟨fields, hs, rfl⟩ := hw.exists_record hc
  have hp : w.part? m = some (.obj m fields) := hw.part?_eq hs rfl
  set old := (Table.get? fields key).getD .null with hold
  have e : w.setPartField m key v =
      ({ w.keep old with fresh := (settleItems w.fresh [v]).2 } : Workspace).editPart m
        (Tree.setField key (v.settle w.fresh).1) := by
    simp only [Workspace.setPartField, hp, Option.bind_some, Tree.fields, ← hold, Workspace.settle,
      Workspace.keep_fresh, settleItems]
  have hold' : Shows h old := by
    cases hg : Table.get? fields key with
    | none => rw [hold, hg]; exact .scalar h .null
    | some x => rw [hold, hg]; exact hs.child (mem_map_of_mem (Table.mem_of_get? hg))
  have hw' := hw.keep hold'
  have hfresh : (w.keep old).fresh = w.fresh := w.keep_fresh old
  obtain ⟨h₁, hd⟩ := exists_settledItems [v] hw.below (by simpa using hv.of_without)
  have avoids := not_mem_settleItems [v] hw.below (hw.lt_fresh hc) (by simpa using hv)
  rw [e]
  have ht : (settleItems w.fresh [v]).1 = [(v.settle w.fresh).1] := rfl
  rw [← hfresh] at hd avoids ⊢
  rw [← hfresh] at ht
  obtain ⟨h1, h2, h3⟩ := hw'.write hs rfl hd avoids (f := Tree.setField key (v.settle (w.keep old).fresh).1)
    (c := .record (Table.set (Table.mapValues ref fields) key (v.settle (w.keep old).fresh).1.ref)) rfl
    (by rw [Tree.setField, cell?, Table.mapValues_set]) (fun x hx => by
      rw [ht, mem_singleton]
      exact Table.mem_values_set hx) (fun x hx => by
      rw [ht, mem_singleton] at hx
      rw [hx]
      exact Table.self_mem_values_set ..) (fun x hx => by
      rcases Table.mem_values_set_or key (v.settle (w.keep old).fresh).1 hx with h1 | h1
      · exact .inl h1
      · right
        have : x = old := by rw [hold, h1]; rfl
        rw [this]
        exact w.mem_loose_keep old) (fun r => by
      have hrefs : (obj m fields).children.map ref = (Table.mapValues ref fields).map Prod.snd := by
        simp [Table.mapValues]
      rw [ht, hrefs]
      exact Table.count_values_set _ _ _ _)
  refine ⟨_, _, h1, h2, ?_, ⟨?_, ?_, ?_, ?_⟩, ?_⟩
  · have := hd.reflects (v, (v.settle (w.keep old).fresh).1.ref) (by rw [ht]; exact mem_cons_self)
    exact this.mono (Nat.le_refl _) fun n x hn hx => by
      rw [Function.update_of_ne ?_, hx]
      rintro rfl
      have := hw.lt_fresh hc
      rw [hfresh] at hn
      omega
  · simp [Workspace.editPart]
  · simp [Workspace.editPart]
  · simp [Workspace.editPart]
  · simp [Workspace.editPart, edit_ref (Tree.setField_ref key _)]
  · rw [flatMap_singleton] at h3
    exact h3

section Places
variable {p : Path} {parent list : Mark} {key : String} {rs : List Ref} {fs : List (String × Ref)}

theorem inPlace_item (hw : Models w h) (hp : p.slot = .item parent list key) (hc : h list = some (.list rs)) :
    w.inPlace p = true ↔ p.node ∈ rs := by
  obtain ⟨items, hs, rfl⟩ := hw.exists_list hc
  rw [Workspace.inPlace, hp]
  simp only [hw.part?_eq hs rfl, any_eq_true, beq_iff_eq, mem_map]

theorem inPlace_field (hw : Models w h) (hp : p.slot = .field parent key) (hc : h parent = some (.record fs)) :
    w.inPlace p = true ↔ (Table.get? fs key).getD (.scalar .null) = p.node := by
  obtain ⟨fields, hs, rfl⟩ := hw.exists_record hc
  rw [Workspace.inPlace, hp, Table.get?_mapValues]
  simp only [hw.part?_eq hs rfl, beq_iff_eq]
  cases Table.get? fields key <;> rfl

theorem spliceAt (hw : Models w h) (hc : h list = some (.list rs)) (hin : w.inPlace p = true)
    {new : List Draft} (hn : ∀ d ∈ new, Grounded (Function.update h list none) d) :
    ∃ h' w' news, w.spliceAt p list new = .ok (news, w') ∧ Models w' h' ∧
      h.Writes w.fresh list (.list (spliced p.node news rs)) h' w'.fresh ∧ new.length = news.length ∧
      (∀ q ∈ new.zip news, Reflects h' w.fresh q.1 q.2) ∧ w.SameFrame w' ∧
      h.Charges w.fresh (new.flatMap olds) h' w'.fresh [] := by
  obtain ⟨items, hs, rfl⟩ := hw.exists_list hc
  set old := w.deref p.node with hold
  set ts := (settleItems w.fresh new).1 with hts
  have e : w.spliceAt p list new = .ok (ts.map ref,
      ({ w.keep old with fresh := (settleItems w.fresh new).2 } : Workspace).editPart list
        (Tree.splice p.node ts)) := by
    simp only [Workspace.spliceAt, hin, if_true, Workspace.keep_fresh_comm, hold, hts]
  have hfresh : (w.keep old).fresh = w.fresh := w.keep_fresh old
  obtain ⟨h₁, hd⟩ := exists_settledItems new hw.below fun d hd => (hn d hd).of_without
  have avoids := not_mem_settleItems new hw.below (hw.lt_fresh hc) hn
  -- what is left of the items, by identity
  have hcell : (Tree.splice p.node ts (.arr list items)).cell? =
      some (.list (spliced p.node (ts.map ref) (items.map ref))) := by
    simp only [Tree.splice, cell?, spliced, map_append, takeWhile_map, dropWhile_map,
      map_drop, Function.comp_def]
  obtain ⟨h1, h2, h3⟩ := Models.write (hw.keep (hw.shows_deref p.node)) hs rfl
    (show SettledItems h (w.keep old).fresh new h₁ by rw [hfresh]; exact hd) (by rw [hfresh]; exact avoids)
    (f := Tree.splice p.node ts) rfl hcell
    (fun x hx => by
      rw [hfresh]
      simp only [Tree.splice, children, mem_append] at hx
      rcases hx with (hx | hx) | hx
      · exact .inl ((takeWhile_sublist _).subset hx)
      · exact .inr hx
      · exact .inl ((dropWhile_sublist _).subset (mem_of_mem_drop hx)))
    (fun x hx => by
      rw [hfresh] at hx
      exact mem_append_left _ (mem_append_right _ hx))
    (fun x hx => by
      simp only [Tree.splice, children, mem_append]
      rcases mem_takeWhile_or (p := fun t => decide (t.ref ≠ p.node)) hx with h1 | h1 | h1
      · exact .inl (.inl (.inl h1))
      · right
        have hr : x.ref = p.node := by simpa using h1
        have : x = old := by rw [hold, ← hr, hw.deref_eq (hs.child hx)]
        rw [this]
        exact w.mem_loose_keep old
      · exact .inl (.inr h1))
    (fun r => by
      rw [hfresh]
      exact count_spliced ..)
  rw [hfresh] at h1 h2 h3
  refine ⟨_, _, _, e, h1, h2, ?_, fun q hq => ?_, ⟨?_, ?_, ?_, ?_⟩, h3⟩
  · rw [length_map, hts, settleItems_length]
  · exact (hd.reflects q hq).mono (Nat.le_refl _) fun n x hn hx => by
      rw [Function.update_of_ne ?_, hx]
      rintro rfl
      have := hw.lt_fresh hc
      omega
  · simp [Workspace.editPart]
  · simp [Workspace.editPart]
  · simp [Workspace.editPart]
  · simp [Workspace.editPart, edit_ref (Tree.splice_ref p.node _)]

theorem push (hw : Models w h) (hc : h list = some (.list rs)) {new : Draft}
    (hn : Grounded (Function.update h list none) new) :
    ∃ h' r, Models ((w.settle new).2.editPart list (Tree.push (w.settle new).1)) h' ∧
      h.Writes w.fresh list (.list (r :: rs)) h' (w.settle new).2.fresh ∧
      Reflects h' w.fresh new r ∧
      w.SameFrame ((w.settle new).2.editPart list (Tree.push (w.settle new).1)) ∧
      h.Charges w.fresh new.olds h' (w.settle new).2.fresh [] := by
  obtain ⟨items, hs, rfl⟩ := hw.exists_list hc
  obtain ⟨h₁, hd⟩ := exists_settledItems [new] hw.below (by simpa using hn.of_without)
  have avoids := not_mem_settleItems [new] hw.below (hw.lt_fresh hc) (by simpa using hn)
  obtain ⟨h1, h2, h3⟩ := hw.write hs rfl hd avoids (f := Tree.push (new.settle w.fresh).1)
    (c := .list ((new.settle w.fresh).1.ref :: items.map ref)) rfl rfl
    (fun x hx => (mem_cons.mp hx).symm.imp_right mem_singleton.mpr)
    (fun x hx => mem_cons.mpr (.inl (mem_singleton.mp hx)))
    (fun x hx => .inl (mem_cons_of_mem _ hx)) (fun r => by
      rw [Nat.add_comm, ← count_append]
      exact Nat.le_refl _)
  rw [flatMap_singleton] at h3
  refine ⟨_, _, h1, h2, ?_, ⟨rfl, rfl, rfl, edit_ref (Tree.push_ref _) _ _⟩, h3⟩
  refine (hd.reflects (new, (new.settle w.fresh).1.ref) mem_cons_self).mono (Nat.le_refl _)
    fun n x hn hx => ?_
  rw [Function.update_of_ne ?_, hx]
  rintro rfl
  have := hw.lt_fresh hc
  omega

end Places

end Models

end DebugGuards
