import DebugGuards.Proofs.Workspace.Uses

/-! Settling drafts on a heap. The parts of a draft that have a mark are parts of the
heap already; the new ones get cells of their own above all marks in use. What a
settled draft looks like is said by `Reflects`, which stops at the parts that were there
before: it stays true while those change. -/

namespace DebugGuards

open DebugGuards.Tree List

namespace Heap

/-- All marks in use are below a given one. -/
def Below (h : Heap) (k : ℕ) : Prop := ∀ (m : ℕ) c, h m = some c → m < k

/-- The second heap has the cells of the first, and new ones marked from `k` to `k'`. -/
structure Grows (h : Heap) (k : ℕ) (h' : Heap) (k' : ℕ) : Prop where
  le : k ≤ k'
  old : ∀ m : ℕ, m < k → h' m = h m
  below : h'.Below k'

variable {h h' h'' : Heap} {k k' k'' m : ℕ}

theorem Grows.refl (hk : h.Below k) : h.Grows k h k := ⟨Nat.le_refl k, fun _ _ => rfl, hk⟩

theorem Grows.trans (h1 : h.Grows k h' k') (h2 : h'.Grows k' h'' k'') : h.Grows k h'' k'' :=
  ⟨Nat.le_trans h1.le h2.le, fun m hm => (h2.old m (Nat.lt_of_lt_of_le hm h1.le)).trans (h1.old m hm), h2.below⟩

theorem Grows.cell (hg : h.Grows k h' k') (hk : h.Below k) {c : Cell} (hc : h m = some c) : h' m = some c := by
  rw [hg.old m (hk m c hc), hc]

end Heap

theorem Shows.grows {h h' : Heap} {k k' : ℕ} {t : Tree Mark} (ht : Shows h t) (hk : h.Below k)
    (hg : h.Grows k h' k') : Shows h' t :=
  ht.congr fun m hm => by
    obtain ⟨c, hc⟩ := ht.some_of_mem hm
    rw [hg.cell hk hc, hc]

/-- The marked parts of the draft are parts of the heap. -/
inductive Grounded (h : Heap) : Draft → Prop
  | shown (t : Tree Mark) (ht : Shows h t) : Grounded h t.draft
  | made (d : Draft) (new : ∀ m, d.mark? ≠ some (some m)) (inside : ∀ c ∈ d.children, Grounded h c) :
      Grounded h d

/-- A cell has room for the direct parts of a document: as many items, or the same
field names. -/
def Cell.Fits {α : Type} : Cell → Tree α → Prop
  | .list rs, .arr _ items => rs.length = items.length
  | .record fs, .obj _ fields => fs.map Prod.fst = fields.map Prod.fst
  | _, _ => False

theorem Cell.Fits.length_eq {α : Type} {c : Cell} {t : Tree α} (hf : c.Fits t) :
    t.children.length = c.refs.length := by
  cases t with
  | scalar => cases c <;> exact hf.elim
  | arr m items => cases c with
    | list rs => exact hf.symm
    | record fs => exact hf.elim
  | obj m fields => cases c with
    | list rs => exact hf.elim
    | record fs => simpa [Cell.refs] using congrArg List.length hf.symm

/-- The identity stands for the settled draft: marked parts are taken as they are, and
new ones have cells marked from `k` on. -/
inductive Reflects (h : Heap) (k : ℕ) : Draft → Ref → Prop
  | scalar (s : Scalar) : Reflects h k (.scalar s) (.scalar s)
  | old (d : Draft) (m : Mark) (hm : d.mark? = some (some m)) : Reflects h k d (.part m)
  | new (d : Draft) (m : ℕ) (c : Cell) (hd : d.mark? = some none) (hk : k ≤ m) (hc : h m = some c)
      (fits : c.Fits d) (inside : ∀ p ∈ d.children.zip c.refs, Reflects h k p.1 p.2) :
      Reflects h k d (.part m)

namespace Reflects

variable {h h' : Heap} {k k' : ℕ} {d : Draft} {r : Ref}

/-- Only the cells marked from `k` on matter. -/
theorem mono (hr : Reflects h k d r) (hk : k' ≤ k) (hh : ∀ (m : ℕ) c, k ≤ m → h m = some c → h' m = some c) :
    Reflects h' k' d r := by
  induction hr with
  | scalar s => exact .scalar s
  | old d m hm => exact .old d m hm
  | new d m c hd hm hc fits _ ih => exact .new d m c hd (Nat.le_trans hk hm) (hh m c hm hc) fits ih

theorem grows (hr : Reflects h k d r) {l l' : ℕ} (hl : h.Below l) (hg : h.Grows l h' l') :
    Reflects h' k d r :=
  hr.mono (Nat.le_refl k) fun _ _ _ hc => hg.cell hl hc

end Reflects

theorem Grounded.grows {h h' : Heap} {k k' : ℕ} {d : Draft} (hd : Grounded h d) (hk : h.Below k)
    (hg : h.Grows k h' k') : Grounded h' d := by
  induction hd with
  | shown t ht => exact .shown t (ht.grows hk hg)
  | made d new _ ih => exact .made d new ih

mutual
/-- The marked parts a draft takes as they are. -/
def Tree.olds : Draft → List Mark
  | .scalar _ => []
  | .arr (some m) _ | .obj (some m) _ => [m]
  | .arr none items => oldsItems items
  | .obj none fields => oldsFields fields
def Tree.oldsItems : List Draft → List Mark
  | [] => []
  | t :: ts => olds t ++ oldsItems ts
def Tree.oldsFields : List (String × Draft) → List Mark
  | [] => []
  | (_, t) :: ts => olds t ++ oldsFields ts
end

@[simp] theorem Tree.olds_scalar (s : Scalar) : (scalar s : Draft).olds = [] := by rw [olds]

theorem Tree.olds_old {d : Draft} {m : Mark} (hd : d.mark? = some (some m)) : d.olds = [m] := by
  cases d with
  | scalar => cases hd
  | arr _ _ | obj _ _ => cases hd; rw [olds]

theorem Tree.olds_new {d : Draft} (hd : d.mark? = some none) : d.olds = d.children.flatMap olds := by
  have hi : ∀ items, oldsItems items = items.flatMap olds := by
    intro items
    induction items with
    | nil => rfl
    | cons t ts ih => rw [oldsItems, ih, flatMap_cons]
  have hf : ∀ fields : List (String × Draft), oldsFields fields = (fields.map Prod.snd).flatMap olds := by
    intro fields
    induction fields with
    | nil => rfl
    | cons e ts ih => rw [oldsFields, ih, map_cons, flatMap_cons]
  cases d with
  | scalar => cases hd
  | arr _ items => cases hd; rw [olds, hi]; rfl
  | obj _ fields => cases hd; rw [olds, hf]; rfl

namespace Tree

theorem settleFields_eq (next : Mark) (fields : List (String × Draft)) :
    settleFields next fields =
      ((fields.map Prod.fst).zip (settleItems next (fields.map Prod.snd)).1,
        (settleItems next (fields.map Prod.snd)).2) := by
  induction fields generalizing next with
  | nil => rfl
  | cons e es ih => simp only [settleFields, settleItems, map_cons, ih, zip_cons_cons]

theorem settleItems_length (next : Mark) (items : List Draft) :
    (settleItems next items).1.length = items.length := by
  induction items generalizing next with
  | nil => rfl
  | cons t ts ih => simp only [settleItems, length_cons, ih]

theorem settleItems_draft {items : List (Tree Mark)} (next : Mark)
    (ih : ∀ t ∈ items, ∀ next, t.draft.settle next = (t, next)) :
    settleItems next (items.map draft) = (items, next) := by
  induction items with
  | nil => rfl
  | cons t ts ihs =>
    rw [forall_mem_cons] at ih
    simp only [map_cons, settleItems, ih.1, ihs ih.2]

theorem draft_arr (m : Mark) (items : List (Tree Mark)) :
    (arr m items).draft = arr (some m) (items.map draft) := by
  rw [draft, map, mapItems_eq_map]; rfl

theorem draft_obj (m : Mark) (fields : Fields Mark) :
    (obj m fields).draft = obj (some m) (Table.mapValues draft fields) := by
  rw [draft, map, mapFields_eq_mapValues]; rfl

/-- Settling leaves marked parts alone. -/
theorem settle_draft (t : Tree Mark) (next : Mark) : t.draft.settle next = (t, next) := by
  induction t using induct generalizing next with
  | scalar s => rfl
  | arr m items ih => simp only [draft_arr, settle, takeMark, settleItems_draft next ih]
  | obj m fields ih =>
    have hv : (Table.mapValues draft fields).map Prod.snd = (fields.map Prod.snd).map draft := by
      simp [Table.mapValues]
    have hk : (Table.mapValues draft fields).map Prod.fst = fields.map Prod.fst := by
      simp [Table.mapValues]
    have hi : settleItems next ((fields.map Prod.snd).map draft) = (fields.map Prod.snd, next) := by
      refine settleItems_draft next fun t ht => ?_
      obtain ⟨e, he, rfl⟩ := mem_map.mp ht
      exact ih e he
    simp only [draft_obj, settle, takeMark, settleFields_eq, hv, hk, hi]
    rw [← unzip_fst, ← unzip_snd, zip_unzip]

theorem count_olds_draft (t : Tree Mark) (n : ℕ) : t.draft.olds.count n = [t.ref].count (.part n) := by
  cases t with
  | scalar s => simp [draft, ref]
  | arr m items | obj m fields => simp [draft_arr, draft_obj, olds, ref, count_singleton]

end Tree

/-- What settling a draft does to a heap: the new parts have cells, the marks in use
grow, and the result is a document shown. -/
structure Settled (h : Heap) (k : ℕ) (d : Draft) (h' : Heap) : Prop where
  grows : h.Grows k h' (d.settle k).2
  shows : Shows h' (d.settle k).1
  held : ∀ (m : ℕ) c, k ≤ m → h' m = some c → m ∈ (d.settle k).1.marks
  reflects : Reflects h' k d (d.settle k).1.ref
  uses : ∀ n : ℕ, h'.uses (.part n) (d.settle k).2 + [(d.settle k).1.ref].count (.part n) =
    h.uses (.part n) k + Heap.newMark k (d.settle k).2 n + d.olds.count n

/-- The same for several drafts. -/
structure SettledItems (h : Heap) (k : ℕ) (ds : List Draft) (h' : Heap) : Prop where
  grows : h.Grows k h' (settleItems k ds).2
  shows : ∀ t ∈ (settleItems k ds).1, Shows h' t
  held : ∀ (m : ℕ) c, k ≤ m → h' m = some c → m ∈ (settleItems k ds).1.flatMap marks
  reflects : ∀ p ∈ ds.zip ((settleItems k ds).1.map ref), Reflects h' k p.1 p.2
  uses : ∀ n : ℕ, h'.uses (.part n) (settleItems k ds).2 + ((settleItems k ds).1.map ref).count (.part n) =
    h.uses (.part n) k + Heap.newMark k (settleItems k ds).2 n + (ds.flatMap olds).count n

theorem settleItems_settled {ds : List Draft} {h : Heap} {k : ℕ} (hk : h.Below k)
    (hd : ∀ d ∈ ds, Grounded h d)
    (ih : ∀ d ∈ ds, ∀ (h : Heap) (k : ℕ), h.Below k → Grounded h d → ∃ h', Settled h k d h') :
    ∃ h', SettledItems h k ds h' := by
  induction ds generalizing h k with
  | nil =>
    refine ⟨h, .refl hk, by simp [settleItems], fun m c hm hc => absurd (hk m c hc) (by omega), by simp [settleItems],
      fun n => ?_⟩
    rw [settleItems, Heap.newMark_self]
    rfl
  | cons d ds ihs =>
    rw [forall_mem_cons] at hd ih
    obtain ⟨h1, s1⟩ := ih.1 h k hk hd.1
    obtain ⟨h2, s2⟩ := ihs s1.grows.below (fun d hm => (hd.2 d hm).grows hk s1.grows) ih.2
    refine ⟨h2, ⟨?_, ?_, ?_, ?_, ?_⟩⟩
    · exact s1.grows.trans s2.grows
    · simp only [settleItems, forall_mem_cons]
      exact ⟨s1.shows.grows s1.grows.below s2.grows, s2.shows⟩
    · intro m c hm hc
      simp only [settleItems, flatMap_cons, mem_append]
      by_cases hlt : m < (d.settle k).2
      · exact .inl (s1.held m c hm (by rw [← s2.grows.old m hlt]; exact hc))
      · exact .inr (s2.held m c (by omega) hc)
    · simp only [settleItems, map_cons, zip_cons_cons, forall_mem_cons]
      refine ⟨s1.reflects.grows s1.grows.below s2.grows, fun p hp => ?_⟩
      exact (s2.reflects p hp).mono s1.grows.le fun _ _ _ hc => hc
    · intro n
      have u1 := s1.uses n
      have u2 := s2.uses n
      have hnew := Heap.newMark_add s1.grows.le s2.grows.le n
      rw [flatMap_cons, count_append]
      simp only [settleItems, map_cons]
      rw [count_cons]
      rw [count_singleton] at u1
      omega

/-- A new composite part over settled parts. -/
theorem SettledItems.wrap {h h' : Heap} {k : ℕ} {d : Draft} {t : Tree Mark} {c : Cell}
    (hk : h.Below k) (hd : d.mark? = some none)
    (hs : SettledItems h (k + 1) d.children h') (ht : d.settle k = (t, (settleItems (k + 1) d.children).2))
    (hr : t.ref = .part k) (hc : t.cell? = some c) (hch : t.children = (settleItems (k + 1) d.children).1)
    (fits : c.Fits d) (refs : c.refs = t.children.map ref) :
    Settled h k d (Function.update h' k (some c)) := by
  have hne : ∀ (m : ℕ) c, h' m = some c → m ≠ k := by
    rintro m x hx rfl
    rw [hs.grows.old m (by omega)] at hx
    have := hk m x hx
    omega
  have hup : ∀ (m : ℕ) x, h' m = some x → Function.update h' k (some c) m = some x := fun m x hx => by
    rw [Function.update_of_ne (hne m x hx), hx]
  have hle : k + 1 ≤ (settleItems (k + 1) d.children).2 := hs.grows.le
  refine ⟨⟨?_, ?_, ?_⟩, ?_, ?_, ?_, fun n => ?_⟩
  · rw [ht]; omega
  · intro m hm
    rw [Function.update_of_ne (Nat.ne_of_lt hm), hs.grows.old m (by omega)]
  · intro m x hx
    rw [ht]
    by_cases e : m = k
    · simp only; omega
    · rw [Function.update_of_ne e] at hx
      exact hs.grows.below m x hx
  · rw [ht]
    refine .intro t (fun m hm => ?_) fun x hx => ?_
    · rw [hr] at hm; cases hm
      rw [Function.update_self, hc]
    · rw [hch] at hx
      refine (hs.shows x hx).congr fun m hm => ?_
      obtain ⟨y, hy⟩ := (hs.shows x hx).some_of_mem hm
      rw [hup m y hy, hy]
  · intro m x hm hx
    rw [ht, marks_eq, hch, mem_append]
    by_cases e : m = k
    · left; rw [ref_eq_part_iff.mp hr, e]; exact mem_cons_self
    · right
      rw [Function.update_of_ne e] at hx
      exact hs.held m x (by omega) hx
  · rw [ht, hr]
    refine .new d k c hd (Nat.le_refl k) (Function.update_self ..) fits fun p hp => ?_
    rw [refs, hch] at hp
    exact (hs.reflects p hp).mono (Nat.le_succ k) fun m x _ hx => hup m x hx
  · have hnone : ∀ g : Heap, (∀ m : ℕ, m < k + 1 → g m = h m) → g.usesAt (.part n) k = 0 := fun g hg => by
      refine Heap.usesAt_of_none ((hg k (Nat.lt_succ_self k)).trans ?_)
      cases hx : h k with
      | none => rfl
      | some x => exact absurd (hk k x hx) (Nat.lt_irrefl k)
    have u := hs.uses n
    have u' := Heap.uses_update (h := h') (r := .part n) (Nat.lt_of_succ_le hle) c
    rw [hnone h' fun m hm => hs.grows.old m hm] at u'
    rw [Heap.uses, hnone h fun _ _ => rfl] at u
    rw [ht, hr, olds_new hd]
    rw [refs, hch] at u'
    have hnew := Heap.newMark_succ (Nat.lt_of_succ_le hle) n
    dsimp only
    omega

theorem settle_settled {d : Draft} {h : Heap} {k : ℕ} (hk : h.Below k) (hd : Grounded h d) :
    ∃ h', Settled h k d h' := by
  induction d using inductChildren generalizing h k with
  | step d ih =>
    cases hd with
    | shown t ht =>
      refine ⟨h, ⟨?_, ?_, ?_, ?_, ?_⟩⟩ <;> rw [settle_draft]
      · exact .refl hk
      · exact ht
      · intro m c hm hc
        have := hk m c hc
        omega
      · cases t with
        | scalar s => exact .scalar s
        | arr m items => exact .old _ m rfl
        | obj m fields => exact .old _ m rfl
      · intro n
        rw [Heap.newMark_self, count_olds_draft]
        rfl
    | made d new inside =>
      have hk1 : h.Below (k + 1) := fun m c hc => Nat.lt_succ_of_lt (hk m c hc)
      cases d with
      | scalar s =>
        refine ⟨h, .refl hk, .scalar h s, fun m c hm hc => absurd (hk m c hc) (by omega), .scalar s, fun n => ?_⟩
        rw [settle, Heap.newMark_self]
        simp [olds, ref]
      | arr m items =>
        obtain rfl : m = none := by cases m with
          | none => rfl
          | some m => exact absurd rfl (new m)
        obtain ⟨h', hs⟩ := settleItems_settled hk1 inside fun d hm h k hk hd => ih d hm hk hd
        refine ⟨_, hs.wrap (t := arr k _) hk rfl rfl rfl rfl rfl ?_ rfl⟩
        simp [Cell.Fits, settleItems_length]
      | obj m fields =>
        obtain rfl : m = none := by cases m with
          | none => rfl
          | some m => exact absurd rfl (new m)
        obtain ⟨h', hs⟩ := settleItems_settled hk1 inside fun d hm h k hk hd => ih d hm hk hd
        have hl : (fields.map Prod.fst).length = (settleItems (k + 1) (fields.map Prod.snd)).1.length := by
          rw [settleItems_length, length_map, length_map]
        refine ⟨_, hs.wrap (t := obj k ((fields.map Prod.fst).zip (settleItems (k + 1) (fields.map Prod.snd)).1))
          hk rfl ?_ rfl rfl ?_ ?_ ?_⟩
        · simp only [settle, takeMark, settleFields_eq, children]
        · rw [children, map_snd_zip (Nat.le_of_eq hl.symm)]; rfl
        · simp only [Cell.Fits, Table.mapValues, List.map_map]
          exact map_fst_zip (Nat.le_of_eq hl)
        · simp [Cell.refs, Table.mapValues]

end DebugGuards
