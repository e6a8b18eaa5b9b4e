import DebugGuards.Workspace.Mark
import DebugGuards.Proofs.Node.Map
import Mathlib.Data.List.Nodup
import Mathlib.Order.Basic
import Mathlib.Tactic.SplitIfs

/-! The heap behind a marked document. A heap says for each mark what the part of that
mark holds, its own parts by identity only. A document is shown by a heap if each of
its parts holds what the heap says; then the mark of a part determines the whole part,
no part lies inside itself, and an edit of all occurrences of a mark is an update of
the heap at one point. -/

namespace DebugGuards

open List

namespace Tree

variable {α β : Type}

/-- The parts a document directly consists of. -/
@[simp] def children : Tree α → List (Tree α)
  | scalar _ => []
  | arr _ items => items
  | obj _ fields => fields.map Prod.snd

/-- Induction over the parts of a document, whatever holds them. -/
@[elab_as_elim]
theorem inductChildren {P : Tree α → Prop} (step : ∀ t, (∀ c ∈ t.children, P c) → P t)
    (t : Tree α) : P t := by
  induction t using induct with
  | scalar s => exact step _ (by simp)
  | arr m items ih => exact step _ ih
  | obj m fields ih => exact step _ (by simpa using fun c k hc => ih (k, c) hc)

theorem sizeOf_child [SizeOf α] {t c : Tree α} (hc : c ∈ t.children) : sizeOf c < sizeOf t := by
  cases t with
  | scalar => cases hc
  | arr m items =>
    rw [children] at hc
    have := sizeOf_lt_of_mem hc
    simp only [arr.sizeOf_spec]
    omega
  | obj m fields =>
    obtain ⟨e, he, rfl⟩ := mem_map.mp hc
    have := sizeOf_lt_of_mem he
    obtain ⟨k, x⟩ := e
    simp only [Prod.mk.sizeOf_spec, obj.sizeOf_spec] at this ⊢
    omega

/-- Induction over all that lies inside a document, at any depth. -/
@[elab_as_elim]
theorem inductSize [SizeOf α] {P : Tree α → Prop} (step : ∀ t, (∀ x, sizeOf x < sizeOf t → P x) → P t)
    (t : Tree α) : P t :=
  (measure sizeOf).wf.induction t step

/-- The document with its direct parts sent through a function. -/
def mapChildren (f : Tree α → Tree α) : Tree α → Tree α
  | scalar s => scalar s
  | arr m items => arr m (items.map f)
  | obj m fields => obj m (Table.mapValues f fields)

@[simp] theorem children_mapChildren (f : Tree α → Tree α) (t : Tree α) :
    (t.mapChildren f).children = t.children.map f := by
  cases t <;> simp [mapChildren, Table.mapValues]

theorem marksItems_eq (items : List (Tree α)) : marksItems items = items.flatMap marks := by
  induction items with
  | nil => rfl
  | cons t ts ih => rw [marksItems, ih, flatMap_cons]

theorem marksFields_eq (fields : Fields α) :
    marksFields fields = (fields.map Prod.snd).flatMap marks := by
  induction fields with
  | nil => rfl
  | cons e ts ih => rw [marksFields, ih, map_cons, flatMap_cons]

theorem marks_eq (t : Tree α) : t.marks = t.mark?.toList ++ t.children.flatMap marks := by
  cases t <;> simp [marks, mark?, marksItems_eq, marksFields_eq]

@[simp] theorem marks_scalar (s : Scalar) : (scalar s : Tree α).marks = [] := by rw [marks]

theorem marks_child {t c : Tree α} (hc : c ∈ t.children) : c.marks ⊆ t.marks := by
  rw [marks_eq t]
  intro m hm
  exact mem_append_right _ (mem_flatMap.mpr ⟨c, hc, hm⟩)

section Marked
variable (m : Mark) (f : Tree Mark → Tree Mark)

theorem ref_eq_part_iff {t : Tree Mark} {m : Mark} : t.ref = .part m ↔ t.mark? = some m := by
  cases t <;> simp [ref, mark?]

theorem edit_eq (t : Tree Mark) :
    t.edit m f = if t.ref = .part m then f t else t.mapChildren (edit m f) := by
  have hi : ∀ items, editItems m f items = items.map (edit m f) := by
    intro items
    induction items with
    | nil => rfl
    | cons t ts ih => rw [editItems, ih, map_cons]
  have hf : ∀ fields, editFields m f fields = Table.mapValues (edit m f) fields := by
    intro fields
    induction fields with
    | nil => rfl
    | cons e ts ih => rw [editFields, ih]; rfl
  cases t <;> simp [edit, ref, mapChildren, hi, hf]

theorem find?_eq (t : Tree Mark) :
    t.find? m = if t.ref = .part m then some t else t.children.findSome? (find? m) := by
  have hi : ∀ items, findItems? m items = items.findSome? (find? m) := by
    intro items
    induction items with
    | nil => rfl
    | cons t ts ih => rw [findItems?, ih, findSome?_cons]; cases find? m t <;> rfl
  have hf : ∀ fields : Fields Mark,
      findFields? m fields = (fields.map Prod.snd).findSome? (find? m) := by
    intro fields
    induction fields with
    | nil => rfl
    | cons e ts ih => rw [findFields?, ih, map_cons, findSome?_cons]; cases find? m e.2 <;> rfl
  cases t <;> simp [find?, ref, hi, hf]

end Marked

theorem mem_marks_of_ref {t : Tree Mark} {m : Mark} (h : t.ref = .part m) : m ∈ t.marks := by
  rw [marks_eq, ref_eq_part_iff.mp h]
  exact mem_cons_self

/-- What is found has the mark sought, lies inside, and is no larger. -/
theorem find?_spec {m : Mark} {t s : Tree Mark} (h : t.find? m = some s) :
    s.ref = .part m ∧ s.marks ⊆ t.marks ∧ s.marks.length ≤ t.marks.length := by
  induction t using inductChildren with
  | step t ih =>
    rw [find?_eq] at h
    split_ifs at h with hn
    · cases h; exact ⟨hn, List.Subset.refl _, Nat.le_refl _⟩
    · obtain ⟨c, hc, hs⟩ := exists_of_findSome?_eq_some h
      obtain ⟨h1, h2, h3⟩ := ih c hc hs
      have hsub : c.marks.Sublist (t.children.flatMap marks) :=
        sublist_flatten_of_mem (mem_map_of_mem hc)
      refine ⟨h1, List.Subset.trans h2 (marks_child hc), ?_⟩
      rw [marks_eq t, length_append]
      have := hsub.length_le
      omega

theorem find?_isSome {m : Mark} {t : Tree Mark} (h : m ∈ t.marks) : ∃ s, t.find? m = some s := by
  induction t using inductChildren with
  | step t ih =>
    rw [find?_eq]
    split_ifs with hn
    · exact ⟨t, rfl⟩
    · rw [marks_eq, mem_append, mem_flatMap, Option.mem_toList] at h
      obtain ⟨c, hc, hm⟩ := h.resolve_left fun e => hn (ref_eq_part_iff.mpr e)
      obtain ⟨s, hs⟩ := ih c hc hm
      rw [← Option.isSome_iff_exists, findSome?_isSome_iff]
      exact ⟨c, hc, by rw [hs]; rfl⟩

end Tree

/-- What a part holds, its own parts by identity. -/
inductive Cell where
  | list (items : List Ref)
  | record (fields : List (String × Ref))
deriving DecidableEq

namespace Cell

/-- The parts a cell refers to. -/
def refs : Cell → List Ref
  | list items => items
  | record fields => fields.map Prod.snd

end Cell

/-- What a part holds; a scalar holds nothing. -/
def Tree.cell? : Tree Mark → Option Cell
  | scalar _ => none
  | arr _ items => some (.list (items.map ref))
  | obj _ fields => some (.record (Table.mapValues ref fields))

theorem Tree.cell?_refs {t : Tree Mark} {c : Cell} (hc : t.cell? = some c) : c.refs = t.children.map ref := by
  cases t with
  | scalar => cases hc
  | arr => cases hc; rfl
  | obj => cases hc; simp [Cell.refs, Table.mapValues]

abbrev Heap := Mark → Option Cell

/-- Each part of the document holds what the heap says. -/
inductive Shows (h : Heap) : Tree Mark → Prop
  | intro (t : Tree Mark) (here : ∀ m, t.ref = .part m → h m = t.cell?)
      (inside : ∀ c ∈ t.children, Shows h c) : Shows h t

namespace Shows

open DebugGuards.Tree

variable {h h' : Heap} {t s c : Tree Mark} {m : Mark}

theorem here (ht : Shows h t) (hm : t.ref = .part m) : h m = t.cell? := by
  cases ht with
  | intro _ here _ => exact here m hm

theorem child (ht : Shows h t) (hc : c ∈ t.children) : Shows h c := by
  cases ht with
  | intro _ _ inside => exact inside c hc

theorem scalar (h : Heap) (s : Scalar) : Shows h (.scalar s) := .intro _ nofun (by simp)

section

variable (ht : Shows h t)
include ht

/-- The identity of a part determines it. -/
theorem unique (hs : Shows h s) (e : t.ref = s.ref) : t = s := by
  induction t using induct generalizing s with
  | scalar x => cases s <;> simp_all [ref]
  | arr n items ih =>
    have hn := (ht.here rfl).symm.trans (hs.here e.symm)
    cases s with
    | scalar => cases e
    | obj => simp [cell?] at hn
    | arr n' items' =>
      simp only [ref, Ref.part.injEq] at e
      simp only [cell?, Option.some.injEq, Cell.list.injEq] at hn
      subst e
      congr 1
      apply ext_getElem (by simpa using congrArg List.length hn)
      intro i h1 h2
      refine ih _ (getElem_mem h1) (ht.child (getElem_mem h1)) (hs.child (getElem_mem h2)) ?_
      have := getElem_of_eq hn (i := i) (by simpa using h1)
      simpa using this
  | obj n fields ih =>
    have hn := (ht.here rfl).symm.trans (hs.here e.symm)
    cases s with
    | scalar => cases e
    | arr => simp [cell?] at hn
    | obj n' fields' =>
      simp only [ref, Ref.part.injEq] at e
      simp only [cell?, Option.some.injEq, Cell.record.injEq, Table.mapValues] at hn
      subst e
      congr 1
      apply ext_getElem (by simpa using congrArg List.length hn)
      intro i h1 h2
      have hi := getElem_of_eq hn (i := i) (by simpa using h1)
      simp only [getElem_map, Prod.mk.injEq] at hi
      refine Prod.ext hi.1 (ih _ (getElem_mem h1) (ht.child ?_) (hs.child ?_) hi.2)
      · exact mem_map_of_mem (getElem_mem h1)
      · exact mem_map_of_mem (getElem_mem h2)

theorem find? (hs : t.find? m = some s) : Shows h s := by
  induction t using inductChildren with
  | step t ih =>
    rw [find?_eq] at hs
    split_ifs at hs with hn
    · cases hs; exact ht
    · obtain ⟨c, hc, hs⟩ := exists_of_findSome?_eq_some hs
      exact ih c hc (ht.child hc) hs

theorem exists_part (hm : m ∈ t.marks) : ∃ s, Shows h s ∧ s.ref = .part m := by
  obtain ⟨s, hs⟩ := find?_isSome hm
  exact ⟨s, ht.find? hs, (find?_spec hs).1⟩

theorem marks_subset (hm : m ∈ t.marks) (hs : Shows h s) (e : s.ref = .part m) : s.marks ⊆ t.marks := by
  obtain ⟨s', hs'⟩ := find?_isSome hm
  obtain ⟨h1, h2, _⟩ := find?_spec hs'
  obtain rfl : s' = s := (ht.find? hs').unique hs (h1.trans e.symm)
  exact h2

theorem not_mem_child (hm : t.ref = .part m) (hc : c ∈ t.children) : m ∉ c.marks := by
  intro hmem
  obtain ⟨s, hs⟩ := find?_isSome hmem
  obtain ⟨h1, _, h3⟩ := find?_spec hs
  have : s = t := ((ht.child hc).find? hs).unique ht (h1.trans hm.symm)
  subst this
  have hsub : c.marks.Sublist (s.children.flatMap marks) :=
    sublist_flatten_of_mem (mem_map_of_mem hc)
  have := hsub.length_le
  rw [marks_eq s, ref_eq_part_iff.mp hm, length_append] at h3
  simp only [Option.toList_some, length_cons, length_nil] at h3
  omega

theorem some_of_mem (hm : m ∈ t.marks) : ∃ c, h m = some c := by
  obtain ⟨s, hs, e⟩ := ht.exists_part hm
  rw [hs.here e]
  cases s with
  | scalar => cases e
  | arr => exact ⟨_, rfl⟩
  | obj => exact ⟨_, rfl⟩

theorem mem_marks_of_refs (hm : m ∈ t.marks) {x : Cell} (hx : h m = some x) {n : Mark}
    (hn : .part n ∈ x.refs) : n ∈ t.marks := by
  obtain ⟨s, hs, e⟩ := ht.exists_part hm
  rw [hs.here e] at hx
  rw [cell?_refs hx] at hn
  obtain ⟨c, hc, hr⟩ := mem_map.mp hn
  exact ht.marks_subset hm hs e (marks_child hc (mem_marks_of_ref hr))

/-- Only the heap at the marks of a document matters. -/
theorem congr (hh : ∀ m ∈ t.marks, h' m = h m) : Shows h' t := by
  induction t using inductChildren with
  | step t ih =>
    refine .intro t (fun m hm => ?_) fun c hc => ?_
    · rw [hh m (mem_marks_of_ref hm), ht.here hm]
    · exact ih c hc (ht.child hc) fun m hm => hh m (marks_child hc hm)

end

theorem mapChildren_ref (g : Tree Mark → Tree Mark) (t : Tree Mark) : (t.mapChildren g).ref = t.ref := by
  cases t <;> rfl

theorem mapChildren_cell? {g : Tree Mark → Tree Mark} (hg : ∀ c ∈ t.children, (g c).ref = c.ref) :
    (t.mapChildren g).cell? = t.cell? := by
  cases t with
  | scalar s => rfl
  | arr m items => simpa [mapChildren, cell?] using hg
  | obj m fields =>
    simp only [mapChildren, cell?, Table.mapValues, List.map_map, Option.some.injEq, Cell.record.injEq]
    apply map_congr_left
    intro e he
    exact Prod.ext rfl (hg e.2 (mem_map_of_mem he))

theorem edit {f : Tree Mark → Tree Mark} (ht : Shows h t)
    (hf : ∀ s, Shows h s → s.ref = .part m → Shows h' (f s) ∧ (f s).ref = .part m)
    (hh : ∀ n c, n ≠ m → h n = some c → h' n = some c) :
    Shows h' (t.edit m f) ∧ (t.edit m f).ref = t.ref := by
  induction t using inductChildren with
  | step t ih =>
    rw [edit_eq]
    split_ifs with hm
    · rw [hm]; exact hf t ht hm
    · have hr : ∀ c ∈ t.children, (c.edit m f).ref = c.ref := fun c hc => (ih c hc (ht.child hc)).2
      refine ⟨.intro _ (fun n hn => ?_) fun c hc => ?_, mapChildren_ref _ _⟩
      · rw [mapChildren_ref] at hn
        obtain ⟨x, hx⟩ := ht.some_of_mem (mem_marks_of_ref hn)
        rw [mapChildren_cell? hr, ← ht.here hn, hx]
        exact hh n x (fun e => hm (e ▸ hn)) hx
      · rw [children_mapChildren, mem_map] at hc
        obtain ⟨c, hc, rfl⟩ := hc
        exact (ih c hc (ht.child hc)).1

/-- What an edit takes out of a document it takes out of the part edited. -/
theorem mem_marks_edit {f : Tree Mark → Tree Mark} {n : Mark} (ht : Shows h t) (hn : n ∈ t.marks) :
    n ∈ (t.edit m f).marks ∨
      ∃ s, Shows h s ∧ s.ref = .part m ∧ n ∈ s.marks ∧ (f s).marks ⊆ (t.edit m f).marks := by
  induction t using inductChildren with
  | step t ih =>
    rw [edit_eq]
    split_ifs with hm
    · exact .inr ⟨t, ht, hm, hn, List.Subset.refl _⟩
    · rw [marks_eq t, mem_append, Option.mem_toList] at hn
      rcases hn with hn | hn
      · refine .inl (mem_marks_of_ref ?_)
        rw [mapChildren_ref]
        exact ref_eq_part_iff.mpr hn
      · obtain ⟨c, hc, hn⟩ := mem_flatMap.mp hn
        have hsub : (c.edit m f).marks ⊆ (t.mapChildren (Tree.edit m f)).marks :=
          marks_child (by rw [children_mapChildren]; exact mem_map_of_mem hc)
        rcases ih c hc (ht.child hc) hn with h1 | ⟨s, h1, h2, h3, h4⟩
        · exact .inl (hsub h1)
        · exact .inr ⟨s, h1, h2, h3, List.Subset.trans h4 hsub⟩

end Shows

theorem Tree.edit_of_not_mem {m : Mark} {f : Tree Mark → Tree Mark} {t : Tree Mark} (hm : m ∉ t.marks) :
    t.edit m f = t := by
  induction t using inductChildren with
  | step t ih =>
    rw [edit_eq, if_neg fun h => hm (mem_marks_of_ref h)]
    have hc : ∀ c ∈ t.children, c.edit m f = c := fun c hc => ih c hc fun h => hm (marks_child hc h)
    cases t with
    | scalar s => rfl
    | arr n items =>
      rw [mapChildren]
      congr 1
      exact (map_congr_left hc).trans (map_id' items)
    | obj n fields =>
      rw [mapChildren, Table.mapValues]
      congr 1
      refine (map_congr_left fun e he => ?_).trans (map_id' fields)
      exact Prod.ext rfl (hc e.2 (mem_map_of_mem he))

end DebugGuards
