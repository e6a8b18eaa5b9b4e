import DebugGuards.Proofs.Workspace.Walk
import Mathlib.Data.List.Flatten
import Mathlib.Data.List.Perm.Basic
import Mathlib.Data.List.Pairwise

/-! Documents without shared parts. If no mark occurs twice, the document itself gives a
heap that shows it, each part is held by one other part at most and there only once,
and a node met earlier on a walk is no part of one met later. -/

namespace DebugGuards

open DebugGuards.Tree List

def Ref.part? : Ref → Option Mark
  | part m => some m
  | scalar _ => none

/-- The parts a cell refers to that have an identity. -/
def Cell.parts (c : Cell) : List Mark := c.refs.filterMap Ref.part?

/-- The parts that the part of a mark refers to. -/
def Heap.parts (h : Heap) (m : Mark) : List Mark := ((h m).map Cell.parts).getD []

/-- What each part of a document holds. -/
def Tree.heap (t : Tree Mark) : Heap := fun m => (t.find? m).bind cell?

theorem Cell.mem_parts {c : Cell} {m : Mark} : m ∈ c.parts ↔ .part m ∈ c.refs := by
  rw [parts, mem_filterMap]
  constructor
  · rintro ⟨r, hr, e⟩
    cases r with
    | part n => cases e; exact hr
    | scalar s => cases e
  · exact fun h => ⟨_, h, rfl⟩

theorem Tree.cell?_parts (t : Tree Mark) :
    (t.cell?.map Cell.parts).getD [] = t.children.flatMap fun c => c.mark?.toList := by
  have key : ∀ l : List (Tree Mark),
      (l.map ref).filterMap Ref.part? = l.flatMap fun c => c.mark?.toList := by
    intro l
    induction l with
    | nil => rfl
    | cons x l ih =>
      rw [map_cons, flatMap_cons, ← ih]
      cases x <;> rfl
  cases t with
  | scalar s => rfl
  | arr m items => exact key items
  | obj m fields =>
    have hv : (Table.mapValues ref fields).map Prod.snd = (fields.map Prod.snd).map ref := by
      simp [Table.mapValues]
    simp only [cell?, Option.map_some, Option.getD_some, Cell.parts, Cell.refs, hv, children]
    exact key _

/-- What pairwise disjoint lists share they share at one place. -/
theorem eq_of_mem_of_mem {σ : Type} {f : σ → List Mark} {l : List σ}
    (hp : l.Pairwise fun a b => List.Disjoint (f a) (f b)) {a b : σ} (ha : a ∈ l) (hb : b ∈ l) {m : Mark}
    (hma : m ∈ f a) (hmb : m ∈ f b) : a = b := by
  by_contra hne
  have : Std.Symm fun a b => List.Disjoint (f a) (f b) := ⟨fun _ _ hab _ h1 h2 => hab h2 h1⟩
  exact hp.forall ha hb hne hma hmb

section Marks
variable {h : Heap} {t c s : Tree Mark} {m : Mark}

section

variable (hd : t.marks.Nodup)
include hd

theorem Tree.nodup_child (hc : c ∈ t.children) : c.marks.Nodup := by
  rw [marks_eq] at hd
  exact hd.of_append_right.sublist (sublist_flatten_of_mem (mem_map_of_mem hc))

theorem Tree.children_pairwise : t.children.Pairwise fun a b => List.Disjoint a.marks b.marks := by
  rw [marks_eq] at hd
  exact (nodup_flatMap.mp hd.of_append_right).2

theorem Tree.not_mem_marks_child (hm : t.ref = .part m) (hc : c ∈ t.children) : m ∉ c.marks := by
  rw [marks_eq, ref_eq_part_iff.mp hm] at hd
  exact fun h => (nodup_cons.mp hd).1 (mem_flatMap.mpr ⟨c, hc, h⟩)

theorem Tree.find?_child (hc : c ∈ t.children) (hm : m ∈ c.marks) : t.find? m = c.find? m := by
  rw [find?_eq, if_neg fun e => not_mem_marks_child hd e hc hm]
  have hp := children_pairwise hd
  revert hc hp
  generalize t.children = l
  intro hc hp
  induction l with
  | nil => cases hc
  | cons x l ih =>
    rw [findSome?_cons]
    rw [pairwise_cons] at hp
    rcases mem_cons.mp hc with rfl | hc
    · obtain ⟨s, hs⟩ := find?_isSome hm
      rw [hs]
    · have hx : x.find? m = none := by
        rw [Option.eq_none_iff_forall_ne_some]
        intro s hs
        obtain ⟨h1, h2, _⟩ := find?_spec hs
        exact hp.1 c hc (h2 (mem_marks_of_ref h1)) hm
      rw [hx, ih hc hp.2]

theorem Tree.shows_of_find? (hh : ∀ m ∈ t.marks, h m = (t.find? m).bind cell?) : Shows h t := by
  induction t using inductChildren with
  | step t ih =>
    refine .intro t (fun m hm => ?_) fun c hc => ?_
    · rw [hh m (mem_marks_of_ref hm), find?_eq, if_pos hm]; rfl
    · refine ih c hc (nodup_child hd hc) fun m hm => ?_
      rw [hh m (marks_child hc hm), find?_child hd hc hm]

theorem Tree.shows_heap : Shows t.heap t := shows_of_find? hd fun _ _ => rfl

end

theorem Tree.mem_marks_of_heap {x : Cell} (hm : t.heap m = some x) : m ∈ t.marks := by
  obtain ⟨s, hs, _⟩ := Option.bind_eq_some_iff.mp hm
  obtain ⟨h1, h2, _⟩ := find?_spec hs
  exact h2 (mem_marks_of_ref h1)

/-- What the parts of a document refer to is all of it but the document itself. -/
theorem Shows.parts_perm (ht : Shows h t) : (t.marks.flatMap h.parts).Perm (t.children.flatMap marks) := by
  induction t using inductChildren with
  | step t ih =>
    have hroot : t.mark?.toList.flatMap h.parts = t.children.flatMap fun c => c.mark?.toList := by
      cases e : t.mark? with
      | none => cases t <;> simp_all [mark?]
      | some m =>
        rw [Option.toList_some, flatMap_cons, flatMap_nil, append_nil, Heap.parts,
          ht.here (ref_eq_part_iff.mpr e), cell?_parts]
    rw [marks_eq, flatMap_append, hroot, flatMap_assoc]
    refine ((List.Perm.refl _).append (List.Perm.flatMap_left t.children fun c hc => ih c hc (ht.child hc))).trans ?_
    refine (flatMap_append_perm _ _ _).trans (List.Perm.of_eq ?_)
    exact flatMap_congr fun c _ => (marks_eq c).symm

theorem Shows.parts_nodup (ht : Shows h t) (hd : t.marks.Nodup) : (t.marks.flatMap h.parts).Nodup := by
  rw [ht.parts_perm.nodup_iff]
  rw [marks_eq] at hd
  exact hd.of_append_right

theorem Shows.owner_unique (ht : Shows h t) (hd : t.marks.Nodup) {m₁ m₂ n : Mark} (h₁ : m₁ ∈ t.marks)
    (h₂ : m₂ ∈ t.marks) (hn₁ : n ∈ h.parts m₁) (hn₂ : n ∈ h.parts m₂) : m₁ = m₂ :=
  eq_of_mem_of_mem (nodup_flatMap.mp (ht.parts_nodup hd)).2 h₁ h₂ hn₁ hn₂

theorem Shows.parts_of_nodup (ht : Shows h t) (hd : t.marks.Nodup) (hm : m ∈ t.marks) : (h.parts m).Nodup :=
  (nodup_flatMap.mp (ht.parts_nodup hd)).1 m hm

end Marks

namespace Node

variable {t n : Tree Mark}

theorem marks_inside (hn : n ∈ inside t) : n.marks ⊆ t.marks :=
  inside_induction (P := fun x => x.marks ⊆ t.marks) (fun _ hx _ hc => List.Subset.trans (marks_child hc) hx)
    (List.Subset.refl _) hn

theorem marks_nodesFields {fields : Fields Mark} (hn : n ∈ nodesFields fields) :
    ∃ e ∈ fields, isMetadata e.1 = false ∧ n ∈ inside e.2 ∧ n.marks ⊆ e.2.marks := by
  obtain ⟨e, he, hk, hn⟩ := mem_nodesFields hn
  exact ⟨e, he, hk, hn, marks_inside hn⟩

theorem exists_of_mem_inside (hn : n ∈ inside t) : ∃ m fields, n = .obj m fields ∧ isNode n = true := by
  induction t using induct generalizing n with
  | scalar s => simp [inside, nodes] at hn
  | arr m items ih =>
    rw [inside, nodesItems_eq, mem_flatMap] at hn
    obtain ⟨x, hx, hn⟩ := hn
    exact ih x hx (nodes_subset_inside x hn)
  | obj m fields ih =>
    simp only [inside, nodes] at hn
    split at hn
    · next hk =>
      rcases mem_cons.mp hn with rfl | hn
      · exact ⟨m, fields, rfl, hk⟩
      · obtain ⟨e, he, _, hn⟩ := mem_nodesFields hn
        exact ih e he hn
    · cases hn

/-- The first node is no part of the second. -/
def Apart (a b : Tree Mark) : Prop := ∀ m, a.ref = .part m → m ∉ b.marks

theorem apart_of_disjoint {a b x y : Tree Mark} (hd : List.Disjoint a.marks b.marks) (hx : x.marks ⊆ a.marks)
    (hy : y.marks ⊆ b.marks) : Apart x y :=
  fun _ hm hb => hd (hx (mem_marks_of_ref hm)) (hy hb)

theorem nodesFields_pairwise {fields : Fields Mark}
    (hf : ∀ e ∈ fields, (inside e.2).Pairwise Apart)
    (hd : (fields.map Prod.snd).Pairwise fun a b => List.Disjoint a.marks b.marks) :
    (nodesFields fields).Pairwise Apart := by
  rw [nodesFields_eq, pairwise_flatMap]
  refine ⟨fun e he => ?_, (pairwise_map.mp hd).imp fun {a b} hab x hx y hy => ?_⟩
  · split
    · exact List.Pairwise.nil
    · exact hf e he
  · split at hx
    · cases hx
    split at hy
    · cases hy
    exact apart_of_disjoint hab (marks_inside hx) (marks_inside hy)

/-- A node met earlier is no part of one met later. -/
theorem inside_pairwise (hd : t.marks.Nodup) : (inside t).Pairwise Apart := by
  induction t using induct with
  | scalar s => simp [inside, nodes]
  | arr m items ih =>
    rw [inside, nodesItems_eq, pairwise_flatMap]
    refine ⟨fun x hx => ?_, (children_pairwise hd).imp fun {a b} hab x hx y hy => ?_⟩
    · refine (ih x hx (nodup_child hd hx)).sublist ?_
      cases x with
      | scalar | obj => exact List.Sublist.refl _
      | arr => simp [nodes]
    · exact apart_of_disjoint hab (marks_inside (nodes_subset_inside a hx)) (marks_inside (nodes_subset_inside b hy))
  | obj m fields ih =>
    simp only [inside, nodes]
    split
    · have hc : ∀ e ∈ fields, e.2 ∈ (obj m fields).children := fun e he => mem_map_of_mem he
      refine pairwise_cons.mpr ⟨fun n hn k hk => ?_, ?_⟩
      · obtain ⟨e, he, _, _, hsub⟩ := marks_nodesFields hn
        exact fun hkn => not_mem_marks_child hd hk (hc e he) (hsub hkn)
      · exact nodesFields_pairwise (fun e he => ih e he (nodup_child hd (hc e he))) (children_pairwise hd)
    · exact List.Pairwise.nil

end Node

end DebugGuards
