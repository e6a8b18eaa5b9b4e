import DebugGuards.Proofs.Workspace.Alteration
import DebugGuards.Proofs.Workspace.Prune

/-! Which paths of a walk still lead into the program after nodes have been taken out and
replaced. A path is attached while its node and the nodes of all paths above it are in their
slots. A replaced node's path tracks the new node, and the paths that were below the old node
still count it as their ancestor: so a path leads into the program just if it is attached and
nothing above it was replaced. -/

namespace DebugGuards

open DebugGuards.Tree Node List

section Slots

variable {r q : Ref} {news rs : List Ref}

theorem mem_spliced (hq : q ∈ rs) (hne : q ≠ r) : q ∈ spliced r news rs := by
  rw [spliced, mem_append, mem_append]
  rcases mem_takeWhile_or (p := fun x => decide (x ≠ r)) hq with h | h | h
  · exact .inl (.inl h)
  · exact absurd (by simpa using h) hne
  · exact .inr h

theorem mem_spliced_new (hq : q ∈ news) : q ∈ spliced r news rs :=
  mem_append_left _ (mem_append_right _ hq)

/-- The only occurrence of an item is cut out. -/
theorem not_mem_spliced (hr : rs.count r ≤ 1) (hn : r ∉ news) : r ∉ spliced r news rs := by
  have hcut : spliced r [] rs = rs.filter (· ≠ r) := spliced_nil hr
  have hout : r ∉ spliced r [] rs := by simp [hcut]
  simp only [spliced, mem_append, not_mem_nil, or_false] at hout ⊢
  exact fun h => h.elim (fun h => h.elim (hout ∘ .inl) hn) (hout ∘ .inr)

theorem not_mem_values_set {fs : List (String × Ref)} {key : String} (hget : Table.get? fs key = some q)
    (hone : (fs.map Prod.snd).count q ≤ 1) (hne : r ≠ q) : q ∉ (Table.set fs key r).map Prod.snd := by
  induction fs with
  | nil => cases hget
  | cons e fs ih =>
    rw [map_cons] at hone
    rw [Table.get?] at hget
    rw [Table.set]
    split at hget
    · next hkey =>
      cases hget
      rw [count_cons_self] at hone
      have hrest : e.2 ∉ fs.map Prod.snd := count_eq_zero.mp (by omega)
      rw [if_pos hkey, map_cons, mem_cons]
      exact fun h => h.elim (fun h => hne h.symm) hrest
    · next hkey =>
      have hmem : q ∈ fs.map Prod.snd := mem_map_of_mem (Table.mem_of_get? hget)
      have hpos := count_pos_iff.mpr hmem
      have hother : e.2 ≠ q := by
        rintro rfl
        rw [count_cons_self] at hone
        omega
      rw [count_cons_of_ne (by simpa using hother)] at hone
      rw [if_neg hkey, map_cons, mem_cons]
      exact fun h => h.elim (fun h => hother h.symm) (ih hget hone)

end Slots

/-- The slot is there: an object, or a list in a field of one. -/
def Housed (h : Heap) : Slot → Prop
  | .top => False
  | .field parent _ => ∃ fs, h parent = some (.record fs)
  | .item parent list key =>
    (∃ fs, h parent = some (.record fs) ∧ Table.get? fs key = some (.part list)) ∧ ∃ rs, h list = some (.list rs)

/-- After some changes, the paths of a walk. A path whose node lies in the program has it in
its slot. A path that was never replaced tracks the node it was made for, and the nodes that
paths in `replaced` were made for have left the program. -/
structure Snapshot (w₀ : Workspace) (replaced : List PathId) (w : Workspace) (h : Heap) : Prop where
  models : Models w h
  spare : h.Spare 0 w.fresh []
  fresh : w₀.fresh ≤ w.fresh
  program : w.program = w₀.program
  rooted : ∃ fs, h w.program = some (.record fs)
  size : w.paths.size = w₀.paths.size
  kept : ∀ i, (w.path i).slot = (w₀.path i).slot ∧ (w.path i).above = (w₀.path i).above
  kinded : ∀ i < w.paths.size, h.Kinded (w.path i).node
  housed : ∀ i < w.paths.size, Housed h (w.path i).slot
  away : ∀ i < w.paths.size, (w.path i).node ≠ .part w.program
  placed : ∀ i < w.paths.size, w.Reaches (w.path i).node → Placed h (w.path i)
  first : ∀ i < w.paths.size, i ∉ replaced → (w.path i).node = (w₀.path i).node
  gone : ∀ i < w.paths.size, i ∈ replaced → ¬ w.Reaches (w₀.path i).node

section Places

variable {w : Workspace} {h : Heap} {p : Path} {m : Mark}

theorem Heap.Kinded.exists_mark {r : Ref} (hk : h.Kinded r) : ∃ (m : Mark) (c : Cell), r = .part m ∧ h m = some c := by
  obtain ⟨m, fs, _, hr, hc, _⟩ := hk
  exact ⟨m, _, hr, hc⟩

theorem Models.inPlace_of_placed (hw : Models w h) (hp : Placed h p) : w.inPlace p = true := by
  cases hs : p.slot with
  | top => simp only [Placed, hs] at hp
  | field parent key =>
    simp only [Placed, hs] at hp
    obtain ⟨fs, hc, hget⟩ := hp
    rw [hw.inPlace_field hs hc, hget, Option.getD_some]
  | item parent list key =>
    simp only [Placed, hs] at hp
    obtain ⟨rs, hc, hmem⟩ := hp
    exact (hw.inPlace_item hs hc).mpr hmem

/-- In a slot that is there, a node is in place if the heap has it there. -/
theorem Models.inPlace_iff (hw : Models w h) (hh : Housed h p.slot) (hk : h.Kinded p.node) :
    w.inPlace p = true ↔ Placed h p := by
  refine ⟨fun hin => ?_, hw.inPlace_of_placed⟩
  cases hs : p.slot with
  | top => rw [hs] at hh; exact hh.elim
  | field parent key =>
    rw [hs] at hh
    obtain ⟨fs, hc⟩ := hh
    obtain ⟨m, _, hnode, _⟩ := hk.exists_mark
    rw [hw.inPlace_field hs hc] at hin
    simp only [Placed, hs]
    refine ⟨fs, hc, ?_⟩
    cases hg : Table.get? fs key with
    | none => rw [hg, hnode] at hin; cases hin
    | some r => rw [hg] at hin; exact congrArg some hin
  | item parent list key =>
    rw [hs] at hh
    obtain ⟨_, rs, hc⟩ := hh
    simp only [Placed, hs]
    exact ⟨rs, hc, (hw.inPlace_item hs hc).mp hin⟩

theorem Models.reaches_of_refs (hw : Models w h) {q x : Mark} {d : Cell} (hd : h q = some d) (hx : .part x ∈ d.refs)
    (hr : w.Reaches (.part q)) : w.Reaches (.part x) :=
  (hw.shows_deref (.part w.program)).mem_marks_of_refs hr hd hx

theorem Models.reaches_holder (hw : Models w h) (hs : h.Spare 0 w.fresh []) {c d : Cell} (hc : h w.program = some c)
    {q x : Mark} (hd : h q = some d) (hx : .part x ∈ d.refs) (hne : x ≠ w.program) (hr : w.Reaches (.part x)) :
    w.Reaches (.part q) := by
  have hshows : Shows h w.programNode := hw.shows_deref _
  have hroot : w.programNode.ref ≠ .part x := by
    rw [hw.programNode_ref hc]
    exact fun e => hne (Ref.part.inj e).symm
  obtain ⟨q', hq', d', hd', hx'⟩ := hshows.exists_holder hr hroot
  have hone : h.uses (.part x) w.fresh ≤ 1 :=
    Nat.le_trans (Nat.le_add_right ..) (Nat.le_trans (hs x (Nat.zero_le x)) (by split <;> omega))
  rw [Heap.holder_unique hw.below hone hd hd' hx hx']
  exact hq'

theorem Models.reaches_parent_iff (hw : Models w h) (hs : h.Spare 0 w.fresh []) {fs : List (String × Ref)}
    (hc : h w.program = some (.record fs)) (hp : Placed h p) (hh : Housed h p.slot) (hk : h.Kinded p.node)
    (haway : p.node ≠ .part w.program) {parent : Mark} (hparent : p.slot.parent? = some parent) :
    w.Reaches p.node ↔ w.Reaches (.part parent) := by
  obtain ⟨x, _, hnode, _⟩ := hk.exists_mark
  have hne : x ≠ w.program := fun e => haway (e ▸ hnode)
  rw [hnode]
  rw [Placed] at hp
  rw [hnode] at hp
  cases hslot : p.slot with
  | top => rw [hslot] at hp; exact hp.elim
  | field q key =>
    rw [hslot] at hp hparent
    cases hparent
    obtain ⟨fs', hc', hget⟩ := hp
    have hmem : Ref.part x ∈ (Cell.record fs').refs := mem_map_of_mem (Table.mem_of_get? hget)
    exact ⟨hw.reaches_holder hs hc hc' hmem hne, hw.reaches_of_refs hc' hmem⟩
  | item q list key =>
    rw [hslot] at hp hparent hh
    cases hparent
    obtain ⟨rs, hlist, hmem⟩ := hp
    obtain ⟨⟨fs', hc', hget⟩, _⟩ := hh
    have hmem' : Ref.part list ∈ (Cell.record fs').refs := mem_map_of_mem (Table.mem_of_get? hget)
    have hne' : list ≠ w.program := by
      rintro rfl
      rw [hc] at hlist
      cases hlist
    exact ⟨fun hr => hw.reaches_holder hs hc hc' hmem' hne' (hw.reaches_holder hs hc hlist hmem hne hr),
      fun hr => hw.reaches_of_refs hlist hmem (hw.reaches_of_refs hc' hmem' hr)⟩

end Places

namespace Snapshot

variable {w₀ w : Workspace} {h₀ h : Heap} {replaced : List PathId} {i : PathId}

/-- A path leads into the program if its node is in its slot and so does the nearest path
above it, which was not replaced. -/
theorem reaches_iff (ht : Snapshot w₀ replaced w h) (hl : Lineage w₀ h₀) (hi : i < w.paths.size) :
    w.Reaches (w.path i).node ↔ w.inPlace (w.path i) = true ∧ ((w.path i).above = [] ∨
      ∃ a < w.paths.size, (w.path i).above = a :: (w.path a).above ∧ a ∉ replaced ∧ w.Reaches (w.path a).node) := by
  obtain ⟨fs, hc⟩ := ht.rooted
  have hplaced := ht.models.inPlace_iff (ht.housed i hi) (ht.kinded i hi)
  have hparent {parent : Mark} (hp : Placed h (w.path i)) (hslot : (w.path i).slot.parent? = some parent) :=
    ht.models.reaches_parent_iff ht.spare hc hp (ht.housed i hi) (ht.kinded i hi) (ht.away i hi) hslot
  have hprogram : w.Reaches (.part w.program) := mem_marks_of_ref (ht.models.programNode_ref hc)
  rw [hplaced]
  rw [ht.size] at hi
  rcases hl.owner i hi with ⟨hslot, habove⟩ | ⟨a, ha, p, hnode, hslot, habove⟩
  · rw [← (ht.kept i).1, ← ht.program] at hslot
    rw [← (ht.kept i).2] at habove
    refine ⟨fun hr => ⟨ht.placed i (ht.size ▸ hi) hr, .inl habove⟩, fun ⟨hp, _⟩ => (hparent hp hslot).mpr hprogram⟩
  · rw [← (ht.kept i).1] at hslot
    rw [← (ht.kept i).2, ← (ht.kept a).2] at habove
    rw [← ht.size] at ha
    constructor
    · intro hr
      have hp := ht.placed i (ht.size ▸ hi) hr
      have hra := (hparent hp hslot).mp hr
      have hnot : a ∉ replaced := fun hmem => ht.gone a ha hmem (hnode ▸ hra)
      exact ⟨hp, .inr ⟨a, ha, habove, hnot, by rw [ht.first a ha hnot, hnode]; exact hra⟩⟩
    · rintro ⟨hp, hnil | ⟨b, hb, habove', hnot, hrb⟩⟩
      · rw [habove] at hnil
        cases hnil
      · obtain rfl : a = b := (List.cons.inj (habove.symm.trans habove')).1
        rw [ht.first a ha hnot, hnode] at hrb
        exact (hparent hp hslot).mpr hrb

theorem reaches_iff_attached (ht : Snapshot w₀ replaced w h) (hl : Lineage w₀ h₀) (hi : i < w.paths.size) :
    w.Reaches (w.path i).node ↔ w.attached i = true ∧ ∀ j ∈ (w.path i).above, j ∉ replaced := by
  have hattached : w.attached i = true ↔ w.inPlace (w.path i) = true ∧
      ∀ j ∈ (w.path i).above, w.inPlace (w.path j) = true := by
    rw [Workspace.attached, Bool.and_eq_true, all_eq_true]
  rw [hattached]
  clear hattached
  -- along the paths above, each of which has the rest above it
  generalize habove : (w.path i).above = as
  induction as generalizing i with
  | nil =>
    rw [ht.reaches_iff hl hi, habove]
    simp
  | cons a as ih =>
    rw [ht.reaches_iff hl hi, habove]
    constructor
    · rintro ⟨hp, hnil | ⟨b, hb, heq, hnot, hr⟩⟩
      · cases hnil
      · obtain ⟨rfl, htail⟩ := List.cons.inj heq
        obtain ⟨⟨hpa, hall⟩, hout⟩ := (ih hb htail.symm).mp hr
        exact ⟨⟨hp, forall_mem_cons.mpr ⟨hpa, hall⟩⟩, forall_mem_cons.mpr ⟨hnot, hout⟩⟩
    · rintro ⟨⟨hp, hall⟩, hout⟩
      rw [forall_mem_cons] at hall hout
      refine ⟨hp, .inr ?_⟩
      have hi₀ : i < w₀.paths.size := ht.size ▸ hi
      rcases hl.owner i hi₀ with ⟨_, hnil⟩ | ⟨b, hb, p, hnode, hslot, heq⟩
      · rw [← (ht.kept i).2, habove] at hnil
        cases hnil
      · rw [← (ht.kept i).2, ← (ht.kept b).2, habove] at heq
        obtain ⟨rfl, htail⟩ := List.cons.inj heq
        rw [← ht.size] at hb
        exact ⟨a, hb, heq, hout.1, (ih hb htail.symm).mpr ⟨hall, hout.2⟩⟩

end Snapshot

namespace Lineage

variable {w₀ : Workspace} {h₀ : Heap} {i j : PathId} {p l : Mark} {k : String}

/-- A field that holds a node is not one that holds a list of nodes. -/
theorem field_ne_item (hl : Lineage w₀ h₀) (hi : i < w₀.paths.size) (hj : j < w₀.paths.size)
    (hslot : (w₀.path i).slot = .field p k) : (w₀.path j).slot ≠ .item p l k := by
  intro hslot'
  have hp := hl.placed i hi
  have hp' := hl.placed j hj
  have hlist := hl.listed j hj
  simp only [Placed, Visit.Listed, hslot, hslot'] at hp hp' hlist
  obtain ⟨fs, hc, hget⟩ := hp
  obtain ⟨rs, hrs, _⟩ := hp'
  obtain ⟨fs', hc', hget'⟩ := hlist
  obtain ⟨m, gs, _, hnode, hm, _⟩ := hl.kinded i hi
  rw [hc] at hc'
  cases hc'
  rw [hnode, hget'] at hget
  cases hget
  rw [hm] at hrs
  cases hrs

theorem key_ne_type (hl : Lineage w₀ h₀) (hi : i < w₀.paths.size) (hslot : (w₀.path i).slot = .field p k)
    (hne : p ≠ w₀.program) : k ≠ "type" := by
  rintro rfl
  have hp := hl.placed i hi
  simp only [Placed, hslot] at hp
  obtain ⟨fs, hc, hget⟩ := hp
  obtain ⟨m, _, hnode, _⟩ := (hl.kinded i hi).exists_mark
  rcases hl.owner i hi with ⟨hparent, _⟩ | ⟨a, ha, q, hq, hparent, _⟩ <;> rw [hslot] at hparent <;> cases hparent
  · exact hne rfl
  · obtain ⟨m', gs, t, hm', hgs, htype⟩ := hl.kinded a ha
    rw [hq] at hm'
    cases hm'
    rw [hc] at hgs
    cases hgs
    rw [htype, hnode] at hget
    cases hget

end Lineage

namespace Snapshot

variable {w₀ w w' : Workspace} {h₀ h h' : Heap} {replaced : List PathId} {i : PathId} {m : Mark} {c c' : Cell}

theorem lt_fresh (ht : Snapshot w₀ replaced w h) (hi : i < w.paths.size) {x : Mark} (hx : (w.path i).node = .part x) :
    x < w.fresh := by
  obtain ⟨m, d, hm, hd⟩ := (ht.kinded i hi).exists_mark
  rw [hx] at hm
  cases hm
  exact ht.models.lt_fresh hd

theorem first_lt_fresh (ht : Snapshot w₀ replaced w h) (hl : Lineage w₀ h₀) (hw₀ : Models w₀ h₀) (hi : i < w.paths.size)
    {x : Mark} (hx : (w₀.path i).node = .part x) : x < w.fresh := by
  obtain ⟨m, d, hm, hd⟩ := (hl.kinded i (ht.size ▸ hi)).exists_mark
  rw [hx] at hm
  cases hm
  exact Nat.lt_of_lt_of_le (hw₀.lt_fresh hd) ht.fresh

/-- A change that keeps the slots, and puts no node out of its slot but takes it out of the
program as well. -/
theorem step (ht : Snapshot w₀ replaced w h) (hl : Lineage w₀ h₀) (hw₀ : Models w₀ h₀) (ha : Alters w h m c c' w' h')
    (hframe : w.SameFrame w') (hrooted : ∃ fs, h' w.program = some (.record fs))
    (hkinded : ∀ j < w.paths.size, h'.Kinded (w.path j).node) (hhoused : ∀ j < w.paths.size, Housed h' (w.path j).slot)
    (hplaced : ∀ j < w.paths.size, Placed h (w.path j) → w'.Reaches (w.path j).node → Placed h' (w.path j)) :
    Snapshot w₀ replaced w' h' := by
  obtain ⟨fs, hc⟩ := ht.rooted
  have hpath (j : PathId) : w'.path j = w.path j := by rw [Workspace.path, hframe.paths, Workspace.path]
  have hsize : w'.paths.size = w.paths.size := by rw [hframe.paths]
  have hback {r : Ref} {x : ℕ} (hr : r = .part x) (hx : x < w.fresh) : w'.Reaches r → w.Reaches r := by
    subst hr
    exact ha.reaches_of_lt ht.models hc hx
  refine ⟨ha.models, ht.spare.write ha.charges ha.writes.le, Nat.le_trans ht.fresh ha.writes.le, ?_, ?_, ?_,
    fun j => ?_, ?_, ?_, ?_, ?_, ?_, ?_⟩
  · rw [ha.program, ht.program]
  · rw [ha.program]; exact hrooted
  · rw [hsize, ht.size]
  · rw [hpath]; exact ht.kept j
  all_goals
    intro j hj
    rw [hsize] at hj
    try rw [hpath]
  · exact hkinded j hj
  · exact hhoused j hj
  · rw [ha.program]; exact ht.away j hj
  · intro hr
    obtain ⟨x, _, hx, _⟩ := (ht.kinded j hj).exists_mark
    exact hplaced j hj (ht.placed j hj (hback hx (ht.lt_fresh hj hx) hr)) hr
  · exact ht.first j hj
  · intro hmem hr
    obtain ⟨x, _, hx, _⟩ := (hl.kinded j (ht.size ▸ hj)).exists_mark
    exact ht.gone j hj hmem (hback hx (ht.first_lt_fresh hl hw₀ hj hx) hr)

theorem path_setIfInBounds (w : Workspace) (p : Path) (j : PathId) :
    { w with paths := w.paths.setIfInBounds i p : Workspace }.path j =
      if i = j ∧ j < w.paths.size then p else w.path j := by
  simp only [Workspace.path, Array.getD_eq_getD_getElem?, Array.getElem?_setIfInBounds]
  by_cases hij : i = j
  · subst hij
    by_cases hi : i < w.paths.size
    · simp [hi]
    · simp [hi]
  · simp [hij]

/-- A path whose node has left the program comes to track another node in its slot. -/
theorem retarget (ht : Snapshot w₀ replaced w h) {r : Ref} (hk : h.Kinded r) (haway : r ≠ .part w.program)
    (hp : Placed h { w.path i with node := r }) (hgone : ¬ w.Reaches (w.path i).node) :
    Snapshot w₀ (i :: replaced) { w with paths := w.paths.setIfInBounds i { w.path i with node := r } } h := by
  set w' : Workspace := { w with paths := w.paths.setIfInBounds i { w.path i with node := r } } with hw'
  have hsize : w'.paths.size = w.paths.size := by rw [hw', Array.size_setIfInBounds]
  have hpath (j : PathId) : w'.path j = w.path j ∨ i = j ∧ w'.path j = { w.path i with node := r } := by
    rw [hw', path_setIfInBounds]
    split
    · next hij => exact .inr ⟨hij.1, rfl⟩
    · exact .inl rfl
  have hother {j : PathId} (hij : i ≠ j) : w'.path j = w.path j := (hpath j).resolve_right fun h => hij h.1
  have hreach (q : Ref) : w'.Reaches q ↔ w.Reaches q := by cases q <;> rfl
  refine ⟨⟨ht.models.root, ht.models.loose, ht.models.held, ht.models.below⟩, ht.spare, ht.fresh, ht.program, ht.rooted,
    hsize.trans ht.size, fun j => ?_, ?_, ?_, ?_, ?_, ?_, ?_⟩
  · rcases hpath j with h | ⟨rfl, h⟩ <;> rw [h] <;> exact ht.kept _
  all_goals
    intro j hj
    rw [hsize] at hj
  · rcases hpath j with h | ⟨rfl, h⟩ <;> rw [h]
    · exact ht.kinded j hj
    · exact hk
  · rcases hpath j with h | ⟨rfl, h⟩ <;> rw [h] <;> exact ht.housed _ hj
  · rcases hpath j with h | ⟨rfl, h⟩ <;> rw [h]
    · exact ht.away j hj
    · exact haway
  · rw [hreach]
    rcases hpath j with h | ⟨rfl, h⟩ <;> rw [h]
    · exact ht.placed j hj
    · exact fun _ => hp
  · intro hnot
    rw [mem_cons, not_or] at hnot
    rw [hother fun e => hnot.1 e.symm]
    exact ht.first j hj hnot.2
  · intro hmem hr
    rw [hreach] at hr
    by_cases hrep : j ∈ replaced
    · exact ht.gone j hj hrep hr
    · obtain rfl : j = i := (mem_cons.mp hmem).resolve_right hrep
      exact hgone (ht.first j hj hrep ▸ hr)

section Surgery

variable {parent list : Mark} {key : String} {fs : List (String × Ref)} {rs news : List Ref} {r : Ref}

section

variable (ht : Snapshot w₀ replaced w h)
include ht

theorem count_refs_le (hc : h m = some c) (x : ℕ) : c.refs.count (.part x) ≤ 1 := by
  have huses : h.usesAt (.part x) m ≤ h.uses (.part x) w.fresh := Heap.usesAt_le (ht.models.lt_fresh hc)
  have hspare := ht.spare x (Nat.zero_le x)
  rw [Heap.usesAt_of_some hc] at huses
  split at hspare <;> omega

theorem step_field (hl : Lineage w₀ h₀) (hw₀ : Models w₀ h₀) (hi : i < w.paths.size)
    (hslot : (w.path i).slot = .field parent key)
    (ha : Alters w h parent (.record fs) (.record (Table.set fs key r)) w' h') (hr : w.Brings w' r)
    (hframe : w.SameFrame w') : Snapshot w₀ replaced w' h' ∧ ¬ w'.Reaches (w.path i).node := by
  obtain ⟨gs, hroot⟩ := ht.rooted
  have hi₀ : i < w₀.paths.size := ht.size ▸ hi
  have hslot₀ : (w₀.path i).slot = .field parent key := (ht.kept i).1 ▸ hslot
  -- a node the field held is no longer in the program
  have hout {x : Mark} (hget : Table.get? fs key = some (.part x)) (hne : x ≠ w.program) (hx : x < w.fresh) :
      ¬ w'.Reaches (.part x) := by
    have hmem : Ref.part x ∈ (Cell.record fs).refs := mem_map_of_mem (Table.mem_of_get? hget)
    have hnew : r ≠ .part x := fun e => Nat.not_lt.mpr (hr x e).1 hx
    exact ha.not_reaches ht.models ht.spare hroot hne hmem
      (not_mem_values_set hget (ht.count_refs_le ha.cell x) hnew)
  have hnode : ¬ w'.Reaches (w.path i).node := by
    obtain ⟨x, _, hx, _⟩ := (ht.kinded i hi).exists_mark
    have hlt := ht.lt_fresh hi hx
    have hne : x ≠ w.program := fun e => ht.away i hi (e ▸ hx)
    intro hreach
    rw [hx] at hreach
    have hp := ht.placed i hi (hx ▸ ha.reaches_of_lt ht.models hroot hlt hreach)
    simp only [Placed, hslot, hx] at hp
    obtain ⟨fs', hc, hget⟩ := hp
    rw [ha.cell] at hc
    cases hc
    exact hout hget hne hlt hreach
  refine ⟨ht.step hl hw₀ ha hframe ?_ (fun j hj => ?_) (fun j hj => ?_) fun j hj hp hreach => ?_, hnode⟩
  · rcases ha.cell_or ht.models hroot with hd | ⟨_, _, hd⟩ <;> exact ⟨_, hd⟩
  · obtain ⟨n, gs', t, hn, hc, htype⟩ := ht.kinded j hj
    rcases ha.cell_or ht.models hc with hd | ⟨rfl, hfs, hd⟩
    · exact ⟨n, gs', t, hn, hd, htype⟩
    · cases hfs
      have hne : n ≠ w₀.program := fun e => ht.away j hj (by rw [hn, e, ht.program])
      refine ⟨n, _, t, hn, hd, ?_⟩
      rw [Table.get?_set, if_neg (hl.key_ne_type hi₀ hslot₀ hne), htype]
  · have hhouse := ht.housed j hj
    have hkept := (ht.kept j).1
    cases hs : (w.path j).slot with
    | top => rw [hs] at hhouse; exact hhouse.elim
    | field p k =>
      rw [hs] at hhouse
      obtain ⟨gs', hc⟩ := hhouse
      rcases ha.cell_or ht.models hc with hd | ⟨_, _, hd⟩ <;> exact ⟨_, hd⟩
    | item p l k =>
      rw [hs] at hhouse hkept
      obtain ⟨⟨gs', hc, hget⟩, rs, hlist⟩ := hhouse
      refine ⟨?_, ?_⟩
      · rcases ha.cell_or ht.models hc with hd | ⟨rfl, hfs, hd⟩
        · exact ⟨gs', hd, hget⟩
        · cases hfs
          have hkey : key ≠ k := by
            rintro rfl
            exact hl.field_ne_item hi₀ (ht.size ▸ hj) hslot₀ hkept.symm
          exact ⟨_, hd, by rw [Table.get?_set, if_neg hkey, hget]⟩
      · rcases ha.cell_or ht.models hlist with hd | ⟨_, hfs, _⟩
        · exact ⟨rs, hd⟩
        · cases hfs
  · cases hs : (w.path j).slot with
    | top => simp only [Placed, hs] at hp
    | item p l k =>
      simp only [Placed, hs] at hp ⊢
      obtain ⟨rs, hlist, hmem⟩ := hp
      rcases ha.cell_or ht.models hlist with hd | ⟨_, hfs, _⟩
      · exact ⟨rs, hd, hmem⟩
      · cases hfs
    | field p k =>
      simp only [Placed, hs] at hp ⊢
      obtain ⟨gs', hc, hget⟩ := hp
      rcases ha.cell_or ht.models hc with hd | ⟨rfl, hfs, hd⟩
      · exact ⟨gs', hd, hget⟩
      · cases hfs
        refine ⟨_, hd, ?_⟩
        rw [Table.get?_set]
        split
        · next hkey =>
          -- the node was in the field that is set
          subst hkey
          obtain ⟨x, _, hx, _⟩ := (ht.kinded j hj).exists_mark
          rw [hx] at hget hreach
          exact absurd hreach (hout hget (fun e => ht.away j hj (e ▸ hx)) (ht.lt_fresh hj hx))
        · exact hget

theorem not_mem_cut (hi : i < w.paths.size) (hc : h list = some (.list rs))
    (hnews : ∀ r ∈ news, w.Brings w' r) : (w.path i).node ∉ spliced (w.path i).node news rs := by
  obtain ⟨x, _, hx, _⟩ := (ht.kinded i hi).exists_mark
  have hlt := ht.lt_fresh hi hx
  rw [hx]
  exact not_mem_spliced (ht.count_refs_le hc x) fun hmem => Nat.not_lt.mpr (hnews _ hmem x rfl).1 hlt

theorem step_item (hl : Lineage w₀ h₀) (hw₀ : Models w₀ h₀) (hi : i < w.paths.size) (hin : (w.path i).node ∈ rs)
    (ha : Alters w h list (.list rs) (.list (spliced (w.path i).node news rs)) w' h')
    (hnews : ∀ r ∈ news, w.Brings w' r) (hframe : w.SameFrame w') :
    Snapshot w₀ replaced w' h' ∧ ¬ w'.Reaches (w.path i).node := by
  obtain ⟨gs, hroot⟩ := ht.rooted
  have hcut := ht.not_mem_cut hi ha.cell hnews
  have hnode : ¬ w'.Reaches (w.path i).node := by
    obtain ⟨x, _, hx, _⟩ := (ht.kinded i hi).exists_mark
    rw [hx] at hin hcut ⊢
    exact ha.not_reaches ht.models ht.spare hroot (fun e => ht.away i hi (e ▸ hx)) hin (hx ▸ hcut)
  -- records are as before
  have hrecord {n : Mark} {fs : List (String × Ref)} (hc : h n = some (.record fs)) : h' n = some (.record fs) := by
    rcases ha.cell_or ht.models hc with hd | ⟨_, hfs, _⟩
    · exact hd
    · cases hfs
  refine ⟨ht.step hl hw₀ ha hframe ⟨gs, hrecord hroot⟩ (fun j hj => ?_) (fun j hj => ?_) fun j hj hp hreach => ?_,
    hnode⟩
  · obtain ⟨n, gs', t, hn, hc, htype⟩ := ht.kinded j hj
    exact ⟨n, gs', t, hn, hrecord hc, htype⟩
  · have hhouse := ht.housed j hj
    cases hs : (w.path j).slot with
    | top => rw [hs] at hhouse; exact hhouse.elim
    | field p k =>
      rw [hs] at hhouse
      obtain ⟨gs', hc⟩ := hhouse
      exact ⟨gs', hrecord hc⟩
    | item p l k =>
      rw [hs] at hhouse
      obtain ⟨⟨gs', hc, hget⟩, rs', hlist⟩ := hhouse
      refine ⟨⟨gs', hrecord hc, hget⟩, ?_⟩
      rcases ha.cell_or ht.models hlist with hd | ⟨_, _, hd⟩ <;> exact ⟨_, hd⟩
  · cases hs : (w.path j).slot with
    | top => simp only [Placed, hs] at hp
    | field p k =>
      simp only [Placed, hs] at hp ⊢
      obtain ⟨gs', hc, hget⟩ := hp
      exact ⟨gs', hrecord hc, hget⟩
    | item p l k =>
      simp only [Placed, hs] at hp ⊢
      obtain ⟨rs', hlist, hmem⟩ := hp
      rcases ha.cell_or ht.models hlist with hd | ⟨_, hrs, hd⟩
      · exact ⟨rs', hd, hmem⟩
      · cases hrs
        refine ⟨_, hd, mem_spliced hmem fun e => ?_⟩
        rw [e] at hreach
        exact hnode hreach

end

end Surgery

end Snapshot

end DebugGuards
