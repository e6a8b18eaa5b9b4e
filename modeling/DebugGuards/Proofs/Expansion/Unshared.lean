import DebugGuards.Proofs.Expansion.Redirect

/-! Nothing is shared after an expansion. A part of the module lies inside what has become
of another no more often than it lay inside that; and the new parts have a place each. -/

namespace DebugGuards.Expansion

open DebugGuards.Tree Node List

variable {c : Scan} {fields : Fields Mark} {body : Mark} {items met : List (Tree Mark)} {guard : String}
  {p : Patch} {es : List Entry} {w : Workspace} {h : Heap} {rs : List Ref} {x : Tree Mark} {n : ℕ}

namespace Stage

theorem count_standIn_le (hs : Stage c body p w h rs) {m : Mark} {fs : Fields Mark}
    (hx : Shows c.heap (.obj m fs)) {e : String × Tree Mark} (he : e ∈ fs) (hn : n < c.base)
    (hle : (w.deref e.2.ref).marks.count n ≤ e.2.marks.count n) :
    (w.deref (standIn p.gone p.empty e.2.ref)).marks.count n ≤ e.2.marks.count n := by
  rw [standIn]
  split
  · next hgone =>
    rw [count_eq_zero.mpr (hs.not_mem_empty hx he hgone hn)]
    exact Nat.zero_le _
  · exact hle

/-- What has become of a part holds each part of the module no more often than before. -/
theorem count_le (hs : Stage c body p w h rs) (hl : Layout c fields body items) (hm : Met c fields met)
    (hg : Guarding c h guard met p) (hn : n < c.base) (hx : Shows c.heap x) (hb : body ∉ x.marks) :
    (w.deref x.ref).marks.count n ≤ x.marks.count n := by
  induction x using inductSize with | step x ih =>
  have hinside : ∀ y ∈ x.children, (w.deref y.ref).marks.count n ≤ y.marks.count n := fun y hy =>
    ih y (sizeOf_child hy) (hx.child hy) fun h => hb (marks_child hy h)
  rw [count_marks x]
  cases x with
  | scalar s => simp [ref, Workspace.deref]
  | arr m xs =>
    have hne : m ≠ body := fun e => hb (e ▸ mem_marks_of_ref rfl)
    rw [ref, hs.models.count_deref (hs.cell hl hx rfl hne rfl)]
    simp only [Ref.part.injEq]
    refine Nat.add_le_add_left ?_ _
    calc (((xs.map ref).filter fun r => decide (r ∉ p.gone)).flatMap fun r => (w.deref r).marks).count n
        ≤ ((xs.map ref).flatMap fun r => (w.deref r).marks).count n := (filter_sublist.flatMap _).count_le n
      _ = (xs.flatMap fun y => (w.deref y.ref).marks).count n := by rw [flatMap_map]
      _ ≤ (xs.flatMap marks).count n := count_flatMap_le hinside
  | obj m fs =>
    have hne : m ≠ body := fun e => hb (e ▸ mem_marks_of_ref rfl)
    have hcell := hs.cell hl hx rfl hne rfl
    have hfield : ∀ e ∈ fs, (w.deref (standIn p.gone p.empty e.2.ref)).marks.count n ≤ e.2.marks.count n := fun e he =>
      hs.count_standIn_le hx he hn (hinside e.2 (mem_map_of_mem he))
    rw [ref, hs.models.count_deref hcell]
    simp only [Ref.part.injEq]
    refine Nat.add_le_add_left ?_ _
    rw [Patch.cell, Cell.prune, Table.mapValues_mapValues]
    cases hnew : p.new m with
    | none => exact Table.count_flatMap_mapValues_le hfield
    | some e₀ =>
      obtain ⟨y, hy, hyr, ⟨drafts, hop⟩, hle⟩ := hs.count_new_le hg hnew hn
      obtain rfl : y = .obj m fs := (hm.judged y hy).shows.unique hx hyr
      obtain ⟨k, cs, hcall, _⟩ := exists_call hop
      have hexpr : expressionOf (obj m fs) = obj k cs := by rw [expressionOf, hcall]; rfl
      refine Table.count_flatMap_set_le hcall ?_ hfield
      calc (w.deref e₀).marks.count n
          ≤ ((argumentsOf (obj k cs)).flatMap fun a => (w.deref a.ref).marks).count n := hexpr ▸ hle
        _ ≤ ((argumentsOf (obj k cs)).flatMap marks).count n := count_flatMap_le fun a ha => ?_
        _ ≤ (obj k cs).marks.count n := (sublist_argumentsOf _).count_le n
      rw [← hexpr] at ha
      obtain ⟨y₁, hy₁, y₂, hy₂, hy₃⟩ := hl.argument_inside (hm.nodes hy) hop ha
      have hsize := Nat.lt_trans (sizeOf_child hy₃) (Nat.lt_trans (sizeOf_child hy₂) (sizeOf_child hy₁))
      exact ih a hsize ((hx.child hy₁).child hy₂ |>.child hy₃) fun h =>
        hb (marks_child hy₁ (marks_child hy₂ (marks_child hy₃ h)))

end Stage

namespace Standing

section

variable (hs : Standing c fields body items met guard p es w h rs)
include hs

theorem count_entries_le (hn : n < c.base) :
    (rs.flatMap fun r => (w.deref r).marks).count n ≤ (items.flatMap marks).count n := by
  have hentries : ∀ {es' : List Entry} {rs' : List Ref}, es' ⊆ es → List.Forall₂ (Entry.At h c.base) es' rs' →
      (rs'.flatMap fun r => (w.deref r).marks).count n ≤ ((es'.filterMap Entry.old?).flatMap marks).count n := by
    intro es' rs' hsub he
    induction he with
    | nil => exact Nat.le_refl _
    | @cons e r es' rs' ha _ ih =>
      have hrest := ih fun _ h => hsub (mem_cons_of_mem _ h)
      rw [flatMap_cons, count_append]
      cases e with
      | old y =>
        have hy := hs.layout.item_mem (hs.item_mem (hsub (mem_cons_self ..)))
        have hle := hs.stage.count_le hs.layout hs.judged hs.guarding hn (hs.layout.shows_node hy)
          (hs.layout.body_not_mem hy)
        rw [show r = y.ref from ha, filterMap_cons_some (show (Entry.old y).old? = some y from rfl),
          flatMap_cons, count_append]
        exact Nat.add_le_add hle hrest
      | new v =>
        have hzero := hs.stage.models.count_reflects (show Reflects h c.base v.copy r from ha) hn
        rw [olds_copy, flatMap_nil, count_nil] at hzero
        rw [hzero, Nat.zero_add, filterMap_cons_none (show (Entry.new v).old? = none from rfl)]
        exact hrest
  exact Nat.le_trans (hentries (List.Subset.refl _) hs.entries) ((hs.olds.flatMap marks).count_le n)

theorem count_program_le (hn : n < c.base) :
    (w.deref (.part c.start.program)).marks.count n ≤ (obj c.start.program fields).marks.count n := by
  rw [hs.stage.models.count_deref (hs.stage.cell_program hs.layout hs.patch hs.judged), count_marks]
  simp only [ref, Ref.part.injEq]
  refine Nat.add_le_add_left (Table.count_flatMap_mapValues_le fun e he => ?_) _
  by_cases hkey : e.1 = "body"
  · have hget := Table.get?_of_mem hs.layout.keys he
    rw [hkey, hs.layout.body] at hget
    rw [← Option.some.inj hget]
    show (w.deref (standIn p.gone p.empty (.part body))).marks.count n ≤ _
    rw [Stage.standIn_body hs.layout hs.patch hs.judged, hs.stage.models.count_deref hs.stage.list, count_marks]
    simp only [ref, Ref.part.injEq]
    exact Nat.add_le_add_left (hs.count_entries_le hn) _
  · have hes : Shows c.heap e.2 := hs.layout.shows.child (mem_map_of_mem he)
    exact hs.stage.count_standIn_le hs.layout.shows he hn (hs.stage.count_le hs.layout hs.judged hs.guarding hn hes
      (hs.layout.slot_disjoint he hkey (mem_marks_of_ref rfl)))

/-- Each part of the module lies inside the document no more often than before. -/
theorem count_root_le (hwraps : Wraps c.start.root (obj c.start.program fields)) (hn : n < c.base) :
    w.root.marks.count n ≤ c.start.root.marks.count n := by
  rw [← hs.stage.models.deref_eq hs.stage.models.root, hs.stage.keeps.root]
  cases hwraps with
  | program _ heq =>
    rw [heq]
    exact hs.count_program_le hn
  | file m fs heq hfile hkeys hget =>
    rw [heq, show (obj m fs).ref = .part m from rfl,
      hs.stage.models.count_deref (hs.stage.cell_file hs.layout hs.patch hs.judged heq hkeys hget), count_marks]
    simp only [ref, Ref.part.injEq]
    refine Nat.add_le_add_left (Table.count_flatMap_mapValues_le fun e he => ?_) _
    by_cases hkey : e.1 = "program"
    · have hget' := Table.get?_of_mem hkeys he
      rw [hkey, hget] at hget'
      rw [← Option.some.inj hget']
      exact hs.count_program_le hn
    · have hsame := hs.stage.models.deref_eq (hs.stage.shows_outside hs.layout hs.patch hs.judged heq hget he hkey)
      exact Nat.le_of_eq (congrArg (fun y => y.marks.count n) hsame)

/-- No part of the document is shared. -/
theorem nodup_root
    (hwraps : Wraps c.start.root (obj c.start.program fields)) (hd : c.start.root.marks.Nodup) : w.root.marks.Nodup :=
  hs.stage.models.root.nodup hs.stage.models.below hs.stage.sole fun n hn =>
    Nat.le_trans (hs.count_root_le hwraps hn) (nodup_iff_count_le_one.mp hd n)

end

end Standing

end DebugGuards.Expansion
