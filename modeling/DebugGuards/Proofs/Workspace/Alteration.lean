import DebugGuards.Proofs.Workspace.Lineage
import DebugGuards.Proofs.Workspace.Sharing

/-! What one change does to a program no part of which is shared. The change writes to one
part, which afterwards refers to some of what it referred to and to new parts, and nothing
old lies inside the new parts. So a part that was not in the program does not come back into
it, and what the written part no longer refers to has left the program. -/

namespace DebugGuards

open DebugGuards.Tree List

/-- A part lies in the program. -/
def Workspace.Reaches (w : Workspace) : Ref → Prop
  | .part m => m ∈ w.programNode.marks
  | .scalar _ => False

instance (w : Workspace) : DecidablePred w.Reaches
  | .part m => inferInstanceAs (Decidable (m ∈ w.programNode.marks))
  | .scalar _ => inferInstanceAs (Decidable False)

/-- A part that was not there before, with nothing inside that was. -/
def Workspace.Brings (w w' : Workspace) (r : Ref) : Prop :=
  ∀ n : ℕ, r = .part n → w.fresh ≤ n ∧ ∀ x : ℕ, x < w.fresh → x ∉ (w'.deref r).marks

/-- One part is written to, and comes to refer to new parts. -/
structure Alters (w : Workspace) (h : Heap) (m : Mark) (c c' : Cell) (w' : Workspace) (h' : Heap) : Prop where
  models : Models w' h'
  cell : h m = some c
  writes : h.Writes w.fresh m c' h' w'.fresh
  charges : h.Charges w.fresh [] h' w'.fresh []
  program : w'.program = w.program
  refs : ∀ r ∈ c'.refs, r ∈ c.refs ∨ w.Brings w' r

theorem Models.programNode_ref {w : Workspace} {h : Heap} {c : Cell} (hw : Models w h) (hc : h w.program = some c) :
    w.programNode.ref = .part w.program := by
  obtain ⟨s, hs, e, _⟩ := hw.exists_shows hc
  rw [Workspace.programNode, ← e, hw.deref_eq hs, e]

namespace Alters

variable {w w' : Workspace} {h h' : Heap} {m : Mark} {c c' c₀ : Cell} {x : ℕ}

section

variable (ha : Alters w h m c c' w' h') (hw : Models w h)
include ha hw

/-- The cells of other parts are as before. -/
theorem other {n : Mark} {d : Cell} (hn : n ≠ m) (hd : h n = some d) : h' n = some d := ha.writes.cell hw.below hn hd

theorem cell_or {n : Mark} {d : Cell} (hd : h n = some d) : h' n = some d ∨ n = m ∧ d = c ∧ h' n = some c' := by
  by_cases hn : n = m
  · subst hn
    exact .inr ⟨rfl, Option.some.inj (hd.symm.trans ha.cell), ha.writes.here⟩
  · exact .inl (ha.other hw hn hd)

/-- What lies in a part of the program afterwards was in the program, or is inside a new part. -/
theorem mem_or_brings {v t : Tree Mark} (hv : Shows h v) (ht : Shows h' t)
    {p : Mark} (hp : t.ref = .part p) (hpv : p ∈ v.marks) (hx : x ∈ t.marks) :
    x ∈ v.marks ∨ ∃ r, w.Brings w' r ∧ x ∈ (w'.deref r).marks := by
  induction t using inductChildren generalizing p with
  | step t ih =>
    rw [marks_eq, ref_eq_part_iff.mp hp, mem_append, mem_flatMap] at hx
    rcases hx with hx | ⟨y, hy, hx⟩
    · rw [mem_singleton.mp hx]
      exact .inl hpv
    · obtain ⟨d, hd⟩ := hv.some_of_mem hpv
      obtain ⟨d', hd'⟩ := ht.some_of_mem (mem_marks_of_ref hp)
      have hyref : y.ref ∈ d'.refs := by
        rw [cell?_refs ((ht.here hp).symm.trans hd')]
        exact mem_map_of_mem hy
      have hold : y.ref ∈ d.refs → x ∈ v.marks ∨ ∃ r, w.Brings w' r ∧ x ∈ (w'.deref r).marks := by
        intro hmem
        cases hr : y.ref with
        | scalar s =>
          cases y with
          | scalar => simp at hx
          | arr | obj => cases hr
        | part n =>
          rw [hr] at hmem
          exact ih y hy (ht.child hy) hr (hv.mem_marks_of_refs hpv hd hmem) hx
      by_cases hm : p = m
      · subst hm
        obtain rfl : c' = d' := Option.some.inj (ha.writes.here.symm.trans hd')
        obtain rfl : c = d := Option.some.inj (ha.cell.symm.trans hd)
        rcases ha.refs _ hyref with hmem | hnew
        · exact hold hmem
        · refine .inr ⟨y.ref, hnew, ?_⟩
          rw [ha.models.deref_eq (ht.child hy)]
          exact hx
      · obtain rfl : d = d' := Option.some.inj ((ha.other hw hm hd).symm.trans hd')
        exact hold hyref

theorem exists_program (hc : h w.program = some c₀) : ∃ d, h' w'.program = some d := by
  rw [ha.program]
  rcases ha.cell_or hw hc with hd | ⟨_, _, hd⟩ <;> exact ⟨_, hd⟩

theorem reaches_or_brings (hc : h w.program = some c₀)
    (hr : w'.Reaches (.part x)) : w.Reaches (.part x) ∨ ∃ r, w.Brings w' r ∧ x ∈ (w'.deref r).marks := by
  obtain ⟨d, hd⟩ := ha.exists_program hw hc
  have hroot : w'.programNode.ref = .part w.program := ha.program ▸ ha.models.programNode_ref hd
  exact ha.mem_or_brings hw (hw.shows_deref _) (ha.models.shows_deref _) hroot
    (mem_marks_of_ref (hw.programNode_ref hc)) hr

theorem reaches_of_lt (hc : h w.program = some c₀) (hx : x < w.fresh)
    (hr : w'.Reaches (.part x)) : w.Reaches (.part x) := by
  rcases ha.reaches_or_brings hw hc hr with h1 | ⟨r, hnew, h1⟩
  · exact h1
  · cases r with
    | scalar s => simp [Workspace.deref] at h1
    | part n => exact absurd h1 ((hnew n rfl).2 x hx)

/-- What the written part no longer refers to has left the program. -/
theorem not_reaches (hs : h.Spare 0 w.fresh [])
    (hc : h w.program = some c₀) (hne : x ≠ w.program) (hin : .part x ∈ c.refs) (hout : .part x ∉ c'.refs) :
    ¬ w'.Reaches (.part x) := by
  intro hr
  have hlt : x < w.fresh := by
    obtain ⟨e, hshows⟩ := hw.shows_of_refs ha.cell hin
    obtain ⟨d, hd⟩ := hshows.some_of_mem (mem_marks_of_ref e)
    exact hw.lt_fresh hd
  obtain ⟨d₀, hd₀⟩ := ha.exists_program hw hc
  have hroot : w'.programNode.ref ≠ .part x := by
    rw [ha.models.programNode_ref hd₀, ha.program]
    exact fun e => hne (Ref.part.inj e).symm
  have hshows' : Shows h' w'.programNode := ha.models.shows_deref _
  obtain ⟨p, hp, d, hd, hmem⟩ := hshows'.exists_holder hr hroot
  -- the part that refers to it now is another one that did before, or a new one
  have hpm : p ≠ m := by
    rintro rfl
    rw [ha.writes.here] at hd
    exact hout (Option.some.inj hd ▸ hmem)
  rcases Nat.lt_or_ge p w.fresh with hplt | hpge
  · rw [ha.writes.old p hplt hpm] at hd
    have hone : h.uses (.part x) w.fresh ≤ 1 := by
      have := hs x (Nat.zero_le x)
      rw [if_pos hlt] at this
      omega
    exact hpm (Heap.holder_unique hw.below hone hd ha.cell hmem hin)
  · rcases ha.reaches_or_brings hw hc (show w'.Reaches (.part p) from hp) with h1 | ⟨r, hnew, h1⟩
    · obtain ⟨e, he⟩ := (hw.shows_deref (.part w.program)).some_of_mem h1
      exact Nat.not_lt.mpr hpge (hw.lt_fresh he)
    · cases r with
      | scalar s => simp [Workspace.deref] at h1
      | part n =>
        exact (hnew n rfl).2 x hlt ((ha.models.shows_deref (.part n)).mem_marks_of_refs h1 hd hmem)

end

end Alters

section Lookup

variable {m : Mark} {f : Tree Mark → Tree Mark}

/-- The part an edit acts on is found edited. -/
theorem Tree.find?_edit_self (hf : ∀ t, (f t).ref = t.ref) (t : Tree Mark) :
    (t.edit m f).find? m = (t.find? m).map f := by
  induction t using inductChildren with
  | step t ih =>
    rw [edit_eq, find?_eq m t]
    split_ifs with hm
    · rw [find?_eq, if_pos (by rw [hf, hm]), Option.map_some]
    · rw [find?_eq, if_neg (by rw [Shows.mapChildren_ref]; exact hm), children_mapChildren]
      generalize t.children = cs at ih
      induction cs with
      | nil => rfl
      | cons c cs ihs =>
        rw [forall_mem_cons] at ih
        rw [map_cons, findSome?_cons, findSome?_cons, ih.1]
        cases c.find? m with
        | none => exact ihs ih.2
        | some s => rfl

theorem Workspace.part?_editPart (hf : ∀ t, (f t).ref = t.ref) (w : Workspace) :
    (w.editPart m f).part? m = (w.part? m).map f := by
  have hloose : (w.loose.map (Tree.edit m f)).findSome? (Tree.find? m) = (w.loose.findSome? (Tree.find? m)).map f := by
    generalize w.loose = ts
    induction ts with
    | nil => rfl
    | cons t ts ih =>
      rw [map_cons, findSome?_cons, findSome?_cons, find?_edit_self hf]
      cases t.find? m with
      | none => exact ih
      | some s => rfl
  rw [part?, part?, editPart, find?_edit_self hf, hloose]
  cases w.root.find? m <;> rfl

theorem Workspace.part?_keep {w : Workspace} {s : Tree Mark} (hs : w.part? m = some s) (t : Tree Mark) :
    (w.keep t).part? m = some s := by
  cases t with
  | scalar x => exact hs
  | arr _ _ | obj _ _ =>
    simp only [part?, keep, findSome?_append] at hs ⊢
    rw [← Option.or_assoc, hs, Option.some_or]

theorem Workspace.part?_setPartField {w : Workspace} {s : Tree Mark} (hs : w.part? m = some s)
    (key : String) (d : Draft) :
    (w.setPartField m key d).part? m = some (Tree.setField key (d.settle w.fresh).1 s) := by
  set old := ((w.part? m).bind fun t => Table.get? t.fields key).getD .null with hold
  have heq :
      w.setPartField m key d = ((w.keep old).settle d).2.editPart m (Tree.setField key (d.settle w.fresh).1) := by
    rw [← w.keep_fresh old]
    rfl
  have hkept : ((w.keep old).settle d).2.part? m = some s := part?_keep hs old
  rw [heq, part?_editPart (Tree.setField_ref key _), hkept, Option.map_some]

end Lookup

section Surgery

variable {w w' : Workspace} {h h' : Heap} {m : Mark} {d : Draft} {r : Ref}

/-- A draft that takes no part as it is brings new parts only. -/
theorem Models.brings (hw' : Models w' h') (hr : Reflects h' w.fresh d r) (hd : d.olds = []) : w.Brings w' r := by
  rintro n rfl
  refine ⟨?_, fun x hx => hw'.not_mem_of_reflects hr hx (by simp [hd])⟩
  cases hr with
  | old d m hm => simp [olds_old hm] at hd
  | new d m c _ hk _ _ _ => exact hk

theorem Models.alters_setPartField (hw : Models w h) {fs : List (String × Ref)} (hc : h m = some (.record fs))
    (key : String) (hd : ∀ g, Grounded g d) (ho : d.olds = []) :
    ∃ h', Alters w h m (.record fs) (.record (Table.set fs key (d.settle w.fresh).1.ref)) (w.setPartField m key d) h' ∧
      Reflects h' w.fresh d (d.settle w.fresh).1.ref ∧ w.SameFrame (w.setPartField m key d) := by
  obtain ⟨h', r, hmodels, hwrites, hrefl, hframe, hcharges⟩ := hw.setPartField hc key (hd _)
  -- what the field holds afterwards is the settled draft
  obtain ⟨fields, hs, hfs⟩ := hw.exists_record hc
  have hpart : (w.setPartField m key d).part? m = some (Tree.setField key (d.settle w.fresh).1 (.obj m fields)) :=
    Workspace.part?_setPartField (hw.part?_eq hs rfl) key d
  have hr : r = (d.settle w.fresh).1.ref := by
    have hcell := (hmodels.shows_part? hpart).1.here (m := m) rfl
    rw [hwrites.here, Tree.setField, cell?, Table.mapValues_set, hfs, Option.some.injEq, Cell.record.injEq] at hcell
    have hget := congrArg (Table.get? · key) hcell
    simpa [Table.get?_set] using hget
  rw [← hr]
  refine ⟨h', ⟨hmodels, hc, hwrites, ?_, hframe.program, fun q hq => ?_⟩, hrefl, hframe⟩
  · rw [ho] at hcharges
    exact hcharges
  · rcases Table.mem_values_set hq with h1 | rfl
    · exact .inl h1
    · exact .inr (hmodels.brings hrefl ho)

theorem Models.alters_spliceAt (hw : Models w h) {p : Path} {list : Mark} {rs : List Ref}
    (hc : h list = some (.list rs))
    (hin : w.inPlace p = true) {new : List Draft} (hn : ∀ d ∈ new, (∀ g, Grounded g d) ∧ d.olds = []) :
    ∃ h' w' news, w.spliceAt p list new = .ok (news, w') ∧
      Alters w h list (.list rs) (.list (spliced p.node news rs)) w' h' ∧ new.length = news.length ∧
      (∀ q ∈ new.zip news, Reflects h' w.fresh q.1 q.2) ∧ (∀ r ∈ news, w.Brings w' r) ∧ w.SameFrame w' := by
  obtain ⟨h', w', news, hok, hmodels, hwrites, hlen, hrefl, hframe, hcharges⟩ :=
    hw.spliceAt hc hin fun d hd => (hn d hd).1 _
  have hbrings : ∀ r ∈ news, w.Brings w' r := by
    intro r hr
    obtain ⟨d, hd, hp⟩ := exists_mem_zip hlen hr
    exact hmodels.brings (hrefl _ hp) (hn d hd).2
  refine ⟨h', w', news, hok, ⟨hmodels, hc, hwrites, ?_, hframe.program, fun r hr => ?_⟩, hlen, hrefl, hbrings, hframe⟩
  · rw [flatMap_eq_nil_iff.mpr fun d hd => (hn d hd).2] at hcharges
    exact hcharges
  · simp only [Cell.refs, spliced, mem_append] at hr
    rcases hr with (hr | hr) | hr
    · exact .inl ((takeWhile_sublist _).subset hr)
    · exact .inr (hbrings r hr)
    · exact .inl ((dropWhile_sublist _).subset (mem_of_mem_drop hr))

end Surgery

end DebugGuards
