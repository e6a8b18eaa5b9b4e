import DebugGuards.Proofs.Expansion.Refinement

/-! What stays of a module. A part that lies in no statement that has gone or went under
guard is still in the document, as long as the statement of the body that holds it is. The
cleaning may write to one statement of the body; what lies outside that statement reads as
if it had not. -/

namespace DebugGuards

open DebugGuards.Tree Node Expansion List

section Reaching

variable {w : Workspace} {h h' : Heap} {m n : Mark} {x y : Tree Mark} {cell : Cell} {p : Patch} {r : Ref}

/-- What lies inside something that a part refers to lies inside the part. -/
theorem Models.mem_deref (hw : Models w h) (hc : h m = some cell) (hr : r ∈ cell.refs)
    (hn : n ∈ (w.deref r).marks) : n ∈ (w.deref (.part m)).marks := by
  obtain ⟨s, hs, e, hcell⟩ := hw.exists_shows hc
  rw [cell?_refs hcell] at hr
  obtain ⟨x, hx, rfl⟩ := mem_map.mp hr
  rw [hw.deref_eq (hs.child hx)] at hn
  rw [← e, hw.deref_eq hs]
  exact marks_child hx hn

/-- A part that is not affected still refers to what has not gone. -/
theorem Patch.mem_refs_cell (hm : ¬ p.Affects m) (hr : r ∈ cell.refs) (hg : r ∉ p.gone) : r ∈ (p.cell m cell).refs := by
  have hnew : p.new m = none := not_not.mp fun e => hm (.inr e)
  rw [Patch.cell, hnew, Cell.under_none]
  cases cell with
  | list rs => exact mem_filter.mpr ⟨hr, decide_eq_true hg⟩
  | record fs =>
    obtain ⟨e, he, rfl⟩ := mem_map.mp hr
    refine mem_map.mpr ⟨(e.1, standIn p.gone p.empty e.2), mem_map.mpr ⟨e, he, rfl⟩, ?_⟩
    exact if_neg hg

/-- A new part that the writing does not concern reflects its draft as before: no new part
refers to the one written to. -/
theorem Reflects.apart {k : ℕ} {d : Draft} (hr : Reflects h k d r) (hne : r ≠ .part n)
    (hhold : ∀ (m : ℕ) cell, k ≤ m → h m = some cell → .part n ∉ cell.refs)
    (hh : ∀ (m : ℕ) cell, m ≠ n → h m = some cell → h' m = some cell) : Reflects h' k d r := by
  induction hr with
  | scalar s => exact .scalar s
  | old d m hm => exact .old d m hm
  | new d m cell hd hk hc fits _ ih =>
    refine .new d m cell hd hk (hh m cell (fun e => hne (e ▸ rfl)) hc) fits fun q hq => ih q hq fun e => ?_
    exact hhold m cell hk hc (e ▸ (of_mem_zip hq).2)

end Reaching

namespace Expansion

section Held

variable {c : Scan} {fields : Fields Mark} {body : Mark} {items met : List (Tree Mark)} {guard : String}
  {p : Patch} {es : List Entry} {w : Workspace} {h : Heap} {rs : List Ref} {written : List Mark} {x y z : Tree Mark}
  {m n k : Mark}

/-- The document with some statements in its body, patched but for some parts written to. -/
structure Held (c : Scan) (body : Mark) (p : Patch) (guard : String) (written : List Mark) (w : Workspace) (h : Heap)
    (rs : List Ref) : Prop where
  models : Models w h
  root : w.root.ref = c.start.root.ref
  cells : ∀ m : ℕ, m < c.base → m ≠ body → m ∉ written → h m = (c.heap m).map (p.cell m)
  list : h body = some (.list rs)
  chains : ∀ m e, p.new m = some e → ∃ ds, Reflects h c.base (parenthesized (guardChain (.str guard) ds)) e

theorem Standing.held (hs : Standing c fields body items met guard p es w h rs) : Held c body p guard [] w h rs := by
  refine ⟨hs.stage.models, hs.stage.keeps.root, fun m hm hb _ => hs.stage.cells m hm hb, hs.stage.list,
    fun m e he => ?_⟩
  obtain ⟨_, _, _, _, _, ds, _, hchain, _⟩ := hs.guarding m e he
  exact ⟨ds, hchain⟩

namespace Held

/-- What a part that is not affected held, it holds. -/
theorem mem_of_child (hh : Held c body p guard written w h rs) (hl : Layout c fields body items) (hx : Shows c.heap x)
    (hm : x.ref = .part m) (hb : m ≠ body) (hw : m ∉ written) (hnot : ¬ p.Affects m) (hy : y ∈ x.children)
    (hg : y.ref ∉ p.gone) (hn : n ∈ (w.deref y.ref).marks) : n ∈ (w.deref x.ref).marks := by
  obtain ⟨cell, hcell⟩ := hx.some_of_mem (mem_marks_of_ref hm)
  have hrefs : y.ref ∈ cell.refs := by
    rw [cell?_refs ((hx.here hm).symm.trans hcell)]
    exact mem_map_of_mem hy
  have hnow : h m = some (p.cell m cell) := by
    rw [hh.cells m (hl.ready.marks_lt hx (mem_marks_of_ref hm)) hb hw, hcell, Option.map_some]
  rw [hm]
  exact hh.models.mem_deref hnow (Patch.mem_refs_cell hnot hrefs hg) hn

theorem mem_of_mem (hh : Held c body p guard written w h rs) (hl : Layout c fields body items) (hz : Shows c.heap z)
    (hb : body ∉ z.marks) (hw : ∀ m ∈ written, m ∉ z.marks)
    (hfree : ∀ y m, Shows c.heap y → y.ref = .part m → n ∈ y.marks → ¬ p.Affects m) (hn : n ∈ z.marks) :
    n ∈ (w.deref z.ref).marks := by
  induction z using inductChildren with
  | step z ih =>
    obtain ⟨m, hm⟩ : ∃ m, z.ref = .part m := by
      cases z with
      | scalar => rw [marks_scalar] at hn; cases hn
      | arr m | obj m => exact ⟨m, rfl⟩
    have hmem := mem_marks_of_ref hm
    have hne : m ≠ body := fun e => hb (e ▸ hmem)
    have hout : m ∉ written := fun e => hw m e hmem
    rw [marks_eq, ref_eq_part_iff.mp hm, mem_append, mem_flatMap] at hn
    rcases hn with hn | ⟨y, hy, hn⟩
    · obtain rfl := mem_singleton.mp hn
      obtain ⟨cell, hcell⟩ := hz.some_of_mem hmem
      have hnow := hh.cells n (hl.ready.marks_lt hz hmem) hne hout
      rw [hcell, Option.map_some] at hnow
      obtain ⟨s, hs, e, _⟩ := hh.models.exists_shows hnow
      rw [hm, ← e, hh.models.deref_eq hs]
      exact mem_marks_of_ref e
    · have hys := hz.child hy
      have hgone : y.ref ∉ p.gone := fun hg => by
        cases hr : y.ref with
        | scalar s =>
          cases y with
          | scalar => rw [marks_scalar] at hn; cases hn
          | arr | obj => cases hr
        | part j => exact hfree y j hys hr hn (.inl (hr ▸ hg))
      refine hh.mem_of_child hl hz hm hne hout (hfree z m hz hm (marks_child hy hn)) hy hgone ?_
      exact ih y hy hys (fun e => hb (marks_child hy e)) (fun m hm e => hw m hm (marks_child hy e)) hn

end Held

/-- A part that is new or a statement of the body. -/
inductive Listed (c : Scan) (items : List (Tree Mark)) (m : Mark) : Prop
  | new (hm : c.base ≤ m) : Listed c items m
  | item (z : Tree Mark) (hz : z ∈ items) (hr : z.ref = .part m) : Listed c items m

/-- A node of the program is inside the statement of the body that has its mark. -/
theorem Layout.mem_inside_item (hl : Layout c fields body items) (hx : x ∈ nodesFields fields) (hr : x.ref = .part m)
    (hz : z ∈ items) (hm : m ∈ z.marks) : x ∈ inside z := by
  obtain ⟨e, he, _, hin, hsub⟩ := marks_nodesFields hx
  have hpair := pairwise_map.mp (children_pairwise hl.distinct)
  obtain rfl : e = ("body", arr body items) := eq_of_mem_of_mem hpair he (Table.mem_of_get? hl.body)
    (hsub (mem_marks_of_ref hr)) (marks_child (t := arr body items) hz hm)
  rw [inside, nodesItems_eq, mem_flatMap] at hin
  obtain ⟨z', hz', hin⟩ := hin
  have hin := nodes_subset_inside z' hin
  have hpair := children_pairwise (nodup_child hl.distinct hl.body_mem)
  rwa [eq_of_mem_of_mem hpair hz hz' hm (marks_inside hin (mem_marks_of_ref hr))]

namespace Listed

section

variable (hm : Listed c items m) (hl : Layout c fields body items)
include hm hl

theorem not_mem_slot {e : String × Tree Mark} (he : e ∈ fields) (hne : e.1 ≠ "body") : m ∉ e.2.marks := by
  intro hmem
  cases hm with
  | new hm => exact Nat.not_lt.mpr hm (hl.ready.marks_lt (hl.shows.child (mem_map_of_mem he)) hmem)
  | item z hz hr =>
    exact hl.slot_disjoint he hne (marks_child (t := arr body items) hz (mem_marks_of_ref hr)) hmem

theorem ne_program : m ≠ c.start.program := by
  rintro rfl
  cases hm with
  | new hm => exact Nat.not_lt.mpr hm (hl.ready.marks_lt hl.shows (mem_marks_of_ref rfl))
  | item z hz hr => exact hl.ref_ne_program (hl.item_mem hz) hr

theorem ne_body : m ≠ body := by
  rintro rfl
  cases hm with
  | new hm => exact Nat.not_lt.mpr hm (hl.ready.marks_lt hl.shows_body (mem_marks_of_ref rfl))
  | item z hz hr => exact hl.ref_ne_body (hl.item_mem hz) hr

theorem ne_file {k : Mark} {fs : Fields Mark}
    (heq : c.start.root = obj k fs) (hget : Table.get? fs "program" = some (obj c.start.program fields)) : m ≠ k := by
  rintro rfl
  cases hm with
  | new hm => exact Nat.not_lt.mpr hm (hl.ready.marks_lt (hl.shows_file heq) (mem_marks_of_ref rfl))
  | item z hz hr =>
    exact hl.file_not_mem heq hget
      (marks_child hl.body_mem (marks_child (t := arr body items) hz (mem_marks_of_ref hr)))

theorem ref_of_mem (hz : z ∈ items) (hmem : m ∈ z.marks) : z.ref = .part m := by
  cases hm with
  | new hm => exact absurd (hl.ready.marks_lt (hl.shows_node (hl.item_mem hz)) hmem) (Nat.not_lt.mpr hm)
  | item z' hz' hr =>
    have hpair := children_pairwise (nodup_child hl.distinct hl.body_mem)
    rw [eq_of_mem_of_mem hpair hz hz' hmem (mem_marks_of_ref hr)]
    exact hr

end

end Listed

/-- A part of the program that lies in nothing affected is in the document, if the statement
of the body that it lies in is there and not written to. -/
theorem Held.mem_root (hh : Held c body p guard written w h rs) (hl : Layout c fields body items) (hp : PatchOf c met p)
    (hmet : Met c fields met) (hwraps : Wraps c.start.root (obj c.start.program fields))
    (hwritten : ∀ m ∈ written, Listed c items m)
    (hfree : ∀ y m, Shows c.heap y → y.ref = .part m → n ∈ y.marks → ¬ p.Affects m)
    (hitem : ∀ z ∈ items, n ∈ z.marks → z.ref ∈ rs ∧ ∀ m ∈ written, z.ref ≠ .part m) {e : String × Tree Mark}
    (he : e ∈ fields) (hb : n ≠ body) (hn : n ∈ e.2.marks) : n ∈ w.root.marks := by
  have hin : n ∈ (w.deref (.part c.start.program)).marks := by
    have hnot := hp.not_affects_of_not_mem hmet fun _ hn => hl.ref_ne_program hn
    have hstep : ∀ {y : Tree Mark}, y ∈ (obj c.start.program fields).children → y.ref ∉ p.gone →
        n ∈ (w.deref y.ref).marks → n ∈ (w.deref (obj c.start.program fields).ref).marks := fun hy =>
      hh.mem_of_child hl hl.shows rfl hl.program_ne_body (fun e => (hwritten _ e).ne_program hl rfl) hnot hy
    by_cases hkey : e.1 = "body"
    · obtain ⟨_, v⟩ := e
      obtain rfl : _ = "body" := hkey
      obtain rfl : v = arr body items := Option.some.inj ((Table.get?_of_mem hl.keys he).symm.trans hl.body)
      rw [marks_eq, mem_append, mem_flatMap] at hn
      obtain ⟨z, hz, hn⟩ := hn.resolve_left fun h => hb (mem_singleton.mp h)
      obtain ⟨hlisted, hout⟩ := hitem z hz hn
      have hmem := hl.item_mem hz
      refine hstep (y := arr body items) hl.body_mem ?_ (hh.models.mem_deref hh.list hlisted ?_)
      · exact fun hg => hp.not_affects_of_not_mem hmet (fun _ hn => hl.ref_ne_body hn) (.inl hg)
      · exact hh.mem_of_mem hl (hl.shows_node hmem) (hl.body_not_mem hmem)
          (fun m hm h => hout m hm ((hwritten m hm).ref_of_mem hl hz h)) hfree hn
    · have hshows : Shows c.heap e.2 := hl.shows.child (mem_map_of_mem he)
      refine hstep (mem_map_of_mem he) (fun hg => ?_) ?_
      · obtain ⟨j, hj⟩ := hp.part_of_gone hmet.judged _ hg
        exact hfree e.2 j hshows hj hn (.inl (hj ▸ hg))
      · exact hh.mem_of_mem hl hshows (hl.slot_disjoint he hkey (mem_marks_of_ref rfl))
          (fun m hm => (hwritten m hm).not_mem_slot hl he hkey) hfree hn
  rw [← hh.models.deref_eq hh.models.root, hh.root]
  cases hwraps with
  | program _ heq =>
    rw [heq]
    exact hin
  | file m fs heq _ _ hget =>
    rw [heq]
    have hself := hl.file_not_mem heq hget
    refine hh.mem_of_child hl (hl.shows_file heq) rfl (fun e => hself ?_)
      (fun e => (hwritten m e).ne_file hl heq hget rfl) (hp.not_affects_outside hmet hself)
      (mem_map_of_mem (Table.mem_of_get? hget)) ?_ hin
    · exact e ▸ marks_child hl.body_mem (mem_marks_of_ref rfl)
    · exact fun hg => hp.not_affects_of_not_mem hmet (fun _ hn => hl.ref_ne_program hn) (.inl hg)

section Expressions

variable {fs gs : Fields Mark}

theorem ref_expressionOf (k : Mark) (fs : Fields Mark) :
    (expressionOf (obj k fs)).ref = (Table.get? (Table.mapValues ref fs) "expression").getD (.scalar .null) := by
  rw [expressionOf, Tree.fields, Table.get?_mapValues]
  cases Table.get? fs "expression" <;> rfl

section

variable (hh : Held c body p guard written w h rs) (hl : Layout c fields body items)
include hh hl

theorem Held.exists_obj
    (hx : Shows c.heap (obj k fs)) (hb : k ≠ body) (hw : k ∉ written) (hy : Shows h y) (hr : y.ref = .part k) :
    ∃ gs, y = obj k gs := by
  have hcell := hh.cells k (hl.ready.marks_lt hx (mem_marks_of_ref rfl)) hb hw
  rw [hx.here rfl, hy.here hr] at hcell
  cases y with
  | scalar => cases hr
  | obj => cases hr; exact ⟨_, rfl⟩
  | arr =>
    simp only [cell?, Option.map_some, Patch.cell, Cell.prune, Option.some.injEq] at hcell
    cases hnew : p.new k <;> rw [hnew] at hcell <;> cases hcell

theorem Held.expression_of_none
    (hp : PatchOf c met p) (hmet : Met c fields met) (hx : Shows c.heap (obj k fs)) (hb : k ≠ body) (hw : k ∉ written)
    (hexp : isStatement (expressionOf (obj k fs)) = false) (hnew : p.new k = none) (hy : Shows h (obj k gs)) :
    (expressionOf (obj k gs)).ref = (expressionOf (obj k fs)).ref := by
  have hcell := hh.cells k (hl.ready.marks_lt hx (mem_marks_of_ref rfl)) hb hw
  rw [hx.here rfl, hy.here rfl] at hcell
  simp only [cell?, Option.map_some, Patch.cell, hnew, Cell.under_none, Cell.prune, Option.some.injEq,
    Cell.record.injEq] at hcell
  rw [ref_expressionOf, ref_expressionOf, hcell, Table.get?_mapValues]
  cases he : Table.get? fs "expression" with
  | none => rw [Table.get?_mapValues, he]; rfl
  | some e =>
    rw [expressionOf, Tree.fields, he, Option.getD_some] at hexp
    rw [Table.get?_mapValues, he, Option.map_some, Option.map_some, Option.getD_some, Option.getD_some, standIn, if_neg]
    intro hg
    obtain ⟨j, hj⟩ := hp.part_of_gone hmet.judged _ hg
    exact hp.not_affects hmet.judged (hx.field he) hj hexp (.inl (hj ▸ hg))

theorem Held.expression_of_some
    (hx : Shows c.heap (obj k fs)) (hb : k ≠ body) (hw : k ∉ written) {e : Ref} (hnew : p.new k = some e)
    (hy : Shows h (obj k gs)) :
    ∃ operands, (expressionOf (obj k gs)).erase = parenthesized (guardChain (.str guard) operands) := by
  have hcell := hh.cells k (hl.ready.marks_lt hx (mem_marks_of_ref rfl)) hb hw
  rw [hx.here rfl, hy.here rfl] at hcell
  simp only [cell?, Option.map_some, Patch.cell, hnew, Cell.under, Cell.prune, Option.some.injEq,
    Cell.record.injEq] at hcell
  have hget : Table.get? (Table.mapValues ref gs) "expression" = some e := by
    rw [hcell, Table.get?_set, if_pos rfl]
  rw [Table.get?_mapValues, Option.map_eq_some_iff] at hget
  obtain ⟨v, hv, rfl⟩ := hget
  obtain ⟨ds, hchain⟩ := hh.chains k _ hnew
  refine ⟨ds.map (resolve fun m => w.value (.part m)), ?_⟩
  rw [expressionOf, Tree.fields, hv, Option.getD_some, ← hh.models.value_ref (hy.field hv),
    hh.models.value_reflects hchain, Node.parenthesized, resolve_make, ← resolve_guardChain]
  rfl

theorem Held.isStatement_eq
    (hp : PatchOf c met p) (hmet : Met c fields met) (hx : Shows c.heap (obj k fs)) (hb : k ≠ body) (hw : k ∉ written)
    (hst : isStatement (obj k fs) = true) (hy : Shows h (obj k gs)) : isStatement (obj k gs) = true := by
  have hcell := hh.cells k (hl.ready.marks_lt hx (mem_marks_of_ref rfl)) hb hw
  rw [hx.here rfl, hy.here rfl] at hcell
  have htype := kind?_obj.mp (hasKind_iff.mp hst)
  have hbare : Table.get? (Table.mapValues (standIn p.gone p.empty) (Table.mapValues ref fs)) "type" =
      some (.scalar (.str "ExpressionStatement")) := by
    rw [Table.get?_mapValues, Table.get?_mapValues, htype]
    refine congrArg some (if_neg fun hg => ?_)
    obtain ⟨_, hj⟩ := hp.part_of_gone hmet.judged _ hg
    cases hj
  have hnow : Table.get? (Table.mapValues ref gs) "type" = some (.scalar (.str "ExpressionStatement")) := by
    simp only [cell?, Option.map_some, Patch.cell, Cell.prune, Option.some.injEq] at hcell
    cases hnew : p.new k with
    | none =>
      rw [hnew, Cell.under_none, Cell.record.injEq] at hcell
      rw [hcell, hbare]
    | some e =>
      rw [hnew, Cell.under, Cell.record.injEq] at hcell
      rw [hcell, Table.get?_set, if_neg (by decide), hbare]
  rw [Table.get?_mapValues, Option.map_eq_some_iff] at hnow
  obtain ⟨v, hv, hr⟩ := hnow
  cases v with
  | arr | obj => cases hr
  | scalar s =>
    cases hr
    exact hasKind_iff.mpr (kind?_obj.mpr hv)

end

end Expressions

section Writing

variable {w' : Workspace} {h' : Heap} {cell : Cell} {rs₁ rs₂ : List Ref}

/-- What is written to is held by the body alone, so it is in no guarded expression. -/
theorem Standing.chain_apart (hs : Standing c fields body items met guard p es w h (rs₁ ++ .part k :: rs₂))
    (hk : c.base ≤ k) (hwr : h.Writes w.fresh k cell h' w'.fresh) {m : Mark} {r : Ref} (hr : p.new m = some r)
    {d : Draft} (hd : Reflects h c.base d r) : Reflects h' c.base d r := by
  have hbelow := hs.stage.models.below
  have hone : h.uses (.part k) w.fresh ≤ 1 := by
    have := hs.stage.sole k hk
    rw [count_nil] at this
    split_ifs at this <;> omega
  have hholder : ∀ (m : ℕ) cell, h m = some cell → .part k ∈ cell.refs → m = body := fun m cell hc hmem =>
    Heap.holder_unique hbelow hone hc hs.stage.list hmem (by simp [Cell.refs])
  refine hd.apart (fun e => ?_) (fun m cell hm hc hmem => ?_) fun m _ hm hc => hwr.cell hbelow hm hc
  · obtain ⟨y, hy, _, hyr, _⟩ := hs.guarding m r hr
    have hj := hs.judged.judged y hy
    obtain ⟨_, fs, _, rfl, _⟩ := exists_of_isNode (isNode_of_isStatement hj.statement)
    cases hyr
    have hne : m ≠ body := fun e => hs.layout.ref_ne_body (hs.judged.nodes hy) (e ▸ rfl)
    have hcell := hs.stage.cell hs.layout hj.shows rfl hne rfl
    refine hne (hholder m _ hcell ?_)
    rw [Patch.cell, hr, Cell.prune, Cell.under, ← e]
    exact mem_map_of_mem (Table.mem_of_get? (show Table.get? (Table.set _ "expression" r) "expression" = some r by
      rw [Table.get?_set, if_pos rfl]))
  · have hlt : body < c.base := hs.layout.ready.marks_lt hs.layout.shows_body (mem_marks_of_ref rfl)
    rw [hholder m cell hc hmem] at hm
    exact absurd hlt (Nat.not_lt.mpr hm)

/-- After a write to a statement of the body that nothing else holds, the rest is as it was. -/
theorem Standing.held_write (hs : Standing c fields body items met guard p es w h (rs₁ ++ .part k :: rs₂))
    (hb : k ≠ body) (hw' : Models w' h') (hwr : h.Writes w.fresh k cell h' w'.fresh)
    (hroot : w'.root.ref = w.root.ref) : Held c body p guard [k] w' h' (rs₁ ++ .part k :: rs₂) := by
  have hbelow := hs.stage.models.below
  refine ⟨hw', hroot.trans hs.stage.keeps.root, fun m hm hb hout => ?_, hwr.cell hbelow (Ne.symm hb) hs.stage.list,
    fun m r hr => ?_⟩
  · rw [hwr.old m (Nat.lt_of_lt_of_le hm hs.stage.le) (fun e => hout (e ▸ mem_singleton.mpr rfl))]
    exact hs.stage.cells m hm hb
  · obtain ⟨ds, hchain⟩ := hs.held.chains m r hr
    refine ⟨ds, ?_⟩
    by_cases hk : k < c.base
    · exact hchain.mono (Nat.le_refl _) fun n cell hn hc => hwr.cell hbelow (Nat.ne_of_gt (Nat.lt_of_lt_of_le hk hn)) hc
    · exact hs.chain_apart (Nat.not_lt.mp hk) hwr hr hchain

end Writing

end Held

end Expansion

end DebugGuards
