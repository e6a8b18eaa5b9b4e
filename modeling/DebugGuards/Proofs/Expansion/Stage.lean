import DebugGuards.Proofs.Expansion.Readback

/-! A module between the phases of its expansion. Outside the list of its statements
the heap is that of the module patched: expired statements are gone, and the statements
under guard have their new expressions or will have them. The list of statements is
described on its own, since the later phases change nothing else. -/

namespace DebugGuards.Expansion

open DebugGuards.Tree Node List

/-- A well-formed module at the start of its scan. -/
structure Layout (c : Scan) (fields : List (String × Tree Mark)) (body : Mark) (items : List (Tree Mark)) :
    Prop where
  ready : c.Ready
  shows : Shows c.heap (.obj c.start.program fields)
  distinct : (obj c.start.program fields).marks.Nodup
  node : isNode (obj c.start.program fields) = true
  keys : (fields.map Prod.fst).Nodup
  body : Table.get? fields "body" = some (.arr body items)
  sound : ∀ n ∈ nodesFields fields, sound n = true
  statements : ∀ x ∈ items, isNode x = true

/-- The patch takes out the expired statements among those met, and gives new
expressions to statements met only. -/
structure PatchOf (c : Scan) (met : List (Tree Mark)) (p : Patch) : Prop where
  gone : p.gone = gone c.expired met
  new : ∀ m, p.new m ≠ none → ∃ x ∈ met, x.ref = .part m

/-- The module with its statements in a list of their own. -/
structure Stage (c : Scan) (body : Mark) (p : Patch) (w : Workspace) (h : Heap) (rs : List Ref) : Prop where
  models : Models w h
  keeps : c.start.Keeps w
  le : c.base ≤ w.fresh
  cells : ∀ m : ℕ, m < c.base → m ≠ body → h m = (c.heap m).map (p.cell m)
  list : h body = some (.list rs)
  empties : ∀ m fs, c.heap m = some (.record fs) → ∀ r ∈ fs.map Prod.snd, r ∈ p.gone →
    Reflects h c.base Node.emptyStatement (p.empty r)
  sole : h.Spare c.base w.fresh []

variable {c : Scan} {fields : Fields Mark} {body : Mark} {items met : List (Tree Mark)}
  {p : Patch} {w : Workspace} {h : Heap} {rs : List Ref} {n x : Tree Mark}

namespace Layout

section

variable (hl : Layout c fields body items)
include hl

theorem shows_node (hn : n ∈ nodesFields fields) : Shows c.heap n :=
  hl.shows.nodesFields hn

theorem shows_body : Shows c.heap (.arr body items) := hl.shows.field hl.body

theorem item_mem (hx : x ∈ items) : x ∈ nodesFields fields := by
  have hmeta : isMetadata "body" = false := by decide
  refine mem_nodesFields_of (Table.mem_of_get? hl.body) hmeta ?_
  rw [inside, nodesItems_eq, mem_flatMap]
  refine ⟨x, hx, ?_⟩
  have h := mem_inside_self (hl.statements x hx)
  cases x with
  | scalar | obj => exact h
  | arr => cases hl.statements _ hx

theorem distinct_node (hn : n ∈ nodesFields fields) : n.marks.Nodup := by
  obtain ⟨e, he, _, hn⟩ := mem_nodesFields hn
  exact inside_induction (P := fun x => x.marks.Nodup) (fun _ hx _ hc => nodup_child hx hc)
    (nodup_child hl.distinct (mem_map_of_mem he)) hn

/-- The list of statements is no part of a node below the program. -/
theorem body_not_mem (hn : n ∈ nodesFields fields) : body ∉ n.marks := by
  intro hb
  obtain ⟨e, he, _, hn, hsub⟩ := marks_nodesFields hn
  have hbody : ("body", arr body items) ∈ fields := Table.mem_of_get? hl.body
  have hpair := pairwise_map.mp (children_pairwise hl.distinct)
  obtain rfl : e = ("body", arr body items) := eq_of_mem_of_mem hpair he hbody (hsub hb) (mem_marks_of_ref rfl)
  rw [inside, nodesItems_eq, mem_flatMap] at hn
  obtain ⟨y, hy, hn⟩ := hn
  have hd : (arr body items).marks.Nodup := nodup_child hl.distinct (mem_map_of_mem hbody)
  exact not_mem_marks_child hd rfl hy (marks_inside (nodes_subset_inside y hn) hb)

end

end Layout

namespace PatchOf

theorem affects (hp : PatchOf c met p) {m : Mark} (ha : p.Affects m) : ∃ x ∈ met, x.ref = .part m := by
  rcases ha with ha | ha
  · rw [hp.gone] at ha
    obtain ⟨x, hx, _, hr⟩ := mem_gone.mp ha
    exact ⟨x, hx, hr⟩
  · exact hp.new m ha

theorem isStatement_of_affects (hp : PatchOf c met p) (hj : ∀ x ∈ met, c.Judged x) (hx : Shows c.heap x)
    {m : Mark} (hm : x.ref = .part m) (ha : p.Affects m) : isStatement x = true := by
  obtain ⟨y, hy, hr⟩ := hp.affects ha
  rw [hx.unique (hj y hy).shows (hm.trans hr.symm)]
  exact (hj y hy).statement

theorem localInside (hp : PatchOf c met p) (hl : Layout c fields body items) (hmet : met ⊆ nodesFields fields)
    (hn : n ∈ nodesFields fields) : p.LocalInside n := by
  have hroot : p.LocalInside (obj c.start.program fields) := by
    intro m _ ha
    obtain ⟨x, hx, hr⟩ := hp.affects ha
    refine ⟨x, ?_, hr⟩
    simp only [inside, nodes, hl.node, if_true]
    exact mem_cons_of_mem _ (hmet hx)
  refine Patch.LocalInside.node hroot hl.distinct ?_
  simp only [inside, nodes, hl.node, if_true]
  exact mem_cons_of_mem _ hn

theorem not_affects (hp : PatchOf c met p) (hj : ∀ x ∈ met, c.Judged x) (hx : Shows c.heap x) {m : Mark}
    (hm : x.ref = .part m) (hst : isStatement x = false) : ¬ p.Affects m := by
  intro ha
  have := hp.isStatement_of_affects hj hx hm ha
  rw [hst] at this
  cases this

end PatchOf

section Calls

theorem call_of_calledHelper {helpers : Table Scalar Helper} {called : Tree Mark × Helper}
    (hcalled : calledHelper helpers x = .ok (some called)) :
    ∃ m fs, Table.get? x.fields "expression" = some (.obj m fs) ∧ isCall (.obj m fs) = true := by
  cases x with
  | scalar | arr => cases hcalled
  | obj m fields =>
    cases he : isCall (expressionOf (obj m fields)) with
    | false =>
      have hname : calleeName (expressionOf (obj m fields)) = .ok .null := by rw [calleeName, he]; rfl
      simp only [expressionOf, Tree.fields] at hname
      simp only [calledHelper, Tree.get, bind, Except.bind, hname] at hcalled
      cases hcalled
    | true =>
      simp only [expressionOf, Tree.fields] at he
      cases hg : Table.get? fields "expression" with
      | none => rw [hg] at he; cases he
      | some e =>
        rw [hg, Option.getD_some] at he
        cases e with
        | scalar | arr => cases he
        | obj k fs => exact ⟨k, fs, hg, he⟩

theorem call_of_verdict {o : Options} {helpers : Table Scalar Helper} {v : Verdict}
    (hv : verdict o helpers x = .ok v) (hu : v ≠ .untouched) :
    ∃ m fs, Table.get? x.fields "expression" = some (.obj m fs) ∧ isCall (.obj m fs) = true := by
  obtain ⟨rfl, _⟩ | ⟨name, helper, _, hcalled, _⟩ := verdict_ok hv
  · exact absurd rfl hu
  · exact call_of_calledHelper hcalled

theorem exists_call {drafts : List Draft} (hop : c.operands x = some drafts) :
    ∃ m fs, Table.get? x.fields "expression" = some (.obj m fs) ∧ isCall (.obj m fs) = true := by
  obtain ⟨v, hv, hd⟩ := Scan.exists_verdict hop
  refine call_of_verdict hv ?_
  rintro rfl
  cases hd

theorem arguments_cases (hs : Node.sound n = true) (hc : isCall n = true) :
    (Table.get? n.fields "arguments" = none ∧ argumentsOf n = []) ∨
    ∃ m args, Table.get? n.fields "arguments" = some (.arr m args) ∧ argumentsOf n = args ∧
      ∀ a ∈ args, isArgument a = true := by
  rw [Node.sound, hasKind_iff.mp hc] at hs
  simp only [Bool.and_eq_true, holdsIf, field?] at hs
  cases n with
  | scalar | arr => cases hc
  | obj m fs =>
    simp only [Tree.fields] at hs ⊢
    cases hg : Table.get? fs "arguments" with
    | none => exact .inl ⟨rfl, by simp [argumentsOf, elementsOf, Tree.get?, hg, bind, Except.bind]⟩
    | some v =>
      rw [hg] at hs
      cases v with
      | scalar | obj => simp [isListOf] at hs
      | arr k args =>
        refine .inr ⟨k, args, rfl, ?_, by simpa [isListOf] using hs.1⟩
        simp [argumentsOf, elementsOf, Tree.get?, hg, bind, Except.bind, elements]

theorem Layout.arguments (hl : Layout c fields body items) (hn : n ∈ nodesFields fields) (hc : isCall n = true) :
    (Table.get? n.fields "arguments" = none ∧ argumentsOf n = []) ∨
    ∃ m args, Table.get? n.fields "arguments" = some (.arr m args) ∧ argumentsOf n = args ∧
      ∀ a ∈ args, isArgument a = true := arguments_cases (hl.sound n hn) hc

theorem not_isStatement_of_isArgument {a : Tree Mark} (ha : isArgument a = true) : isStatement a = false := by
  simp only [isArgument, isStatement, Bool.and_eq_true, Bool.not_eq_true'] at ha
  exact ha.2

theorem not_isStatement_of_isCall {a : Tree Mark} (ha : isCall a = true) : isStatement a = false := by
  rw [isCall, hasKind_iff] at ha
  rw [isStatement, Bool.eq_false_iff, ne_eq, hasKind_iff, ha]
  decide

/-- The call of a statement of the module is a node of the module. -/
theorem call_mem (hx : x ∈ nodesFields fields) {m : Mark} {fs : Fields Mark}
    (hc : Table.get? x.fields "expression" = some (.obj m fs)) (hk : isCall (.obj m fs) = true) :
    obj m fs ∈ nodesFields fields := by
  have hnode : isNode (.obj m fs) = true := by rw [isNode, hasKind_iff.mp hk]; rfl
  have hmeta : isMetadata "expression" = false := by decide
  obtain ⟨e, he, hm, hin⟩ := mem_nodesFields hx
  obtain ⟨k, xs, rfl, hxn⟩ := exists_of_mem_inside hin
  exact nodesFields_trans hx (inside_field hxn hc hmeta (mem_inside_self hnode))

theorem Layout.argument_mem (hl : Layout c fields body items) (hx : x ∈ nodesFields fields) {drafts : List Draft}
    (hop : c.operands x = some drafts) {a : Tree Mark} (ha : a ∈ argumentsOf (expressionOf x)) :
    a ∈ nodesFields fields ∧ isNode a = true := by
  obtain ⟨m, fs, hcall, hk⟩ := exists_call hop
  have hcmem := call_mem hx hcall hk
  rw [expressionOf, hcall, Option.getD_some] at ha
  obtain ⟨_, hnil⟩ | ⟨j, args, hargs, heq, harg⟩ := hl.arguments hcmem hk
  · rw [hnil] at ha; cases ha
  rw [heq] at ha
  have hnode : isNode a = true := (Bool.and_eq_true_iff.mp (harg a ha)).1
  have hmeta : isMetadata "arguments" = false := by decide
  have hcnode : isNode (obj m fs) = true := by rw [isNode, hasKind_iff.mp hk]; rfl
  refine ⟨nodesFields_trans hcmem (inside_field hcnode hargs hmeta ?_), hnode⟩
  rw [inside, nodesItems_eq, mem_flatMap]
  refine ⟨a, ha, ?_⟩
  have hself := mem_inside_self hnode
  cases a with
  | scalar | arr => cases hnode
  | obj => exact hself

end Calls

namespace Stage

theorem cell_of (hs : Stage c body p w h rs) (hl : Layout c fields body items) (hp : PatchOf c met p)
    (hj : ∀ x ∈ met, c.Judged x) (hx : Shows c.heap x) {m : Mark} (hm : x.ref = .part m) (hb : m ≠ body)
    (hst : isStatement x = false) : h m = x.cell?.map (Cell.prune p.gone p.empty) := by
  have hlt := hl.ready.marks_lt hx (mem_marks_of_ref hm)
  have hnew : p.new m = none := not_not.mp fun e => hp.not_affects hj hx hm hst (.inr e)
  rw [hs.cells m hlt hb, hx.here hm]
  cases x.cell? with
  | none => rfl
  | some y => simp only [Option.map_some, Patch.cell, hnew, Cell.under_none]

theorem applied (hs : Stage c body p w h rs) (hl : Layout c fields body items) (hx : Shows c.heap x)
    (hb : body ∉ x.marks) : p.Applied c.heap h x := by
  intro m hm
  exact hs.cells m (hl.ready.marks_lt hx hm) fun e => hb (e ▸ hm)

end Stage

end DebugGuards.Expansion
