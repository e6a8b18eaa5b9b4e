import DebugGuards.Proofs.Expansion.Finalize

/-! What a module reads as once its statements are under guard. The expression of such a
statement reads as the chain over its arguments as they read now, which makes each part
of the module the image of what it was under the recursion. -/

namespace DebugGuards

open DebugGuards.Tree Node Expansion List

namespace Tree

section Resolve
variable (v : Mark → Json)

theorem resolve_listOf (items : List Draft) : resolve v (Node.listOf items) = Node.listOf (items.map (resolve v)) := by
  rw [← resolveItems_eq]; rfl

theorem resolve_make (kind : String) (fields : List (String × Draft)) :
    resolve v (Node.make kind fields) = Node.make kind (Table.mapValues (resolve v) fields) := by
  rw [← resolveFields_eq]; rfl

@[simp] theorem resolve_scalar (s : Scalar) : resolve v (.scalar s) = .scalar s := by rw [resolve]

theorem resolve_copy {α : Type} (t : Tree α) : resolve v t.copy = t.erase := by
  induction t using induct with
  | scalar s => rw [Tree.copy, map_scalar, resolve_scalar]; rfl
  | arr m items ih =>
    rw [Tree.copy, map_arr, resolve, resolveItems_eq, erase_arr, List.map_map]
    congr 1
    exact map_congr_left ih
  | obj m fields ih =>
    rw [Tree.copy, map_obj, resolve, resolveFields_eq, erase_obj, Table.mapValues_mapValues]
    congr 1
    exact map_congr_left fun e he => Prod.ext rfl (ih e he)

theorem resolve_draft (w : Workspace) (t : Tree Mark) :
    resolve (fun m => w.value (.part m)) t.draft = w.value t.ref := by
  cases t with
  | scalar s => rw [draft, map_scalar, resolve_scalar]; rfl
  | arr m items => rw [draft_arr, resolve]; rfl
  | obj m fields => rw [draft_obj, resolve]; rfl

theorem resolve_identifier (name : Draft) : resolve v (Node.identifier name) = Node.identifier (resolve v name) :=
  resolve_make v _ _

theorem resolve_member (a b : Draft) :
    resolve v (Node.member a b) = Node.member (resolve v a) (resolve v b) := by
  rw [Node.member, resolve_make]
  simp [Table.mapValues, Node.member]

theorem resolve_calleeNode (t : Target) (d : Diagnostic) : resolve v (d.calleeNode t) = d.calleeNode t := by
  cases t <;> simp [Diagnostic.calleeNode, resolve_member, resolve_identifier]

theorem resolve_literal (dialect : Dialect) (text : String) :
    resolve v (dialect.literal (.str text)) = dialect.literal (.str text) := by
  cases dialect with
  | uniform =>
    rw [Dialect.literal, Node.literal, resolve_make]
    simp [Table.mapValues, Dialect.literal, Node.literal, Node.rawLiteral]
  | kinded =>
    have hextra : ∀ fs : List (String × Draft), resolve v (obj default fs) = obj () (Table.mapValues (resolve v) fs) :=
      fun fs => by rw [← resolveFields_eq]; rfl
    simp only [Dialect.literal, Node.kindedLiteral, resolve_make, Table.mapValues, map_cons, map_nil, hextra,
      resolve_scalar]
    rfl

theorem resolve_call (t : Target) (d : Diagnostic) (args : List Draft) :
    resolve v (Node.call (d.calleeNode t) args) = Node.call (d.calleeNode t) (args.map (resolve v)) := by
  rw [Node.call, resolve_make]
  simp only [Table.mapValues, map_cons, map_nil, resolve_calleeNode, resolve_listOf, resolve_scalar]
  rfl

theorem resolve_guardChain (guard : String) (operands : List Draft) :
    resolve v (guardChain (.str guard) operands) = guardChain (.str guard) (operands.map (resolve v)) := by
  have key : ∀ chain : Draft, resolve v (operands.foldl Node.logicalAnd chain) =
      (operands.map (resolve v)).foldl Node.logicalAnd (resolve v chain) := by
    induction operands with
    | nil => exact fun _ => rfl
    | cons d operands ih =>
      intro chain
      rw [foldl_cons, ih, map_cons, foldl_cons]
      congr 1
  rw [guardChain, key, resolve_identifier, resolve_scalar]
  rfl

/-- The operands of a verdict read as the operands over the arguments as they read. -/
theorem resolve_operands (o : Options) (dialect : Dialect) {args : List (Tree Mark)}
    (hk : ∀ a ∈ args, isIdentifier (resolve v a.draft) = isIdentifier a)
    (hid : ∀ a ∈ args, isIdentifier a = true → resolve v a.draft = a.erase) (r : Verdict) :
    (r.operands o dialect Tree.copy (args.map draft)).map (List.map (resolve v)) =
      r.operands o dialect id (args.map fun a => resolve v a.draft) := by
  cases r with
  | untouched | expired => rfl
  | asserted =>
    have hfilter : (args.map fun a => resolve v a.draft).filter isIdentifier =
        (args.filter isIdentifier).map fun a => a.erase := by
      rw [filter_map]
      have : args.filter (isIdentifier ∘ fun a => resolve v a.draft) = args.filter isIdentifier :=
        filter_congr hk
      rw [this]
      refine map_congr_left fun a ha => ?_
      rw [mem_filter] at ha
      exact hid a ha.1 ha.2
    simp only [Verdict.operands, Option.map_some, map_append, map_cons, map_nil, identifiers_draft,
      resolve_call, List.map_map, hfilter]
    congr 2
    exact map_congr_left fun a _ => resolve_copy v a
  | warned =>
    simp only [Verdict.operands, Option.map_some, map_cons, map_nil, resolve_call, List.map_map]
    rfl
  | deprecated text =>
    simp only [Verdict.operands, Option.map_some, map_cons, map_nil, resolve_call, resolve_literal,
      getElem?_map]
    cases args[1]? with
    | none => simp
    | some a => rfl

end Resolve

end Tree

/-- Nodes with a new expression are finished, others are left bare. -/
def Patch.finish (p : Patch) (f : Tree Mark → List (String × Json) → Json) (y : Tree Mark)
    (fs : List (String × Json)) : Json :=
  if (y.mark?.bind p.new).isSome then f y fs else .obj () fs

namespace Expansion

variable {c : Scan} {fields : Fields Mark} {body : Mark} {items met : List (Tree Mark)}
  {p : Patch} {w : Workspace} {h : Heap} {rs : List Ref} {x : Tree Mark} {guard : String}

/-- The rewriting of a scanned module. -/
def Scan.rewriting (c : Scan) (guard : String) : Rewriting := ⟨c.options, c.helpers, c.start.dialect, guard⟩

/-- Every new expression is the chain of its statement. -/
def Guarding (c : Scan) (h : Heap) (guard : String) (met : List (Tree Mark)) (p : Patch) : Prop :=
  ∀ m e, p.new m = some e → ∃ x ∈ met, ∃ drafts, x.ref = .part m ∧ c.operands x = some drafts ∧
    Guarded h c.base guard drafts e

theorem PatchOf.part_of_gone (hp : PatchOf c met p) (hj : ∀ x ∈ met, c.Judged x) :
    ∀ r ∈ p.gone, ∃ m, r = .part m := by
  intro r hr
  rw [hp.gone] at hr
  obtain ⟨x, hx, _, rfl⟩ := mem_gone.mp hr
  exact Scan.exists_ref_of_isStatement (hj x hx).statement

/-- Operands read as the drafts they stand for. -/
theorem Prepared.value (hw : Models w h) {k : ℕ} {drafts : List Draft} {refs : List Ref}
    (hp : Prepared h k drafts refs) : drafts.map (resolve fun m => w.value (.part m)) = refs.map w.value :=
  map_eq_map_of_zip hp.1 fun q hq => (hw.value_reflects (hp.2 q hq)).symm

theorem Guarded.value (hw : Models w h) {k : ℕ} {drafts : List Draft} {e : Ref} (hg : Guarded h k guard drafts e) :
    w.value e = Node.parenthesized (guardChain (.str guard) (drafts.map (resolve fun m => w.value (.part m)))) := by
  obtain ⟨ds, refs, hr, hd, hdrafts⟩ := hg
  rw [hw.value_reflects hr, Node.parenthesized, resolve_make, hdrafts.value hw, ← hd.value hw, ← resolve_guardChain]
  rfl

namespace Stage

section

variable (hs : Stage c body p w h rs) (hl : Layout c fields body items) (hp : PatchOf c met p)
include hs hl hp

/-- A node keeps its type. -/
theorem kind?_value
    (hj : ∀ x ∈ met, c.Judged x) {m : Mark} {fs : Fields Mark} (hx : Shows c.heap (obj m fs))
    (hb : m ≠ body) {k : String} (hk : kind? (obj m fs) = some k) : kind? (w.value (.part m)) = some k := by
  have hscalar : ∀ s, standIn p.gone p.empty (.scalar s) = .scalar s := by
    intro s
    rw [standIn, if_neg]
    intro hg
    obtain ⟨m, hm⟩ := hp.part_of_gone hj _ hg
    cases hm
  have hcell : h m = some ((Cell.record (Table.mapValues (standIn p.gone p.empty) (Table.mapValues ref fs))).under
      (p.new m)) := by
    rw [hs.cells m (hl.ready.marks_lt hx (mem_marks_of_ref rfl)) hb, hx.here rfl]
    rfl
  have htype := kind?_obj.mp hk
  have hbare : Table.get? (Table.mapValues w.value
      (Table.mapValues (standIn p.gone p.empty) (Table.mapValues ref fs))) "type" = some (.str k) := by
    simp only [Table.get?_mapValues, htype, Option.map_some, ref, hscalar, Workspace.value_scalar]
  rw [hs.models.value_cell hcell]
  cases p.new m with
  | none => exact kind?_obj.mpr hbare
  | some e =>
    refine kind?_obj.mpr ?_
    rw [Table.mapValues_set, Table.get?_set, if_neg (by decide), hbare]

theorem value_identifier
    (hm : Met c fields met) (hx : x ∈ nodesFields fields) (hid : isIdentifier x = true) : w.value x.ref = x.erase := by
  have hsound := hl.sound x hx
  rw [Node.sound, hasKind_iff.mp hid] at hsound
  simp only [Bool.and_eq_true, List.isEmpty_iff] at hsound
  have hst : isStatement x = false := by
    rw [isStatement, Bool.eq_false_iff, ne_eq, hasKind_iff, hasKind_iff.mp hid]
    decide
  have hshows := hl.shows_node hx
  have hlocal := hp.localInside hl hm.nodes hx
  refine hs.models.value_ref ((hs.applied hl hshows (hl.body_not_mem hx)).shows hshows (hp.part_of_gone hm.judged) ?_)
  intro m hmem ha
  obtain ⟨n, hn, hr⟩ := hlocal m hmem ha
  cases x with
  | scalar | arr => cases hid
  | obj k fs =>
    simp only [inside, nodes] at hn
    split at hn
    · rw [show nodesFields fs = [] from hsound.2, mem_singleton] at hn
      subst hn
      exact hp.not_affects hm.judged hshows hr hst ha
    · cases hn

/-- The arguments of a statement under guard, as they read now. -/
theorem arguments_value
    (hm : Met c fields met) {m : Mark} {fs : Fields Mark} (hx : obj m fs ∈ met) {drafts : List Draft}
    (hop : c.operands (obj m fs) = some drafts) :
    argumentsOf (expressionOf (obj ()
      (Table.mapValues (fun x => w.value (standIn p.gone p.empty (ref x))) fs))) =
      (argumentsOf (expressionOf (obj m fs))).map fun a => w.value a.ref := by
  obtain ⟨k, cs, hcall, hk⟩ := exists_call hop
  simp only [Tree.fields] at hcall
  have hcmem := call_mem (hm.nodes hx) hcall hk
  have hcalls : Shows c.heap (obj k cs) := hl.shows_node hcmem
  have hcst : isStatement (obj k cs) = false := not_isStatement_of_isCall hk
  have hbody := hl.body_not_mem hcmem
  have hexpr : expressionOf (obj m fs) = obj k cs := by rw [expressionOf, Tree.fields, hcall]; rfl
  have hcell := hs.cell_of hl hp hm.judged hcalls rfl (fun e => hbody (e ▸ mem_marks_of_ref rfl)) hcst
  have hnow : expressionOf (obj () (Table.mapValues (fun x => w.value (standIn p.gone p.empty (ref x))) fs)) =
      obj () (Table.mapValues (fun x => w.value (standIn p.gone p.empty (ref x))) cs) := by
    rw [expressionOf, Tree.fields, Table.get?_mapValues, hcall, Option.map_some, Option.getD_some,
      hp.standIn_eq hm.judged hcalls hcst]
    exact (hs.models.value_cell hcell).trans (by simp only [Cell.prune, Cell.value, Table.mapValues_mapValues])
  rw [hnow, hexpr]
  obtain ⟨hnone, hnil⟩ | ⟨j, args, hargs, heq, harg⟩ := hl.arguments hcmem hk
  · rw [hnil]
    simp only [Tree.fields] at hnone
    simp only [argumentsOf, elementsOf, Tree.get?, Table.get?_mapValues, hnone, Option.map_none, bind, Except.bind,
      map_nil]
  · have hlist : Shows c.heap (arr j args) := hcalls.field hargs
    have hjb : j ≠ body := fun e => hbody
      (marks_child (mem_map_of_mem (Table.mem_of_get? hargs)) (e ▸ mem_marks_of_ref rfl))
    have hlcell := hs.cell_of hl hp hm.judged hlist rfl hjb rfl
    have hkeep : (args.map ref).filter (· ∉ p.gone) = args.map ref := by
      rw [filter_eq_self]
      intro r hr
      obtain ⟨a, ha, rfl⟩ := mem_map.mp hr
      have hst := not_isStatement_of_isArgument (harg a ha)
      refine decide_eq_true fun hg => ?_
      obtain ⟨n, hn⟩ := hp.part_of_gone hm.judged _ hg
      exact hp.not_affects hm.judged (hlist.child ha) hn hst (.inl (hn ▸ hg))
    have hvalue : w.value (.part j) = .arr () (args.map fun a => w.value a.ref) := by
      rw [hs.models.value_cell hlcell, Cell.prune, Cell.value, hkeep, List.map_map]
      rfl
    have hstand := hp.standIn_eq hm.judged hlist rfl
    rw [heq]
    simp only [Tree.fields] at hargs
    simp only [ref] at hstand
    simp only [argumentsOf, elementsOf, Tree.get?, Table.get?_mapValues, hargs, Option.map_some, bind, Except.bind,
      hstand, ref, hvalue, elements]

/-- The operands of a statement under guard, as they read now. -/
theorem operands_value
    (hm : Met c fields met) {m : Mark} {fs : Fields Mark} (hx : obj m fs ∈ met) {drafts : List Draft}
    (hop : c.operands (obj m fs) = some drafts) {v : Verdict}
    (hd : operandDrafts c.options c.start.dialect (expressionOf (obj m fs)) v = some drafts) :
    v.operands c.options c.start.dialect id (argumentsOf (expressionOf (obj ()
      (Table.mapValues (fun x => w.value (standIn p.gone p.empty (ref x))) fs)))) =
      some (drafts.map (resolve fun m => w.value (.part m))) := by
  have hkinds : ∀ a ∈ argumentsOf (expressionOf (obj m fs)),
      isIdentifier (resolve (fun m => w.value (.part m)) a.draft) = isIdentifier a := by
    intro a ha
    obtain ⟨hmem, hnode⟩ := hl.argument_mem (hm.nodes hx) hop ha
    rw [resolve_draft]
    cases a with
    | scalar | arr => cases hnode
    | obj l as =>
      obtain ⟨k, hk⟩ := Option.isSome_iff_exists.mp hnode
      have hb : l ≠ body := fun e => hl.body_not_mem hmem (e ▸ mem_marks_of_ref rfl)
      have hk' := hs.kind?_value hl hp hm.judged (hl.shows_node hmem) hb hk
      rw [Bool.eq_iff_iff, isIdentifier, isIdentifier, hasKind_iff, hasKind_iff, hk]
      exact (congrArg (· = some "Identifier") hk').to_iff
  have hids : ∀ a ∈ argumentsOf (expressionOf (obj m fs)), isIdentifier a = true →
      resolve (fun m => w.value (.part m)) a.draft = a.erase := by
    intro a ha hid
    rw [resolve_draft]
    exact hs.value_identifier hl hp hm (hl.argument_mem (hm.nodes hx) hop ha).1 hid
  have hresolve := resolve_operands (fun m => w.value (.part m)) c.options c.start.dialect hkinds hids v
  rw [operandDrafts] at hd
  rw [hd, Option.map_some] at hresolve
  rw [hs.arguments_value hl hp hm hx hop, hresolve]
  simp only [resolve_draft]

/-- The heap of a module between the phases can be read back. -/
theorem readable (hm : Met c fields met) (hg : Guarding c h guard met p) :
    p.Readable c.heap w (p.finish (c.rewriting guard).finish) := by
  refine ⟨hp.part_of_gone hm.judged, fun m fs hfs r hr hgone => ?_, fun m fs _ hnew xs => ?_,
    fun m fs e hx hnew hv => ?_⟩
  · rw [hs.models.value_reflects (hs.empties m fs hfs r hr hgone), Node.emptyStatement, resolve_make]
    rfl
  · simp [Patch.finish, mark?, hnew]
  · obtain ⟨x, hxmet, drafts, hr, hop, hguarded⟩ := hg m e hnew
    obtain rfl : x = obj m fs := (hm.judged x hxmet).shows.unique hx hr
    obtain ⟨v, hver, hdrafts⟩ := Scan.exists_verdict hop
    have hops := hs.operands_value hl hp hm hxmet hop hdrafts
    rw [hv] at hops
    rw [hguarded.value hs.models]
    simp only [Patch.finish, mark?, Option.bind_some, hnew, Option.isSome_some, if_true]
    rw [Rewriting.finish]
    simp only [(hm.judged _ hxmet).statement, if_true, Scan.rewriting, hver]
    rw [show (⟨c.options, c.helpers, c.start.dialect, guard⟩ : Rewriting) = c.rewriting guard from rfl, hops]

theorem value_node (hm : Met c fields met) (hg : Guarding c h guard met p) (hx : x ∈ nodesFields fields) :
    w.value x.ref = reshape p.drops (p.finish (c.rewriting guard).finish) x := by
  have hshows := hl.shows_node hx
  have hlocal := hp.localInside hl hm.nodes hx
  have hvalue := (Patch.value_reshape hs.models (hs.readable hl hp hm hg) hshows (hl.distinct_node hx)
    (hs.applied hl hshows (hl.body_not_mem hx))).1
  obtain ⟨e, _, _, hin⟩ := mem_nodesFields hx
  obtain ⟨m, fs, rfl, _⟩ := exists_of_mem_inside hin
  exact hvalue hlocal

end

end Stage

end Expansion

end DebugGuards
