import DebugGuards.Proofs.Expansion.Rewrite
import DebugGuards.Proofs.Expansion.Work
import DebugGuards.Proofs.Workspace.Surgery

/-! Dispatching one statement. The verdict on the statement says what happens: it fails
without a change to the workspace, passes, removes the statement, or registers it with
operands that reflect those of the verdict. -/

namespace DebugGuards

open DebugGuards.Tree

section Grounds
variable {h : Heap}

theorem Grounded.scalar (s : Scalar) : Grounded h (.scalar s) := .made _ nofun (by simp)

theorem Grounded.listOf {items : List Draft} (hi : ∀ d ∈ items, Grounded h d) : Grounded h (Node.listOf items) :=
  .made _ (by rintro m ⟨⟩) hi

theorem Grounded.make (kind : String) {fields : List (String × Draft)} (hf : ∀ e ∈ fields, Grounded h e.2) :
    Grounded h (Node.make kind fields) := by
  refine .made _ (by rintro m ⟨⟩) fun c hc => ?_
  simp only [Node.make, children, List.map_cons, List.mem_cons, List.mem_map] at hc
  rcases hc with rfl | ⟨e, he, rfl⟩
  · exact .scalar _
  · exact hf e he

theorem Grounded.identifier {d : Draft} (hd : Grounded h d) : Grounded h (Node.identifier d) :=
  .make _ (by simpa using hd)

theorem Grounded.member {a b : Draft} (ha : Grounded h a) (hb : Grounded h b) : Grounded h (Node.member a b) :=
  .make _ (by simpa using ⟨ha, hb, .scalar _⟩)

theorem Grounded.call {callee : Draft} {args : List Draft} (hc : Grounded h callee)
    (ha : ∀ d ∈ args, Grounded h d) : Grounded h (Node.call callee args) :=
  .make _ (by simpa using ⟨hc, .listOf ha, .scalar _⟩)

/-- A draft all of whose parts are new. -/
theorem Grounded.copy {α : Type} (t : Tree α) : Grounded h t.copy := by
  induction t using induct with
  | scalar s => exact .scalar s
  | arr m items ih =>
    rw [Tree.copy, map, mapItems_eq_map]
    refine .made _ (by rintro m ⟨⟩) fun c hc => ?_
    obtain ⟨t, ht, rfl⟩ := List.mem_map.mp hc
    exact ih t ht
  | obj m fields ih =>
    rw [Tree.copy, map, mapFields_eq_mapValues]
    refine .made _ (by rintro m ⟨⟩) fun c hc => ?_
    simp only [Table.mapValues, children, List.map_map, List.mem_map] at hc
    obtain ⟨e, he, rfl⟩ := hc
    exact ih e he

end Grounds

namespace Shows

variable {h : Heap} {t x : Tree Mark} {xs : List (Tree Mark)} {key : String}

theorem field (ht : Shows h t) (hx : Table.get? t.fields key = some x) : Shows h x := by
  cases t with
  | scalar | arr => cases hx
  | obj m fields => exact ht.child (List.mem_map_of_mem (Table.mem_of_get? hx))

theorem elements (ht : Shows h t) (hx : t.elements = .ok xs) : ∀ x ∈ xs, Shows h x := by
  intro x hm
  cases t with
  | arr m items => cases hx; exact ht.child hm
  | obj m fields =>
    cases hx
    obtain ⟨e, _, rfl⟩ := List.mem_map.mp hm
    exact .scalar h _
  | scalar s =>
    cases s with
    | str s =>
      cases hx
      obtain ⟨e, _, rfl⟩ := List.mem_map.mp hm
      exact .scalar h _
    | null | bool | int | float => cases hx

theorem elementsOf (ht : Shows h t) (hx : t.elementsOf key = .ok xs) : ∀ x ∈ xs, Shows h x := by
  cases t with
  | scalar | arr => cases hx
  | obj m fields =>
    simp only [Tree.elementsOf, Tree.get?, bind, Except.bind] at hx
    cases hg : Table.get? fields key with
    | none => rw [hg] at hx; cases hx; simp
    | some v => rw [hg] at hx; exact (ht.field hg).elements hx

theorem expressionOf (ht : Shows h t) : Shows h (Expansion.expressionOf t) := by
  rw [Expansion.expressionOf]
  cases hg : Table.get? t.fields "expression" with
  | none => exact .scalar h .null
  | some x => exact ht.field hg

theorem argumentsOf (ht : Shows h t) : ∀ x ∈ Expansion.argumentsOf t, Shows h x := by
  rw [Expansion.argumentsOf]
  split
  · next hx => exact ht.elementsOf hx
  · exact fun x hx => absurd hx List.not_mem_nil

end Shows

namespace Expansion

variable {o : Options} {s : State} {h : Heap} {site : PathId} {call : Tree Mark}

/-- The references stand for the settled drafts. -/
def Prepared (h : Heap) (k : ℕ) (drafts : List Draft) (refs : List Ref) : Prop :=
  drafts.length = refs.length ∧ ∀ p ∈ drafts.zip refs, Reflects h k p.1 p.2

theorem Prepared.mono {h' : Heap} {k k' : ℕ} {drafts : List Draft} {refs : List Ref} (hp : Prepared h k drafts refs)
    (hk : k' ≤ k) (hh : ∀ (m : ℕ) c, k ≤ m → h m = some c → h' m = some c) : Prepared h' k' drafts refs :=
  ⟨hp.1, fun p hm => (hp.2 p hm).mono hk hh⟩

theorem Prepared.append {k : ℕ} {as bs : List Draft} {rs qs : List Ref} (ha : Prepared h k as rs)
    (hb : Prepared h k bs qs) : Prepared h k (as ++ bs) (rs ++ qs) := by
  refine ⟨by simp [ha.1, hb.1], fun p hp => ?_⟩
  rw [List.zip_append ha.1, List.mem_append] at hp
  exact hp.elim (ha.2 p) (hb.2 p)

theorem Prepared.single {k : ℕ} {d : Draft} {r : Ref} (hr : Reflects h k d r) : Prepared h k [d] [r] :=
  ⟨rfl, by simpa using hr⟩

theorem helperCall_name {α : Type} [Inhabited α] (o : Options) (d : Diagnostic) (args : List (Tree α)) :
    helperCall o d.name args = .ok (Node.call (d.calleeNode o.target) args) := by
  unfold helperCall callee Diagnostic.calleeNode
  cases o.target <;> cases d <;> rfl

theorem calleeNode_grounded (t : Target) (d : Diagnostic) : Grounded h (d.calleeNode t) := by
  cases t with
  | global name => exact .member (.identifier (.scalar _)) (.identifier (.scalar _))
  | external => exact .identifier (.scalar _)
  | console => cases d <;> exact .member (.identifier (.scalar _)) (.identifier (.scalar _))

theorem literal_grounded (dialect : Dialect) (text : String) : Grounded h (dialect.literal (.str text)) := by
  cases dialect with
  | uniform => exact .make _ (by simpa using ⟨.scalar _, .scalar _⟩)
  | kinded =>
    refine .make _ ?_
    simp only [List.forall_mem_cons, List.not_mem_nil, false_imp_iff, implies_true, and_true]
    refine ⟨.scalar _, .made _ (by rintro m ⟨⟩) ?_⟩
    simpa using ⟨.scalar _, .scalar _⟩

/-- Calls are made and kept at hand. -/
theorem result_terminal (hw : Models s.workspace h) (d : Diagnostic) {args : List Draft}
    (ha : ∀ a ∈ args, Grounded h a) :
    ∃ w' h' r, (terminal o d.name args).result s = (.ok r, { s with workspace := w' }) ∧
      Enlarges s.workspace h w' h' ∧
      Reflects h' s.workspace.fresh (Node.call (d.calleeNode o.target) args) r ∧
      h.Charges s.workspace.fresh (Node.call (d.calleeNode o.target) args).olds h' w'.fresh [r] := by
  obtain ⟨h', h1, h2, h3⟩ := hw.hold (Grounded.call (calleeNode_grounded o.target d) ha)
  refine ⟨_, h', _, ?_, h1, h2, h3⟩
  rw [terminal, helperCall_name]
  rfl

/-- Several drafts are kept at hand, one after the other. -/
theorem result_holdAll (as : List (Tree Mark)) (hw : Models s.workspace h) :
    ∃ w' h' refs, (as.mapM fun a => Work.make fun w => w.hold a.copy).result s =
        (.ok refs, { s with workspace := w' }) ∧
      Enlarges s.workspace h w' h' ∧ Prepared h' s.workspace.fresh (as.map Tree.copy) refs ∧
      h.Charges s.workspace.fresh ((as.map Tree.copy).flatMap olds) h' w'.fresh refs := by
  induction as generalizing s h with
  | nil => exact ⟨_, h, [], rfl, .refl hw, ⟨rfl, by simp⟩, .refl h _⟩
  | cons a as ih =>
    obtain ⟨h1, e1, r1, c1⟩ := hw.hold (Grounded.copy a)
    obtain ⟨w2, h2, refs, run2, e2, p2, c2⟩ := ih (s := { s with workspace := (s.workspace.hold a.copy).2 }) e1.models
    refine ⟨w2, h2, (s.workspace.hold a.copy).1 :: refs, ?_, e1.trans e2, ?_, c1.trans c2 e1.grows.le e2.grows.le⟩
    · rw [List.mapM_cons, result_bind_ok (result_make ..), result_bind_ok run2]
      rfl
    · refine Prepared.append (.single (r1.mono (Nat.le_refl _) fun m c _ hc => e2.grows.cell e1.models.below hc)) ?_
      exact p2.mono e1.grows.le fun m c _ hc => hc

theorem result_register (hf : s.finalized = false) (site : PathId) (refs : List Ref) :
    (register site refs).result s = (.ok (), { s with pending := s.pending ++ [⟨site, refs⟩] }) := by
  rw [register, result_get_bind]
  simp only [hf, Bool.false_eq_true, if_false, result_modify]

theorem result_dispatch {st : Tree Mark} (hn : s.workspace.node site = st) :
    (dispatch o site).result s =
      match calledHelper s.helpers st with
      | .error f => (.error f, s)
      | .ok none => (.ok false, s)
      | .ok (some (name, helper)) =>
        Work.result (match Diagnostic.ofName? helper.imported with
          | some d => do
            d.expand o site (expressionOf st)
            return true
          | none => do
            if o.strict then throw (.unknownHelper helper.imported.text o.toolsSource)
            Work.record .warning
              ("Skipping call to '" ++ name.text ++ "': no debug macro named '" ++ helper.imported.text ++ "'")
            return false) s := by
  rw [dispatch, result_bind_ok (result_node site s), hn]
  cases hg : st.get "expression" with
  | error f => rw [calledHelper, hg]; rfl
  | ok call =>
    have he : expressionOf st = call := by
      cases st with
      | scalar | arr => cases hg
      | obj m fields => cases hg; rfl
    rw [result_bind_ok (result_ofExcept _ s), he]
    cases hc : Node.calleeName call with
    | error f => simp only [calledHelper, hg, hc, bind, Except.bind]; rfl
    | ok name =>
      rw [result_bind_ok (result_ofExcept _ s)]
      by_cases hnull : name = .null
      · subst hnull
        simp only [calledHelper, hg, hc, bind, Except.bind]
        rfl
      · have hcalled : calledHelper s.helpers st =
            name.asKey.map fun key => (Table.get? s.helpers key).map fun helper => (name, helper) := by
          simp only [calledHelper, hg, hc, bind, Except.bind]
          cases name.asKey <;> rfl
        rw [hcalled]
        split
        · contradiction
        · cases hk : name.asKey with
          | error f => exact result_bind_error (result_ofExcept _ s)
          | ok key =>
            rw [result_bind_ok (result_ofExcept _ s), result_get_bind]
            simp only [Except.map]
            cases Table.get? s.helpers key <;> rfl

theorem result_reached (o : Options) (d : Deprecation) (s : State) :
    ∃ log, (reached o d).result s = (isReached o d, { s with log := log }) := by
  rw [reached, isReached]
  cases o.packageVersion with
  | none => exact ⟨s.log, rfl⟩
  | some version =>
    by_cases hv : version = ""
    · simp only [hv, if_true]; exact ⟨s.log, rfl⟩
    · simp only [hv, if_false, expired]
      cases Version.satisfies version d.till with
      | ok b => exact ⟨s.log, rfl⟩
      | error e =>
        cases e with
        | malformedBound => exact ⟨s.log, rfl⟩
        | unreadable => exact ⟨_, rfl⟩

/-- The second state has one more site pending, with operands that stand for the drafts. -/
structure Registers (site : PathId) (drafts : List Draft) (s : State) (h : Heap) (s' : State) (h' : Heap) :
    Prop where
  state : ∃ w refs log, s' = { s with workspace := w, pending := s.pending ++ [⟨site, refs⟩], log := log } ∧
    Prepared h' s.workspace.fresh drafts refs ∧ h.Charges s.workspace.fresh (drafts.flatMap olds) h' w.fresh refs
  enlarges : Enlarges s.workspace h s'.workspace h'

/-- The drafts of the operands of a verdict. -/
def operandDrafts (o : Options) (dialect : Dialect) (call : Tree Mark) (v : Verdict) : Option (List Draft) :=
  v.operands o dialect Tree.copy ((argumentsOf call).map Tree.draft)

theorem copy_draft (t : Tree Mark) : t.draft.copy = t.copy := by
  rw [Tree.copy, draft, map_map]; rfl

theorem identifiers_draft (args : List (Tree Mark)) :
    ((args.map draft).filter Node.isIdentifier).map Tree.copy = (args.filter Node.isIdentifier).map Tree.copy := by
  rw [List.filter_map, List.map_map]
  have : (Node.isIdentifier ∘ draft) = (Node.isIdentifier : Tree Mark → Bool) := 
    funext fun t => Node.isIdentifier_map some t
  rw [this]
  exact List.map_congr_left fun t _ => copy_draft t

theorem drafts_grounded {args : List (Tree Mark)} (ha : ∀ a ∈ args, Shows h a) :
    ∀ d ∈ args.map draft, Grounded h d := by
  intro d hd
  obtain ⟨t, ht, rfl⟩ := List.mem_map.mp hd
  exact .shown t (ha t ht)

section Builders
variable {args : List (Tree Mark)}

section

variable (hw : Models s.workspace h) (hf : s.finalized = false) (hc : Shows h call)
  (ha : call.elementsOf "arguments" = .ok args)
include hw hf hc ha

theorem result_expandAssert :
    ∃ s' h' drafts, (expandAssert o site call).result s = (.ok (), s') ∧
      operandDrafts o s.workspace.dialect call .asserted = some drafts ∧ Registers site drafts s h s' h' := by
  obtain ⟨w1, h1, r, run1, e1, r1, c1⟩ := result_terminal (o := o) hw .assertion (drafts_grounded (hc.elementsOf ha))
  obtain ⟨w2, h2, refs, run2, e2, p2, c2⟩ := result_holdAll (args.filter Node.isIdentifier)
    (s := { s with workspace := w1 }) e1.models
  have run : (expandAssert o site call).result s =
      (.ok (), { s with workspace := w2, pending := s.pending ++ [⟨site, refs ++ [r]⟩] }) := by
    rw [expandAssert, ha, result_bind_ok (result_ofExcept _ s)]
    simp only [Diagnostic.name] at run1
    rw [result_bind_ok run1, result_bind_ok run2]
    exact result_register (by exact hf) site _
  refine ⟨_, h2, _, run, rfl, ⟨_, _, _, rfl, ?_⟩, e1.trans e2⟩
  rw [argumentsOf, ha, identifiers_draft]
  refine ⟨.append (p2.mono e1.grows.le fun m c _ hc => hc) (.single (r1.mono (Nat.le_refl _) ?_)), ?_⟩
  · exact fun m c _ hc => e2.grows.cell e1.models.below hc
  · rw [List.flatMap_append, List.flatMap_singleton]
    exact (c1.trans c2 e1.grows.le e2.grows.le).perm List.perm_append_comm List.perm_append_comm

theorem result_expandWarn :
    ∃ s' h' drafts, (expandWarn o site call).result s = (.ok (), s') ∧
      operandDrafts o s.workspace.dialect call .warned = some drafts ∧ Registers site drafts s h s' h' := by
  obtain ⟨w1, h1, r, run1, e1, r1, c1⟩ := result_terminal (o := o) hw .warning (drafts_grounded (hc.elementsOf ha))
  have run : (expandWarn o site call).result s =
      (.ok (), { s with workspace := w1, pending := s.pending ++ [⟨site, [r]⟩] }) := by
    rw [expandWarn, ha, result_bind_ok (result_ofExcept _ s)]
    simp only [Diagnostic.name] at run1
    rw [result_bind_ok run1]
    exact result_register (by exact hf) site _
  refine ⟨_, h1, _, run, rfl, ⟨_, _, _, rfl, ?_⟩, e1⟩
  rw [argumentsOf, ha]
  refine ⟨.single r1, ?_⟩
  rw [List.flatMap_singleton]
  exact c1

end

theorem Reflects_draft (k : ℕ) (t : Tree Mark) : Reflects h k t.draft t.ref := by
  cases t with
  | scalar s => exact .scalar s
  | arr m items => exact .old _ m (by rw [draft_arr]; rfl)
  | obj m fields => exact .old _ m (by rw [draft_obj]; rfl)

/-- The predicate of a deprecation is its second argument. -/
theorem readDeprecation_arguments {predicate message : Tree Mark} {d : Deprecation}
    (hr : readDeprecation call = .ok (predicate, d, message)) :
    ∃ args, call.elementsOf "arguments" = .ok args ∧ args[1]? = some predicate := by
  rw [readDeprecation] at hr
  cases ha : call.elementsOf "arguments" with
  | error f => rw [ha] at hr; cases hr
  | ok args =>
    refine ⟨args, rfl, ?_⟩
    rw [ha] at hr
    simp only [bind, Except.bind] at hr
    split at hr
    · cases hr
    · split at hr
      · repeat' split at hr
        all_goals cases hr <;> rfl
      · cases hr

theorem result_expandDeprecate_error {f : Failure} (hv : Diagnostic.deprecation.verdict o call = .error f) :
    ∃ log, (expandDeprecate o site call).result s = (.error f, { s with log := log }) := by
  rw [deprecation_verdict] at hv
  rw [expandDeprecate]
  cases hr : readDeprecation call with
  | error e =>
    rw [hr] at hv; cases hv
    exact ⟨s.log, result_bind_error (result_ofExcept _ s)⟩
  | ok r =>
    obtain ⟨p, d, m⟩ := r
    obtain ⟨log, hl⟩ := result_reached o d s
    rw [result_bind_ok (result_ofExcept _ s)]
    cases hi : isReached o d with
    | error e =>
      rw [hr] at hv
      simp only [hi, Except.map] at hv
      cases hv
      exact ⟨log, result_bind_error (by rw [hl, hi])⟩
    | ok b => rw [hr] at hv; simp [hi, Except.map] at hv

theorem result_expandDeprecate_expired {w : Workspace} (hv : Diagnostic.deprecation.verdict o call = .ok .expired)
    (hw : s.workspace.remove site = .ok w) :
    ∃ log, (expandDeprecate o site call).result s = (.ok (), { s with workspace := w, log := log }) := by
  obtain ⟨p, d, m, hr, ⟨hi, _⟩ | ⟨_, h⟩⟩ := deprecation_verdict_ok hv
  · obtain ⟨log, hl⟩ := result_reached o d s
    rw [expandDeprecate, hr, result_bind_ok (result_ofExcept _ s),
      result_bind_ok (hl.trans (by rw [hi]))]
    simp only [if_true]
    rw [result_bind_ok (result_record ..), result_act_ok (w := w) hw]
    exact ⟨_, rfl⟩
  · cases h

theorem result_expandDeprecate (hw : Models s.workspace h) (hf : s.finalized = false)
    {text : String} (hv : Diagnostic.deprecation.verdict o call = .ok (.deprecated text)) :
    ∃ s' h' drafts, (expandDeprecate o site call).result s = (.ok (), s') ∧
      operandDrafts o s.workspace.dialect call (.deprecated text) = some drafts ∧
      Registers site drafts s h s' h' := by
  obtain ⟨p, d, m, hr, ⟨_, h⟩ | ⟨hi, ht⟩⟩ := deprecation_verdict_ok hv
  · cases h
  cases ht
  obtain ⟨args, ha, hp⟩ := readDeprecation_arguments hr
  obtain ⟨log, hl⟩ := result_reached o d s
  obtain ⟨w1, h1, r, run1, e1, r1, c1⟩ := result_terminal (o := o) (s := { s with log := log }) hw .deprecation
    (show ∀ a ∈ [s.workspace.dialect.literal (.str (d.describe m.text))], Grounded _ a by
      simpa using literal_grounded s.workspace.dialect _)
  have run : (expandDeprecate o site call).result s =
      (.ok (), { s with workspace := w1, pending := s.pending ++ [⟨site, [p.ref, r]⟩], log := log }) := by
    simp only [Diagnostic.name] at run1
    rw [expandDeprecate, hr, result_bind_ok (result_ofExcept _ s),
      result_bind_ok (hl.trans (by rw [hi]))]
    simp only [Bool.false_eq_true, if_false]
    rw [result_look_bind (a := s.workspace.dialect) rfl, result_bind_ok run1]
    exact result_register (by exact hf) site _
  refine ⟨_, h1, _, run, rfl, ⟨_, _, _, rfl, ?_⟩, e1⟩
  have hd : ((args.map draft)[1]?).getD .null = p.draft := by rw [List.getElem?_map, hp]; rfl
  rw [argumentsOf, ha]
  simp only [hd]
  refine ⟨.append (.single (Reflects_draft _ p)) (.single r1), fun n => ?_⟩
  have hc := c1 n
  rw [List.flatMap_cons, List.flatMap_singleton, List.count_append, count_olds_draft, List.count_cons]
  simp only [List.count_singleton] at hc ⊢
  omega

end Builders

section Verdicts
variable {st : Tree Mark}

theorem result_dispatch_error (hn : s.workspace.node site = st) {f : Failure}
    (hv : verdict o s.helpers st = .error f) :
    ∃ log, (dispatch o site).result s = (.error f, { s with log := log }) := by
  rw [result_dispatch hn]
  obtain hc | ⟨name, helper, hc, ⟨hd, hs, rfl⟩ | ⟨d, hd, hv⟩⟩ := verdict_error hv
  · rw [hc]; exact ⟨s.log, rfl⟩
  · rw [hc]; simp only [hd, hs]; exact ⟨s.log, rfl⟩
  · rw [hc]
    simp only [hd]
    have hx : ∃ log, (d.expand o site (expressionOf st)).result s = (.error f, { s with log := log }) := by
      cases d with
      | deprecation => exact result_expandDeprecate_error hv
      | assertion | warning =>
        simp only [Diagnostic.verdict, bind, Except.bind] at hv
        split at hv
        · next ha =>
          cases hv
          refine ⟨s.log, ?_⟩
          simp only [Diagnostic.expand, expandAssert, expandWarn, ha]
          exact result_bind_error (result_ofExcept _ s)
        · cases hv
    obtain ⟨log, hx⟩ := hx
    exact ⟨log, result_bind_error hx⟩

theorem result_dispatch_untouched (hn : s.workspace.node site = st)
    (hv : verdict o s.helpers st = .ok .untouched) :
    ∃ log, (dispatch o site).result s = (.ok false, { s with log := log }) := by
  rw [result_dispatch hn]
  obtain ⟨_, hc | ⟨name, helper, hc, hd, hs⟩⟩ | ⟨name, helper, d, hc, hd, hv⟩ := verdict_ok hv
  · rw [hc]; exact ⟨s.log, rfl⟩
  · rw [hc]; simp only [hd, hs]; exact ⟨_, rfl⟩
  · obtain ⟨_, h, _⟩ | ⟨_, h, _⟩ | ⟨_, h | ⟨_, h⟩⟩ := Diagnostic.verdict_ok hv <;> cases h

theorem result_dispatch_expired (hn : s.workspace.node site = st) {w : Workspace}
    (hv : verdict o s.helpers st = .ok .expired) (hw : s.workspace.remove site = .ok w) :
    ∃ log, (dispatch o site).result s = (.ok true, { s with workspace := w, log := log }) := by
  rw [result_dispatch hn]
  obtain ⟨h, _⟩ | ⟨name, helper, d, hc, hd, hv⟩ := verdict_ok hv
  · cases h
  rw [hc]
  simp only [hd]
  obtain ⟨_, h, _⟩ | ⟨_, h, _⟩ | ⟨rfl, _⟩ := Diagnostic.verdict_ok hv
  · cases h
  · cases h
  · obtain ⟨log, hx⟩ : ∃ log, (expandDeprecate o site (expressionOf st)).result s =
        (.ok (), { s with workspace := w, log := log }) := result_expandDeprecate_expired hv hw
    exact ⟨log, result_bind_ok hx⟩

theorem result_dispatch_guarded (hw : Models s.workspace h) (hf : s.finalized = false)
    (hn : s.workspace.node site = st) (hst : Shows h st) {v : Verdict} (hv : verdict o s.helpers st = .ok v)
    (hu : v ≠ .untouched) (hx : v ≠ .expired) :
    ∃ s' h' drafts, (dispatch o site).result s = (.ok true, s') ∧
      operandDrafts o s.workspace.dialect (expressionOf st) v = some drafts ∧
      Registers site drafts s h s' h' := by
  have hcall : Shows h (expressionOf st) := hst.expressionOf
  rw [result_dispatch hn]
  obtain ⟨h, _⟩ | ⟨name, helper, d, hc, hd, hv⟩ := verdict_ok hv
  · exact absurd h hu
  rw [hc]
  simp only [hd]
  have hb : ∃ s' h' drafts, (d.expand o site (expressionOf st)).result s = (.ok (), s') ∧
      operandDrafts o s.workspace.dialect (expressionOf st) v = some drafts ∧
      Registers site drafts s h s' h' := by
    obtain ⟨rfl, rfl, args, ha⟩ | ⟨rfl, rfl, args, ha⟩ | ⟨rfl, h | ⟨text, rfl⟩⟩ := Diagnostic.verdict_ok hv
    · exact result_expandAssert hw hf hcall ha
    · exact result_expandWarn hw hf hcall ha
    · exact absurd h hx
    · exact result_expandDeprecate hw hf hv
  obtain ⟨s', h', drafts, run, hd, hr⟩ := hb
  exact ⟨s', h', drafts, result_bind_ok run, hd, hr⟩

end Verdicts

end Expansion

section Olds

open Expansion

theorem Tree.olds_listOf (items : List Draft) : (Node.listOf items).olds = items.flatMap olds := olds_new rfl

theorem Tree.olds_make (kind : String) (fields : List (String × Draft)) :
    (Node.make kind fields).olds = (fields.map Prod.snd).flatMap olds := by
  rw [olds_new rfl]
  simp [Node.make, olds]

theorem Tree.olds_copy {α : Type} (t : Tree α) : t.copy.olds = [] := by
  induction t using induct with
  | scalar s => exact olds_scalar s
  | arr m items ih =>
    rw [Tree.copy, map_arr, olds_new rfl, List.flatMap_eq_nil_iff]
    intro d hd
    obtain ⟨t, ht, rfl⟩ := List.mem_map.mp hd
    exact ih t ht
  | obj m fields ih =>
    rw [Tree.copy, map_obj, olds_new rfl, List.flatMap_eq_nil_iff]
    intro d hd
    simp only [Table.mapValues, children, List.map_map, List.mem_map] at hd
    obtain ⟨e, he, rfl⟩ := hd
    exact ih e he

theorem Node.olds_emptyStatement : (Node.emptyStatement : Draft).olds = [] := by
  simp [Node.emptyStatement, olds_make]

theorem Tree.mem_olds_draft {t : Tree Mark} {l : Mark} (hl : l ∈ t.draft.olds) : t.ref = .part l := by
  cases t with
  | scalar s => simp [draft] at hl
  | arr m items =>
    rw [draft_arr, olds_old rfl, List.mem_singleton] at hl
    rw [hl]; rfl
  | obj m fields =>
    rw [draft_obj, olds_old rfl, List.mem_singleton] at hl
    rw [hl]; rfl

theorem Expansion.olds_calleeNode (t : Target) (d : Diagnostic) : (d.calleeNode t : Draft).olds = [] := by
  cases t <;> simp [Diagnostic.calleeNode, Node.member, Node.identifier, olds_make]

theorem Expansion.olds_literal (dialect : Dialect) (text : String) :
    (dialect.literal (.str text) : Draft).olds = [] := by
  cases dialect with
  | uniform => simp [Dialect.literal, Node.literal, olds_make]
  | kinded =>
    have hextra : ∀ fs : List (String × Draft), (obj default fs : Draft).olds = (fs.map Prod.snd).flatMap olds :=
      fun _ => olds_new rfl
    simp [Dialect.literal, Node.kindedLiteral, olds_make, hextra]

theorem Expansion.olds_call (t : Target) (d : Diagnostic) (args : List Draft) :
    (Node.call (d.calleeNode t) args).olds = args.flatMap olds := by
  simp [Node.call, olds_make, olds_calleeNode, olds_listOf]

theorem Expansion.olds_operands_sublist {o : Options} {dialect : Dialect} {call : Tree Mark} {v : Verdict}
    {drafts : List Draft} (hop : operandDrafts o dialect call v = some drafts) :
    (drafts.flatMap olds).Sublist (((argumentsOf call).map draft).flatMap olds) := by
  cases v with
  | untouched | expired => cases hop
  | asserted =>
    cases hop
    have hcopies : ((((argumentsOf call).map draft).filter Node.isIdentifier).map Tree.copy).flatMap olds = [] := by
      rw [List.flatMap_eq_nil_iff]
      intro d hd
      obtain ⟨a, _, rfl⟩ := List.mem_map.mp hd
      exact olds_copy a
    rw [List.flatMap_append, hcopies, List.nil_append, List.flatMap_singleton, olds_call]
  | warned =>
    cases hop
    rw [List.flatMap_singleton, olds_call]
  | deprecated text =>
    cases hop
    rw [List.flatMap_cons, List.flatMap_singleton, olds_call, List.flatMap_singleton, olds_literal, List.append_nil]
    cases ha : ((argumentsOf call).map draft)[1]? with
    | none => exact List.nil_sublist _
    | some a => exact List.sublist_flatten_of_mem (List.mem_map_of_mem (List.mem_of_getElem? ha))

theorem Expansion.mem_olds_operands {o : Options} {dialect : Dialect} {call : Tree Mark} {v : Verdict}
    {drafts : List Draft} (hop : operandDrafts o dialect call v = some drafts) {d : Draft} (hd : d ∈ drafts)
    {l : Mark} (hl : l ∈ d.olds) : ∃ a ∈ argumentsOf call, a.ref = .part l := by
  have hmem := (olds_operands_sublist hop).subset (List.mem_flatMap.mpr ⟨d, hd, hl⟩)
  obtain ⟨_, hm, hl⟩ := List.mem_flatMap.mp hmem
  obtain ⟨a, ha, rfl⟩ := List.mem_map.mp hm
  exact ⟨a, ha, mem_olds_draft hl⟩

end Olds

end DebugGuards
