import DebugGuards.Proofs.Expansion.Scoping

/-! What the counters of an expansion count. A statement that went under guard is known in
the result by its shape: a chain in parentheses with the guard in front. As many of these
are there as were put under guard, if and only if all that lay inside the calls lay inside
arguments that their chains take over; a deprecation takes its predicate over and nothing
else. -/

namespace DebugGuards

open DebugGuards.Tree Node Expansion List

section Sums

/-- A number is at most another, and they are the same under just one condition. -/
def Fits (n k : ℕ) (Q : Prop) : Prop := n ≤ k ∧ (n = k ↔ Q)

variable {n k n' k' : ℕ} {Q Q' : Prop}

theorem Fits.add (h : Fits n k Q) (h' : Fits n' k' Q') : Fits (n + n') (k + k') (Q ∧ Q') := by
  refine ⟨Nat.add_le_add h.1 h'.1, ?_⟩
  rw [← h.2, ← h'.2]
  have := h.1
  have := h'.1
  omega

theorem Fits.congr (h : Fits n k Q) (hq : Q ↔ Q') : Fits n k Q' := ⟨h.1, h.2.trans hq⟩

/-- Sums against the length of lists put together. -/
theorem Fits.flatMap {ι σ : Type} {l : List ι} {a : ι → ℕ} {f : ι → List σ} {K : σ → Prop}
    (h : ∀ i ∈ l, Fits (a i) (f i).length (∀ y ∈ f i, K y)) :
    Fits (l.map a).sum (l.flatMap f).length (∀ y ∈ l.flatMap f, K y) := by
  induction l with
  | nil => exact ⟨Nat.le_refl _, by simp⟩
  | cons i l ih =>
    rw [forall_mem_cons] at h
    rw [map_cons, sum_cons, flatMap_cons, length_append]
    exact (h.1.add (ih h.2)).congr forall_mem_append.symm

end Sums

namespace Node

section Shape

variable {α β : Type}

def isConjunction (t : Tree α) : Bool := hasKind t "LogicalExpression" && textAt t "operator" == "&&"

mutual
/-- The name that a chain of conjunctions starts with. -/
def headOf : Tree α → Option String
  | .obj m fields =>
    if isConjunction (.obj m fields) then headOfFields fields
    else if isIdentifier (.obj m fields) then some (textAt (.obj m fields) "name")
    else none
  | _ => none
def headOfFields : List (String × Tree α) → Option String
  | [] => none
  | (key, t) :: rest => if key = "left" then headOf t else headOfFields rest
end

theorem headOfFields_eq (fields : Fields α) :
    headOfFields fields = (Table.get? fields "left").bind headOf := by
  induction fields with
  | nil => rfl
  | cons e rest ih =>
    obtain ⟨key, t⟩ := e
    rw [headOfFields, Table.get?]
    split
    · rfl
    · exact ih

/-- The guard of an expression: what starts a conjunction in parentheses. -/
def guardOf? (e : Tree α) : Option String :=
  if hasKind e "ParenthesizedExpression" then ((field? e "expression").filter isConjunction).bind headOf else none

/-- An expression statement under a guard. -/
def isGuardedBy (guard : String) (t : Tree α) : Bool := isStatement t && guardOf? (expressionOf t) == some guard

namespace Alike

variable {t : Tree α} {u : Tree β}

theorem isConjunction_eq (h : Alike t u) : isConjunction u = isConjunction t := by
  cases hs : isStatement t with
  | true =>
    have hu : hasKind u "LogicalExpression" = false := hasKind_of_isPlain (h.isPlain_right hs) (by decide) (by decide)
    have ht : hasKind t "LogicalExpression" = false :=
      hasKind_of_isPlain (isPlain_of_isStatement hs) (by decide) (by decide)
    rw [isConjunction, isConjunction, hu, ht, Bool.false_and, Bool.false_and]
  | false => rw [isConjunction, isConjunction, h.hasKind_eq hs, h.textAt_eq hs]

theorem headOf_eq (h : Alike t u) : headOf u = headOf t := by
  induction t using induct generalizing u with
  | scalar s => rw [h.scalar_left]; rfl
  | arr m items => cases h with
    | arr => rfl
    | statement _ _ ht => cases ht
  | obj m fields ih =>
    cases hs : isStatement (.obj m fields) with
    | true =>
      have hnone : ∀ {γ : Type} {v : Tree γ}, isPlain v = true → headOf v = none := by
        intro γ v hv
        cases v with
        | scalar | arr => rfl
        | obj k fs =>
          rw [headOf, isConjunction, hasKind_of_isPlain hv (by decide) (by decide), isIdentifier,
            hasKind_of_isPlain hv (by decide) (by decide)]
          rfl
      rw [hnone (h.isPlain_right hs), hnone (isPlain_of_isStatement hs)]
    | false =>
      obtain ⟨k, fs, rfl⟩ : ∃ k fs, u = .obj k fs := by
        cases h with
        | obj => exact ⟨_, _, rfl⟩
        | statement _ _ ht => rw [hs] at ht; cases ht
      have hid : isIdentifier (Tree.obj k fs) = isIdentifier (Tree.obj m fields) := h.hasKind_eq hs _
      have hleft : headOfFields fs = headOfFields fields := by
        rw [headOfFields_eq, headOfFields_eq]
        obtain ⟨ht, hu⟩ | ⟨x, y, ht, hu, hxy⟩ := h.field hs "left"
        · rw [show Table.get? fields "left" = none from ht, show Table.get? fs "left" = none from hu]
          rfl
        · rw [show Table.get? fields "left" = some x from ht, show Table.get? fs "left" = some y from hu]
          exact ih _ (Table.mem_of_get? ht) hxy
      rw [headOf, headOf, h.isConjunction_eq, hid, hleft, h.textAt_eq hs]

theorem guardOf?_eq (h : Alike t u) : guardOf? u = guardOf? t := by
  cases hs : isStatement t with
  | true =>
    have hu : hasKind u "ParenthesizedExpression" = false :=
      hasKind_of_isPlain (h.isPlain_right hs) (by decide) (by decide)
    have ht : hasKind t "ParenthesizedExpression" = false :=
      hasKind_of_isPlain (isPlain_of_isStatement hs) (by decide) (by decide)
    rw [guardOf?, guardOf?, hu, ht]
    rfl
  | false =>
    rw [guardOf?, guardOf?, h.hasKind_eq hs]
    obtain ⟨ht, hu⟩ | ⟨x, y, ht, hu, hxy⟩ := h.field hs "expression"
    · rw [ht, hu]
      rfl
    · rw [ht, hu, Option.filter_some, Option.filter_some, hxy.isConjunction_eq]
      cases isConjunction x with
      | false => rfl
      | true => simp only [if_true, Option.bind_some, hxy.headOf_eq]

end Alike

theorem headOf_logicalAnd (a b : Json) : headOf (logicalAnd a b) = headOf a := by
  rw [logicalAnd, logical, make, headOf, if_pos (by rfl), headOfFields_eq]
  rfl

theorem headOf_guardChain (guard : String) (operands : List Json) :
    headOf (guardChain (.str guard) operands) = some guard := by
  have hfold : ∀ (ops : List Json) (e : Json), headOf (ops.foldl logicalAnd e) = headOf e := by
    intro ops
    induction ops with
    | nil => intro e; rfl
    | cons a ops ih => intro e; rw [foldl_cons, ih, headOf_logicalAnd]
  rw [guardChain, hfold]
  rfl

theorem guardOf?_chain (guard : String) {operands : List Json} (hne : operands ≠ []) :
    guardOf? (parenthesized (guardChain (.str guard) operands)) = some guard := by
  have hconj : isConjunction (guardChain (.str guard) operands) = true := by
    obtain rfl | ⟨init, last, rfl⟩ := eq_nil_or_concat operands
    · exact absurd rfl hne
    · rw [guardChain, concat_eq_append, foldl_append]
      rfl
  have hget : field? (parenthesized (guardChain (.str guard) operands)) "expression" =
      some (guardChain (.str guard) operands) := rfl
  rw [guardOf?, if_pos (by rfl), hget, Option.filter_some, if_pos hconj]
  exact headOf_guardChain guard operands

end Shape

end Node

namespace Expansion

section Sites

/-- The arguments of a call that its chain takes over. -/
def Verdict.forwards {α : Type} (arguments : List (Tree α)) : Verdict → List (Tree α)
  | untouched | expired => []
  | asserted | warned => arguments
  | deprecated _ => (arguments[1]?).toList

theorem Verdict.forwards_map {α β : Type} (f : Tree α → Tree β) (arguments : List (Tree α)) (v : Verdict) :
    v.forwards (arguments.map f) = (v.forwards arguments).map f := by
  cases v with
  | deprecated => rw [forwards, forwards, getElem?_map]; cases arguments[1]? <;> rfl
  | _ => rfl

theorem Verdict.forwards_sublist {α : Type} (arguments : List (Tree α)) (v : Verdict) :
    (v.forwards arguments).Sublist arguments := by
  cases v with
  | untouched | expired => exact nil_sublist _
  | asserted | warned => exact List.Sublist.refl _
  | deprecated =>
    rw [forwards]
    cases ha : arguments[1]? with
    | none => exact nil_sublist _
    | some a => exact singleton_sublist.mpr (mem_of_getElem? ha)

namespace Rewriting

variable (c : Rewriting)

/-- The statement goes under guard. -/
def guards (x : Tree Mark) : Bool :=
  isStatement x && match verdict c.options c.helpers x with
    | .ok v => v.guards
    | .error _ => false

/-- The statements that go under guard, of a node and of what a slot holds. -/
def sitesIn (x : Tree Mark) : List (Tree Mark) := (live c.drops x).filter c.guards
def sitesInside (x : Tree Mark) : List (Tree Mark) := (liveInside c.drops x).filter c.guards

/-- The arguments that the chain of a statement takes over. -/
def forwarded (x : Tree Mark) : List (Tree Mark) :=
  match verdict c.options c.helpers x with
  | .ok v => v.forwards (argumentsOf (expressionOf x))
  | .error _ => []

/-- All that goes under guard inside the call of a statement is in arguments that are taken
over. -/
def KeepsSites (x : Tree Mark) : Prop := (c.forwarded x).flatMap c.sitesIn = c.sitesIn (expressionOf x)

instance (x : Tree Mark) : Decidable (c.KeepsSites x) := inferInstanceAs (Decidable (_ = _))

variable {c} {x : Tree Mark}

theorem exists_verdict (hx : c.guards x = true) :
    isStatement x = true ∧ ∃ v, verdict c.options c.helpers x = .ok v ∧ v.guards = true := by
  rw [guards, Bool.and_eq_true] at hx
  refine ⟨hx.1, ?_⟩
  split at hx
  · next v hv => exact ⟨v, hv, hx.2⟩
  · cases hx.2

theorem not_guards_of_drops (hx : c.drops x = true) : c.guards x = false := by
  have hv := verdict_of_isExpired c.options c.helpers hx
  rw [guards, hv]
  exact Bool.and_false _

theorem forwarded_eq {v : Verdict} (hv : verdict c.options c.helpers x = .ok v) :
    c.forwarded x = v.forwards (argumentsOf (expressionOf x)) := by rw [forwarded, hv]

/-- A statement that goes under guard calls something. -/
theorem exists_call (hl : Legal x) (hx : c.guards x = true) :
    ∃ k cs, Table.get? x.fields "expression" = some (.obj k cs) ∧ expressionOf x = .obj k cs ∧
      isCall (.obj k cs) = true ∧ Legal (.obj k cs) := by
  obtain ⟨hst, v, hv, hg⟩ := exists_verdict hx
  obtain ⟨k, cs, hget, hcall⟩ := call_of_verdict hv (by rintro rfl; cases hg)
  have hexp : expressionOf x = .obj k cs := by rw [expressionOf, hget]; rfl
  refine ⟨k, cs, hget, hexp, hcall, ?_⟩
  rw [← hexp]
  exact legal_expression hl (isNode_of_isStatement hst) (by rw [hexp]; exact hcall)

theorem sitesIn_obj {m : Mark} {fields : Fields Mark} (hn : isNode (.obj m fields) = true)
    (hd : c.drops (.obj m fields) = false) :
    c.sitesIn (.obj m fields) = (if c.guards (.obj m fields) then [.obj m fields] else []) ++
      fields.flatMap fun e => if isMetadata e.1 then [] else c.sitesInside e.2 := by
  have hfields : (liveFields c.drops fields).filter c.guards =
      fields.flatMap fun e => if isMetadata e.1 then [] else c.sitesInside e.2 := by
    rw [liveFields_eq, filter_flatMap]
    refine flatMap_congr fun e _ => ?_
    split <;> rfl
  rw [sitesIn, live, if_pos hn, ← hfields]
  cases hst : isStatement (.obj m fields) with
  | false =>
    have hg : c.guards (.obj m fields) = false := by rw [guards, hst]; rfl
    simp [hg]
  | true =>
    rw [hd]
    simp only [if_true, Bool.false_eq_true, if_false, filter_cons]
    split <;> rfl

theorem sitesInside_obj (m : Mark) (fields : Fields Mark) :
    c.sitesInside (.obj m fields) = c.sitesIn (.obj m fields) := rfl

theorem sitesInside_arr (m : Mark) (items : List (Tree Mark)) :
    c.sitesInside (.arr m items) = items.flatMap c.sitesIn := by
  rw [sitesInside, liveInside, liveItems_eq, filter_flatMap]
  rfl

theorem sitesIn_of_drops (hd : c.drops x = true) : c.sitesIn x = [] := by
  cases x with
  | scalar | arr => rfl
  | obj m fields =>
    rw [sitesIn, live]
    split
    · simp [isStatement_of_drops hd, not_guards_of_drops hd]
    · rfl

theorem sitesIn_of_not_isNode (hn : isNode x = false) : c.sitesIn x = [] := by
  cases x with
  | scalar | arr => rfl
  | obj m fields => rw [sitesIn, live, if_neg (by rw [hn]; decide)]; rfl

theorem sublist_forwarded (hl : Legal x) (hx : c.guards x = true) :
    ((c.forwarded x).flatMap c.sitesIn).Sublist (c.sitesIn (expressionOf x)) := by
  obtain ⟨k, cs, hget, hexp, hcall, hlegal⟩ := exists_call hl hx
  obtain ⟨_, v, hv, _⟩ := exists_verdict hx
  have hn := isNode_of_hasKind hcall
  rw [forwarded_eq hv, hexp, sitesIn_obj hn (not_drops_of_not_isStatement (not_isStatement_of_isCall hcall))]
  refine List.Sublist.trans ?_ (sublist_append_right _ _)
  obtain ⟨_, hargs⟩ | ⟨i, args, hlist, hargs, _⟩ := arguments_cases (hlegal.sound hn) hcall
  · have hnil : v.forwards ([] : List (Tree Mark)) = [] := sublist_nil.mp (v.forwards_sublist [])
    rw [hargs, hnil]
    exact nil_sublist _
  · rw [hargs]
    refine List.Sublist.trans ((v.forwards_sublist args).flatMap _) ?_
    refine sublist_flatten_of_mem (mem_map.mpr ⟨("arguments", .arr i args), Table.mem_of_get? hlist, ?_⟩)
    rw [if_neg (show ¬ isMetadata "arguments" = true by decide), sitesInside_arr]

end Rewriting

end Sites

section Counting

variable {α : Type} {guard : String}

/-- How many of some nodes are statements under a guard. -/
def guardedIn (guard : String) (ns : List (Tree α)) : ℕ := ns.countP (isGuardedBy guard)

theorem guardedIn_flatMap {ι : Type} (f : ι → List (Tree α)) (l : List ι) :
    guardedIn guard (l.flatMap f) = (l.map fun i => guardedIn guard (f i)).sum := countP_flatMap

theorem guardedIn_of_no_statement {ns : List (Tree α)} (hn : ∀ n ∈ ns, isStatement n = false) :
    guardedIn guard ns = 0 := by
  refine countP_eq_zero.mpr fun n hmem => ?_
  simp [isGuardedBy, hn n hmem]

/-- How many statements under a guard a field holds. -/
def guardedAt (guard : String) (e : String × Tree α) : ℕ :=
  if isMetadata e.1 then 0 else guardedIn guard (inside e.2)

theorem guardedAt_of_not {key : String} (hk : isMetadata key = false) (t : Tree α) :
    guardedAt guard (key, t) = guardedIn guard (inside t) := by
  rw [guardedAt, if_neg (show ¬ isMetadata key = true by simp [hk])]

theorem guardedIn_nodesFields (fields : Fields α) :
    guardedIn guard (nodesFields fields) = (fields.map (guardedAt guard)).sum := by
  rw [nodesFields_eq, guardedIn_flatMap]
  refine congrArg List.sum (map_congr_left fun e _ => ?_)
  rw [guardedAt]
  split <;> rfl

theorem guardedIn_inside_make {k : String} (hk : k ≠ "ExpressionStatement") (fields : List (String × Json)) :
    guardedIn guard (inside (make k fields)) = guardedIn guard (nodesFields fields) := by
  have hself : isGuardedBy guard (make k fields) = false := by
    have hst : isStatement (make k fields) = false :=
      Bool.eq_false_iff.mpr fun h => hk (Option.some.inj ((kind?_make k fields).symm.trans (hasKind_iff.mp h)))
    rw [isGuardedBy, hst, Bool.false_and]
  rw [inside_make, guardedIn, countP_cons_of_neg (by rw [hself]; decide)]
  rfl

theorem guardedIn_inert {e : Json} (he : ∀ n ∈ inside e, Inert n) : guardedIn guard (inside e) = 0 :=
  guardedIn_of_no_statement fun n hn => (he n hn).2.1

theorem guardedIn_call (t : Target) (d : Diagnostic) (args : List Json) :
    guardedIn guard (inside (call (d.calleeNode t) args)) = (args.map fun a => guardedIn guard (nodes a)).sum := by
  have hcallee : guardedAt guard ("callee", (d.calleeNode t : Json)) = 0 :=
    guardedIn_inert (forall_inside_calleeNode (fun _ h => h) t d)
  have hargs : guardedAt guard ("arguments", (listOf args : Json)) =
      (args.map fun a => guardedIn guard (nodes a)).sum := by
    rw [guardedAt_of_not (by decide), listOf, inside, nodesItems_eq, guardedIn_flatMap]
  rw [call, guardedIn_inside_make (by decide), guardedIn_nodesFields, map_cons, map_cons, sum_cons,
    sum_cons, hcallee, hargs, Nat.zero_add]
  rfl

/-- A chain holds what its operands hold. -/
theorem guardedIn_chain (g : String) (operands : List Json) :
    guardedIn guard (inside (parenthesized (guardChain (.str g) operands))) =
      (operands.map fun d => guardedIn guard (inside d)).sum := by
  have hand : ∀ a b : Json, guardedIn guard (inside (logicalAnd a b)) =
      guardedIn guard (inside a) + guardedIn guard (inside b) := by
    intro a b
    rw [logicalAnd, logical, guardedIn_inside_make (by decide), guardedIn_nodesFields]
    simp only [map_cons, map_nil, sum_cons, sum_nil, Nat.add_zero]
    exact Nat.zero_add _
  have hfold : ∀ (ops : List Json) (e : Json), guardedIn guard (inside (ops.foldl logicalAnd e)) =
      guardedIn guard (inside e) + (ops.map fun d => guardedIn guard (inside d)).sum := by
    intro ops
    induction ops with
    | nil => intro e; rfl
    | cons a ops ih => intro e; rw [foldl_cons, ih, hand, map_cons, sum_cons, Nat.add_assoc]
  have hid : guardedIn guard (inside (identifier (.str g) : Json)) = 0 :=
    guardedIn_inert (forall_inside_identifier (fun _ h => h) g)
  rw [parenthesized, guardedIn_inside_make (by decide), guardedIn_nodesFields, map_singleton, sum_singleton,
    guardedAt_of_not (by decide), guardChain, hfold, hid, Nat.zero_add]

/-- The operands of a verdict hold what the arguments hold that they take over. -/
theorem guardedIn_operands {o : Options} {dialect : Dialect} {v : Verdict} {args operands : List Json}
    (hop : v.operands o dialect id args = some operands) (ha : ∀ a ∈ args, isNode a = true)
    (hid : ∀ a ∈ args, isIdentifier a = true → guardedIn guard (nodes a) = 0) :
    (operands.map fun d => guardedIn guard (inside d)).sum =
      ((v.forwards args).map fun a => guardedIn guard (nodes a)).sum := by
  cases v with
  | untouched | expired => cases hop
  | asserted =>
    cases hop
    have hzero : ((args.filter isIdentifier).map fun d => guardedIn guard (inside d)).sum = 0 := by
      refine List.sum_eq_zero_iff_forall_eq_nat.mpr fun n hn => ?_
      obtain ⟨a, hmem, rfl⟩ := mem_map.mp hn
      obtain ⟨hmem, hi⟩ := mem_filter.mp hmem
      rw [inside_eq_nodes (ha a hmem)]
      exact hid a hmem hi
    rw [map_id, map_append, sum_append, map_singleton, sum_singleton, guardedIn_call, hzero,
      Nat.zero_add]
    rfl
  | warned =>
    cases hop
    rw [map_singleton, sum_singleton, guardedIn_call]
    rfl
  | deprecated text =>
    cases hop
    have hlit : guardedIn guard (nodes (dialect.literal (.str text) : Json)) = 0 :=
      guardedIn_of_no_statement fun n hn =>
        (forall_inside_literal (fun _ h => h) dialect (.str text) n (nodes_subset_inside _ hn)).2.1
    simp only [map_cons, map_nil, sum_cons, sum_nil, Nat.add_zero, guardedIn_call, hlit,
      Verdict.forwards]
    cases hget : args[1]? with
    | none => rfl
    | some a =>
      rw [Option.getD_some, inside_eq_nodes (ha a (mem_of_getElem? hget)), Option.toList_some, map_singleton,
        sum_singleton]

end Counting

section Rewritten

variable {c : Rewriting} {h : Heap} {x : Tree Mark}

namespace Rewriting

theorem finish_of_not_guards (hx : c.guards x = false) (fs : List (String × Json)) : c.finish x fs = .obj () fs := by
  obtain he | ⟨v, operands, hst, hv, hop, _⟩ := c.finish_cases x fs
  · exact he
  · rw [guards, hst, hv, Bool.true_and] at hx
    cases v with
    | untouched | expired => cases hop
    | asserted | warned | deprecated => cases hx

theorem finish_of_guards (hx : c.guards x = true) {v : Verdict} (hv : verdict c.options c.helpers x = .ok v)
    (fs : List (String × Json)) : ∃ operands, operands ≠ [] ∧
      v.operands c.options c.dialect id (argumentsOf (expressionOf (.obj () fs))) = some operands ∧
      c.finish x fs = .obj () (Table.set fs "expression" (parenthesized (guardChain (.str c.guard) operands))) := by
  obtain ⟨hst, v', hv', hg⟩ := exists_verdict hx
  obtain rfl : v = v' := Except.ok.inj (hv.symm.trans hv')
  have hfinish : ∀ operands, v.operands c.options c.dialect id (argumentsOf (expressionOf (.obj () fs))) =
      some operands → c.finish x fs =
        .obj () (Table.set fs "expression" (parenthesized (guardChain (.str c.guard) operands))) := by
    intro operands hop
    simp only [finish, hst, hv, hop, if_true]
  cases v with
  | untouched | expired => cases hg
  | asserted | warned | deprecated => exact ⟨_, by simp, rfl, hfinish _ rfl⟩

theorem expression_rewritten (hl : Legal x) (hx : c.guards x = true) :
    ∃ k cs, expressionOf x = .obj k cs ∧ isCall (.obj k cs) = true ∧ Legal (.obj k cs) ∧
      expressionOf (.obj () (reshapeFields c.drops c.finish x.fields)) =
        .obj () (reshapeFields c.drops c.finish cs) := by
  obtain ⟨k, cs, hget, hexp, hcall, hlegal⟩ := exists_call hl hx
  have hst := not_isStatement_of_isCall hcall
  refine ⟨k, cs, hexp, hcall, hlegal, ?_⟩
  have hmeta : isMetadata "expression" = false := by decide
  rw [expressionOf, Tree.fields, get?_reshapeFields, hget, Option.map_some, Option.getD_some, reshapeSlot, hmeta,
    if_neg Bool.false_ne_true, reshapeInside_obj (not_drops_of_not_isStatement hst), reshape,
    if_pos (isNode_of_hasKind hcall), finish_of_not_isStatement hst]

theorem arguments_rewritten (hl : Legal x) (hx : c.guards x = true) :
    argumentsOf (expressionOf (.obj () (reshapeFields c.drops c.finish x.fields))) =
      (argumentsOf (expressionOf x)).map c.rewrite ∧ ∀ a ∈ argumentsOf (expressionOf x), isArgument a = true := by
  obtain ⟨k, cs, hexp, hcall, hlegal, hread⟩ := expression_rewritten hl hx
  have hn := isNode_of_hasKind hcall
  have hlist : ∀ fs : List (String × Json), ∀ ys : List Json,
      ((Table.get? fs "arguments" = none ∧ ys = []) ∨ Table.get? fs "arguments" = some (.arr () ys)) →
        argumentsOf (.obj () fs) = ys := by
    rintro fs ys (⟨hf, rfl⟩ | hf) <;>
      simp [argumentsOf, elementsOf, Tree.get?, hf, bind, Except.bind, elements]
  rw [hread, hexp]
  obtain ⟨hnone, hargs⟩ | ⟨i, args, hsome, hargs, hall⟩ := arguments_cases (hlegal.sound hn) hcall
  · rw [hargs]
    refine ⟨hlist _ _ (.inl ⟨?_, rfl⟩), by simp⟩
    rw [get?_reshapeFields, show Table.get? cs "arguments" = none from hnone]
    rfl
  · rw [hargs]
    refine ⟨hlist _ _ (.inr ?_), hall⟩
    have hmeta : isMetadata "arguments" = false := by decide
    have hdrops : args.filter (fun a => !c.drops a) = args := filter_eq_self.mpr fun a ha => by
      rw [not_drops_of_not_isStatement (not_isStatement_of_isArgument (hall a ha))]
      rfl
    rw [get?_reshapeFields, show Table.get? cs "arguments" = some (.arr i args) from hsome,
      Option.map_some, reshapeSlot, hmeta, if_neg Bool.false_ne_true, reshapeInside, reshapeItems_eq, hdrops]
    rfl

end Rewriting

/-- A well-formed document without statements under the guard. -/
structure Countable (c : Rewriting) (h : Heap) (x : Tree Mark) : Prop where
  shows : Shows h x
  legal : Legal x
  keyed : x.keyed = true
  plain : ∀ n ∈ inside x, isGuardedBy c.guard n = false

namespace Countable

variable {m : Mark} {fields : Fields Mark}

theorem slot (hx : Countable c h (.obj m fields)) (hn : isNode (.obj m fields) = true) {e : String × Tree Mark}
    (he : e ∈ fields) (hk : isMetadata e.1 = false) : Countable c h e.2 := by
  have hget := Table.get?_of_mem ((keyed_obj _ _).mp hx.keyed).1 he
  exact ⟨hx.shows.child (mem_map_of_mem he), hx.legal.field hn hget hk, ((keyed_obj _ _).mp hx.keyed).2 e he,
    fun n hmem => hx.plain n (inside_field hn hget hk hmem)⟩

theorem item {items : List (Tree Mark)} (hx : Countable c h (.arr m items)) {y : Tree Mark} (hy : y ∈ items)
    (hn : isNode y = true) : Countable c h y := by
  refine ⟨hx.shows.child hy, hx.legal.item hy hn, (keyed_arr _ _).mp hx.keyed y hy, fun n hmem => hx.plain n ?_⟩
  rw [inside, nodesItems_eq, mem_flatMap]
  exact ⟨y, hy, by rwa [inside_eq_nodes hn] at hmem⟩

end Countable

/-- What a slot holds has as many statements under guard when rewritten as went under guard,
if and only if none of them lost any. -/
def Counted (c : Rewriting) (x : Tree Mark) : Prop :=
  Fits (guardedIn c.guard (inside (reshapeInside c.drops c.finish x))) (c.sitesInside x).length
    (∀ y ∈ c.sitesInside x, c.KeepsSites y)

/-- The same for a node on its own. -/
theorem Counted.node (hx : Counted c x) (hn : isNode x = true) :
    Fits (guardedIn c.guard (if c.drops x then [] else nodes (c.rewrite x))) (c.sitesIn x).length
      (∀ y ∈ c.sitesIn x, c.KeepsSites y) := by
  obtain ⟨m, fields, _, rfl, _⟩ := exists_of_isNode hn
  rw [Counted, Rewriting.sitesInside_obj] at hx
  cases hd : c.drops (.obj m fields) with
  | true =>
    rw [Rewriting.sitesIn_of_drops hd]
    exact ⟨Nat.le_refl _, by simp [guardedIn]⟩
  | false =>
    rw [reshapeInside_obj hd] at hx
    have hinside : inside (reshape c.drops c.finish (.obj m fields)) = nodes (c.rewrite (.obj m fields)) := by
      rw [Rewriting.rewrite, reshape, if_pos hn]
      obtain he | ⟨_, _, _, _, _, he⟩ := c.finish_cases (obj m fields) (reshapeFields c.drops c.finish fields) <;>
        rw [he] <;> rfl
    rwa [hinside] at hx

theorem counted_arr {m : Mark} {items : List (Tree Mark)}
    (hitems : ∀ y ∈ items, isNode y = true → Counted c y) : Counted c (.arr m items) := by
  have hnodes : guardedIn c.guard (inside (reshapeInside c.drops c.finish (.arr m items))) =
      (items.map fun y => guardedIn c.guard (if c.drops y then [] else nodes (c.rewrite y))).sum := by
    rw [← guardedIn_flatMap, reshapeInside, inside, nodesItems_eq]
    refine congrArg (guardedIn c.guard) ?_
    induction items with
    | nil => rfl
    | cons y items ih =>
      rw [forall_mem_cons] at hitems
      rw [reshapeItems, flatMap_cons, ← ih hitems.2]
      split
      · rfl
      · rfl
  rw [Counted, hnodes, Rewriting.sitesInside_arr]
  refine Fits.flatMap fun y hy => ?_
  cases hn : isNode y with
  | true => exact (hitems y hy hn).node hn
  | false =>
    rw [Rewriting.sitesIn_of_not_isNode hn, Rewriting.rewrite, nodes_reshape_of_not_isNode hn, ite_self]
    exact ⟨Nat.le_refl _, by simp [guardedIn]⟩

section Object

variable {m : Mark} {fields : Fields Mark}

/-- The sites in a field. -/
def Rewriting.sitesAt (c : Rewriting) (e : String × Tree Mark) : List (Tree Mark) :=
  if isMetadata e.1 then [] else c.sitesInside e.2

/-- The fields of a node, or some of them. -/
theorem fits_fields {es : Fields Mark} (hes : ∀ e ∈ es, isMetadata e.1 = false → Counted c e.2) :
    Fits (guardedIn c.guard (nodesFields (es.map fun e => (e.1, reshapeSlot c.drops c.finish e.1 e.2))))
      (es.flatMap c.sitesAt).length (∀ y ∈ es.flatMap c.sitesAt, c.KeepsSites y) := by
  rw [guardedIn_nodesFields, List.map_map]
  refine Fits.flatMap fun e he => ?_
  simp only [Function.comp_apply, guardedAt, reshapeSlot, Rewriting.sitesAt]
  cases hk : isMetadata e.1 with
  | true => exact ⟨Nat.le_refl _, by simp⟩
  | false => exact hes e he hk

theorem Rewriting.follows (c : Rewriting) : Follows c c.finish := fun _ _ => .inr rfl

theorem isGuardedBy_bare (hx : Shows h (.obj m fields)) (hn : isNode (.obj m fields) = true) (guard : String) :
    isGuardedBy guard (.obj () (reshapeFields c.drops c.finish fields) : Json) = isGuardedBy guard (.obj m fields) := by
  have hmild : Mild h c.drops c.finish := c.follows.mild fun _ _ => isStatement_of_drops
  have hst : isStatement (.obj () (reshapeFields c.drops c.finish fields) : Json) = isStatement (.obj m fields) := by
    obtain ⟨k, hk⟩ := Option.isSome_iff_exists.mp hn
    have hk' : kind? (.obj () (reshapeFields c.drops c.finish fields) : Json) = some k :=
      kind?_obj.mpr (get?_type hmild.not_drops_scalar (kind?_obj.mp hk))
    rw [Bool.eq_iff_iff, isStatement, isStatement, hasKind_iff, hasKind_iff, hk, hk']
  have hexp : Alike (expressionOf (.obj m fields))
      (expressionOf (.obj () (reshapeFields c.drops c.finish fields))) := by
    have hmeta : isMetadata "expression" = false := by decide
    rw [expressionOf, expressionOf, Tree.fields, Tree.fields, get?_reshapeFields]
    cases hget : Table.get? fields "expression" with
    | none => exact .scalar _
    | some e =>
      rw [Option.map_some, Option.getD_some, Option.getD_some, reshapeSlot, hmeta, if_neg Bool.false_ne_true]
      exact (hmild.alike (hx.child (mem_map_of_mem (Table.mem_of_get? hget)))).1
  rw [isGuardedBy, isGuardedBy, hst, hexp.guardOf?_eq]

theorem counted_other (hx : Countable c h (.obj m fields)) (hn : isNode (.obj m fields) = true)
    (hd : c.drops (.obj m fields) = false) (hg : c.guards (.obj m fields) = false)
    (hfields : ∀ e ∈ fields, isMetadata e.1 = false → Counted c e.2) : Counted c (.obj m fields) := by
  have hmild : Mild h c.drops c.finish := c.follows.mild fun _ _ => isStatement_of_drops
  have hnode : isNode (.obj () (reshapeFields c.drops c.finish fields) : Json) = true :=
    isNode_bare hmild.not_drops_scalar hn
  have hself : isGuardedBy c.guard (.obj () (reshapeFields c.drops c.finish fields) : Json) = false := by
    rw [isGuardedBy_bare hx.shows hn]
    exact hx.plain _ (mem_inside_self hn)
  rw [Counted, reshapeInside_obj hd, Rewriting.sitesInside_obj, Rewriting.sitesIn_obj hn hd, hg, reshape, if_pos hn,
    Rewriting.finish_of_not_guards hg, inside, nodes, if_pos hnode, guardedIn,
    countP_cons_of_neg (by simp [hself]), reshapeFields_eq]
  · exact fits_fields hfields
  · simp

/-- An argument reads as one, and if it is a name there is nothing under guard in it. -/
theorem rewrite_argument {a : Tree Mark} (ha : isArgument a = true) (hx : Shows h a) (hl : Legal a) :
    c.drops a = false ∧ isNode (c.rewrite a) = true ∧
      (isIdentifier (c.rewrite a) = true → guardedIn c.guard (nodes (c.rewrite a)) = 0) := by
  have hst := not_isStatement_of_isArgument ha
  have hd : c.drops a = false := not_drops_of_not_isStatement hst
  have hmild : Mild h c.drops c.finish := c.follows.mild fun _ _ => isStatement_of_drops
  have halike := (hmild.alike hx).2 hd
  have hn : isNode a = true := ((Bool.and_eq_true _ _).mp ha).1
  refine ⟨hd, halike.isNode_eq.trans hn, fun hid => ?_⟩
  have hkind : isIdentifier a = true := (halike.hasKind_eq hst _).symm.trans hid
  obtain ⟨m, fields, _, rfl, _⟩ := exists_of_isNode hn
  have hsound := hl.sound hn
  rw [Node.sound, hasKind_iff.mp hkind] at hsound
  have hempty : nodesFields fields = [] := List.isEmpty_iff.mp ((Bool.and_eq_true _ _).mp hsound).2
  have hnodes : nodes (obj m fields) = [obj m fields] := by rw [nodes, if_pos hn, hempty]
  have hbare : ∀ n ∈ nodes (obj m fields), c.Spares n := by
    rw [hnodes]
    exact forall_mem_singleton.mpr (c.spares_of_not_isStatement hst)
  rw [Rewriting.rewrite, (reshape_of_spared c _).1 hbare]
  refine guardedIn_of_no_statement fun n hmem => ?_
  rw [erase, (nodes_map _ _).1, hnodes, map_singleton, mem_singleton] at hmem
  rw [hmem, isStatement_map, hst]

theorem fits_chain (hx : Countable c h x) (hg : c.guards x = true)
    (hargs : ∀ a ∈ argumentsOf (expressionOf x), isNode a = true → Shows h a ∧ Legal a ∧ Counted c a) {v : Verdict}
    (hv : verdict c.options c.helpers x = .ok v) {operands : List Json}
    (hop : v.operands c.options c.dialect id
      (argumentsOf (expressionOf (.obj () (reshapeFields c.drops c.finish x.fields)))) = some operands) :
    Fits (guardedIn c.guard (inside (parenthesized (guardChain (.str c.guard) operands))))
      (c.sitesIn (expressionOf x)).length (c.KeepsSites x ∧ ∀ y ∈ c.sitesIn (expressionOf x), c.KeepsSites y) := by
  obtain ⟨hrewritten, hargument⟩ := Rewriting.arguments_rewritten hx.legal hg
  have harg : ∀ a ∈ argumentsOf (expressionOf x), isNode a = true ∧ Counted c a ∧ c.drops a = false ∧
      isNode (c.rewrite a) = true ∧
      (isIdentifier (c.rewrite a) = true → guardedIn c.guard (nodes (c.rewrite a)) = 0) := by
    intro a ha
    have hn : isNode a = true := ((Bool.and_eq_true _ _).mp (hargument a ha)).1
    obtain ⟨hs, hl, hc⟩ := hargs a ha hn
    exact ⟨hn, hc, rewrite_argument (hargument a ha) hs hl⟩
  have hsub : c.forwarded x ⊆ argumentsOf (expressionOf x) := by
    rw [Rewriting.forwarded_eq hv]
    exact (v.forwards_sublist _).subset
  rw [hrewritten] at hop
  have hchain : guardedIn c.guard (inside (parenthesized (guardChain (.str c.guard) operands))) =
      ((c.forwarded x).map fun a => guardedIn c.guard (if c.drops a then [] else nodes (c.rewrite a))).sum := by
    rw [guardedIn_chain, guardedIn_operands hop (by simpa using fun a ha => (harg a ha).2.2.2.1)
      (by simpa using fun a ha => (harg a ha).2.2.2.2), Verdict.forwards_map, ← Rewriting.forwarded_eq hv, List.map_map]
    refine congrArg List.sum (map_congr_left fun a ha => ?_)
    rw [(harg a (hsub ha)).2.2.1]
    rfl
  have hfits : Fits ((c.forwarded x).map fun a => guardedIn c.guard (if c.drops a then [] else nodes (c.rewrite a))).sum
      ((c.forwarded x).flatMap c.sitesIn).length (∀ y ∈ (c.forwarded x).flatMap c.sitesIn, c.KeepsSites y) :=
    Fits.flatMap fun a ha => (harg a (hsub ha)).2.1.node (harg a (hsub ha)).1
  have hle := (Rewriting.sublist_forwarded hx.legal hg).length_le
  rw [hchain]
  refine ⟨Nat.le_trans hfits.1 hle, fun heq => ?_, fun ⟨hkeeps, hall⟩ => ?_⟩
  · have hkeeps : c.KeepsSites x := (Rewriting.sublist_forwarded hx.legal hg).eq_of_length
      (Nat.le_antisymm hle (heq ▸ hfits.1))
    refine ⟨hkeeps, ?_⟩
    rw [← hkeeps] at heq ⊢
    exact hfits.2.mp heq
  · rw [← hkeeps] at hall ⊢
    exact hfits.2.mpr hall

section

variable {key : String} {e : Tree Mark} (hk : isMetadata key = false) (hkeys : (fields.map Prod.fst).Nodup)
  (hget : Table.get? fields key = some e)
include hk hkeys hget

theorem guardedIn_set (guard : String) (v : Json) :
    guardedIn guard (nodesFields (Table.set (reshapeFields c.drops c.finish fields) key v)) =
      guardedIn guard (inside v) + guardedIn guard (nodesFields
        ((fields.filter fun e => e.1 ≠ key).map fun e => (e.1, reshapeSlot c.drops c.finish e.1 e.2))) := by
  have hreshaped : Table.get? (reshapeFields c.drops c.finish fields) key =
      some (reshapeSlot c.drops c.finish key e) := by rw [get?_reshapeFields, hget]; rfl
  have hperm := Table.perm_set (by rw [reshapeFields_eq, List.map_map]; exact hkeys) hreshaped v
  have hfilter : (reshapeFields c.drops c.finish fields).filter (fun e => e.1 ≠ key) =
      (fields.filter fun e => e.1 ≠ key).map fun e => (e.1, reshapeSlot c.drops c.finish e.1 e.2) := by
    rw [reshapeFields_eq, filter_map]
    rfl
  rw [hfilter] at hperm
  rw [guardedIn_nodesFields, (hperm.map _).sum_nat, map_cons, sum_cons, guardedAt_of_not hk,
    guardedIn_nodesFields]

theorem sitesAt_perm :
    (fields.flatMap c.sitesAt).Perm (c.sitesInside e ++ (fields.filter fun e => e.1 ≠ key).flatMap c.sitesAt) := by
  have hperm := Table.perm_set hkeys hget e
  rw [Table.set_get? hget] at hperm
  have hsites := hperm.flatMap_right c.sitesAt
  rwa [flatMap_cons, Rewriting.sitesAt, if_neg (show ¬ isMetadata key = true by simp [hk])] at hsites

theorem fits_set (hfields : ∀ e ∈ fields, isMetadata e.1 = false → Counted c e.2) {v : Json}
    {Q : Prop} (hv : Fits (guardedIn c.guard (inside v)) (c.sitesInside e).length
      (Q ∧ ∀ y ∈ c.sitesInside e, c.KeepsSites y)) :
    Fits (guardedIn c.guard (nodesFields (Table.set (reshapeFields c.drops c.finish fields) key v)))
      (fields.flatMap c.sitesAt).length (Q ∧ ∀ y ∈ fields.flatMap c.sitesAt, c.KeepsSites y) := by
  have hsites := sitesAt_perm (c := c) hk hkeys hget
  have hothers := fits_fields (c := c) fun e he => hfields e (mem_of_mem_filter (p := fun e => e.1 ≠ key) he)
  have hall : (∀ y ∈ fields.flatMap c.sitesAt, c.KeepsSites y) ↔
      (∀ y ∈ c.sitesInside e, c.KeepsSites y) ∧
        ∀ y ∈ (fields.filter fun e => e.1 ≠ key).flatMap c.sitesAt, c.KeepsSites y := by
    rw [← forall_mem_append]
    exact forall_congr' fun y => by rw [hsites.mem_iff]
  have htotal := hv.add hothers
  rwa [← guardedIn_set hk hkeys hget, ← length_append, ← hsites.length_eq, and_assoc, ← hall] at htotal

end

/-- A statement that goes under guard: the guard stands in front of its chain, and the chain
holds what the arguments hold that it takes over. -/
theorem counted_site (hx : Countable c h (.obj m fields)) (hg : c.guards (.obj m fields) = true)
    (hfields : ∀ e ∈ fields, isMetadata e.1 = false → Counted c e.2)
    (hargs : ∀ a ∈ argumentsOf (expressionOf (.obj m fields)), isNode a = true → Shows h a ∧ Legal a ∧ Counted c a) :
    Counted c (.obj m fields) := by
  obtain ⟨hst, v, hv, _⟩ := Rewriting.exists_verdict hg
  obtain ⟨k, cs, hget, hexp, _⟩ := Rewriting.exists_call hx.legal hg
  have hn := isNode_of_isStatement hst
  have hd : c.drops (.obj m fields) = false := by
    cases hd : c.drops (.obj m fields) with
    | false => rfl
    | true => rw [Rewriting.not_guards_of_drops hd] at hg; cases hg
  obtain ⟨operands, hne, hop, hfinish⟩ := Rewriting.finish_of_guards hg hv (reshapeFields c.drops c.finish fields)
  have hkeys := ((keyed_obj _ _).mp hx.keyed).1
  have hchain := fits_chain hx hg hargs hv hop
  rw [hexp, ← Rewriting.sitesInside_obj] at hchain
  have hfits := fits_set (by decide) hkeys hget hfields hchain
  set chain := parenthesized (guardChain (.str c.guard) operands) with hdef
  have hself : isStatement (.obj () (Table.set (reshapeFields c.drops c.finish fields) "expression" chain) : Json) =
      true := by
    have hmild : Mild h c.drops c.finish := c.follows.mild fun _ _ => isStatement_of_drops
    rw [isStatement, hasKind_iff, kind?_obj, Table.get?_set, if_neg (by decide)]
    exact get?_type hmild.not_drops_scalar (kind?_obj.mp (hasKind_iff.mp hst))
  have hguarded : isGuardedBy c.guard
      (.obj () (Table.set (reshapeFields c.drops c.finish fields) "expression" chain) : Json) = true := by
    rw [isGuardedBy, hself, expressionOf, Tree.fields, Table.get?_set, if_pos rfl, Option.getD_some, hdef,
      guardOf?_chain _ hne]
    simp
  rw [Counted, reshapeInside_obj hd, Rewriting.sitesInside_obj, Rewriting.sitesIn_obj hn hd, if_pos hg, reshape,
    if_pos hn, hfinish, inside_eq_nodes (isNode_of_hasKind hself), nodes, if_pos (isNode_of_hasKind hself), guardedIn,
    countP_cons_of_pos hguarded, singleton_append, length_cons, forall_mem_cons]
  have hone : Fits 1 1 True := ⟨Nat.le_refl 1, by simp⟩
  exact (hfits.add hone).congr (by rw [and_true]; rfl)

theorem Countable.argument (hx : Countable c h x) (hg : c.guards x = true) {a : Tree Mark}
    (ha : a ∈ argumentsOf (expressionOf x)) (hna : isNode a = true) :
    Countable c h a ∧ ∃ call ∈ x.children, ∃ list ∈ call.children, a ∈ list.children := by
  obtain ⟨hst, _⟩ := Rewriting.exists_verdict hg
  obtain ⟨k, cs, hget, hexp, hcall, hlegal⟩ := Rewriting.exists_call hx.legal hg
  obtain ⟨m, fields, _, rfl, _⟩ := exists_of_isNode (isNode_of_isStatement hst)
  have hn := isNode_of_hasKind hcall
  rw [hexp] at ha
  obtain ⟨_, hargs⟩ | ⟨i, args, hlist, hargs, _⟩ := arguments_cases (hlegal.sound hn) hcall
  · rw [hargs] at ha
    cases ha
  · rw [hargs] at ha
    have hcallee := hx.slot (isNode_of_isStatement hst) (Table.mem_of_get? hget)
      (show isMetadata "expression" = false by decide)
    have hitems := hcallee.slot hn (Table.mem_of_get? hlist) (show isMetadata "arguments" = false by decide)
    exact ⟨hitems.item ha hna, _, mem_map_of_mem (Table.mem_of_get? hget), _,
      mem_map_of_mem (Table.mem_of_get? hlist), ha⟩

/-- Every part of a document counts what went under guard in it. -/
theorem Countable.counted (hx : Countable c h x) : Counted c x := by
  have hzero : Fits 0 0 (∀ y ∈ ([] : List (Tree Mark)), c.KeepsSites y) := ⟨Nat.le_refl 0, by simp⟩
  induction x using inductSize with
  | step x ih =>
    cases x with
    | scalar s => exact hzero
    | arr m items => exact counted_arr fun y hy hn => ih y (sizeOf_child hy) (hx.item hy hn)
    | obj m fields =>
      cases hn : isNode (.obj m fields) with
      | false =>
        have hst : isStatement (.obj m fields) = false :=
          Bool.eq_false_iff.mpr fun hst => by rw [isNode_of_isStatement hst] at hn; cases hn
        have hnodes : nodes (.obj m fields) = [] := by rw [nodes, if_neg (by simp [hn])]
        have hinside : inside (reshape c.drops c.finish (.obj m fields)) = [] := by
          rw [reshape, if_neg (by simp [hn]), erase, (nodes_map _ _).2]
          exact congrArg (List.map _) hnodes
        rw [Counted, Rewriting.sitesInside_obj, Rewriting.sitesIn_of_not_isNode hn,
          reshapeInside_obj (not_drops_of_not_isStatement hst), hinside]
        exact hzero
      | true =>
        have hfields : ∀ e ∈ fields, isMetadata e.1 = false → Counted c e.2 := fun e he hk =>
          ih e.2 (sizeOf_child (mem_map_of_mem he)) (hx.slot hn he hk)
        cases hd : c.drops (.obj m fields) with
        | true =>
          rw [Counted, Rewriting.sitesInside_obj, Rewriting.sitesIn_of_drops hd, reshapeInside, if_pos hd]
          · exact hzero
          · simp
        | false =>
          cases hg : c.guards (.obj m fields) with
          | false => exact counted_other hx hn hd hg hfields
          | true =>
            refine counted_site hx hg hfields fun a ha hna => ?_
            obtain ⟨hca, call, hcall, list, hlist, hmem⟩ := hx.argument hg ha hna
            have hsize := ((sizeOf_child hmem).trans (sizeOf_child hlist)).trans (sizeOf_child hcall)
            exact ⟨hca.shows, hca.legal, ih a hsize hca⟩

end Object

end Rewritten

end Expansion

end DebugGuards
