import DebugGuards.Expansion.Run
import DebugGuards.Proofs.Node.WellFormed

/-! Expansion as a recursion over the document. Each expression statement gets a verdict
that depends on nothing but the statement, the helpers imported and the options. The
statements judged are those met in pre-order, without what lies inside an expired one.
The rewriting goes through the document once: expired statements are dropped, and a
statement under guard gets its new expression from its rewritten arguments. -/

namespace DebugGuards.Expansion

open List

/-- What becomes of an expression statement. -/
inductive Verdict where
  | untouched
  | expired
  | asserted
  | warned
  /-- The text is what the helper is called with. -/
  | deprecated (text : String)
deriving DecidableEq

/-- The name under which the tools module exports a diagnostic. -/
def Diagnostic.name : Diagnostic → String
  | assertion => "assert"
  | warning => "warn"
  | deprecation => "deprecate"

/-- What a diagnostic is called as. The console has no method for deprecations, which
go to its warnings. -/
def Diagnostic.calleeNode {α : Type} [Inhabited α] (t : Target) (d : Diagnostic) : Tree α :=
  match t with
  | .global name => Node.member (Node.identifier (.str name)) (Node.identifier (.str d.name))
  | .external => Node.identifier (.str d.name)
  | .console =>
    let method := match d with
      | .assertion => "assert"
      | .warning | .deprecation => "warn"
    Node.member (Node.identifier (.str "console")) (Node.identifier (.str method))

section Statement

/-- The expression of a statement. -/
def expressionOf {α : Type} (s : Tree α) : Tree α := (Table.get? s.fields "expression").getD .null

/-- The arguments of a call. -/
def argumentsOf {α : Type} (call : Tree α) : List (Tree α) :=
  match call.elementsOf "arguments" with
  | .ok arguments => arguments
  | .error _ => []

variable (o : Options)

/-- The package version has reached the range of a deprecation. What cannot be compared
is not reached. -/
def isReached (d : Deprecation) : Except Failure Bool :=
  match o.packageVersion with
  | none => .ok false
  | some version =>
    if version = "" then .ok false
    else match Version.satisfies version d.till with
      | .ok b => .ok b
      | .error .malformedBound => .error .badShape
      | .error .unreadable => .ok false

/-- What becomes of a call of a diagnostic. -/
def Diagnostic.verdict (call : Tree Mark) : Diagnostic → Except Failure Verdict
  | assertion => do
    let _ ← call.elementsOf "arguments"
    return .asserted
  | warning => do
    let _ ← call.elementsOf "arguments"
    return .warned
  | deprecation => do
    let (_, d, message) ← readDeprecation call
    return if ← isReached o d then .expired else .deprecated (d.describe message.text)

variable (helpers : Table Scalar Helper)

/-- The helper that a statement calls by a bound name, if it does, and the name. -/
def calledHelper (s : Tree Mark) : Except Failure (Option (Tree Mark × Helper)) := do
  match ← Node.calleeName (← s.get "expression") with
  | .null => return none
  | name =>
    let key ← name.asKey
    return (Table.get? helpers key).map fun helper => (name, helper)

/-- What becomes of an expression statement, or why it cannot be expanded. -/
def verdict (s : Tree Mark) : Except Failure Verdict := do
  match ← calledHelper helpers s with
  | none => return .untouched
  | some (_, helper) =>
    match Diagnostic.ofName? helper.imported with
    | some d => d.verdict o (expressionOf s)
    | none => if o.strict then throw (.unknownHelper helper.imported.text o.toolsSource) else return .untouched

section Inversion
variable {o : Options} {helpers : Table Scalar Helper} {s call : Tree Mark} {v : Verdict} {f : Failure} {d : Diagnostic}

theorem deprecation_verdict (o : Options) (call : Tree Mark) :
    Diagnostic.deprecation.verdict o call =
      match readDeprecation call with
      | .error f => .error f
      | .ok (_, d, message) =>
        (isReached o d).map fun b => if b then .expired else .deprecated (d.describe message.text) := by
  rw [Diagnostic.verdict]
  cases readDeprecation call with
  | error f => rfl
  | ok r => obtain ⟨p, d, m⟩ := r; cases isReached o d <;> rfl

/-- What a deprecation with a verdict holds. -/
theorem deprecation_verdict_ok (hv : Diagnostic.deprecation.verdict o call = .ok v) :
    ∃ predicate d message, readDeprecation call = .ok (predicate, d, message) ∧
      (isReached o d = .ok true ∧ v = .expired ∨
        isReached o d = .ok false ∧ v = .deprecated (d.describe message.text)) := by
  rw [deprecation_verdict] at hv
  cases hr : readDeprecation call with
  | error e => rw [hr] at hv; cases hv
  | ok r =>
    obtain ⟨p, d, m⟩ := r
    refine ⟨p, d, m, rfl, ?_⟩
    rw [hr] at hv
    cases hi : isReached o d with
    | error e => simp [hi, Except.map] at hv
    | ok b =>
      simp only [hi, Except.map, Except.ok.injEq] at hv
      cases b with
      | true => exact .inl ⟨rfl, hv.symm⟩
      | false => exact .inr ⟨rfl, hv.symm⟩

example : (Deprecation.mk "foo-dep" ">=2.0.0" (some "http://x")).describe "Foo is bad" =
    "DEPRECATED [foo-dep]: Foo is bad. Will be removed in >=2.0.0. See http://x for more information." := by
  decide

theorem Diagnostic.verdict_ok (hv : d.verdict o call = .ok v) :
    d = assertion ∧ v = .asserted ∧ (∃ args, call.elementsOf "arguments" = .ok args) ∨
    d = warning ∧ v = .warned ∧ (∃ args, call.elementsOf "arguments" = .ok args) ∨
    d = deprecation ∧ (v = .expired ∨ ∃ text, v = .deprecated text) := by
  cases d with
  | assertion =>
    cases ha : call.elementsOf "arguments" with
    | error e => simp [Diagnostic.verdict, ha, bind, Except.bind] at hv
    | ok args =>
      simp only [Diagnostic.verdict, ha, bind, Except.bind] at hv
      cases hv
      exact .inl ⟨rfl, rfl, args, rfl⟩
  | warning =>
    cases ha : call.elementsOf "arguments" with
    | error e => simp [Diagnostic.verdict, ha, bind, Except.bind] at hv
    | ok args =>
      simp only [Diagnostic.verdict, ha, bind, Except.bind] at hv
      cases hv
      exact .inr (.inl ⟨rfl, rfl, args, rfl⟩)
  | deprecation =>
    obtain ⟨_, _, _, _, ⟨_, h⟩ | ⟨_, h⟩⟩ := deprecation_verdict_ok hv
    · exact .inr (.inr ⟨rfl, .inl h⟩)
    · exact .inr (.inr ⟨rfl, .inr ⟨_, h⟩⟩)

theorem verdict_ok (hv : verdict o helpers s = .ok v) :
    v = .untouched ∧ (calledHelper helpers s = .ok none ∨
      ∃ name helper, calledHelper helpers s = .ok (some (name, helper)) ∧
        Diagnostic.ofName? helper.imported = none ∧ o.strict = false) ∨
    ∃ name helper d, calledHelper helpers s = .ok (some (name, helper)) ∧
      Diagnostic.ofName? helper.imported = some d ∧ d.verdict o (expressionOf s) = .ok v := by
  rw [verdict] at hv
  cases hc : calledHelper helpers s with
  | error e => rw [hc] at hv; cases hv
  | ok called =>
    cases called with
    | none => rw [hc] at hv; cases hv; exact .inl ⟨rfl, .inl rfl⟩
    | some nh =>
      obtain ⟨name, helper⟩ := nh
      simp only [hc, bind, Except.bind] at hv
      cases hd : Diagnostic.ofName? helper.imported with
      | some d => rw [hd] at hv; exact .inr ⟨name, helper, d, rfl, hd, hv⟩
      | none =>
        rw [hd] at hv
        cases hs : o.strict with
        | true => simp [hs, throw, throwThe, MonadExceptOf.throw] at hv
        | false =>
          simp only [hs, Bool.false_eq_true, if_false] at hv
          cases hv
          exact .inl ⟨rfl, .inr ⟨name, helper, rfl, hd, rfl⟩⟩

theorem verdict_error (hv : verdict o helpers s = .error f) :
    calledHelper helpers s = .error f ∨
    ∃ name helper, calledHelper helpers s = .ok (some (name, helper)) ∧
      (Diagnostic.ofName? helper.imported = none ∧ o.strict = true ∧
          f = .unknownHelper helper.imported.text o.toolsSource ∨
        ∃ d, Diagnostic.ofName? helper.imported = some d ∧ d.verdict o (expressionOf s) = .error f) := by
  rw [verdict] at hv
  cases hc : calledHelper helpers s with
  | error e => rw [hc] at hv; cases hv; exact .inl rfl
  | ok called =>
    cases called with
    | none => rw [hc] at hv; cases hv
    | some nh =>
      obtain ⟨name, helper⟩ := nh
      refine .inr ⟨name, helper, rfl, ?_⟩
      simp only [hc, bind, Except.bind] at hv
      cases hd : Diagnostic.ofName? helper.imported with
      | some d => rw [hd] at hv; exact .inr ⟨d, rfl, hv⟩
      | none =>
        rw [hd] at hv
        cases hs : o.strict with
        | false => simp [hs, pure, Except.pure] at hv
        | true =>
          simp only [hs, if_true, throw, throwThe, MonadExceptOf.throw] at hv
          cases hv
          exact .inl ⟨rfl, rfl, rfl⟩

end Inversion

/-- The statement goes away. -/
def isExpired (s : Tree Mark) : Bool :=
  Node.isStatement s && match verdict o helpers s with
    | .ok .expired => true
    | _ => false

theorem verdict_of_isExpired {s : Tree Mark} (h : isExpired o helpers s = true) :
    verdict o helpers s = .ok .expired := by
  rw [isExpired, Bool.and_eq_true] at h
  replace h := h.2
  split at h
  · assumption
  · cases h

/-- What follows the guard: the conditions and the call of the helper. -/
def Verdict.operands {α : Type} [Inhabited α] (o : Options) (dialect : Dialect)
    (copy : Tree α → Tree α) (arguments : List (Tree α)) : Verdict → Option (List (Tree α))
  | untouched | expired => none
  | asserted => some ((arguments.filter Node.isIdentifier).map copy ++
      [Node.call (Diagnostic.assertion.calleeNode o.target) arguments])
  | warned => some [Node.call (Diagnostic.warning.calleeNode o.target) arguments]
  | deprecated text => some [(arguments[1]?).getD .null,
      Node.call (Diagnostic.deprecation.calleeNode o.target) [dialect.literal (.str text)]]

/-- What holds of the guard, and of a conjunction if it holds of both sides, holds of a
chain. -/
theorem guardChain_induction {α : Type} [Inhabited α] {P : Tree α → Prop} {guard : Tree α} {operands : List (Tree α)}
    (hand : ∀ l r, P l → P r → P (Node.logicalAnd l r)) (hg : P (Node.identifier guard)) (ho : ∀ a ∈ operands, P a) :
    P (guardChain guard operands) := by
  rw [guardChain]
  generalize Node.identifier guard = chain at hg
  induction operands generalizing chain with
  | nil => exact hg
  | cons a rest ih =>
    rw [forall_mem_cons] at ho
    exact ih ho.2 _ (hand _ _ hg ho.1)

/-- The operands of a chain are arguments of the call and a new call, on the same arguments
or on a text. -/
theorem Verdict.forall_operands {o : Options} {dialect : Dialect} {v : Verdict} {args operands : List Json}
    {P : Json → Prop} (hop : v.operands o dialect id args = some operands) (ha : ∀ a ∈ args, P a) (hnull : P .null)
    (hcall : ∀ d : Diagnostic, P (Node.call (d.calleeNode o.target) args))
    (htext : ∀ text, P (Node.call (Diagnostic.deprecation.calleeNode o.target) [dialect.literal (.str text)])) :
    ∀ a ∈ operands, P a := by
  intro a hmem
  cases v with
  | untouched | expired => cases hop
  | asserted =>
    cases hop
    rw [map_id, mem_append, mem_filter, mem_singleton] at hmem
    rcases hmem with hmem | rfl
    · exact ha a hmem.1
    · exact hcall _
  | warned =>
    cases hop
    rw [mem_singleton.mp hmem]
    exact hcall _
  | deprecated text =>
    cases hop
    rw [mem_cons, mem_singleton] at hmem
    rcases hmem with rfl | rfl
    · cases hget : args[1]? with
      | none => exact hnull
      | some a => exact ha a (mem_of_getElem? hget)
    · exact htext text

end Statement

section Live
variable (expired : Tree Mark → Bool)

mutual
/-- The expression statements of a document in pre-order, without those inside an
expired one. -/
def live : Tree Mark → List (Tree Mark)
  | .obj m fields =>
    if Node.isNode (.obj m fields) then
      if Node.isStatement (.obj m fields) then
        .obj m fields :: if expired (.obj m fields) then [] else liveFields fields
      else liveFields fields
    else []
  | _ => []
def liveFields : List (String × Tree Mark) → List (Tree Mark)
  | [] => []
  | (key, t) :: rest =>
    (if Node.isMetadata key then []
      else match t with
        | .arr _ items => liveItems items
        | t => live t) ++ liveFields rest
def liveItems : List (Tree Mark) → List (Tree Mark)
  | [] => []
  | t :: rest => live t ++ liveItems rest
end

end Live

section Reshape
variable (drops : Tree Mark → Bool) (finish : Tree Mark → List (String × Json) → Json)

mutual
/-- The plain document with some parts dropped, and its nodes finished from the inside
out. In a list a dropped part leaves nothing behind, in a field an empty statement. -/
def reshape : Tree Mark → Json
  | .scalar s => .scalar s
  | .arr m items => (Tree.arr m items).erase
  | .obj m fields =>
    if Node.isNode (.obj m fields) then finish (.obj m fields) (reshapeFields fields)
    else (Tree.obj m fields).erase
def reshapeFields : List (String × Tree Mark) → List (String × Json)
  | [] => []
  | (key, t) :: rest =>
    (key,
      if Node.isMetadata key then t.erase
      else match t with
        | .arr _ items => .arr () (reshapeItems items)
        | t => if drops t then Node.emptyStatement else reshape t) :: reshapeFields rest
def reshapeItems : List (Tree Mark) → List Json
  | [] => []
  | t :: rest => if drops t then reshapeItems rest else reshape t :: reshapeItems rest
end

/-- What becomes of what a slot holds. -/
def reshapeInside : Tree Mark → Json
  | .arr _ items => .arr () (reshapeItems drops finish items)
  | t => if drops t then Node.emptyStatement else reshape drops finish t

/-- What becomes of a field. -/
def reshapeSlot (key : String) (t : Tree Mark) : Json :=
  if Node.isMetadata key then t.erase else reshapeInside drops finish t

theorem reshapeFields_eq (fields : Fields Mark) :
    reshapeFields drops finish fields = fields.map fun e => (e.1, reshapeSlot drops finish e.1 e.2) := by
  induction fields with
  | nil => rfl
  | cons e rest ih =>
    obtain ⟨key, t⟩ := e
    rw [map_cons, ← ih]
    cases t <;> simp only [reshapeFields, reshapeSlot, reshapeInside]

theorem get?_reshapeFields (fields : Fields Mark) (key : String) :
    Table.get? (reshapeFields drops finish fields) key =
      (Table.get? fields key).map (reshapeSlot drops finish key) := by
  rw [reshapeFields_eq]
  induction fields with
  | nil => rfl
  | cons e rest ih =>
    rw [map_cons, Table.get?, Table.get?, ih]
    split
    · next he => rw [Option.map_some, he]
    · rfl

theorem reshapeItems_eq (items : List (Tree Mark)) :
    reshapeItems drops finish items = (items.filter fun x => !drops x).map (reshape drops finish) := by
  induction items with
  | nil => rfl
  | cons x rest ih => cases hx : drops x <;> simp [reshapeItems, hx, ih]

end Reshape

/-- The fields alone make the node. -/
def bare (_ : Tree Mark) (fields : List (String × Json)) : Json := .obj () fields

/-- What a rewriting needs to know. -/
structure Rewriting where
  options : Options
  helpers : Table Scalar Helper
  dialect : Dialect
  guard : String

namespace Rewriting

variable (c : Rewriting)

/-- The statement with its fields rewritten. Under guard, its expression becomes the
parenthesized chain of the guard and the operands. -/
def finish (s : Tree Mark) (fields : List (String × Json)) : Json :=
  let operands := if Node.isStatement s then
      match verdict c.options c.helpers s with
      | .ok v => v.operands c.options c.dialect id (argumentsOf (expressionOf (.obj () fields)))
      | .error _ => none
    else none
  match operands with
  | some operands =>
    .obj () (Table.set fields "expression" (Node.parenthesized (guardChain (.str c.guard) operands)))
  | none => .obj () fields

def drops (s : Tree Mark) : Bool := isExpired c.options c.helpers s

/-- The rewritten document. -/
def rewrite : Tree Mark → Json := reshape c.drops c.finish

end Rewriting

end DebugGuards.Expansion
