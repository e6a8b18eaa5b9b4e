import DebugGuards.Printing.Statement
import DebugGuards.Proofs.Node.WellFormed
import DebugGuards.Proofs.Printing.Grammar

/-! Operator expressions print as they are read. A printed operand has parentheses just
where the grammar would otherwise take it apart, so that the phrase read is the expression
again. -/

namespace DebugGuards.Printing

open Node List

/-- An expression made of names by operators. -/
inductive Operation where
  | name (n : String)
  | node (operator : String) (left right : Operation)
deriving DecidableEq

/-- What a phrase says, its parentheses forgotten. -/
def Phrase.erase : Phrase → Operation
  | name n => .name n
  | parens p => p.erase
  | binary op l r => .node op l.erase r.erase

def Phrase.tokens : Phrase → List String
  | name n => [n]
  | parens p => "(" :: p.tokens ++ [")"]
  | binary op l r => l.tokens ++ op :: r.tokens

/-- The type of a node with a given operator. -/
def operationKind (op : String) : String :=
  if ["??", "||", "&&"].contains op then "LogicalExpression" else "BinaryExpression"

/-- A document is a tree of identifiers and of nodes with a known operator, which may have
further fields. -/
inductive Depicts {α : Type} : Tree α → Operation → Prop
  | name {t : Tree α} {n : String} (kind : kind? t = some "Identifier") (named : field? t "name" = some (.str n))
      (legal : isName n = true) : Depicts t (.name n)
  | node {t l r : Tree α} {op : String} {a b : Operation} (kind : kind? t = some (operationKind op))
      (operator : field? t "operator" = some (.str op)) (known : (power? op).isSome = true)
      (left : field? t "left" = some l) (right : field? t "right" = some r) (first : Depicts l a)
      (second : Depicts r b) : Depicts t (.node op a b)

namespace Operation

/-- Names can be read as such, and operators have a binding power. -/
def legal : Operation → Bool
  | name n => isName n
  | node op l r => (power? op).isSome && l.legal && r.legal

/-- The power that the place of an operand asks for. -/
def asked (op : String) (p : Nat) : Operation → Nat
  | name _ => p
  | node inner _ _ => if mixesNullish op inner then atomic else p

def leftPower (op : String) (l : Operation) : Nat := l.asked op (operandPowers op ((power? op).getD 0)).1

def rightPower (op : String) (r : Operation) : Nat := r.asked op (operandPowers op ((power? op).getD 0)).2

/-- The phrase that is printed in a place of a given power. -/
def phrase : Operation → Nat → Phrase
  | name n, p => if atomic < p then .parens (.name n) else .name n
  | node op l r, p =>
    let inner := Phrase.binary op (l.phrase (leftPower op l)) (r.phrase (rightPower op r))
    if (power? op).getD 0 < p then .parens inner else inner

end Operation

/-- A phrase as it is printed. -/
def Phrase.text : Phrase → String
  | name n => n
  | parens p => "(" ++ p.text ++ ")"
  | binary op l r => l.text ++ " " ++ op ++ " " ++ r.text

theorem Operation.erase_phrase (e : Operation) (p : Nat) : (e.phrase p).erase = e := by
  induction e generalizing p with
  | name n => rw [phrase]; split <;> rfl
  | node op l r ihl ihr =>
    rw [phrase]
    split <;> simp only [Phrase.erase, ihl, ihr]

theorem exists_of_kind? {α : Type} {t : Tree α} {k : String} (h : kind? t = some k) :
    ∃ m fields, t = .obj m fields ∧ Table.get? fields "type" = some (.str k) := by
  cases t with
  | scalar s => simp [kind?, kind] at h
  | arr m items => simp [kind?, kind] at h
  | obj m fields => exact ⟨m, fields, rfl, kind?_obj.mp h⟩

theorem require_of_field? {α : Type} {m : α} {fields : Fields α} {key : String} {v : Tree α}
    (h : field? (.obj m fields) key = some v) : (Tree.obj m fields).require key = .ok v := by
  rw [Tree.require, show Table.get? fields key = some v from h]

theorem bare_operation {α : Type} {indent : String} (op : String) (q : Part α) :
    bare indent (operationKind op) q = binary q := by
  rw [operationKind]
  split <;> rfl

theorem literal_operation (op : String) :
    (literalKinds.contains (operationKind op) && operationKind op != "TemplateLiteral") = false := by
  rw [operationKind]
  split <;> decide

section Printing

variable {α : Type} [Inhabited α] {indent : String} {t : Tree α} {e : Operation}

theorem get?_ofFields (fields : Fields α) (key : String) :
    Table.get? (Part.ofFields indent fields) key = (Table.get? fields key).map (Part.of indent) := by
  induction fields with
  | nil => simp [Part.ofFields, Table.get?]
  | cons f fields ih =>
    obtain ⟨k, v⟩ := f
    by_cases hk : k = key <;> simp [Part.ofFields, Table.get?, hk, ih]

theorem tree_of (t : Tree α) : (Part.of indent t).tree = t := by
  cases t <;> simp [Part.of, Part.tree, Part.silent]

/-- A node with its fields and nothing to print itself by. -/
def Part.node (indent : String) (m : α) (fields : List (String × Tree α)) : Part α :=
  .mk (.obj m fields) [] (Part.ofFields indent fields) (fun _ => .error .badShape) fun _ => .error .badShape

theorem expression_of (m : α) (fields : Fields α) (p : Nat) :
    (Part.of indent (.obj m fields)).expression p = printExpression indent (Part.node indent m fields) p := by
  rw [Part.of]
  rfl

section Node

variable {m : α} {fields : Fields α} {k text : String}

theorem require_node {key : String} {v : Tree α} (h : field? (.obj m fields) key = some v) :
    (Part.node indent m fields).require key = .ok (Part.of indent v) := by
  rw [field?, Tree.fields] at h
  simp [Part.require, Part.get?, Part.node, Part.tree, Part.fields, get?_ofFields, h, bind, Except.bind, pure,
    Except.pure]

theorem kind_node (h : Table.get? fields "type" = some (.str k)) : (Part.node indent m fields).kind = .ok (.str k) := by
  simp [Part.kind, Part.node, Part.tree, Tree.get, h]

/-- A node that is no literal has parentheses around it if it binds looser than its place
asks for. -/
theorem printExpression_bare {v : Tree α} {own : Nat} (hk : Table.get? fields "type" = some (.str k))
    (hl : (literalKinds.contains k && k != "TemplateLiteral") = false)
    (hb : bare indent k (Part.node indent m fields) = .ok (v, own)) (p : Nat) :
    printExpression indent (Part.node indent m fields) p =
      .ok (if own < p then .str ("(" ++ v.text ++ ")") else v) := by
  rw [printExpression, kind_node hk]
  simp only [bind, Except.bind, Tree.asKey, Tree.key?, Scalar.key, hl, hb, pure, Except.pure,
    Bool.false_eq_true, if_false]

theorem printExpression_node {own : Nat} (hk : Table.get? fields "type" = some (.str k))
    (hl : (literalKinds.contains k && k != "TemplateLiteral") = false)
    (hb : bare indent k (Part.node indent m fields) = .ok (.str text, own)) (p : Nat) :
    printExpression indent (Part.node indent m fields) p =
      .ok (.str (if own < p then "(" ++ text ++ ")" else text)) := by
  rw [printExpression_bare hk hl hb]
  split <;> rfl

theorem printExpression_literal (hk : Table.get? fields "type" = some (.str k))
    (hl : (literalKinds.contains k && k != "TemplateLiteral") = true) (p : Nat) :
    printExpression indent (Part.node indent m fields) p = literal (.obj m fields) := by
  rw [printExpression, kind_node hk]
  simp only [bind, Except.bind, Tree.asKey, Tree.key?, Scalar.key, hl, if_true]
  rfl

/-- An operation prints its operands with the operator between them. -/
theorem binary_node {op : String} {power p q : Nat} {l r a b : Tree α}
    (hop : field? (.obj m fields) "operator" = some (.str op)) (hpower : power? op = some power)
    (hl : field? (.obj m fields) "left" = some l) (hr : field? (.obj m fields) "right" = some r)
    (hp : operandPower op (Part.of indent l) (operandPowers op power).1 = .ok p)
    (hq : operandPower op (Part.of indent r) (operandPowers op power).2 = .ok q)
    (ha : (Part.of indent l).expression p = .ok a) (hb : (Part.of indent r).expression q = .ok b) :
    binary (Part.node indent m fields) = .ok (bound (a.text ++ " " ++ op ++ " " ++ b.text) power) := by
  rw [binary, show (Part.node indent m fields).tree = .obj m fields from rfl, require_of_field? hop]
  simp only [bind, Except.bind, Tree.asKey, Tree.key?, Scalar.key, hpower, require_node hl, require_node hr,
    hp, hq, ha, hb, pure, Except.pure]

end Node

theorem operandPower_other {k : String} (hk : kind? t = some k) (hne : k ≠ "LogicalExpression")
    (op : String) (p : Nat) : operandPower op (Part.of indent t) p = .ok p := by
  obtain ⟨m, fields, rfl, hk'⟩ := exists_of_kind? hk
  simp [operandPower, Part.hasKind, Part.kind, tree_of, Tree.get, hk', hne, bind, Except.bind, pure, Except.pure]

theorem operandPower_logical {inner : String} (hk : kind? t = some "LogicalExpression")
    (hop : field? t "operator" = some (.str inner)) (op : String) (p : Nat) :
    operandPower op (Part.of indent t) p = .ok (if mixesNullish op inner then atomic else p) := by
  obtain ⟨m, fields, rfl, hk'⟩ := exists_of_kind? hk
  simp only [operandPower, Part.hasKind, Part.kind, tree_of, Tree.get, hk', Option.getD_some, bind, Except.bind, pure,
    Except.pure, require_of_field? hop, Tree.asKey, Tree.key?, Scalar.key]
  rfl

theorem operandPower_operation {inner : String} (hk : kind? t = some (operationKind inner))
    (hop : field? t "operator" = some (.str inner)) (op : String) (p : Nat) :
    operandPower op (Part.of indent t) p = .ok (if mixesNullish op inner then atomic else p) := by
  by_cases hlog : ["??", "||", "&&"].contains inner = true
  · rw [operationKind, if_pos hlog] at hk
    exact operandPower_logical hk hop op p
  · -- a node that is not logical mixes with nothing
    have hmix : mixesNullish op inner = false := by
      simp only [contains_cons, contains_nil, Bool.or_false, Bool.or_eq_true, beq_iff_eq, not_or] at hlog
      simp [mixesNullish, hlog]
    rw [hmix, operandPower_other hk (by rw [operationKind, if_neg hlog]; decide)]
    rfl

theorem operandPower_eq (h : Depicts t e) (op : String) (p : Nat) :
    operandPower op (Part.of indent t) p = .ok (e.asked op p) := by
  cases h with
  | name kind => exact operandPower_other kind (by decide) op p
  | node kind operator => exact operandPower_operation kind operator op p

theorem expression_eq (h : Depicts t e) (p : Nat) :
    (Part.of indent t).expression p = .ok (.str (e.phrase p).text) := by
  induction h generalizing p with
  | @name t n kind named legal =>
    obtain ⟨m, fields, rfl, hk⟩ := exists_of_kind? kind
    have hbare : bare indent "Identifier" (Part.node indent m fields) = .ok (.str n, atomic) := by
      show (do return (← (Tree.obj m fields).require "name", atomic)) = _
      rw [require_of_field? named]
      rfl
    rw [expression_of, printExpression_node hk (by decide) hbare, Operation.phrase]
    split <;> rfl
  | @node t l r op a b kind operator known left right hl hr ihl ihr =>
    obtain ⟨m, fields, rfl, hk⟩ := exists_of_kind? kind
    obtain ⟨power, hpower⟩ := Option.isSome_iff_exists.mp known
    have hbinary := binary_node operator hpower left right (operandPower_eq hl op _) (operandPower_eq hr op _)
      (ihl _) (ihr _)
    rw [expression_of, printExpression_node hk (literal_operation op) ((bare_operation op _).trans hbinary),
      Operation.phrase, Operation.leftPower, Operation.rightPower, hpower, Option.getD_some]
    split <;> rfl

end Printing

section Reading

/-- Names can be read as such, and operators are known. -/
def Phrase.legal : Phrase → Bool
  | name n => isName n
  | parens p => p.legal
  | binary op l r => operators.contains op && l.legal && r.legal

theorem scan_operator {op : String} (hop : op ∈ operators) (rest : List Char) :
    scan [] (op.toList ++ ' ' :: rest) = (scan [] rest).map (op :: ·) := by
  have hall : ∀ op ∈ operators, holdsTogether [] op.toList = true ∧ isToken op.toList = true ∧ op.toList ≠ [] ∧
      joins op.toList ' ' = false := by decide +kernel
  obtain ⟨hh, ht, hne, hj⟩ := hall op hop
  have hnext : ∀ c ∈ (' ' :: rest).head?, joins op.toList c = false := by
    rintro c ⟨⟩
    exact hj
  rw [scan_token hh ht hne hnext, scan_gap (by decide), String.ofList_toList]

/-- The tokens of a printed phrase are those of the phrase. -/
theorem scan_phrase {p : Phrase} (hp : p.legal = true) {rest : List Char}
    (hrest : ∀ c ∈ rest.head?, isWordChar c = false) :
    scan [] (p.text.toList ++ rest) = (scan [] rest).map (p.tokens ++ ·) := by
  induction p generalizing rest with
  | name n =>
    simp only [Phrase.legal, isName, Bool.and_eq_true] at hp
    rw [Phrase.text, scan_word hp.1.1.2 (by simpa using hp.1.1.1) hrest, String.ofList_toList]
    rfl
  | parens p ih =>
    have hclose : ∀ c ∈ ([')'] ++ rest).head?, isWordChar c = false := by
      rintro c ⟨⟩
      decide
    rw [Phrase.text, String.toList_append, String.toList_append, append_assoc, append_assoc,
      show "(".toList = ['('] from rfl, show ")".toList = [')'] from rfl, scan_paren (.inl rfl), ih hp hclose,
      scan_paren (.inr rfl)]
    cases scan [] rest <;> simp [Phrase.tokens]
  | binary op l r ihl ihr =>
    simp only [Phrase.legal, Bool.and_eq_true, contains_iff_mem] at hp
    obtain ⟨⟨hop, hl⟩, hr⟩ := hp
    have hgap : ∀ c ∈ (' ' :: (op.toList ++ ' ' :: (r.text.toList ++ rest))).head?, isWordChar c = false := by
      rintro c ⟨⟩
      decide
    have htext : (Phrase.binary op l r).text.toList ++ rest =
        l.text.toList ++ ' ' :: (op.toList ++ ' ' :: (r.text.toList ++ rest)) := by
      simp [Phrase.text]
    rw [htext, ihl hl hgap, scan_gap (by decide), scan_operator hop, ihr hr hrest]
    cases scan [] rest <;> simp [Phrase.tokens]

/-- The symbols whose phrases are phrases of a given one, within a number of steps. -/
def Symbol.reach : Nat → Symbol → List Symbol
  | 0, a => [a]
  | n + 1, a => a :: a.units.flatMap (reach n)

theorem Derives.lift {n : Nat} {a b : Symbol} {ts : List String} {p : Phrase} (hb : b ∈ a.reach n)
    (h : Derives b ts p) : Derives a ts p := by
  induction n generalizing a with
  | zero => rw [mem_singleton.mp hb] at h; exact h
  | succ n ih =>
    rw [Symbol.reach, mem_cons, mem_flatMap] at hb
    rcases hb with rfl | ⟨c, hc, hb⟩
    · exact h
    · exact .unit hc (ih hb)

/-- The symbol of the phrases that an operator makes. -/
def symbolOf (op : String) : Symbol :=
  match (power? op).getD 0 with
  | 1 => .coalesce
  | 2 => .disjunction
  | 3 => .conjunction
  | 4 => .bitOr
  | 5 => .bitXor
  | 6 => .bitAnd
  | 7 => .equality
  | 8 => .relational
  | 9 => .shift
  | 10 => .additive
  | 11 => .multiplicative
  | _ => .exponentiation

theorem mem_operators_of_power? {op : String} (h : (power? op).isSome = true) : op ∈ operators := by
  unfold power? at h
  split at h
  all_goals first | decide | cases h

namespace Operation

/-- The symbol of what an operator makes in a place of a given power. -/
def placed (op : String) (p : Nat) : Symbol := if (power? op).getD 0 < p then .operand else symbolOf op

/-- The symbol of what is printed in a place of a given power. -/
def symbol : Operation → Nat → Symbol
  | name _, _ => .operand
  | node op _ _, p => placed op p

theorem mem_reach_expression {op : String} (hop : op ∈ operators) : symbolOf op ∈ Symbol.expression.reach 13 := by
  have hall : ∀ op ∈ operators, symbolOf op ∈ Symbol.expression.reach 13 := by decide +kernel
  exact hall op hop

/-- The powers asked of the operands of an operator and the symbols of its operands come to
the same thing. -/
theorem exists_production {op : String} (hop : op ∈ operators) :
    ∃ r, (symbolOf op).production? = some r ∧ op ∈ r.operators ∧
      ∀ e : Operation, e.legal = true →
        e.symbol (leftPower op e) ∈ r.left.reach 13 ∧ e.symbol (rightPower op e) ∈ r.right.reach 13 := by
  have hall : ∀ op ∈ operators, ∃ r ∈ (symbolOf op).production?, op ∈ r.operators ∧
      (.operand ∈ r.left.reach 13 ∧ .operand ∈ r.right.reach 13) ∧ ∀ inner ∈ operators,
        placed inner (if mixesNullish op inner then atomic else (operandPowers op ((power? op).getD 0)).1) ∈
          r.left.reach 13 ∧
        placed inner (if mixesNullish op inner then atomic else (operandPowers op ((power? op).getD 0)).2) ∈
          r.right.reach 13 := by
    decide +kernel
  obtain ⟨r, hr, hmem, hname, hnode⟩ := hall op hop
  refine ⟨r, hr, hmem, fun e he => ?_⟩
  cases e with
  | name n => exact hname
  | node inner a b =>
    simp only [legal, Bool.and_eq_true] at he
    exact hnode inner (mem_operators_of_power? he.1.1)

theorem legal_phrase {e : Operation} (he : e.legal = true) (p : Nat) : (e.phrase p).legal = true := by
  induction e generalizing p with
  | name n => rw [phrase]; split <;> exact he
  | node op l r ihl ihr =>
    simp only [legal, Bool.and_eq_true] at he
    have hinner : (Phrase.binary op (l.phrase (leftPower op l)) (r.phrase (rightPower op r))).legal = true := by
      simp [Phrase.legal, ihl he.1.2, ihr he.2, mem_operators_of_power? he.1.1]
    rw [phrase]
    split <;> exact hinner

/-- What is printed in a place is a phrase of the symbol that the place asks for. -/
theorem derives_phrase {e : Operation} (he : e.legal = true) (p : Nat) :
    Derives (e.symbol p) (e.phrase p).tokens (e.phrase p) := by
  induction e generalizing p with
  | name n =>
    have hname : Derives .operand [n] (.name n) := .name he
    have hreach : Symbol.operand ∈ Symbol.expression.reach 13 := by decide
    rw [phrase]
    split
    · exact .parens (hname.lift hreach)
    · exact hname
  | node op l r ihl ihr =>
    simp only [legal, Bool.and_eq_true] at he
    have hop := mem_operators_of_power? he.1.1
    obtain ⟨rule, hrule, hmem, hfits⟩ := exists_production hop
    have hinner :
        Derives (symbolOf op) (Phrase.binary op (l.phrase (leftPower op l)) (r.phrase (rightPower op r))).tokens
          (Phrase.binary op (l.phrase (leftPower op l)) (r.phrase (rightPower op r))) :=
      .binary hrule hmem ((ihl he.1.2 _).lift (hfits l he.1.2).1) ((ihr he.2 _).lift (hfits r he.2).2)
    rw [phrase, symbol, placed]
    split
    · exact .parens (hinner.lift (mem_reach_expression hop))
    · exact hinner

end Operation

theorem Depicts.legal {α : Type} {t : Tree α} {e : Operation} (h : Depicts t e) : e.legal = true := by
  induction h with
  | name _ _ legal => exact legal
  | node _ _ known _ _ _ _ ihl ihr => simp [Operation.legal, known, ihl, ihr]

end Reading

/-- A printed operator expression is a sequence of tokens that the grammar reads in one way
only, and what it reads is the expression. -/
theorem expressionSource_reads_back {α : Type} [Inhabited α] {t : Tree α} {e : Operation} (h : Depicts t e) :
    ∃ text ts p, expressionSource t 0 = .ok (.str text) ∧ tokens text = some ts ∧ Derives .expression ts p ∧
      p.erase = e ∧ ∀ q, Derives .expression ts q → q = p := by
  have hlegal := h.legal
  have htokens : tokens (e.phrase 0).text = some (e.phrase 0).tokens := by
    rw [tokens, ← append_nil (e.phrase 0).text.toList, scan_phrase (e.legal_phrase hlegal 0) (by simp)]
    simp [scan, put]
  have hsymbol : e.symbol 0 ∈ Symbol.expression.reach 13 := by
    cases e with
    | name n => exact show Symbol.operand ∈ Symbol.expression.reach 13 by decide
    | node op l r =>
      simp only [Operation.legal, Bool.and_eq_true] at hlegal
      exact Operation.mem_reach_expression (mem_operators_of_power? hlegal.1.1)
  have hderives : Derives .expression (e.phrase 0).tokens (e.phrase 0) := (e.derives_phrase hlegal 0).lift hsymbol
  exact ⟨(e.phrase 0).text, (e.phrase 0).tokens, e.phrase 0, expression_eq h 0, htokens, hderives, e.erase_phrase 0,
    fun q hq => hq.unique hderives rfl⟩

/-- The expression as a document. -/
def Operation.tree : Operation → Json
  | name n => identifier (.str n)
  | node op l r => make (operationKind op) [("operator", .str op), ("left", l.tree), ("right", r.tree)]

theorem Operation.depicts_tree {e : Operation} (he : e.legal = true) : Depicts e.tree e := by
  induction e with
  | name n => exact .name rfl rfl he
  | node op l r ihl ihr =>
    simp only [legal, Bool.and_eq_true] at he
    exact .node rfl rfl he.1.1 rfl rfl (ihl he.1.2) (ihr he.2)

/-- Operators of both associations, on both sides, and a mixture with `??`. -/
def mixedOperation : Operation :=
  .node "in" (.node "**" (.node "**" (.name "a") (.name "b")) (.node "**" (.name "c") (.name "d")))
    (.node "&&" (.node "??" (.name "e") (.node "||" (.name "f") (.name "g"))) (.node "-" (.name "h") (.name "i")))

theorem expressionSource_reads_back_mixed :
    Depicts mixedOperation.tree mixedOperation ∧
      ∃ text ts p, expressionSource mixedOperation.tree 0 = .ok (.str text) ∧ tokens text = some ts ∧
        Derives .expression ts p ∧ p.erase = mixedOperation ∧ ∀ q, Derives .expression ts q → q = p :=
  have h : Depicts mixedOperation.tree mixedOperation := Operation.depicts_tree (by decide +kernel)
  ⟨h, expressionSource_reads_back h⟩

example : expressionSource mixedOperation.tree 0 =
    .ok (.str "(a ** b) ** c ** d in ((e ?? (f || g)) && h - i)") := by
  rfl

end DebugGuards.Printing
