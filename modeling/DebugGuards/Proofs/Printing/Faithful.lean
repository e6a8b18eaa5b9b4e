import DebugGuards.Proofs.Printing.Fields
import DebugGuards.Proofs.Printing.Pieces

/-! Expressions that differ print differently, if four forms are left alone: a sign before
the same sign, an operator after an expression that has one before it, an assignment or a
choice to the left of `??`, and a call within what is made new. In these parentheses or a
blank would be needed and are not printed. Everything else is read back as it was. -/

namespace DebugGuards.Printing

open Node List

namespace Expression

section Syntax

/-- Induction over the parts of an expression, arguments by membership. -/
@[elab_as_elim]
theorem induct {P : Expression → Prop} (name : ∀ n, P (.name n)) (unary : ∀ op a, P a → P (.unary op a))
    (update : ∀ op before a, P a → P (.update op before a)) (binary : ∀ op l r, P l → P r → P (.binary op l r))
    (assignment : ∀ op l r, P l → P r → P (.assignment op l r))
    (conditional : ∀ t c a, P t → P c → P a → P (.conditional t c a))
    (call : ∀ c as, P c → (∀ a ∈ as, P a) → P (.call c as)) (new : ∀ c as, P c → (∀ a ∈ as, P a) → P (.new c as))
    (dot : ∀ o n, P o → P (.dot o n)) (index : ∀ o i, P o → P i → P (.index o i)) (e : Expression) : P e := by
  refine @Expression.rec P (fun as => ∀ a ∈ as, P a) name unary update binary assignment conditional call new dot index
    ?_ ?_ e
  · simp
  · intro a as ha has
    exact forall_mem_cons.mpr ⟨ha, has⟩

mutual
/-- All parts of an expression pass a test. -/
def every (test : Expression → Bool) : Expression → Bool
  | .name n => test (.name n)
  | .unary op a => test (.unary op a) && every test a
  | .update op before a => test (.update op before a) && every test a
  | .binary op l r => test (.binary op l r) && every test l && every test r
  | .assignment op l r => test (.assignment op l r) && every test l && every test r
  | .conditional t c a => test (.conditional t c a) && every test t && every test c && every test a
  | .call c as => test (.call c as) && every test c && everyOf test as
  | .new c as => test (.new c as) && every test c && everyOf test as
  | .dot o n => test (.dot o n) && every test o
  | .index o i => test (.index o i) && every test o && every test i
def everyOf (test : Expression → Bool) : List Expression → Bool
  | [] => true
  | a :: as => every test a && everyOf test as
end

theorem everyOf_iff {test : Expression → Bool} {as : List Expression} :
    everyOf test as = true ↔ ∀ a ∈ as, a.every test = true := by
  induction as with
  | nil => simp [everyOf]
  | cons a as ih => simp [everyOf, ih]

/-- A name or an access to a member. -/
def isTarget : Expression → Bool
  | .name _ | .dot _ _ | .index _ _ => true
  | _ => false

/-- Names can be read as such, operators are of their kind, and targets can be assigned to. -/
def legal : Expression → Bool
  | .name n => isName n
  | .unary op _ => unaryOperators.contains op
  | .update op _ _ => updateOperators.contains op
  | .binary op _ _ => (power? op).isSome
  | .assignment op l _ => assignmentOperators.contains op && l.isTarget
  | .dot _ n => isName n
  | _ => true

/-- A sign before an argument that starts with the same sign. -/
def repeats (op : String) : Expression → Bool
  | .unary inner _ => (op == "-" || op == "+") && inner == op
  | .update inner true _ => inner == op ++ op
  | _ => false

/-- An operator stands before the expression. -/
def isPrefixed : Expression → Bool
  | .unary _ _ | .update _ true _ => true
  | _ => false

/-- An assignment or a choice. -/
def isLoose : Expression → Bool
  | .assignment _ _ _ | .conditional _ _ _ => true
  | _ => false

/-- A call stands in what members are taken of, outside of parentheses. -/
def hasCall : Expression → Bool
  | .call _ _ => true
  | .dot o _ | .index o _ => o.hasCall
  | _ => false

/-- The expression is none of the four forms that would need more than is printed. -/
def plain : Expression → Bool
  | .unary op a => !a.repeats op
  | .update _ false a => !a.isPrefixed
  | .binary op l _ => !(op == "??" && l.isLoose)
  | .new c _ => !c.hasCall
  | _ => true

end Syntax

section Pieces

@[simp] def power : Expression → Nat
  | .name _ => atomic
  | .unary _ _ | .update _ _ _ => Printing.unary
  | .binary op _ _ => (power? op).getD 0
  | .assignment _ _ _ | .conditional _ _ _ => 1
  | .call _ _ | .new _ _ | .dot _ _ | .index _ _ => postfixed

/-- The power that the place of an operand asks for. -/
def asked (op : String) (p : Nat) : Expression → Nat
  | .binary inner _ _ => if mixesNullish op inner then atomic else p
  | _ => p

def leftPower (op : String) (l : Expression) : Nat := l.asked op (operandPowers op ((power? op).getD 0)).1

def rightPower (op : String) (r : Expression) : Nat := r.asked op (operandPowers op ((power? op).getD 0)).2

/-- The blank after an operator that is a word. -/
def blankAfter (op : String) : List String := if unaryGap op = "" then [] else [" "]

mutual
/-- The tokens and blanks that an expression prints as. -/
def pieces : Expression → List String
  | .name n => [n]
  | .unary op a => op :: (blankAfter op ++ enclose a.power Printing.unary a.pieces)
  | .update op true a => op :: enclose a.power Printing.unary a.pieces
  | .update op false a => enclose a.power Printing.unary a.pieces ++ [op]
  | .binary op l r =>
    enclose l.power (leftPower op l) l.pieces ++ " " :: op :: " " :: enclose r.power (rightPower op r) r.pieces
  | .assignment op l r => enclose l.power 0 l.pieces ++ " " :: op :: " " :: enclose r.power 1 r.pieces
  | .conditional t c a => enclose t.power 2 t.pieces ++ " " :: "?" :: " " :: (enclose c.power 1 c.pieces ++
      " " :: ":" :: " " :: enclose a.power 1 a.pieces)
  | .call c as => enclose c.power postfixed c.pieces ++ "(" :: (commas (piecesOf as) ++ [")"])
  | .new c as => "new" :: " " :: (enclose c.power postfixed c.pieces ++ "(" :: (commas (piecesOf as) ++ [")"]))
  | .dot o n => enclose o.power postfixed o.pieces ++ [".", n]
  | .index o i => enclose o.power postfixed o.pieces ++ "[" :: (enclose i.power 0 i.pieces ++ ["]"])
def piecesOf : List Expression → List (List String)
  | [] => []
  | a :: as => enclose a.power 1 a.pieces :: piecesOf as
end

theorem piecesOf_eq (as : List Expression) : piecesOf as = as.map fun a => enclose a.power 1 a.pieces := by
  induction as with
  | nil => rfl
  | cons a as ih => rw [piecesOf, ih, map_cons]

/-- The text printed in a place of a given power. -/
def text (e : Expression) (p : Nat) : String := String.join (enclose e.power p e.pieces)

theorem blankAfter_cases (op : String) : blankAfter op = [] ∨ blankAfter op = [" "] := by
  rw [blankAfter]
  split
  · exact .inl rfl
  · exact .inr rfl

theorem join_blankAfter (op : String) : String.join (blankAfter op) = unaryGap op := by
  rw [blankAfter, unaryGap]
  split <;> simp

end Pieces

end Expression

open Expression (every legal plain pieces text leftPower rightPower)

section Documents

variable {α : Type}

mutual
/-- A document is a node for an expression. Fields that such a node does not have are not
looked at, and neither is whether an attribute that is false is there. -/
def Represents : Expression → Tree α → Prop
  | .name n, t => IsIdentifier n t
  | .unary op a, t => kind? t = some "UnaryExpression" ∧ field? t "operator" = some (.str op) ∧
      FieldIs t "argument" (Represents a)
  | .update op before a, t => kind? t = some "UpdateExpression" ∧ field? t "operator" = some (.str op) ∧
      flagged t "prefix" = before ∧ FieldIs t "argument" (Represents a)
  | .binary op l r, t => kind? t = some (operationKind op) ∧ field? t "operator" = some (.str op) ∧
      FieldIs t "left" (Represents l) ∧ FieldIs t "right" (Represents r)
  | .assignment op l r, t => kind? t = some "AssignmentExpression" ∧ field? t "operator" = some (.str op) ∧
      FieldIs t "left" (Represents l) ∧ FieldIs t "right" (Represents r)
  | .conditional e c a, t => kind? t = some "ConditionalExpression" ∧ FieldIs t "test" (Represents e) ∧
      FieldIs t "consequent" (Represents c) ∧ FieldIs t "alternate" (Represents a)
  | .call c as, t => kind? t = some "CallExpression" ∧ flagged t "optional" = false ∧
      FieldIs t "callee" (Represents c) ∧ FieldLists t "arguments" (RepresentsAll as)
  | .new c as, t => kind? t = some "NewExpression" ∧ FieldIs t "callee" (Represents c) ∧
      FieldLists t "arguments" (RepresentsAll as)
  | .dot o n, t => kind? t = some "MemberExpression" ∧ flagged t "computed" = false ∧ flagged t "optional" = false ∧
      FieldIs t "object" (Represents o) ∧ FieldIs t "property" (IsIdentifier n)
  | .index o i, t => kind? t = some "MemberExpression" ∧ flagged t "computed" = true ∧ flagged t "optional" = false ∧
      FieldIs t "object" (Represents o) ∧ FieldIs t "property" (Represents i)
def RepresentsAll : List Expression → List (Tree α) → Prop
  | [], ts => ts = []
  | a :: as, ts => ∃ t rest, ts = t :: rest ∧ Represents a t ∧ RepresentsAll as rest
end

end Documents

section Printing

variable {α : Type} [Inhabited α] {indent : String} {m : α} {fields : Fields α} {k : String}

/-- The expression prints as its text wherever it stands. -/
def Prints (indent : String) (t : Tree α) (e : Expression) : Prop :=
  ∀ p, (Part.of indent t).expression p = .ok (.str (e.text p))

theorem arguments_node {n : α} {items : List (Tree α)} {as : List Expression}
    (h : field? (.obj m fields) "arguments" = some (.arr n items)) (hp : List.Forall₂ (Prints indent) items as) :
    arguments (Part.node indent m fields) = .ok (String.join (commas (Expression.piecesOf as))) := by
  have hmap : (items.map (Part.of indent)).mapM (fun a => a.expression 1) =
      (.ok ((as.map fun a => a.text 1).map Tree.str) : Printed (List (Tree α))) := by
    clear h
    induction hp with
    | nil => rfl
    | cons hd _ ih =>
      rw [map_cons, mapM_cons, hd 1, ih]
      rfl
  rw [arguments, elementsOf_node h]
  simp only [bind, Except.bind, hmap]
  rw [commaJoin_str, join_commas, Expression.piecesOf_eq, List.map_map]
  rfl

omit [Inhabited α] in
theorem forall₂_of_representsAll {items : List (Tree α)} {as : List Expression} {P : Tree α → Expression → Prop}
    (h : RepresentsAll as items) (hp : ∀ a ∈ as, ∀ t, Represents a t → P t a) : List.Forall₂ P items as := by
  induction as generalizing items with
  | nil =>
    obtain rfl := h
    exact .nil
  | cons a as ih =>
    obtain ⟨t, rest, rfl, ht, hrest⟩ := h
    rw [forall_mem_cons] at hp
    exact .cons (hp.1 t ht) (ih hrest hp.2)

/-- A node prints if its kind does. -/
theorem prints_of_bare {t : Tree α} {e : Expression} (hk : kind? t = some k)
    (hl : (literalKinds.contains k && k != "TemplateLiteral") = false)
    (hb : ∀ m fields, t = .obj m fields →
      bare indent k (Part.node indent m fields) = .ok (.str (String.join e.pieces), e.power)) : Prints indent t e := by
  obtain ⟨m, fields, rfl, hk'⟩ := exists_of_kind? hk
  intro p
  rw [expression_of, printExpression_node hk' hl (hb m fields rfl), text, join_enclose]

theorem operandPower_represented {t : Tree α} {e : Expression} (h : Represents e t) (op : String) (p : Nat) :
    operandPower op (Part.of indent t) p = .ok (e.asked op p) := by
  cases e with
  | binary inner l r => exact operandPower_operation h.1 h.2.1 op p
  | name | unary | update | assignment | conditional | call | new | dot | index =>
    exact operandPower_other h.1 (by decide) op p

theorem prints_of_represents {e : Expression} (he : e.every legal = true) {t : Tree α} (h : Represents e t) :
    Prints indent t e := by
  induction e using Expression.induct generalizing t with
  | name n =>
    refine prints_of_bare h.1 (by decide) fun m fields ht => ?_
    subst ht
    rw [bare_identifier h]
    simp [pieces]
  | unary op a ih =>
    obtain ⟨hk, hop, u, hu, ha⟩ := h
    simp only [every, Bool.and_eq_true] at he
    refine prints_of_bare hk (by decide) fun m fields ht => ?_
    subst ht
    show prefixed (Part.node indent m fields) = _
    rw [prefixed, show (Part.node indent m fields).tree = .obj m fields from rfl, require_of_field? hop]
    simp only [bind, Except.bind, Tree.asText, textAt_node hu (ih he.2 ha _), pure, Except.pure]
    simp [bound, pieces, text, Expression.join_blankAfter, String.append_assoc]
  | update op before a ih =>
    obtain ⟨hk, hop, hbefore, u, hu, ha⟩ := h
    simp only [every, Bool.and_eq_true] at he
    refine prints_of_bare hk (by decide) fun m fields ht => ?_
    subst ht
    show update (Part.node indent m fields) = _
    rw [update, show (Part.node indent m fields).tree = .obj m fields from rfl, require_of_field? hop]
    simp only [bind, Except.bind, textAt_node hu (ih he.2 ha _), flag_node, hbefore, pure, Except.pure]
    cases before <;> simp [bound, pieces, text, Tree.text]
  | binary op l r ihl ihr =>
    obtain ⟨hk, hop, ⟨u, hu, hl⟩, v, hv, hr⟩ := h
    simp only [every, legal, Bool.and_eq_true] at he
    obtain ⟨power, hpower⟩ := Option.isSome_iff_exists.mp he.1.1
    refine prints_of_bare hk (literal_operation op) fun m fields ht => ?_
    subst ht
    rw [bare_operation, binary_node hop hpower hu hv (operandPower_represented hl op _)
      (operandPower_represented hr op _) (ihl he.1.2 hl _) (ihr he.2 hr _)]
    simp [bound, pieces, text, leftPower, rightPower, hpower,
      Tree.text, String.append_assoc]
  | assignment op l r ihl ihr =>
    obtain ⟨hk, hop, ⟨u, hu, hl⟩, v, hv, hr⟩ := h
    simp only [every, Bool.and_eq_true] at he
    refine prints_of_bare hk (by decide) fun m fields ht => ?_
    subst ht
    show assignment (Part.node indent m fields) = _
    rw [assignment, show (Part.node indent m fields).tree = .obj m fields from rfl, require_of_field? hop]
    simp only [bind, Except.bind, textAt_node hu (ihl he.1.2 hl _), textAt_node hv (ihr he.2 hr _), pure, Except.pure]
    simp [bound, pieces, text, Tree.text, String.append_assoc]
  | conditional e c a ihe ihc iha =>
    obtain ⟨hk, ⟨u, hu, ht⟩, ⟨v, hv, hc⟩, w, hw, ha⟩ := h
    simp only [every, Bool.and_eq_true] at he
    refine prints_of_bare hk (by decide) fun m fields ht' => ?_
    subst ht'
    show conditional (Part.node indent m fields) = _
    rw [conditional]
    simp only [bind, Except.bind, textAt_node hu (ihe he.1.1.2 ht _), textAt_node hv (ihc he.1.2 hc _),
      textAt_node hw (iha he.2 ha _), pure, Except.pure]
    simp [bound, pieces, text, ← String.toList_inj]
  | call c as ihc ihas =>
    obtain ⟨hk, hopt, ⟨u, hu, hc⟩, n, items, hitems, has⟩ := h
    simp only [every, Bool.and_eq_true, Expression.everyOf_iff] at he
    refine prints_of_bare hk (by decide) fun m fields ht => ?_
    subst ht
    show call (Part.node indent m fields) = _
    rw [call]
    have hargs := arguments_node hitems (forall₂_of_representsAll has fun a ha t => ihas a ha (he.2 a ha))
    simp only [bind, Except.bind, textAt_node hu (ihc he.1.2 hc _), flag_node, hopt, hargs, pure, Except.pure]
    simp [bound, pieces, text, String.append_assoc]
  | new c as ihc ihas =>
    obtain ⟨hk, ⟨u, hu, hc⟩, n, items, hitems, has⟩ := h
    simp only [every, Bool.and_eq_true, Expression.everyOf_iff] at he
    refine prints_of_bare hk (by decide) fun m fields ht => ?_
    subst ht
    show new (Part.node indent m fields) = _
    rw [new]
    have hargs := arguments_node hitems (forall₂_of_representsAll has fun a ha t => ihas a ha (he.2 a ha))
    simp only [bind, Except.bind, textAt_node hu (ihc he.1.2 hc _), hargs, pure, Except.pure]
    simp [bound, pieces, text, ← String.toList_inj]
  | dot o n iho =>
    obtain ⟨hk, hcomp, hopt, ⟨u, hu, ho⟩, v, hv, hn⟩ := h
    simp only [every, legal, Bool.and_eq_true] at he
    refine prints_of_bare hk (by decide) fun m fields ht => ?_
    subst ht
    show member (Part.node indent m fields) = _
    rw [member]
    simp only [bind, Except.bind, textAt_node hu (iho he.2 ho _), flag_node, hcomp, hopt,
      textAt_node hv (expression_identifier hn (Nat.zero_le _)), pure, Except.pure]
    simp [bound, pieces, text, String.append_assoc]
  | index o i iho ihi =>
    obtain ⟨hk, hcomp, hopt, ⟨u, hu, ho⟩, v, hv, hi⟩ := h
    simp only [every, Bool.and_eq_true] at he
    refine prints_of_bare hk (by decide) fun m fields ht => ?_
    subst ht
    show member (Part.node indent m fields) = _
    rw [member]
    simp only [bind, Except.bind, textAt_node hu (iho he.1.2 ho _), flag_node, hcomp,
      textAt_node hv (ihi he.2 hi _), pure, Except.pure]
    simp [bound, pieces, text, String.append_assoc]

end Printing

section Cutting

namespace Expression

/-- A legal expression that is none of the four forms. -/
def sound (e : Expression) : Bool := e.legal && e.plain

theorem lead?_name {n : String} (h : isName n = true) : lead? n = some .name := by
  have hall : ∀ t ∈ "(" :: "new" :: unaryOperators ++ updateOperators, isName t = false := by decide
  have hne : ∀ t ∈ "(" :: "new" :: unaryOperators ++ updateOperators, n ≠ t := by
    rintro t ht rfl
    rw [hall n ht] at h
    cases h
  simp only [cons_append, forall_mem_cons, forall_mem_append] at hne
  have hu : n ∉ unaryOperators := fun hn => hne.2.2.1 n hn rfl
  have hd : n ∉ updateOperators := fun hn => hne.2.2.2 n hn rfl
  simp [lead?, hne.1, hne.2.1, hu, hd, h]

theorem ne_operator_of_isName {n : String} (h : isName n = true) : n ∉ unaryOperators ++ updateOperators := by
  have hall : ∀ t ∈ unaryOperators ++ updateOperators, isName t = false := by decide
  intro hn
  rw [hall n hn] at h
  cases h

theorem pieces_ne_nil (e : Expression) : e.pieces ≠ [] := by
  cases e with
  | update op before a => cases before <;> simp [pieces]
  | name | unary | binary | assignment | conditional | call | new | dot | index => simp [pieces]

theorem power?_le {op : String} (h : (power? op).isSome = true) : (power? op).getD 0 ≤ 12 := by
  have hall : ∀ op ∈ operators, (power? op).getD 0 ≤ 12 := by decide
  exact hall op (mem_operators_of_power? h)

theorem power_of_isPrefixed {e : Expression} (h : e.isPrefixed = true) : e.power = Printing.unary := by
  cases e with
  | unary | update => rfl
  | name | binary | assignment | conditional | call | new | dot | index => cases h

/-- What has no operator before it does not start with one. -/
theorem head_pieces {e : Expression} (he : e.every sound = true) (hp : Printing.unary ≤ e.power)
    (hn : e.isPrefixed = false) : ∀ b ∈ e.pieces.head?, b ∉ unaryOperators ++ updateOperators := by
  -- down the left side, as long as there are no parentheses
  have left : ∀ {a : Expression} {q : Nat} (ps : List String),
      (Printing.unary ≤ a.power → a.isPrefixed = false → ∀ b ∈ a.pieces.head?, b ∉ unaryOperators ++ updateOperators) →
      Printing.unary ≤ q → (q ≤ a.power → a.isPrefixed = false) →
      ∀ b ∈ (enclose a.power q a.pieces ++ ps).head?, b ∉ unaryOperators ++ updateOperators := by
    intro a q ps ih hq hna b hb
    rw [enclose] at hb
    split at hb
    · obtain rfl : "(" = b := Option.some.inj hb
      decide
    · rw [head?_append_of_ne_nil _ a.pieces_ne_nil] at hb
      exact ih (by omega) (hna (by omega)) b hb
  have tight : ∀ {a : Expression}, postfixed ≤ a.power → a.isPrefixed = false := by
    intro a ha
    refine Bool.eq_false_iff.mpr fun h => ?_
    rw [power_of_isPrefixed h] at ha
    exact absurd ha (by decide)
  induction e using Expression.induct with
  | name n =>
    simp only [every, sound, legal, Bool.and_eq_true] at he
    simpa [pieces] using ne_operator_of_isName he.1
  | unary => cases hn
  | update op before a ih =>
    cases before with
    | true => cases hn
    | false =>
      simp only [every, sound, plain, Bool.and_eq_true, Bool.not_eq_true'] at he
      exact left [op] (ih he.2) le_rfl fun _ => he.1.2
  | binary op l r =>
    simp only [every, sound, legal, Bool.and_eq_true] at he
    exact absurd (hp.trans (power?_le he.1.1.1)) (by decide)
  | assignment | conditional => exact absurd hp (show ¬Printing.unary ≤ 1 by decide)
  | call c as ih =>
    simp only [every, Bool.and_eq_true] at he
    exact left _ (ih he.1.2) (by decide) tight
  | new => simp [pieces]; decide
  | dot o n ih =>
    simp only [every, Bool.and_eq_true] at he
    exact left _ (ih he.2) (by decide) tight
  | index o i ih =>
    simp only [every, Bool.and_eq_true] at he
    exact left _ (ih he.1.2) (by decide) tight

theorem apart_argument {op : String} {a : Expression} (hop : op ∈ unaryOperators) (hblank : blankAfter op = [])
    (ha : a.every sound = true) (hr : a.repeats op = false) (hp : Printable (enclose a.power Printing.unary a.pieces)) :
    ∀ b ∈ (enclose a.power Printing.unary a.pieces).head?, Apart op b := by
  have hall : ∀ op ∈ unaryOperators, blankAfter op = [] → op.toList.all isWordChar = false ∧
      (∀ b ∈ ["(", "new"], Apart op b) ∧
      (∀ b ∈ unaryOperators, ((op == "-" || op == "+") && b == op) = false → Apart op b) ∧
      ∀ b ∈ updateOperators, (b == op ++ op) = false → Apart op b := by
    decide +kernel
  obtain ⟨hword, hother, hunary, hupdate⟩ := hall op hop hblank
  intro b hb
  by_cases hpre : Printing.unary ≤ a.power ∧ a.isPrefixed = true
  · rw [enclose, if_neg (by omega)] at hb
    cases a with
    | unary inner x =>
      simp only [every, sound, legal, Bool.and_eq_true, contains_iff_mem] at ha
      obtain rfl : inner = b := by simpa [pieces] using hb
      exact hunary inner ha.1.1 hr
    | update inner before x =>
      simp only [every, sound, legal, Bool.and_eq_true, contains_iff_mem] at ha
      cases before with
      | true =>
        obtain rfl : inner = b := by simpa [pieces] using hb
        exact hupdate inner ha.1.1 hr
      | false => cases hpre.2
    | name | binary | assignment | conditional | call | new | dot | index => cases hpre.2
  · -- the argument starts with a name, a parenthesis or `new`
    have hnot : b ∉ unaryOperators ++ updateOperators := by
      rw [enclose] at hb
      split at hb
      · obtain rfl : "(" = b := Option.some.inj hb
        decide
      · exact head_pieces ha (by omega) (by simpa using fun h => hpre ⟨by omega, h⟩) b hb
    have hlead : (lead? b).isSome = true := by
      obtain ⟨x, hx, h⟩ := hp.first
      rwa [Option.mem_unique hb hx]
    rcases lead?_cases hlead with h | h
    · rw [cons_append, cons_append, mem_cons, mem_cons] at h
      rcases h with rfl | rfl | h
      · exact hother "(" (by decide)
      · exact hother "new" (by decide)
      · exact absurd h hnot
    · exact apart_name hword h

theorem printable_commas {as : List Expression} (h : ∀ a ∈ as, Printable a.pieces) :
    commas (piecesOf as) = [] ∨ Printable (commas (piecesOf as)) := by
  cases as with
  | nil => exact .inl rfl
  | cons a as =>
    refine .inr (Printable.commas (fun ps hps => ?_) (by simp [piecesOf]))
    rw [piecesOf_eq] at hps
    obtain ⟨b, hb, rfl⟩ := mem_map.mp hps
    exact (h b hb).enclose _ _

/-- No token of a printed expression runs into the next one. -/
theorem printable_pieces {e : Expression} (he : e.every sound = true) : Printable e.pieces := by
  induction e using Expression.induct with
  | name n =>
    simp only [every, sound, legal, Bool.and_eq_true] at he
    exact .name he.1 (by rw [lead?_name he.1]; rfl)
  | unary op a ih =>
    simp only [every, sound, legal, plain, Bool.and_eq_true, Bool.not_eq_true', contains_iff_mem] at he
    obtain ⟨⟨hop, hr⟩, ha⟩ := he
    have hall : ∀ op ∈ unaryOperators, (lead? op).isSome = true ∧ op ∈ knownTokens := by decide
    obtain ⟨hlead, hknown⟩ := hall op hop
    have hin := (ih ha).enclose a.power Printing.unary
    rw [pieces]
    rcases blankAfter_cases op with hblank | hblank <;> rw [hblank]
    · exact hin.led hlead hknown (apart_argument hop hblank ha hr hin)
    · exact hin.word hlead hknown
  | update op before a ih =>
    simp only [every, sound, legal, Bool.and_eq_true, contains_iff_mem] at he
    have hall : ∀ op ∈ updateOperators, (lead? op).isSome = true ∧ op ∈ knownTokens ∧ op ∈ openers ∧ op ∈ followers ∧
        closes op = true := by decide
    obtain ⟨hlead, hknown, hopen, hfollow, hclose⟩ := hall op he.1.1
    have hin := (ih he.2).enclose a.power Printing.unary
    cases before with
    | true => exact hin.led hlead hknown (hin.apart_first hopen)
    | false =>
      exact hin.append hfollow (by simpa using isPiece_known hknown) (isChain_singleton op) ⟨op, rfl, hclose⟩
  | binary op l r ihl ihr =>
    simp only [every, sound, legal, Bool.and_eq_true] at he
    have hknown : op ∈ knownTokens := by
      simp only [knownTokens, mem_append]
      exact .inl (.inl (.inl (.inr (mem_operators_of_power? he.1.1.1))))
    exact ((ihl he.1.2).enclose _ _).joined ((ihr he.2).enclose _ _) hknown
  | assignment op l r ihl ihr =>
    simp only [every, sound, legal, Bool.and_eq_true, contains_iff_mem] at he
    have hknown : op ∈ knownTokens := by
      simp only [knownTokens, mem_append]
      exact .inr he.1.1.1.1
    exact ((ihl he.1.2).enclose _ _).joined ((ihr he.2).enclose _ _) hknown
  | conditional t c a iht ihc iha =>
    simp only [every, Bool.and_eq_true] at he
    have hbranches := ((ihc he.1.2).enclose c.power 1).joined ((iha he.2).enclose a.power 1)
      (show ":" ∈ knownTokens by decide)
    exact ((iht he.1.1.2).enclose _ _).joined hbranches (by decide)
  | call c as ihc ihas =>
    simp only [every, Bool.and_eq_true, everyOf_iff] at he
    exact ((ihc he.1.2).enclose _ _).bracketed (printable_commas fun a ha => ihas a ha (he.2 a ha)) (by decide)
  | new c as ihc ihas =>
    simp only [every, Bool.and_eq_true, everyOf_iff] at he
    exact (((ihc he.1.2).enclose _ _).bracketed (printable_commas fun a ha => ihas a ha (he.2 a ha)) (by decide)).word
      (by decide) (by decide)
  | dot o n ih =>
    simp only [every, sound, legal, Bool.and_eq_true] at he
    refine ((ih he.2).enclose _ _).append (by decide) ?_ ?_ ⟨n, rfl, by simp [closes, he.1.1]⟩
    · simpa using ⟨isPiece_known (by decide), isPiece_name he.1.1⟩
    · exact isChain_pair.mpr (apart_name (by decide) he.1.1)
  | index o i iho ihi =>
    simp only [every, Bool.and_eq_true] at he
    exact ((iho he.1.2).enclose _ _).bracketed (.inr ((ihi he.2).enclose _ _)) (by decide)

end Expression

end Cutting

section Reading

namespace Expression

/-- The tightest place in which the expression is read to its end. -/
def level (e : Expression) : Nat :=
  if e.hasCall then postfixed else if postfixed ≤ e.power then atomic else e.power

/-- The power of the place in which the last operand of an expression is read. -/
def trailing? : Expression → Option Nat
  | .unary _ _ | .update _ true _ => some Printing.unary
  | .binary op _ _ => some (operandPowers op ((power? op).getD 0)).2
  | .assignment _ _ _ | .conditional _ _ _ => some 1
  | _ => none

theorem le_level {e : Expression} {q : Nat} (hq : q ≤ e.power) (hp : q ≤ postfixed) : q ≤ e.level := by
  rw [level]
  split
  · exact hp
  split
  · exact hp.trans (by decide)
  · exact hq

theorem level_eq_atomic {e : Expression} (hp : postfixed ≤ e.power) (hc : e.hasCall = false) : e.level = atomic := by
  rw [level, hc, if_neg Bool.false_ne_true, if_pos hp]

theorem level_le (e : Expression) : e.level ≤ atomic := by
  rw [level]
  split
  · decide
  split
  · exact le_rfl
  · exact (Nat.lt_of_not_le ‹_›).le.trans (by decide)

theorem level_binary {op : String} {l r : Expression} (h : (power? op).isSome = true) :
    (binary op l r).level = (power? op).getD 0 := by
  rw [level, if_neg (by simp [hasCall]), if_neg fun hp => absurd (hp.trans (power?_le h)) (by decide), power]

/-- An access to a member is read as far as what it is an access to. -/
theorem level_member {o e : Expression} (ho : postfixed ≤ o.power) (hp : e.power = postfixed)
    (hc : e.hasCall = o.hasCall) : e.level = o.level := by
  rw [level, level, hc, if_pos ho, if_pos hp.ge]

theorem le_asked {op : String} {e : Expression} {p q : Nat} (ha : p ≤ atomic) (hq : p ≤ q) : p ≤ e.asked op q := by
  cases e with
  | binary inner l r =>
    rw [asked]
    split
    · exact ha
    · exact hq
  | name | unary | update | assignment | conditional | call | new | dot | index => exact hq

theorem le_trailing {e : Expression} : ∀ r ∈ e.trailing?, e.power ≤ r := by
  intro r hr
  cases e with
  | binary op l x =>
    obtain rfl := Option.some.inj hr
    rw [power, operandPowers]
    split
    · exact le_rfl
    · exact Nat.le_succ _
  | update op before a =>
    cases before with
    | true =>
      obtain rfl := Option.some.inj hr
      exact le_rfl
    | false => cases hr
  | unary | assignment | conditional =>
    obtain rfl := Option.some.inj hr
    exact le_rfl
  | name | call | new | dot | index => cases hr

/-- What is taken as a whole has no operand at its end. -/
theorem trailing?_eq_none {e : Expression} (hb : e.legal = true) (hp : Printing.unary ≤ e.power)
    (hn : e.isPrefixed = false) : e.trailing? = none := by
  cases e with
  | binary op l r => exact absurd (hp.trans (power?_le hb)) (by decide)
  | update op before a =>
    cases before with
    | true => cases hn
    | false => rfl
  | unary => cases hn
  | assignment | conditional => exact absurd hp (show ¬Printing.unary ≤ 1 by decide)
  | name | call | new | dot | index => rfl

/-- What has been read up to the end of the expression is gone on with as if it had been
read before. -/
def ReadsBack (e : Expression) : Prop :=
  ∀ (p : Nat) (ts us : List String) (f : Expression), p ≤ e.level → (∀ r ∈ e.trailing?, Stops r ts) →
    Reads (.rest p e) ts f us → Reads (.expression p) (tokensOf e.pieces ++ ts) f us

variable {e f : Expression} {p q : Nat} {ts us : List String}

theorem stops_close (p : Nat) (ts : List String) : Stops p (")" :: ts) := by
  rintro t ⟨⟩
  exact role?_of_none (by decide) p

/-- An expression in its place is gone on with, whether or not it has parentheses. -/
theorem ReadsBack.placed (h : ReadsBack e) (hp : q ≤ e.power → p ≤ e.level)
    (hs : q ≤ e.power → ∀ r ∈ e.trailing?, Stops r ts) (hr : Reads (.rest p e) ts f us) :
    Reads (.expression p) (tokensOf (enclose e.power q e.pieces) ++ ts) f us := by
  rw [tokensOf_enclose, enclose]
  split
  · have hinner : Reads (.expression 0) (tokensOf e.pieces ++ ")" :: ts) e (")" :: ts) :=
      h 0 _ _ e (Nat.zero_le _) (fun r _ => stops_close r ts) (.stop (stops_close 0 ts))
    simp only [cons_append, append_assoc, nil_append]
    exact .parens (by decide) hinner hr
  · exact h p ts us f (hp (by omega)) (hs (by omega)) hr

/-- An expression in its place is read to its end, also where less is asked for. -/
theorem ReadsBack.whole (h : ReadsBack e) (hpq : p ≤ q) (hp : p ≤ postfixed) (hs : Stops p ts) :
    Reads (.expression p) (tokensOf (enclose e.power q e.pieces) ++ ts) e ts :=
  h.placed (fun hq => le_level (hpq.trans hq) hp)
    (fun hq r hr => hs.mono (hpq.trans (hq.trans (le_trailing r hr)))) (.stop hs)

theorem roleOf?_operator {op : String} (hop : op ∈ operators) : roleOf? op = some (.binary ((power? op).getD 0)) := by
  have hall : ∀ op ∈ operators, roleOf? op = some (.binary ((power? op).getD 0)) := by decide
  exact hall op hop

/-- The operator after a left operand is not taken for one within it. -/
theorem stops_left {op : String} {l : Expression} (hop : op ∈ operators) (hl : l.legal = true)
    (hplain : (op == "??" && l.isLoose) = false) (hq : leftPower op l ≤ l.power) :
    ∀ r ∈ l.trailing?, Stops r (op :: ts) := by
  have hall : ∀ op ∈ operators, (power? op).getD 0 < Printing.unary ∧
      (1 < (operandPowers op ((power? op).getD 0)).1 ∨ op = "??") ∧ ∀ inner ∈ operators,
        (if mixesNullish op inner then atomic else (operandPowers op ((power? op).getD 0)).1) ≤ (power? inner).getD 0 →
          (power? op).getD 0 < (operandPowers inner ((power? inner).getD 0)).2 := by decide
  obtain ⟨hunary, hloose, hbinary⟩ := hall op hop
  intro r hr
  suffices hlt : (power? op).getD 0 < r by
    rintro t ⟨⟩
    exact role?_of_lt (roleOf?_operator hop) hlt
  cases l with
  | binary inner x y =>
    obtain rfl := Option.some.inj hr
    exact hbinary inner (mem_operators_of_power? hl) hq
  | unary inner x =>
    obtain rfl := Option.some.inj hr
    exact hunary
  | update inner before x =>
    cases before with
    | true =>
      obtain rfl := Option.some.inj hr
      exact hunary
    | false => cases hr
  | assignment | conditional =>
    rcases hloose with h | rfl
    · exact absurd hq (Nat.not_le_of_lt h)
    · cases hplain
  | name | call | new | dot | index => cases hr

/-- The arguments of a call are read, some of them being read already. -/
theorem reads_arguments {as before : List Expression} (fresh : Bool) (c : Expression) (hne : as ≠ [])
    (h : ∀ a ∈ as, a.every sound = true ∧ ReadsBack a) :
    Reads (.arguments fresh c before) (tokensOf (commas (piecesOf as)) ++ ")" :: ts)
      (invoke fresh c (before ++ as)) ts := by
  induction as generalizing before with
  | nil => exact absurd rfl hne
  | cons a as ih =>
    rw [forall_mem_cons] at h
    obtain ⟨⟨hsound, hback⟩, hrest⟩ := h
    obtain ⟨t, us, htokens, ht⟩ := ((printable_pieces hsound).enclose a.power 1).exists_tokensOf
    cases as with
    | nil =>
      have hread := hback.whole (q := 1) le_rfl (by decide) (stops_close 1 ts)
      rw [piecesOf, piecesOf, commas]
      rw [htokens] at hread ⊢
      exact .last ht hread
    | cons b as =>
      have hcomma : Stops 1 ("," :: (tokensOf (commas (piecesOf (b :: as))) ++ ")" :: ts)) := by
        rintro t ⟨⟩
        exact role?_of_none (by decide) 1
      have hread := hback.whole (q := 1) le_rfl (by decide) hcomma
      have htail := @ih (before ++ [a]) (cons_ne_nil b as) hrest
      rw [append_assoc, singleton_append] at htail
      rw [piecesOf, piecesOf, commas, ← piecesOf, tokensOf_append, tokensOf_cons (by decide), tokensOf_blank,
        append_assoc, cons_append]
      rw [htokens] at hread ⊢
      exact .more ht hread htail

theorem reads_listed {as : List Expression} (fresh : Bool) (c : Expression)
    (h : ∀ a ∈ as, a.every sound = true ∧ ReadsBack a) :
    Reads (.arguments fresh c []) (tokensOf (commas (piecesOf as)) ++ ")" :: ts) (invoke fresh c as) ts := by
  cases as with
  | nil => exact .none rfl
  | cons a as => exact reads_arguments fresh c (cons_ne_nil a as) h

theorem ReadsBack.head (h : ReadsBack e) (he : e.legal = true) (hp : postfixed ≤ e.power → p ≤ e.level)
    (hr : Reads (.rest p e) ts f us) :
    Reads (.expression p) (tokensOf (enclose e.power postfixed e.pieces) ++ ts) f us := by
  refine h.placed hp (fun hq r hr => ?_) hr
  have hn : e.isPrefixed = false := Bool.eq_false_iff.mpr fun h => by
    rw [power_of_isPrefixed h] at hq
    exact absurd hq (by decide)
  rw [trailing?_eq_none he (le_trans (by decide) hq) hn] at hr
  cases hr

theorem legal_of_every {e : Expression} (he : e.every sound = true) : e.legal = true := by
  cases e <;> simp_all [every, sound]

/-- The tokens of a printed expression are read as the expression. -/
theorem readsBack {e : Expression} (he : e.every sound = true) : ReadsBack e := by
  induction e using Expression.induct with
  | name n =>
    simp only [every, sound, legal, Bool.and_eq_true] at he
    intro p ts us f _ _ h
    have hn : n ≠ " " := by
      rintro rfl
      exact absurd he.1 (by decide)
    rw [pieces, tokensOf_cons hn]
    exact .name (lead?_name he.1) h
  | unary op a ih =>
    simp only [every, sound, legal, Bool.and_eq_true, contains_iff_mem] at he
    have hall : ∀ op ∈ unaryOperators, op ≠ " " ∧ lead? op = some .unary := by decide
    obtain ⟨hne, hlead⟩ := hall op he.1.1
    have hblank : tokensOf (blankAfter op) = [] := by
      rcases blankAfter_cases op with h | h <;> rw [h] <;> rfl
    intro p ts us f _ hs h
    rw [pieces, tokensOf_cons hne, tokensOf_append, hblank, nil_append, cons_append]
    exact .unary hlead ((ih he.2).whole le_rfl (by decide) (hs _ rfl)) h
  | update op before a ih =>
    simp only [every, sound, legal, Bool.and_eq_true, contains_iff_mem] at he
    have hall : ∀ op ∈ updateOperators, op ≠ " " ∧ lead? op = some .update ∧ roleOf? op = some .update := by decide
    obtain ⟨hne, hlead, hrole⟩ := hall op he.1.1
    intro p ts us f hp hs h
    cases before with
    | true =>
      rw [pieces, tokensOf_cons hne, cons_append]
      exact .update hlead ((ih he.2).whole le_rfl (by decide) (hs _ rfl)) h
    | false =>
      simp only [plain, Bool.not_eq_true'] at he
      have hle : p ≤ Printing.unary := hp
      rw [pieces, tokensOf_append, append_assoc, tokensOf_cons hne]
      refine (ih he.2).placed (fun hq => le_level (hle.trans hq) (hle.trans (by decide))) (fun hq r hr => ?_)
        (.updated (role?_of_le hrole hle) h)
      rw [trailing?_eq_none (legal_of_every he.2) hq he.1.2] at hr
      cases hr
  | binary op l r ihl ihr =>
    simp only [every, sound, legal, plain, Bool.and_eq_true, Bool.not_eq_true'] at he
    obtain ⟨⟨⟨hop, hplain⟩, hl⟩, hr⟩ := he
    have hmem := mem_operators_of_power? hop
    have hall : ∀ op ∈ operators, op ≠ " " ∧ (power? op).getD 0 ≤ (operandPowers op ((power? op).getD 0)).1 ∧
        (operandPowers op ((power? op).getD 0)).2 ≤ postfixed := by decide
    obtain ⟨hne, hleft, hright⟩ := hall op hmem
    intro p ts us f hp hs h
    have hle : p ≤ (power? op).getD 0 := by rwa [level_binary hop] at hp
    have hp' : p ≤ postfixed := hle.trans ((power?_le hop).trans (by decide))
    rw [pieces, tokensOf_append, append_assoc, tokensOf_blank, tokensOf_cons hne, tokensOf_blank, cons_append]
    exact (ihl hl).placed (fun hq => le_level ((le_asked (hp'.trans (by decide)) (hle.trans hleft)).trans hq) hp')
      (stops_left hmem (legal_of_every hl) hplain) (.binary (role?_of_le (roleOf?_operator hmem) hle)
        ((ihr hr).whole (le_asked (hright.trans (by decide)) le_rfl) hright (hs _ rfl)) h)
  | assignment op l r ihl ihr =>
    simp only [every, sound, legal, Bool.and_eq_true, contains_iff_mem] at he
    obtain ⟨⟨⟨⟨hop, htarget⟩, -⟩, hl⟩, hr⟩ := he
    have hall : ∀ op ∈ assignmentOperators, op ≠ " " ∧ roleOf? op = some .assignment := by decide
    obtain ⟨hne, hrole⟩ := hall op hop
    intro p ts us f hp hs h
    have hle : p ≤ 1 := hp
    have hhigh : postfixed ≤ l.power ∧ l.isPrefixed = false := by
      cases l with
      | name => exact ⟨show postfixed ≤ atomic by decide, rfl⟩
      | dot | index => exact ⟨le_rfl, rfl⟩
      | unary | update | binary | assignment | conditional | call | new => cases htarget
    have hnone : l.trailing? = none := trailing?_eq_none (legal_of_every hl) (le_trans (by decide) hhigh.1) hhigh.2
    rw [pieces, tokensOf_append, append_assoc, tokensOf_blank, tokensOf_cons hne, tokensOf_blank, cons_append]
    refine (ihl hl).placed (fun _ => le_level (hle.trans (le_trans (by decide) hhigh.1)) (hle.trans (by decide)))
      (fun _ r hr => ?_) (.assignment (role?_of_le hrole hle) ((ihr hr).whole le_rfl (by decide) (hs _ rfl)) h)
    rw [hnone] at hr
    cases hr
  | conditional t c a iht ihc iha =>
    simp only [every, Bool.and_eq_true] at he
    intro p ts us f hp hs h
    have hle : p ≤ 1 := hp
    rw [pieces, tokensOf_append, append_assoc, tokensOf_blank, tokensOf_cons (by decide), tokensOf_blank,
      tokensOf_append, tokensOf_blank, tokensOf_cons (by decide), tokensOf_blank, cons_append, append_assoc,
      cons_append]
    refine (iht he.1.1.2).placed (fun hq => le_level (hle.trans (le_trans (by decide) hq)) (hle.trans (by decide)))
      (fun hq r hr => ?_) (.conditional (role?_of_le (by decide) hle) ((ihc he.1.2).whole le_rfl (by decide) ?_)
        ((iha he.2).whole le_rfl (by decide) (hs _ rfl)) h)
    · rintro t ⟨⟩
      exact role?_of_lt (show roleOf? "?" = some .conditional by decide)
        (lt_of_lt_of_le (by decide) (hq.trans (le_trailing r hr)))
    · rintro t ⟨⟩
      exact role?_of_none (by decide) 1
  | call c as ihc ihas =>
    simp only [every, Bool.and_eq_true, everyOf_iff] at he
    intro p ts us f hp _ h
    have hle : p ≤ postfixed := hp
    rw [pieces, tokensOf_append, append_assoc, tokensOf_cons (by decide), tokensOf_append, cons_append,
      append_assoc]
    exact (ihc he.1.2).head (legal_of_every he.1.2) (fun hq => le_level (hle.trans hq) hle)
      (.call (role?_of_le (by decide) hle) (reads_listed false c fun a ha => ⟨he.2 a ha, ihas a ha (he.2 a ha)⟩) h)
  | new c as ihc ihas =>
    simp only [every, sound, plain, Bool.and_eq_true, Bool.not_eq_true', everyOf_iff] at he
    intro p ts us f _ _ h
    rw [pieces, tokensOf_cons (by decide), tokensOf_blank, tokensOf_append, tokensOf_cons (by decide), tokensOf_append,
      cons_append, append_assoc, cons_append, append_assoc]
    have hstop : Stops atomic ("(" :: (tokensOf (commas (piecesOf as)) ++ (tokensOf [")"] ++ ts))) := by
      rintro t ⟨⟩
      exact role?_of_lt (show roleOf? "(" = some .call by decide) (by decide)
    exact .new (by decide) ((ihc he.1.2).head (legal_of_every he.1.2) (fun hq => (level_eq_atomic hq he.1.1.2).ge)
      (.stop hstop))
      (reads_listed true c fun a ha => ⟨he.2 a ha, ihas a ha (he.2 a ha)⟩) h
  | dot o n ih =>
    simp only [every, sound, legal, Bool.and_eq_true] at he
    have hn : n ≠ " " := by
      rintro rfl
      exact absurd he.1.1 (by decide)
    intro p ts us f hp _ h
    rw [pieces, tokensOf_append, append_assoc, tokensOf_cons (by decide), tokensOf_cons hn]
    exact (ih he.2).head (legal_of_every he.2) (fun hq => hp.trans (level_member (e := o.dot n) hq rfl rfl).le)
      (.dot (role?_of_le (by decide) (hp.trans (level_le _))) h)
  | index o i iho ihi =>
    simp only [every, Bool.and_eq_true] at he
    intro p ts us f hp _ h
    rw [pieces, tokensOf_append, append_assoc, tokensOf_cons (by decide), tokensOf_append, cons_append,
      append_assoc]
    have hstop : Stops 0 ("]" :: ts) := by
      rintro t ⟨⟩
      exact role?_of_none (by decide) 0
    exact (iho he.1.2).head (legal_of_every he.1.2) (fun hq => hp.trans (level_member (e := o.index i) hq rfl rfl).le)
      (.index (role?_of_le (by decide) (hp.trans (level_le _))) ((ihi he.2).whole le_rfl (by decide) hstop) h)

end Expression

end Reading

theorem Expression.every_and {p q : Expression → Bool} {e : Expression} (hp : e.every p = true)
    (hq : e.every q = true) : e.every (fun e => p e && q e) = true := by
  induction e using Expression.induct with
  | name n => simpa [every] using ⟨hp, hq⟩
  | unary op a ih | update op before a ih | dot a n ih =>
    simp only [every, Bool.and_eq_true] at hp hq ⊢
    exact ⟨⟨hp.1, hq.1⟩, ih hp.2 hq.2⟩
  | binary op l r ihl ihr | assignment op l r ihl ihr | index l r ihl ihr =>
    simp only [every, Bool.and_eq_true] at hp hq ⊢
    exact ⟨⟨⟨hp.1.1, hq.1.1⟩, ihl hp.1.2 hq.1.2⟩, ihr hp.2 hq.2⟩
  | conditional t c a iht ihc iha =>
    simp only [every, Bool.and_eq_true] at hp hq ⊢
    exact ⟨⟨⟨⟨hp.1.1.1, hq.1.1.1⟩, iht hp.1.1.2 hq.1.1.2⟩, ihc hp.1.2 hq.1.2⟩, iha hp.2 hq.2⟩
  | call c as ihc ihas | new c as ihc ihas =>
    simp only [every, Bool.and_eq_true, everyOf_iff] at hp hq ⊢
    exact ⟨⟨⟨hp.1.1, hq.1.1⟩, ihc hp.1.2 hq.1.2⟩, fun a ha => ihas a ha (hp.2 a ha) (hq.2 a ha)⟩

theorem Expression.reads_text {e : Expression} (he : e.every sound = true) :
    ∃ ts, tokens (e.text 0) = some ts ∧ Reads (.expression 0) ts e [] := by
  have hp := (printable_pieces he).enclose e.power 0
  have hread : Reads (.expression 0) (tokensOf (enclose e.power 0 e.pieces) ++ []) e [] :=
    (readsBack he).whole le_rfl (by decide) (by simp [Stops])
  rw [append_nil] at hread
  exact ⟨_, tokens_join hp.pieces hp.apart, hread⟩

/-- Both documents print, and they print the same text just if they are nodes for the same
expression. -/
theorem expressionSource_eq_iff {α : Type} [Inhabited α] {t u : Tree α} {e f : Expression} (ht : Represents e t)
    (hu : Represents f u) (he : e.every legal = true) (hf : f.every legal = true)
    (hpe : e.every plain = true) (hpf : f.every plain = true) :
    ∃ a b, expressionSource t 0 = .ok (.str a) ∧ expressionSource u 0 = .ok (.str b) ∧ (a = b ↔ e = f) := by
  refine ⟨e.text 0, f.text 0, prints_of_represents he ht 0, prints_of_represents hf hu 0, fun h => ?_, fun h => h ▸ rfl⟩
  obtain ⟨ts, hts, hread⟩ := Expression.reads_text (Expression.every_and he hpe)
  obtain ⟨us, hus, hread'⟩ := Expression.reads_text (Expression.every_and hf hpf)
  rw [h, hus] at hts
  obtain rfl := Option.some.inj hts
  exact (hread.unique hread').1

section Instances

mutual
/-- The expression as a document. -/
def Expression.tree : Expression → Json
  | .name n => identifier (.str n)
  | .unary op a => make "UnaryExpression" [("operator", .str op), ("prefix", .bool true), ("argument", a.tree)]
  | .update op before a => make "UpdateExpression" [("operator", .str op), ("prefix", .bool before),
    ("argument", a.tree)]
  | .binary op l r => make (operationKind op) [("operator", .str op), ("left", l.tree), ("right", r.tree)]
  | .assignment op l r => make "AssignmentExpression" [("operator", .str op), ("left", l.tree), ("right", r.tree)]
  | .conditional t c a =>
    make "ConditionalExpression" [("test", t.tree), ("consequent", c.tree), ("alternate", a.tree)]
  | .call c as => Node.call c.tree (trees as)
  | .new c as => make "NewExpression" [("callee", c.tree), ("arguments", listOf (trees as))]
  | .dot o n => Node.member o.tree (identifier (.str n))
  | .index o i => make "MemberExpression" [("object", o.tree), ("property", i.tree), ("computed", .bool true)]
def Expression.trees : List Expression → List Json
  | [] => []
  | a :: as => a.tree :: trees as
end

theorem Expression.represents_tree (e : Expression) : Represents e e.tree := by
  have all : ∀ as : List Expression, (∀ a ∈ as, Represents a a.tree) → RepresentsAll as (trees as) := by
    intro as h
    induction as with
    | nil => rfl
    | cons a as ih =>
      rw [forall_mem_cons] at h
      exact ⟨_, _, rfl, h.1, ih h.2⟩
  induction e using Expression.induct with
  | name n => exact ⟨rfl, rfl⟩
  | unary op a ih => exact ⟨rfl, rfl, _, rfl, ih⟩
  | update op before a ih => exact ⟨rfl, rfl, rfl, _, rfl, ih⟩
  | binary op l r ihl ihr => exact ⟨rfl, rfl, ⟨_, rfl, ihl⟩, _, rfl, ihr⟩
  | assignment op l r ihl ihr => exact ⟨rfl, rfl, ⟨_, rfl, ihl⟩, _, rfl, ihr⟩
  | conditional t c a iht ihc iha => exact ⟨rfl, ⟨_, rfl, iht⟩, ⟨_, rfl, ihc⟩, _, rfl, iha⟩
  | call c as ihc ihas => exact ⟨rfl, rfl, ⟨_, rfl, ihc⟩, _, _, rfl, all as ihas⟩
  | new c as ihc ihas => exact ⟨rfl, ⟨_, rfl, ihc⟩, _, _, rfl, all as ihas⟩
  | dot o n ih => exact ⟨rfl, rfl, rfl, ⟨_, rfl, ih⟩, _, rfl, rfl, rfl⟩
  | index o i iho ihi => exact ⟨rfl, rfl, rfl, ⟨_, rfl, iho⟩, _, rfl, ihi⟩

/-- A choice, an assignment, a call of what is made new, and operators before and after. -/
def crowded (difference : Expression) : Expression :=
  .conditional (.assignment "=" (.name "a") (.binary "??" (.name "b") (.update "++" false (.name "c"))))
    (.call (.new (.index (.dot (.name "d") "e") (.unary "!" (.name "f"))) [difference]) [.name "g", .name "h"])
    (.unary "typeof" (.unary "-" (.update "++" true (.name "i"))))

def fromLeft : Expression := .binary "-" (.binary "-" (.name "x") (.name "y")) (.name "z")

def fromRight : Expression := .binary "-" (.name "x") (.binary "-" (.name "y") (.name "z"))

theorem expressionSource_eq_iff_crowded :
    ((crowded fromLeft).every legal = true ∧ (crowded fromRight).every legal = true ∧
      (crowded fromLeft).every plain = true ∧ (crowded fromRight).every plain = true) ∧
    ∃ a b, expressionSource (crowded fromLeft).tree 0 = .ok (.str a) ∧
      expressionSource (crowded fromRight).tree 0 = .ok (.str b) ∧
      (a = b ↔ crowded fromLeft = crowded fromRight) :=
  have h : (crowded fromLeft).every legal = true ∧ (crowded fromRight).every legal = true ∧
      (crowded fromLeft).every plain = true ∧ (crowded fromRight).every plain = true := by
    decide
  ⟨h, expressionSource_eq_iff (Expression.represents_tree _) (Expression.represents_tree _) h.1 h.2.1 h.2.2.1 h.2.2.2⟩

/-- For each of the four forms, an expression of that form and another one. -/
def conflated : List (Expression × Expression) :=
  [(.binary "??" (.assignment "=" (.name "a") (.name "b")) (.name "c"),
      .assignment "=" (.name "a") (.binary "??" (.name "b") (.name "c"))),
    (.new (.call (.name "f") []) [], .call (.new (.name "f") []) []),
    (.unary "-" (.unary "-" (.name "a")), .update "--" true (.name "a")),
    (.update "++" false (.unary "!" (.name "a")), .unary "!" (.update "++" false (.name "a")))]

/-- In each of the four forms different expressions print the same text. -/
theorem expressionSource_conflates : conflated.Forall fun q => q.1 ≠ q.2 ∧ q.1.every legal = true ∧
    q.2.every legal = true ∧ Represents q.1 q.1.tree ∧ Represents q.2 q.2.tree ∧
      expressionSource q.1.tree 0 = expressionSource q.2.tree 0 := by
  have hall : conflated.all (fun q => q.1.every legal && q.2.every legal &&
      q.1.text 0 == q.2.text 0) = true := by decide +kernel
  refine forall_iff_forall_mem.mpr fun q hq => ?_
  have h := all_eq_true.mp hall q hq
  simp only [Bool.and_eq_true, beq_iff_eq] at h
  have hne : q.1 ≠ q.2 := by
    simp only [conflated, mem_cons, not_mem_nil, or_false] at hq
    rcases hq with rfl | rfl | rfl | rfl <;> nofun
  refine ⟨hne, h.1.1, h.1.2, q.1.represents_tree, q.2.represents_tree, ?_⟩
  rw [expressionSource, expressionSource, prints_of_represents h.1.1 q.1.represents_tree,
    prints_of_represents h.1.2 q.2.represents_tree, h.2]

end Instances

end DebugGuards.Printing
