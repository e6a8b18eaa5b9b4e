import DebugGuards.Proofs.Printing.Quotation
import DebugGuards.Proofs.Printing.Reading

/-! What a printed expression starts with. The text of a call starts with that of the callee,
that of an operation with its left operand, and so on down the left edge of the expression
until something stands in parentheses or does not start with a part of its own. Where the
edge ends decides whether the text starts with a brace or with a function. A statement looks
at its expression only, and an arrow function at its body, but not down the edge: so the text
of a statement starts like a block or a declaration just if an object, an object pattern or a
function is at the end of the edge and is not the whole expression. -/

namespace DebugGuards.Printing

open Node List

inductive Opening where
  | brace
  | function
  | other
deriving DecidableEq

section Texts

/-- The word that a text starts with. -/
def firstWord (cs : List Char) : List Char := cs.takeWhile isWordChar

/-- The text from its second token on, if the first one is a word. -/
def afterWord (cs : List Char) : List Char := (cs.dropWhile isWordChar).dropWhile isGap

/-- Whether the first token of a text is a brace, or the keyword of a function with or
without `async` before it. -/
def openingOf (text : List Char) : Opening :=
  let cs := text.dropWhile isGap
  if cs.head? = some '\x7b' then .brace
  else if firstWord cs = "function".toList ∨
    firstWord cs = "async".toList ∧ firstWord (afterWord cs) = "function".toList then .function
  else .other

/-- What comes after an expression: no word goes on in it, and it does not start with the
keyword of a function. -/
structure Calm (r : List Char) : Prop where
  head : ∀ c ∈ r.head?, isWordChar c = false
  word : firstWord (r.dropWhile isGap) ≠ "function".toList

variable {c : Char} {w r : List Char}

theorem firstWord_eq_nil (hc : isWordChar c = false) : firstWord (c :: r) = [] := by
  rw [firstWord, takeWhile_cons_of_neg (by simp [hc])]

theorem Calm.nil : Calm [] := ⟨by simp, by decide⟩

theorem Calm.cons (hw : isWordChar c = false) (hg : isGap c = false) : Calm (c :: r) := by
  refine ⟨by rintro _ ⟨⟩; exact hw, ?_⟩
  rw [dropWhile_cons_of_neg (by simp [hg]), firstWord_eq_nil hw]
  decide

theorem Calm.of_head (hc : w.head? = some c) (hw : isWordChar c = false) (hg : isGap c = false) : Calm (w ++ r) := by
  cases w with
  | nil => cases hc
  | cons d w =>
    cases hc
    exact .cons hw hg

/-- A word takes no more than its own characters. -/
theorem firstWord_append (hw : w.all isWordChar = true) (hr : ∀ c ∈ r.head?, isWordChar c = false) :
    firstWord (w ++ r) = w ∧ afterWord (w ++ r) = r.dropWhile isGap := by
  have hstop : r.takeWhile isWordChar = [] ∧ r.dropWhile isWordChar = r := by
    cases r with
    | nil => exact ⟨rfl, rfl⟩
    | cons c r =>
      have hc : isWordChar c = false := hr c rfl
      exact ⟨takeWhile_cons_of_neg (by simp [hc]), dropWhile_cons_of_neg (by simp [hc])⟩
  rw [firstWord, afterWord, takeWhile_append_of_pos (all_eq_true.mp hw),
    dropWhile_append_of_pos (all_eq_true.mp hw), hstop.1, hstop.2, append_nil]
  exact ⟨rfl, rfl⟩

theorem isGap_of_isWordChar (hc : isWordChar c = true) : isGap c = false := by
  rw [isWordChar, Bool.and_eq_true] at hc
  simpa using hc.1

/-- What stands between two parts of an expression with a blank on either side. -/
def connectives : List String := "?" :: (operators ++ assignmentOperators)

theorem calm_connective {op : String} (hop : op ∈ connectives) (w : String) :
    Calm ((" " ++ op ++ " " ++ w).toList ++ r) := by
  have hall : ∀ op ∈ connectives, op.toList.head?.any isGap = false ∧ op ≠ "function" ∧ op.toList ≠ [] ∧
      (op.toList.head?.any isWordChar = false ∨ op.toList.all isWordChar = true) := by decide
  obtain ⟨hgap, hne, hnil, hword⟩ := hall op hop
  obtain ⟨c, cs, hcs⟩ := exists_cons_of_ne_nil hnil
  have htext : (" " ++ op ++ " " ++ w).toList ++ r = ' ' :: (op.toList ++ ' ' :: (w.toList ++ r)) := by simp
  rw [hcs, head?_cons, Option.any_some] at hgap hword
  rw [htext]
  refine ⟨by rintro _ ⟨⟩; decide, ?_⟩
  rw [dropWhile_cons_of_pos (by decide), hcs, cons_append, dropWhile_cons_of_neg (by simp [hgap])]
  rcases hword with hword | hword
  · rw [firstWord_eq_nil hword]
    decide
  · rw [← cons_append, ← hcs] at *
    rw [(firstWord_append hword (by rintro _ ⟨⟩; decide)).1]
    exact fun h => hne (String.toList_inj.mp h)

/-- A character that starts neither a brace nor a function. -/
def isNeutral (c : Char) : Bool := !isGap c && !(['\x7b', 'f', 'a'].contains c)

theorem openingOf_neutral (hc : isNeutral c = true) : openingOf (c :: r) = .other := by
  simp only [isNeutral, Bool.and_eq_true, Bool.not_eq_true', contains_cons, contains_nil, Bool.or_false,
    Bool.or_eq_false_iff, beq_eq_false_iff_ne] at hc
  obtain ⟨hgap, hbrace, hf, ha⟩ := hc
  have hword {d : Char} {w : List Char} (hd : c ≠ d) : firstWord (c :: r) ≠ d :: w := by
    rw [firstWord, takeWhile_cons]
    split
    · exact fun h => hd (List.cons.inj h).1
    · exact fun h => nomatch h
  rw [openingOf, dropWhile_cons_of_neg (by simp [hgap])]
  simp only [head?_cons, Option.some.injEq, if_neg hbrace]
  refine if_neg ?_
  rintro (h | ⟨h, _⟩)
  · exact hword hf h
  · exact hword ha h

theorem isNeutral_of_isDigit (hc : c.isDigit = true) : isNeutral c = true := by
  have hgap : isGap c = false := by
    have hinner := Lexeme.isInner_of_isDigit hc
    rw [Lexeme.isInner, Bool.or_eq_true, beq_iff_eq] at hinner
    rcases hinner with hword | rfl
    · exact isGap_of_isWordChar hword
    · decide
  have hne : ∀ d ∈ ['\x7b', 'f', 'a'], c ≠ d := by
    rintro d hd rfl
    simp only [mem_cons, not_mem_nil, or_false] at hd
    rcases hd with rfl | rfl | rfl <;> exact absurd hc (by decide)
  simp_all [isNeutral]

theorem openingOf_brace : openingOf ('\x7b' :: r) = .brace := by
  rw [openingOf, dropWhile_cons_of_neg (by decide)]
  rfl

/-- A text that starts with a word. -/
theorem openingOf_word (hne : w ≠ []) (hw : w.all isWordChar = true) (hr : ∀ c ∈ r.head?, isWordChar c = false) :
    openingOf (w ++ r) = if w = "function".toList ∨ w = "async".toList ∧
      firstWord (r.dropWhile isGap) = "function".toList
      then .function else .other := by
  obtain ⟨c, w, rfl⟩ := exists_cons_of_ne_nil hne
  have hc : isWordChar c = true := all_eq_true.mp hw c (mem_cons_self ..)
  have hbrace : c ≠ '\x7b' := by
    rintro rfl
    exact absurd hc (by decide)
  obtain ⟨hfirst, hafter⟩ := firstWord_append hw hr
  rw [openingOf, cons_append, dropWhile_cons_of_neg (by simp [isGap_of_isWordChar hc])]
  rw [cons_append] at hfirst hafter
  simp only [head?_cons, Option.some.injEq, if_neg hbrace, hfirst, hafter]

theorem openingOf_calm (hne : w ≠ []) (hw : w.all isWordChar = true) (hf : w ≠ "function".toList) (hr : Calm r) :
    openingOf (w ++ r) = .other := by
  rw [openingOf_word hne hw hr.head, if_neg]
  rintro (h | ⟨_, h⟩)
  · exact hf h
  · exact hr.word h

end Texts

section Edge

variable {α : Type}

/-- The text that an `operator` field holds. -/
def operator? (t : Tree α) : Option String :=
  match field? t "operator" with
  | some (.str s) => some s
  | _ => none

/-- How tightly an expression binds. -/
def ownPower (t : Tree α) : Nat :=
  match kind? t with
  | some "CallExpression" | some "NewExpression" | some "MemberExpression" => postfixed
  | some "LogicalExpression" | some "BinaryExpression" => ((operator? t).bind power?).getD 0
  | some "UnaryExpression" | some "UpdateExpression" => unary
  | some "AssignmentExpression" | some "ConditionalExpression" | some "ArrowFunctionExpression"
  | some "SpreadElement" | some "RestElement" | some "AssignmentPattern" => 1
  | _ => atomic

/-- The power asked of the left operand of an operation. -/
def leftPower (t : Tree α) : Nat :=
  let operator := (operator? t).getD ""
  let mixes := (field? t "left").any fun l =>
    hasKind l "LogicalExpression" && (operator? l).any (mixesNullish operator)
  if mixes then atomic else (operandPowers operator (ownPower t)).1

/-- The field whose text the text of an expression starts with, and the power asked there. -/
def leftField? (t : Tree α) : Option (String × Nat) :=
  match kind? t with
  | some "CallExpression" => some ("callee", postfixed)
  | some "MemberExpression" => some ("object", postfixed)
  | some "LogicalExpression" | some "BinaryExpression" => some ("left", leftPower t)
  | some "UpdateExpression" => if flagged t "prefix" then none else some ("argument", unary)
  | some "AssignmentExpression" | some "AssignmentPattern" => some ("left", 0)
  | some "ConditionalExpression" => some ("test", 2)
  | _ => none

/-- What the text of an expression starts with that does not start with a part of its own. -/
def tip (t : Tree α) : Opening :=
  match kind? t with
  | some "ObjectExpression" | some "ObjectPattern" => .brace
  | some "FunctionExpression" => .function
  | _ => .other

mutual
/-- What the text of an expression in a place of a given power starts with. -/
def opening (power : Nat) : Tree α → Opening
  | .obj m fields =>
    if ownPower (.obj m fields) < power then .other
    else match leftField? (.obj m fields) with
      | some (key, asked) => openingAt key asked fields
      | none => tip (.obj m fields)
  | _ => .other
def openingAt (key : String) (power : Nat) : List (String × Tree α) → Opening
  | [] => .other
  | (k, t) :: rest => if k = key then opening power t else openingAt key power rest
end

/-- The source of a literal other than a template. -/
def isLiteralSource (s : String) : Bool :=
  ["true", "false", "null"].contains s ||
    s.toList.head?.any fun c => c.isDigit || ['"', '\'', '/', '.', '-'].contains c

/-- A literal with the source of one, or without a source and with a value to print. -/
def isFittingLiteral (t : Tree α) : Bool :=
  match rawForm t with
  | .ok (.str raw) => isLiteralSource raw
  | .ok .null => hasKind t "NullLiteral" || hasKind t "RegExpLiteral" || (field? t "regex").isSome ||
      ((field? t "value").getD .null).mark?.isNone
  | _ => false

/-- The words of a node are those that its type calls for. -/
def isFitting (t : Tree α) : Bool :=
  match kind? t with
  | some "Identifier" =>
    match field? t "name" with
    | some (.str n) => isName n
    | _ => false
  | some "UnaryExpression" => (operator? t).any unaryOperators.contains
  | some "UpdateExpression" => (operator? t).any updateOperators.contains
  | some "AssignmentExpression" => (operator? t).any assignmentOperators.contains
  | some kind => !literalKinds.contains kind || kind == "TemplateLiteral" || isFittingLiteral t
  | none => false

mutual
/-- The nodes on the left edge of an expression are fitting. -/
def fitsLeft : Tree α → Bool
  | .obj m fields => isFitting (.obj m fields) &&
      match leftField? (.obj m fields) with
      | some (key, _) => fitsLeftAt key fields
      | none => true
  | _ => false
def fitsLeftAt (key : String) : List (String × Tree α) → Bool
  | [] => true
  | (k, t) :: rest => if k = key then fitsLeft t else fitsLeftAt key rest
end

theorem openingAt_eq (key : String) (power : Nat) (fields : Fields α) :
    openingAt key power fields = ((Table.get? fields key).map (opening power)).getD .other := by
  induction fields with
  | nil => rfl
  | cons e rest ih =>
    rw [openingAt, Table.get?]
    split
    · rfl
    · exact ih

theorem fitsLeftAt_eq (key : String) (fields : Fields α) :
    fitsLeftAt key fields = (Table.get? fields key).all fitsLeft := by
  induction fields with
  | nil => rfl
  | cons e rest ih =>
    rw [fitsLeftAt, Table.get?]
    split
    · rfl
    · exact ih

end Edge

section Printing

variable {α : Type} [Inhabited α] {indent : String} {m : α} {fields : Fields α} {k key : String} {u : Tree α}
  {own p : Nat}

theorem exists_of_bind {β γ : Type} {x : Printed β} {f : β → Printed γ} {c : γ} (h : (x >>= f) = .ok c) :
    ∃ b, x = .ok b ∧ f b = .ok c := by
  cases x with
  | error e => cases h
  | ok b => exact ⟨b, rfl, h⟩

/-- Whatever a printer gives is so. -/
def Yields {β : Type} (P : β → Prop) (x : Printed β) : Prop := ∀ b, x = .ok b → P b

theorem Yields.bind {β γ : Type} {P : γ → Prop} {x : Printed β} {f : β → Printed γ} (hf : ∀ b, Yields P (f b)) :
    Yields P (x >>= f) := by
  intro c h
  obtain ⟨b, _, h⟩ := exists_of_bind h
  exact hf b c h

theorem Yields.pure {β : Type} {P : β → Prop} {b : β} (h : P b) : Yields P (pure b) := by
  rintro _ ⟨⟩
  exact h

theorem exists_of_textAt {s : String} (h : (Part.node indent m fields).textAt key p = .ok s) :
    ∃ c v, field? (.obj m fields) key = some c ∧ (Part.of indent c).expression p = .ok v ∧ s = v.text := by
  obtain ⟨v, h, hs⟩ := exists_of_bind h
  obtain ⟨q, hq, hv⟩ := exists_of_bind h
  rw [Part.require, get?_node] at hq
  cases hc : field? (.obj m fields) key with
  | none =>
    rw [hc] at hq
    cases hq
  | some c =>
    rw [hc] at hq
    cases hq
    cases hs
    exact ⟨c, v, rfl, hv, rfl⟩

/-- The text of a node starts with that of a part, and calmly goes on after it. -/
def StartsWith (indent : String) (t : Tree α) (key : String) (power : Nat) (u : Tree α) : Prop :=
  ∃ c v rest, field? t key = some c ∧ (Part.of indent c).expression power = .ok v ∧ u = .str (v.text ++ rest) ∧
    ∀ r, Calm (rest.toList ++ r)

/-- What prints a field first starts with it. -/
theorem startsWith_textAt {f : String → Printed (Bound α)}
    (hf : ∀ s, Yields (fun b => ∃ rest, b.1 = .str (s ++ rest) ∧ ∀ r, Calm (rest.toList ++ r)) (f s)) :
    Yields (fun b => StartsWith indent (.obj m fields) key p b.1) ((Part.node indent m fields).textAt key p >>= f) := by
  intro b h
  obtain ⟨s, hs, h⟩ := exists_of_bind h
  obtain ⟨c, v, hc, hv, rfl⟩ := exists_of_textAt hs
  obtain ⟨rest, hrest, hcalm⟩ := hf _ b h
  exact ⟨c, v, rest, hc, hv, hrest, hcalm⟩

theorem call_startsWith :
    Yields (fun b => StartsWith indent (.obj m fields) "callee" postfixed b.1) (call (Part.node indent m fields)) := by
  refine startsWith_textAt fun s => .bind fun b => .bind fun args =>
    .pure ⟨(if b then "?." else "") ++ "(" ++ args ++ ")", by simp [bound, String.append_assoc], fun r => ?_⟩
  cases b
  · exact .of_head (c := '(') (by simp) (by decide) (by decide)
  · exact .of_head (c := '?') (by simp) (by decide) (by decide)

theorem member_startsWith :
    Yields (fun b => StartsWith indent (.obj m fields) "object" postfixed b.1)
      (member (Part.node indent m fields)) := by
  refine startsWith_textAt fun s => .bind fun b => ?_
  cases b with
  | true =>
    exact .bind fun i => .pure ⟨"[" ++ i ++ "]", by simp [bound, String.append_assoc], fun r =>
      .of_head (c := '[') (by simp) (by decide) (by decide)⟩
  | false =>
    refine .bind fun b => .bind fun n =>
      .pure ⟨(if b then "?." else ".") ++ n, by simp [bound, String.append_assoc], fun r => ?_⟩
    cases b
    · exact .of_head (c := '.') (by simp) (by decide) (by decide)
    · exact .of_head (c := '?') (by simp) (by decide) (by decide)

theorem conditional_startsWith :
    Yields (fun b => StartsWith indent (.obj m fields) "test" 2 b.1) (conditional (Part.node indent m fields)) := by
  refine startsWith_textAt fun s => .bind fun x => .bind fun y =>
    .pure ⟨" " ++ "?" ++ " " ++ (x ++ " : " ++ y), ?_, fun r => calm_connective (by decide) _⟩
  simp [bound, ← String.toList_inj]

theorem defaulted_startsWith :
    Yields (fun b => StartsWith indent (.obj m fields) "left" 0 b.1) (defaulted (Part.node indent m fields)) := by
  refine startsWith_textAt fun s => .bind fun x =>
    .pure ⟨" " ++ "=" ++ " " ++ x, ?_, fun r => calm_connective (by decide) _⟩
  simp [bound, ← String.toList_inj]

omit [Inhabited α] in
theorem exists_of_require {v : Tree α} (h : (Tree.obj m fields).require key = .ok v) :
    field? (.obj m fields) key = some v := by
  rw [Tree.require] at h
  split at h
  · cases h
    assumption
  · cases h

omit [Inhabited α] in
/-- The operator of a node is one of those that its type calls for. -/
theorem mem_of_operator {names : List String} {o : Tree α} (hf : (operator? (.obj m fields)).any names.contains = true)
    (ho : (Tree.obj m fields).require "operator" = .ok o) : ∃ op ∈ names, o = .str op := by
  rw [operator?, exists_of_require ho] at hf
  split at hf
  · next op hop =>
    cases hop
    exact ⟨op, contains_iff_mem.mp hf, rfl⟩
  · cases hf

theorem assignment_startsWith (hf : (operator? (.obj m fields)).any assignmentOperators.contains = true) :
    Yields (fun b => StartsWith indent (.obj m fields) "left" 0 b.1) (assignment (Part.node indent m fields)) := by
  refine startsWith_textAt fun s b h => ?_
  obtain ⟨o, ho, h⟩ := exists_of_bind h
  obtain ⟨x, _, h⟩ := exists_of_bind h
  cases h
  obtain ⟨op, hop, rfl⟩ := mem_of_operator hf ho
  have hmem : op ∈ connectives := mem_cons_of_mem _ (mem_append_right _ hop)
  exact ⟨" " ++ op ++ " " ++ x, by simp [← String.toList_inj, Tree.text, bound], fun r => calm_connective hmem _⟩

theorem exists_of_part {q : Part α} (h : (Part.node indent m fields).require key = .ok q) :
    ∃ c, field? (.obj m fields) key = some c ∧ q = Part.of indent c := by
  rw [Part.require, get?_node] at h
  cases hc : field? (.obj m fields) key with
  | none =>
    rw [hc] at h
    cases h
  | some c =>
    rw [hc] at h
    cases h
    exact ⟨c, rfl, rfl⟩

theorem hasKind_any (c : α) (entries : Fields α) (names : List String) :
    (Part.of indent (.obj c entries)).hasKind names = .ok (names.any fun n => hasKind (.obj c entries) n) := by
  rw [Part.hasKind, Part.kind, tree_of, Tree.get]
  simp only [bind, Except.bind, hasKind, kind]
  cases hk : (Table.get? entries "type").getD .null with
  | scalar x => cases x <;> simp [pure, Except.pure, any_beq]
  | _ => simp [pure, Except.pure]

omit [Inhabited α] in
theorem asKey_eq_str {t : Tree α} {s : String} (h : t.asKey = .ok (.str s)) : t = .str s := by
  rw [Tree.asKey] at h
  cases t with
  | scalar x =>
    cases x with
    | float x =>
      simp only [Tree.key?, Scalar.key, Except.ok.injEq] at h
      cases hx : x.toInt? <;> rw [hx] at h <;> cases h
    | _ => simp_all [Tree.key?, Scalar.key]
  | _ => cases h

theorem operandPower_of_ok {c : Tree α} {op : String} {q : Nat} (h : operandPower op (Part.of indent c) p = .ok q) :
    q = if hasKind c "LogicalExpression" && (operator? c).any (mixesNullish op) then atomic else p := by
  cases c with
  | scalar s => cases s <;> cases h
  | arr n items => cases h
  | obj n entries =>
    rw [operandPower, hasKind_any, any_cons, any_nil, Bool.or_false] at h
    simp only [bind, Except.bind] at h
    cases hl : hasKind (.obj n entries) "LogicalExpression" with
    | false =>
      rw [hl] at h
      cases h
      simp
    | true =>
      rw [hl, if_pos rfl, tree_of] at h
      obtain ⟨o, ho, h⟩ := exists_of_bind h
      obtain ⟨s, hs, h⟩ := exists_of_bind h
      have hop := exists_of_require ho
      split at h
      · next inner =>
        obtain rfl := asKey_eq_str hs
        cases h
        simp [operator?, hop]
      · next hne =>
        cases h
        have hnone : operator? (.obj n entries) = none := by
          rw [operator?, hop]
          split
          · next hstr =>
            cases hstr
            cases hs
            exact absurd rfl (hne _)
          · rfl
        simp [hnone]

theorem exists_of_binary (h : binary (Part.node indent m fields) = .ok (u, own)) :
    ∃ op c q v w, field? (.obj m fields) "operator" = some (.str op) ∧ power? op = some own ∧
      field? (.obj m fields) "left" = some c ∧ operandPower op (Part.of indent c) (operandPowers op own).1 = .ok q ∧
      (Part.of indent c).expression q = .ok v ∧ u = .str (v.text ++ " " ++ op ++ " " ++ w) := by
  obtain ⟨o, ho, hrest⟩ := exists_of_bind h
  obtain ⟨s, hs, htext⟩ := exists_of_bind hrest
  clear h hrest
  split at htext
  · next op =>
    obtain rfl := asKey_eq_str hs
    cases hpow : power? op with
    | none =>
      rw [hpow] at htext
      cases htext
    | some power =>
      rw [hpow] at htext
      obtain ⟨l, hl, htext⟩ := exists_of_bind htext
      obtain ⟨q, hq, htext⟩ := exists_of_bind htext
      obtain ⟨_, _, htext⟩ := exists_of_bind htext
      obtain ⟨_, _, htext⟩ := exists_of_bind htext
      obtain ⟨v, hv, htext⟩ := exists_of_bind htext
      obtain ⟨w, _, htext⟩ := exists_of_bind htext
      cases htext
      obtain ⟨c, hc, rfl⟩ := exists_of_part hl
      exact ⟨op, c, q, v, w.text, exists_of_require ho, hpow, hc, hq, hv, rfl⟩
  · cases htext

omit [Inhabited α] in
theorem operator?_eq {t : Tree α} {op : String} (h : field? t "operator" = some (.str op)) : operator? t = some op := by
  rw [operator?, h]

theorem binary_startsWith (hown : ownPower (.obj m fields) = own)
    (h : binary (Part.node indent m fields) = .ok (u, own)) :
    StartsWith indent (.obj m fields) "left" (leftPower (.obj m fields)) u := by
  obtain ⟨op, c, q, v, w, hop, hpow, hc, hq, hv, rfl⟩ := exists_of_binary h
  have hmem : op ∈ connectives :=
    mem_cons_of_mem _ (mem_append_left _ (mem_operators_of_power? (by rw [hpow]; rfl)))
  refine ⟨c, v, " " ++ op ++ " " ++ w, hc, ?_, by simp [← String.toList_inj], fun r => calm_connective hmem _⟩
  rw [← hv, operandPower_of_ok hq, leftPower, hown, operator?_eq hop, hc]
  rfl

theorem exists_of_update (hf : (operator? (.obj m fields)).any updateOperators.contains = true)
    (h : update (Part.node indent m fields) = .ok (u, own)) :
    ∃ c v, ∃ op ∈ updateOperators, field? (.obj m fields) "argument" = some c ∧
      (Part.of indent c).expression unary = .ok v ∧
      u = .str (if flagged (.obj m fields) "prefix" then op ++ v.text else v.text ++ op) := by
  obtain ⟨s, hs, h⟩ := exists_of_bind h
  obtain ⟨b, hb, h⟩ := exists_of_bind h
  obtain ⟨o, ho, h⟩ := exists_of_bind h
  rw [flag_node] at hb
  cases hb
  cases h
  obtain ⟨c, v, hc, hv, rfl⟩ := exists_of_textAt hs
  obtain ⟨op, hmem, rfl⟩ := mem_of_operator hf ho
  exact ⟨c, v, op, hmem, hc, hv, rfl⟩

theorem head_of_update {op : String} (h : op ∈ updateOperators) :
    ∃ c, op.toList.head? = some c ∧ isWordChar c = false ∧ isGap c = false ∧ isNeutral c = true := by
  have hall : ∀ op ∈ updateOperators,
      op.toList.head?.any (fun c => !isWordChar c && (!isGap c && isNeutral c)) = true := by decide
  simpa [Option.any_eq_true] using hall op h

theorem update_startsWith (hf : (operator? (.obj m fields)).any updateOperators.contains = true)
    (hpost : flagged (.obj m fields) "prefix" = false) (h : update (Part.node indent m fields) = .ok (u, own)) :
    StartsWith indent (.obj m fields) "argument" unary u := by
  obtain ⟨c, v, op, hmem, hc, hv, rfl⟩ := exists_of_update hf h
  obtain ⟨d, hd, hword, hgap, _⟩ := head_of_update hmem
  exact ⟨c, v, op, hc, hv, by rw [hpost]; rfl, fun r => .of_head hd hword hgap⟩

/-- A printed text starts in a given way, whatever calmly follows it. -/
def Begins (o : Opening) (u : Tree α) : Prop :=
  ∃ s, u = .str s ∧ ∀ r, Calm r → openingOf (s.toList ++ r) = o

omit [Inhabited α] in
theorem begins_neutral {s : String} {c : Char} (hs : s.toList.head? = some c) (hc : isNeutral c = true) :
    Begins .other (.str s : Tree α) := by
  refine ⟨s, rfl, fun r _ => ?_⟩
  obtain ⟨cs, hcs⟩ := head?_eq_some_iff.mp hs
  rw [hcs]
  exact openingOf_neutral hc

omit [Inhabited α] in
theorem begins_brace {s : String} (hs : s.toList.head? = some '\x7b') : Begins .brace (.str s : Tree α) := by
  refine ⟨s, rfl, fun r _ => ?_⟩
  obtain ⟨cs, hcs⟩ := head?_eq_some_iff.mp hs
  rw [hcs]
  exact openingOf_brace

omit [Inhabited α] in
/-- A word with something after it that does not go on with it. -/
theorem begins_word {s : String} {w cs : List Char} {c : Char} (hs : s.toList = w ++ c :: cs) (hne : w ≠ [])
    (hw : w.all isWordChar = true) (hc : isWordChar c = false) (hf : w ≠ "function".toList) (ha : w ≠ "async".toList) :
    Begins .other (.str s : Tree α) := by
  refine ⟨s, rfl, fun r _ => ?_⟩
  rw [hs, append_assoc, openingOf_word hne hw (by rintro _ ⟨⟩; exact hc), if_neg]
  rintro (h | ⟨h, _⟩)
  · exact hf h
  · exact ha h

theorem new_begins (h : new (Part.node indent m fields) = .ok (u, own)) : Begins .other u := by
  obtain ⟨s, hs, h⟩ := exists_of_bind h
  obtain ⟨args, _, h⟩ := exists_of_bind h
  cases h
  have hs :
      ("new " ++ s ++ "(" ++ args ++ ")").toList = "new".toList ++ ' ' :: (s ++ "(" ++ args ++ ")").toList := by simp
  exact begins_word hs (by decide) (by decide) (by decide) (by decide) (by decide)

/-- An operator before its operand is a mark, or a word set off by a blank. -/
theorem head_of_unary {op : String} (h : op ∈ unaryOperators) :
    (∃ c, op.toList.head? = some c ∧ isNeutral c = true) ∨
      op.toList ≠ [] ∧ op.toList.all isWordChar = true ∧ op.toList ≠ "function".toList ∧
        op.toList ≠ "async".toList ∧ unaryGap op = " " := by
  have hmarks : ∀ op ∈ unaryOperators.take 4, op.toList.head?.any isNeutral = true := by decide
  have hwords : ∀ op ∈ unaryOperators.drop 4, op.toList ≠ [] ∧ op.toList.all isWordChar = true ∧
      op.toList ≠ "function".toList ∧ op.toList ≠ "async".toList ∧ unaryGap op = " " := by
    decide +kernel
  rw [← take_append_drop 4 unaryOperators, mem_append] at h
  exact h.imp (fun h => by simpa [Option.any_eq_true] using hmarks op h) (hwords op)

theorem prefixed_begins (hf : (operator? (.obj m fields)).any unaryOperators.contains = true)
    (h : prefixed (Part.node indent m fields) = .ok (u, own)) : Begins .other u := by
  obtain ⟨o, ho, h⟩ := exists_of_bind h
  obtain ⟨op, hop, h⟩ := exists_of_bind h
  obtain ⟨s, _, h⟩ := exists_of_bind h
  cases h
  obtain ⟨_, hmem, rfl⟩ := mem_of_operator hf ho
  cases hop
  rcases head_of_unary hmem with ⟨c, hc, hneutral⟩ | ⟨hne, hw, hfun, hasync, hgap⟩
  · exact begins_neutral (c := c) (by simp [hc]) hneutral
  · rw [hgap]
    have hs : (op ++ " " ++ s).toList = op.toList ++ ' ' :: s.toList := by simp
    exact begins_word hs hne hw (by decide) hfun hasync

theorem update_begins (hf : (operator? (.obj m fields)).any updateOperators.contains = true)
    (hpre : flagged (.obj m fields) "prefix" = true) (h : update (Part.node indent m fields) = .ok (u, own)) :
    Begins .other u := by
  obtain ⟨_, _, op, hmem, _, _, rfl⟩ := exists_of_update hf h
  obtain ⟨c, hc, _, _, hneutral⟩ := head_of_update hmem
  exact begins_neutral (c := c) (by simp [hpre, hc]) hneutral

theorem list_begins {q : Nat} : Yields (fun b => Begins .other b.1) (list (Part.node indent m fields) q) :=
  .bind fun _ => .bind fun _ => .bind fun _ => .pure (begins_neutral (c := '[') (by simp) (by decide))

theorem template_begins : Yields (fun b => Begins .other b.1) (template (Part.node indent m fields)) :=
  .bind fun _ => .bind fun _ => .bind fun _ => .pure (begins_neutral (c := '`') (by simp) (by decide))

theorem spread_begins {q : Nat} : Yields (fun b => Begins .other b.1) (spread (Part.node indent m fields) q) :=
  .bind fun _ => .bind fun _ => .pure (begins_neutral (c := '.') (by simp) (by decide))

theorem properties_begins :
    Yields (fun s => Begins .brace (.str s : Tree α)) (properties (Part.node indent m fields)) :=
  .bind fun _ => .bind fun _ => .bind fun _ => .pure (begins_brace (by simp))

theorem object_begins (h : object (Part.node indent m fields) = .ok (u, own)) : Begins .brace u := by
  obtain ⟨q, _, h⟩ := exists_of_bind h
  cases q with
  | none =>
    cases h
    exact begins_brace rfl
  | some q =>
    simp only at h
    split at h
    · obtain ⟨s, hs, h⟩ := exists_of_bind h
      cases h
      exact properties_begins _ hs
    · cases h
      exact begins_brace rfl

theorem exists_of_function {depth : Nat} {s : String} (h : function indent (Part.node indent m fields) depth = .ok s) :
    ∃ lead rest c, lead ∈ ["", "async "] ∧ s = lead ++ "function" ++ rest ∧ rest.toList.head? = some c ∧
      c ∈ ['*', ' ', '('] := by
  obtain ⟨async, _, h⟩ := exists_of_bind h
  obtain ⟨star, _, h⟩ := exists_of_bind h
  obtain ⟨named, _, h⟩ := exists_of_bind h
  have hname : ∃ name params body, (name = "" ∨ ∃ n, name = " " ++ n) ∧
      s = (if async then "async " else "") ++ "function" ++ (if star then "*" else "") ++ name ++ "(" ++
        params ++ ") " ++ body := by
    cases named with
    | true =>
      simp only [if_pos] at h
      obtain ⟨_, _, h⟩ := exists_of_bind h
      obtain ⟨n, _, h⟩ := exists_of_bind h
      obtain ⟨_, ⟨⟩, h⟩ := exists_of_bind h
      obtain ⟨params, _, h⟩ := exists_of_bind h
      obtain ⟨_, _, h⟩ := exists_of_bind h
      obtain ⟨body, _, h⟩ := exists_of_bind h
      cases h
      exact ⟨_, params, body, .inr ⟨_, rfl⟩, rfl⟩
    | false =>
      simp only [Bool.false_eq_true, if_false] at h
      obtain ⟨_, ⟨⟩, h⟩ := exists_of_bind h
      obtain ⟨params, _, h⟩ := exists_of_bind h
      obtain ⟨_, _, h⟩ := exists_of_bind h
      obtain ⟨body, _, h⟩ := exists_of_bind h
      cases h
      exact ⟨_, params, body, .inl rfl, rfl⟩
  obtain ⟨name, params, body, hname, rfl⟩ := hname
  refine ⟨if async then "async " else "", (if star then "*" else "") ++ name ++ "(" ++ params ++ ") " ++ body,
    if star then '*' else if name = "" then '(' else ' ',
    by cases async <;> decide, by simp [String.append_assoc], ?_, ?_⟩
  · rcases hname with rfl | ⟨n, rfl⟩ <;> cases star <;> simp
  · split <;> [decide; split <;> decide]

/-- The keyword of a function ends where its text goes on. -/
theorem function_begins {depth : Nat} {s : String} (h : function indent (Part.node indent m fields) depth = .ok s) :
    Begins .function (.str s : Tree α) := by
  obtain ⟨lead, rest, c, hlead, rfl, hrest, hc⟩ := exists_of_function h
  obtain ⟨cs, hcs⟩ := head?_eq_some_iff.mp hrest
  have hword : isWordChar c = false := by
    have hall : ['*', ' ', '('].all (fun c => !isWordChar c) = true := by decide
    simpa using all_eq_true.mp hall c hc
  have hfun (r : List Char) : firstWord ("function".toList ++ (rest.toList ++ r)) = "function".toList :=
    (firstWord_append (by decide) (by rw [hcs]; rintro _ ⟨⟩; exact hword)).1
  refine ⟨_, rfl, fun r _ => ?_⟩
  simp only [mem_cons, not_mem_nil, or_false] at hlead
  rcases hlead with rfl | rfl
  · have htext : ("" ++ "function" ++ rest).toList ++ r = "function".toList ++ (rest.toList ++ r) := by simp
    rw [htext, openingOf_word (by decide) (by decide) (by rw [hcs]; rintro _ ⟨⟩; exact hword), if_pos (.inl rfl)]
  · have htext : ("async " ++ "function" ++ rest).toList ++ r =
        "async".toList ++ ' ' :: ("function".toList ++ (rest.toList ++ r)) := by simp
    rw [htext, openingOf_word (by decide) (by decide) (by rintro _ ⟨⟩; decide), if_pos]
    exact .inr ⟨rfl, hfun r⟩

theorem exists_of_arrow (h : arrow indent (Part.node indent m fields) = .ok (u, own)) :
    ∃ lead params text c, lead ∈ ["", "async "] ∧ parameters (Part.node indent m fields) = .ok params ∧
      u = .str (lead ++ "(" ++ params ++ ") => " ++ text) ∧ field? (.obj m fields) "body" = some c ∧
      (kind? c ≠ some "BlockStatement" → ∃ v, (Part.of indent c).expression 1 = .ok v ∧
        text = if kind? c = some "ObjectExpression" then "(" ++ v.text ++ ")" else v.text) := by
  obtain ⟨async, _, h⟩ := exists_of_bind h
  obtain ⟨body, hbody, h⟩ := exists_of_bind h
  obtain ⟨b, hb, h⟩ := exists_of_bind h
  obtain ⟨c, hc, rfl⟩ := exists_of_part hbody
  have hlead : (if async then "async " else "") ∈ ["", "async "] := by cases async <;> decide
  cases c with
  | scalar x => cases hb
  | arr n items => cases hb
  | obj n entries =>
    rw [hasKind_any, any_cons, any_nil, Bool.or_false] at hb
    cases hb
    cases hkind : hasKind (.obj n entries) "BlockStatement" with
    | true =>
      simp only [hkind, if_true] at h
      obtain ⟨text, _, h⟩ := exists_of_bind h
      obtain ⟨params, hparams, h⟩ := exists_of_bind h
      cases h
      exact ⟨_, params, text, _, hlead, hparams, rfl, hc, fun hno => absurd (hasKind_iff.mp hkind) hno⟩
    | false =>
      simp only [hkind, Bool.false_eq_true, if_false] at h
      obtain ⟨v, hv, h⟩ := exists_of_bind h
      obtain ⟨o, ho, h⟩ := exists_of_bind h
      rw [hasKind_any, any_cons, any_nil, Bool.or_false] at ho
      cases ho
      obtain ⟨_, ⟨⟩, h⟩ := exists_of_bind h
      obtain ⟨params, hparams, h⟩ := exists_of_bind h
      cases h
      exact ⟨_, params, _, _, hlead, hparams, rfl, hc, fun _ => ⟨v, hv, by simp only [hasKind_iff]⟩⟩

theorem arrow_begins (h : arrow indent (Part.node indent m fields) = .ok (u, own)) : Begins .other u := by
  obtain ⟨lead, params, text, _, hlead, _, rfl, _⟩ := exists_of_arrow h
  simp only [mem_cons, not_mem_nil, or_false] at hlead
  rcases hlead with rfl | rfl
  · exact begins_neutral (c := '(') (by simp) (by decide)
  · refine ⟨_, rfl, fun r _ => ?_⟩
    have htext : ("async " ++ "(" ++ params ++ ") => " ++ text).toList ++ r =
        "async".toList ++ ' ' :: '(' :: ((params ++ ") => " ++ text).toList ++ r) := by simp
    rw [htext, openingOf_word (by decide) (by decide) (by rintro _ ⟨⟩; decide), if_neg]
    rw [dropWhile_cons_of_pos (by decide), dropWhile_cons_of_neg (by decide), firstWord_eq_nil (by decide)]
    decide

omit [Inhabited α] in
theorem name_begins {n : String} (h : isName n = true) : Begins .other (.str n : Tree α) := by
  simp only [isName, Bool.and_eq_true, Bool.not_eq_true', isEmpty_eq_false_iff] at h
  obtain ⟨⟨⟨hne, hw⟩, _⟩, hreserved⟩ := h
  refine ⟨n, rfl, fun r hr => openingOf_calm hne hw (fun hn => ?_) hr⟩
  rw [String.toList_inj] at hn
  rw [hn] at hreserved
  exact absurd hreserved (by decide)

section Literals

/-- What numbers are written with. -/
def isNumeric (c : Char) : Bool := c.isDigit || ['.', 'e', '-', '+'].contains c

theorem isNeutral_of_isNumeric {c : Char} (hc : isNumeric c = true) : isNeutral c = true := by
  rw [isNumeric, Bool.or_eq_true] at hc
  rcases hc with hc | hc
  · exact isNeutral_of_isDigit hc
  · have hall : ['.', 'e', '-', '+'].all isNeutral = true := by decide
    exact all_eq_true.mp hall c (contains_iff_mem.mp hc)

theorem numeric_digits (n : Nat) : (Nat.toDigits 10 n).all isNumeric = true :=
  all_eq_true.mpr fun c hc => by rw [isNumeric, Lexeme.isDigit_of_mem hc, Bool.true_or]

theorem numeric_layout {ds : List Char} (h : ds.all isNumeric = true) (point : Int) :
    (Binary64.layout ds point).toList.all isNumeric = true ∧ Binary64.layout ds point ≠ "" := by
  have hzeros (n : Nat) : (Binary64.zeros n).toList.all isNumeric = true := by
    rw [Binary64.zeros, String.toList_ofList, all_replicate]
    simp [show isNumeric '0' = true by decide]
  have htake (n : Nat) : (ds.take n).all isNumeric = true :=
    all_eq_true.mpr fun c hc => all_eq_true.mp h c (mem_of_mem_take hc)
  have hdrop (n : Nat) : (ds.drop n).all isNumeric = true :=
    all_eq_true.mpr fun c hc => all_eq_true.mp h c (mem_of_mem_drop hc)
  simp only [Binary64.layout, Nat.toString_eq_ofList_toDigits]
  split
  · split
    · refine ⟨?_, by simp⟩
      simp only [String.toList_append, String.toList_ofList, all_append, h, hzeros]
      decide
    · split
      · refine ⟨?_, by simp⟩
        simp only [String.toList_append, String.toList_ofList, all_append, h, hzeros]
        decide
      · refine ⟨?_, by simp⟩
        simp only [String.toList_append, String.toList_ofList, all_append, htake, hdrop]
        decide
  · have hfraction : (if ds.length ≤ 1 then "" else "." ++ String.ofList (ds.drop 1)).toList.all isNumeric = true := by
      split
      · rfl
      · simp only [String.toList_append, String.toList_ofList, all_append, hdrop]
        decide
    have hsign : (if point - 1 < 0 then "-" else "+").toList.all isNumeric = true := by split <;> decide
    refine ⟨?_, by simp⟩
    simp only [String.toList_append, String.toList_ofList, all_append, htake, hfraction, hsign, hzeros,
      numeric_digits]
    decide

theorem neutral_of_numeric {s : String} (h : s.toList.all isNumeric = true) (hne : s ≠ "") :
    ∃ c, s.toList.head? = some c ∧ isNeutral c = true := by
  obtain ⟨c, cs, hcs⟩ := exists_cons_of_ne_nil (fun h => hne (String.toList_eq_nil_iff.mp h))
  rw [hcs] at h ⊢
  exact ⟨c, rfl, isNeutral_of_isNumeric (all_eq_true.mp h c (mem_cons_self ..))⟩

theorem text_neutral (x : Binary64) : ∃ c, x.text.toList.head? = some c ∧ isNeutral c = true := by
  cases x with
  | infinite negative => cases negative <;> exact ⟨_, rfl, by decide⟩
  | finite negative m e =>
    have hsign : (if negative then "-" else "").toList.all isNumeric = true := by cases negative <;> decide
    have htrim (n : Nat) : (Binary64.trimZeros (Nat.toDigits 10 n)).all isNumeric = true := by
      refine all_eq_true.mpr fun c hc => all_eq_true.mp (numeric_digits n) c ?_
      rw [Binary64.trimZeros, mem_reverse] at hc
      exact mem_reverse.mp ((dropWhile_suffix _).subset hc)
    rw [Binary64.text]
    split
    · exact neutral_of_numeric (by simp [-all_eq_true, hsign]; decide) (by simp [← String.toList_inj])
    · obtain ⟨hall, hne⟩ := numeric_layout (htrim (Binary64.shortest m e).1)
        ((Binary64.shortest m e).2 + (Nat.toDigits 10 (Binary64.shortest m e).1).length)
      exact neutral_of_numeric (by simp [-all_eq_true, hsign, hall]) (by simp [hne])

omit [Inhabited α] in
/-- A value that is neither a list nor an object. -/
theorem rawLiteral_begins (x : Scalar) : Begins .other (.str (rawLiteral (.scalar x : Tree α)) : Tree α) := by
  cases x with
  | null => exact begins_neutral (c := 'n') (by simp [rawLiteral]) (by decide)
  | bool b =>
    cases b with
    | false => exact ⟨"false", rfl, fun r hr => openingOf_calm (by decide) (by decide) (by decide) hr⟩
    | true => exact begins_neutral (c := 't') (by simp [rawLiteral]) (by decide)
  | int i =>
    have hnum : (toString i).toList.all isNumeric = true ∧ toString i ≠ "" := by
      have htext : (toString i).toList = (Lexeme.number i).chars := rfl
      rw [Ne, ← String.toList_eq_nil_iff, htext]
      obtain ⟨n, ⟨hn, _⟩ | ⟨hn, _⟩⟩ := Lexeme.number_chars i <;> rw [hn]
      · exact ⟨numeric_digits n, Nat.toDigits_ne_nil⟩
      · exact ⟨by rw [all_cons, numeric_digits n]; decide, by simp⟩
    obtain ⟨c, hc, hneutral⟩ := neutral_of_numeric hnum.1 hnum.2
    exact begins_neutral hc hneutral
  | float x =>
    obtain ⟨c, hc, hneutral⟩ := text_neutral x
    exact begins_neutral hc hneutral
  | str s => exact begins_neutral (c := '"') (by simp [rawLiteral]) (by decide)

omit [Inhabited α] in
theorem source_begins {s : String} (h : isLiteralSource s = true) : Begins .other (.str s : Tree α) := by
  rw [isLiteralSource, Bool.or_eq_true, contains_iff_mem, Option.any_eq_true] at h
  rcases h with h | ⟨c, hs, hc⟩
  · simp only [mem_cons, not_mem_nil, or_false] at h
    rcases h with rfl | rfl | rfl <;>
      exact ⟨_, rfl, fun r hr => openingOf_calm (by decide) (by decide) (by decide) hr⟩
  · rw [Bool.or_eq_true, contains_iff_mem] at hc
    have hall : ['"', '\'', '/', '.', '-'].all isNeutral = true := by decide
    exact begins_neutral hs (hc.elim isNeutral_of_isDigit (all_eq_true.mp hall c))

omit [Inhabited α] in
theorem regular_begins {t : Tree α} : Yields (Begins .other) (regular t) :=
  .bind fun _ => .bind fun _ => .pure (begins_neutral (c := '/') (by simp) (by decide))

/-- A literal with a source of its own or a value to print. -/
theorem literal_begins (hf : isFittingLiteral (.obj m fields) = true) (h : literal (.obj m fields) = .ok u) :
    Begins .other u := by
  obtain ⟨raw, hraw, h⟩ := exists_of_bind h
  rw [isFittingLiteral, hraw] at hf
  split at hf
  · next hstr =>
    cases hstr
    cases h
    exact source_begins hf
  · next hnull =>
    cases hnull
    simp only at h
    split at h
    · cases h
      exact begins_neutral (c := 'n') (by simp) (by decide)
    · split at h
      · exact regular_begins _ h
      · obtain ⟨r, hr, h⟩ := exists_of_bind h
        cases hr
        cases hreg : Table.get? fields "regex" with
        | some r =>
          rw [hreg] at h
          exact regular_begins _ h
        | none =>
          rw [hreg] at h
          obtain ⟨v, hv, h⟩ := exists_of_bind h
          cases hv
          cases h
          have hvalue : ((field? (.obj m fields) "value").getD .null).mark?.isNone = true := by
            have hfield : field? (.obj m fields) "regex" = none := hreg
            simp_all
          change Begins .other (.str (rawLiteral ((field? (.obj m fields) "value").getD .null)))
          cases hscalar : (field? (.obj m fields) "value").getD .null with
          | scalar x => exact rawLiteral_begins x
          | _ => simp [hscalar, Tree.mark?] at hvalue
  · cases hf

end Literals

/-- The text of a node starts with that of the field on its left edge, or as its type says. -/
def Opens (indent : String) (t : Tree α) (u : Tree α) : Prop :=
  match leftField? t with
  | some (key, power) => StartsWith indent t key power u
  | none => Begins (tip t) u

/-- The power of an expression is that of its type, and of its operator if it is an operation. -/
theorem power_bare (hk : kind? (.obj m fields) = some k) :
    Yields (fun b => b.2 = ownPower (.obj m fields)) (bare indent k (Part.node indent m fields)) := by
  have hbinary :
      Yields (fun b => b.2 = ((operator? (.obj m fields)).bind power?).getD 0)
        (binary (Part.node indent m fields)) := by
    intro b h
    obtain ⟨op, _, _, _, _, hop, hpow, _⟩ := exists_of_binary h
    simp [operator?_eq hop, hpow]
  unfold bare
  split <;> simp only [ownPower, hk, Option.some.injEq, String.reduceEq, imp_self]
  case h_8 | h_9 => exact hbinary
  case h_23 => exact fun _ h => nomatch h
  all_goals
    try simp only [template, call, new, member, prefixed, update, assignment, conditional, list, object,
      spread, arrow, defaulted]
    repeat' first | exact .pure rfl | refine .bind fun _ => ?_ | split

theorem bare_opens (hk : kind? (.obj m fields) = some k)
    (hf : isFitting (.obj m fields) = true) (h : bare indent k (Part.node indent m fields) = .ok (u, own)) :
    own = ownPower (.obj m fields) ∧ Opens indent (.obj m fields) u := by
  have hown := power_bare hk _ h
  refine ⟨hown, ?_⟩
  unfold bare at h
  split at h <;> simp only [Opens, leftField?, tip, hk]
  · obtain ⟨n, hn, h⟩ := exists_of_bind h
    cases h
    have hfield := exists_of_require hn
    simp only [isFitting, hk, hfield] at hf
    split at hf
    · next n hn =>
      cases hn
      exact name_begins hf
    · cases hf
  · cases h
    exact begins_neutral (c := 't') (by simp) (by decide)
  · exact template_begins _ h
  · obtain ⟨s, _, h⟩ := exists_of_bind h
    cases h
    exact begins_neutral (c := '(') (by simp) (by decide)
  · exact call_startsWith _ h
  · exact new_begins h
  · exact member_startsWith _ h
  · exact binary_startsWith hown.symm h
  · exact binary_startsWith hown.symm h
  · exact prefixed_begins (by simpa [isFitting, hk] using hf) h
  · have hop : (operator? (.obj m fields)).any updateOperators.contains = true := by simpa [isFitting, hk] using hf
    cases hprefix : flagged (.obj m fields) "prefix" with
    | true => exact update_begins hop hprefix h
    | false => exact update_startsWith hop hprefix h
  · exact assignment_startsWith (by simpa [isFitting, hk] using hf) _ h
  · exact conditional_startsWith _ h
  · exact list_begins _ h
  · exact object_begins h
  · exact spread_begins _ h
  · obtain ⟨s, hs, h⟩ := exists_of_bind h
    cases h
    exact function_begins hs
  · exact arrow_begins h
  · obtain ⟨s, hs, h⟩ := exists_of_bind h
    cases h
    exact properties_begins _ hs
  · exact list_begins _ h
  · exact defaulted_startsWith _ h
  · exact spread_begins _ h
  · cases h

theorem exists_of_printExpression (hk : Table.get? fields "type" = some (.str k))
    (hl : (literalKinds.contains k && k != "TemplateLiteral") = false)
    (h : printExpression indent (Part.node indent m fields) p = .ok u) :
    ∃ v own, bare indent k (Part.node indent m fields) = .ok (v, own) ∧
      u = if own < p then .str ("(" ++ v.text ++ ")") else v := by
  rw [printExpression, kind_node hk] at h
  simp only [bind, Except.bind, Tree.asKey, Tree.key?, Scalar.key, hl, Bool.false_eq_true, if_false] at h
  cases hb : bare indent k (Part.node indent m fields) with
  | error e =>
    rw [hb] at h
    cases h
  | ok b =>
    rw [hb] at h
    cases h
    exact ⟨b.1, b.2, rfl, rfl⟩

omit [Inhabited α] in
theorem opening_obj (p : Nat) (m : α) (fields : Fields α) :
    opening p (.obj m fields) = if ownPower (.obj m fields) < p then .other else
      match leftField? (.obj m fields) with
      | some (key, asked) => ((field? (.obj m fields) key).map (opening asked)).getD .other
      | none => tip (.obj m fields) := by
  rw [opening]
  split
  · rfl
  · split
    · exact openingAt_eq ..
    · rfl

omit [Inhabited α] in
theorem fitsLeft_obj (h : fitsLeft (.obj m fields) = true) :
    isFitting (.obj m fields) = true ∧ ∀ key power c, leftField? (.obj m fields) = some (key, power) →
      field? (.obj m fields) key = some c → fitsLeft c = true := by
  rw [fitsLeft, Bool.and_eq_true] at h
  refine ⟨h.1, fun key power c hleft hc => ?_⟩
  have hat := h.2
  rw [hleft] at hat
  change fitsLeftAt key fields = true at hat
  rw [fitsLeftAt_eq, show Table.get? fields key = some c from hc] at hat
  exact hat

omit [Inhabited α] in
theorem opening_literal (hk : kind? (.obj m fields) = some k)
    (hl : (literalKinds.contains k && k != "TemplateLiteral") = true) : opening p (.obj m fields) = .other := by
  have hall : ∀ k ∈ literalKinds, k ∉ ["CallExpression", "MemberExpression", "LogicalExpression", "BinaryExpression",
      "UpdateExpression", "AssignmentExpression", "AssignmentPattern", "ConditionalExpression", "ObjectExpression",
      "ObjectPattern", "FunctionExpression"] := by decide
  rw [Bool.and_eq_true, contains_iff_mem] at hl
  have hno := hall k hl.1
  have hleft : leftField? (.obj m fields) = none := by
    rw [leftField?, hk]
    split <;> simp_all
  have htip : tip (.obj m fields) = .other := by
    rw [tip, hk]
    split <;> simp_all
  rw [opening_obj, hleft, htip]
  exact ite_self _

omit [Inhabited α] in
theorem isFittingLiteral_of (hk : kind? (.obj m fields) = some k)
    (hl : (literalKinds.contains k && k != "TemplateLiteral") = true) (hf : isFitting (.obj m fields) = true) :
    isFittingLiteral (.obj m fields) = true := by
  have hall :
      ∀ k ∈ literalKinds, k ∉ ["Identifier", "UnaryExpression", "UpdateExpression", "AssignmentExpression"] := by
    decide
  rw [Bool.and_eq_true, contains_iff_mem] at hl
  have hno := hall k hl.1
  rw [isFitting, hk] at hf
  split at hf <;> simp_all

/-- What the text of an expression starts with is at the end of its left edge. -/
theorem expression_begins {t : Tree α} (hf : fitsLeft t = true) (h : (Part.of indent t).expression p = .ok u) :
    Begins (opening p t) u := by
  induction t using Tree.induct generalizing p u with
  | scalar s => cases hf
  | arr m items ih => cases hf
  | obj m fields ih =>
    rw [expression_of] at h
    obtain ⟨hfit, hnext⟩ := fitsLeft_obj hf
    cases hk : kind? (.obj m fields) with
    | none => simp [isFitting, hk] at hfit
    | some k =>
      have hk' := kind?_obj.mp hk
      cases hl : literalKinds.contains k && k != "TemplateLiteral" with
      | true =>
        rw [printExpression_literal hk' hl] at h
        rw [opening_literal hk hl]
        exact literal_begins (isFittingLiteral_of hk hl hfit) h
      | false =>
        obtain ⟨v, own, hv, hu⟩ := exists_of_printExpression hk' hl h
        obtain ⟨rfl, hopens⟩ := bare_opens hk hfit hv
        rw [opening_obj]
        by_cases hp : ownPower (.obj m fields) < p
        · rw [if_pos hp] at hu ⊢
          rw [hu]
          exact begins_neutral (c := '(') (by simp) (by decide)
        · rw [if_neg hp] at hu ⊢
          subst hu
          rw [Opens] at hopens
          split at hopens
          · next key power hleft =>
            obtain ⟨c, w, rest, hc, hw, rfl, hcalm⟩ := hopens
            obtain ⟨s, rfl, hs⟩ := ih (key, c) (Table.mem_of_get? hc) (hnext key power c hleft hc) hw
            rw [hc]
            refine ⟨s ++ rest, rfl, fun r _ => ?_⟩
            rw [String.toList_append, append_assoc]
            exact hs _ (hcalm r)
          · exact hopens

theorem statement_expression (hk : Table.get? fields "type" = some (.str "ExpressionStatement")) (depth : Nat) :
    (Part.of indent (.obj m fields)).statement depth = expressionStatement (Part.node indent m fields) := by
  rw [Part.of]
  change printStatement indent (Part.node indent m fields) depth = _
  rw [printStatement, kind_node hk]
  rfl

theorem exists_of_statement {s e : Tree α} {depth : Nat} {text : String} (hs : kind? s = some "ExpressionStatement")
    (he : field? s "expression" = some e) (h : (Part.of indent s).statement depth = .ok text) :
    ∃ u, (Part.of indent e).expression 0 = .ok u ∧
      text = if kind? e = some "ObjectExpression" ∨ kind? e = some "FunctionExpression" then "(" ++ u.text ++ ");"
        else u.text ++ ";" := by
  obtain ⟨m, fields, rfl, hs'⟩ := exists_of_kind? hs
  rw [statement_expression hs'] at h
  obtain ⟨q, hq, h⟩ := exists_of_bind h
  obtain ⟨u, hu, h⟩ := exists_of_bind h
  obtain ⟨b, hb, h⟩ := exists_of_bind h
  obtain ⟨c, hc, rfl⟩ := exists_of_part hq
  obtain rfl : e = c := Option.some.inj (he.symm.trans hc)
  refine ⟨u, hu, ?_⟩
  cases e with
  | scalar x => cases hb
  | arr n items => cases hb
  | obj n entries =>
    rw [hasKind_any] at hb
    cases hb
    simp only [any_cons, any_nil, Bool.or_false, Bool.or_eq_true, hasKind_iff] at h
    split at h
    · next hkind =>
      cases h
      rw [if_pos hkind]
    · next hkind =>
      obtain ⟨x, hx, h⟩ := exists_of_bind h
      cases h
      rw [if_neg hkind]
      cases u with
      | scalar y =>
        cases y <;> cases hx
        rfl
      | _ => cases hx

/-- The text of a statement starts like a block or a declaration just if its expression has
an object, an object pattern or a function at the end of its left edge and is not an object
or a function itself; and the body of an arrow function starts like a block just if it has an
object or an object pattern there and is not an object itself. -/
theorem opening_of_statement_and_body (indent : String) (e : Tree α) (hf : fitsLeft e = true) :
    (∀ (s : Tree α) (depth : Nat) (text : String), kind? s = some "ExpressionStatement" →
      field? s "expression" = some e → (Part.of indent s).statement depth = .ok text →
      openingOf text.toList =
        if kind? e = some "ObjectExpression" ∨ kind? e = some "FunctionExpression" then .other else opening 0 e) ∧
    ∀ (a u : Tree α) (power : Nat), kind? a = some "ArrowFunctionExpression" → field? a "body" = some e →
      kind? e ≠ some "BlockStatement" → (Part.of indent a).expression power = .ok u →
      ∃ before params after, before ∈ ["", "async ", "(", "(async "] ∧ parameters (Part.of indent a) = .ok params ∧
        u = .str (before ++ "(" ++ params ++ ") => " ++ after) ∧
        openingOf after.toList = if kind? e = some "ObjectExpression" then .other else opening 1 e := by
  constructor
  · intro s depth text hs he h
    obtain ⟨u, hu, rfl⟩ := exists_of_statement hs he h
    split
    · rw [String.append_assoc, String.toList_append]
      exact openingOf_neutral (by decide)
    · obtain ⟨v, rfl, hv⟩ := expression_begins hf hu
      rw [String.toList_append]
      exact hv _ (.cons (by decide) (by decide))
  · intro a u power ha hbody hblock h
    obtain ⟨m, fields, rfl, ha'⟩ := exists_of_kind? ha
    rw [expression_of] at h
    obtain ⟨v, own, hv, rfl⟩ := exists_of_printExpression ha' (by decide) h
    obtain rfl : own = 1 := (power_bare ha _ hv).trans (by simp [ownPower, ha])
    obtain ⟨lead, params, text, c, hlead, hparams, rfl, hc, htext⟩ := exists_of_arrow hv
    obtain rfl : e = c := Option.some.inj (hbody.symm.trans hc)
    have hparams' : parameters (Part.of indent (.obj m fields)) = .ok params := by
      rw [← hparams, parameters, parameters, Part.elementsOf, Part.elementsOf, get?_of]
    obtain ⟨w, hw, rfl⟩ := htext hblock
    obtain ⟨s, rfl, hs⟩ := expression_begins hf hw
    have hafter {rest : String} (hrest : Calm rest.toList) :
        openingOf ((if kind? e = some "ObjectExpression" then "(" ++ s ++ ")" else s) ++ rest).toList =
          if kind? e = some "ObjectExpression" then .other else opening 1 e := by
      rw [String.toList_append]
      split
      · rw [String.append_assoc, String.toList_append]
        exact openingOf_neutral (by decide)
      · exact hs _ hrest
    by_cases hpower : 1 < power
    · refine ⟨"(" ++ lead, params, (if kind? e = some "ObjectExpression" then "(" ++ s ++ ")" else s) ++ ")",
        ?_, hparams', ?_, hafter (.cons (by decide) (by decide))⟩
      · simp only [mem_cons, not_mem_nil, or_false] at hlead
        rcases hlead with rfl | rfl <;> decide
      · rw [if_pos hpower]
        simp [Tree.text, String.append_assoc]
    · refine ⟨lead, params, if kind? e = some "ObjectExpression" then "(" ++ s ++ ")" else s, ?_, hparams', ?_, ?_⟩
      · simp only [mem_cons, not_mem_nil, or_false] at hlead
        rcases hlead with rfl | rfl <;> decide
      · rw [if_neg hpower]
        simp [Tree.text]
      · have hempty := @hafter "" .nil
        rwa [String.append_empty] at hempty

end Printing

section Instances

def emptyFunction (async : Bool) : Json :=
  make "FunctionExpression" [("id", .null), ("params", listOf []),
    ("body", make "BlockStatement" [("body", listOf [])]),
    ("generator", .bool false), ("async", .bool async)]

/-- The call of a member of a function, compared with something. -/
def comparedCall : Json :=
  make "BinaryExpression" [("operator", .str "=="),
    ("left", Node.call (make "MemberExpression" [("object", emptyFunction true), ("property", identifier (.str "call")),
      ("computed", .bool false)]) []),
    ("right", identifier (.str "x"))]

def statementOf (e : Json) : Json := make "ExpressionStatement" [("expression", e)]

def arrowTo (e : Json) : Json :=
  make "ArrowFunctionExpression" [("params", listOf []), ("body", e), ("async", .bool true)]

theorem opening_of_statement_and_body_call :
    fitsLeft comparedCall = true ∧ openingOf "async function() \x7b\x7d.call() == x;".toList = .function ∧
      ∃ before params after, before ∈ ["", "async ", "(", "(async "] ∧
        parameters (Part.of "  " (arrowTo comparedCall)) = .ok params ∧
        Tree.str "async () => async function() \x7b\x7d.call() == x" =
          (.str (before ++ "(" ++ params ++ ") => " ++ after) : Json) ∧ openingOf after.toList = .function :=
  have hf : fitsLeft comparedCall = true := by decide +kernel
  have h := opening_of_statement_and_body "  " comparedCall hf
  ⟨hf, h.1 (statementOf comparedCall) 0 _ rfl rfl rfl,
    h.2 (arrowTo comparedCall) _ 0 rfl rfl (by decide) rfl⟩

/-- An assignment to a pattern. -/
def patternAssignment : Json :=
  make "AssignmentExpression" [("operator", .str "="), ("left", make "ObjectPattern" [("properties", listOf [])]),
    ("right", identifier (.str "b"))]

def objectMember : Json :=
  make "MemberExpression" [("object", make "ObjectExpression" [("properties", listOf [])]),
    ("property", identifier (.str "x")), ("computed", .bool false)]

/-- The call of a function reads as a declaration, an assignment to a pattern as a block, and
the body of an arrow function to a member of an object as a block. -/
theorem statement_and_body_misread :
    (∃ text, (Part.of "  " (statementOf (Node.call (emptyFunction false) []))).statement 0 = .ok text ∧
      openingOf text.toList = .function) ∧
    (∃ text, (Part.of "  " (statementOf patternAssignment)).statement 0 = .ok text ∧ openingOf text.toList = .brace) ∧
    ∃ text, (Part.of "  " (arrowTo objectMember)).expression 0 = .ok (.str ("async () => " ++ text)) ∧
      openingOf text.toList = .brace :=
  ⟨⟨"function() \x7b\x7d();", rfl, by decide⟩, ⟨"\x7b  \x7d = b;", rfl, by decide⟩, "\x7b\x7d.x", rfl, by decide⟩

end Instances

end DebugGuards.Printing
