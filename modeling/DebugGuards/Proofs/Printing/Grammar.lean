import Mathlib.Data.List.Basic

/-! How operator expressions are read. A text is cut into tokens, each as long as can be,
and the tokens are put together by a grammar that has a symbol for each binding level.
The grammar keeps `??` apart from `||` and `&&`: neither has a phrase of the other for an
operand unless it stands in parentheses. No sequence of tokens is a phrase of one symbol
in two ways. -/

namespace DebugGuards.Printing

open List

section Tokens

/-- Code points of white space and of line ends. -/
def gaps : List Nat :=
  [0x9, 0xa, 0xb, 0xc, 0xd, 0x20, 0xa0, 0x1680, 0x2000, 0x2001, 0x2002, 0x2003, 0x2004, 0x2005, 0x2006, 0x2007,
    0x2008, 0x2009, 0x200a, 0x2028, 0x2029, 0x202f, 0x205f, 0x3000, 0xfeff]

def isGap (c : Char) : Bool := gaps.contains c.toNat

/-- What words are made of. Beyond ASCII that is everything but gaps, which is more than
names may hold; no other token has such a character. -/
def isWordChar (c : Char) : Bool :=
  !isGap c && (c.isAlphanum || c == '_' || c == '$' || 128 ≤ c.toNat)

def punctuators : List String :=
  ["\x7b", "\x7d", "(", ")", "[", "]", ".", "...", ";", ",", "<", ">", "<=", ">=", "==", "!=", "===", "!==", "+", "-",
    "*", "/", "%", "**", "++", "--", "<<", ">>", ">>>", "&", "|", "^", "!", "~", "&&", "||", "??", "?", "?.", ":", "=",
    "+=", "-=", "*=", "/=", "%=", "**=", "<<=", ">>=", ">>>=", "&=", "|=", "^=", "&&=", "||=", "??=", "=>"]

/-- How comments start. They are no tokens. -/
def commentStarts : List String := ["//", "/*"]

/-- Characters are part of one word, or together start a punctuator or a comment. -/
def joins (p : List Char) (c : Char) : Bool :=
  (p.all isWordChar && isWordChar c) || (punctuators ++ commentStarts).any fun q => (p ++ [c]).isPrefixOf q.toList

def isToken (p : List Char) : Bool := p.all isWordChar || punctuators.contains (String.ofList p)

/-- Tokens with another one in front, if its characters are one. -/
def put (p : List Char) (ts : List String) : Option (List String) :=
  if p.isEmpty then some ts else if isToken p then some (String.ofList p :: ts) else none

/-- The tokens of a text, of which `p` has been read and belongs to the first one. -/
def scan (p : List Char) : List Char → Option (List String)
  | [] => put p []
  | c :: cs =>
    if joins p c then scan (p ++ [c]) cs
    else if isGap c then (scan [] cs).bind (put p)
    else (scan [c] cs).bind (put p)

/-- The tokens of a text. -/
def tokens (text : String) : Option (List String) := scan [] text.toList

def reserved : List String :=
  ["await", "break", "case", "catch", "class", "const", "continue", "debugger", "default", "delete", "do", "else",
    "enum", "export", "extends", "false", "finally", "for", "function", "if", "implements", "import", "in",
    "instanceof", "interface", "let", "new", "null", "package", "private", "protected", "public", "return", "static",
    "super", "switch", "this", "throw", "true", "try", "typeof", "var", "void", "while", "with", "yield"]

/-- A word that may name a variable. -/
def isName (n : String) : Bool :=
  !n.toList.isEmpty && n.toList.all isWordChar && !(n.toList.head?.any Char.isDigit) && !reserved.contains n

section Scanning

variable {p w rest : List Char} {c : Char}

theorem not_isWordChar_of_mem {q : String} (hq : q ∈ punctuators ++ commentStarts) (hc : c ∈ q.toList) :
    isWordChar c = false := by
  -- As a Boolean test, since a quantifier over characters may be decided by trying all of them.
  have hall : (punctuators ++ commentStarts).all (fun q => q.toList.all fun c => !isWordChar c) = true := by decide
  simpa using all_eq_true.mp (all_eq_true.mp hall q hq) c hc

theorem not_isGap_of_mem {q : String} (hq : q ∈ punctuators ++ commentStarts) (hc : c ∈ q.toList) :
    isGap c = false := by
  have hall : (punctuators ++ commentStarts).all (fun q => q.toList.all fun c => !isGap c) = true := by decide
  simpa using all_eq_true.mp (all_eq_true.mp hall q hq) c hc

/-- What joins characters that are no word is in a punctuator or a comment start with them. -/
theorem exists_of_joins (h : joins p c = true) (hw : p.all isWordChar = false ∨ isWordChar c = false) :
    ∃ q ∈ punctuators ++ commentStarts, p ++ [c] <+: q.toList := by
  rw [joins, Bool.or_eq_true, Bool.and_eq_true, any_eq_true] at h
  rcases h with ⟨hp, hc⟩ | ⟨q, hq, hpre⟩
  · rw [hp, hc] at hw
    simp at hw
  · exact ⟨q, hq, isPrefixOf_iff_prefix.mp hpre⟩

theorem not_joins_gap (hc : isGap c = true) (p : List Char) : joins p c = false := by
  refine Bool.eq_false_iff.mpr fun h => ?_
  obtain ⟨q, hq, hpre⟩ := exists_of_joins h (.inr (by simp [isWordChar, hc]))
  have := not_isGap_of_mem hq (hpre.subset (mem_append_right p (mem_singleton.mpr rfl)))
  simp [hc] at this

theorem not_joins_word (hw : w.all isWordChar = true) (hne : w ≠ []) (hc : isWordChar c = false) :
    joins w c = false := by
  refine Bool.eq_false_iff.mpr fun h => ?_
  obtain ⟨q, hq, hpre⟩ := exists_of_joins h (.inr hc)
  obtain ⟨a, ha⟩ := exists_mem_of_ne_nil w hne
  have := not_isWordChar_of_mem hq (hpre.subset (mem_append_left [c] ha))
  rw [all_eq_true.mp hw a ha] at this
  cases this

@[simp] theorem bind_put_nil (r : Option (List String)) : r.bind (put []) = r := by cases r <;> rfl

/-- A token ends where the text does not join it. -/
theorem scan_of_not_joins (h : ∀ c ∈ rest.head?, joins p c = false) : scan p rest = (scan [] rest).bind (put p) := by
  cases rest with
  | nil => rfl
  | cons c cs =>
    have hp : joins p c = false := h c rfl
    rw [scan, if_neg (by simp [hp]), scan]
    cases hg : isGap c with
    | true => simp [not_joins_gap hg]
    | false => cases joins [] c <;> simp

/-- Each character joins those before it. -/
def holdsTogether (p : List Char) : List Char → Bool
  | [] => true
  | c :: cs => joins p c && holdsTogether (p ++ [c]) cs

theorem scan_append (h : holdsTogether p w = true) (rest : List Char) : scan p (w ++ rest) = scan (p ++ w) rest := by
  induction w generalizing p with
  | nil => simp
  | cons c w ih =>
    rw [holdsTogether, Bool.and_eq_true] at h
    rw [cons_append, scan, if_pos h.1, ih h.2, append_assoc, singleton_append]

/-- The text starts with a token. -/
theorem scan_token (hh : holdsTogether [] w = true) (ht : isToken w = true) (hne : w ≠ [])
    (hrest : ∀ c ∈ rest.head?, joins w c = false) :
    scan [] (w ++ rest) = (scan [] rest).map (String.ofList w :: ·) := by
  rw [scan_append hh, nil_append, scan_of_not_joins hrest]
  cases scan [] rest with
  | none => rfl
  | some ts => simp [put, hne, ht]

theorem holdsTogether_word (hp : p.all isWordChar = true) (hw : w.all isWordChar = true) :
    holdsTogether p w = true := by
  induction w generalizing p with
  | nil => rfl
  | cons c w ih =>
    rw [all_cons, Bool.and_eq_true] at hw
    rw [holdsTogether, ih (by simp [hp, hw.1]) hw.2]
    simp [joins, hp, hw.1]

/-- A word is read up to what is no part of it. -/
theorem scan_word (hw : w.all isWordChar = true) (hne : w ≠ []) (hrest : ∀ c ∈ rest.head?, isWordChar c = false) :
    scan [] (w ++ rest) = (scan [] rest).map (String.ofList w :: ·) :=
  scan_token (holdsTogether_word rfl hw) (by simp [isToken, hw]) hne fun c hc => not_joins_word hw hne (hrest c hc)

/-- No token goes on after a parenthesis. -/
theorem not_joins_paren (hp : p = ['('] ∨ p = [')']) (c : Char) : joins p c = false := by
  have hall : ∀ q ∈ punctuators ++ commentStarts, '(' ∈ q.toList.head? ∨ ')' ∈ q.toList.head? →
      q.toList.length = 1 := by
    decide
  refine Bool.eq_false_iff.mpr fun h => ?_
  obtain ⟨q, hq, hpre⟩ := exists_of_joins h (.inl (by rcases hp with rfl | rfl <;> decide))
  have hlen := hpre.length_le
  obtain ⟨rest, hrest⟩ := hpre
  rcases hp with rfl | rfl <;> rw [hall q hq (by simp [← hrest])] at hlen <;> simp at hlen

theorem scan_paren (hp : p = ['('] ∨ p = [')']) (rest : List Char) :
    scan [] (p ++ rest) = (scan [] rest).map (String.ofList p :: ·) := by
  refine scan_token ?_ ?_ ?_ fun c _ => not_joins_paren hp c <;> rcases hp with rfl | rfl <;> decide

theorem scan_gap (hc : isGap c = true) (rest : List Char) : scan [] (c :: rest) = scan [] rest := by
  rw [scan, if_neg (by simp [not_joins_gap hc]), if_pos hc, bind_put_nil]

end Scanning

end Tokens

section Grammar

/-- The symbols of the grammar, from the loosest on. What `??` joins is a symbol of its own
beside disjunctions. -/
inductive Symbol where
  | expression | coalesce | coalesceHead | disjunction | conjunction | bitOr | bitXor | bitAnd | equality | relational
  | shift | additive | multiplicative | exponentiation | operand
deriving DecidableEq

/-- What is read: names, phrases in parentheses, and phrases joined by an operator. -/
inductive Phrase where
  | name (n : String)
  | parens (p : Phrase)
  | binary (operator : String) (left right : Phrase)
deriving DecidableEq

/-- The symbols each of whose phrases is one of a given symbol. -/
def Symbol.units : Symbol → List Symbol
  | expression => [disjunction, coalesce]
  | coalesce => []
  | coalesceHead => [coalesce, bitOr]
  | disjunction => [conjunction]
  | conjunction => [bitOr]
  | bitOr => [bitXor]
  | bitXor => [bitAnd]
  | bitAnd => [equality]
  | equality => [relational]
  | relational => [shift]
  | shift => [additive]
  | additive => [multiplicative]
  | multiplicative => [exponentiation]
  | exponentiation => [operand]
  | operand => []

/-- Operators with the symbols of their operands. -/
structure Production where
  left : Symbol
  operators : List String
  right : Symbol

/-- The operators that make a phrase of a symbol. All but `**` associate to the left. -/
def Symbol.production? : Symbol → Option Production
  | expression | coalesceHead | operand => none
  | coalesce => some ⟨coalesceHead, ["??"], bitOr⟩
  | disjunction => some ⟨disjunction, ["||"], conjunction⟩
  | conjunction => some ⟨conjunction, ["&&"], bitOr⟩
  | bitOr => some ⟨bitOr, ["|"], bitXor⟩
  | bitXor => some ⟨bitXor, ["^"], bitAnd⟩
  | bitAnd => some ⟨bitAnd, ["&"], equality⟩
  | equality => some ⟨equality, ["==", "!=", "===", "!=="], relational⟩
  | relational => some ⟨relational, ["<", ">", "<=", ">=", "in", "instanceof"], shift⟩
  | shift => some ⟨shift, ["<<", ">>", ">>>"], additive⟩
  | additive => some ⟨additive, ["+", "-"], multiplicative⟩
  | multiplicative => some ⟨multiplicative, ["*", "/", "%"], exponentiation⟩
  | exponentiation => some ⟨operand, ["**"], exponentiation⟩

/-- Tokens are a phrase of a symbol. -/
inductive Derives : Symbol → List String → Phrase → Prop
  | name {n : String} (legal : isName n = true) : Derives .operand [n] (.name n)
  | parens {ts : List String} {p : Phrase} (inner : Derives .expression ts p) :
      Derives .operand ("(" :: ts ++ [")"]) (.parens p)
  | unit {a b : Symbol} {ts : List String} {p : Phrase} (mem : b ∈ a.units) (inner : Derives b ts p) : Derives a ts p
  | binary {a : Symbol} {r : Production} {op : String} {ts us : List String} {p q : Phrase}
      (rule : a.production? = some r) (mem : op ∈ r.operators) (left : Derives r.left ts p)
      (right : Derives r.right us q) : Derives a (ts ++ op :: us) (.binary op p q)

end Grammar

section Tops

/-- The operators, from the loosest on. -/
def operators : List String :=
  ["??", "||", "&&", "|", "^", "&", "==", "!=", "===", "!==", "<", ">", "<=", ">=", "in", "instanceof", "<<", ">>",
    ">>>", "+", "-", "*", "/", "%", "**"]

/-- The operators that stand in a phrase of a symbol outside parentheses. -/
def Symbol.admits : Symbol → List String
  | expression => operators
  | coalesce | coalesceHead => "??" :: operators.drop 3
  | disjunction => operators.drop 1
  | conjunction => operators.drop 2
  | bitOr => operators.drop 3
  | bitXor => operators.drop 4
  | bitAnd => operators.drop 5
  | equality => operators.drop 6
  | relational => operators.drop 10
  | shift => operators.drop 16
  | additive => operators.drop 19
  | multiplicative => operators.drop 21
  | exponentiation => operators.drop 24
  | operand => []

theorem Symbol.admits_unit (a : Symbol) : ∀ b ∈ a.units, b.admits ⊆ a.admits := by
  cases a <;> decide

theorem Symbol.admits_production {a : Symbol} {r : Production} (hr : a.production? = some r) :
    r.left.admits ⊆ a.admits ∧ r.operators ⊆ a.admits ∧ r.right.admits ⊆ a.admits := by
  have hall : ∀ r ∈ a.production?, r.left.admits ⊆ a.admits ∧ r.operators ⊆ a.admits ∧ r.right.admits ⊆ a.admits := by
    cases a <;> decide
  exact hall r hr

/-- An operator is not admitted on the side to which it does not associate. -/
theorem Symbol.not_admits_side {a : Symbol} {r : Production} (hr : a.production? = some r) :
    (∀ op ∈ r.operators, op ∉ r.right.admits) ∨ ∀ op ∈ r.operators, op ∉ r.left.admits := by
  have hall : ∀ r ∈ a.production?, (∀ op ∈ r.operators, op ∉ r.right.admits) ∨
      ∀ op ∈ r.operators, op ∉ r.left.admits := by
    cases a <;> decide
  exact hall r hr

/-- The operators of a symbol are not admitted one level further on. -/
theorem Symbol.not_admits_unit {a b : Symbol} {r : Production} (hr : a.production? = some r) (hb : b ∈ a.units) :
    ∀ op ∈ r.operators, op ∉ b.admits := by
  have hall : ∀ r ∈ a.production?, ∀ b ∈ a.units, ∀ op ∈ r.operators, op ∉ b.admits := by cases a <;> decide
  exact hall r hr b hb

/-- Where there are two ways to go on, one is by `??` and the other does not admit it. -/
theorem Symbol.units_cases {a b b' : Symbol} (hb : b ∈ a.units) (hb' : b' ∈ a.units) :
    b = b' ∨ b = coalesce ∧ "??" ∉ b'.admits ∨ b' = coalesce ∧ "??" ∉ b.admits := by
  have hall : ∀ b ∈ a.units, ∀ b' ∈ a.units,
      b = b' ∨ b = coalesce ∧ "??" ∉ b'.admits ∨ b' = coalesce ∧ "??" ∉ b.admits := by cases a <;> decide
  exact hall b hb b' hb'

/-- The operators outside parentheses, `d` of which are open. -/
def topsFrom : Nat → List String → List String
  | _, [] => []
  | d, t :: ts =>
    if t = "(" then topsFrom (d + 1) ts
    else if t = ")" then topsFrom (d - 1) ts
    else if d = 0 ∧ t ∈ operators then t :: topsFrom d ts
    else topsFrom d ts

/-- As many parentheses are closed as are opened, and none before. -/
def Closed (ts : List String) : Prop :=
  ∀ d us, topsFrom d (ts ++ us) = (if d = 0 then topsFrom 0 ts else []) ++ topsFrom d us

variable {ts us vs : List String} {t op : String} {a : Symbol} {p q : Phrase}

theorem not_mem_operators_of_isName (hn : isName t = true) : t ≠ "(" ∧ t ≠ ")" ∧ t ∉ operators := by
  have hall : ∀ t ∈ "(" :: ")" :: operators, isName t = false := by decide
  refine ⟨?_, ?_, ?_⟩ <;> intro h
  · rw [h] at hn; exact absurd hn (by decide)
  · rw [h] at hn; exact absurd hn (by decide)
  · rw [hall t (by simp [h])] at hn; cases hn

theorem not_paren_of_mem_operators (hop : op ∈ operators) : op ≠ "(" ∧ op ≠ ")" := by
  have hall : ∀ op ∈ operators, op ≠ "(" ∧ op ≠ ")" := by decide
  exact hall op hop

theorem topsFrom_operator (hop : op ∈ operators) (d : Nat) (us : List String) :
    topsFrom d (op :: us) = (if d = 0 then [op] else []) ++ topsFrom d us := by
  obtain ⟨h1, h2⟩ := not_paren_of_mem_operators hop
  by_cases hd : d = 0 <;> simp [topsFrom, h1, h2, hop, hd]

theorem Closed.append (ht : Closed ts) (hop : op ∈ operators) (hu : Closed us) : Closed (ts ++ op :: us) := by
  intro d vs
  rw [append_assoc, cons_append, ht, topsFrom_operator hop, hu, ht 0 (op :: us), topsFrom_operator hop]
  by_cases hd : d = 0 <;> simp [hd]

theorem tops_append (ht : Closed ts) (hop : op ∈ operators) :
    topsFrom 0 (ts ++ op :: us) = topsFrom 0 ts ++ op :: topsFrom 0 us := by
  rw [ht, topsFrom_operator hop]
  simp

theorem mem_operators {r : Production} (hr : a.production? = some r) (hop : op ∈ r.operators) : op ∈ operators := by
  have hall : ∀ r ∈ a.production?, ∀ op ∈ r.operators, op ∈ operators := by cases a <;> decide
  exact hall r hr op hop

theorem topsFrom_parens (ht : Closed ts) (d : Nat) (us : List String) :
    topsFrom d (("(" :: ts ++ [")"]) ++ us) = topsFrom d us := by
  have hinner := ht (d + 1) (")" :: us)
  rw [if_neg (Nat.succ_ne_zero d), nil_append] at hinner
  simp [topsFrom, hinner]

theorem tops_parens (ht : Closed ts) : topsFrom 0 ("(" :: ts ++ [")"]) = [] := by
  have hnone := topsFrom_parens ht 0 []
  rwa [append_nil] at hnone

theorem Derives.closed (h : Derives a ts p) : Closed ts := by
  induction h with
  | name legal =>
    obtain ⟨h1, h2, h3⟩ := not_mem_operators_of_isName legal
    intro d us
    simp [topsFrom, h1, h2, h3]
  | parens _ ih =>
    intro d us
    rw [topsFrom_parens ih, tops_parens ih, ite_self, nil_append]
  | unit _ _ ih => exact ih
  | binary rule mem _ _ ihl ihr => exact ihl.append (mem_operators rule mem) ihr

/-- Outside parentheses a phrase has only operators that its symbol admits. -/
theorem Derives.tops_subset (h : Derives a ts p) : topsFrom 0 ts ⊆ a.admits := by
  induction h with
  | name legal =>
    obtain ⟨h1, h2, h3⟩ := not_mem_operators_of_isName legal
    simp [topsFrom, h1, h2, h3]
  | parens inner _ =>
    rw [tops_parens inner.closed]
    exact nil_subset _
  | unit mem _ ih => exact fun t ht => Symbol.admits_unit _ _ mem (ih ht)
  | binary rule mem left _ ihl ihr =>
    obtain ⟨hl, hops, hr⟩ := Symbol.admits_production rule
    rw [tops_append left.closed (mem_operators rule mem)]
    refine append_subset.mpr ⟨fun t ht => hl (ihl ht), cons_subset.mpr ⟨hops mem, fun t ht => hr (ihr ht)⟩⟩

theorem Derives.mem_tops_coalesce (h : Derives .coalesce ts p) : "??" ∈ topsFrom 0 ts := by
  cases h with
  | unit mem => cases mem
  | binary rule mem left _ =>
    cases rule
    obtain rfl := mem_singleton.mp mem
    rw [tops_append left.closed (by decide)]
    simp

/-- If a closed sequence goes on to another one by an operator, what follows is closed. -/
theorem Closed.tops_rest (ht : Closed ts) (hop : op ∈ operators) (htv : Closed (ts ++ op :: vs)) (us : List String) :
    topsFrom 0 (vs ++ us) = topsFrom 0 vs ++ topsFrom 0 us := by
  have hlong := htv 0 us
  rw [tops_append ht hop, append_assoc, cons_append, tops_append ht hop] at hlong
  simpa using hlong

end Tops

section Unambiguous

variable {ts ts' us us' vs : List String} {op op' : String} {a : Symbol} {r : Production} {p p' q q' : Phrase}

/-- A phrase cannot be split at a second place after the first. -/
theorem not_split_later (rule : a.production? = some r) (hop : op ∈ r.operators) (hop' : op' ∈ r.operators)
    (hl : Derives r.left ts p) (hl' : Derives r.left (ts ++ op :: vs) p')
    (hr : Derives r.right (vs ++ op' :: us') q) : False := by
  have hmem := mem_operators rule hop
  rcases Symbol.not_admits_side rule with hside | hside
  · refine hside op' hop' (hr.tops_subset ?_)
    rw [hl.closed.tops_rest hmem hl'.closed, topsFrom_operator (mem_operators rule hop')]
    simp
  · refine hside op hop (hl'.tops_subset ?_)
    rw [tops_append hl.closed hmem]
    simp

theorem split_unique (rule : a.production? = some r) (hop : op ∈ r.operators) (hop' : op' ∈ r.operators)
    (hl : Derives r.left ts p) (hl' : Derives r.left ts' p') (hr : Derives r.right us q) (hr' : Derives r.right us' q')
    (e : ts ++ op :: us = ts' ++ op' :: us') : ts = ts' ∧ op = op' ∧ us = us' := by
  rcases append_eq_append_iff.mp e with ⟨vs, rfl, hvs⟩ | ⟨vs, rfl, hvs⟩
  · cases vs with
    | nil => simpa using hvs
    | cons t vs =>
      obtain ⟨rfl, rfl⟩ := List.cons.inj hvs
      exact (not_split_later rule hop hop' hl hl' hr).elim
  · cases vs with
    | nil => simpa [eq_comm] using hvs
    | cons t vs =>
      obtain ⟨rfl, rfl⟩ := List.cons.inj hvs
      exact (not_split_later rule hop' hop hl' hl hr').elim

theorem not_unit_of_binary {b : Symbol} (rule : a.production? = some r) (hop : op ∈ r.operators)
    (hl : Derives r.left ts p) (hb : b ∈ a.units) : ¬ Derives b (ts ++ op :: us) q := by
  intro h
  refine Symbol.not_admits_unit rule hb op hop (h.tops_subset ?_)
  rw [tops_append hl.closed (mem_operators rule hop)]
  simp

theorem unit_unique {b b' : Symbol} (hb : b ∈ a.units) (hb' : b' ∈ a.units) (h : Derives b ts p)
    (h' : Derives b' ts p') : b = b' := by
  rcases Symbol.units_cases hb hb' with e | ⟨rfl, hnot⟩ | ⟨rfl, hnot⟩
  · exact e
  · exact absurd (h'.tops_subset h.mem_tops_coalesce) hnot
  · exact absurd (h.tops_subset h'.mem_tops_coalesce) hnot

/-- No sequence of tokens is a phrase of a symbol in two ways. -/
theorem Derives.unique (h : Derives a ts p) (h' : Derives a us q) (e : ts = us) : p = q := by
  induction h generalizing us q with
  | @name n legal =>
    cases h' with
    | name _ => rw [singleton_inj.mp e]
    | parens _ => exact absurd (List.cons.inj e).1 (not_mem_operators_of_isName legal).1
    | unit mem => cases mem
    | binary rule => cases rule
  | parens _ ih =>
    cases h' with
    | name legal => exact absurd (List.cons.inj e).1.symm (not_mem_operators_of_isName legal).1
    | parens inner => rw [ih inner (append_cancel_right (List.cons.inj e).2)]
    | unit mem => cases mem
    | binary rule => cases rule
  | unit mem inner ih =>
    cases h' with
    | name => cases mem
    | parens => cases mem
    | unit mem' inner' =>
      subst e
      obtain rfl := unit_unique mem mem' inner inner'
      exact ih inner' rfl
    | binary rule hop left' right' => exact absurd (e ▸ inner) (not_unit_of_binary rule hop left' mem)
  | binary rule hop left right ihl ihr =>
    cases h' with
    | name => cases rule
    | parens => cases rule
    | unit mem inner => exact absurd (e ▸ inner) (not_unit_of_binary rule hop left mem)
    | binary rule' hop' left' right' =>
      obtain rfl := Option.some.inj (rule.symm.trans rule')
      obtain ⟨hts, rfl, hus⟩ := split_unique rule hop hop' left left' right right' e
      rw [ihl left' hts, ihr right' hus]

end Unambiguous

end DebugGuards.Printing
