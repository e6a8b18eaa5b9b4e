import DebugGuards.Proofs.Printing.Composites

/-! String literals as they are read. A literal stands for a text, which is counted in
units of sixteen bits: a character beyond them is two units. Inside the quotes a character
stands for itself, unless it is a quote, a backslash or the end of a line; after a backslash
comes an escape, or the end of a line that goes on with the next one. Texts are written with
backslashes before quotes and backslashes and with an escape for a line feed, but not for a
carriage return: what is written is a literal for the text just if it has none. -/

namespace DebugGuards.Printing.Quotation

open Node List

section Units

/-- The units of a code point. -/
def pointUnits (n : Nat) : List Nat :=
  if n < 0x10000 then [n] else [0xd800 + (n - 0x10000) / 0x400, 0xdc00 + (n - 0x10000) % 0x400]

def units (cs : List Char) : List Nat := cs.flatMap fun c => pointUnits c.toNat

/-- A character is no half of a pair of units. -/
theorem toNat_not_half (c : Char) : c.toNat < 0xd800 ∨ 0xdfff < c.toNat := by
  rcases c.valid with h | h
  · exact .inl h
  · exact .inr h.1

theorem pointUnits_append_inj {c d : Char} {xs ys : List Nat}
    (h : pointUnits c.toNat ++ xs = pointUnits d.toNat ++ ys) : c = d ∧ xs = ys := by
  have hc := toNat_not_half c
  have hd := toNat_not_half d
  have hmax : ∀ e : Char, e.toNat < 0x110000 := fun e => by
    rcases e.valid with h | h
    · exact Nat.lt_trans h (by decide)
    · exact h.2
  have hcmax := hmax c
  have hdmax := hmax d
  rw [pointUnits, pointUnits] at h
  split at h <;> split at h <;> simp only [cons_append, nil_append, List.cons.injEq] at h
  · exact ⟨Char.toNat_inj.mp h.1, h.2⟩
  · omega
  · omega
  · exact ⟨Char.toNat_inj.mp (by omega), h.2.2⟩

theorem units_inj {cs ds : List Char} (h : units cs = units ds) : cs = ds := by
  have hne : ∀ (e : Char) (xs : List Nat), pointUnits e.toNat ++ xs ≠ [] := by
    intro e xs
    rw [pointUnits]
    split <;> simp
  induction cs generalizing ds with
  | nil =>
    cases ds with
    | nil => rfl
    | cons d ds => exact absurd h.symm (hne d _)
  | cons c cs ih =>
    cases ds with
    | nil => exact absurd h (hne c _)
    | cons d ds =>
      obtain ⟨rfl, hrest⟩ := pointUnits_append_inj h
      rw [ih hrest]

end Units

section Reading

/-- What has been read of a literal. -/
inductive Stage where
  | opening
  | inside
  /-- After a backslash. -/
  | escaped
  /-- After the escape for the character zero. -/
  | zero
  /-- After a backslash and a carriage return, which a line feed may follow. -/
  | broken
  /-- Inside an escape with as many digits left. -/
  | digits (left read : Nat)
  | unicode
  | braced (read : Option Nat)
  | closed
deriving DecidableEq

def hexValue? (c : Char) : Option Nat :=
  if c.isDigit then some (c.toNat - '0'.toNat)
  else if 'a' ≤ c ∧ c ≤ 'f' then some (c.toNat - 'a'.toNat + 10)
  else if 'A' ≤ c ∧ c ≤ 'F' then some (c.toNat - 'A'.toNat + 10)
  else none

/-- A character between the quotes. -/
def plain (c : Char) : Option (Stage × List Nat) :=
  if c = '"' then some (.closed, [])
  else if c = '\\' then some (.escaped, [])
  else if c = '\n' ∨ c = '\r' then none
  else some (.inside, pointUnits c.toNat)

/-- A character after a backslash. Digits other than zero start no escape. -/
def escape : Char → Option (Stage × List Nat)
  | 'b' => some (.inside, [8])
  | 't' => some (.inside, [9])
  | 'n' => some (.inside, [10])
  | 'v' => some (.inside, [11])
  | 'f' => some (.inside, [12])
  | 'r' => some (.inside, [13])
  | '0' => some (.zero, [0])
  | 'x' => some (.digits 2 0, [])
  | 'u' => some (.unicode, [])
  | '\r' => some (.broken, [])
  | '\n' | '\u2028' | '\u2029' => some (.inside, [])
  | c => if c.isDigit then none else some (.inside, pointUnits c.toNat)

/-- One character more, with the units that are known from then on. -/
def step : Stage → Char → Option (Stage × List Nat)
  | .opening, c => if c = '"' then some (.inside, []) else none
  | .inside, c => plain c
  | .escaped, c => escape c
  | .zero, c => if c.isDigit then none else plain c
  | .broken, c => if c = '\n' then some (.inside, []) else plain c
  | .digits left read, c => (hexValue? c).map fun d =>
      if left ≤ 1 then (.inside, [16 * read + d]) else (.digits (left - 1) (16 * read + d), [])
  | .unicode, c => if c = '\x7b' then some (.braced none, []) else (hexValue? c).map fun d => (.digits 3 d, [])
  | .braced read, c =>
    if c = '\x7d' then read.map fun n => (.inside, pointUnits n)
    else (hexValue? c).bind fun d =>
      let n := 16 * read.getD 0 + d
      if n ≤ 0x10ffff then some (.braced (some n), []) else none
  | .closed, _ => none

/-- The units that the rest of a literal stands for. -/
def read : Stage → List Char → Option (List Nat)
  | .closed, [] => some []
  | _, [] => none
  | stage, c :: cs => (step stage c).bind fun (next, us) => (read next cs).map (us ++ ·)

/-- The text is one string literal, which stands for these units. -/
def value? (text : String) : Option (List Nat) := read .opening text.toList

/-- The text is one string literal for another text. -/
def Denotes (text s : String) : Prop := value? text = some (units s.toList)

instance (text s : String) : Decidable (Denotes text s) := inferInstanceAs (Decidable (_ = _))

/-- Every quote has a backslash before it, and every backslash something after it. -/
def isSealed : List Char → Bool
  | [] => true
  | '"' :: _ => false
  | ['\\'] => false
  | '\\' :: _ :: cs => isSealed cs
  | _ :: cs => isSealed cs

end Reading

section Writing

variable {c : Char} {cs : List Char}

theorem read_cons (stage : Stage) (c : Char) (cs : List Char) :
    read stage (c :: cs) = (step stage c).bind fun p => (read p.1 cs).map (p.2 ++ ·) := by
  cases stage <;> rfl

/-- A character as it is written is read as that character, unless it is a carriage return. -/
theorem read_escapeLiteral (c : Char) (cs : List Char) :
    read .inside (escapeLiteral c ++ cs) =
      if c = '\r' then none else (read .inside cs).map (pointUnits c.toNat ++ ·) := by
  unfold escapeLiteral
  split
  · simp [read_cons, step, plain, escape, pointUnits, Function.comp_def]
  · simp [read_cons, step, plain, escape, pointUnits, Function.comp_def]
  · simp [read_cons, step, plain, escape, pointUnits, Function.comp_def]
  · next hbackslash hquote hfeed =>
    rw [singleton_append, read_cons, step, plain, if_neg hquote, if_neg hbackslash]
    by_cases hc : c = '\r'
    · simp [hc]
    · rw [if_neg (by simp [hc]; exact hfeed), if_neg hc, Option.bind_some]

theorem read_written (cs : List Char) :
    read .inside (cs.flatMap escapeLiteral ++ ['"']) = if '\r' ∈ cs then none else some (units cs) := by
  induction cs with
  | nil => rfl
  | cons c cs ih =>
    rw [flatMap_cons, append_assoc, read_escapeLiteral, ih]
    by_cases hc : c = '\r'
    · simp [hc]
    · rw [if_neg hc]
      by_cases hcs : '\r' ∈ cs
      · simp [hcs]
      · rw [if_neg hcs, if_neg (by simp [hcs, Ne.symm hc])]
        rfl

theorem isSealed_escapeLiteral (c : Char) (cs : List Char) : isSealed (escapeLiteral c ++ cs) = isSealed cs := by
  unfold escapeLiteral
  split
  · rfl
  · rfl
  · rfl
  · next hbackslash hquote _ =>
    rw [singleton_append, isSealed]
    · exact fun h => hquote h
    · exact fun h _ => hbackslash h
    · exact fun _ _ h _ => hbackslash h

theorem isSealed_written (cs : List Char) : isSealed (cs.flatMap escapeLiteral) = true := by
  induction cs with
  | nil => rfl
  | cons c cs ih => rw [flatMap_cons, isSealed_escapeLiteral, ih]

theorem newline_not_mem_escapeLiteral (c : Char) : '\n' ∉ escapeLiteral c := by
  unfold escapeLiteral
  split
  · decide
  · decide
  · decide
  · next _ _ hfeed => simpa using Ne.symm hfeed

end Writing

section Literals

variable {α : Type}

theorem toList_rawLiteral (s : String) :
    (rawLiteral (.str s : Tree α)).toList = '"' :: (s.toList.flatMap escapeLiteral ++ ['"']) := by
  rw [rawLiteral, String.toList_ofList, escapeText_eq, cons_append]

theorem value?_rawLiteral (s : String) :
    value? (rawLiteral (.str s : Tree α)) = if '\r' ∈ s.toList then none else some (units s.toList) := by
  rw [value?, toList_rawLiteral, read_cons, step, if_pos rfl, Option.bind_some, read_written]
  split <;> rfl

theorem denotes_rawLiteral_iff (s s' : String) :
    Denotes (rawLiteral (.str s : Tree α)) s' ↔ s' = s ∧ '\r' ∉ s.toList := by
  rw [Denotes, value?_rawLiteral]
  split
  · next hreturn => simp [hreturn]
  · next hreturn =>
    rw [Option.some.injEq]
    refine ⟨fun h => ⟨String.toList_inj.mp (units_inj h).symm, hreturn⟩, ?_⟩
    rintro ⟨rfl, _⟩
    rfl

theorem literal_of_rawForm [Inhabited α] {t : Tree α} {text : String} (h : rawForm t = .ok (.str text)) :
    Printing.literal t = .ok (.str text) := by
  rw [Printing.literal, h]
  rfl

theorem truth_rawLiteral (s : String) : (Tree.str (rawLiteral (.str s : Tree α)) : Tree α).truth = true := by
  have hne : rawLiteral (.str s : Tree α) ≠ "" := by
    intro h
    have hlist := toList_rawLiteral (α := α) s
    rw [h] at hlist
    cases hlist
  simpa [Tree.truth, Scalar.truth] using hne

theorem expressionSource_literal [Inhabited α] (dialect : Dialect) (s : String) (power : Nat) :
    expressionSource (dialect.literal (.str s) : Tree α) power = .ok (.str (rawLiteral (.str s : Tree α))) := by
  have htruth := truth_rawLiteral (α := α) s
  cases dialect with
  | uniform =>
    rw [expressionSource, Dialect.literal, Node.literal, make, expression_of, printExpression_literal rfl (by decide)]
    refine literal_of_rawForm ?_
    rw [rawForm, show Tree.get _ "raw" = Except.ok (Tree.str (rawLiteral (.str s : Tree α))) from rfl]
    simp only [bind, Except.bind, htruth, if_true]
    rfl
  | kinded =>
    rw [expressionSource, Dialect.literal, kindedLiteral, make, expression_of, printExpression_literal rfl (by decide)]
    exact literal_of_rawForm rfl

theorem return_mem_written_iff (cs : List Char) : '\r' ∈ cs.flatMap escapeLiteral ↔ '\r' ∈ cs := by
  have hone : ∀ c, '\r' ∈ escapeLiteral c ↔ c = '\r' := by
    intro c
    unfold escapeLiteral
    split
    · decide
    · decide
    · decide
    · exact mem_singleton.trans eq_comm
  simp [mem_flatMap, hone]

/-- A literal made for a text prints, in either dialect and in every place. What is printed
stands in quotes, with no quote or backslash inside that is not part of an escape, and has no
line feed. It is a string literal just if the text has no carriage return, and then it stands
for the text and for no other one. -/
theorem expressionSource_literal_denotes_iff [Inhabited α] (dialect : Dialect) (s : String) (power : Nat) :
    ∃ text body, expressionSource (dialect.literal (.str s) : Tree α) power = .ok (.str text) ∧
      text = rawLiteral (.str s : Tree α) ∧ text.toList = '"' :: (body ++ ['"']) ∧ isSealed body = true ∧
      '\n' ∉ body ∧ ('\r' ∈ body ↔ '\r' ∈ s.toList) ∧ ∀ s', Denotes text s' ↔ s' = s ∧ '\r' ∉ s.toList := by
  refine ⟨_, s.toList.flatMap escapeLiteral, expressionSource_literal dialect s power, rfl, toList_rawLiteral s,
    isSealed_written s.toList, ?_, return_mem_written_iff s.toList, denotes_rawLiteral_iff s⟩
  intro h
  obtain ⟨c, _, hc⟩ := mem_flatMap.mp h
  exact newline_not_mem_escapeLiteral c hc

/-- A carriage return is written as it is, so the literal breaks off. -/
theorem value?_rawLiteral_return :
    '\r' ∈ (rawLiteral (.str "\r" : Json)).toList ∧ value? (rawLiteral (.str "\r" : Json)) = none := by
  decide

/-- A text with a quote, a backslash before a quote, a line feed and a pair of units. -/
example : Denotes (rawLiteral (.str "a\"\\\"\n😀" : Json)) "a\"\\\"\n😀" := by decide

end Literals

end DebugGuards.Printing.Quotation
