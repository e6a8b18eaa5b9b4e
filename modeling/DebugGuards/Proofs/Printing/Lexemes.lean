import Mathlib.Data.List.Chain
import DebugGuards.Node.Build
import DebugGuards.Proofs.Printing.Grammar

/-! Text put together from words, numbers, quoted texts and marks. A quoted text shows where
it ends and so does a mark, since no mark is the start of another. If no word or number
comes right after another one, the text determines what it was put together from. -/

namespace DebugGuards.Printing

open List

inductive Mark where
  | blank
  | comma
  | colon
  | equals
  | star
  | dots
  | openBracket
  | closeBracket
  | openBrace
  | closeBrace
  | openParen
  | closeParen
deriving DecidableEq

namespace Mark

def chars : Mark → List Char
  | blank => [' ']
  | comma => [',']
  | colon => [':']
  | equals => ['=']
  | star => ['*']
  | dots => ['.', '.', '.']
  | openBracket => ['[']
  | closeBracket => [']']
  | openBrace => ['\x7b']
  | closeBrace => ['\x7d']
  | openParen => ['(']
  | closeParen => [')']

def ofFirst? : Char → Option Mark
  | ' ' => some blank
  | ',' => some comma
  | ':' => some colon
  | '=' => some equals
  | '*' => some star
  | '.' => some dots
  | '[' => some openBracket
  | ']' => some closeBracket
  | '\x7b' => some openBrace
  | '\x7d' => some closeBrace
  | '(' => some openParen
  | ')' => some closeParen
  | _ => none

theorem ofFirst?_chars (m : Mark) : m.chars.head?.bind ofFirst? = some m := by
  cases m <;> rfl

theorem chars_append_inj {m k : Mark} {xs ys : List Char} (h : m.chars ++ xs = k.chars ++ ys) : m = k ∧ xs = ys := by
  have hfirst : ∀ (m : Mark) (xs : List Char), (m.chars ++ xs).head?.bind ofFirst? = some m := by
    intro m xs
    rw [head?_append_of_ne_nil _ (by cases m <;> simp [chars]), ofFirst?_chars]
  have hmk : m = k := by
    rw [← Option.some.injEq, ← hfirst m xs, h, hfirst]
  subst hmk
  exact ⟨rfl, append_cancel_left h⟩

end Mark

inductive Lexeme where
  | word (w : String)
  | number (i : Int)
  | quoted (s : String)
  | mark (m : Mark)

namespace Lexeme

def chars : Lexeme → List Char
  | word w => w.toList
  | number i => i.repr.toList
  | quoted s => '"' :: (s.toList.flatMap Node.escapeLiteral ++ ['"'])
  | mark m => m.chars

def text (x : Lexeme) : String := String.ofList x.chars

/-- Words and numbers, which end only where something else starts. -/
def isLong : Lexeme → Bool
  | word _ | number _ => true
  | quoted _ | mark _ => false

/-- A word does not start with a digit. -/
def isSound : Lexeme → Bool
  | word w => !w.toList.isEmpty && w.toList.all isWordChar && !(w.toList.head?.any Char.isDigit)
  | number _ | quoted _ | mark _ => true

/-- What the characters of words and numbers are. -/
def isInner (c : Char) : Bool := isWordChar c || c == '-'

end Lexeme

section Quoted

variable {c d : Char} {cs ds xs ys : List Char}

/-- What is escaped starts with a backslash, and nothing else does. -/
theorem escapeLiteral_append_inj (h : Node.escapeLiteral c ++ xs = Node.escapeLiteral d ++ ys) : c = d ∧ xs = ys := by
  unfold Node.escapeLiteral at h
  split at h <;> split at h <;> grind

theorem escapeLiteral_append_ne_quote : Node.escapeLiteral c ++ xs ≠ '"' :: ys := by
  unfold Node.escapeLiteral
  split <;> simp_all

/-- A quoted text ends at its first quote that is not escaped. -/
theorem quoted_append_inj
    (h : cs.flatMap Node.escapeLiteral ++ '"' :: xs = ds.flatMap Node.escapeLiteral ++ '"' :: ys) :
    cs = ds ∧ xs = ys := by
  induction cs generalizing ds with
  | nil =>
    cases ds with
    | nil => simpa using h
    | cons d ds =>
      rw [flatMap_cons, append_assoc] at h
      exact absurd h.symm escapeLiteral_append_ne_quote
  | cons c cs ih =>
    rw [flatMap_cons, append_assoc] at h
    cases ds with
    | nil => exact absurd h escapeLiteral_append_ne_quote
    | cons d ds =>
      rw [flatMap_cons, append_assoc] at h
      obtain ⟨rfl, hrest⟩ := escapeLiteral_append_inj h
      obtain ⟨rfl, hxy⟩ := ih hrest
      exact ⟨rfl, hxy⟩

end Quoted

/-- Runs of one kind of characters are equal if what follows each is of another kind. -/
theorem run_append_inj {p : Char → Bool} {w v xs ys : List Char} (hw : w.all p = true) (hv : v.all p = true)
    (hx : xs.head?.any p = false) (hy : ys.head?.any p = false) (h : w ++ xs = v ++ ys) : w = v ∧ xs = ys := by
  have htake : ∀ {u zs : List Char}, u.all p = true → zs.head?.any p = false → (u ++ zs).takeWhile p = u := by
    intro u zs hu hz
    rw [takeWhile_append_of_pos (all_eq_true.mp hu)]
    cases zs with
    | nil => simp
    | cons z zs => simpa [takeWhile_cons] using hz
  have hwv : w = v := by rw [← htake hw hx, h, htake hv hy]
  subst hwv
  exact ⟨rfl, append_cancel_left h⟩

namespace Lexeme

variable {x y : Lexeme} {xs ys : List Char}

theorem isInner_of_isDigit {c : Char} (h : c.isDigit = true) : isInner c = true := by
  have hrange : 48 ≤ c.toNat ∧ c.toNat ≤ 57 := by
    simpa [Char.isDigit, UInt32.le_iff_toNat_le] using h
  have hgap : isGap c = false := by
    simp only [isGap, gaps, contains_cons, contains_nil, Bool.or_false, Bool.or_eq_false_iff,
      beq_eq_false_iff_ne]
    omega
  simp [isInner, isWordChar, hgap, Char.isAlphanum, h]

/-- A number is made of digits, with a dash before them if it is negative. -/
theorem number_chars (i : Int) : ∃ n : Nat, (number i).chars = Nat.toDigits 10 n ∧ i = n ∨
    (number i).chars = '-' :: Nat.toDigits 10 n ∧ i = -n := by
  cases i with
  | ofNat n => exact ⟨n, .inl ⟨by simp [chars, Int.repr, Nat.repr_eq_ofList_toDigits], rfl⟩⟩
  | negSucc n => exact ⟨n + 1, .inr ⟨by simp [chars, Int.repr, Nat.repr_eq_ofList_toDigits], rfl⟩⟩

theorem isDigit_of_mem {n : Nat} {c : Char} (h : c ∈ Nat.toDigits 10 n) : c.isDigit = true :=
  Nat.isDigit_of_mem_toDigits (by decide) (by decide) h

theorem dash_not_mem (n : Nat) : '-' ∉ Nat.toDigits 10 n := fun h => absurd (isDigit_of_mem h) (by decide)

theorem toDigits_inj {m n : Nat} (h : Nat.toDigits 10 m = Nat.toDigits 10 n) : m = n := by
  rw [← Nat.ofDigitChars_toDigits (b := 10) (n := m) (by decide) (by decide), h,
    Nat.ofDigitChars_toDigits (by decide) (by decide)]

theorem number_inj {i j : Int} (h : (number i).chars = (number j).chars) : i = j := by
  obtain ⟨m, ⟨hm, rfl⟩ | ⟨hm, rfl⟩⟩ := number_chars i <;> obtain ⟨n, ⟨hn, rfl⟩ | ⟨hn, rfl⟩⟩ := number_chars j <;>
    rw [hm, hn] at h
  · rw [toDigits_inj h]
  · exact absurd (by simp [h]) (dash_not_mem m)
  · exact absurd (by simp [← h]) (dash_not_mem n)
  · rw [toDigits_inj (List.cons.inj h).2]

theorem long_all_inner (hx : x.isSound = true) (hl : x.isLong = true) : x.chars.all isInner = true := by
  cases x with
  | word w =>
    simp only [isSound, Bool.and_eq_true] at hx
    refine all_eq_true.mpr fun c hc => ?_
    simp [isInner, all_eq_true.mp hx.1.2 c hc]
  | number i =>
    obtain ⟨n, hn⟩ := number_chars i
    have hdigits : (Nat.toDigits 10 n).all isInner = true :=
      all_eq_true.mpr fun c hc => isInner_of_isDigit (isDigit_of_mem hc)
    rcases hn with ⟨h, -⟩ | ⟨h, -⟩ <;> rw [h]
    · exact hdigits
    · rw [all_cons, hdigits]
      decide
  | quoted s => cases hl
  | mark m => cases hl

theorem word_chars_ne_number {w : String} (hw : (word w).isSound = true) (i : Int) :
    (word w).chars ≠ (number i).chars := by
  intro h
  simp only [isSound, Bool.and_eq_true, Bool.not_eq_true'] at hw
  have hhead : ∀ c ∈ (number i).chars.head?, isWordChar c = true ∧ c.isDigit = false := by
    intro c hc
    rw [← h] at hc
    have hall := all_eq_true.mp hw.1.2 c (mem_of_mem_head? hc)
    rw [chars, Option.mem_def] at hc
    rw [hc] at hw
    exact ⟨hall, hw.2⟩
  obtain ⟨n, ⟨hn, -⟩ | ⟨hn, -⟩⟩ := number_chars i <;> rw [hn] at hhead
  · obtain ⟨c, cs, hcs⟩ := exists_cons_of_ne_nil (Nat.toDigits_ne_nil (n := n) (b := 10))
    have hdigit := isDigit_of_mem (n := n) (c := c) (by simp [hcs])
    rw [(hhead c (by simp [hcs])).2] at hdigit
    cases hdigit
  · exact absurd (hhead '-' rfl).1 (by decide)

/-- The first character tells whether a word or number starts. -/
theorem exists_first (hx : x.isSound = true) : ∃ c cs, x.chars = c :: cs ∧ isInner c = x.isLong := by
  have hinner := long_all_inner hx
  have hlong : x.chars ≠ [] → x.isLong = true → ∃ c cs, x.chars = c :: cs ∧ isInner c = x.isLong := by
    intro hne hl
    obtain ⟨c, cs, hcs⟩ := exists_cons_of_ne_nil hne
    refine ⟨c, cs, hcs, ?_⟩
    rw [hl]
    exact all_eq_true.mp (hinner hl) c (by simp [hcs])
  cases x with
  | word w =>
    simp only [isSound, Bool.and_eq_true, Bool.not_eq_true', isEmpty_eq_false_iff] at hx
    exact hlong hx.1.1 rfl
  | number i =>
    obtain ⟨n, ⟨hn, -⟩ | ⟨hn, -⟩⟩ := number_chars i <;> exact hlong (by simp [hn]) rfl
  | quoted s => exact ⟨_, _, rfl, show isInner '"' = false by decide⟩
  | mark m => cases m <;> exact ⟨_, _, rfl, by decide⟩

theorem eq_of_chars_eq (hx : x.isSound = true) (hy : y.isSound = true) (hl : x.isLong = true) (hl' : y.isLong = true)
    (h : x.chars = y.chars) : x = y := by
  cases x with
  | word w =>
    cases y with
    | word v => rw [String.toList_inj.mp h]
    | number i => exact absurd h (word_chars_ne_number hx i)
    | quoted s | mark m => cases hl'
  | number i =>
    cases y with
    | word v => exact absurd h.symm (word_chars_ne_number hy i)
    | number j => rw [number_inj h]
    | quoted s | mark m => cases hl'
  | quoted s | mark m => cases hl

theorem short_append_inj (hl : x.isLong = false) (hl' : y.isLong = false) (h : x.chars ++ xs = y.chars ++ ys) :
    x = y ∧ xs = ys := by
  cases x with
  | word w | number i => cases hl
  | quoted s =>
    cases y with
    | word w | number i => cases hl'
    | quoted t =>
      simp only [chars, cons_append, append_assoc, List.cons.injEq, true_and] at h
      obtain ⟨hst, hxy⟩ := quoted_append_inj h
      exact ⟨by rw [String.toList_inj.mp hst], hxy⟩
    | mark m => cases m <;> cases h
  | mark m =>
    cases y with
    | word w | number i => cases hl'
    | quoted t => cases m <;> cases h
    | mark k =>
      obtain ⟨rfl, hxy⟩ := Mark.chars_append_inj h
      exact ⟨rfl, hxy⟩

/-- The start of a text is one lexeme, if a word or number does not go on in the rest. -/
theorem chars_append_inj (hx : x.isSound = true) (hy : y.isSound = true)
    (hxs : x.isLong = true → xs.head?.any isInner = false) (hys : y.isLong = true → ys.head?.any isInner = false)
    (h : x.chars ++ xs = y.chars ++ ys) : x = y ∧ xs = ys := by
  obtain ⟨c, cs, hc, hci⟩ := exists_first hx
  obtain ⟨d, ds, hd, hdi⟩ := exists_first hy
  have hcd : c = d := by
    rw [hc, hd] at h
    exact (List.cons.inj h).1
  subst hcd
  have hlong : x.isLong = y.isLong := hci.symm.trans hdi
  cases hl : x.isLong with
  | true =>
    have hl' : y.isLong = true := hlong.symm.trans hl
    obtain ⟨heq, hrest⟩ := run_append_inj (long_all_inner hx hl) (long_all_inner hy hl') (hxs hl) (hys hl') h
    exact ⟨eq_of_chars_eq hx hy hl hl' heq, hrest⟩
  | false => exact short_append_inj hl (hlong.symm.trans hl) h

end Lexeme

open Lexeme

/-- The text of lexemes one after the other. -/
def spell (xs : List Lexeme) : String := String.join (xs.map text)

@[simp] theorem spell_nil : spell [] = "" := rfl

@[simp] theorem spell_cons (x : Lexeme) (xs : List Lexeme) : spell (x :: xs) = x.text ++ spell xs := by
  rw [spell, map_cons, String.join_cons, spell]

@[simp] theorem spell_append (xs ys : List Lexeme) : spell (xs ++ ys) = spell xs ++ spell ys := by
  rw [spell, map_append, String.join_append, spell, spell]

/-- Lexemes of which no word or number comes right after another one. -/
structure Spelled (xs : List Lexeme) : Prop where
  sound : ∀ x ∈ xs, x.isSound = true
  apart : xs.IsChain fun x y => x.isLong = true → y.isLong = false

namespace Spelled

variable {x : Lexeme} {xs ys : List Lexeme} {m : Mark}

theorem nil : Spelled [] := ⟨by simp, .nil⟩

theorem single (hx : x.isSound = true) : Spelled [x] := ⟨by simpa using hx, .singleton _⟩

theorem tail (h : Spelled (x :: xs)) : Spelled xs :=
  ⟨fun y hy => h.sound y (mem_cons_of_mem x hy), h.apart.tail⟩

theorem mark (h : Spelled xs) : Spelled (.mark m :: xs) := by
  refine ⟨forall_mem_cons.mpr ⟨rfl, h.sound⟩, isChain_cons.mpr ⟨?_, h.apart⟩⟩
  rintro y - ⟨⟩

theorem append_mark (h : Spelled xs) (h' : Spelled (.mark m :: ys)) : Spelled (xs ++ .mark m :: ys) := by
  refine ⟨forall_mem_append.mpr ⟨h.sound, h'.sound⟩, isChain_append.mpr ⟨h.apart, h'.apart, ?_⟩⟩
  rintro x - y ⟨⟩ -
  rfl

/-- A word or number does not go on in the rest of the text. -/
theorem head_chars (h : Spelled (x :: xs)) (hl : x.isLong = true) : (xs.flatMap chars).head?.any isInner = false := by
  cases xs with
  | nil => rfl
  | cons y xs =>
    obtain ⟨c, cs, hc, hinner⟩ := exists_first (h.sound y (by simp))
    rw [flatMap_cons, hc, cons_append, head?_cons, Option.any_some, hinner]
    exact (isChain_cons_cons.mp h.apart).1 hl

theorem chars_inj (hx : Spelled xs) (hy : Spelled ys) (h : xs.flatMap chars = ys.flatMap chars) : xs = ys := by
  induction xs generalizing ys with
  | nil =>
    cases ys with
    | nil => rfl
    | cons y ys =>
      obtain ⟨c, cs, hc, -⟩ := exists_first (hy.sound y (by simp))
      simp [hc] at h
  | cons x xs ih =>
    cases ys with
    | nil =>
      obtain ⟨c, cs, hc, -⟩ := exists_first (hx.sound x (by simp))
      simp [hc] at h
    | cons y ys =>
      rw [flatMap_cons, flatMap_cons] at h
      obtain ⟨rfl, hrest⟩ :=
        chars_append_inj (hx.sound x (by simp)) (hy.sound y (by simp)) hx.head_chars hy.head_chars h
      rw [ih hx.tail hy.tail hrest]

end Spelled

end DebugGuards.Printing
