import Mathlib.Data.List.Chain
import DebugGuards.Proofs.Printing.Reading

/-! Printed text in pieces. A text is put together from tokens and blanks, and if no token
runs into the next one, cutting the text gives the tokens back. -/

namespace DebugGuards.Printing

open List

/-- Sequences of pieces with commas between them. -/
def commas : List (List String) → List String
  | [] => []
  | [ps] => ps
  | ps :: qs :: rest => ps ++ "," :: " " :: commas (qs :: rest)

theorem join_commas (pss : List (List String)) :
    String.join (commas pss) = ", ".intercalate (pss.map String.join) := by
  induction pss with
  | nil => rfl
  | cons ps pss ih =>
    cases pss with
    | nil => simp [commas]
    | cons qs rest =>
      rw [commas, String.join_append, String.join_cons, String.join_cons, ih, map_cons, map_cons,
        map_cons, String.intercalate_cons_cons]
      simp [← String.toList_inj]

/-- Parentheses around what binds looser than its place asks for. -/
def enclose (own p : Nat) (ps : List String) : List String := if own < p then "(" :: ps ++ [")"] else ps

theorem join_enclose (own p : Nat) (ps : List String) :
    String.join (enclose own p ps) = if own < p then "(" ++ String.join ps ++ ")" else String.join ps := by
  rw [enclose]
  split
  · rw [String.join_append, String.join_cons, String.join_cons, String.join_nil, String.append_empty]
  · rfl

section Tokens

/-- A token or a blank. -/
def IsPiece (a : String) : Prop := a = " " ∨ holdsTogether [] a.toList = true ∧ isToken a.toList = true ∧ a.toList ≠ []

/-- Whether a token goes on in the next piece. -/
def goesOn (a b : String) : Bool := b.toList.head?.any (joins a.toList)

theorem goesOn_eq_false {a b : String} : goesOn a b = false ↔ ∀ c ∈ b.toList.head?, joins a.toList c = false := by
  rw [goesOn]
  cases b.toList.head? <;> simp

/-- A piece does not go on in the next one. -/
def Apart (a b : String) : Prop := a = " " ∨ goesOn a b = false

instance (a b : String) : Decidable (Apart a b) := inferInstanceAs (Decidable (_ ∨ _))

theorem apart_blank (a : String) : Apart a " " := by
  refine .inr (goesOn_eq_false.mpr ?_)
  rintro c ⟨⟩
  exact not_joins_gap (by decide) _

/-- The tokens among the pieces. -/
def tokensOf (ps : List String) : List String := ps.filter (· ≠ " ")

@[simp] theorem tokensOf_append (ps qs : List String) : tokensOf (ps ++ qs) = tokensOf ps ++ tokensOf qs :=
  filter_append ..

@[simp] theorem tokensOf_blank (ps : List String) : tokensOf (" " :: ps) = tokensOf ps := by
  rw [tokensOf, filter_cons_of_neg (by simp), tokensOf]

theorem tokensOf_cons {a : String} (ha : a ≠ " ") (ps : List String) : tokensOf (a :: ps) = a :: tokensOf ps := by
  rw [tokensOf, filter_cons_of_pos (by simpa using ha), tokensOf]

@[simp] theorem tokensOf_enclose (own p : Nat) (ps : List String) :
    tokensOf (enclose own p ps) = enclose own p (tokensOf ps) := by
  rw [enclose, enclose]
  split
  · rw [tokensOf_append, tokensOf_cons (by decide), tokensOf_cons (by decide)]
    rfl
  · rfl

/-- Cutting a text gives the tokens it was put together from. -/
theorem tokens_join {ps : List String} (hp : ∀ a ∈ ps, IsPiece a) (hc : ps.IsChain Apart) :
    tokens (String.join ps) = some (tokensOf ps) := by
  rw [tokens]
  induction ps with
  | nil => rfl
  | cons a ps ih =>
    rw [forall_mem_cons] at hp
    have hrest := ih hp.2 hc.tail
    rw [String.join_cons, String.toList_append]
    rcases hp.1 with rfl | ⟨hh, ht, hne⟩
    · rw [tokensOf_blank, show " ".toList = [' '] from rfl, singleton_append, scan_gap (by decide), hrest]
    · have ha : a ≠ " " := by
        rintro rfl
        exact absurd ht (by decide)
      have hnext : ∀ c ∈ (String.join ps).toList.head?, joins a.toList c = false := by
        cases ps with
        | nil => simp
        | cons b ps =>
          have hb : b.toList ≠ [] := by
            rcases hp.2 b (mem_cons_self ..) with rfl | h
            · decide
            · exact h.2.2
          rw [String.join_cons, String.toList_append, head?_append_of_ne_nil _ hb]
          exact goesOn_eq_false.mp ((isChain_cons_cons.mp hc).1.resolve_left ha)
      rw [scan_token hh ht hne hnext, hrest, tokensOf_cons ha, String.ofList_toList]
      rfl

end Tokens

section Printable

variable {a b : String} {ps qs : List String} {pss : List (List String)}

theorem isPiece_name (h : isName a = true) : IsPiece a := by
  simp only [isName, Bool.and_eq_true] at h
  exact .inr ⟨holdsTogether_word rfl h.1.1.2, by simp [isToken, h.1.1.2], by simpa using h.1.1.1⟩

/-- The tokens of expressions other than names. -/
def knownTokens : List String :=
  ["(", ")", "[", "]", ".", ",", "?", ":", "new"] ++ operators ++ unaryOperators ++ updateOperators ++
    assignmentOperators

theorem isPiece_known (h : a ∈ knownTokens) : IsPiece a := by
  have hall : ∀ a ∈ knownTokens, holdsTogether [] a.toList = true ∧ isToken a.toList = true ∧ a.toList ≠ [] := by
    decide
  exact .inr (hall a h)

/-- What an expression may end with. -/
def closes (a : String) : Bool := [")", "]", "++", "--"].contains a || isName a

/-- What may come after an expression without a blank, or the blank. -/
def followers : List String := [" ", "(", ")", "[", "]", ".", ",", "++", "--"]

/-- Pieces that do not go on in the start of any expression. -/
def openers : List String := [" ", "(", "[", "++", "--"]

theorem not_joins_wordChar {p : List Char} {c : Char} (hp : p.all isWordChar = false) (hc : isWordChar c = true) :
    joins p c = false := by
  refine Bool.eq_false_iff.mpr fun h => ?_
  obtain ⟨q, hq, hpre⟩ := exists_of_joins h (.inl hp)
  have := not_isWordChar_of_mem hq (hpre.subset (mem_append_right p (mem_singleton.mpr rfl)))
  rw [hc] at this
  cases this

theorem apart_name (ha : a.toList.all isWordChar = false) (hb : isName b = true) : Apart a b := by
  simp only [isName, Bool.and_eq_true] at hb
  exact .inr (goesOn_eq_false.mpr fun c hc =>
    not_joins_wordChar ha (all_eq_true.mp hb.1.1.2 c (mem_of_mem_head? hc)))

theorem apart_of_closes (ha : closes a = true) (hb : b ∈ followers) : Apart a b := by
  have hall : ∀ b ∈ followers, (∀ a ∈ [")", "]", "++", "--"], Apart a b) ∧
      b.toList.head?.all (fun c => !isWordChar c) = true := by decide
  obtain ⟨hknown, hword⟩ := hall b hb
  rw [closes, Bool.or_eq_true, contains_iff_mem] at ha
  rcases ha with ha | ha
  · exact hknown a ha
  · simp only [isName, Bool.and_eq_true] at ha
    refine .inr (goesOn_eq_false.mpr fun c hc => not_joins_word ha.1.1.2 (by simpa using ha.1.1.1) ?_)
    rw [Option.mem_def.mp hc] at hword
    simpa using hword

/-- What an expression may start with, names apart. -/
theorem lead?_cases (h : (lead? b).isSome = true) : b ∈ "(" :: "new" :: unaryOperators ++ updateOperators ∨
    isName b = true := by
  simp only [mem_append, mem_cons]
  unfold lead? at h
  split at h
  · simp_all
  split at h
  · simp_all
  split at h
  · simp_all
  split at h
  · simp_all
  split at h
  · exact .inr ‹_›
  · cases h

theorem apart_of_lead (ha : a ∈ openers) (hb : (lead? b).isSome = true) : Apart a b := by
  have hall : ∀ a ∈ openers, (∀ b ∈ "(" :: "new" :: unaryOperators ++ updateOperators, Apart a b) ∧
      a.toList.all isWordChar = false := by decide
  obtain ⟨hknown, hword⟩ := hall a ha
  rcases lead?_cases hb with hb | hb
  · exact hknown b hb
  · exact apart_name hword hb

/-- Pieces that are told apart, from the start of an expression to the end of one. -/
structure Printable (ps : List String) : Prop where
  pieces : ∀ a ∈ ps, IsPiece a
  apart : ps.IsChain Apart
  first : ∃ a ∈ ps.head?, (lead? a).isSome = true
  last : ∃ a ∈ ps.getLast?, closes a = true

namespace Printable

theorem ne_nil (h : Printable ps) : ps ≠ [] := by
  rintro rfl
  obtain ⟨a, ha, _⟩ := h.first
  cases ha

theorem exists_tokensOf (h : Printable ps) : ∃ t ts, tokensOf ps = t :: ts ∧ t ≠ ")" := by
  obtain ⟨a, ha, hlead⟩ := h.first
  have hne : ∀ b, lead? b = none → a ≠ b := by
    rintro b hb rfl
    rw [hb] at hlead
    cases hlead
  obtain ⟨qs, rfl⟩ := head?_eq_some_iff.mp ha
  exact ⟨a, tokensOf qs, tokensOf_cons (hne " " (by decide)) qs, hne ")" (by decide)⟩

theorem name (h : isName a = true) (hlead : (lead? a).isSome = true) : Printable [a] :=
  ⟨by simpa using isPiece_name h, isChain_singleton _, ⟨a, rfl, hlead⟩, a, rfl, by simp [closes, h]⟩

/-- Going on after an expression. -/
theorem append (h : Printable ps) (hb : b ∈ followers) (hp : ∀ a ∈ b :: qs, IsPiece a) (hc : (b :: qs).IsChain Apart)
    (hl : ∃ a ∈ (b :: qs).getLast?, closes a = true) : Printable (ps ++ b :: qs) where
  pieces := forall_mem_append.mpr ⟨h.pieces, hp⟩
  apart := by
    refine isChain_append.mpr ⟨h.apart, hc, fun x hx y hy => ?_⟩
    obtain ⟨a, ha, hcl⟩ := h.last
    obtain rfl := Option.mem_unique hx ha
    obtain rfl : b = y := Option.some.inj hy
    exact apart_of_closes hcl hb
  first := by
    rw [head?_append_of_ne_nil _ h.ne_nil]
    exact h.first
  last := by
    rw [getLast?_append_of_ne_nil _ (cons_ne_nil b qs)]
    exact hl

/-- Something before an expression that does not run into it. -/
theorem chain_cons (h : Printable ps) (ha : ∀ b ∈ ps.head?, Apart a b) (hc : (ps ++ qs).IsChain Apart) :
    (a :: (ps ++ qs)).IsChain Apart := by
  refine isChain_cons.mpr ⟨?_, hc⟩
  rwa [head?_append_of_ne_nil _ h.ne_nil]

theorem apart_first (h : Printable ps) (ha : a ∈ openers) : ∀ b ∈ ps.head?, Apart a b := by
  intro b hb
  obtain ⟨x, hx, hlead⟩ := h.first
  obtain rfl := Option.mem_unique hb hx
  exact apart_of_lead ha hlead

end Printable

theorem isChain_bracket (h : ps = [] ∨ Printable ps) (hab : (a, b) ∈ [("(", ")"), ("[", "]")]) :
    (a :: (ps ++ [b])).IsChain Apart := by
  have hall : ∀ q ∈ [("(", ")"), ("[", "]")], q.1 ∈ openers ∧ q.2 ∈ followers ∧ Apart q.1 q.2 := by decide
  obtain ⟨ha, hb, hapart⟩ := hall _ hab
  rcases h with rfl | h
  · exact isChain_pair.mpr hapart
  · refine h.chain_cons (h.apart_first ha) (isChain_append.mpr ⟨h.apart, isChain_singleton b, ?_⟩)
    intro x hx y hy
    obtain ⟨z, hz, hcl⟩ := h.last
    obtain rfl := Option.mem_unique hx hz
    obtain rfl : b = y := Option.some.inj hy
    exact apart_of_closes hcl hb

theorem pieces_bracket (h : ps = [] ∨ Printable ps) (hab : (a, b) ∈ [("(", ")"), ("[", "]")]) :
    ∀ x ∈ a :: (ps ++ [b]), IsPiece x := by
  have hall : ∀ q ∈ [("(", ")"), ("[", "]")], q.1 ∈ knownTokens ∧ q.2 ∈ knownTokens := by decide
  obtain ⟨ha, hb⟩ := hall _ hab
  rw [forall_mem_cons, forall_mem_append, forall_mem_singleton]
  refine ⟨isPiece_known ha, ?_, isPiece_known hb⟩
  rcases h with rfl | h
  · simp
  · exact h.pieces

namespace Printable

protected theorem enclose (h : Printable ps) (own p : Nat) : Printable (enclose own p ps) := by
  rw [Printing.enclose]
  split
  · exact ⟨pieces_bracket (.inr h) (by simp), isChain_bracket (.inr h) (by simp), ⟨"(", rfl, by decide⟩, ")",
      by rw [cons_append, ← cons_append, getLast?_concat]; rfl, by decide⟩
  · exact h

theorem joined (h : Printable ps) (h' : Printable qs) (ha : a ∈ knownTokens) :
    Printable (ps ++ " " :: a :: " " :: qs) := by
  refine h.append (by decide) ?_ ?_ ?_
  · simp only [forall_mem_cons]
    exact ⟨.inl rfl, isPiece_known ha, .inl rfl, h'.pieces⟩
  · have hblank : (" " :: qs).IsChain Apart := isChain_cons.mpr ⟨fun _ _ => .inl rfl, h'.apart⟩
    exact isChain_cons_cons.mpr ⟨.inl rfl, isChain_cons_cons.mpr ⟨apart_blank a, hblank⟩⟩
  · rw [show " " :: a :: " " :: qs = [" ", a, " "] ++ qs from rfl, getLast?_append_of_ne_nil _ h'.ne_nil]
    exact h'.last

theorem bracketed (h : Printable ps) (h' : qs = [] ∨ Printable qs) (hab : (a, b) ∈ [("(", ")"), ("[", "]")]) :
    Printable (ps ++ a :: (qs ++ [b])) := by
  have hall : ∀ q ∈ [("(", ")"), ("[", "]")], q.1 ∈ followers ∧ closes q.2 = true := by decide
  obtain ⟨ha, hb⟩ := hall _ hab
  refine h.append ha (pieces_bracket h' hab) (isChain_bracket h' hab) ⟨b, ?_, hb⟩
  rw [← cons_append, getLast?_concat]
  rfl

theorem led (h : Printable ps) (hlead : (lead? a).isSome = true) (ha : a ∈ knownTokens)
    (hap : ∀ b ∈ ps.head?, Apart a b) :
    Printable (a :: ps) where
  pieces := forall_mem_cons.mpr ⟨isPiece_known ha, h.pieces⟩
  apart := isChain_cons.mpr ⟨hap, h.apart⟩
  first := ⟨a, rfl, hlead⟩
  last := by
    rw [← singleton_append, getLast?_append_of_ne_nil _ h.ne_nil]
    exact h.last

theorem word (h : Printable ps) (hlead : (lead? a).isSome = true) (ha : a ∈ knownTokens) :
    Printable (a :: " " :: ps) where
  pieces := by
    simp only [forall_mem_cons]
    exact ⟨isPiece_known ha, .inl rfl, h.pieces⟩
  apart := isChain_cons_cons.mpr ⟨apart_blank a, isChain_cons.mpr ⟨fun _ _ => .inl rfl, h.apart⟩⟩
  first := ⟨a, rfl, hlead⟩
  last := by
    rw [show a :: " " :: ps = [a, " "] ++ ps from rfl, getLast?_append_of_ne_nil _ h.ne_nil]
    exact h.last

protected theorem commas (h : ∀ ps ∈ pss, Printable ps) (hne : pss ≠ []) : Printable (commas pss) := by
  induction pss with
  | nil => exact absurd rfl hne
  | cons ps pss ih =>
    rw [forall_mem_cons] at h
    cases pss with
    | nil => exact h.1
    | cons qs rest =>
      have hrest := ih h.2 (cons_ne_nil qs rest)
      refine h.1.append (by decide) ?_ ?_ ?_
      · simp only [forall_mem_cons]
        exact ⟨isPiece_known (by decide), .inl rfl, hrest.pieces⟩
      · exact isChain_cons_cons.mpr ⟨apart_blank _, isChain_cons.mpr ⟨fun _ _ => .inl rfl, hrest.apart⟩⟩
      · rw [show "," :: " " :: commas (qs :: rest) = [",", " "] ++ commas (qs :: rest) from rfl,
          getLast?_append_of_ne_nil _ hrest.ne_nil]
        exact hrest.last

end Printable

end Printable

end DebugGuards.Printing
