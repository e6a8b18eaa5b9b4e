import DebugGuards.Command.Markup
import DebugGuards.Log
import Mathlib.Data.List.Basic

/-! Escaped text as markup. Before the bracket of every tag the number of backslashes is made
odd, and what is put in stands before such brackets alone, so that no other bracket comes to
start a tag. An escaped text has no tags, nor has a message it is part of, unless a bracket
that it leaves open is closed by what follows. -/

namespace DebugGuards.Command

open List

variable {s name : String} {cs xs ys : List Char}

theorem isMarkup_of_tagsOf (h : tagsOf 0 s.toList = []) : isMarkup s = true := by
  rw [isMarkup, h]
  rfl

-- What is open is counted, so a tag that closes nothing makes the text no markup.
example : isMarkup "[b]until[/b]" = true ∧ isMarkup "until [/x]" = false := by decide +kernel

/-- Whether every opening bracket of a text has a closing one after it. -/
def isClosed : List Char → Bool
  | [] => true
  | c :: cs => (c != '[' || cs.contains ']') && isClosed cs

/-- A text has no brackets and no backslashes. -/
def IsBare (cs : List Char) : Prop := ∀ c ∈ cs, isBracket c = false ∧ c ≠ '\\'

instance (cs : List Char) : Decidable (IsBare cs) := List.decidableBAll _ _

theorem IsBare.append (hx : IsBare xs) (hy : IsBare ys) : IsBare (xs ++ ys) :=
  forall_mem_append.mpr ⟨hx, hy⟩

section Tags

theorem tagsOf_replicate (n k : Nat) (ys : List Char) :
    tagsOf n (List.replicate k '\\' ++ ys) = tagsOf (n + k) ys := by
  induction k generalizing n with
  | zero => rfl
  | succ k ih =>
    rw [replicate_succ, cons_append, tagsOf, if_pos rfl, ih]
    congr 1
    omega

theorem tagsOf_cons_of_bare (n : Nat) {c : Char} (hc : isBracket c = false ∧ c ≠ '\\') (cs : List Char) :
    tagsOf n (c :: cs) = tagsOf 0 cs := by
  have hopen : c ≠ '[' := by rintro rfl; exact absurd hc.1 (by decide)
  rw [tagsOf, if_neg hc.2, if_neg (by simp [hopen])]

theorem tagsOf_bare (n : Nat) (h : IsBare xs) : tagsOf n xs = [] := by
  induction xs generalizing n with
  | nil => rfl
  | cons c rest ih =>
    obtain ⟨hc, hrest⟩ := forall_mem_cons.mp h
    rw [tagsOf_cons_of_bare n hc, ih 0 hrest]

theorem tagsOf_bare_append (n : Nat) (hne : xs ≠ []) (h : IsBare xs) : tagsOf n (xs ++ ys) = tagsOf 0 ys := by
  induction xs generalizing n with
  | nil => exact absurd rfl hne
  | cons c rest ih =>
    obtain ⟨hc, hrest⟩ := forall_mem_cons.mp h
    rw [cons_append, tagsOf_cons_of_bare n hc]
    cases rest with
    | nil => rfl
    | cons => exact ih 0 (cons_ne_nil _ _) hrest

end Tags

section Escapes

theorem find?_escapeTags (k : Nat) (cs : List Char) :
    (escapeTags k cs).find? isBracket = cs.find? isBracket := by
  have hslash : isBracket '\\' = false := rfl
  induction cs generalizing k with
  | nil => simp [escapeTags, hslash]
  | cons c rest ih =>
    rw [escapeTags]
    split_ifs with hs ht
    · rw [ih, hs, find?_cons_of_neg (by simp [hslash])]
    · simp [find?_append, hslash, find?_cons, ih]
    · simp [find?_append, hslash, find?_cons, ih]

theorem head?_escapeTags (k : Nat) (cs : List Char) : (escapeTags (k + 1) cs).head? = some '\\' := by
  induction cs generalizing k with
  | nil => rfl
  | cons c rest ih =>
    rw [escapeTags]
    split_ifs
    · exact ih (k + 1)
    · rfl
    · rfl

theorem exists_escapeTags_cons {c : Char} (hc : ¬ opensTag c = true) (cs : List Char) :
    ∃ b zs, escapeTags 0 (c :: cs) = b :: zs ∧ opensTag b = false := by
  rw [escapeTags]
  split_ifs
  · obtain ⟨zs, hzs⟩ := head?_eq_some_iff.mp (head?_escapeTags 0 cs)
    exact ⟨_, zs, hzs, rfl⟩
  · exact ⟨_, _, rfl, rfl⟩
  · exact ⟨_, _, rfl, by simpa using hc⟩

/-- What follows a bracket starts a tag once it is escaped just if it did before. -/
theorem startsTag_escapeTags (h : ']' ∈ cs ∨ ys.find? isBracket = none) :
    startsTag (escapeTags 0 cs ++ ys) = startsTag cs := by
  cases cs with
  | nil =>
    cases ys with
    | nil => rfl
    | cons y rest =>
      have hnone := List.find?_eq_none.mp (h.resolve_left not_mem_nil)
      have hrest : rest.find? isBracket = none :=
        List.find?_eq_none.mpr fun c hc => hnone c (mem_cons_of_mem y hc)
      simp [escapeTags, startsTag, hrest]
  | cons c rest =>
    by_cases hc : opensTag c = true
    · have hslash : c ≠ '\\' := by rintro rfl; exact absurd hc (by decide)
      have hopen : c ≠ '[' := by rintro rfl; exact absurd hc (by decide)
      have hclose : ']' ≠ c := by rintro rfl; exact absurd hc (by decide)
      have hfind : (rest.find? isBracket).or (ys.find? isBracket) = rest.find? isBracket := by
        rcases h with h | h
        · have hsome : (rest.find? isBracket).isSome = true :=
            find?_isSome.mpr ⟨']', mem_of_ne_of_mem hclose h, rfl⟩
          exact Option.or_of_isSome hsome
        · rw [h, Option.or_none]
      rw [escapeTags, if_neg hslash, if_neg (by simp [hopen]), replicate_zero, nil_append,
        cons_append, startsTag, startsTag, find?_append, find?_escapeTags, hfind]
    · obtain ⟨b, zs, hzs, hb⟩ := exists_escapeTags_cons hc rest
      rw [hzs, cons_append, startsTag, startsTag, hb, Bool.eq_false_iff.mpr hc, Bool.false_and,
        Bool.false_and]

/-- Once it is escaped, a text adds no tags: its own are escaped, and no other bracket of it is
closed by what follows. -/
theorem tagsOf_escapeTags (k : Nat) (ys : List Char) (h : isClosed cs = true ∨ ys.find? isBracket = none) :
    ∃ n, tagsOf 0 (escapeTags k cs ++ ys) = tagsOf n ys := by
  induction cs generalizing k with
  | nil => exact ⟨_, tagsOf_replicate 0 k ys⟩
  | cons c rest ih =>
    have hrest : isClosed rest = true ∨ ys.find? isBracket = none :=
      h.imp_left fun h => (Bool.and_eq_true_iff.mp h).2
    rw [escapeTags]
    split_ifs with hs ht
    · exact ih _ hrest
    · obtain ⟨n, hn⟩ := ih 0 hrest
      have hodd : ((0 + (2 * k + 1)) % 2 == 0) = false := by simp
      refine ⟨n, ?_⟩
      rw [append_assoc, tagsOf_replicate, cons_append, tagsOf, if_neg hs, hodd, Bool.and_false,
        Bool.false_and, if_neg Bool.false_ne_true, hn]
    · obtain ⟨n, hn⟩ := ih 0 hrest
      refine ⟨n, ?_⟩
      rw [append_assoc, tagsOf_replicate, cons_append, tagsOf, if_neg hs, if_neg, hn]
      intro htag
      simp only [Bool.and_eq_true, decide_eq_true_eq] at htag ht
      obtain ⟨⟨rfl, -⟩, hstart⟩ := htag
      have hclosed : ']' ∈ rest ∨ ys.find? isBracket = none :=
        h.imp_left fun h => by simpa using (Bool.and_eq_true_iff.mp h).1
      exact ht ⟨rfl, (startsTag_escapeTags hclosed).symm.trans hstart⟩

theorem tagsOf_escape (s : String) (ys : List Char) (h : isClosed s.toList = true ∨ ys.find? isBracket = none) :
    ∃ n, tagsOf 0 ((escape s).toList ++ ys) = tagsOf n ys := by
  rw [escape, String.toList_ofList, closeEscape]
  split
  · exact tagsOf_escapeTags 0 ys h
  · obtain ⟨n, hn⟩ := tagsOf_escapeTags 0 ('\\' :: ys) (h.imp_right fun h => by
      rwa [find?_cons_of_neg (by decide)])
    rw [append_assoc]
    exact ⟨n + 1, hn.trans (if_pos rfl)⟩
  · exact tagsOf_escapeTags 0 ys h

end Escapes

section Messages

/-- A message with one escaped text. -/
theorem isMarkup_single (lead tail s : String) (hne : lead ≠ "") (hl : IsBare lead.toList)
    (ht : IsBare tail.toList) :
    isMarkup (lead ++ (escape s ++ tail)) = true := by
  apply isMarkup_of_tagsOf
  have hnone : tail.toList.find? isBracket = none := List.find?_eq_none.mpr fun c hc => by simp [(ht c hc).1]
  obtain ⟨n, hn⟩ := tagsOf_escape s _ (.inr hnone)
  simp only [String.toList_append]
  rw [tagsOf_bare_append 0 (by simpa using hne) hl, hn, tagsOf_bare n ht]

/-- A message with two escaped texts, the first of which leaves no bracket open. -/
theorem isMarkup_pair (lead middle s : String) (hlead : lead ≠ "") (hmiddle : middle ≠ "")
    (hl : IsBare lead.toList) (hm : IsBare middle.toList) (hname : isClosed name.toList = true) :
    isMarkup (lead ++ (escape name ++ middle ++ escape s)) = true := by
  apply isMarkup_of_tagsOf
  obtain ⟨n, hn⟩ := tagsOf_escape name (middle.toList ++ (escape s).toList) (.inl hname)
  obtain ⟨k, hk⟩ := tagsOf_escape s [] (.inr rfl)
  rw [append_nil] at hk
  simp only [String.toList_append, append_assoc]
  rw [tagsOf_bare_append 0 (by simpa using hlead) hl, hn, tagsOf_bare_append n (by simpa using hmiddle) hm, hk]
  rfl

end Messages

end DebugGuards.Command
