import DebugGuards.Expansion.Diagnostic
import DebugGuards.Proofs.Expansion.Work
import Mathlib.Data.List.Forall2

/-! What comes of comparing a version with a range. A version or a range that cannot be read
is not compared, and the answer is no. There is one exception: where a bound of a hyphen range
is no block at all the comparison breaks off, if the version and all groups before that one can
be read. -/

namespace DebugGuards

open List

namespace Version

open Text

section Reading

variable {α β ε : Type} {x : Except ε α} {f : α → Except ε β} {e : ε} {b : β} {l : List α}

theorem bind_ok_iff : x >>= f = .ok b ↔ ∃ a, x = .ok a ∧ f a = .ok b := by
  cases x <;> simp [bind, Except.bind]

theorem bind_error_iff : x >>= f = .error e ↔ x = .error e ∨ ∃ a, x = .ok a ∧ f a = .error e := by
  cases x <;> simp [bind, Except.bind]

theorem mapM_ok_iff {bs : List β} : l.mapM f = .ok bs ↔ List.Forall₂ (fun x b => f x = .ok b) l bs := by
  induction l generalizing bs with
  | nil => simp [pure, Except.pure, eq_comm]
  | cons x l ih =>
    simp only [mapM_cons, bind_ok_iff, ih, forall₂_cons_left_iff]
    simp [pure, Except.pure, eq_comm]

/-- Reading a list stops at the first item that cannot be read. -/
theorem mapM_error_iff : l.mapM f = .error e ↔
    ∃ before x after, l = before ++ x :: after ∧ (∀ y ∈ before, ∃ b, f y = .ok b) ∧ f x = .error e := by
  induction l with
  | nil => simp [pure, Except.pure]
  | cons x l ih =>
    simp only [mapM_cons, bind_error_iff, ih]
    constructor
    · rintro (hx | ⟨b, hb, ⟨before, y, after, rfl, hall, hy⟩ | ⟨_, _, h⟩⟩)
      · exact ⟨[], x, l, rfl, (fun _ h => nomatch h), hx⟩
      · exact ⟨x :: before, y, after, rfl, forall_mem_cons.mpr ⟨⟨b, hb⟩, hall⟩, hy⟩
      · cases h
    · rintro ⟨_ | ⟨z, before⟩, y, after, heq, hall, hy⟩ <;> obtain ⟨rfl, rfl⟩ := List.cons.inj heq
      · exact .inl hy
      · rw [forall_mem_cons] at hall
        obtain ⟨⟨b, hb⟩, hall⟩ := hall
        exact .inr ⟨b, hb, .inl ⟨before, y, after, rfl, hall, hy⟩⟩

theorem exists_forall₂ {R : α → β → Prop} : (∃ bs, List.Forall₂ R l bs) ↔ ∀ x ∈ l, ∃ b, R x b := by
  induction l with
  | nil => simp
  | cons x l ih => simp [forall₂_cons_left_iff, ← ih]

end Reading

section Groups

variable (cs : List Char)

/-- A block can be read. -/
def Reads : Prop := ∃ clauses, block cs = .ok clauses

/-- The parts of a group between hyphens. -/
def sides : List (List Char) := split [' ', '-', ' '] (trim isBlank cs)

/-- All of a group can be read: there is nothing in it, or it is two bounds, or blocks. -/
def Legible : Prop :=
  trim isBlank cs = [] ∨
  (∃ low high, sides cs = [low, high] ∧ Reads ('>' :: '=' :: low) ∧ Reads ('<' :: '=' :: high)) ∨
  ∃ all, sides cs = [all] ∧ ∀ b ∈ split [' '] (trim isBlank cs), Reads b

/-- A bound of a hyphen range is no block, and what stands before it can be read. -/
def Jams : Prop :=
  ∃ low high, sides cs = [low, high] ∧ (Block.parse ('>' :: '=' :: low) = none ∨
    Reads ('>' :: '=' :: low) ∧ Block.parse ('<' :: '=' :: high) = none)

theorem block_ne_malformed : block cs ≠ .error .malformedBound := by
  rw [block]
  cases (Block.parse cs).bind Block.clauses? <;> nofun

theorem bound_ok_iff {clauses : List Clause} : bound cs = .ok clauses ↔ block cs = .ok clauses := by
  rw [bound, block]
  cases Block.parse cs <;> simp [ofOption]

theorem bound_malformed_iff : bound cs = .error .malformedBound ↔ Block.parse cs = none := by
  rw [bound]
  cases Block.parse cs with
  | none => simp
  | some b => cases h : b.clauses? <;> simp [ofOption, h]

theorem group_eq (h : trim isBlank cs ≠ []) : group cs = match sides cs with
    | [low, high] => do
      let low ← bound ('>' :: '=' :: low)
      return low ++ (← bound ('<' :: '=' :: high))
    | [_] => do return (← (split [' '] (trim isBlank cs)).mapM block).flatten
    | _ => .error .unreadable := by
  simp only [group, List.isEmpty_iff, h, if_false]
  rfl

theorem group_ok_iff : (∃ clauses, group cs = .ok clauses) ↔ Legible cs := by
  by_cases hempty : trim isBlank cs = []
  · simp [group, Legible, hempty]
  rw [group_eq cs hempty, Legible]
  rcases sides cs with _ | ⟨p, _ | ⟨q, _ | ⟨r, rest⟩⟩⟩
  · simp [hempty]
  · simp [hempty, bind_ok_iff, mapM_ok_iff, pure, Except.pure, exists_forall₂, Reads]
  · simp [hempty, bind_ok_iff, bound_ok_iff, pure, Except.pure, Reads]
  · simp [hempty]

theorem group_malformed_iff : group cs = .error .malformedBound ↔ Jams cs := by
  by_cases hempty : trim isBlank cs = []
  · have hs : sides cs = [[]] := by rw [sides, hempty]; rfl
    simp [group, hempty, Jams, hs]
  rw [group_eq cs hempty, Jams]
  rcases sides cs with _ | ⟨p, _ | ⟨q, _ | ⟨r, rest⟩⟩⟩
  · simp
  · simp [bind_error_iff, mapM_error_iff, block_ne_malformed, pure, Except.pure]
  · simp [bind_error_iff, bound_ok_iff, bound_malformed_iff, pure, Except.pure, Reads]
  · simp

end Groups

section Ranges

variable (range : String)

/-- The groups of a range. -/
def groups : List (List Char) := split ['|', '|'] range.toList

/-- The first group that cannot be read has a bound that is no block. -/
def JamsIn : Prop :=
  ∃ before g after, groups range = before ++ g :: after ∧ (∀ b ∈ before, Legible b) ∧ Jams g

/-- All clauses of an alternative of a group hold of a version. -/
def Admits (g : List Char) (v : Version) : Prop :=
  ∃ clauses, group g = .ok clauses ∧ ∃ alternative ∈ alternatives clauses, ∀ c ∈ alternative, c.holds v = true

theorem parse_malformed_iff : Range.parse range.toList = .error .malformedBound ↔ JamsIn range := by
  simp [Range.parse, bind_error_iff, mapM_error_iff, group_ok_iff, group_malformed_iff, pure, Except.pure,
    JamsIn, groups]

theorem parse_ok_iff : (∃ r, Range.parse range.toList = .ok r) ↔ ∀ g ∈ groups range, Legible g := by
  simp [Range.parse, bind_ok_iff, mapM_ok_iff, exists_forall₂, group_ok_iff, pure, Except.pure, groups]

theorem holds_iff {r : Range} (hr : Range.parse range.toList = .ok r) (v : Version) :
    r.holds v = true ↔ ∃ g ∈ groups range, Admits g v := by
  simp only [Range.parse, bind_ok_iff, mapM_ok_iff, pure, Except.pure, Except.ok.injEq] at hr
  obtain ⟨css, hall, rfl⟩ := hr
  rw [← groups] at hall
  generalize groups range = gs at hall
  induction hall with
  | nil => simp [Range.holds]
  | cons hg _ ih =>
    rw [map_cons, flatten_cons, Range.holds, any_append, Bool.or_eq_true]
    rw [Range.holds] at ih
    rw [ih, exists_mem_cons_iff]
    refine or_congr_left ?_
    simp [Admits, hg]

end Ranges

end Version

namespace Expansion

open Version

/-- What is logged where a version is not compared with a range. -/
def incomparable (version range : String) : Record :=
  ⟨.warning, "Cannot compare version " ++ Text.quoted version ++ " against range " ++ Text.quoted range ++
    "; treating as unsatisfied"⟩

/-- The comparison of a version with a range breaks off just if the version can be read and
the range jams. Else it gives an answer: yes just if all of both can be read and a group admits
the version, and no with a warning if something cannot be read. -/
theorem expired_conservative (version range : String) (s : State) :
    ((Version.parse version.toList).isSome = true ∧ JamsIn range ∧
      (expired version range).result s = (.error .badShape, s)) ∨
    ¬ ((Version.parse version.toList).isSome = true ∧ JamsIn range) ∧
      ((∃ v, Version.parse version.toList = some v ∧ (∀ g ∈ groups range, Legible g) ∧
        ∃ b, (expired version range).result s = (.ok b, s) ∧ (b = true ↔ ∃ g ∈ groups range, Admits g v)) ∨
      ¬ ((Version.parse version.toList).isSome = true ∧ ∀ g ∈ groups range, Legible g) ∧
        (expired version range).result s = (.ok false, { s with log := s.log ++ [incomparable version range] })) := by
  rw [← parse_malformed_iff, ← parse_ok_iff, expired, satisfies]
  cases Version.parse version.toList with
  | none => exact .inr ⟨nofun, .inr ⟨nofun, rfl⟩⟩
  | some v =>
    cases hr : Range.parse range.toList with
    | error f =>
      cases f with
      | malformedBound => exact .inl ⟨rfl, rfl, rfl⟩
      | unreadable => exact .inr ⟨nofun, .inr ⟨by simp, rfl⟩⟩
    | ok r => exact .inr ⟨nofun, .inl ⟨v, rfl, ⟨r, rfl⟩, r.holds v, rfl, holds_iff range hr v⟩⟩

/-- A hyphen range whose bounds are words. -/
theorem expired_jams :
    ((expired "1.0.0" "a - b").result { workspace := ⟨.null, 0, .uniform, [], 0, #[]⟩ }).1 = .error .badShape := by
  have h : satisfies "1.0.0" "a - b" = .error .malformedBound := by decide +kernel
  rw [expired, h]
  rfl

end Expansion

end DebugGuards
