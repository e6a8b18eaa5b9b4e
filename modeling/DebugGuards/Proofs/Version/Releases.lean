import DebugGuards.Version.Range
import Mathlib.Algebra.Order.BigOperators.Group.List
import Mathlib.Algebra.Order.Group.Nat
import Mathlib.Data.List.TakeWhile

/-! Ranges and the releases that come one after another. An alternative none of whose clauses
is an upper bound goes on holding in every later release, and holds from some release on. One
with an upper bound fails from some release on. There are releases as late as one likes. -/

namespace DebugGuards

open List

namespace Version

section Precedence

variable {v w t : Version}

theorem then_isGE {a b : Ordering} : (a.then b).isGE = true ↔ a = .gt ∨ a = .eq ∧ b.isGE = true := by
  cases a <;> simp

theorem then_isLE {a b : Ordering} : (a.then b).isLE = true ↔ a = .lt ∨ a = .eq ∧ b.isLE = true := by
  cases a <;> simp

theorem then_isGT {a b : Ordering} : (a.then b).isGT = true ↔ a = .gt ∨ a = .eq ∧ b.isGT = true := by
  cases a <;> simp

theorem comparePre_release (pre : List (List Char)) :
    (comparePre [] pre).isGE = true ∧ ((comparePre [] pre).isGT = true ↔ pre ≠ []) := by
  cases pre <;> simp [comparePre]

theorem precedence_mono (hv : v.pre = []) (hw : w.pre = []) (hle : (v.precedence w).isLE = true) :
    ((v.precedence t).isGE = true → (w.precedence t).isGE = true) ∧
    ((v.precedence t).isGT = true → (w.precedence t).isGT = true) := by
  simp only [precedence, then_isGE, then_isGT, then_isLE, compare_eq_iff_eq, compare_lt_iff_lt,
    compare_gt_iff_gt, hv, hw, comparePre_release] at hle ⊢
  grind

theorem precedence_of_major (hlt : t.major < w.major) : w.precedence t = .gt := by
  rw [precedence, compare_gt_iff_gt.mpr hlt]
  rfl

end Precedence

section Bounds

variable {v w : Version} {c : Clause} {alternative : List Clause}

/-- No clause is an upper bound. -/
def IsOpen (alternative : List Clause) : Prop := ∀ c ∈ alternative, c.operator = .ge ∨ c.operator = .gt

theorem Clause.holds_release (c : Clause) (hv : v.pre = []) :
    c.holds v = match c.operator with
      | .eq => (if c.target.build.isEmpty then v.withoutBuild else v) == c.target
      | .lt => (v.precedence c.target).isLT
      | .le => (v.precedence c.target).isLE
      | .gt => (v.precedence c.target).isGT
      | .ge => (v.precedence c.target).isGE := by
  have hpre : (if c.target.build.isEmpty then v.withoutBuild else v).pre = [] := by split <;> exact hv
  have horder : (if c.target.build.isEmpty then v.withoutBuild else v).precedence c.target = v.precedence c.target := by
    split <;> rfl
  cases hop : c.operator <;>
    simp only [Clause.holds, hop, hpre, horder, isEmpty_nil, Bool.not_true, Bool.false_and,
      Bool.false_eq_true, if_false]

/-- What has no upper bound holds of later releases. -/
theorem IsOpen.mono (ho : IsOpen alternative) (hv : v.pre = []) (hw : w.pre = []) (hle : (v.precedence w).isLE = true)
    (hall : ∀ c ∈ alternative, c.holds v = true) : ∀ c ∈ alternative, c.holds w = true := by
  intro c hc
  have hmono := precedence_mono (t := c.target) hv hw hle
  have hold := hall c hc
  rw [c.holds_release hv] at hold
  rw [c.holds_release hw]
  rcases ho c hc with h | h <;> rw [h] at hold ⊢
  · exact hmono.1 hold
  · exact hmono.2 hold

theorem IsOpen.holds_of_major (ho : IsOpen alternative) (hw : w.pre = [])
    (hlater : ∀ c ∈ alternative, c.target.major < w.major) : ∀ c ∈ alternative, c.holds w = true := by
  intro c hc
  rw [c.holds_release hw, precedence_of_major (hlater c hc)]
  rcases ho c hc with h | h <;> rw [h] <;> rfl

/-- What has an upper bound does not hold of releases beyond it. -/
theorem exists_not_holds (ho : ¬ IsOpen alternative) (hw : w.pre = [])
    (hlater : ∀ c ∈ alternative, c.target.major < w.major) : ∃ c ∈ alternative, c.holds w = false := by
  simp only [IsOpen, not_forall, not_or] at ho
  obtain ⟨c, hc, hge, hgt⟩ := ho
  have hgreater := precedence_of_major (hlater c hc)
  refine ⟨c, hc, ?_⟩
  rw [c.holds_release hw, hgreater]
  split
  · next heq =>
    refine beq_eq_false_iff_ne.mpr fun h => ?_
    have hmajor := hlater c hc
    rw [← h] at hmajor
    split at hmajor <;> exact Nat.lt_irrefl _ hmajor
  · rfl
  · rfl
  · next h => exact absurd h hgt
  · next h => exact absurd h hge

/-- Late releases are in a range just if one of its alternatives has no upper bound. -/
theorem Range.exists_holds_iff (range : Range) : ∃ n, ∀ w : Version, w.pre = [] → n < w.major →
    (range.holds w = true ↔ ∃ alternative ∈ range, IsOpen alternative) := by
  refine ⟨(range.flatten.map fun c => c.target.major).sum, fun w hw hn => ?_⟩
  have hlater : ∀ alternative ∈ range, ∀ c ∈ alternative, c.target.major < w.major := by
    intro alternative ha c hc
    have hmem : c.target.major ∈ range.flatten.map fun c => c.target.major :=
      mem_map.mpr ⟨c, mem_flatten_of_mem ha hc, rfl⟩
    exact Nat.lt_of_le_of_lt (single_le_sum (fun _ _ => Nat.zero_le _) _ hmem) hn
  rw [Range.holds, any_eq_true]
  refine ⟨fun ⟨alternative, ha, hall⟩ => ⟨alternative, ha, ?_⟩, fun ⟨alternative, ha, ho⟩ => ⟨alternative, ha, ?_⟩⟩
  · by_contra ho
    obtain ⟨c, hc, hfalse⟩ := exists_not_holds ho hw (hlater alternative ha)
    rw [all_eq_true.mp hall c hc] at hfalse
    cases hfalse
  · exact all_eq_true.mpr (ho.holds_of_major hw (hlater alternative ha))

end Bounds

section Late

/-- A version with nines for its first number. -/
def lateRelease (n : Nat) : String := String.ofList (List.replicate n '9' ++ ['.', '0', '.', '0'])

theorem split_nines (n : Nat) :
    Text.split ['.'] (List.replicate n '9' ++ ['.', '0', '.', '0']) = [List.replicate n '9', ['0'], ['0']] := by
  rw [Text.split]
  induction n with
  | zero => rfl
  | succ n ih =>
    rw [replicate_succ, cons_append, Text.splitAfter, if_neg (by simp [List.isPrefixOf]), ih]
    rfl

theorem number?_nines (n : Nat) : number? (List.replicate (n + 1) '9') = some (10 ^ (n + 1) - 1) := by
  have hfold (k a : Nat) : (List.replicate k '9').foldlM (fun n c => (Text.digitValue? c).map (10 * n + ·)) a =
      some (a * 10 ^ k + (10 ^ k - 1)) := by
    induction k generalizing a with
    | zero => simp
    | succ k ih =>
      have hnine : Text.digitValue? '9' = some 9 := by decide +kernel
      rw [replicate_succ, foldlM_cons, hnine, Option.map_some, Option.bind_eq_bind, Option.bind_some, ih]
      have hpos : 0 < 10 ^ k := Nat.pow_pos (by decide)
      rw [pow_succ]
      congr 1
      lia
  rw [number?, if_neg (by simp [hasLeadingZero, replicate_succ]), hfold]
  simp

theorem parse_lateRelease (n : Nat) :
    parse (lateRelease (n + 1)).toList = some ⟨10 ^ (n + 1) - 1, 0, 0, [], []⟩ := by
  have hsplit := split_nines (n + 1)
  have hkeep : dropFinalNewline (List.replicate (n + 1) '9' ++ ['.', '0', '.', '0']) =
      List.replicate (n + 1) '9' ++ ['.', '0', '.', '0'] := by
    rw [dropFinalNewline, reverse_append]
    rfl
  have hplain : ∀ c ∈ List.replicate (n + 1) '9' ++ ['.', '0', '.', '0'],
      (decide (c ≠ '-') && decide (c ≠ '+')) = true := by
    rw [forall_mem_append]
    refine ⟨fun c hc => ?_, by simp⟩
    rw [(mem_replicate.mp hc).2]
    rfl
  have hzero : number? ['0'] = some 0 := by decide +kernel
  rw [lateRelease, String.toList_ofList, parse]
  simp only [hkeep, takeWhile_eq_self_iff.mpr hplain, dropWhile_eq_nil_iff.mpr hplain, hsplit,
    number?_nines, hzero]
  rfl

theorem exists_later (n : Nat) : ∃ text w, parse (String.toList text) = some w ∧ w.pre = [] ∧ n < w.major := by
  refine ⟨_, _, parse_lateRelease n, rfl, ?_⟩
  have hlt : n + 1 < 10 ^ (n + 1) := Nat.lt_pow_self (by decide)
  show n < 10 ^ (n + 1) - 1
  omega

end Late

end Version

end DebugGuards
