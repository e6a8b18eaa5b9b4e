import DebugGuards.Proofs.Workspace.Heap

/-! How often a part is referred to. All references of the cells below a mark are
counted. Settling a draft adds one for each new part inside it and one for each place
where it takes a part as it is; so as long as every new part is put in one place, no new
part is shared. -/

namespace DebugGuards

open List

namespace Heap

/-- The references to a part in one cell. -/
def usesAt (h : Heap) (r : Ref) (m : ℕ) : ℕ := ((h m).map fun c => c.refs.count r).getD 0

/-- The references to a part in all cells below a mark. -/
def uses (h : Heap) (r : Ref) : ℕ → ℕ
  | 0 => 0
  | k + 1 => h.uses r k + h.usesAt r k

variable {h h' h'' : Heap} {r : Ref} {k k' k'' m n : ℕ} {c : Cell} {olds olds' : List Mark}
  {roots roots' loose : List Ref}

theorem usesAt_of_some (hm : h m = some c) : h.usesAt r m = c.refs.count r := by rw [usesAt, hm]; rfl

theorem usesAt_of_none (hm : h m = none) : h.usesAt r m = 0 := by rw [usesAt, hm]; rfl

theorem uses_congr (hh : ∀ m < k, h' m = h m) : h'.uses r k = h.uses r k := by
  induction k with
  | zero => rfl
  | succ k ih =>
    rw [uses, uses, ih fun m hm => hh m (Nat.lt_succ_of_lt hm), usesAt, usesAt, hh k (Nat.lt_succ_self k)]

theorem uses_update (hm : m < k) (c : Cell) :
    uses (Function.update h m (some c)) r k + h.usesAt r m = h.uses r k + c.refs.count r := by
  induction k with
  | zero => exact absurd hm (Nat.not_lt_zero m)
  | succ k ih =>
    rw [uses, uses]
    rcases Nat.lt_succ_iff_lt_or_eq.mp hm with hlt | rfl
    · have hk : usesAt (Function.update h m (some c)) r k = h.usesAt r k := by
        rw [usesAt, usesAt, Function.update_of_ne (Nat.ne_of_gt hlt)]
      have := ih hlt
      omega
    · rw [usesAt_of_some (Function.update_self ..), uses_congr fun n hn => Function.update_of_ne (Nat.ne_of_lt hn) _ _]
      omega

theorem usesAt_le (hm : m < k) : h.usesAt r m ≤ h.uses r k := by
  induction k with
  | zero => exact absurd hm (Nat.not_lt_zero m)
  | succ k ih =>
    rw [uses]
    rcases Nat.lt_succ_iff_lt_or_eq.mp hm with hlt | rfl
    · exact Nat.le_trans (ih hlt) (Nat.le_add_right ..)
    · exact Nat.le_add_left ..

/-- Two cells refer to a part twice. -/
theorem usesAt_add_le {m' : ℕ} (hm : m < m') (hm' : m' < k) : h.usesAt r m + h.usesAt r m' ≤ h.uses r k := by
  induction k with
  | zero => exact absurd hm' (Nat.not_lt_zero m')
  | succ k ih =>
    rw [uses]
    rcases Nat.lt_succ_iff_lt_or_eq.mp hm' with hlt | rfl
    · exact Nat.le_trans (ih hlt) (Nat.le_add_right ..)
    · exact Nat.add_le_add_right (usesAt_le hm) _

/-- A part referred to once is held by one cell, and there once. -/
theorem holder_unique {m' : ℕ} {c' : Cell} (hb : ∀ m c, h m = some c → m < k) (hu : h.uses r k ≤ 1) (hm : h m = some c)
    (hm' : h m' = some c') (hr : r ∈ c.refs) (hr' : r ∈ c'.refs) : m = m' := by
  have hpos : 0 < h.usesAt r m := by
    rw [usesAt_of_some hm]
    exact count_pos_iff.mpr hr
  have hpos' : 0 < h.usesAt r m' := by
    rw [usesAt_of_some hm']
    exact count_pos_iff.mpr hr'
  rcases Nat.lt_trichotomy m m' with hlt | rfl | hlt
  · have := usesAt_add_le (h := h) (r := r) hlt (hb m' c' hm')
    omega
  · rfl
  · have := usesAt_add_le (h := h) (r := r) hlt (hb m c hm)
    omega

theorem uses_eq_zero (hr : ∀ m c, h m = some c → r ∉ c.refs) (k : ℕ) : h.uses r k = 0 := by
  induction k with
  | zero => rfl
  | succ k ih =>
    rw [uses, ih]
    cases hk : h k with
    | none => rw [usesAt_of_none hk]
    | some c => rw [usesAt_of_some hk, count_eq_zero_of_not_mem (hr k c hk)]

/-- One for each mark from `k` on, up to `k'`. -/
def newMark (k k' n : ℕ) : ℕ := if k ≤ n ∧ n < k' then 1 else 0

theorem newMark_self (k n : ℕ) : newMark k k n = 0 := if_neg (by omega)

theorem newMark_add (hk : k ≤ k') (hk' : k' ≤ k'') (n : ℕ) : newMark k k' n + newMark k' k'' n = newMark k k'' n := by
  rw [newMark, newMark, newMark]
  split_ifs <;> omega

theorem newMark_succ (hk : k < k') (n : ℕ) : newMark (k + 1) k' n + [Ref.part k].count (.part n) = newMark k k' n := by
  have hself : [Ref.part k].count (.part n) = if k = n then 1 else 0 := by simp [count_singleton]
  rw [newMark, newMark, hself]
  split_ifs <;> omega

/-- From the first heap to the second, new parts come to be referred to once, but for
those given, and other parts as often as they are taken. -/
def Charges (h : Heap) (k : ℕ) (olds : List Mark) (h' : Heap) (k' : ℕ) (roots : List Ref) : Prop :=
  ∀ n : ℕ, h'.uses (.part n) k' + roots.count (.part n) ≤
    h.uses (.part n) k + newMark k k' n + olds.count n

theorem Charges.refl (h : Heap) (k : ℕ) : h.Charges k [] h k [] := fun n => by simp [newMark_self]

theorem Charges.trans (h1 : h.Charges k olds h' k' roots) (h2 : h'.Charges k' olds' h'' k'' roots') (hk : k ≤ k')
    (hk' : k' ≤ k'') : h.Charges k (olds ++ olds') h'' k'' (roots ++ roots') := by
  intro n
  have h1 := h1 n
  have h2 := h2 n
  rw [count_append, count_append, ← newMark_add hk hk']
  omega

theorem Charges.perm (hc : h.Charges k olds h' k' roots) (ho : olds.Perm olds') (hr : roots.Perm roots') :
    h.Charges k olds' h' k' roots' := fun n => by
  rw [← hr.count_eq, ← ho.count_eq]
  exact hc n

/-- The parts marked from `base` on are referred to once at most, those given not at all,
and those not yet there not either. -/
def Spare (h : Heap) (base k : ℕ) (loose : List Ref) : Prop :=
  ∀ n : ℕ, base ≤ n → h.uses (.part n) k + loose.count (.part n) ≤ if n < k then 1 else 0

theorem spare_of_below {base : ℕ} (hb : ∀ m c, h m = some c → ∀ n : ℕ, .part n ∈ c.refs → n < base) (k : ℕ) :
    h.Spare base k [] := by
  intro n hn
  rw [uses_eq_zero fun m c hc hmem => Nat.not_lt.mpr hn (hb m c hc n hmem), count_nil]
  exact Nat.zero_le _

theorem Spare.mono {loose' : List Ref} {base : ℕ} (hs : h.Spare base k loose) (hl : loose'.Sublist loose) :
    h.Spare base k loose' := fun n hn =>
  Nat.le_trans (Nat.add_le_add_left (hl.count_le _) _) (hs n hn)

/-- Parts that were not referred to may be taken once. -/
theorem Spare.charges {base : ℕ} {taken : List Ref} (hs : h.Spare base k (taken ++ loose))
    (hc : h.Charges k olds h' k' roots) (hk : k ≤ k') (ho : ∀ n : ℕ, base ≤ n → olds.count n ≤ taken.count (.part n)) :
    h'.Spare base k' (loose ++ roots) := by
  intro n hn
  have hs := hs n hn
  have hc := hc n
  have ho := ho n hn
  rw [count_append] at hs ⊢
  rw [newMark] at hc
  split_ifs at hs hc ⊢ <;> omega

/-- Parts marked below `base` may be taken any number of times. -/
theorem Spare.extend {base : ℕ} (hs : h.Spare base k loose) (hc : h.Charges k olds h' k' roots) (hk : k ≤ k')
    (ho : ∀ n : ℕ, n ∈ olds → n < base) : h'.Spare base k' (loose ++ roots) := by
  have hs : h.Spare base k ([] ++ loose) := hs
  refine hs.charges hc hk fun n hn => ?_
  rw [count_eq_zero_of_not_mem fun hmem => absurd (ho n hmem) (Nat.not_lt.mpr hn)]
  exact Nat.zero_le _

theorem Spare.write {base : ℕ} (hs : h.Spare base k loose) (hc : h.Charges k [] h' k' []) (hk : k ≤ k') :
    h'.Spare base k' loose := by
  have := hs.extend hc hk fun _ hn => by cases hn
  rwa [append_nil] at this

end Heap

/-- What lies inside a part, and is not that part, is held by some cell inside it. -/
theorem Shows.exists_holder {h : Heap} {t : Tree Mark} {n : Mark} (ht : Shows h t) (hn : n ∈ t.marks)
    (hr : t.ref ≠ .part n) : ∃ m ∈ t.marks, ∃ c, h m = some c ∧ .part n ∈ c.refs := by
  induction t using Tree.inductChildren with
  | step t ih =>
    rw [Tree.marks_eq, mem_append, mem_flatMap] at hn
    rcases hn with hn | ⟨x, hx, hn⟩
    · exact absurd (Tree.ref_eq_part_iff.mpr (Option.mem_toList.mp hn)) hr
    · by_cases hxn : x.ref = .part n
      · cases hm : t.ref with
        | scalar s =>
          cases t with
          | scalar => cases hx
          | arr | obj => cases hm
        | part m =>
          obtain ⟨c, hc⟩ := ht.some_of_mem (Tree.mem_marks_of_ref hm)
          refine ⟨m, Tree.mem_marks_of_ref hm, c, hc, ?_⟩
          rw [Tree.cell?_refs ((ht.here hm).symm.trans hc), ← hxn]
          exact mem_map_of_mem hx
      · obtain ⟨m, hm, c, hc, hmem⟩ := ih x hx (ht.child hx) hn hxn
        exact ⟨m, Tree.marks_child hx hm, c, hc, hmem⟩

end DebugGuards
