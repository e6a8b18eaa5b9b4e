import DebugGuards.Table
import Mathlib.Algebra.Order.BigOperators.Group.List
import Mathlib.Algebra.Order.Group.Nat
import Mathlib.Data.List.Forall2

/-! Facts about tables and lists of pairs: what setting a key does to the values, and
tables whose keys are all different. -/

namespace DebugGuards

open List

section Lists
variable {α β γ : Type}

/-- Where the members of a list are when it is cut at the first that fails a test. -/
theorem mem_takeWhile_or {p : α → Bool} {l : List α} {x : α} (hx : x ∈ l) :
    x ∈ l.takeWhile p ∨ p x = false ∨ x ∈ (l.dropWhile p).drop 1 := by
  induction l with
  | nil => cases hx
  | cons y l ih =>
    cases hy : p y with
    | false =>
      rw [dropWhile_cons_of_neg (by simp [hy]), drop_succ_cons, drop_zero]
      rcases mem_cons.mp hx with rfl | hx
      · exact .inr (.inl hy)
      · exact .inr (.inr hx)
    | true =>
      rw [takeWhile_cons_of_pos hy, dropWhile_cons_of_pos hy, mem_cons]
      rcases mem_cons.mp hx with rfl | hx
      · exact .inl (.inl rfl)
      · exact (ih hx).imp_left .inr

theorem forall₂_imp {R S : α → β → Prop} {as : List α} {bs : List β} (h : List.Forall₂ R as bs)
    (hrs : ∀ a ∈ as, ∀ b ∈ bs, R a b → S a b) : List.Forall₂ S as bs := by
  rw [forall₂_iff_zip] at h ⊢
  exact ⟨h.1, fun hab => hrs _ (of_mem_zip hab).1 _ (of_mem_zip hab).2 (h.2 hab)⟩

theorem forall₂_exists_right {R : α → β → Prop} {as : List α} {bs : List β} (h : List.Forall₂ R as bs) {a : α}
    (ha : a ∈ as) : ∃ b ∈ bs, R a b := by
  induction h with
  | nil => cases ha
  | cons hab _ ih =>
    rcases mem_cons.mp ha with rfl | ha
    · exact ⟨_, mem_cons_self .., hab⟩
    · obtain ⟨b, hb, hr⟩ := ih ha
      exact ⟨b, mem_cons_of_mem _ hb, hr⟩

theorem forall₂_exists_left {R : α → β → Prop} {as : List α} {bs : List β} (h : List.Forall₂ R as bs) {b : β}
    (hb : b ∈ bs) : ∃ a ∈ as, R a b := forall₂_exists_right h.flip hb

theorem exists_mem_zip {as : List α} {bs : List β} (hl : as.length = bs.length) {b : β} (hb : b ∈ bs) :
    ∃ a ∈ as, (a, b) ∈ as.zip bs :=
  forall₂_exists_left (R := fun a b => (a, b) ∈ as.zip bs) (forall₂_iff_zip.mpr ⟨hl, id⟩) hb

theorem map_eq_map_of_zip {f : α → γ} {g : β → γ} {as : List α} {bs : List β}
    (hl : as.length = bs.length) (hp : ∀ p ∈ as.zip bs, f p.1 = g p.2) : as.map f = bs.map g := by
  rw [← forall₂_eq_eq_eq, forall₂_map_left_iff, forall₂_map_right_iff, forall₂_iff_zip]
  exact ⟨hl, hp _⟩

theorem forall₂_split {R : α → β → Prop} {l₁ l₂ : List α} {a : α} {l : List β}
    (h : List.Forall₂ R (l₁ ++ a :: l₂) l) :
    ∃ r₁ b r₂, List.Forall₂ R l₁ r₁ ∧ R a b ∧ List.Forall₂ R l₂ r₂ ∧ l = r₁ ++ b :: r₂ := by
  induction l₁ generalizing l with
  | nil =>
    obtain ⟨b, r₂, hab, h₂, rfl⟩ := forall₂_cons_left_iff.mp h
    exact ⟨[], b, r₂, .nil, hab, h₂, rfl⟩
  | cons c l₁ ih =>
    obtain ⟨d, rest, hcd, hrest, rfl⟩ := forall₂_cons_left_iff.mp h
    obtain ⟨r₁, b, r₂, h₁, hab, h₂, rfl⟩ := ih hrest
    exact ⟨d :: r₁, b, r₂, .cons hcd h₁, hab, h₂, rfl⟩

theorem flatMap_filter_of_nil {σ τ : Type} {f : σ → List τ} {q : σ → Bool} {l : List σ}
    (hf : ∀ a ∈ l, q a = false → f a = []) : (l.filter q).flatMap f = l.flatMap f := by
  induction l with
  | nil => rfl
  | cons a l ih =>
    rw [forall_mem_cons] at hf
    rw [filter_cons, flatMap_cons, ← ih hf.2]
    split
    · rfl
    · next hq => rw [hf.1 (by simpa using hq), nil_append]

theorem length_flatMap_le {f : α → List β} {g : α → List γ} {l : List α}
    (hfg : ∀ a ∈ l, (f a).length ≤ (g a).length) : (l.flatMap f).length ≤ (l.flatMap g).length := by
  rw [length_flatMap, length_flatMap]
  exact sum_le_sum hfg

section Counts

variable {γ : Type} [BEq γ] {n : γ}

theorem count_flatMap_le {f g : α → List γ} {l : List α} (hfg : ∀ a ∈ l, (f a).count n ≤ (g a).count n) :
    (l.flatMap f).count n ≤ (l.flatMap g).count n := by
  rw [count_flatMap, count_flatMap]
  exact sum_le_sum hfg

theorem count_flatMap_zip {f : α → List γ} {g : β → List γ} {as : List α} {bs : List β} (hlen : as.length = bs.length)
    (hfg : ∀ p ∈ as.zip bs, (f p.1).count n = (g p.2).count n) : (as.flatMap f).count n = (bs.flatMap g).count n := by
  rw [count_flatMap, count_flatMap]
  exact congrArg List.sum (map_eq_map_of_zip hlen hfg)

end Counts

end Lists

namespace Table

variable {κ β γ δ ε : Type} [DecidableEq κ]

omit [DecidableEq κ] in
theorem mapValues_eq_mapValues {f : β → δ} {g : γ → δ} {as : Table κ β} {bs : Table κ γ}
    (hk : as.map Prod.fst = bs.map Prod.fst)
    (hv : (as.map Prod.snd).map f = (bs.map Prod.snd).map g) : mapValues f as = mapValues g bs := by
  induction as generalizing bs with
  | nil => cases bs <;> simp_all [mapValues]
  | cons a as ih =>
    cases bs with
    | nil => simp at hk
    | cons b bs =>
      simp only [map_cons, List.cons.injEq] at hk hv
      simp only [mapValues, map_cons, hk.1, hv.1]
      exact congrArg _ (ih hk.2 hv.2)

omit [DecidableEq κ] in
theorem mapValues_mapValues (f : γ → δ) (g : β → γ) (t : Table κ β) :
    mapValues f (mapValues g t) = mapValues (fun x => f (g x)) t := by
  simp [mapValues]

theorem mapValues_set (f : β → γ) (t : Table κ β) (k : κ) (v : β) :
    mapValues f (set t k v) = set (mapValues f t) k (f v) := by
  induction t with
  | nil => rfl
  | cons e t ih =>
    simp only [mapValues] at ih
    by_cases h : e.1 = k <;> simp [set, mapValues, h, ih]

theorem mem_set {t : Table κ β} {k : κ} {v : β} {e : κ × β} (he : e ∈ set t k v) : e ∈ t ∨ e = (k, v) := by
  induction t with
  | nil => exact .inr (mem_singleton.mp he)
  | cons a rest ih =>
    rw [set] at he
    split at he
    · rename_i hk
      rcases mem_cons.mp he with rfl | he
      · exact .inr (by rw [← hk])
      · exact .inl (mem_cons_of_mem _ he)
    · rcases mem_cons.mp he with rfl | he
      · exact .inl (mem_cons_self ..)
      · exact (ih he).imp_left (mem_cons_of_mem _)

theorem mem_values_set {t : Table κ β} {k : κ} {v x : β} (hx : x ∈ (set t k v).map Prod.snd) :
    x ∈ t.map Prod.snd ∨ x = v := by
  obtain ⟨e, he, rfl⟩ := mem_map.mp hx
  exact (mem_set he).imp mem_map_of_mem fun h => congrArg Prod.snd h

theorem self_mem_values_set (t : Table κ β) (k : κ) (v : β) : v ∈ (set t k v).map Prod.snd := by
  induction t with
  | nil => simp [set]
  | cons e t ih =>
    by_cases h : e.1 = k
    · simp [set, h]
    · simp only [set, h, if_false, map_cons, mem_cons]
      exact .inr ih

theorem count_values_set [BEq β] (t : Table κ β) (k : κ) (v x : β) :
    ((set t k v).map Prod.snd).count x ≤ (t.map Prod.snd).count x + [v].count x := by
  induction t with
  | nil => exact Nat.le_add_left ..
  | cons e t ih =>
    rw [set]
    split
    · simp only [map_cons, count_cons, count_nil]
      omega
    · simp only [map_cons, count_cons, count_nil] at ih ⊢
      omega

/-- What setting a key brings in comes in the place of what the key had. -/
theorem count_flatMap_set [BEq δ] (t : Table κ β) (k : κ) (v : β) (f : β → List δ) (n : δ) :
    (((set t k v).map Prod.snd).flatMap f).count n + (((get? t k).map f).getD []).count n =
      ((t.map Prod.snd).flatMap f).count n + (f v).count n := by
  induction t with
  | nil => simp [set, get?]
  | cons e t ih =>
    rw [set, get?]
    split
    · simp only [map_cons, flatMap_cons, count_append, Option.map_some, Option.getD_some]
      omega
    · simp only [map_cons, flatMap_cons, count_append] at ih ⊢
      omega

omit [DecidableEq κ] in
theorem count_flatMap_mapValues_le [BEq ε] {t : Table κ β} {f : β → γ} {g : γ → List ε} {g' : β → List ε} {n : ε}
    (ht : ∀ e ∈ t, (g (f e.2)).count n ≤ (g' e.2).count n) :
    (((mapValues f t).map Prod.snd).flatMap g).count n ≤ ((t.map Prod.snd).flatMap g').count n := by
  rw [mapValues, List.map_map, flatMap_map, flatMap_map]
  exact count_flatMap_le ht

theorem count_flatMap_set_le [BEq ε] {t : Table κ β} {k : κ} {x : β} {v : γ} {f : β → γ} {g : γ → List ε}
    {g' : β → List ε} {n : ε} (hget : get? t k = some x) (hv : (g v).count n ≤ (g' x).count n)
    (hother : ∀ e ∈ t, (g (f e.2)).count n ≤ (g' e.2).count n) :
    (((set (mapValues f t) k v).map Prod.snd).flatMap g).count n ≤ ((t.map Prod.snd).flatMap g').count n := by
  induction t with
  | nil => cases hget
  | cons e t ih =>
    rw [forall_mem_cons] at hother
    rw [mapValues, map_cons, set]
    rw [get?] at hget
    split
    · next hk =>
      rw [if_pos hk] at hget
      cases hget
      have := count_flatMap_mapValues_le hother.2
      simp only [mapValues, map_cons, flatMap_cons, count_append] at this ⊢
      omega
    · next hk =>
      rw [if_neg hk] at hget
      have := ih hget hother.2
      simp only [mapValues, map_cons, flatMap_cons, count_append] at this ⊢
      have := hother.1
      omega

/-- The only value that setting a key can take out is the one of that key. -/
theorem mem_values_set_or {t : Table κ β} (k : κ) (v : β) {x : β} (hx : x ∈ t.map Prod.snd) :
    x ∈ (set t k v).map Prod.snd ∨ get? t k = some x := by
  induction t with
  | nil => cases hx
  | cons e t ih =>
    simp only [map_cons, mem_cons] at hx
    by_cases h : e.1 = k
    · simp only [set, get?, h, if_true, map_cons, mem_cons]
      rcases hx with rfl | hx
      · exact .inr rfl
      · exact .inl (.inr hx)
    · simp only [set, get?, h, if_false, map_cons, mem_cons]
      rcases hx with rfl | hx
      · exact .inl (.inl rfl)
      · exact (ih hx).imp_left .inr

theorem nodup_set {t : Table κ β} (hd : (t.map Prod.fst).Nodup) (k : κ) (v : β) :
    ((set t k v).map Prod.fst).Nodup := by
  change (keys (set t k v)).Nodup
  rw [keys_set]
  split
  · exact hd
  · next hk =>
    rw [nodup_append]
    refine ⟨hd, pairwise_singleton _ _, fun x hx y hy hxy => ?_⟩
    rw [mem_singleton.mp hy] at hxy
    exact hk (hxy ▸ hx)

theorem mem_of_get? {t : Table κ β} {k : κ} {v : β} (h : get? t k = some v) : (k, v) ∈ t := by
  induction t with
  | nil => cases h
  | cons e t ih =>
    rw [get?] at h
    split at h
    · next hk => cases h; rw [← hk]; exact mem_cons_self
    · exact mem_cons_of_mem _ (ih h)

/-- If no key occurs twice, every entry is found. -/
theorem get?_of_mem {t : Table κ β} {k : κ} {v : β} (hd : (t.map Prod.fst).Nodup) (h : (k, v) ∈ t) :
    get? t k = some v := by
  induction t with
  | nil => cases h
  | cons e t ih =>
    rw [map_cons, nodup_cons] at hd
    rw [get?]
    rcases mem_cons.mp h with rfl | h
    · simp
    · have hk : e.1 ≠ k := by
        rintro rfl
        exact hd.1 (mem_map.mpr ⟨_, h, rfl⟩)
      rw [if_neg hk]
      exact ih hd.2 h

omit [DecidableEq κ] in
theorem get?_eq_none [DecidableEq κ] {t : Table κ β} {k : κ} (h : k ∉ t.map Prod.fst) : get? t k = none := by
  induction t with
  | nil => rfl
  | cons e t ih =>
    rw [map_cons, mem_cons, not_or] at h
    rw [get?, if_neg (Ne.symm h.1), ih h.2]

theorem mem_keys {t : Table κ β} {k : κ} : k ∈ keys t ↔ has t k = true := by
  induction t with
  | nil => simp [keys, has, get?]
  | cons e rest ih =>
    rw [has] at ih
    by_cases he : e.1 = k
    · simp [keys, has, get?, he]
    · rw [keys, map_cons, mem_cons, ← keys, ih, has, get?, if_neg he]
      simp [Ne.symm he]

theorem set_get? {t : Table κ β} {k : κ} {v : β} (h : get? t k = some v) : set t k v = t := by
  induction t with
  | nil => cases h
  | cons e t ih =>
    rw [get?] at h
    rw [set]
    split at h
    · next hk => cases h; rw [if_pos hk]
    · next hk => rw [if_neg hk, ih h]

theorem set_set (t : Table κ β) (k : κ) (v v' : β) : set (set t k v) k v' = set t k v' := by
  induction t with
  | nil => simp [set]
  | cons e t ih =>
    by_cases he : e.1 = k
    · simp [set, he]
    · simp [set, he, ih]

theorem perm_set {t : Table κ β} {k : κ} {v : β} (hd : (t.map Prod.fst).Nodup)
    (hk : get? t k = some v) (v' : β) : (set t k v').Perm ((k, v') :: t.filter fun e => e.1 ≠ k) := by
  induction t with
  | nil => cases hk
  | cons e t ih =>
    obtain ⟨a, b⟩ := e
    rw [map_cons, nodup_cons] at hd
    by_cases he : a = k
    · subst he
      have hrest : t.filter (fun e => e.1 ≠ a) = t := by
        refine filter_eq_self.mpr fun e he => ?_
        have hne : e.1 ≠ a := by
          rintro rfl
          exact hd.1 (mem_map.mpr ⟨e, he, rfl⟩)
        simpa using hne
      rw [set, if_pos rfl, filter_cons_of_neg (by simp), hrest]
    · rw [get?, if_neg he] at hk
      rw [set, if_neg he, filter_cons_of_pos (by simpa using he)]
      exact ((ih hd.2 hk).cons _).trans (.swap ..)

/-- Setting a key changes the one entry of that key. -/
theorem map_set {t : Table κ β} {k : κ} {v : β} (hd : (t.map Prod.fst).Nodup) (hk : get? t k = some v)
    {f g : κ × β → γ} (hg : ∀ e ∈ t, e.1 ≠ k → f e = g e) :
    t.map (fun e => (e.1, f e)) = set (t.map fun e => (e.1, g e)) k (f (k, v)) := by
  induction t with
  | nil => cases hk
  | cons e t ih =>
    rw [map_cons, nodup_cons] at hd
    rw [forall_mem_cons] at hg
    rw [get?] at hk
    rw [map_cons, map_cons, set]
    split at hk
    · next he =>
      cases hk
      subst he
      rw [if_pos rfl]
      refine congrArg _ (map_congr_left fun e' he' => Prod.ext rfl (hg.2 e' he' ?_))
      rintro h
      exact hd.1 (h ▸ mem_map_of_mem he')
    · next he => rw [if_neg he, ih hd.2 hk hg.2, hg.1 he]

omit [DecidableEq κ] in
theorem exists_mem_zip_key {as : Table κ β} {bs : Table κ γ} (hk : as.map Prod.fst = bs.map Prod.fst) {b : κ × γ}
    (hb : b ∈ bs) : ∃ a ∈ as, a.1 = b.1 ∧ (a, b) ∈ as.zip bs := by
  have hlen : as.length = bs.length := by simpa using congrArg List.length hk
  obtain ⟨a, ha, hz⟩ := exists_mem_zip hlen hb
  obtain ⟨i, hi⟩ := mem_iff_getElem?.mp hz
  rw [getElem?_zip_eq_some] at hi
  have hki := congrArg (fun l => l[i]?) hk
  exact ⟨a, ha, by simpa [hi.1, hi.2] using hki, hz⟩

end Table

end DebugGuards
