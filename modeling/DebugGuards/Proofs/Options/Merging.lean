import DebugGuards.Options.Check
import DebugGuards.Options.Merge
import DebugGuards.Proofs.Node.WellFormed

/-! Merging options documents without shorthand. A field of the merged document holds what
the upper document has there, or else what the lower one has, and where both have an object
the objects are merged. What passes a check in both documents passes it in the merged one, if
no option goes by a different name in each: a key that only the lower document uses would
stay beside the other spelling and be unknown. -/

namespace DebugGuards.Options
open Check List

section Tables

variable {base extra : Table String Json}

theorem get?_mergeFields (hd : (extra.map Prod.fst).Nodup) (k : String) :
    Table.get? (mergeFields base extra) k =
      ((Table.get? extra k).map (mergeValue (Table.get? base k))).or (Table.get? base k) := by
  induction extra generalizing base with
  | nil => simp [mergeFields, Table.get?]
  | cons e rest ih =>
    obtain ⟨j, v⟩ := e
    rw [map_cons, nodup_cons] at hd
    rw [mergeFields, ih hd.2, Table.get?_set, Table.get?]
    by_cases hj : j = k
    · subst hj
      simp [Table.get?_eq_none hd.1]
    · simp [hj]

theorem get?_overlay (hd : (extra.map Prod.fst).Nodup) (k : String) :
    Table.get? (overlay base extra) k = (Table.get? extra k).or (Table.get? base k) := by
  rw [overlay]
  induction extra generalizing base with
  | nil => simp [Table.get?]
  | cons e rest ih =>
    obtain ⟨j, v⟩ := e
    rw [map_cons, nodup_cons] at hd
    rw [foldl_cons, ih hd.2, Table.get?_set, Table.get?]
    by_cases hj : j = k
    · subst hj
      simp [Table.get?_eq_none hd.1]
    · simp [hj]

theorem has_mergeFields (hd : (extra.map Prod.fst).Nodup) (k : String) :
    Table.has (mergeFields base extra) k = (Table.has extra k || Table.has base k) := by
  rw [Table.has, get?_mergeFields hd, Option.isSome_or, Option.isSome_map]
  rfl

theorem nodup_mergeFields (hd : (base.map Prod.fst).Nodup) (extra : Table String Json) :
    ((mergeFields base extra).map Prod.fst).Nodup := by
  induction extra generalizing base with
  | nil => exact hd
  | cons e rest ih => exact ih (Table.nodup_set hd e.1 _)

theorem mergeValue_of_not_object {held : Option Json} {v : Json} (h : v.isObject = false) :
    mergeValue held v = v := by
  cases v with
  | scalar | arr => rw [mergeValue]; simp
  | obj => cases h

theorem isObject_mergeValue (held : Option Json) (v : Json) :
    (mergeValue held v).isObject = v.isObject := by
  cases v with
  | scalar | arr => rw [mergeValue_of_not_object rfl]
  | obj m extra =>
    unfold mergeValue
    split <;> rfl

theorem mergeValue_none (v : Json) : mergeValue none v = v := by
  cases v <;> simp [mergeValue]

/-- Where the upper table holds no objects, nothing is merged further down. -/
theorem mem_mergeFields (hp : ∀ e ∈ extra, e.2.isObject = false) {e : String × Json}
    (he : e ∈ mergeFields base extra) : e ∈ base ∨ e ∈ extra := by
  induction extra generalizing base with
  | nil => exact .inl he
  | cons x rest ih =>
    obtain ⟨k, v⟩ := x
    rw [mergeFields, mergeValue_of_not_object (hp (k, v) mem_cons_self)] at he
    rcases ih (fun e he => hp e (mem_cons_of_mem _ he)) he with h | h
    · exact (Table.mem_set h).imp_right fun h => mem_cons.mpr (.inl h)
    · exact .inr (mem_cons_of_mem _ h)

end Tables

section Names

variable {a b : Table String Json} {n o : String}

/-- A field of two names goes by the same one in both tables. -/
def sameName (a b : Table String Json) (n o : String) : Bool :=
  n == o || !(Table.has a n && Table.has b o || Table.has a o && Table.has b n)

theorem spelled?_eq (a : Table String Json) (n o : String) :
    spelled? a n o = ((Table.get? a n).map (n, ·)).or ((Table.get? a o).map (o, ·)) := by
  rw [spelled?]
  cases Table.get? a n <;> simp

theorem get?_of_spelled? {k : String} {v : Json} (h : spelled? a n o = some (k, v)) :
    Table.get? a k = some v ∧ (k = n ∨ k = o) := by
  rw [spelled?] at h
  cases hn : Table.get? a n with
  | some w =>
    rw [hn] at h
    cases h
    exact ⟨hn, .inl rfl⟩
  | none =>
    rw [hn] at h
    obtain ⟨w, hw, he⟩ := Option.map_eq_some_iff.mp h
    cases he
    exact ⟨hw, .inr rfl⟩

/-- The name is that of the upper table, if it has the field. -/
theorem spelled?_mergeFields (hd : (b.map Prod.fst).Nodup) (hs : sameName a b n o = true) :
    spelled? (mergeFields a b) n o =
      ((spelled? b n o).map fun e => (e.1, mergeValue (Table.get? a e.1) e.2)).or (spelled? a n o) := by
  simp only [spelled?_eq, get?_mergeFields hd]
  simp only [sameName, Bool.or_eq_true, beq_iff_eq, Bool.not_eq_true', Bool.or_eq_false_iff,
    Bool.and_eq_false_iff, Table.has, Option.isSome_eq_false_iff, Option.isNone_iff_eq_none] at hs
  rcases hs with rfl | hs
  · cases Table.get? b n <;> simp
  · cases hb : Table.get? b n <;> cases hb' : Table.get? b o <;> cases ha : Table.get? a n <;>
      cases ha' : Table.get? a o <;> simp_all

theorem name_eq_of_sameName {k k' : String} {v v' : Json} (hs : sameName a b n o = true)
    (ha : spelled? a n o = some (k, v)) (hb : spelled? b n o = some (k', v')) : k = k' := by
  obtain ⟨hka, hk⟩ := get?_of_spelled? ha
  obtain ⟨hkb, hk'⟩ := get?_of_spelled? hb
  rcases hk with rfl | rfl <;> rcases hk' with rfl | rfl <;> simp_all [sameName, Table.has]

/-- What the lower table has under the name used in the upper one is the field. -/
theorem spelled?_of_sameName {k : String} {v w : Json} (hs : sameName a b n o = true)
    (hb : spelled? b n o = some (k, w)) (ha : Table.get? a k = some v) : spelled? a n o = some (k, v) := by
  cases h : spelled? a n o with
  | none =>
    rw [spelled?_eq, Option.or_eq_none_iff, Option.map_eq_none_iff, Option.map_eq_none_iff] at h
    rcases (get?_of_spelled? hb).2 with rfl | rfl <;> simp_all
  | some e =>
    obtain ⟨k', v'⟩ := e
    obtain rfl := name_eq_of_sameName hs h hb
    rw [(get?_of_spelled? h).1] at ha
    rw [Option.some.inj ha]

theorem unknownKeys_eq_nil {place : List Step} {names : List (String × String)} :
    unknownKeys place a names = [] ↔
      ∀ k, Table.has a k = true → ∃ q ∈ names, ∃ v, spelled? a q.1 q.2 = some (k, v) := by
  simp only [unknownKeys, map_eq_nil_iff, filter_eq_nil_iff, Table.mem_keys]
  refine forall₂_congr fun k _ => ?_
  simp only [Bool.not_eq_true', Bool.not_eq_false, contains_iff_mem, mem_filterMap,
    Option.map_eq_some_iff, Prod.exists, exists_and_right, exists_eq_right]

theorem unknownKeys_mergeFields {place : List Step} {names : List (String × String)}
    (hd : (b.map Prod.fst).Nodup) (hs : ∀ q ∈ names, sameName a b q.1 q.2 = true)
    (ha : unknownKeys place a names = []) (hb : unknownKeys place b names = []) :
    unknownKeys place (mergeFields a b) names = [] := by
  rw [unknownKeys_eq_nil] at ha hb ⊢
  intro k hk
  rw [has_mergeFields hd, Bool.or_eq_true] at hk
  rcases hk with hk | hk
  · obtain ⟨q, hq, v, hv⟩ := hb k hk
    exact ⟨q, hq, _, by rw [spelled?_mergeFields hd (hs q hq), hv]; rfl⟩
  · obtain ⟨q, hq, v, hv⟩ := ha k hk
    refine ⟨q, hq, ?_⟩
    rw [spelled?_mergeFields hd (hs q hq), hv]
    cases hb' : spelled? b q.1 q.2 with
    | none => exact ⟨v, rfl⟩
    | some e =>
      obtain ⟨k', v'⟩ := e
      obtain rfl := name_eq_of_sameName (hs q hq) hv hb'
      exact ⟨_, rfl⟩

end Names

section Checks

variable {α : Type} {c : Checker α} {a b : Table String Json} {place : List Step} {n o : String}
  {usual : α}

/-- A check that no object passes. -/
def Plain (c : Checker α) : Prop := ∀ place m fields, (c place (.obj m fields)).issues ≠ []

/-- What passes the check in two documents passes it in the merged one. -/
def Mergeable (c : Checker α) : Prop :=
  ∀ place (v w : Json), w.keyed = true → (c place v).issues = [] → (c place w).issues = [] →
    (c place (mergeValue (some v) w)).issues = []

theorem Plain.not_object {v : Json} (hc : Plain c) (h : (c place v).issues = []) : v.isObject = false := by
  cases v with
  | scalar | arr => rfl
  | obj m fields => exact absurd h (hc place m fields)

theorem Plain.mergeable (hc : Plain c) : Mergeable c := by
  intro place v w _ _ hw
  rwa [mergeValue_of_not_object (hc.not_object hw)]

theorem value_fieldOr_mergeFields (hd : (b.map Prod.fst).Nodup) (hs : sameName a b n o = true)
    (hc : Plain c) (hb : (fieldOr place b n o usual c).issues = []) :
    (fieldOr place (mergeFields a b) n o usual c).value =
      if (spelled? b n o).isSome then (fieldOr place b n o usual c).value
      else (fieldOr place a n o usual c).value := by
  rw [fieldOr] at hb
  rw [fieldOr, spelled?_mergeFields hd hs]
  cases h : spelled? b n o with
  | none => rfl
  | some e =>
    rw [h] at hb
    have hv := hc.not_object hb
    simp [fieldOr, h, mergeValue_of_not_object hv]

/-- A field keeps passing its check if the check bears the merging of what the two tables
hold. -/
theorem fieldOr_issues_mergeFields (hk : (Tree.obj () b).keyed = true) (hs : sameName a b n o = true)
    (hc : ∀ k v w, Table.get? a k = some v → Table.get? b k = some w → w.keyed = true →
      (c (place ++ [.key k]) v).issues = [] → (c (place ++ [.key k]) w).issues = [] →
      (c (place ++ [.key k]) (mergeValue (some v) w)).issues = [])
    (ha : (fieldOr place a n o usual c).issues = []) (hb : (fieldOr place b n o usual c).issues = []) :
    (fieldOr place (mergeFields a b) n o usual c).issues = [] := by
  obtain ⟨hd, hv⟩ := (Tree.keyed_obj () b).mp hk
  rw [fieldOr] at ha hb
  rw [fieldOr, spelled?_mergeFields hd hs]
  cases h : spelled? b n o with
  | none => exact ha
  | some e =>
    obtain ⟨k, w⟩ := e
    rw [h] at hb
    have hw := (get?_of_spelled? h).1
    change (c (place ++ [.key k]) (mergeValue (Table.get? a k) w)).issues = []
    cases hg : Table.get? a k with
    | none => rwa [mergeValue_none]
    | some v =>
      rw [spelled?_of_sameName hs h hg] at ha
      exact hc k v w hg hw (hv (k, w) (Table.mem_of_get? hw)) ha hb

theorem plain_text : Plain text := fun _ _ _ => nofun

theorem plain_optionalText : Plain optionalText := fun _ _ _ => nofun

theorem plain_integer : Plain integer := fun _ _ _ => nofun

theorem plain_boolean : Plain boolean := fun _ _ _ => nofun

theorem plain_helperModule : Plain helperModule := fun _ _ _ => nofun

theorem plain_listOf (c : Checker α) : Plain (listOf c) := fun _ _ _ => nofun

theorem issues_model {check : List Step → Table String Json → Checked α} [Inhabited α] {v : Json}
    (h : (model check place v).issues = []) : ∃ m fields, v = .obj m fields := by
  cases v with
  | scalar | arr => cases h
  | obj m fields => exact ⟨m, fields, rfl⟩

theorem mergeable_model [Inhabited α] {check : List Step → Table String Json → Checked α}
    (hc : ∀ place a b, (Tree.obj () b).keyed = true → (check place a).issues = [] →
      (check place b).issues = [] → (check place (mergeFields a b)).issues = []) :
    Mergeable (model check) := by
  intro place v w hw hv hv'
  obtain ⟨m, a, rfl⟩ := issues_model hv
  obtain ⟨m', b, rfl⟩ := issues_model hv'
  rw [mergeValue]
  exact hc place a b hw hv hv'

theorem sameName_self (a b : Table String Json) (n : String) : sameName a b n n = true := by
  simp [sameName]

theorem flags_issues {m : Unit} : (flags place (.obj m a)).issues = [] ↔
    ∀ e ∈ a, (integer (place ++ [.key e.1]) e.2).issues = [] := by
  simp [flags, flatMap_map]

theorem mergeable_flags : Mergeable flags := by
  intro place v w _ hv hw
  cases v with
  | scalar | arr => cases hv
  | obj m a =>
    cases w with
    | scalar | arr => cases hw
    | obj m' b =>
      rw [flags_issues] at hv hw
      rw [mergeValue, flags_issues]
      intro e he
      exact (mem_mergeFields (fun e he => plain_integer.not_object (hw e he)) he).elim (hv e) (hw e)

theorem mergeable_envFlags : Mergeable Check.envFlags := by
  refine mergeable_model fun place a b hk ha hb => ?_
  have hd := ((Tree.keyed_obj () b).mp hk).1
  simp only [append_eq_nil_iff] at ha hb ⊢
  obtain ⟨⟨hsa, hfa⟩, hua⟩ := ha
  obtain ⟨⟨hsb, hfb⟩, hub⟩ := hb
  refine ⟨⟨?_, ?_⟩, ?_⟩
  · exact fieldOr_issues_mergeFields hk (sameName_self a b _)
      (fun _ v w _ _ => plain_text.mergeable _ v w) hsa hsb
  · exact fieldOr_issues_mergeFields hk (sameName_self a b _) (fun _ v w _ _ => mergeable_flags _ v w) hfa hfb
  · exact unknownKeys_mergeFields hd (by simp [sameName_self]) hua hub

theorem mergeable_debugTools : Mergeable debugTools := by
  refine mergeable_model fun place a b hk ha hb => ?_
  have hd := ((Tree.keyed_obj () b).mp hk).1
  simp only [append_eq_nil_iff] at ha hb ⊢
  refine ⟨?_, unknownKeys_mergeFields hd (by simp [sameName_self]) ha.2 hb.2⟩
  exact fieldOr_issues_mergeFields hk (sameName_self a b _)
    (fun _ v w _ _ => plain_text.mergeable _ v w) ha.1 hb.1

end Checks

end DebugGuards.Options
