import DebugGuards.Proofs.Options.Shorthand

/-! One layer of options over another. Two layers that can be read on their own are compatible
if no option changes its name between them and the shorthand of the lower one neither goes
over helpers of the upper one nor is lost. Then the merged layers can be read too, and each
setting is that of the upper layer if it gives it, and else that of the lower one. -/

namespace DebugGuards.Options
open Check List

/-- Whether a layer gives a setting, the shorthand included. -/
def gives (f : Table String Json) : Setting → Bool := givesIn f (helperFields f)

/-- The options that a layer stands for on its own. -/
def read (f : Table String Json) : Options := view (unfolded f)

/-- The second layer can go over the first. -/
structure Compatible (a b : Table String Json) : Prop where
  names : ∀ q ∈ optionNames, sameName a b q.1 q.2 = true
  global : sameName (helperFields a) (helperFields b) "global" "global_" = true
  /-- Each field of the lower shorthand is given up for the one that the upper layer has, and
  only for that. -/
  shorthand : (shorthand a).all (fun e =>
    if setsPlainly b then Table.has (explicitHelpers b) e.1
    else !Table.has (explicitHelpers b) e.1 || Table.has (shorthand b) e.1) = true
  /-- Helpers are not replaced by something else than an object. -/
  replaced : ((Table.get? b "helpers").all Tree.isObject || (explicitHelpers a).isEmpty) = true
  /-- Helpers that are only read with the shorthand do not outlive it. -/
  outlived : ((Table.get? a "helpers").all Tree.isObject || !setsPlainly b || Table.has b "helpers") = true

section Lookups

variable {a b f : Table String Json}

theorem keyed_overlay {base extra : Table String Json} (hb : (Tree.obj () base).keyed = true)
    (he : (Tree.obj () extra).keyed = true) : (Tree.obj () (overlay base extra)).keyed = true := by
  rw [Tree.keyed_obj] at he
  obtain ⟨-, he⟩ := he
  rw [overlay]
  induction extra generalizing base with
  | nil => exact hb
  | cons e rest ih =>
    rw [foldl_cons]
    exact ih (Tree.keyed_set hb e.1 (he e mem_cons_self)) fun e he' => he e (mem_cons_of_mem _ he')

theorem keyed_shorthand (hk : (Tree.obj () f).keyed = true) : (Tree.obj () (shorthand f)).keyed = true := by
  obtain ⟨-, hv⟩ := (Tree.keyed_obj () f).mp hk
  rw [shorthand]
  cases hx : external? f with
  | none => rfl
  | some e =>
    obtain ⟨k, v⟩ := e
    cases v with
    | scalar | arr => rfl
    | obj m fields => exact hv _ (Table.mem_of_get? (get?_of_spelled? hx).1)

theorem keyed_unfolded (hk : (Tree.obj () f).keyed = true) : (Tree.obj () (unfolded f)).keyed = true := by
  unfold unfolded
  split_ifs
  · exact Tree.keyed_set (Tree.keyed_set hk _ rfl) _ (keyed_overlay (keyed_explicitHelpers hk) (keyed_shorthand hk))
  · exact hk

/-- Nothing but texts, booleans and the like passes among the helpers. -/
theorem not_object_of_helpers {h : Table String Json} {place : List Step}
    (hi : (Check.helpers place (.obj () h)).issues = []) {k : String} {v : Json}
    (hv : Table.get? h k = some v) : v.isObject = false := by
  simp only [Check.helpers, model, append_eq_nil_iff, unknownKeys_eq_nil] at hi
  obtain ⟨⟨hm, hg⟩, hu⟩ := hi
  obtain ⟨q, hq, w, hw⟩ := hu k (by rw [Table.has, hv]; rfl)
  have hwv : w = v := Option.some.inj ((get?_of_spelled? hw).1.symm.trans hv)
  subst hwv
  rcases mem_cons.mp hq with rfl | hq
  · rw [fieldOr, hw] at hm
    exact plain_helperModule.not_object hm
  · rw [mem_singleton.mp hq] at hw
    rw [fieldOr, hw] at hg
    exact plain_optionalText.not_object hg

theorem usesShorthand_of_setsPlainly (h : setsPlainly f = true) : usesShorthand f = false := by
  unfold setsPlainly at h
  unfold usesShorthand
  cases hx : external? f with
  | none => rfl
  | some e => simpa [hx] using h

theorem gives_eq (h : oneName f = true) : givesIn (unfolded f) (explicitHelpers (unfolded f)) = gives f := by
  have hs (n o : String) (hn : n ≠ "helpers") (ho : o ≠ "helpers") :
      (spelled? (unfolded f) n o).isSome = (spelled? f n o).isSome := by
    have hn' := has_unfolded h hn
    have ho' := has_unfolded h ho
    simp only [Table.has] at hn' ho'
    simp [spelled?_eq, hn', ho']
  funext x
  rw [explicitHelpers_unfolded]
  unfold gives givesIn
  cases x with
  | helpersModule | helpersGlobal => rfl
  | packageVersion | externalize | strict => exact hs _ _ (by decide) (by decide)

end Lookups

section Merged

variable {a b : Table String Json}

section

variable (hd : (b.map Prod.fst).Nodup) (hc : Compatible a b)
include hd hc

theorem external?_mergeFields :
    external? (mergeFields a b) =
      ((external? b).map fun e => (e.1, mergeValue (Table.get? a e.1) e.2)).or (external? a) :=
  spelled?_mergeFields hd (hc.names ("externalizeHelpers", "externalize_helpers") (by decide))

theorem oneName_mergeFields (ha : oneName a = true) (hb : oneName b = true) : oneName (mergeFields a b) = true := by
  have hs := hc.names ("externalizeHelpers", "externalize_helpers") (by decide)
  simp only [sameName, oneName, has_mergeFields hd] at hs ha hb ⊢
  generalize Table.has a "externalizeHelpers" = x, Table.has a "externalize_helpers" = y,
    Table.has b "externalizeHelpers" = z, Table.has b "externalize_helpers" = w at *
  revert x y z w
  decide

theorem usesShorthand_mergeFields :
    usesShorthand (mergeFields a b) = (usesShorthand b || (usesShorthand a && !setsPlainly b)) := by
  unfold usesShorthand setsPlainly
  rw [external?_mergeFields hd hc]
  cases external? b with
  | none => simp
  | some e => cases h : e.2.isObject <;> simp [isObject_mergeValue, h]

/-- The shorthand of merged layers: that of the lower layer, none, or both merged. -/
theorem shorthand_mergeFields :
    (setsPlainly b = true ∧ shorthand (mergeFields a b) = []) ∨
      setsPlainly b = false ∧ (shorthand (mergeFields a b) = mergeFields (shorthand a) (shorthand b) ∨
        shorthand a = [] ∧ shorthand (mergeFields a b) = shorthand b) := by
  have hs := hc.names ("externalizeHelpers", "externalize_helpers") (by decide)
  have hx := external?_mergeFields hd hc
  unfold setsPlainly shorthand
  rw [hx]
  cases hb : external? b with
  | none => exact .inr ⟨rfl, .inl rfl⟩
  | some e =>
    obtain ⟨k, v⟩ := e
    cases v with
    | scalar | arr =>
      refine .inl ⟨rfl, ?_⟩
      change (mergeValue (Table.get? a k) _).fields = []
      rw [mergeValue_of_not_object rfl]
      rfl
    | obj m extra =>
      refine .inr ⟨rfl, ?_⟩
      cases hg : Table.get? a k with
      | none =>
        have ha : external? a = none := by
          cases ha : external? a with
          | none => rfl
          | some e =>
            obtain rfl : e.1 = k := name_eq_of_sameName hs ha hb
            rw [(get?_of_spelled? ha).1] at hg
            cases hg
        refine .inr ⟨by rw [ha]; rfl, ?_⟩
        simp [hg, mergeValue_none]
      | some w =>
        have ha : external? a = some (k, w) := spelled?_of_sameName hs hb hg
        rw [ha]
        cases w with
        | scalar | arr =>
          refine .inr ⟨rfl, ?_⟩
          simp [hg, mergeValue]
        | obj m' base =>
          refine .inl ?_
          simp [hg, mergeValue, Tree.fields]

end

section

variable (hk : (Tree.obj () b).keyed = true) (hc : Compatible a b)
include hk hc

theorem get?_shorthand_mergeFields (k : String) :
    Table.get? (shorthand (mergeFields a b)) k =
      if setsPlainly b then none else
        ((Table.get? (shorthand b) k).map (mergeValue (Table.get? (shorthand a) k))).or
          (Table.get? (shorthand a) k) := by
  have hd := ((Tree.keyed_obj () b).mp hk).1
  have hdb := ((Tree.keyed_obj () _).mp (keyed_shorthand hk)).1
  rcases shorthand_mergeFields hd hc with ⟨hp, hm⟩ | ⟨hp, hm | ⟨ha, hm⟩⟩
  · rw [hm, if_pos hp]
    rfl
  · rw [hm, hp, get?_mergeFields hdb]
    rfl
  · rw [hm, hp, ha]
    cases h : Table.get? (shorthand b) k <;> simp [Table.get?, mergeValue_none]

theorem nodup_shorthand_mergeFields
    (ha : ((shorthand a).map Prod.fst).Nodup) : ((shorthand (mergeFields a b)).map Prod.fst).Nodup := by
  rcases shorthand_mergeFields ((Tree.keyed_obj () b).mp hk).1 hc with ⟨-, hm⟩ | ⟨-, hm | ⟨-, hm⟩⟩
  · rw [hm]
    exact nodup_nil
  · rw [hm]
    exact nodup_mergeFields ha _
  · rw [hm]
    exact ((Tree.keyed_obj () _).mp (keyed_shorthand hk)).1

theorem get?_explicitHelpers_of_compatible (k : String) :
    Table.get? (explicitHelpers (mergeFields a b)) k =
      ((Table.get? (explicitHelpers b) k).map (mergeValue (Table.get? (explicitHelpers a) k))).or
        (Table.get? (explicitHelpers a) k) := by
  by_cases hs : (Table.get? b "helpers").all Tree.isObject = true
  · have hs' (v : Json) (hv : Table.get? b "helpers" = some v) : v.isObject = true := by
      rw [hv] at hs
      exact hs
    rw [get?_explicitHelpers_mergeFields hk hs',
      get?_mergeFields ((Tree.keyed_obj () _).mp (keyed_explicitHelpers hk)).1]
  · have ha : explicitHelpers a = [] := by
      have hr := hc.replaced
      rw [Bool.eq_false_iff.mpr hs, Bool.false_or] at hr
      exact List.isEmpty_iff.mp hr
    cases hg : Table.get? b "helpers" with
    | none => rw [hg] at hs; exact absurd rfl hs
    | some v =>
      have hv : v.isObject = false := by simpa [hg] using hs
      have hf : v.fields = [] := by
        cases v with
        | scalar | arr => rfl
        | obj => cases hv
      rw [ha]
      simp [explicitHelpers, get?_mergeFields ((Tree.keyed_obj () b).mp hk).1, hg,
        mergeValue_of_not_object hv, hf, Table.get?]

end

theorem has_shorthand_of_compatible (hc : Compatible a b) {k : String}
    (hk : Table.has (shorthand a) k = true) :
    if setsPlainly b then Table.has (explicitHelpers b) k = true
    else Table.has (explicitHelpers b) k = true → Table.has (shorthand b) k = true := by
  obtain ⟨v, hv⟩ := Option.isSome_iff_exists.mp hk
  have h := all_eq_true.mp hc.shorthand _ (Table.mem_of_get? hv)
  cases hp : setsPlainly b <;> simp only [hp] at h ⊢
  · intro hb
    simpa [hb] using h
  · exact h

/-- The helpers of the merged layers are the merged helpers of the layers, under every key. -/
theorem get?_helperFields_mergeFields (hb : Accepted b) (hk : (Tree.obj () b).keyed = true)
    (hda : ((shorthand a).map Prod.fst).Nodup) (hc : Compatible a b) (k : String) :
    Table.get? (helperFields (mergeFields a b)) k =
      Table.get? (mergeFields (helperFields a) (helperFields b)) k := by
  have hdb := ((Tree.keyed_obj () _).mp (keyed_shorthand hk)).1
  have hdh : ((helperFields b).map Prod.fst).Nodup :=
    ((Tree.keyed_obj () _).mp (keyed_overlay (keyed_explicitHelpers hk) (keyed_shorthand hk))).1
  have hplain (v : Json) (hv : Table.get? (helperFields b) k = some v) : v.isObject = false := by
    have hi := hb.passes.helpers
    rw [helpersAt, explicitHelpers_unfolded] at hi
    exact not_object_of_helpers hi hv
  have hfb : Table.get? (helperFields b) k =
      (Table.get? (shorthand b) k).or (Table.get? (explicitHelpers b) k) := get?_overlay hdb k
  have hfa : Table.get? (helperFields a) k =
      (Table.get? (shorthand a) k).or (Table.get? (explicitHelpers a) k) := get?_overlay hda k
  rw [get?_mergeFields hdh, hfb, hfa, helperFields,
    get?_overlay (nodup_shorthand_mergeFields hk hc hda), get?_shorthand_mergeFields hk hc,
    get?_explicitHelpers_of_compatible hk hc]
  rw [hfb] at hplain
  cases heb : Table.get? (shorthand b) k with
  | some v =>
    have hv := hplain v (by rw [heb]; rfl)
    have hp : setsPlainly b = false := by
      by_contra hp
      rw [shorthand_eq_nil (usesShorthand_of_setsPlainly (by simpa using hp))] at heb
      cases heb
    simp [hp, mergeValue_of_not_object hv]
  | none =>
    rw [heb, Option.none_or] at hplain
    cases hea : Table.get? (shorthand a) k with
    | some u =>
      -- the lower shorthand has the field: the upper helpers must have it or must not
      have h := has_shorthand_of_compatible hc (show Table.has (shorthand a) k = true by simp [Table.has, hea])
      split at h
      · next hp =>
        obtain ⟨w, hw⟩ := Option.isSome_iff_exists.mp h
        simp [hp, hw, mergeValue_of_not_object (hplain w hw)]
      · next hp =>
        have hw : Table.get? (explicitHelpers b) k = none := by
          by_contra hw
          have := h (Option.isSome_iff_ne_none.mpr hw)
          simp [Table.has, heb] at this
        simp [hp, hw]
    | none =>
      cases hw : Table.get? (explicitHelpers b) k with
      | none => simp
      | some w => simp [mergeValue_of_not_object (hplain w hw)]

theorem Accepted.helpers_shape (ha : Accepted a) {v : Json} (hv : Table.get? a "helpers" = some v) :
    v.isObject = true ∨ usesShorthand a = true ∧ v.truth = false := by
  by_cases hu : usesShorthand a = true
  · have hg := ha.given hu
    unfold givenHelpers at hg
    rw [hv, Option.getD_some] at hg
    cases v with
    | obj => exact .inl rfl
    | scalar | arr =>
      refine .inr ⟨hu, ?_⟩
      simp only at hg
      split at hg
      · cases hg
      · next ht => simpa using ht
  · have hp := ha.passes.shape v
    rw [unfolded, if_neg hu] at hp
    exact .inl (hp hv)

variable (ha : Accepted a) (hb : Accepted b) (hk : (Tree.obj () b).keyed = true)
  (hda : ((shorthand a).map Prod.fst).Nodup) (hc : Compatible a b)
include ha hb hk hc

/-- The merged layers have helpers that can be read without a shorthand, if they have none. -/
theorem shape_mergeFields (hu : usesShorthand (mergeFields a b) = false) {v : Json}
    (hv : Table.get? (mergeFields a b) "helpers" = some v) : v.isObject = true := by
  have hd := ((Tree.keyed_obj () b).mp hk).1
  rw [usesShorthand_mergeFields hd hc, Bool.or_eq_false_iff] at hu
  rw [get?_mergeFields hd] at hv
  cases hg : Table.get? b "helpers" with
  | some w =>
    rw [hg] at hv
    rw [← Option.some.inj hv, isObject_mergeValue]
    exact (hb.helpers_shape hg).resolve_right fun h => by simp [hu.1] at h
  | none =>
    rw [hg, Option.map_none, Option.none_or] at hv
    rcases ha.helpers_shape hv with h | ⟨hua, -⟩
    · exact h
    · -- the lower shorthand is lost, and nothing takes the place of its helpers
      have hp : setsPlainly b = true := by simpa [hua] using hu.2
      simpa [hv, hp, Table.has, hg] using hc.outlived

omit hc in
/-- Helpers of the merged layers that are no object count as none. -/
theorem given_mergeFields : givenHelpers (mergeFields a b) = .ok (explicitHelpers (mergeFields a b)) := by
  refine givenHelpers_of_shape fun v hv => ?_
  rw [get?_mergeFields ((Tree.keyed_obj () b).mp hk).1] at hv
  cases hg : Table.get? b "helpers" with
  | some w =>
    rw [hg] at hv
    rw [← Option.some.inj hv, isObject_mergeValue]
    rcases hb.helpers_shape hg with h | ⟨-, h⟩
    · exact .inl h
    · by_cases ho : w.isObject = true
      · exact .inl ho
      · rw [mergeValue_of_not_object (by simpa using ho)]
        exact .inr h
  | none =>
    rw [hg, Option.map_none, Option.none_or] at hv
    exact (ha.helpers_shape hv).imp_right And.right

omit hk in
theorem sameNames_unfolded : SameNames (unfolded a) (unfolded b) := by
  refine ⟨fun q hq => ?_, ?_⟩
  · have hq' : q = ("helpers", "helpers") ∨ q.1 ≠ "helpers" ∧ q.2 ≠ "helpers" := by
      revert q
      decide
    rcases hq' with rfl | ⟨hn, ho⟩
    · exact sameName_self _ _ _
    · rw [sameName, has_unfolded ha.oneName hn, has_unfolded ha.oneName ho, has_unfolded hb.oneName hn,
        has_unfolded hb.oneName ho]
      exact hc.names q hq
  · rw [explicitHelpers_unfolded, explicitHelpers_unfolded]
    exact hc.global

include hda

theorem alike_unfolded : Alike (unfolded (mergeFields a b)) (mergeFields (unfolded a) (unfolded b)) := by
  have hd := ((Tree.keyed_obj () b).mp hk).1
  have hdu := ((Tree.keyed_obj () _).mp (keyed_unfolded hk)).1
  refine ⟨fun k hkh => ?_, fun v hv => ?_, fun k => ?_⟩
  · rw [get?_mergeFields hdu]
    by_cases he : k = "externalizeHelpers" ∨ k = "externalize_helpers"
    · rw [get?_unfolded_external (oneName_mergeFields hd hc ha.oneName hb.oneName) he,
        get?_unfolded_external ha.oneName he, get?_unfolded_external hb.oneName he, get?_mergeFields hd]
      cases Table.get? b k with
      | none => simp
      | some w => simp [settle_mergeValue, mergeValue_of_not_object (isObject_settle w)]
    · rw [not_or] at he
      rw [get?_unfolded hkh he, get?_unfolded hkh he, get?_unfolded hkh he, get?_mergeFields hd]
  · by_cases hu : usesShorthand (mergeFields a b) = true
    · rw [unfolded, if_pos hu, Table.get?_set, if_pos rfl] at hv
      rw [← Option.some.inj hv]
      rfl
    · rw [unfolded, if_neg hu] at hv
      exact shape_mergeFields ha hb hk hc (by simpa using hu) hv
  · rw [explicitHelpers_unfolded, get?_helperFields_mergeFields hb hk hda hc,
      get?_explicitHelpers_mergeFields (keyed_unfolded hk) hb.passes.shape, explicitHelpers_unfolded,
      explicitHelpers_unfolded]

theorem Accepted.merge : Accepted (mergeFields a b) where
  oneName := oneName_mergeFields ((Tree.keyed_obj () b).mp hk).1 hc ha.oneName hb.oneName
  given _ := given_mergeFields ha hb hk
  passes := (alike_unfolded ha hb hk hda hc).passes
    (ha.passes.merge hb.passes (keyed_unfolded hk) (sameNames_unfolded ha hb hc))

theorem over_mergeFields : Over (gives b) (read a) (read b) (read (mergeFields a b)) := by
  have hs := sameNames_unfolded ha hb hc
  have hp := ha.passes.merge hb.passes (keyed_unfolded hk) hs
  have ho := ha.passes.over hb.passes (keyed_unfolded hk) hs
  rw [gives_eq hb.oneName] at ho
  rw [read, read, read, (alike_unfolded ha hb hk hda hc).view_eq hp]
  exact ho

end Merged

section Composition

variable {a b c : Table String Json}

theorem sameName_mergeFields {n o : String} (hd : (b.map Prod.fst).Nodup) (ha : sameName a c n o = true)
    (hb : sameName b c n o = true) : sameName (mergeFields a b) c n o = true := by
  simp only [sameName, has_mergeFields hd] at ha hb ⊢
  generalize (n == o) = e, Table.has a n = x, Table.has a o = y, Table.has b n = z, Table.has b o = w,
    Table.has c n = u, Table.has c o = v at *
  revert e x y z w u v
  decide

/-- What can go over each of two layers can go over the merged ones. -/
theorem compatible_mergeFields (hb : Accepted b) (hk : (Tree.obj () b).keyed = true)
    (hda : ((shorthand a).map Prod.fst).Nodup) (hab : Compatible a b) (hac : Compatible a c)
    (hbc : Compatible b c) : Compatible (mergeFields a b) c where
  names q hq := sameName_mergeFields ((Tree.keyed_obj () b).mp hk).1 (hac.names q hq) (hbc.names q hq)
  global := by
    have hdh := ((Tree.keyed_obj () _).mp (keyed_overlay (keyed_explicitHelpers hk) (keyed_shorthand hk))).1
    have h := sameName_mergeFields hdh hac.global hbc.global
    simp only [sameName, Table.has] at h ⊢
    rw [get?_helperFields_mergeFields hb hk hda hab, get?_helperFields_mergeFields hb hk hda hab]
    exact h
  shorthand := by
    rw [all_eq_true]
    rintro ⟨k, v⟩ he
    have hg := Table.get?_of_mem (nodup_shorthand_mergeFields hk hab hda) he
    rw [get?_shorthand_mergeFields hk hab] at hg
    have hh : Table.has (shorthand b) k = true ∨ Table.has (shorthand a) k = true := by
      unfold Table.has
      split at hg
      · cases hg
      · cases h : Table.get? (shorthand b) k with
        | some w => exact .inl rfl
        | none =>
          rw [h, Option.map_none, Option.none_or] at hg
          exact .inr (by rw [hg]; rfl)
    have h := hh.elim (has_shorthand_of_compatible hbc) (has_shorthand_of_compatible hac)
    cases hp : setsPlainly c <;> simp only [hp] at h ⊢
    · simp only [Bool.false_eq_true, if_false, Bool.or_eq_true, Bool.not_eq_true'] at h ⊢
      by_cases hx : Table.has (explicitHelpers c) k = true
      · exact .inr (h hx)
      · exact .inl (by simpa using hx)
    · exact h
  replaced := by
    have ha := hac.replaced
    have hb := hbc.replaced
    rw [Bool.or_eq_true, List.isEmpty_iff] at ha hb ⊢
    rcases ha with h | ha
    · exact .inl h
    rcases hb with h | hb
    · exact .inl h
    refine .inr ?_
    cases he : explicitHelpers (mergeFields a b) with
    | nil => rfl
    | cons e rest =>
      have hg := get?_explicitHelpers_of_compatible hk hab e.1
      rw [he, ha, hb] at hg
      simp [Table.get?] at hg
  outlived := by
    have ha := hac.outlived
    have hb := hbc.outlived
    rw [Bool.or_assoc, Bool.or_eq_true] at ha hb ⊢
    rcases ha with ha | h
    · rcases hb with hb | h
      · refine .inl ?_
        rw [get?_mergeFields ((Tree.keyed_obj () b).mp hk).1]
        cases hg : Table.get? b "helpers" with
        | none => simpa using ha
        | some w => simpa [hg, isObject_mergeValue] using hb
      · exact .inr h
    · exact .inr h

end Composition

end DebugGuards.Options
