import DebugGuards.Proofs.Options.Passing

/-! Documents with the externalization shorthand. An object under the externalization option
stands for `true` and goes over the helpers of its document, so merging two documents before
the shorthand is unfolded is not the same as merging the unfolded ones: the shorthand of the
lower document also goes over the helpers of the upper one, and it is lost if the upper one
sets the option plainly. Where neither matters, and no option changes its name, the two ways
agree under every key. -/

namespace DebugGuards.Options
open Check

section Shorthand

/-- The name and value of the externalization option. -/
def external? (f : Table String Json) : Option (String × Json) :=
  spelled? f "externalizeHelpers" "externalize_helpers"

/-- The fields of the shorthand, none if it is not used. -/
def shorthand (f : Table String Json) : Table String Json := (((external? f).map Prod.snd).getD .null).fields

def usesShorthand (f : Table String Json) : Bool := (external? f).any (·.2.isObject)

/-- Whether externalization is set by anything but an object. -/
def setsPlainly (f : Table String Json) : Bool := (external? f).any (!·.2.isObject)

/-- The helpers with the shorthand over them. -/
def helperFields (f : Table String Json) : Table String Json := overlay (explicitHelpers f) (shorthand f)

/-- The document without the shorthand. -/
def unfolded (f : Table String Json) : Table String Json :=
  if usesShorthand f then
    Table.set (Table.set f (((external? f).map Prod.fst).getD "") (.bool true)) "helpers" (.obj () (helperFields f))
  else f

/-- What the externalization option holds once the shorthand is unfolded. -/
def settle (v : Json) : Json := if v.isObject then .bool true else v

theorem isObject_settle (v : Json) : (settle v).isObject = false := by
  unfold settle
  split_ifs with h
  · rfl
  · simpa using h

theorem settle_mergeValue (held : Option Json) (v : Json) : settle (mergeValue held v) = settle v := by
  by_cases h : v.isObject = true
  · simp [settle, isObject_mergeValue, h]
  · rw [mergeValue_of_not_object (by simpa using h)]

variable {f : Table String Json}

/-- The externalization option goes by one of its names only. -/
def oneName (f : Table String Json) : Bool :=
  !(Table.has f "externalizeHelpers" && Table.has f "externalize_helpers")

theorem oneName_iff : oneName f = true ↔
    Table.get? f "externalizeHelpers" = none ∨ Table.get? f "externalize_helpers" = none := by
  simp [oneName, Table.has]

theorem usesShorthand_iff : usesShorthand f = true ↔ ∃ k e, external? f = some (k, .obj () e) := by
  unfold usesShorthand
  cases hx : external? f with
  | none => simp
  | some e =>
    obtain ⟨k, v⟩ := e
    cases v <;> simp [Tree.isObject]

theorem shorthand_eq_nil (h : usesShorthand f = false) : shorthand f = [] := by
  unfold usesShorthand at h
  unfold shorthand
  cases hx : external? f with
  | none => rfl
  | some e =>
    rw [hx] at h
    obtain ⟨k, v⟩ := e
    cases v with
    | scalar | arr => rfl
    | obj => cases h

theorem explicitHelpers_unfolded (f : Table String Json) : explicitHelpers (unfolded f) = helperFields f := by
  unfold unfolded
  split_ifs with h
  · rw [explicitHelpers, Table.get?_set, if_pos rfl]
    rfl
  · rw [helperFields, shorthand_eq_nil (by simpa using h)]
    rfl

theorem get?_external (h : oneName f = true) {k : String}
    (hk : k = "externalizeHelpers" ∨ k = "externalize_helpers") :
    Table.get? f k = (external? f).bind fun e => if e.1 = k then some e.2 else none := by
  rw [oneName_iff] at h
  rw [external?, spelled?_eq]
  rcases h with h | h <;> rcases hk with rfl | rfl <;>
    cases h₁ : Table.get? f "externalizeHelpers" <;>
    cases h₂ : Table.get? f "externalize_helpers" <;> simp_all

theorem get?_unfolded_external (h : oneName f = true) {k : String}
    (hk : k = "externalizeHelpers" ∨ k = "externalize_helpers") :
    Table.get? (unfolded f) k = (Table.get? f k).map settle := by
  have hg := get?_external h hk
  have hh : "helpers" ≠ k := by rcases hk with rfl | rfl <;> decide
  unfold unfolded usesShorthand
  cases hx : external? f with
  | none => simp [hg, hx]
  | some e =>
    rw [hx] at hg
    cases ho : e.2.isObject <;> by_cases he : e.1 = k <;> simp [hg, ho, he, hh, Table.get?_set, settle]

theorem get?_unfolded {k : String} (hk : k ≠ "helpers")
    (he : k ≠ "externalizeHelpers" ∧ k ≠ "externalize_helpers") :
    Table.get? (unfolded f) k = Table.get? f k := by
  unfold unfolded
  split_ifs with h
  · rw [Table.get?_set, if_neg (Ne.symm hk), Table.get?_set, if_neg]
    unfold usesShorthand at h
    cases hx : external? f with
    | none => rw [hx] at h; cases h
    | some e =>
      rcases (get?_of_spelled? hx).2 with h | h
      · rw [Option.map_some, Option.getD_some, h]
        exact Ne.symm he.1
      · rw [Option.map_some, Option.getD_some, h]
        exact Ne.symm he.2
  · rfl

theorem has_unfolded (h : oneName f = true) {k : String} (hk : k ≠ "helpers") :
    Table.has (unfolded f) k = Table.has f k := by
  rw [Table.has, Table.has]
  by_cases he : k = "externalizeHelpers" ∨ k = "externalize_helpers"
  · rw [get?_unfolded_external h he, Option.isSome_map]
  · rw [get?_unfolded hk (not_or.mp he)]

end Shorthand

section Accepted

/-- A document that can be read, in parts: the shorthand can be unfolded, and what comes of it
passes its checks. -/
structure Accepted (f : Table String Json) : Prop where
  oneName : oneName f = true
  given : usesShorthand f = true → givenHelpers f = .ok (explicitHelpers f)
  passes : Passes (unfolded f)

variable {f : Table String Json} {m : Unit}

theorem givenHelpers_eq {given : Table String Json} (h : givenHelpers f = .ok given) :
    given = explicitHelpers f := by
  unfold givenHelpers at h
  unfold explicitHelpers
  cases hv : (Table.get? f "helpers").getD .null with
  | obj m fields => rw [hv] at h; exact (Except.ok.inj h).symm
  | scalar s | arr m items =>
    simp only [hv] at h
    split at h
    · cases h
    · exact (Except.ok.inj h).symm

theorem givenHelpers_of_shape
    (h : ∀ v, Table.get? f "helpers" = some v → v.isObject = true ∨ v.truth = false) :
    givenHelpers f = .ok (explicitHelpers f) := by
  unfold givenHelpers explicitHelpers
  cases hv : Table.get? f "helpers" with
  | none => rfl
  | some v =>
    cases v with
    | obj => rfl
    | scalar | arr =>
      rcases h _ hv with h | h
      · cases h
      · simp [h, Tree.fields]

theorem unfoldAt_of_object {k : String} {e : Table String Json} (hk : Table.get? f k = some (.obj m e)) :
    unfoldAt k f = (givenHelpers f).map fun given =>
      Table.set (Table.set f k (.bool true)) "helpers" (.obj () (overlay given e)) := by
  rw [unfoldAt, hk]
  cases givenHelpers f <;> rfl

theorem unfoldAt_of_not_object {k : String} (hk : ∀ v, Table.get? f k = some v → v.isObject = false) :
    unfoldAt k f = .ok f := by
  unfold unfoldAt
  split
  · next hv => cases hk _ hv
  · rfl

theorem has_unfoldAt {k j : String} {g : Table String Json} (h : unfoldAt k f = .ok g)
    (hj : Table.has f j = true) : Table.has g j = true := by
  unfold unfoldAt at h
  split at h
  · next m e _ =>
    cases hg : givenHelpers f with
    | error => rw [hg] at h; cases h
    | ok given =>
      rw [hg] at h
      rw [← Except.ok.inj h, Table.has, Table.get?_set, Table.get?_set]
      split_ifs
      · rfl
      · rfl
      · exact hj
  · rw [← Except.ok.inj h]
    exact hj

/-- With one name for the option, the shorthand is unfolded once at most. -/
theorem unfold_obj (h : Options.oneName f = true) (m : Unit) :
    Check.unfold (.obj m f) =
      if usesShorthand f then (givenHelpers f).map fun _ => .obj m (unfolded f) else .ok (.obj m f) := by
  have hcamel := get?_external h (.inl rfl)
  have hsnake := get?_external h (.inr rfl)
  by_cases hu : usesShorthand f = true
  · obtain ⟨k, e, hx⟩ := usesShorthand_iff.mp hu
    rw [hx] at hcamel hsnake
    have hf (given : Table String Json) (hg : givenHelpers f = .ok given) :
        unfolded f = Table.set (Table.set f k (.bool true)) "helpers" (.obj () (overlay given e)) := by
      rw [unfolded, if_pos hu, givenHelpers_eq hg, helperFields, shorthand, hx]
      rfl
    rw [if_pos hu, Check.unfold]
    rcases (get?_of_spelled? hx).2 with rfl | rfl
    · -- under the first name, the second finds nothing to unfold
      rw [unfoldAt_of_object hcamel]
      cases hg : givenHelpers f with
      | error => rfl
      | ok given =>
        rw [hf given hg]
        change (do return Tree.obj m (← unfoldAt "externalize_helpers" _)) = _
        rw [unfoldAt_of_not_object]
        · rfl
        · intro v hv
          rw [Table.get?_set, Table.get?_set] at hv
          simp [hsnake] at hv
    · rw [unfoldAt_of_not_object (by simp [hcamel])]
      change (do return Tree.obj m (← unfoldAt "externalize_helpers" f)) = _
      rw [unfoldAt_of_object hsnake]
      cases hg : givenHelpers f with
      | error => rfl
      | ok given => rw [hf given hg]; rfl
  · have hn (k : String) (hk : Table.get? f k = (external? f).bind fun e => if e.1 = k then some e.2 else none) :
        unfoldAt k f = .ok f := by
      refine unfoldAt_of_not_object fun v hv => ?_
      rw [hk] at hv
      unfold usesShorthand at hu
      cases hx : external? f with
      | none => rw [hx] at hv; cases hv
      | some e =>
        rw [hx] at hu hv
        have hev := Option.some.inj (Option.ite_none_right_eq_some.mp hv).2
        simpa [hev] using hu
    rw [if_neg hu, Check.unfold, hn _ hcamel]
    change (do return Tree.obj m (← unfoldAt "externalize_helpers" f)) = _
    rw [hn _ hsnake]
    rfl

theorem has_of_unfold {t : Json} (h : Check.unfold (.obj m f) = .ok t) :
    ∃ g, t = .obj m g ∧ ∀ k, Table.has f k = true → Table.has g k = true := by
  rw [Check.unfold] at h
  cases h₁ : unfoldAt "externalizeHelpers" f with
  | error => rw [h₁] at h; cases h
  | ok f₁ =>
    rw [h₁] at h
    change (do return Tree.obj m (← unfoldAt "externalize_helpers" f₁)) = _ at h
    cases h₂ : unfoldAt "externalize_helpers" f₁ with
    | error => rw [h₂] at h; cases h
    | ok f₂ =>
      rw [h₂] at h
      exact ⟨f₂, (Except.ok.inj h).symm, fun k hk => has_unfoldAt h₂ (has_unfoldAt h₁ hk)⟩

/-- Beside its first name, the second name of an option is unknown. -/
theorem Passes.one_name {g : Table String Json} (h : Passes g) {q : String × String} (hq : q ∈ optionNames)
    (hne : q.1 ≠ q.2) : Table.has g q.1 = false ∨ Table.has g q.2 = false := by
  by_contra hn
  rw [not_or, Bool.not_eq_false, Bool.not_eq_false] at hn
  obtain ⟨r, hr, v, hv⟩ := unknownKeys_eq_nil.mp h.known _ hn.2
  have hqr : r = q := by
    have hname := (get?_of_spelled? hv).2
    clear hv hn
    revert q r
    decide
  subst hqr
  obtain ⟨w, hw⟩ := Option.isSome_iff_exists.mp hn.1
  rw [spelled?, hw] at hv
  exact hne (Prod.mk.inj (Option.some.inj hv)).1

theorem ofJson_eq_ok {t : Json} {o : Options} (h : ofJson t = .ok o) :
    ∃ u, Check.unfold t = .ok u ∧ (Check.options [] u).issues = [] ∧ (Check.options [] u).value = o := by
  rw [ofJson] at h
  cases hu : Check.unfold t with
  | error => rw [hu] at h; cases h
  | ok u =>
    rw [hu] at h
    change (if (Check.options [] u).issues.isEmpty then pure (Check.options [] u).value else _) = _ at h
    split at h
    · next hi => exact ⟨u, rfl, List.isEmpty_iff.mp hi, Except.ok.inj h⟩
    · cases h

theorem accepted_of_ofJson {o : Options} (h : ofJson (.obj m f) = .ok o) :
    Accepted f ∧ o = view (unfolded f) := by
  obtain ⟨u, hu, hi, rfl⟩ := ofJson_eq_ok h
  have hone : Options.oneName f = true := by
    obtain ⟨g, rfl, hg⟩ := has_of_unfold hu
    have hp := ((passes_iff m).mp hi).one_name
      (show ("externalizeHelpers", "externalize_helpers") ∈ optionNames by decide) (by decide)
    by_contra hn
    simp only [Options.oneName, Bool.not_eq_true', Bool.not_eq_false, Bool.and_eq_true] at hn
    simp [hg _ hn.1, hg _ hn.2] at hp
  rw [unfold_obj hone] at hu
  split at hu
  · cases hg : givenHelpers f with
    | error => rw [hg] at hu; cases hu
    | ok given =>
      rw [hg] at hu
      cases hu
      obtain rfl := givenHelpers_eq hg
      exact ⟨⟨hone, fun _ => hg, (passes_iff m).mp hi⟩, rfl⟩
  · next hn =>
    cases hu
    have hf : unfolded f = f := by rw [unfolded, if_neg hn]
    rw [hf]
    exact ⟨⟨hone, fun h => absurd h hn, hf.symm ▸ (passes_iff m).mp hi⟩, rfl⟩

theorem Accepted.ofJson_eq (h : Accepted f) (m : Unit) : ofJson (.obj m f) = .ok (view (unfolded f)) := by
  have hu : Check.unfold (.obj m f) = .ok (.obj m (unfolded f)) := by
    rw [unfold_obj h.oneName]
    split_ifs with hs
    · rw [h.given hs]
      rfl
    · rw [unfolded, if_neg hs]
  rw [ofJson, hu]
  change (if (Check.options [] (.obj m (unfolded f))).issues.isEmpty then _ else _) = _
  rw [(passes_iff m).mpr h.passes]
  rfl

end Accepted

end DebugGuards.Options
