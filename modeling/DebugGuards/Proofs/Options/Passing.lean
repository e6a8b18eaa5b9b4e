import DebugGuards.Proofs.Options.Merging

/-! Options documents without shorthand that pass their checks. The merge of two of them
passes again, and each of the settings that can be given on their own is the one of the upper
document if it gives it, and else the one of the lower document. A document is known by what
it holds under each key and by what its helpers hold under each key: the order of the keys
plays no part. -/

namespace DebugGuards.Options
open Check

/-- The settings that can be given on their own. -/
inductive Setting where
  | packageVersion
  | externalize
  | helpersModule
  | helpersGlobal
  | strict
deriving DecidableEq

/-- The names a setting goes by, in the document or in its helpers. -/
def Setting.names : Setting → String × String
  | .packageVersion => ("packageVersion", "package_version")
  | .externalize => ("externalizeHelpers", "externalize_helpers")
  | .helpersModule => ("module", "module")
  | .helpersGlobal => ("global", "global_")
  | .strict => ("strictMode", "strict_mode")

/-- Whether a document with the given fields and helpers gives a setting. -/
def givesIn (fields helpers : Table String Json) (x : Setting) : Bool :=
  let table := if x = .helpersModule ∨ x = .helpersGlobal then helpers else fields
  (spelled? table x.names.1 x.names.2).isSome

/-- Each setting is the upper one where it is given, and else the lower one. -/
structure Over (given : Setting → Bool) (lower upper o : Options) : Prop where
  packageVersion : o.packageVersion = if given .packageVersion then upper.packageVersion else lower.packageVersion
  externalize : o.externalize = if given .externalize then upper.externalize else lower.externalize
  helpersModule : o.helpers.module = if given .helpersModule then upper.helpers.module else lower.helpers.module
  helpersGlobal : o.helpers.global = if given .helpersGlobal then upper.helpers.global else lower.helpers.global
  strict : o.strict = if given .strict then upper.strict else lower.strict

section Documents

/-- The fields of the helpers of a document. -/
def explicitHelpers (g : Table String Json) : Table String Json := ((Table.get? g "helpers").getD .null).fields

/-- The options that a document without shorthand stands for. -/
def view (g : Table String Json) : Options := (Check.options [] (.obj () g)).value

/-- The check of the helpers of a document. -/
def helpersAt (g : Table String Json) : Checked Helpers :=
  Check.helpers [.key "helpers"] (.obj () (explicitHelpers g))

/-- Every part of a document passes its check. -/
structure Passes (g : Table String Json) : Prop where
  version : (fieldOr [] g "packageVersion" "package_version" none optionalText).issues = []
  env : (fieldOr [] g "envFlags" "env_flags" {} Check.envFlags).issues = []
  features : (fieldOr [] g "features" "features" [] (listOf featureFlags)).issues = []
  tools : (fieldOr [] g "debugTools" "debug_tools" ({} : Options).toolsSource debugTools).issues = []
  external : (fieldOr [] g "externalizeHelpers" "externalize_helpers" false boolean).issues = []
  shape : ∀ v, Table.get? g "helpers" = some v → v.isObject = true
  helpers : (helpersAt g).issues = []
  strict : (fieldOr [] g "strictMode" "strict_mode" false boolean).issues = []
  known : unknownKeys [] g optionNames = []

variable {a b g p : Table String Json}

/-- Absent helpers are like empty ones. -/
theorem fieldOr_helpers (h : ∀ v, Table.get? g "helpers" = some v → v.isObject = true) :
    fieldOr [] g "helpers" "helpers" {} Check.helpers = helpersAt g := by
  rw [fieldOr, spelled?_eq, helpersAt, explicitHelpers]
  cases hg : Table.get? g "helpers" with
  | none => rfl
  | some v =>
    cases v with
    | scalar | arr => cases h _ hg
    | obj m fields => rfl

theorem passes_iff (m : Unit) : (Check.options [] (.obj m g)).issues = [] ↔ Passes g := by
  have hissues : (Check.options [] (.obj m g)).issues = [] ↔
      ((((((((fieldOr [] g "packageVersion" "package_version" none optionalText).issues = [] ∧
        (fieldOr [] g "envFlags" "env_flags" {} Check.envFlags).issues = []) ∧
        (fieldOr [] g "features" "features" [] (listOf featureFlags)).issues = []) ∧
        (fieldOr [] g "debugTools" "debug_tools" ({} : Options).toolsSource debugTools).issues = []) ∧
        (fieldOr [] g "externalizeHelpers" "externalize_helpers" false boolean).issues = []) ∧
        (fieldOr [] g "helpers" "helpers" {} Check.helpers).issues = []) ∧
        (fieldOr [] g "strictMode" "strict_mode" false boolean).issues = []) ∧
        unknownKeys [] g optionNames = []) := by
    simp only [Check.options, model, List.append_eq_nil_iff]
  rw [hissues]
  constructor
  · rintro ⟨⟨⟨⟨⟨⟨⟨hv, he⟩, hf⟩, ht⟩, hx⟩, hh⟩, hs⟩, hk⟩
    have shape : ∀ v, Table.get? g "helpers" = some v → v.isObject = true := by
      intro v hg
      rw [fieldOr, spelled?_eq, hg] at hh
      obtain ⟨m, fields, rfl⟩ := issues_model hh
      rfl
    exact ⟨hv, he, hf, ht, hx, shape, fieldOr_helpers shape ▸ hh, hs, hk⟩
  · intro h
    exact ⟨⟨⟨⟨⟨⟨⟨h.version, h.env⟩, h.features⟩, h.tools⟩, h.external⟩,
      (fieldOr_helpers h.shape).symm ▸ h.helpers⟩, h.strict⟩, h.known⟩

theorem view_helpers (h : Passes g) : (view g).helpers = (helpersAt g).value := by
  rw [← fieldOr_helpers h.shape]
  rfl

end Documents

section Alike

/-- Two documents hold the same under each key, the helpers taken key by key. -/
structure Alike (g p : Table String Json) : Prop where
  off : ∀ k, k ≠ "helpers" → Table.get? g k = Table.get? p k
  shape : ∀ v, Table.get? g "helpers" = some v → v.isObject = true
  helpers : ∀ k, Table.get? (explicitHelpers g) k = Table.get? (explicitHelpers p) k

variable {α : Type} {c : Checker α} {g p : Table String Json} {place : List Step} {n o : String} {usual : α}

theorem spelled?_congr (hn : Table.get? g n = Table.get? p n) (ho : Table.get? g o = Table.get? p o) :
    spelled? g n o = spelled? p n o := by
  rw [spelled?_eq, spelled?_eq, hn, ho]

theorem fieldOr_congr (hn : Table.get? g n = Table.get? p n) (ho : Table.get? g o = Table.get? p o) :
    fieldOr place g n o usual c = fieldOr place p n o usual c := by
  rw [fieldOr, fieldOr, spelled?_congr hn ho]

theorem helpers_congr (h : ∀ k, Table.get? g k = Table.get? p k) :
    (Check.helpers place (.obj () g)).value = (Check.helpers place (.obj () p)).value ∧
      ((Check.helpers place (.obj () g)).issues = [] ↔ (Check.helpers place (.obj () p)).issues = []) := by
  have hs (n o : String) : spelled? g n o = spelled? p n o := spelled?_congr (h n) (h o)
  have hh (k : String) : Table.has g k = Table.has p k := by rw [Table.has, h, Table.has]
  simp only [Check.helpers, model, List.append_eq_nil_iff, unknownKeys_eq_nil, fieldOr, hs, hh]
  exact ⟨trivial, trivial⟩

variable (h : Alike g p)
include h

theorem Alike.fieldOr (hn : n ≠ "helpers") (ho : o ≠ "helpers") :
    Check.fieldOr place g n o usual c = Check.fieldOr place p n o usual c :=
  fieldOr_congr (h.off n hn) (h.off o ho)

theorem Alike.known (hp : unknownKeys [] p optionNames = []) : unknownKeys [] g optionNames = [] := by
  rw [unknownKeys_eq_nil] at hp ⊢
  intro k hk
  by_cases hkh : k = "helpers"
  · subst hkh
    obtain ⟨v, hv⟩ := Option.isSome_iff_exists.mp hk
    exact ⟨("helpers", "helpers"), by decide, v, by rw [spelled?_eq, hv]; rfl⟩
  · rw [Table.has, h.off k hkh] at hk
    obtain ⟨q, hq, v, hv⟩ := hp k hk
    refine ⟨q, hq, v, ?_⟩
    have hq' : q = ("helpers", "helpers") ∨ q.1 ≠ "helpers" ∧ q.2 ≠ "helpers" := by
      clear hv
      revert q
      decide
    rcases hq' with rfl | ⟨hn, ho⟩
    · exact absurd ((get?_of_spelled? hv).2.elim id id) hkh
    · rw [spelled?_congr (h.off _ hn) (h.off _ ho), hv]

theorem Alike.passes (hp : Passes p) : Passes g where
  version := (congrArg Checked.issues (h.fieldOr (by decide) (by decide))).trans hp.version
  env := (congrArg Checked.issues (h.fieldOr (by decide) (by decide))).trans hp.env
  features := (congrArg Checked.issues (h.fieldOr (by decide) (by decide))).trans hp.features
  tools := (congrArg Checked.issues (h.fieldOr (by decide) (by decide))).trans hp.tools
  external := (congrArg Checked.issues (h.fieldOr (by decide) (by decide))).trans hp.external
  shape := h.shape
  helpers := (helpers_congr h.helpers).2.mpr hp.helpers
  strict := (congrArg Checked.issues (h.fieldOr (by decide) (by decide))).trans hp.strict
  known := h.known hp.known

theorem Alike.view_eq (hp : Passes p) : view g = view p := by
  have hh : (view g).helpers = (view p).helpers := by
    rw [view_helpers (h.passes hp), view_helpers hp]
    exact (helpers_congr h.helpers).1
  unfold view Check.options model at hh ⊢
  simp only [Options.mk.injEq] at hh ⊢
  refine ⟨?_, ?_, ?_, ?_, ?_, hh, ?_⟩
  all_goals exact congrArg Checked.value (h.fieldOr (by decide) (by decide))

end Alike

section Merged

variable {a b : Table String Json}

theorem get?_explicitHelpers_mergeFields (hk : (Tree.obj () b).keyed = true)
    (hb : ∀ v, Table.get? b "helpers" = some v → v.isObject = true) (k : String) :
    Table.get? (explicitHelpers (mergeFields a b)) k =
      Table.get? (mergeFields (explicitHelpers a) (explicitHelpers b)) k := by
  obtain ⟨hd, hv⟩ := (Tree.keyed_obj () b).mp hk
  rw [explicitHelpers, get?_mergeFields hd, explicitHelpers, explicitHelpers]
  cases hg : Table.get? b "helpers" with
  | none => rfl
  | some v =>
    cases v with
    | scalar | arr => cases hb _ hg
    | obj m extra =>
      have hde := ((Tree.keyed_obj m extra).mp (hv _ (Table.mem_of_get? hg))).1
      rw [Option.map_some, Option.some_or, Option.getD_some, Option.getD_some, mergeValue.eq_def]
      change Table.get? (Tree.fields _) k = Table.get? (mergeFields _ extra) k
      cases Table.get? a "helpers" with
      | none =>
        simp only [Option.getD_none, Tree.fields, get?_mergeFields hde, Table.get?]
        cases Table.get? extra k <;> simp [mergeValue_none]
      | some w =>
        cases w with
        | scalar | arr =>
          simp only [Option.getD_some, Tree.fields, get?_mergeFields hde, Table.get?]
          cases Table.get? extra k <;> simp [mergeValue_none]
        | obj m' base => rfl

theorem keyed_explicitHelpers (hk : (Tree.obj () b).keyed = true) :
    (Tree.obj () (explicitHelpers b)).keyed = true := by
  obtain ⟨-, hv⟩ := (Tree.keyed_obj () b).mp hk
  rw [explicitHelpers]
  cases hg : Table.get? b "helpers" with
  | none => rfl
  | some v =>
    cases v with
    | scalar | arr => rfl
    | obj m fields => exact hv _ (Table.mem_of_get? hg)

theorem helpers_issues_mergeFields {place : List Step} (hk : (Tree.obj () b).keyed = true)
    (hs : sameName a b "global" "global_" = true) (ha : (Check.helpers place (.obj () a)).issues = [])
    (hb : (Check.helpers place (.obj () b)).issues = []) :
    (Check.helpers place (.obj () (mergeFields a b))).issues = [] := by
  simp only [Check.helpers, model, List.append_eq_nil_iff] at ha hb ⊢
  obtain ⟨⟨hma, hga⟩, hua⟩ := ha
  obtain ⟨⟨hmb, hgb⟩, hub⟩ := hb
  refine ⟨⟨?_, ?_⟩, ?_⟩
  · exact fieldOr_issues_mergeFields hk (sameName_self a b _)
      (fun _ v w _ _ => plain_helperModule.mergeable _ v w) hma hmb
  · exact fieldOr_issues_mergeFields hk hs (fun _ v w _ _ => plain_optionalText.mergeable _ v w) hga hgb
  · exact unknownKeys_mergeFields ((Tree.keyed_obj () b).mp hk).1 (by simp [sameName_self, hs]) hua hub

/-- No option goes by different names in the two documents. -/
structure SameNames (a b : Table String Json) : Prop where
  options : ∀ q ∈ optionNames, sameName a b q.1 q.2 = true
  helpers : sameName (explicitHelpers a) (explicitHelpers b) "global" "global_" = true

variable (ha : Passes a) (hb : Passes b) (hk : (Tree.obj () b).keyed = true) (hs : SameNames a b)
include ha hb hk hs

theorem Passes.merge : Passes (mergeFields a b) where
  version := fieldOr_issues_mergeFields hk (hs.options (_, _) (by decide))
    (fun _ v w _ _ => plain_optionalText.mergeable _ v w) ha.version hb.version
  env := fieldOr_issues_mergeFields hk (hs.options (_, _) (by decide))
    (fun _ v w _ _ => mergeable_envFlags _ v w) ha.env hb.env
  features := fieldOr_issues_mergeFields hk (hs.options (_, _) (by decide))
    (fun _ v w _ _ => (plain_listOf _).mergeable _ v w) ha.features hb.features
  tools := fieldOr_issues_mergeFields hk (hs.options (_, _) (by decide))
    (fun _ v w _ _ => mergeable_debugTools _ v w) ha.tools hb.tools
  external := fieldOr_issues_mergeFields hk (hs.options (_, _) (by decide))
    (fun _ v w _ _ => plain_boolean.mergeable _ v w) ha.external hb.external
  shape := by
    intro v hv
    rw [get?_mergeFields ((Tree.keyed_obj () b).mp hk).1] at hv
    cases hg : Table.get? b "helpers" with
    | none => exact ha.shape v (by simpa [hg] using hv)
    | some w =>
      rw [hg] at hv
      rw [← Option.some.inj hv, isObject_mergeValue]
      exact hb.shape w hg
  helpers := (helpers_congr (get?_explicitHelpers_mergeFields hk hb.shape)).2.mpr
    (helpers_issues_mergeFields (keyed_explicitHelpers hk) hs.helpers ha.helpers hb.helpers)
  strict := fieldOr_issues_mergeFields hk (hs.options (_, _) (by decide))
    (fun _ v w _ _ => plain_boolean.mergeable _ v w) ha.strict hb.strict
  known := unknownKeys_mergeFields ((Tree.keyed_obj () b).mp hk).1 hs.options ha.known hb.known

theorem Passes.over : Over (givesIn b (explicitHelpers b)) (view a) (view b) (view (mergeFields a b)) := by
  have hd := ((Tree.keyed_obj () b).mp hk).1
  have hdh := ((Tree.keyed_obj () _).mp (keyed_explicitHelpers hk)).1
  -- the helpers of the merged document are the merged helpers, as far as they are read
  have hh : (view (mergeFields a b)).helpers =
      (Check.helpers [.key "helpers"]
        (.obj () (mergeFields (explicitHelpers a) (explicitHelpers b)))).value := by
    rw [view_helpers (ha.merge hb hk hs)]
    exact (helpers_congr (get?_explicitHelpers_mergeFields hk hb.shape)).1
  have hbh := hb.helpers
  simp only [helpersAt, Check.helpers, model, List.append_eq_nil_iff] at hbh
  refine ⟨?_, ?_, ?_, ?_, ?_⟩
  · exact value_fieldOr_mergeFields hd (hs.options (_, _) (by decide)) plain_optionalText hb.version
  · exact value_fieldOr_mergeFields hd (hs.options (_, _) (by decide)) plain_boolean hb.external
  · rw [hh, view_helpers ha, view_helpers hb]
    exact value_fieldOr_mergeFields hdh (sameName_self _ _ _) plain_helperModule hbh.1.1
  · rw [hh, view_helpers ha, view_helpers hb]
    exact value_fieldOr_mergeFields hdh hs.helpers plain_optionalText hbh.1.2
  · exact value_fieldOr_mergeFields hd (hs.options (_, _) (by decide)) plain_boolean hb.strict

end Merged

end DebugGuards.Options
