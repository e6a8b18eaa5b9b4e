import DebugGuards.Options.Load
import DebugGuards.Proofs.Options.Documents
import DebugGuards.Proofs.Options.Layers

/-! Explicit settings win. Options are gathered from three layers: the project's settings, an
options file and explicit arguments. If each layer goes over those below it, every setting is
the argument, or else what the file gives, or else what the project gives, and a package
version that none of them names is that of the manifest. -/

namespace DebugGuards.Options
open Check Files

/-- Settings given as arguments, each of the type of its option. -/
structure Arguments where
  packageVersion : Option String := none
  externalize : Option Bool := none
  helpersModule : Option String := none
  helpersGlobal : Option String := none
  strict : Option Bool := none

namespace Arguments

variable (x : Arguments)

def overrides : Overrides where
  packageVersion := x.packageVersion.map .str
  externalize := x.externalize.map .bool
  strict := x.strict.map .bool
  helpersModule := x.helpersModule.map .str
  helpersGlobal := x.helpersGlobal.map .str

/-- The arguments as a layer. -/
def layer : Table String Json := x.overrides.document.fields

theorem document_eq : x.overrides.document = .obj () x.layer := rfl

/-- The helpers among the arguments. -/
def helperLayer : Table String Json :=
  givenField "module" (x.helpersModule.map .str) ++ givenField "global" (x.helpersGlobal.map .str)

theorem get?_givenField_append (k : String) (v : Option Json) (rest : Table String Json) (j : String) :
    Table.get? (givenField k v ++ rest) j = if k = j then v.or (Table.get? rest j) else Table.get? rest j := by
  cases v <;> simp [givenField, Table.get?]

theorem get?_givenField (k : String) (v : Option Json) (j : String) :
    Table.get? (givenField k v) j = if k = j then v else none := by
  cases v <;> simp [givenField, Table.get?]

theorem get?_helperLayer (j : String) : Table.get? x.helperLayer j =
    if "module" = j then x.helpersModule.map .str else
    if "global" = j then x.helpersGlobal.map .str else none := by
  rw [helperLayer, get?_givenField_append, get?_givenField]
  by_cases h : "module" = j
  · subst h; simp
  · simp [h]

theorem get?_layer (j : String) : Table.get? x.layer j =
    if "packageVersion" = j then x.packageVersion.map .str else
    if "externalizeHelpers" = j then x.externalize.map .bool else
    if "strictMode" = j then x.strict.map .bool else
    if "helpers" = j ∧ x.helperLayer ≠ [] then some (.obj () x.helperLayer) else none := by
  have hl : x.layer = givenField "packageVersion" (x.packageVersion.map .str) ++
      (givenField "externalizeHelpers" (x.externalize.map .bool) ++
        (givenField "strictMode" (x.strict.map .bool) ++
          if x.helperLayer.isEmpty then [] else [("helpers", .obj () x.helperLayer)])) := by
    simp only [← List.append_assoc]
    rfl
  have hh : Table.get? (if x.helperLayer.isEmpty then [] else [("helpers", Tree.obj () x.helperLayer)]) j =
      if "helpers" = j ∧ x.helperLayer ≠ [] then some (.obj () x.helperLayer) else none := by
    cases h : x.helperLayer <;> simp [Table.get?]
  rw [hl, get?_givenField_append, get?_givenField_append, get?_givenField_append, hh]
  by_cases hv : "packageVersion" = j
  · subst hv; simp
  by_cases he : "externalizeHelpers" = j
  · subst he; simp
  by_cases hs : "strictMode" = j
  · subst hs; simp
  simp [hv, he, hs]

theorem explicitHelpers_layer : explicitHelpers x.layer = x.helperLayer := by
  rw [explicitHelpers, x.get?_layer]
  cases h : x.helperLayer <;> simp [Tree.fields]

section Fields

variable {α γ : Type} {c : Checker α} {t : Table String Json} {place : List Step} {n o k : String} {usual : α}
  {given : Option γ} {written : γ → Json} {f : γ → α}

section

variable (h : spelled? t n o = given.map fun v => (k, written v)) (hc : ∀ place v, c place (written v) = ⟨f v, []⟩)
include h hc

theorem issues_fieldOr_of_given : (fieldOr place t n o usual c).issues = [] := by
  rw [fieldOr, h]
  cases given with
  | none => rfl
  | some v => simp [hc]

theorem value_fieldOr_of_given (below : α) :
    (if (spelled? t n o).isSome then (fieldOr place t n o usual c).value else below) =
      (given.map f).getD below := by
  rw [fieldOr, h]
  cases given with
  | none => rfl
  | some v => simp [hc]

end

theorem unknownKeys_of_first_names {names : List (String × String)}
    (h : ∀ k, Table.has t k = true → k ∈ names.map Prod.fst) : unknownKeys place t names = [] := by
  rw [unknownKeys_eq_nil]
  intro k hk
  obtain ⟨q, hq, rfl⟩ := List.mem_map.mp (h k hk)
  obtain ⟨v, hv⟩ := Option.isSome_iff_exists.mp hk
  exact ⟨q, hq, v, by rw [spelled?_eq, hv]; rfl⟩

end Fields

theorem spelled?_version : spelled? x.layer "packageVersion" "package_version" =
    x.packageVersion.map fun s => ("packageVersion", .str s) := by
  rw [spelled?_eq, x.get?_layer, x.get?_layer]
  cases x.packageVersion <;> simp

theorem spelled?_external : spelled? x.layer "externalizeHelpers" "externalize_helpers" =
    x.externalize.map fun b => ("externalizeHelpers", .bool b) := by
  rw [spelled?_eq, x.get?_layer, x.get?_layer]
  cases x.externalize <;> simp

theorem spelled?_strict : spelled? x.layer "strictMode" "strict_mode" =
    x.strict.map fun b => ("strictMode", .bool b) := by
  rw [spelled?_eq, x.get?_layer, x.get?_layer]
  cases x.strict <;> simp

theorem spelled?_module : spelled? x.helperLayer "module" "module" =
    x.helpersModule.map fun s => ("module", .str s) := by
  rw [spelled?_eq, x.get?_helperLayer]
  cases x.helpersModule <;> simp

theorem spelled?_global : spelled? x.helperLayer "global" "global_" =
    x.helpersGlobal.map fun s => ("global", .str s) := by
  rw [spelled?_eq, x.get?_helperLayer, x.get?_helperLayer]
  cases x.helpersGlobal <;> simp

theorem usesShorthand_layer : usesShorthand x.layer = false := by
  rw [usesShorthand, external?, x.spelled?_external]
  cases x.externalize <;> rfl

theorem unfolded_layer : unfolded x.layer = x.layer := by
  rw [unfolded, x.usesShorthand_layer]
  rfl

theorem helperFields_layer : helperFields x.layer = x.helperLayer := by
  rw [helperFields, shorthand_eq_nil x.usesShorthand_layer, x.explicitHelpers_layer]
  rfl

theorem passes_helperLayer (place : List Step) :
    (Check.helpers place (.obj () x.helperLayer)).issues = [] := by
  simp only [Check.helpers, model, List.append_eq_nil_iff]
  refine ⟨⟨?_, ?_⟩, unknownKeys_of_first_names fun k hk => ?_⟩
  · exact issues_fieldOr_of_given x.spelled?_module fun _ _ => rfl
  · exact issues_fieldOr_of_given x.spelled?_global fun _ _ => rfl
  · rw [Table.has, x.get?_helperLayer] at hk
    split_ifs at hk with hm hg
    · exact hm ▸ by decide
    · exact hg ▸ by decide
    · cases hk

theorem passes_layer : Passes x.layer where
  version := issues_fieldOr_of_given x.spelled?_version fun _ _ => rfl
  env := by simp [fieldOr, spelled?_eq, x.get?_layer]
  features := by simp [fieldOr, spelled?_eq, x.get?_layer]
  tools := by simp [fieldOr, spelled?_eq, x.get?_layer]
  external := issues_fieldOr_of_given x.spelled?_external fun _ _ => rfl
  shape v hv := by
    rw [x.get?_layer] at hv
    simp only [String.reduceEq, if_false, true_and] at hv
    rw [← (Option.ite_none_right_eq_some.mp hv).2 |> Option.some.inj]
    rfl
  helpers := by
    rw [helpersAt, x.explicitHelpers_layer]
    exact x.passes_helperLayer _
  strict := issues_fieldOr_of_given x.spelled?_strict fun _ _ => rfl
  known := unknownKeys_of_first_names fun k hk => by
    rw [Table.has, x.get?_layer] at hk
    split_ifs at hk with hv he hs hh
    · exact hv ▸ by decide
    · exact he ▸ by decide
    · exact hs ▸ by decide
    · exact hh.1 ▸ by decide
    · cases hk

theorem accepted_layer : Accepted x.layer where
  oneName := by rw [oneName_iff, x.get?_layer, x.get?_layer]; exact .inr rfl
  given h := by rw [x.usesShorthand_layer] at h; cases h
  passes := by rw [x.unfolded_layer]; exact x.passes_layer

theorem keyed_layer : (Tree.obj () x.layer).keyed = true := by
  obtain ⟨version, external, module, global, strict⟩ := x
  cases version <;> cases external <;> cases module <;> cases global <;> cases strict <;> rfl

/-- Over other options, each argument that is given is the setting. -/
theorem over_layer {lower o : Options} (h : Over (gives x.layer) lower (read x.layer) o) :
    o.packageVersion = (x.packageVersion.map some).getD lower.packageVersion ∧
      o.externalize = x.externalize.getD lower.externalize ∧
      o.helpers.module = (x.helpersModule.map .redirect).getD lower.helpers.module ∧
      o.helpers.global = (x.helpersGlobal.map some).getD lower.helpers.global ∧
      o.strict = x.strict.getD lower.strict := by
  have hh := view_helpers x.passes_layer
  rw [helpersAt, x.explicitHelpers_layer] at hh
  rw [read, x.unfolded_layer, gives, x.helperFields_layer] at h
  refine ⟨?_, ?_, ?_, ?_, ?_⟩
  · rw [h.packageVersion]
    exact value_fieldOr_of_given x.spelled?_version (fun _ _ => rfl) _
  · rw [h.externalize, ← Option.map_id_apply (x := x.externalize)]
    exact value_fieldOr_of_given x.spelled?_external (fun _ _ => rfl) _
  · rw [h.helpersModule, hh]
    exact value_fieldOr_of_given x.spelled?_module (fun _ _ => rfl) _
  · rw [h.helpersGlobal, hh]
    exact value_fieldOr_of_given x.spelled?_global (fun _ _ => rfl) _
  · rw [h.strict, ← Option.map_id_apply (x := x.strict)]
    exact value_fieldOr_of_given x.spelled?_strict (fun _ _ => rfl) _

end Arguments

section Gathering

/-- An argument, or what the file gives, or else what the project gives. -/
def prevail {α : Type} (argument : Option α) (inFile : Bool) (file project : α) : α :=
  argument.getD (if inFile then file else project)

/-- The package version of the three layers. -/
def prevailingVersion (x : Arguments) (given : Setting → Bool) (file project : Options) : Option String :=
  prevail (x.packageVersion.map some) (given .packageVersion) file.packageVersion project.packageVersion

/-- An empty version names none. -/
def namesOne (version : Option String) : Bool := version.any (· ≠ "")

/-- Each setting is the first that is given: as an argument, by the file, by the project. A
version that is not named by any of them is that of the manifest. -/
structure Gathered (x : Arguments) (given : Setting → Bool) (file project : Options)
    (manifest : Option String) (o : Options) : Prop where
  packageVersion : o.packageVersion =
    if namesOne (prevailingVersion x given file project) then prevailingVersion x given file project
    else manifest.or (prevailingVersion x given file project)
  externalize : o.externalize = prevail x.externalize (given .externalize) file.externalize project.externalize
  helpersModule : o.helpers.module =
    prevail (x.helpersModule.map .redirect) (given .helpersModule) file.helpers.module project.helpers.module
  helpersGlobal : o.helpers.global =
    prevail (x.helpersGlobal.map some) (given .helpersGlobal) file.helpers.global project.helpers.global
  strict : o.strict = prevail x.strict (given .strict) file.strict project.strict

theorem truth_of_optionalText {place : List Step} {v : Json} (h : (optionalText place v).issues = []) :
    v.truth = namesOne (optionalText place v).value := by
  cases v with
  | arr | obj => cases h
  | scalar a =>
    cases a with
    | null => rfl
    | str s => by_cases hs : s = "" <;> simp [Tree.truth, Scalar.truth, optionalText, text, Checked.map, namesOne, hs]
    | bool | int | float => cases h

/-- A document names a version if the options read from it do. -/
theorem namesVersion_eq {f : Table String Json} (h : Accepted f) :
    namesVersion (.obj () f) = namesOne (read f).packageVersion := by
  have hcamel : Table.get? (unfolded f) "packageVersion" = Table.get? f "packageVersion" :=
    get?_unfolded (by decide) (by decide)
  have hsnake : Table.get? (unfolded f) "package_version" = Table.get? f "package_version" :=
    get?_unfolded (by decide) (by decide)
  have hone := h.passes.one_name (show ("packageVersion", "package_version") ∈ optionNames by decide) (by decide)
  have hi := h.passes.version
  have hn : namesVersion (.obj () f) = (((Table.get? f "packageVersion").getD .null).truth ||
      ((Table.get? f "package_version").getD .null).truth) := by
    simp [namesVersion, Tree.fields]
  change _ = namesOne (fieldOr [] (unfolded f) "packageVersion" "package_version" none optionalText).value
  rw [fieldOr, spelled?_eq, hcamel, hsnake] at hi ⊢
  simp only [Table.has, hcamel, hsnake, Option.isSome_eq_false_iff, Option.isNone_iff_eq_none] at hone
  rw [hn]
  rcases hone with ho | ho
  · rw [ho] at hi ⊢
    cases hv : Table.get? f "package_version" with
    | none => rfl
    | some v =>
      rw [hv] at hi
      exact truth_of_optionalText hi
  · rw [ho] at hi ⊢
    cases hv : Table.get? f "packageVersion" with
    | none => rfl
    | some v =>
      rw [hv] at hi
      exact (Bool.or_false _).trans (truth_of_optionalText hi)

/-- A found version goes over the other layers as an argument would. -/
theorem withVersion_eq (f : Table String Json) (v : String) :
    withVersion (.obj () f) (some v) =
      .obj () (mergeFields f (Arguments.layer { packageVersion := some v })) := by
  have hl : Arguments.layer { packageVersion := some v } = [("packageVersion", .str v)] := rfl
  simp [withVersion, hl, mergeFields, mergeValue, Tree.fields]

theorem compatible_version {f : Table String Json} (h : Table.has f "package_version" = false) (v : String) :
    Compatible f (Arguments.layer { packageVersion := some v }) := by
  generalize hx : ({ packageVersion := some v } : Arguments) = x
  have hhelpers : x.helperLayer = [] := by subst hx; rfl
  have hplain : setsPlainly x.layer = false := by
    rw [setsPlainly, external?, x.spelled?_external]
    subst hx
    rfl
  have hlayer (k : String) (hk : k ≠ "packageVersion") : Table.has x.layer k = false := by
    rw [Table.has, x.get?_layer]
    subst hx
    simp [Ne.symm hk, hhelpers]
  refine ⟨fun q hq => ?_, ?_, ?_, ?_, ?_⟩
  · by_cases hq' : q = ("packageVersion", "package_version")
    · rw [hq']
      simp [sameName, h, hlayer]
    · have hne : q.1 ≠ "packageVersion" ∧ q.2 ≠ "packageVersion" := by
        clear hx
        revert q
        decide
      simp [sameName, hlayer _ hne.1, hlayer _ hne.2]
  · simp [sameName, x.helperFields_layer, hhelpers, Table.has, Table.get?]
  · simp [hplain, x.explicitHelpers_layer, hhelpers, Table.has, Table.get?]
  · simp [x.get?_layer, hhelpers]
  · simp [hplain]

theorem exists_obj_of_ofJson {t : Json} {o : Options} (h : ofJson t = .ok o) : ∃ f, t = .obj () f := by
  cases t with
  | obj m f => exact ⟨f, rfl⟩
  | scalar | arr => cases h

theorem keyed_projectSettings {s : Store} {start : Route} {t : Json} (h : projectSettings s start = .ok t) :
    t.keyed = true := by
  unfold projectSettings at h
  split at h
  · exact Except.ok.inj h ▸ rfl
  · split at h
    · cases h
    · next table ht =>
      have hk := ((Tree.keyed_obj () table).mp (Toml.keyed_of_parse ht)).2
      have htool : ((Table.get? table "tool").getD (.obj () [])).keyed = true := by
        cases hg : Table.get? table "tool" with
        | none => rfl
        | some v => exact hk _ (Table.mem_of_get? hg)
      revert htool h
      generalize (Table.get? table "tool").getD (.obj () []) = tool
      intro h htool
      cases tool with
      | scalar | arr => cases h
      | obj m fields =>
        rw [← Except.ok.inj h]
        cases hg : Table.get? fields "debug_macros" with
        | none => rfl
        | some v => exact ((Tree.keyed_obj m fields).mp htool).2 _ (Table.mem_of_get? hg)

theorem keyed_readDocument {s : Store} {r : Route} {t : Json} (h : readDocument s r = .ok t) :
    t.keyed = true := by
  unfold readDocument at h
  cases hr : s.read r with
  | error => rw [hr] at h; cases h
  | ok text =>
    rw [hr] at h
    exact Json.keyed_of_read h

section Layers

variable {project file : Table String Json} {x : Arguments} (hp : Accepted project) (hf : Accepted file)
  (hkp : (Tree.obj () project).keyed = true) (hkf : (Tree.obj () file).keyed = true)
  (hpf : Compatible project file) (hpx : Compatible project x.layer) (hfx : Compatible file x.layer)
include hp hf hkp hkf hpf hpx hfx

theorem gathered_layers :
    Accepted (mergeFields (mergeFields project file) x.layer) ∧
      ((shorthand (mergeFields (mergeFields project file) x.layer)).map Prod.fst).Nodup ∧
      Gathered x (gives file) (read file) (read project) none
        (read (mergeFields (mergeFields project file) x.layer)) := by
  have hdp := ((Tree.keyed_obj () _).mp (keyed_shorthand hkp)).1
  have hd := nodup_shorthand_mergeFields hkf hpf hdp
  have ha := hp.merge hf hkf hdp hpf
  have hc := compatible_mergeFields hf hkf hdp hpf hpx hfx
  refine ⟨ha.merge x.accepted_layer x.keyed_layer hd hc, nodup_shorthand_mergeFields x.keyed_layer hc hd, ?_⟩
  have hof := over_mergeFields hp hf hkf hdp hpf
  obtain ⟨hv, he, hm, hg, hs⟩ := x.over_layer (over_mergeFields ha x.accepted_layer x.keyed_layer hd hc)
  rw [hof.packageVersion] at hv
  rw [hof.externalize] at he
  rw [hof.helpersModule] at hm
  rw [hof.helpersGlobal] at hg
  rw [hof.strict] at hs
  exact ⟨by rw [hv, Option.none_or, ite_self]; rfl, he, hm, hg, hs⟩

end Layers

theorem load_eq {s : Store} {start r : Route} (x : Arguments) {project file : Table String Json}
    (hs : projectSettings s start = .ok (.obj () project)) (hd : readDocument s r = .ok (.obj () file)) :
    load s start (some r) x.overrides =
      if namesVersion (.obj () (mergeFields (mergeFields project file) x.layer)) then
        ofJson (.obj () (mergeFields (mergeFields project file) x.layer))
      else (manifestVersion s start).bind fun m =>
        ofJson (withVersion (.obj () (mergeFields (mergeFields project file) x.layer)) m) := by
  have hl : layered (.obj () project) (some (.obj () file)) x.overrides =
      .ok (.obj () (mergeFields (mergeFields project file) x.layer)) := by
    rw [layered, x.document_eq]
    rfl
  simp only [load, hs, Option.mapM_some, hd, bind, Except.bind, pure, Except.pure, Functor.map, Except.map, hl]

/-- Explicit settings win over the options file, and the file over the settings of the project,
if the layers are compatible. -/
theorem load_gathers {s : Store} {start r : Route} {x : Arguments} {settings document : Json}
    {project file : Options} {manifest : Option String} (hs : projectSettings s start = .ok settings)
    (hd : readDocument s r = .ok document) (hp : ofJson settings = .ok project) (hf : ofJson document = .ok file)
    (hsd : Compatible settings.fields document.fields) (hsx : Compatible settings.fields x.layer)
    (hdx : Compatible document.fields x.layer)
    (hm : namesOne (prevailingVersion x (gives document.fields) file project) = true ∨
      manifestVersion s start = .ok manifest ∧ (manifest = none ∨
        Table.has settings.fields "package_version" = false ∧ Table.has document.fields "package_version" = false)) :
    ∃ o, load s start (some r) x.overrides = .ok o ∧
      Gathered x (gives document.fields) file project manifest o := by
  obtain ⟨a, rfl⟩ := exists_obj_of_ofJson hp
  obtain ⟨b, rfl⟩ := exists_obj_of_ofJson hf
  obtain ⟨ha, rfl⟩ := accepted_of_ofJson hp
  obtain ⟨hb, rfl⟩ := accepted_of_ofJson hf
  have hkb := keyed_readDocument hd
  obtain ⟨hacc, hnodup, hg⟩ :=
    gathered_layers ha hb (keyed_projectSettings hs) hkb hsd hsx hdx
  have hnames := namesVersion_eq hacc
  have hversion : (read (mergeFields (mergeFields a b) x.layer)).packageVersion =
      prevailingVersion x (gives b) (read b) (read a) := by
    rw [hg.packageVersion, Option.none_or, ite_self]
  rw [hversion] at hnames
  rw [load_eq x hs hd, hnames]
  by_cases hn : namesOne (prevailingVersion x (gives b) (read b) (read a)) = true
  · rw [if_pos hn, hacc.ofJson_eq]
    refine ⟨_, rfl, ?_, hg.externalize, hg.helpersModule, hg.helpersGlobal, hg.strict⟩
    exact hversion.trans (if_pos hn).symm
  obtain ⟨hm, hv⟩ := hm.resolve_left hn
  rw [if_neg hn, hm]
  change ∃ o, ofJson (withVersion _ manifest) = .ok o ∧ _
  cases manifest with
  | none =>
    exact ⟨_, hacc.ofJson_eq (), hg⟩
  | some v =>
    have hsnake : Table.has (mergeFields (mergeFields a b) x.layer) "package_version" = false := by
      obtain ⟨hva, hvb⟩ := hv.resolve_left nofun
      have hvx : Table.has x.layer "package_version" = false := by rw [Table.has, x.get?_layer]; rfl
      rw [has_mergeFields ((Tree.keyed_obj () _).mp x.keyed_layer).1,
        has_mergeFields ((Tree.keyed_obj () _).mp hkb).1, hvx, Bool.false_or]
      exact Bool.or_eq_false_iff.mpr ⟨hvb, hva⟩
    have hc := compatible_version hsnake v
    have haV := Arguments.accepted_layer { packageVersion := some v }
    have hkV := Arguments.keyed_layer { packageVersion := some v }
    rw [withVersion_eq]
    refine ⟨_, (hacc.merge haV hkV hnodup hc).ofJson_eq (), ?_⟩
    obtain ⟨hv, he, hmod, hglob, hstr⟩ := Arguments.over_layer _ (over_mergeFields hacc haV hkV hnodup hc)
    exact ⟨hv.trans (if_neg hn).symm, he.trans hg.externalize, hmod.trans hg.helpersModule,
      hglob.trans hg.helpersGlobal, hstr.trans hg.strict⟩

/-- A project with settings of its own, an options file that uses the shorthand, and a
manifest. -/
def sampleProject : Store where
  files := [
    (["pyproject.toml"],
      "[tool.debug_macros]\nstrictMode = true\nhelpers = \x7b module = \"base\", global = \"Tools\" \x7d\n"),
    (["options.json"], "\x7b\"externalizeHelpers\": \x7b\"module\": \"extra\"\x7d, \"strictMode\": false\x7d"),
    (["package.json"], "\x7b\"version\": \"3.1.0\"\x7d")]

theorem load_gathers_sampleProject :
    ∃ o, load sampleProject {} (some ⟨"", ["options.json"]⟩)
        (Arguments.overrides { helpersGlobal := some "Own" }) = .ok o ∧
      o.packageVersion = some "3.1.0" ∧ o.externalize = true ∧ o.strict = false ∧
      o.helpers = ⟨.redirect "extra", some "Own"⟩ := by
  have hs : projectSettings sampleProject {} = .ok (.obj () [("strictMode", .bool true),
      ("helpers", .obj () [("module", .str "base"), ("global", .str "Tools")])]) := by rfl
  have hd : readDocument sampleProject ⟨"", ["options.json"]⟩ = .ok (.obj ()
      [("externalizeHelpers", .obj () [("module", .str "extra")]), ("strictMode", .bool false)]) := by rfl
  have hm : manifestVersion sampleProject {} = .ok (some "3.1.0") := by rfl
  obtain ⟨o, ho, hg⟩ := load_gathers hs hd (x := { helpersGlobal := some "Own" })
    (by decide +kernel : _ = Except.ok { strict := true, helpers := ⟨.redirect "base", some "Tools"⟩ })
    (by decide +kernel : _ = Except.ok { externalize := true, helpers := ⟨.redirect "extra", none⟩ })
    ⟨by decide, by decide, by decide, by decide, by decide⟩ ⟨by decide, by decide, by decide, by decide, by decide⟩
    ⟨by decide, by decide, by decide, by decide, by decide⟩ (.inr ⟨hm, .inr (by decide)⟩)
  exact ⟨o, ho, hg.packageVersion, hg.externalize, hg.strict,
    congrArg₂ Helpers.mk hg.helpersModule hg.helpersGlobal⟩

/-- An options file whose shorthand names a module. -/
def shorthandFile : Store where
  files := [(["opts.json"], "\x7b\"externalizeHelpers\": \x7b\"module\": \"y\"\x7d\x7d")]

/-- An options file with the other spelling of an option. -/
def otherSpelling : Store where
  files := [(["opts.json"], "\x7b\"strict_mode\": true\x7d")]

/-- The shorthand of the file goes over an explicit module, and an option that is given under
its other name makes the options unreadable. -/
theorem load_argument_lost :
    load shorthandFile {} (some ⟨"", ["opts.json"]⟩) (Arguments.overrides { helpersModule := some "x" }) =
        .ok { externalize := true, helpers := ⟨.redirect "y", none⟩ } ∧
      load otherSpelling {} (some ⟨"", ["opts.json"]⟩) (Arguments.overrides { strict := some false }) =
        .error (.invalidOptions [⟨[.key "strict_mode"], .unknownOption⟩]) := by
  decide +kernel

end Gathering

end DebugGuards.Options
