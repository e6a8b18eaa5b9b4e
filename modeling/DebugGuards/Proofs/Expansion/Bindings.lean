import DebugGuards.Proofs.Expansion.Refinement

/-! The names that flag imports bind, after an expansion. A name bound by a named specifier
is declared by a constant with the value of its flag. The constants are made for named
specifiers only, and they take the place of the whole import; so a name bound in any other
way is declared nowhere once the import is gone. -/

namespace DebugGuards.Expansion

open DebugGuards.Tree Node List

variable {o : Options} {t : Tree Mark} {fresh m : Mark} {fields : Fields Mark} {body : Mark}
  {items : List (Tree Mark)} {guard n : String} {x : Tree Mark} {flags : Table String Int}

section Tidied

variable {known : String → Prop} {ys zs : List Json}

/-- A statement that declares no tool outlives the cleaning. -/
theorem Tidied.mem {y : Json} (ht : Tidied known ys zs) (hy : y ∈ ys) (hn : ∀ n ∈ names y, ¬ known n) : y ∈ zs := by
  cases ht with
  | same => exact hy
  | one pre y' post zs n hk hny hzs =>
    rcases mem_append.mp hy with hpre | hy
    · exact mem_append_left _ (mem_append_left _ hpre)
    rcases mem_cons.mp hy with rfl | hpost
    · exact absurd hk (hn n hny)
    · exact mem_append_right _ hpost

/-- The cleaning declares nothing new. -/
theorem Tidied.exists_names_eq {z : Json} (ht : Tidied known ys zs) (hz : z ∈ zs) : ∃ y ∈ ys, names y = names z := by
  cases ht with
  | same => exact ⟨z, hz, rfl⟩
  | one pre y' post zs n hk hny hzs =>
    rcases mem_append.mp hz with hz | hpost
    · rcases mem_append.mp hz with hpre | hz
      · exact ⟨z, mem_append_left _ hpre, rfl⟩
      · exact ⟨y', mem_append_right _ (mem_cons_self ..), (hzs z hz).symm⟩
    · exact ⟨z, mem_append_right _ (mem_cons_of_mem _ hpost), rfl⟩

end Tidied

section Blocks

/-- What stands in the place of a statement declares names of the statement, and in the place
of an import of flags those of its named specifiers. -/
theorem names_inlinedBlock (ho : Opening t m fields body items) (hm : IsModule t fresh) (hx : x ∈ remainingOf o t)
    {y : Json} (hy : y ∈ inlinedBlock o t guard x) (hn : n ∈ names y) :
    n ∈ names x ∧ (∀ flags, flagsFor? o x = some flags → n ∈ (named x).map Prod.snd) := by
  have hitem := mem_items_of_remainingOf ho hx
  rw [inlinedBlock] at hy
  cases hf : flagsFor? o x with
  | some flags =>
    rw [hf] at hy
    obtain ⟨s, hs, rfl⟩ := mem_map.mp hy
    have hnamed : n ∈ (named x).map Prod.snd := mem_map.mpr ⟨s, hs, (mem_singleton.mp hn).symm⟩
    exact ⟨(named_sublist (isImport_of_flagsFor? hf)).subset hnamed, fun _ _ => hnamed⟩
  | none =>
    rw [hf, mem_singleton] at hy
    rw [hy, (ho.alike_rewrite hm hx guard).names_eq (ho.statements x hitem) (ho.legal hitem)] at hn
    exact ⟨hn, fun _ h => by cases h⟩

end Blocks

theorem exists_tidied (ho : Opening t m fields body items) (hm : IsModule t fresh) {summary : Summary}
    (hok : (expand o t fresh).result = .ok summary) :
    ∃ g, Succeeds o t ∧ IsGuard o t g ∧
      Tidied (fun n => ∃ q ∈ toolsOf o (bodyOf t), q.2 = n)
        (guardConstants o t g ++ (remainingOf o t).flatMap (inlinedBlock o t g))
        (bodyOf (expand o t fresh).tree.erase) := by
  obtain ⟨ps, g, p, h, rs, s, s', fate, hc, rfl⟩ := exists_concluded ho hm hok
  obtain ⟨ys, herase, htidied⟩ := hc.tidied
  rw [imagesOf_inlinedEntries] at htidied
  refine ⟨g, hc.succeeds, hc.isGuard, ?_⟩
  rwa [herase, bodyOf_rewrittenWith ho]

/-- Every flag that an import names is declared by a constant of its value, unless a tool
has the same name; and a name that the import binds in another way is declared no more. -/
theorem expand_binds_named_flags (hm : IsModule t fresh) {summary : Summary}
    (hok : (expand o t fresh).result = .ok summary) (hx : x ∈ bodyOf t) (hf : flagsFor? o x = some flags) :
    (∀ s ∈ named x, (∀ q ∈ toolsOf o (bodyOf t), q.2 ≠ s.2) → ∃ i, Table.get? flags s.1 = some i ∧
      constant (.str s.2) ((Workspace.dialectOf t).literal (.int i)) ∈ bodyOf (expand o t fresh).tree.erase) ∧
    (Distinct t → ∀ n ∈ names x, n ∉ (named x).map Prod.snd →
      ∀ y ∈ bodyOf (expand o t fresh).tree.erase, n ∉ names y) := by
  obtain ⟨m, fields, body, items, ho⟩ := hm.opens
  obtain ⟨g, hsucc, hguard, htidied⟩ := exists_tidied ho hm hok
  have hi := isImport_of_flagsFor? hf
  have hrem : x ∈ remainingOf o t := mem_remainingOf_of_isImport hx hi
  refine ⟨fun s hs htools => ?_, fun hd n hn hother y hy hny => ?_⟩
  · have hmissing : missing? flags x = none := by
      have hlack := hsucc.imports x hrem
      rwa [lacking?, hf, Option.bind_some, Option.map_eq_none_iff] at hlack
    obtain ⟨v, hv, i, hget, rfl⟩ := forall₂_exists_right (constantsOf_spec hmissing (Workspace.dialectOf t)) hs
    refine ⟨i, hget, htidied.mem (mem_append_right _ (mem_flatMap.mpr ⟨x, hrem, ?_⟩)) ?_⟩
    · rwa [inlinedBlock, hf]
    · intro n hn
      rintro ⟨q, hq, rfl⟩
      exact htools q hq (mem_singleton.mp hn)
  · obtain ⟨z, hz, hzy⟩ := htidied.exists_names_eq hy
    rw [← hzy] at hny
    rcases mem_append.mp hz with hz | hz
    · rw [guardConstants] at hz
      split at hz
      · next hmake =>
        rw [mem_singleton.mp hz] at hny
        obtain rfl : n = g := mem_singleton.mp hny
        exact hguard.made hmake x hx hn
      · cases hz
    · obtain ⟨x', hx', hz⟩ := mem_flatMap.mp hz
      obtain ⟨hnames, hnamed⟩ := names_inlinedBlock ho hm hx' hz hny
      obtain rfl : x' = x := eq_of_names hd (mem_filter.mp hx').1 hx hnames hn
      exact hother (hnamed flags hf)

/-- A flag under two names, next to a default import. -/
def mixedFlagModule : Tree Mark × Mark :=
  marked (moduleOf [make "ImportDeclaration"
    [("specifiers", listOf [make "ImportDefaultSpecifier" [("local", identifier (.str "table"))],
      make "ImportSpecifier" [("imported", identifier (.str "DEBUG")), ("local", identifier (.str "d"))],
      make "ImportSpecifier" [("imported", literal (.str "DEBUG")), ("local", identifier (.str "e"))]]),
      ("source", literal (.str "@ember/env-flags"))],
    importing [("warn", "warn")] "@ember/debug-tools", calling "warn" [identifier (.str "d")]])

theorem expand_binds_named_flags_mixed :
    ∃ x ∈ bodyOf mixedFlagModule.1, flagsFor? .usual x = some [("DEBUG", 1)] ∧
      named x = [("DEBUG", "d"), ("DEBUG", "e")] ∧ names x = ["table", "d", "e"] ∧
      (∀ s ∈ named x, (∀ q ∈ toolsOf .usual (bodyOf mixedFlagModule.1), q.2 ≠ s.2) →
        ∃ i, Table.get? [("DEBUG", 1)] s.1 = some i ∧
          constant (.str s.2) ((Workspace.dialectOf mixedFlagModule.1).literal (.int i)) ∈
            bodyOf (expand .usual mixedFlagModule.1 mixedFlagModule.2).tree.erase) ∧
      (Distinct mixedFlagModule.1 → ∀ n ∈ names x, n ∉ (named x).map Prod.snd →
        ∀ y ∈ bodyOf (expand .usual mixedFlagModule.1 mixedFlagModule.2).tree.erase, n ∉ names y) := by
  have hok : (expand .usual mixedFlagModule.1 mixedFlagModule.2).result =
      .ok
        { guard := some "_DEBUG", synthesized := true, expanded := 1, inlined := 2,
          helpersImport := some .removed } := by
    decide +kernel
  have hfound : ∃ x ∈ bodyOf mixedFlagModule.1, flagsFor? .usual x = some [("DEBUG", 1)] ∧
      named x = [("DEBUG", "d"), ("DEBUG", "e")] ∧ names x = ["table", "d", "e"] := by decide +kernel
  obtain ⟨x, hx, hf, hnamed, hnames⟩ := hfound
  exact ⟨x, hx, hf, hnamed, hnames, expand_binds_named_flags (by decide +kernel) hok hx hf⟩

/-- A default import from the flags module, and a use of its name. -/
def lostFlagModule : Tree Mark × Mark :=
  marked (moduleOf [make "ImportDeclaration"
    [("specifiers", listOf [make "ImportDefaultSpecifier" [("local", identifier (.str "d"))]]),
      ("source", literal (.str "@ember/env-flags"))], calling "check" [identifier (.str "d")]])

/-- Options with a flag for the default import. -/
def defaultFlag : Options := { envFlags := { flags := [("default", 3)] } }

/-- The name of a default import is lost, though the table has a value for it. -/
theorem expand_loses_default :
    IsModule lostFlagModule.1 lostFlagModule.2 ∧ Distinct lostFlagModule.1 ∧
      (∃ x ∈ bodyOf lostFlagModule.1, flagsFor? defaultFlag x = some [("default", 3)] ∧ names x = ["d"]) ∧
      (expand defaultFlag lostFlagModule.1 lostFlagModule.2).result = .ok {} ∧
      (bodyOf (expand defaultFlag lostFlagModule.1 lostFlagModule.2).tree.erase) =
        [calling "check" [identifier (.str "d")]] := by
  decide +kernel

end DebugGuards.Expansion
