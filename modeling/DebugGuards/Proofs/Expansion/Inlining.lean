import DebugGuards.Proofs.Expansion.Result

/-! The imports of a module after its expansion. Every import from a flags module has
become the constants it names, in its place, and every other import that does not bring
tools is as it was. -/

namespace DebugGuards.Expansion

open DebugGuards.Tree Node List

variable {o : Options} {t : Tree Mark} {fresh m : Mark} {fields : Fields Mark} {body : Mark}
  {items : List (Tree Mark)} {guard : String} {x : Tree Mark}

/-- What stands in the place of a statement after an expansion. In the place of an import
of flags there are constants, one for each name, with the values that its table has for
them; what imports tools has been seen to or left alone; any other import is the same, and
a statement that imports nothing has been rewritten. -/
inductive Becomes (o : Options) (t : Tree Mark) (guard : String) (x : Tree Mark) : List Json → Prop
  | constants (flags : Table String Int) (vs : List Json) (source : flagsFor? o x = some flags)
      (each : List.Forall₂ (fun s v => ∃ i, Table.get? flags s.1 = some i ∧
        v = constant (.str s.2) ((Workspace.dialectOf t).literal (.int i))) (named x) vs) : Becomes o t guard x vs
  | tools (vs : List Json) (imports : isImport x = true) (source : sourceOf x = o.toolsSource)
      (eq : vs = [x.erase] ∨ vs = cleanedBlock o t x) : Becomes o t guard x vs
  | same (imports : isImport x = true) (flags : flagsFor? o x = none) (source : sourceOf x ≠ o.toolsSource) :
      Becomes o t guard x [x.erase]
  | rewritten (imports : isImport x = false) : Becomes o t guard x [(rewritingOf o t guard).rewrite x]

section Blocks

theorem get?_of_missing? {flags : Table String Int} (hm : missing? flags x = none) {s : String × String}
    (hs : s ∈ named x) : ∃ i, Table.get? flags s.1 = some i := by
  rw [missing?, Option.map_eq_none_iff, List.find?_eq_none] at hm
  have hhas : Table.has flags s.1 = true := by simpa using hm s hs
  exact Option.isSome_iff_exists.mp hhas

/-- An import that lacks no flag becomes its constants. -/
theorem constantsOf_spec {flags : Table String Int} (hm : missing? flags x = none) (d : Dialect) :
    List.Forall₂ (fun s v => ∃ i, Table.get? flags s.1 = some i ∧ v = constant (.str s.2) (d.literal (.int i)))
      (named x) (constantsOf d flags x) := by
  rw [constantsOf, forall₂_map_right_iff]
  refine forall₂_same.mpr fun s hs => ?_
  obtain ⟨i, hi⟩ := get?_of_missing? hm hs
  exact ⟨i, hi, by rw [hi, Option.getD_some]⟩

theorem becomes_inlinedBlock (ho : Opening t m fields body items) (hs : Succeeds o t) (hx : x ∈ remainingOf o t)
    (guard : String) : Becomes o t guard x (inlinedBlock o t guard x) := by
  rw [inlinedBlock]
  cases hf : flagsFor? o x with
  | some flags =>
    have hmissing : missing? flags x = none := by
      have hlack := hs.imports x hx
      rwa [lacking?, hf, Option.bind_some, Option.map_eq_none_iff] at hlack
    exact .constants flags _ hf (constantsOf_spec hmissing _)
  | none =>
    dsimp only
    cases hi : isImport x with
    | false => exact .rewritten hi
    | true =>
      rw [ho.rewrite_import _ hx hi]
      by_cases hsrc : sourceOf x = o.toolsSource
      · exact .tools _ hi hsrc (.inl rfl)
      · exact .same hi hf hsrc

end Blocks

section Redirected

theorem exists_fields (hi : isImport x = true) :
    ∃ k fs, x = obj k fs ∧ Table.get? fs "type" = some (.str "ImportDeclaration") := by
  obtain ⟨k, fs, _, rfl, _⟩ := exists_of_isNode (isNode_of_hasKind hi)
  exact ⟨k, fs, rfl, kind?_obj.mp (hasKind_iff.mp hi)⟩

theorem isImport_redirectedTo (d : Dialect) (module : String) (hi : isImport x = true) :
    isImport (Standing.redirectedTo d module x) = true := by
  obtain ⟨k, fs, rfl, hk⟩ := exists_fields hi
  rw [isImport, hasKind_iff, Standing.redirectedTo, kind?_obj, Table.get?_set, if_neg (by decide), Table.get?_mapValues,
    Tree.fields, hk]
  rfl

theorem sourceOf_redirectedTo (d : Dialect) (module : String) (x : Tree Mark) :
    sourceOf (Standing.redirectedTo d module x) = module := by
  rw [sourceOf, Standing.redirectedTo, field?, Tree.fields, Table.get?_set, if_pos rfl]
  cases d <;> rfl

/-- The source of a statement says nothing about the names it declares. -/
theorem names_redirectedTo (d : Dialect) (module : String) {k : Mark} (fs : Fields Mark) :
    names (Standing.redirectedTo d module (obj k fs)) = names (obj k fs).erase := by
  have hfield : ∀ key, key ≠ "source" →
      Table.get? (Table.set (Table.mapValues erase fs) "source" (d.literal (.str module))) key =
        Table.get? (Table.mapValues erase fs) key := fun key hkey => by rw [Table.get?_set, if_neg (Ne.symm hkey)]
  rw [Standing.redirectedTo, erase_obj, names, names]
  simp only [kind?, kind, listAt, ownName, boundIn, field?, Tree.fields, hfield _ (by decide : "type" ≠ "source"),
    hfield _ (by decide : "specifiers" ≠ "source"), hfield _ (by decide : "declarations" ≠ "source"),
    hfield _ (by decide : "id" ≠ "source")]

end Redirected

section Left

theorem Becomes.flags_eq_none {vs : List Json} (ho : Opening t m fields body items) (hm : IsModule t fresh)
    (hb : Becomes o t guard x vs) (hx : x ∈ remainingOf o t) (htools : flagsOf? o o.toolsSource = none)
    (hmodule : ∀ module, o.helpersModule = .redirect module → flagsOf? o module = none) {v : Json} (hv : v ∈ vs) :
    flagsFor? o v = none := by
  have hsame : sourceOf x.erase = sourceOf x ∨ isImport x = false := by
    cases hi : isImport x with
    | false => exact .inr rfl
    | true => exact .inl ((alike_map _ x).1.sourceOf_eq (ho.legal (mem_items_of_remainingOf ho hx)) hi)
  cases hb with
  | constants flags vs _ each =>
    obtain ⟨s, _, i, _, rfl⟩ := forall₂_exists_left each hv
    rfl
  | rewritten hi =>
    rw [mem_singleton.mp hv, flagsFor?, (ho.alike_rewrite hm hx guard).isImport_eq, hi]
    rfl
  | same hi hf hsrc =>
    rw [mem_singleton.mp hv, flagsFor?, show isImport x.erase = isImport x from (alike_map _ x).1.isImport_eq,
      hsame.resolve_right (by rw [hi]; decide)]
    exact hf
  | tools vs hi hsrc eq =>
    have herase : flagsFor? o x.erase = none := by
      rw [flagsFor?, hsame.resolve_right (by rw [hi]; decide), hsrc, htools, ite_self]
    rcases eq with rfl | rfl
    · rw [mem_singleton.mp hv]
      exact herase
    · rw [cleanedBlock] at hv
      split at hv
      · next module hmod =>
        split at hv
        · cases hv
        · rw [mem_singleton.mp hv, flagsFor?, sourceOf_redirectedTo, hmodule _ hmod, ite_self]
      · rw [mem_singleton.mp hv]
        exact herase
      · cases hv
      · cases hv

end Left

section

variable {summary : Summary} {ps : List Path} {p : Patch} {w : Workspace}
  (hc : Completed o t fresh m fields body items summary ps guard p w) (ho : Opening t m fields body items)
include hc ho

/-- The module after an expansion: rewritten, with the constants of the flags in place, and
what imports tools seen to if something does. -/
theorem Completed.exists_body :
    ∃ ys, (expand o t fresh).tree.erase = rewrittenWith o t guard ys ∧
      (toolsOf o (bodyOf t) = [] ∧
          ys = guardConstants o t guard ++ (remainingOf o t).flatMap (inlinedBlock o t guard) ∨
        ∃ before x after, remainingOf o t = before ++ x :: after ∧ isImport x = true ∧ sourceOf x = o.toolsSource ∧
          ys = guardConstants o t guard ++ (before.flatMap (inlinedBlock o t guard) ++ (cleanedBlock o t x ++
            after.flatMap (inlinedBlock o t guard)))) := by
  rw [hc.tree]
  rcases hc.ends with ⟨htools, _, h, rs, hs⟩ | ⟨before, x, after, hsplit, hi, hsrc, _, hcleans⟩
  · refine ⟨_, erase_of_rewritten ho ⟨p, h, rs, hs, hc.complete⟩, .inl ⟨htools, ?_⟩⟩
    rw [imagesOf_inlinedEntries]
  · refine ⟨_, hcleans.erase, .inr ⟨before, x, after, hsplit, hi, hsrc, ?_⟩⟩
    rw [imagesOf_append, imagesOf_guardEntries, imagesOf_flatMap imagesOf_inlined, imagesOf_flatMap imagesOf_inlined]
    simp only [append_assoc]

/-- The body of the module after an expansion: the guard if one is made, and then what
stands in the places of the statements. -/
theorem Completed.exists_blocks :
    ∃ blocks, List.Forall₂ (Becomes o t guard) (remainingOf o t) blocks ∧
      bodyOf (expand o t fresh).tree.erase = guardConstants o t guard ++ blocks.flatten := by
  have hblocks : ∀ xs : List (Tree Mark), xs ⊆ remainingOf o t →
      List.Forall₂ (Becomes o t guard) xs (xs.map (inlinedBlock o t guard)) := by
    intro xs hxs
    rw [forall₂_map_right_iff]
    exact forall₂_same.mpr fun x hx => becomes_inlinedBlock ho hc.succeeds (hxs hx) guard
  obtain ⟨ys, herase, ⟨_, rfl⟩ | ⟨before, x, after, hsplit, hi, hsrc, rfl⟩⟩ := hc.exists_body ho
  · refine ⟨(remainingOf o t).map (inlinedBlock o t guard), hblocks _ (List.Subset.refl _), ?_⟩
    rw [herase, bodyOf_rewrittenWith ho]
    rfl
  · refine ⟨before.map (inlinedBlock o t guard) ++ cleanedBlock o t x :: after.map (inlinedBlock o t guard), ?_, ?_⟩
    · rw [hsplit] at hblocks ⊢
      refine rel_append (hblocks _ (subset_append_left ..)) (.cons (.tools _ hi hsrc (.inr rfl)) ?_)
      exact hblocks _ fun y hy => mem_append_right _ (mem_cons_of_mem _ hy)
    · rw [herase, bodyOf_rewrittenWith ho, flatten_append, flatten_cons]
      rfl

end

/-- Flags are inlined throughout the module, and nothing else becomes of imports. -/
theorem expand_inlines (hm : IsModule t fresh) (hd : Distinct t) (htools : flagsOf? o o.toolsSource = none)
    (hmodule : ∀ module, o.helpersModule = .redirect module → flagsOf? o module = none) {summary : Summary}
    (hok : (expand o t fresh).result = .ok summary) :
    ∃ g blocks, (∀ g', summary.guard = some g' → g' = g) ∧ List.Forall₂ (Becomes o t g) (remainingOf o t) blocks ∧
      bodyOf (expand o t fresh).tree.erase = guardConstants o t g ++ blocks.flatten ∧
      (∀ y ∈ bodyOf (expand o t fresh).tree.erase, isImport y = true → flagsOf? o (sourceOf y) = none) ∧
      summary.inlined = ((remainingOf o t).map (inlinedCount o)).sum := by
  obtain ⟨m, fields, body, items, ho⟩ := hm.opens
  obtain ⟨ps, g, p, w, hc⟩ := exists_completed ho hm hd htools hok
  obtain ⟨blocks, hblocks, hbody⟩ := hc.exists_blocks ho
  refine ⟨g, blocks, fun g' => hc.guard_eq, hblocks, hbody, fun y hy hi => ?_, ?_⟩
  · rw [hbody, mem_append, mem_flatten] at hy
    have hnone : flagsFor? o y = none := by
      rcases hy with hy | ⟨vs, hvs, hy⟩
      · rw [guardConstants] at hy
        split at hy
        · rw [mem_singleton.mp hy]
          rfl
        · cases hy
      · obtain ⟨x, hx, hb⟩ := forall₂_exists_left hblocks hvs
        exact hb.flags_eq_none ho hm hx htools hmodule hy
    rwa [flagsFor?, if_pos hi] at hnone
  · obtain ⟨removed, hreports⟩ := hc.reports
    rw [hreports]

/-- Two flags, one of them the guard, around a warning. -/
def flagsModule : Tree Mark × Mark :=
  marked (moduleOf [importing [("DEBUG", "DEBUG"), ("DEBUG", "d")] "@ember/env-flags",
    importing [("warn", "w")] "@ember/debug-tools", calling "w" [literal (.str "m")],
    importing [("x", "x")] "elsewhere"])

/-- Options that send the helpers import elsewhere. -/
def redirecting : Options := { Options.usual with externalize := true, helpers := { module := .redirect "my-helpers" } }

theorem expand_inlines_flags :
    ∃ g blocks, (∀ g', some "DEBUG" = some g' → g' = g) ∧
      List.Forall₂ (Becomes redirecting flagsModule.1 g) (remainingOf redirecting flagsModule.1) blocks ∧
      bodyOf (expand redirecting flagsModule.1 flagsModule.2).tree.erase =
        guardConstants redirecting flagsModule.1 g ++ blocks.flatten ∧
      (∀ y ∈ bodyOf (expand redirecting flagsModule.1 flagsModule.2).tree.erase, isImport y = true →
        flagsOf? redirecting (sourceOf y) = none) ∧
      2 = ((remainingOf redirecting flagsModule.1).map (inlinedCount redirecting)).sum := by
  have hok : (expand redirecting flagsModule.1 flagsModule.2).result =
      .ok { guard := some "DEBUG", expanded := 1, inlined := 2, helpersImport := some .redirected } := by decide +kernel
  have hmodule : ∀ module, redirecting.helpersModule = .redirect module → flagsOf? redirecting module = none := by
    rintro _ ⟨⟩
    decide +kernel
  exact expand_inlines (by decide +kernel) (by decide +kernel) (by decide +kernel) hmodule hok

/-- A specifier that imports the empty name gives no constant, though the table has a
value for it. -/
def emptyFlagModule : Tree Mark × Mark :=
  marked (moduleOf [make "ImportDeclaration"
    [("specifiers", listOf
      [make "ImportSpecifier" [("imported", literal (.str "")), ("local", identifier (.str "x"))]]),
      ("source", literal (.str "@ember/env-flags"))]])

/-- Options with a flag that has no name. -/
def unnamedFlag : Options := { envFlags := { flags := [("", 7)] } }

theorem expand_inlines_not_emptyName :
    IsModule emptyFlagModule.1 emptyFlagModule.2 ∧ Distinct emptyFlagModule.1 ∧
      (∃ x ∈ bodyOf emptyFlagModule.1, sourceOf x = unnamedFlag.envFlags.source ∧ names x = ["x"] ∧
        (listAt x "specifiers").map importedOf = [""]) ∧
      Table.get? unnamedFlag.envFlags.flags "" = some 7 ∧
      (expand unnamedFlag emptyFlagModule.1 emptyFlagModule.2).result = .ok {} ∧
      bodyOf (expand unnamedFlag emptyFlagModule.1 emptyFlagModule.2).tree = [] := by
  decide +kernel

end DebugGuards.Expansion
