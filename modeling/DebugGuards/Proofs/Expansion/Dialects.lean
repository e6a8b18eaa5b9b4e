import DebugGuards.Proofs.Expansion.Kinds

/-! The dialect of literals. It is read off the first literal of the document, and what an
expansion builds is written in it. A literal is built only for a module with an import,
and an import names its module by a literal; so the first literal is there when it counts,
and a document that was written in one dialect stays so, whether the expansion succeeds or
fails. -/

namespace DebugGuards.Expansion

open DebugGuards.Tree Node List

variable {deep : Bool} {good : String → Prop} {o : Options} {t : Tree Mark} {fresh m : Mark}
  {fields : Fields Mark} {body : Mark} {items : List (Tree Mark)} {guard : String} {x : Tree Mark}

section Documents

section

variable (ho : Opening t m fields body items)
include ho

/-- The program of a document brings types of the document. -/
theorem kinds_program : "Program" :: kindsFields deep fields ⊆ kinds deep t := by
  rw [← kinds_node (hasKind_iff.mp ho.kind)]
  cases ho.wraps with
  | program _ heq => exact heq ▸ List.Subset.refl _
  | file i fs heq hfile _ hget =>
    subst heq
    have hmeta : isMetadata "program" = false := by decide
    intro k hk
    rw [kinds_node (hasKind_iff.mp hfile)]
    exact mem_cons_of_mem _ (mem_kindsFields.mpr ⟨_, Table.mem_of_get? hget, hmeta, hk⟩)

theorem kinds_item (hx : x ∈ items) : kinds deep x ⊆ kinds deep t := by
  intro k hk
  have hmeta : isMetadata "body" = false := by decide
  refine kinds_program ho (mem_cons_of_mem _ (mem_kindsFields.mpr ⟨_, Table.mem_of_get? ho.body, hmeta, ?_⟩))
  rw [kindsIn, kindsItems_eq]
  exact mem_flatMap.mpr ⟨x, hx, hk⟩

theorem forall_kinds_program (ht : ∀ k ∈ kinds deep t, good k)
    {drops : Tree Mark → Bool} {finish : Tree Mark → List (String × Json) → Json}
    (hscalar : ∀ s, drops (.scalar s) = false)
    (hslots : ∀ e ∈ fields, isMetadata e.1 = false → (∀ k ∈ kindsIn deep e.2, good k) →
      ∀ k ∈ kindsIn deep (reshapeInside drops finish e.2), good k) :
    ∀ k ∈ kinds deep (.obj () (reshapeFields drops finish fields)), good k := by
  have htype : Table.get? (reshapeFields drops finish fields) "type" = some (.str "Program") :=
    get?_type hscalar (kind?_obj.mp (hasKind_iff.mp ho.kind))
  have hprogram := forall_mem_cons.mp fun k hk => ht k (kinds_program ho hk)
  rw [kinds_node (kind?_obj.mpr htype), forall_mem_cons]
  exact ⟨hprogram.1, forall_kinds_fields hslots hprogram.2⟩

theorem forall_kinds_withProgram (ht : ∀ k ∈ kinds deep t, good k)
    {fs : List (String × Json)} (hp : ∀ k ∈ kinds deep (.obj () fs), good k) :
    ∀ k ∈ kinds deep (withProgram t (.obj () fs)), good k := by
  cases ho.wraps with
  | program hfile heq =>
    rw [withProgram, hfile]
    exact hp
  | file i es heq hfile _ _ =>
    subst heq
    rw [withProgram, if_pos hfile]
    refine forall_kinds_set (by decide) ?_ hp
    rw [← kinds_erase, erase, map_obj] at ht
    exact ht

end

end Documents

section Imports

theorem exists_import (hh : helpersOf o (bodyOf t) ≠ []) : ∃ x ∈ bodyOf t, isImport x = true := by
  obtain ⟨e, he⟩ := exists_mem_of_ne_nil _ hh
  obtain ⟨s, hs, _⟩ := mem_helpersOf he
  obtain ⟨x, hx, hi, _⟩ := mem_toolsOf hs
  exact ⟨x, hx, hi⟩

theorem exists_import_of_makesGuard (hmake : makesGuard o t = true) : ∃ x ∈ bodyOf t, isImport x = true := by
  rw [makesGuard, Bool.and_eq_true, Bool.not_eq_true', isEmpty_eq_false_iff] at hmake
  obtain ⟨x, hx⟩ := exists_mem_of_ne_nil _ hmake.2
  obtain ⟨_, hguards⟩ := mem_filter.mp hx
  cases hv : verdictOf o t x with
  | error f => rw [hv] at hguards; cases hguards
  | ok v =>
    rw [hv] at hguards
    exact exists_import (helpers_ne_nil hv hguards)

end Imports

/-- Types that an expansion of a document may use: those it builds, and those of literals
in the dialect of the document if there is an import. -/
structure Allows (good : String → Prop) (t : Tree Mark) : Prop where
  built : ∀ k ∈ builtKinds, good k
  literals : (∃ x ∈ bodyOf t, isImport x = true) → ∀ k ∈ (Workspace.dialectOf t).built, good k

namespace Allows

theorem guardConstants (ha : Allows good t) : ∀ y ∈ guardConstants o t guard, ∀ k ∈ kinds deep y, good k := by
  rw [Expansion.guardConstants]
  split
  · next hmake =>
    exact forall_mem_singleton.mpr
      (forall_kinds_constant ha.built (ha.literals (exists_import_of_makesGuard hmake)) _ _)
  · exact forall_mem_nil _

/-- What is left of the helpers import. -/
theorem cleanedBlock (ha : Allows good t) (hi : ∃ x ∈ bodyOf t, isImport x = true) {k : Mark}
    {fs : Fields Mark} (hx : ∀ j ∈ kinds deep (.obj k fs), good j) :
    ∀ y ∈ cleanedBlock o t (.obj k fs), ∀ j ∈ kinds deep y, good j := by
  rw [← kinds_erase] at hx
  rw [Expansion.cleanedBlock]
  split
  · split
    · exact forall_mem_nil _
    · rw [erase, map_obj] at hx
      refine forall_mem_singleton.mpr (forall_kinds_set (by decide) hx ?_)
      exact forall_kinds_literal (ha.literals hi) (.inl ⟨_, rfl⟩)
  · exact forall_mem_singleton.mpr hx
  · exact forall_mem_nil _
  · exact forall_mem_nil _

theorem constantsOf (ha : Allows good t) (hi : ∃ x ∈ bodyOf t, isImport x = true) (flags : Table String Int)
    (x : Tree Mark) : ∀ y ∈ constantsOf (Workspace.dialectOf t) flags x, ∀ k ∈ kinds deep y, good k := by
  intro y hy
  obtain ⟨s, _, rfl⟩ := mem_map.mp hy
  exact forall_kinds_constant ha.built (ha.literals hi) _ _

variable (ha : Allows good t) (ho : Opening t m fields body items) (ht : ∀ k ∈ kinds deep t, good k)

include ha ho ht

theorem rewrite (hx : x ∈ items) : ∀ k ∈ kinds deep ((rewritingOf o t guard).rewrite x), good k := by
  refine ((rewritingOf o t guard).forall_kinds ha.built (fun hh => ha.literals (exists_import hh)) x).1
    (fun _ => ho.legal hx) fun k hk => ht k (kinds_item ho hx hk)

theorem inlinedBlock (hx : x ∈ remainingOf o t) : ∀ y ∈ inlinedBlock o t guard x, ∀ k ∈ kinds deep y, good k := by
  rw [Expansion.inlinedBlock]
  split
  · next flags hf => exact ha.constantsOf ⟨x, (mem_filter.mp hx).1, isImport_of_flagsFor? hf⟩ flags x
  · exact forall_mem_singleton.mpr (ha.rewrite ho ht (mem_items_of_remainingOf ho hx))

theorem earlyBlock (hx : x ∈ remainingOf o t) :
    ∀ y ∈ earlyBlock o t guard x, ∀ k ∈ kinds deep y, good k := by
  rw [Expansion.earlyBlock]
  split
  · next heq =>
    obtain ⟨y, hy, _⟩ := Option.map_eq_some_iff.mp heq
    obtain ⟨hmem, hi, _⟩ := debugOf?_spec hy
    exact ha.constantsOf ⟨y, (mem_filter.mp hmem).1, hi⟩ _ x
  · exact forall_mem_singleton.mpr (ha.rewrite ho ht (mem_items_of_remainingOf ho hx))

theorem rewrittenWith {ys : List Json} (hys : ∀ y ∈ ys, ∀ k ∈ kinds deep y, good k) :
    ∀ k ∈ kinds deep (rewrittenWith o t guard ys), good k := by
  rw [Expansion.rewrittenWith, ho.fields_eq]
  refine forall_kinds_withProgram ho ht (forall_kinds_set (by decide) ?_ (forall_kinds_list hys))
  refine forall_kinds_program ho ht (fun _ => not_drops_of_not_isStatement rfl) fun e he hkey => ?_
  exact ((rewritingOf o t guard).forall_kinds ha.built (fun hh => ha.literals (exists_import hh)) e.2).2
    fun n hn => ho.sound n (mem_nodesFields_of he hkey hn)

theorem withoutExpired (met : List (Tree Mark)) : ∀ k ∈ kinds deep (withoutExpired o t met), good k := by
  have hscalar : ∀ s, decide ((Tree.scalar s : Tree Mark).ref ∈ gone (expiresIn o t) met) = false := by
    intro s
    rw [decide_eq_false_iff_not, mem_gone]
    rintro ⟨y, _, hexp, hr⟩
    obtain ⟨k, hk⟩ := Scan.exists_ref_of_isStatement (Bool.and_eq_true_iff.mp hexp).1
    rw [hk] at hr
    cases hr
  rw [Expansion.withoutExpired, ho.program, reshape, if_pos (isNode_of_hasKind ho.kind), bare]
  refine forall_kinds_withProgram ho ht (forall_kinds_program ho ht hscalar fun e he hkey => ?_)
  refine (forall_kinds_reshape hscalar (ha.built _ (by decide)) ?_ e.2).2
    fun n hn => ho.sound n (mem_nodesFields_of he hkey hn)
  exact fun _ _ _ _ h => h

/-- The statements of the body before the cleaning. -/
theorem inlinedImages : ∀ y ∈ imagesOf o t guard (inlinedEntries o t guard), ∀ k ∈ kinds deep y, good k := by
  rw [imagesOf_inlinedEntries]
  refine forall_mem_append.mpr ⟨ha.guardConstants, fun y hy => ?_⟩
  obtain ⟨x, hx, hy⟩ := mem_flatMap.mp hy
  exact ha.inlinedBlock ho ht hx y hy

/-- The statements of the body when an import cannot be inlined. -/
theorem lateImages {f : Failure} {before after : List (Tree Mark)} (hs : StopsLate o t f before x after) :
    ∀ y ∈ imagesOf o t guard (guardEntries o t guard ++
      before.flatMap (fun y => Entry.inlined o (Workspace.dialectOf t) (.old y)) ++
        .old x :: after.flatMap (earlyEntries o t)), ∀ k ∈ kinds deep y, good k := by
  have hmem : ∀ z, z ∈ before ∨ z = x ∨ z ∈ after → z ∈ remainingOf o t := by
    intro z hz
    rw [hs.split]
    simpa using hz
  rw [imagesOf_append, imagesOf_append, imagesOf_guardEntries, imagesOf_flatMap imagesOf_inlined]
  refine forall_mem_append.mpr ⟨forall_mem_append.mpr ⟨ha.guardConstants, fun y hy => ?_⟩,
    forall_mem_cons.mpr ⟨ha.rewrite ho ht (mem_items_of_remainingOf ho (hmem x (.inr (.inl rfl)))),
      fun y hy => ?_⟩⟩
  · obtain ⟨z, hz, hy⟩ := mem_flatMap.mp hy
    exact ha.inlinedBlock ho ht (hmem z (.inl hz)) y hy
  · change y ∈ imagesOf o t guard _ at hy
    rw [imagesOf_flatMap imagesOf_early] at hy
    obtain ⟨z, hz, hy⟩ := mem_flatMap.mp hy
    exact ha.earlyBlock ho ht (hmem z (.inr (.inr hz))) y hy

end Allows

/-- Whatever the types that a document keeps to: if those an expansion builds are among
them, the document keeps to them, whether the expansion succeeds or fails. -/
theorem forall_kinds_expand (hm : IsModule t fresh) (o : Options) (ha : Allows good t)
    (ht : ∀ k ∈ kinds deep t, good k) : ∀ k ∈ kinds deep (expand o t fresh).tree, good k := by
  obtain ⟨m, fields, body, items, ho⟩ := hm.opens
  rw [← kinds_erase]
  obtain ⟨f, met, _, _, htree⟩ | ⟨f, before, x, after, g, hlate, _, _, htree⟩ |
    ⟨_, g, _, _, _, _, _, _, hc⟩ := expand_cases ho hm o
  · rw [htree]
    exact ha.withoutExpired ho ht met
  · rw [htree]
    exact ha.rewrittenWith ho ht (ha.lateImages ho ht hlate)
  · rw [hc.tree]
    have himages : ∀ y ∈ imagesOf o t g (inlinedEntries o t g), ∀ k ∈ kinds deep y, good k := ha.inlinedImages ho ht
    obtain ⟨_, herase⟩ | ⟨pre, e, post, k, fs, rs₁, rs₂, hd, himage, herase, _⟩ := hc.clean_cases
    · rw [herase]
      exact ha.rewrittenWith ho ht himages
    · rw [hd.entries, imagesOf_append, forall_mem_append] at himages
      obtain ⟨hpre, hrest⟩ := himages
      obtain ⟨hhere, hpost⟩ := forall_mem_cons.mp hrest
      rw [herase]
      refine ha.rewrittenWith ho ht (forall_mem_append.mpr ⟨forall_mem_append.mpr ⟨hpre, ?_⟩, hpost⟩)
      obtain ⟨q, hq, _⟩ := hd.helper
      obtain ⟨x, hx, hi, _⟩ := mem_toolsOf hq
      refine ha.cleanedBlock ⟨x, hx, hi⟩ ?_
      rw [← kinds_erase, himage]
      exact hhere

section Literals

/-- The type of a literal that tells the dialect, as a template literal does not. -/
def isValueLiteral (k : String) : Bool := literalKinds.contains k && k != "TemplateLiteral"

theorem Opening.isNode_root (ho : Opening t m fields body items) : isNode t = true := by
  cases ho.wraps with
  | program _ heq => exact heq ▸ isNode_of_hasKind ho.kind
  | file _ _ _ hfile _ _ => exact isNode_of_hasKind hfile

/-- The nodes of the program are walked from the document. -/
theorem Opening.walked (ho : Opening t m fields body items) {n : Tree Mark} (hn : n ∈ nodesFields fields) :
    n ∈ nodesFields t.fields := by
  cases ho.wraps with
  | program _ heq => exact heq ▸ hn
  | file i fs heq _ _ hget =>
    subst heq
    refine mem_nodesFields_of (Table.mem_of_get? hget) (show isMetadata "program" = false by decide) ?_
    rw [Alike.inside_of_isNode (isNode_of_hasKind ho.kind)]
    exact mem_cons_of_mem _ hn

theorem exists_source (hl : Legal x) (hi : isImport x = true) :
    ∃ n ∈ inside x, ∃ k, kind? n = some k ∧ isValueLiteral k = true := by
  have hn := isNode_of_hasKind hi
  have hs := hl.sound hn
  rw [sound, hasKind_iff.mp hi] at hs
  simp only [Bool.and_eq_true, Node.holds, field?] at hs
  cases hget : Table.get? x.fields "source" with
  | none => rw [hget] at hs; exact absurd hs.1.1 Bool.false_ne_true
  | some src =>
    rw [hget] at hs
    obtain ⟨k, hk, hlit⟩ : ∃ k, kind? src = some k ∧ isValueLiteral k = true := by
      have hlit : isStringLiteral src = true := hs.1.1
      rw [isStringLiteral, Bool.or_eq_true, Bool.and_eq_true] at hlit
      obtain hlit | ⟨hlit, _⟩ := hlit
      · exact ⟨_, hasKind_iff.mp hlit, by decide⟩
      · exact ⟨_, hasKind_iff.mp hlit, by decide⟩
    have hsrc : isNode src = true := Option.isSome_iff_exists.mpr ⟨k, hk⟩
    refine ⟨src, ?_, k, hk, hlit⟩
    rw [Alike.inside_of_isNode hn]
    refine mem_cons_of_mem _ (mem_nodesFields_of (Table.mem_of_get? hget)
      (show isMetadata "source" = false by decide) ?_)
    rw [Alike.inside_of_isNode hsrc]
    exact mem_cons_self

theorem exists_literal (deep : Bool) (ho : Opening t m fields body items) (hi : ∃ x ∈ bodyOf t, isImport x = true) :
    ∃ k ∈ kinds deep t, isValueLiteral k = true ∧
      Workspace.dialectOf t = if k == "Literal" then .uniform else .kinded := by
  obtain ⟨i, fs, _, rfl, _⟩ := exists_of_isNode ho.isNode_root
  obtain ⟨x, hx, hi⟩ := hi
  rw [ho.bodyOf_eq] at hx
  obtain ⟨n, hn, k, hk, hlit⟩ := exists_source (ho.legal hx) hi
  have hwalk : (Visit.below 0 (.obj i fs)).filterMap (fun v => kind? v.node) = (nodesFields fs).filterMap kind? := by
    rw [← Visit.below_nodes 0 i fs, filterMap_map]
    rfl
  have hmem : ∀ j, j ∈ (nodesFields fs).filterMap kind? → j ∈ kinds deep (.obj i fs) := by
    intro j hj
    obtain ⟨n, hn, hj⟩ := mem_filterMap.mp hj
    refine kind_mem_kinds (t := .obj i fs) ?_ hj
    rw [Alike.inside_of_isNode ho.isNode_root]
    exact mem_cons_of_mem _ hn
  have hsource : k ∈ ((nodesFields fs).filterMap kind?).filter isValueLiteral := by
    refine mem_filter.mpr ⟨mem_filterMap.mpr ⟨n, ho.walked ?_, hk⟩, hlit⟩
    refine mem_nodesFields_of (Table.mem_of_get? ho.body) (show isMetadata "body" = false by decide) ?_
    rw [inside, nodesItems_eq]
    exact mem_flatMap.mpr ⟨x, hx, inside_eq_nodes (ho.statements x hx) ▸ hn⟩
  obtain ⟨j, rest, hl⟩ := exists_cons_of_ne_nil (ne_nil_of_mem hsource)
  obtain ⟨hj, hlit⟩ := mem_filter.mp (hl ▸ mem_cons_self : j ∈ _)
  refine ⟨j, hmem j hj, hlit, ?_⟩
  have hliterals :
      ((nodesFields fs).filterMap kind?).filter (fun k => literalKinds.contains k && k != "TemplateLiteral") =
        j :: rest := hl
  rw [Workspace.dialectOf, hwalk, hliterals]

end Literals

/-- A document whose literals are all uniform keeps to uniform literals, and one without a
uniform literal gets none, whether the expansion succeeds or fails. -/
theorem expand_keeps_dialect (hm : IsModule t fresh) (o : Options) (deep : Bool) :
    ((∀ k ∈ kinds deep t, isValueLiteral k = true → k = "Literal") →
      ∀ k ∈ kinds deep (expand o t fresh).tree, isValueLiteral k = true → k = "Literal") ∧
    ("Literal" ∉ kinds deep t → "Literal" ∉ kinds deep (expand o t fresh).tree) := by
  obtain ⟨m, fields, body, items, ho⟩ := hm.opens
  refine ⟨fun ht => forall_kinds_expand hm o ⟨by decide, fun hi => ?_⟩ ht, fun ht => ?_⟩
  · obtain ⟨k, hk, hlit, hd⟩ := exists_literal deep ho hi
    rw [hd, ht k hk hlit]
    decide
  · have hother : ∀ k ∈ kinds deep t, k ≠ "Literal" := fun k hk hl => ht (hl ▸ hk)
    refine fun h => forall_kinds_expand hm o ⟨by decide, fun hi => ?_⟩ hother _ h rfl
    obtain ⟨k, hk, _, hd⟩ := exists_literal deep ho hi
    rw [hd, if_neg (by simpa using hother k hk)]
    decide

/-- An import with a literal of its kind. -/
def kindedImport (specifiers : List (String × String)) (source : String) : Json :=
  .obj () (Table.set (importing specifiers source).fields "source" (kindedLiteral (.str source)))

/-- A file in the dialect with a node type for each kind of literal: a flag, and a
deprecation with a template in its predicate. -/
def kindedFile : Tree Mark × Mark :=
  marked (make "File" [("program", moduleOf [kindedImport [("BETA", "b")] "@ember/env-flags",
    kindedImport [("deprecate", "d")] "@ember/debug-tools",
    calling "d" [kindedLiteral (.str "m"), make "TemplateLiteral" [("expressions", listOf [kindedLiteral .null])],
      make "ObjectExpression" [("properties", listOf [property (.str "id") (kindedLiteral (.str "x")),
        property (.str "until") (kindedLiteral (.str "9.0.0"))])]]])])

/-- Options that redirect the helpers import. -/
def flagsRedirected : Options :=
  { envFlags := { flags := [("BETA", 0), (debugFlag, 1)] }, externalize := true,
    helpers := { module := .redirect "app/helpers" } }

theorem expand_keeps_dialect_kinded :
    (expand flagsRedirected kindedFile.1 kindedFile.2).result =
      .ok
        { guard := some "_DEBUG", synthesized := true, expanded := 1, inlined := 1,
          helpersImport := some .redirected } ∧
    "Literal" ∉ kinds true kindedFile.1 ∧ "TemplateLiteral" ∈ kinds true kindedFile.1 ∧
    (kinds true (expand flagsRedirected kindedFile.1 kindedFile.2).tree).filter isValueLiteral =
      ["NumericLiteral", "NumericLiteral", "StringLiteral", "NullLiteral", "StringLiteral"] ∧
    "Literal" ∉ kinds true (expand flagsRedirected kindedFile.1 kindedFile.2).tree := by
  have hnone : "Literal" ∉ kinds true kindedFile.1 := by decide +kernel
  exact ⟨by decide +kernel, hnone, by decide +kernel, by decide +kernel,
    (expand_keeps_dialect (by decide +kernel) flagsRedirected true).2 hnone⟩

end DebugGuards.Expansion
