import DebugGuards.Proofs.Expansion.Inlining

/-! The guard of a module after its expansion. It is declared once, by a constant with
the value of the debug flag, and every statement that went under guard has it at the
head of its chain. -/

namespace DebugGuards.Expansion

open DebugGuards.Tree Node List

variable {o : Options} {t : Tree Mark} {fresh m : Mark} {fields : Fields Mark} {body : Mark}
  {items : List (Tree Mark)} {guard : String} {x : Tree Mark} {summary : Summary} {ps : List Path} {p : Patch}
  {w : Workspace}

section Names

/-- What stands in the place of a statement declares names that the statement declared. -/
theorem Becomes.names_sublist {vs : List Json} (ho : Opening t m fields body items) (hm : IsModule t fresh)
    (hb : Becomes o t guard x vs) (hx : x ∈ remainingOf o t) : (vs.flatMap names).Sublist (names x) := by
  have hitem := mem_items_of_remainingOf ho hx
  have herase : names x.erase = names x := (alike_map _ x).1.names_eq (ho.statements x hitem) (ho.legal hitem)
  cases hb with
  | constants flags vs hf each =>
    have heq : ∀ {ss : List (String × String)} {vs : List Json}, List.Forall₂ (fun s v => ∃ i,
        Table.get? flags s.1 = some i ∧ v = constant (.str s.2) ((Workspace.dialectOf t).literal (.int i))) ss vs →
        vs.flatMap names = ss.map Prod.snd := by
      intro ss vs each
      induction each with
      | nil => rfl
      | cons hv _ ih =>
        obtain ⟨i, _, rfl⟩ := hv
        rw [flatMap_cons, map_cons, ih]
        rfl
    rw [heq each]
    exact named_sublist (isImport_of_flagsFor? hf)
  | rewritten hi =>
    rw [flatMap_singleton, (ho.alike_rewrite hm hx guard).names_eq (ho.statements x hitem) (ho.legal hitem)]
  | same hi hf hsrc => rw [flatMap_singleton, herase]
  | tools vs hi hsrc eq =>
    rcases eq with rfl | rfl
    · rw [flatMap_singleton, herase]
    · rw [cleanedBlock]
      split
      · split
        · exact nil_sublist _
        · obtain ⟨k, fs, rfl, _⟩ := exists_fields hi
          rw [flatMap_singleton, names_redirectedTo, herase]
      · rw [flatMap_singleton, herase]
      · exact nil_sublist _
      · exact nil_sublist _

/-- No name is declared twice in the result. -/
theorem names_body_nodup (ho : Opening t m fields body items) (hm : IsModule t fresh) (hd : Distinct t)
    (hg : IsGuard o t guard) {blocks : List (List Json)}
    (hb : List.Forall₂ (Becomes o t guard) (remainingOf o t) blocks) :
    ((guardConstants o t guard ++ blocks.flatten).flatMap names).Nodup := by
  have hsub : ∀ {xs : List (Tree Mark)} {bs : List (List Json)}, xs ⊆ remainingOf o t →
      List.Forall₂ (Becomes o t guard) xs bs → (bs.flatten.flatMap names).Sublist (xs.flatMap names) := by
    intro xs bs hxs hbs
    induction hbs with
    | nil => exact List.Sublist.refl _
    | cons hx _ ih =>
      rw [flatten_cons, flatMap_append, flatMap_cons]
      exact (hx.names_sublist ho hm (hxs (mem_cons_self ..))).append
        (ih fun y hy => hxs (mem_cons_of_mem _ hy))
  have hall : (blocks.flatten.flatMap names).Sublist ((bodyOf t).flatMap names) :=
    (hsub (List.Subset.refl _) hb).trans (filter_sublist.flatMap _)
  rw [flatMap_append, guardConstants]
  split
  · next hmake =>
    refine nodup_cons.mpr ⟨fun hmem => ?_, hd.sublist hall⟩
    obtain ⟨y, hy, hn⟩ := mem_flatMap.mp (hall.subset hmem)
    exact hg.made hmake y hy hn
  · exact hd.sublist hall

end Names

section Declared

theorem exists_guard_constant (hs : Succeeds o t) (hg : IsGuard o t guard) (hsites : sitesOf o t ≠ [])
    (htools : flagsOf? o o.toolsSource = none)
    (hreuse : ∀ x, debugOf? o t = some x → (debugFlag, debugFlag) ∈ named x) {blocks : List (List Json)}
    (hb : List.Forall₂ (Becomes o t guard) (remainingOf o t) blocks) :
    ∃ i, Table.get? o.envFlags.flags debugFlag = some i ∧
      constant (.str guard) ((Workspace.dialectOf t).literal (.int i)) ∈
        guardConstants o t guard ++ blocks.flatten := by
  cases hdebug : debugOf? o t with
  | none =>
    have hempty : (sitesOf o t).isEmpty = false := by simpa using hsites
    have hmake : makesGuard o t = true := by rw [makesGuard, hdebug, hempty]; rfl
    have hhas : Table.has o.envFlags.flags debugFlag = true := by
      have hnone := hs.guard
      simp only [guardFailure?, hdebug, hempty, Bool.false_or] at hnone
      by_contra hno
      rw [if_neg hno] at hnone
      cases hnone
    obtain ⟨i, hi⟩ := Option.isSome_iff_exists.mp hhas
    refine ⟨i, hi, mem_append_left _ ?_⟩
    rw [guardConstants, if_pos hmake, hi]
    exact mem_singleton.mpr rfl
  | some x =>
    obtain ⟨hx, hi, hsrc⟩ := debugOf?_spec hdebug
    obtain rfl : guard = debugFlag := hg.reused (by rw [hdebug]; rfl)
    obtain ⟨vs, hvs, hbx⟩ := forall₂_exists_right hb hx
    have hflags := flagsFor?_debug hdebug
    cases hbx with
    | constants flags vs hf each =>
      rw [hflags] at hf
      cases hf
      obtain ⟨v, hv, i, hi, rfl⟩ := forall₂_exists_right each (hreuse x hdebug)
      exact ⟨i, hi, mem_append_right _ (mem_flatten.mpr ⟨_, hvs, hv⟩)⟩
    | tools vs hi hsrc' eq =>
      rw [flagsFor?_tools htools hsrc'] at hflags
      cases hflags
    | same hi hf hsrc' =>
      rw [hflags] at hf
      cases hf
    | rewritten hi' =>
      rw [hi] at hi'
      cases hi'

end Declared

section Chains

theorem Ended.chain {c : Scan} {met : List (Tree Mark)} {h : Heap} (he : Ended c met guard w h) {y : Tree Mark}
    (hx : x ∈ met) {drafts : List Draft} (hop : c.operands x = some drafts) (hst : isStatement x = true)
    (hy : Shows h y) (hr : y.ref = x.ref) :
    (expressionOf y).erase =
      parenthesized (guardChain (.str guard) (drafts.map (resolve fun m => w.value (.part m)))) := by
  obtain ⟨k, _, _, rfl, _⟩ := exists_of_isNode (isNode_of_isStatement hst)
  obtain ⟨fs, e, hcell, hget, hg⟩ := he.sites _ hx drafts hop k rfl
  have hyc := hy.here hr
  rw [hcell] at hyc
  cases y with
  | scalar s => cases hr
  | arr n ys => cases hyc
  | obj n gs =>
    cases hyc
    rw [Table.get?_mapValues] at hget
    obtain ⟨v, hv, rfl⟩ := Option.map_eq_some_iff.mp hget
    rw [← hg.value he.models, he.models.value_ref (hy.field hv), expressionOf, Tree.fields, hv, Option.getD_some]

theorem exists_operands (hx : x ∈ sitesOf o t) (fresh m : Mark) (fields : Fields Mark) (ps : List Path) :
    x ∈ statementsOf o t ∧ ∃ v drafts, verdictOf o t x = .ok v ∧ v.guards = true ∧
      (moduleScan o t fresh m fields ps).operands x = some drafts := by
  obtain ⟨hmem, hg⟩ := mem_filter.mp hx
  cases hv : verdictOf o t x with
  | error f =>
    rw [hv] at hg
    cases hg
  | ok v =>
    rw [hv] at hg
    have hiff : (moduleScan o t fresh m fields ps).operands x = none ↔ v.guards = false := operands_eq_none_iff hv
    have hsome : (moduleScan o t fresh m fields ps).operands x ≠ none := by
      rw [Ne, hiff]
      simpa using hg
    obtain ⟨drafts, hd⟩ := Option.ne_none_iff_exists'.mp hsome
    exact ⟨hmem, v, drafts, rfl, hg, hd⟩

end Chains

/-- The guard that an expansion reports is declared once, by the constant of the debug
flag, and stands at the head of every chain; unless the flag was imported in a way that
does not name it. -/
theorem expand_guard_declared (hm : IsModule t fresh) (hd : Distinct t) (htools : flagsOf? o o.toolsSource = none)
    (hreuse : ∀ x, debugOf? o t = some x → (debugFlag, debugFlag) ∈ named x)
    (hok : (expand o t fresh).result = .ok summary) (hsome : 1 ≤ summary.expanded) :
    ∃ g i, summary.guard = some g ∧ Table.get? o.envFlags.flags debugFlag = some i ∧
      (bodyOf (expand o t fresh).tree.erase).filter (fun y => (names y).contains g) =
        [constant (.str g) ((Workspace.dialectOf t).literal (.int i))] ∧
      ∀ x ∈ sitesOf o t, ∀ y ∈ inside (expand o t fresh).tree, y.ref = x.ref →
        ∃ operands, (expressionOf y).erase = parenthesized (guardChain (.str g) operands) := by
  obtain ⟨m, fields, body, items, ho⟩ := hm.opens
  obtain ⟨ps, g, p, w, hc⟩ := exists_completed ho hm hd htools hok
  obtain ⟨blocks, hblocks, hbody⟩ := hc.exists_blocks ho
  obtain ⟨removed, hreports⟩ := hc.reports
  have hsites : sitesOf o t ≠ [] := by
    intro hnil
    rw [hreports, resolvedSummary, hnil] at hsome
    cases hsome
  obtain ⟨i, hi, hmem⟩ := exists_guard_constant hc.succeeds hc.isGuard hsites htools hreuse hblocks
  refine ⟨g, i, hc.guard_some hsites, hi, ?_, fun x hx y hy hr => ?_⟩
  · obtain ⟨pre, post, hsplit⟩ := append_of_mem hmem
    rw [hbody]
    exact filter_of_nodup (names_body_nodup ho hm hd hc.isGuard hblocks) hsplit (mem_singleton.mpr rfl)
  · obtain ⟨hx, v, drafts, _, _, hop⟩ := exists_operands hx fresh m fields ps
    obtain ⟨h, hended⟩ := hc.ended
    rw [hc.tree] at hy
    have hshows : Shows h y := inside_induction (fun _ h _ hc => h.child hc) hended.models.root hy
    exact ⟨_, hended.chain hx hop (isStatement_of_statementsOf hx) hshows hr⟩

theorem expand_guard_declared_flags :
    ∃ g i, some "DEBUG" = some g ∧ Table.get? Options.usual.envFlags.flags debugFlag = some i ∧
      (bodyOf (expand .usual flagsModule.1 flagsModule.2).tree.erase).filter (fun y => (names y).contains g) =
        [constant (.str g) ((Workspace.dialectOf flagsModule.1).literal (.int i))] ∧
      ∀ x ∈ sitesOf .usual flagsModule.1, ∀ y ∈ inside (expand .usual flagsModule.1 flagsModule.2).tree,
        y.ref = x.ref → ∃ operands, (expressionOf y).erase = parenthesized (guardChain (.str g) operands) := by
  have hok : (expand .usual flagsModule.1 flagsModule.2).result =
      .ok { guard := some "DEBUG", expanded := 1, inlined := 2, helpersImport := some .removed } := by decide +kernel
  have hreuse : ∀ x ∈ debugOf? .usual flagsModule.1, (debugFlag, debugFlag) ∈ named x := by decide +kernel
  exact expand_guard_declared (by decide +kernel) (by decide +kernel) (by decide +kernel) hreuse hok (Nat.le_refl 1)

/-- A default import binds the debug flag and is taken for the guard, but names no flag. -/
def defaultFlagModule : Tree Mark × Mark :=
  marked (moduleOf [make "ImportDeclaration"
    [("specifiers", listOf [make "ImportDefaultSpecifier" [("local", identifier (.str "DEBUG"))]]),
      ("source", literal (.str "@ember/env-flags"))],
    importing [("warn", "warn")] "@ember/debug-tools", calling "warn" [literal (.str "m")]])

theorem expand_guard_undeclared :
    IsModule defaultFlagModule.1 defaultFlagModule.2 ∧ Distinct defaultFlagModule.1 ∧
      (expand .usual defaultFlagModule.1 defaultFlagModule.2).result =
        .ok { guard := some "DEBUG", expanded := 1, helpersImport := some .removed } ∧
      (bodyOf (expand .usual defaultFlagModule.1 defaultFlagModule.2).tree).flatMap names = [] := by
  decide +kernel

end DebugGuards.Expansion
