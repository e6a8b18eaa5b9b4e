import DebugGuards.Proofs.Expansion.Calls
import DebugGuards.Proofs.Expansion.Guards

/-! Helpers called by name. A statement under guard ends in a call of the diagnostic
under the diagnostic's own name, whatever name the module had for it; so the call finds
its helper if the import that stays binds it under that name. -/

namespace DebugGuards.Expansion

open DebugGuards.Tree Node List

variable {o : Options} {t : Tree Mark} {fresh m : Mark} {fields : Fields Mark} {body : Mark}
  {items : List (Tree Mark)} {x : Tree Mark} {summary : Summary}

section Terminal

theorem name_of_ofName? {i : String} {d : Diagnostic} (hi : Diagnostic.ofName? (.str i) = some d) : i = d.name := by
  rw [Diagnostic.ofName?.eq_def] at hi
  split at hi <;> simp_all <;> subst hi <;> rfl

theorem exists_mem_toolsOf {n i : String} (hi : importedAs? o (bodyOf t) n = some i) :
    (i, n) ∈ toolsOf o (bodyOf t) := by
  obtain ⟨s, hs, rfl⟩ := Option.map_eq_some_iff.mp hi
  obtain ⟨hmem, hn⟩ := mem_filter.mp (mem_of_getLast? hs)
  rw [beq_iff_eq] at hn
  exact hn ▸ hmem

/-- The diagnostic that a statement under guard calls: its import, and the call at the end
of its operands. -/
theorem exists_terminal {v : Verdict} (hl : Legal x) (hn : isNode x = true) (hv : verdictOf o t x = .ok v)
    (hg : v.guards = true) :
    ∃ n d, calledName? x = some n ∧ (Diagnostic.name d, n) ∈ toolsOf o (bodyOf t) ∧
      ∀ {drafts : List Draft} (dialect : Dialect), operandDrafts o dialect (expressionOf x) v = some drafts →
        ∃ conditions arguments, drafts = conditions ++ [call (d.calleeNode o.target) arguments] := by
  obtain ⟨rfl, _⟩ | ⟨name, helper, d, hcalled, hd, hver⟩ := verdict_ok hv
  · cases hg
  rw [calledHelper_eq o t hl hn] at hcalled
  obtain ⟨n, hname, hcalled⟩ := Option.bind_eq_some_iff.mp (Except.ok.inj hcalled)
  obtain ⟨i, himp, heq⟩ := Option.map_eq_some_iff.mp hcalled
  cases heq
  refine ⟨n, d, hname, name_of_ofName? hd ▸ exists_mem_toolsOf himp, fun dialect hop => ?_⟩
  obtain ⟨rfl, rfl, _⟩ | ⟨rfl, rfl, _⟩ | ⟨rfl, rfl | ⟨text, rfl⟩⟩ := Diagnostic.verdict_ok hver
  · exact ⟨_, _, (Option.some.inj hop).symm⟩
  · exact ⟨[], _, (Option.some.inj hop).symm⟩
  · cases hg
  · exact ⟨[_], _, (Option.some.inj hop).symm⟩

end Terminal

section Import

/-- The module that the helpers import names when it stays. -/
def helpersSource (o : Options) : String :=
  match o.helpersModule with
  | .redirect module => module
  | _ => o.toolsSource

theorem named_redirectedTo (d : Dialect) (module : String) (hi : isImport x = true) :
    named (Standing.redirectedTo d module x) = named x.erase := by
  obtain ⟨k, fs, rfl, _⟩ := exists_fields hi
  rw [named, named, listAt, listAt, Standing.redirectedTo, erase_obj, field?, field?, Tree.fields, Tree.fields,
    Table.get?_set, if_neg (by decide)]
  rfl

/-- The helpers import that stays binds what it did. -/
theorem exists_cleanedBlock (hl : Legal x) (hi : isImport x = true) (hsrc : sourceOf x = o.toolsSource)
    (hkept : fateOf o ≠ .removed) (t : Tree Mark) :
    ∃ z, cleanedBlock o t x = [z] ∧ isImport z = true ∧ sourceOf z = helpersSource o ∧ named z = named x := by
  have hnamed : named x.erase = named x := (alike_map _ x).1.named_eq hl hi
  rw [fateOf] at hkept
  rw [cleanedBlock, helpersSource]
  cases hmod : o.helpersModule with
  | unset => simp [hmod] at hkept
  | keep b =>
    cases b with
    | false => simp [hmod] at hkept
    | true =>
      refine ⟨_, rfl, (alike_map _ x).1.isImport_eq.trans hi, ?_, hnamed⟩
      exact ((alike_map _ x).1.sourceOf_eq hl hi).trans hsrc
  | redirect module =>
    have hne : module ≠ "" := by
      rintro rfl
      simp [hmod] at hkept
    dsimp only
    rw [if_neg hne]
    exact ⟨_, rfl, isImport_redirectedTo _ _ hi, sourceOf_redirectedTo _ _ _, (named_redirectedTo _ _ hi).trans hnamed⟩

end Import

theorem eq_of_tools (hone : (bodyOf t).filter (fun x => isImport x && sourceOf x == o.toolsSource) = [x])
    (hy : y ∈ remainingOf o t) (hi : isImport y = true) (hsrc : sourceOf y = o.toolsSource) : y = x := by
  have : y ∈ (bodyOf t).filter fun x => isImport x && sourceOf x == o.toolsSource :=
    mem_filter.mpr ⟨(mem_filter.mp hy).1, by simp [hi, hsrc]⟩
  rw [hone] at this
  exact mem_singleton.mp this

/-- The calls that an expansion writes find their helpers in the helpers import that
stays, if that import binds diagnostics under their own names. -/
theorem expand_callees_bound (hm : IsModule t fresh) (hd : Distinct t) (htools : flagsOf? o o.toolsSource = none)
    (hone : (bodyOf t).filter (fun x => isImport x && sourceOf x == o.toolsSource) = [x])
    (htarget : o.target = .external) (hkept : fateOf o ≠ .removed)
    (hown : ∀ s ∈ named x, ∀ d : Diagnostic, s.1 = d.name → s.2 = d.name)
    (hok : (expand o t fresh).result = .ok summary) :
    ∀ s ∈ sitesOf o t, ∀ y ∈ inside (expand o t fresh).tree, y.ref = s.ref →
      ∃ g conditions arguments, ∃ d : Diagnostic, summary.guard = some g ∧
        (expressionOf y).erase = parenthesized (guardChain (.str g)
          (conditions ++ [call (identifier (.str d.name)) arguments])) ∧
        ∃ z ∈ bodyOf (expand o t fresh).tree.erase, isImport z = true ∧ sourceOf z = helpersSource o ∧
          (d.name, d.name) ∈ named z := by
  intro s hs y hy hr
  obtain ⟨m, fields, body, items, ho⟩ := hm.opens
  obtain ⟨ps, g, p, w, hc⟩ := exists_completed ho hm hd htools hok
  obtain ⟨h, hended⟩ := hc.ended
  obtain ⟨hmet, v, drafts, hv, hg, hop⟩ := exists_operands hs fresh m fields ps
  have hst := isStatement_of_statementsOf hmet
  have hlegal : Legal s := by
    rw [statementsOf, ho.fields_eq] at hmet
    exact fun n hn => ho.sound n (nodesFields_trans (liveFields_subset fields hmet) hn)
  obtain ⟨n, d, _, htool, hterminal⟩ := exists_terminal hlegal (isNode_of_isStatement hst) hv hg
  -- the diagnostic is bound under its own name
  have hmem : (d.name, d.name) ∈ named x := by
    rw [toolsOf, hone, flatMap_singleton] at htool
    obtain rfl : n = d.name := hown _ htool d rfl
    exact htool
  rw [Scan.operands_of_ok (c := moduleScan o t fresh m fields ps) hv] at hop
  obtain ⟨conditions, arguments, rfl⟩ := hterminal _ hop
  rw [hc.tree] at hy
  have hshows : Shows h y := inside_induction (fun _ h _ hc => h.child hc) hended.models.root hy
  have hchain :=
    hended.chain hmet (by rw [Scan.operands_of_ok (c := moduleScan o t fresh m fields ps) hv, hop]) hst hshows hr
  rw [map_append, map_singleton, resolve_call, htarget] at hchain
  refine ⟨g, _, _, d, hc.guard_some (ne_nil_of_mem hs), hchain, ?_⟩
  -- the import that stays
  rcases hc.ends with ⟨hnil, _⟩ | ⟨before, x', after, hsplit, hi, hsrc, _, hcleans⟩
  · rw [toolsOf, hone, flatMap_singleton] at hnil
    rw [hnil] at hmem
    cases hmem
  have hx' : x' ∈ remainingOf o t := by
    rw [hsplit]
    simp
  obtain rfl := eq_of_tools hone hx' hi hsrc
  obtain ⟨z, hz, hzi, hzs, hzn⟩ := exists_cleanedBlock (ho.legal (mem_items_of_remainingOf ho hx')) hi hsrc hkept t
  refine ⟨z, ?_, hzi, hzs, by rw [hzn]; exact hmem⟩
  rw [hc.tree, hcleans.erase, bodyOf_rewrittenWith ho, hz]
  simp

/-- A warning under its own name. -/
def ownNameModule : Tree Mark × Mark :=
  marked (moduleOf [importing [("warn", "warn")] "@ember/debug-tools", calling "warn" [literal (.str "m")]])

theorem expand_callees_bound_ownName :
    (expand redirecting ownNameModule.1 ownNameModule.2).result =
        .ok { guard := some "_DEBUG", synthesized := true, expanded := 1, helpersImport := some .redirected } ∧
      ∀ s ∈ sitesOf redirecting ownNameModule.1,
        ∀ y ∈ inside (expand redirecting ownNameModule.1 ownNameModule.2).tree, y.ref = s.ref →
          ∃ g conditions arguments, ∃ d : Diagnostic, some "_DEBUG" = some g ∧
            (expressionOf y).erase = parenthesized (guardChain (.str g)
              (conditions ++ [call (identifier (.str d.name)) arguments])) ∧
            ∃ z ∈ bodyOf (expand redirecting ownNameModule.1 ownNameModule.2).tree.erase, isImport z = true ∧
              sourceOf z = helpersSource redirecting ∧ (d.name, d.name) ∈ named z := by
  have hok : (expand redirecting ownNameModule.1 ownNameModule.2).result =
      .ok { guard := some "_DEBUG", synthesized := true, expanded := 1, helpersImport := some .redirected } := by
    decide +kernel
  have hone : (bodyOf ownNameModule.1).filter (fun x => isImport x && sourceOf x == redirecting.toolsSource) =
      [(bodyOf ownNameModule.1).headD .null] := by decide +kernel
  have hnamed : ∀ s ∈ named ((bodyOf ownNameModule.1).headD .null), s = ("warn", "warn") := by decide +kernel
  refine ⟨hok, expand_callees_bound (by decide +kernel) (by decide +kernel) (by decide +kernel) hone
    (by decide +kernel) (by decide +kernel) (fun s hs d hd => ?_) hok⟩
  obtain rfl := hnamed s hs
  exact hd

/-- A warning under another name. -/
def aliasedModule : Tree Mark × Mark :=
  marked (moduleOf [importing [("warn", "w")] "@ember/debug-tools", calling "w" [literal (.str "m")]])

/-- The call is of a name that nothing binds. -/
theorem expand_callee_unbound :
    IsModule aliasedModule.1 aliasedModule.2 ∧
      (expand redirecting aliasedModule.1 aliasedModule.2).result =
        .ok { guard := some "_DEBUG", synthesized := true, expanded := 1, helpersImport := some .redirected } ∧
      bodyOf (expand redirecting aliasedModule.1 aliasedModule.2).tree.erase =
        [constant (.str "_DEBUG") (literal (.int 1)), importing [("warn", "w")] "my-helpers",
          expressionStatement (parenthesized (guardChain (.str "_DEBUG")
            [call (identifier (.str "warn")) [literal (.str "m")]]))] := by
  decide +kernel

end DebugGuards.Expansion
