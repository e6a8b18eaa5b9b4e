import DebugGuards.Proofs.Expansion.Calls

/-! When an expansion fails, and with what. The statements are judged before the guard
is looked for, and the guard before the imports are inlined; within each phase the first
reason counts. An expansion fails if and only if there is a reason, with the first one. -/

namespace DebugGuards.Expansion

open DebugGuards.Tree Node List

variable {o : Options} {t : Tree Mark} {fresh : Mark} {f : Failure}

/-- The first reason why a module cannot be expanded: a statement, the guard, an import. -/
def firstFailure? (o : Options) (t : Tree Mark) : Option Failure :=
  ((statementsOf o t).findSome? (statementFailure? o t)).or
    ((guardFailure? o t).or ((bodyOf t).findSome? (lacking? o)))

section Order

variable {m : Mark} {fields : Fields Mark} {body : Mark} {items : List (Tree Mark)} {x : Tree Mark}

section

variable (ho : Opening t m fields body items)
include ho

theorem legal_of_statementsOf (hx : x ∈ statementsOf o t) : Legal x ∧ isNode x = true := by
  rw [statementsOf, ho.fields_eq] at hx
  have hmem := liveFields_subset fields hx
  obtain ⟨e, he, _, hs⟩ := mem_liveFields hx
  exact ⟨fun n hn => ho.sound n (nodesFields_trans hmem hn), isNode_of_isStatement ((isStatement_of_live e.2).2 x hs)⟩

theorem statementFailure?_eq (hv : Comparable o t) (hx : x ∈ statementsOf o t) :
    (∃ f, statementFailure? o t x = some f ∧ verdictOf o t x = .error f) ∨
    statementFailure? o t x = none ∧ ∃ v, verdictOf o t x = .ok v :=
  verdictOf_cases (legal_of_statementsOf ho hx).1 (legal_of_statementsOf ho hx).2 (hv x hx)

theorem statementFailure?_of_ok (hv : Comparable o t) (hx : x ∈ statementsOf o t)
    (hok : ∃ v, verdictOf o t x = .ok v) : statementFailure? o t x = none := by
  obtain ⟨v, hok⟩ := hok
  obtain ⟨f, _, herr⟩ | ⟨hnone, _⟩ := statementFailure?_eq ho hv hx
  · rw [hok] at herr
    cases herr
  · exact hnone

theorem findSome?_of_judged (hv : Comparable o t) (hok : ∀ y ∈ statementsOf o t, ∃ v, verdictOf o t y = .ok v) :
    (statementsOf o t).findSome? (statementFailure? o t) = none :=
  findSome?_eq_none_iff.mpr fun y hy => statementFailure?_of_ok ho hv hy (hok y hy)

end

/-- Only imports can lack a flag, and no import goes away. -/
theorem findSome?_lacking (o : Options) (t : Tree Mark) :
    (bodyOf t).findSome? (lacking? o) = (remainingOf o t).findSome? (lacking? o) := by
  rw [remainingOf]
  induction bodyOf t with
  | nil => rfl
  | cons x xs ih =>
    rw [filter_cons, findSome?_cons]
    cases he : expiresIn o t x with
    | false =>
      rw [Bool.not_false, if_pos rfl, findSome?_cons, ih]
    | true =>
      have hnone : lacking? o x = none := by
        have hst := isStatement_of_expiresIn he
        have hi : isImport x = false := by
          rw [Bool.eq_false_iff]
          intro hi
          rw [Alike.not_isStatement hi (by decide)] at hst
          cases hst
        simp [lacking?, flagsFor?, hi]
      rw [hnone]
      exact ih

/-- Either there is a first reason, with which the expansion fails, or it succeeds. -/
theorem expand_failure_cases (hm : IsModule t fresh) (hv : Comparable o t) :
    (∃ f, firstFailure? o t = some f ∧ (expand o t fresh).result = .error f) ∨
    firstFailure? o t = none ∧ ∃ summary, (expand o t fresh).result = .ok summary := by
  obtain ⟨m, fields, body, items, ho⟩ := hm.opens
  obtain ⟨f, met, hstops, hres, _⟩ | ⟨f, before, x, after, _, hstops, _, hres, _⟩ |
    ⟨_, _, _, _, _, _, _, _, hc⟩ := expand_cases ho hm o
  · refine .inl ⟨f, ?_, hres⟩
    cases hstops with
    | verdict x rest split judged here =>
      have hmem : ∀ {y}, y ∈ met ++ x :: rest → y ∈ statementsOf o t := fun hy => split ▸ hy
      have hx : statementFailure? o t x = some f := by
        obtain ⟨f', hf', herr⟩ | ⟨_, v, hok⟩ := statementFailure?_eq ho hv (hmem (by simp : x ∈ met ++ x :: rest))
        · rw [here] at herr
          rw [hf', Except.error.inj herr]
        · rw [here] at hok
          cases hok
      have hmet : met.findSome? (statementFailure? o t) = none := findSome?_eq_none_iff.mpr fun y hy =>
        statementFailure?_of_ok ho hv (hmem (mem_append_left _ hy)) (judged y hy)
      rw [firstFailure?, split, findSome?_append, hmet, findSome?_cons, hx]
      rfl
    | guard all judged here =>
      subst all
      rw [firstFailure?, findSome?_of_judged ho hv judged, here]
      rfl
  · refine .inl ⟨f, ?_, hres⟩
    have hbefore : before.findSome? (lacking? o) = none := findSome?_eq_none_iff.mpr hstops.before
    rw [firstFailure?, findSome?_of_judged ho hv hstops.judged, hstops.guard, findSome?_lacking, hstops.split,
      findSome?_append, hbefore, findSome?_cons, hstops.here]
    rfl
  · refine .inr ⟨?_, _, hc.result⟩
    rw [firstFailure?, findSome?_of_judged ho hv hc.succeeds.judged, hc.succeeds.guard, findSome?_lacking,
      findSome?_eq_none_iff.mpr hc.succeeds.imports]
    rfl

end Order

/-- An expansion fails with the first reason there is, and only if there is one. -/
theorem expand_error_iff (hm : IsModule t fresh) (hv : Comparable o t) :
    (expand o t fresh).result = .error f ↔ firstFailure? o t = some f := by
  obtain ⟨f', hf', hres⟩ | ⟨hnone, s, hres⟩ := expand_failure_cases hm hv
  · rw [hf', hres]
    exact ⟨fun h => congrArg some (Except.error.inj h), fun h => congrArg Except.error (Option.some.inj h)⟩
  · rw [hnone, hres]
    exact ⟨nofun, nofun⟩

/-- A deprecation without a range of versions, before an import of a flag that is not
there. -/
def incompleteModule : Tree Mark × Mark :=
  marked (moduleOf [importing [("deprecate", "d")] "@ember/debug-tools",
    calling "d" [literal (.str "m"), literal (.bool true),
      make "ObjectExpression" [("properties", listOf [property (.str "id") (literal (.str "x"))])]],
    importing [("X", "X")] "@ember/env-flags"])

theorem expand_error_iff_incomplete :
    firstFailure? .usual incompleteModule.1 = some (.incompleteMeta "until") ∧
      (expand .usual incompleteModule.1 incompleteModule.2).result = .error (.incompleteMeta "until") := by
  have hfirst : firstFailure? .usual incompleteModule.1 = some (.incompleteMeta "until") := by decide +kernel
  exact ⟨hfirst, (expand_error_iff (by decide +kernel) fun _ _ _ _ _ => ⟨_, rfl⟩).mpr hfirst⟩

/-- A specifier that imports the empty name is passed over, so that the flag it asks for
is not missed. -/
def emptyNameModule : Tree Mark × Mark :=
  marked (moduleOf [make "ImportDeclaration"
    [("specifiers", listOf
      [make "ImportSpecifier" [("imported", identifier (.str "DEBUG")), ("local", identifier (.str "DEBUG"))],
        make "ImportSpecifier" [("imported", literal (.str "")), ("local", identifier (.str "x"))]]),
      ("source", literal (.str "@ember/env-flags"))]])

theorem expand_ok_of_emptyName :
    IsModule emptyNameModule.1 emptyNameModule.2 ∧ Table.has Options.usual.envFlags.flags "" = false ∧
      (∃ x ∈ bodyOf emptyNameModule.1, sourceOf x = Options.usual.envFlags.source ∧ "DEBUG" ∈ names x ∧
        ∃ s ∈ listAt x "specifiers", importedOf s = "") ∧
      (expand .usual emptyNameModule.1 emptyNameModule.2).result = .ok { guard := some "DEBUG", inlined := 1 } := by
  decide +kernel

end DebugGuards.Expansion
