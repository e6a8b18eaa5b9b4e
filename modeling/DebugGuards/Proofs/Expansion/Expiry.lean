import DebugGuards.Proofs.Expansion.Counters
import DebugGuards.Proofs.Version.Releases

/-! Deprecations from one release to the next. A deprecation is deleted if the package version
lies in the range it names. It is deleted in all later releases too, if an alternative of the
range without an upper bound is what the version satisfies; and if all alternatives have an
upper bound, there is a later release in which it is back. In the long run it is deleted just
if there is an alternative without an upper bound. -/

namespace DebugGuards.Expansion

open DebugGuards.Tree Node List

/-- The options of a package with a version. -/
def releasing (o : Options) (version : String) : Options := { o with packageVersion := some version }

variable {o : Options} {t x : Tree Mark} {fresh : Mark} {d : Deprecation} {v : String} {a : Version}

section Verdicts

theorem isReached_iff (ha : Version.parse v.toList = some a) :
    isReached (releasing o v) d = .ok true ↔ ∃ r, Version.Range.parse d.till.toList = .ok r ∧ r.holds a = true := by
  have hne : v ≠ "" := by
    rintro rfl
    cases ha
  simp only [isReached, releasing, hne, if_false, Version.satisfies, ha, Version.ofOption, bind, Except.bind]
  cases Version.Range.parse d.till.toList with
  | error f => cases f <;> simp
  | ok r => simp [pure, Except.pure]

/-- A statement that expires is a deprecation, and it expires whenever its range is reached. -/
theorem exists_deprecation (he : expiresIn (releasing o v) t x = true) :
    ∃ predicate d message, readDeprecation (expressionOf x) = .ok (predicate, d, message) ∧
      ∀ u, expiresIn (releasing o u) t x = true ↔ isReached (releasing o u) d = .ok true := by
  have hst := isStatement_of_expiresIn he
  obtain ⟨h, _⟩ | ⟨name, helper, diagnostic, hcalled, hname, hverdict⟩ := verdict_ok (verdict_of_isExpired _ _ he)
  · cases h
  obtain ⟨_, h, _⟩ | ⟨_, h, _⟩ | ⟨rfl, _⟩ := Diagnostic.verdict_ok hverdict
  · cases h
  · cases h
  obtain ⟨predicate, d, message, hread, _⟩ := deprecation_verdict_ok hverdict
  refine ⟨predicate, d, message, hread, fun u => ?_⟩
  have hjudged : verdict (releasing o u) (helpersOf o (bodyOf t)) x =
      Diagnostic.deprecation.verdict (releasing o u) (expressionOf x) := by
    rw [verdict, show calledHelper (helpersOf o (bodyOf t)) x = _ from hcalled]
    simp only [bind, Except.bind, hname]
  have hhelpers : helpersOf (releasing o u) (bodyOf t) = helpersOf o (bodyOf t) := rfl
  rw [expiresIn, isExpired, hst, Bool.true_and, hhelpers, hjudged, deprecation_verdict, hread]
  simp only
  rcases isReached (releasing o u) d with f | _ | _ <;> simp [Except.map]

end Verdicts

section Trees

theorem exists_live {expired : Tree Mark → Bool} (hst : isStatement x = true) (hx : x ∈ inside t) :
    ∃ y ∈ liveInside expired t, x ∈ inside y ∧ (x = y ∨ expired y = true) := by
  induction t using induct with
  | scalar s => simp [inside, nodes] at hx
  | arr m items ih =>
    rw [inside, nodesItems_eq, mem_flatMap] at hx
    obtain ⟨z, hz, hx⟩ := hx
    obtain ⟨y, hy, h⟩ := ih z hz (nodes_subset_inside z hx)
    refine ⟨y, ?_, h⟩
    rw [liveInside, liveItems_eq, mem_flatMap]
    cases z with
    | scalar | obj => exact ⟨_, hz, hy⟩
    | arr => simp [nodes] at hx
  | obj m fields ih =>
    have hself : isStatement (obj m fields) = true → obj m fields ∈ liveInside expired (obj m fields) := mem_live_self
    by_cases hgone : isStatement (obj m fields) = true ∧ expired (obj m fields) = true
    · exact ⟨_, hself hgone.1, hx, .inr hgone.2⟩
    simp only [inside, nodes] at hx
    split at hx
    · next hn =>
      rcases mem_cons.mp hx with rfl | hx
      · exact ⟨_, hself hst, mem_inside_self hn, .inl rfl⟩
      · obtain ⟨e, he, hmeta, hx⟩ := mem_nodesFields hx
        obtain ⟨y, hy, h⟩ := ih e he hx
        refine ⟨y, ?_, h⟩
        have hmem : y ∈ liveFields expired fields := by
          rw [liveFields_eq, mem_flatMap]
          exact ⟨e, he, by rw [hmeta]; exact hy⟩
        simp only [liveInside, live, hn, if_true]
        split
        · next hs =>
          rw [if_neg fun hexp => hgone ⟨hs, hexp⟩]
          exact mem_cons_of_mem _ hmem
        · exact hmem
    · cases hx

/-- The statement expires, and an expansion that ends well leaves nothing of it. -/
def Deletes (o : Options) (t : Tree Mark) (fresh : Mark) (x : Tree Mark) : Prop :=
  expiresIn o t x = true ∧ ∀ summary, (expand o t fresh).result = .ok summary →
    ∀ k ∈ x.marks, k ∉ (expand o t fresh).tree.marks

theorem deletes_iff (hm : IsModule t fresh) (hx : x ∈ nodesFields (programOf t).fields) :
    Deletes o t fresh x ↔ expiresIn o t x = true := by
  refine ⟨And.left, fun he => ⟨he, fun summary hok k hk => ?_⟩⟩
  obtain ⟨m, fields, body, items, ho⟩ := hm.opens
  obtain ⟨ps, g, p, h, rs, s, s', fate, hc, _⟩ := exists_concluded ho hm hok
  -- it is the statement or one around it that is met and goes away
  obtain ⟨e, hmem, hmeta, hin⟩ := mem_nodesFields hx
  obtain ⟨y, hy, hxy, hexp⟩ : ∃ y ∈ liveInside (expiresIn o t) e.2, x ∈ inside y ∧ (x = y ∨ expiresIn o t y = true) :=
    exists_live (isStatement_of_expiresIn he) hin
  have hmet : y ∈ statementsOf o t := by
    rw [statementsOf, liveFields_eq, mem_flatMap]
    exact ⟨e, hmem, by rw [hmeta]; exact hy⟩
  exact hc.not_mem_cleaned hmet (hexp.elim (fun h => h ▸ he) id) (marks_inside hxy hk)

end Trees

/-- A call that is deleted in a release is a deprecation with a range. If the release satisfies
an alternative without an upper bound, it is deleted in all later releases; if no alternative
is without one, it is not deleted in some later release. Whichever alternatives the release
satisfies, from some major release on it is deleted just if the range has one without an upper
bound. -/
theorem deletes_later (hm : IsModule t fresh) (hx : x ∈ nodesFields (programOf t).fields)
    (ha : Version.parse v.toList = some a) (hpre : a.pre = []) (hd : Deletes (releasing o v) t fresh x) :
    ∃ predicate d message range, readDeprecation (expressionOf x) = .ok (predicate, d, message) ∧
      Version.Range.parse d.till.toList = .ok range ∧ range.holds a = true ∧
      (∀ alternative ∈ range, Version.IsOpen alternative → (∀ c ∈ alternative, c.holds a = true) →
        ∀ w b, Version.parse (String.toList w) = some b → b.pre = [] → (a.precedence b).isLE = true →
          Deletes (releasing o w) t fresh x) ∧
      ((∀ alternative ∈ range, ¬ Version.IsOpen alternative) →
        ∃ w b, Version.parse (String.toList w) = some b ∧ b.pre = [] ∧ (a.precedence b).isLE = true ∧
          ¬ Deletes (releasing o w) t fresh x) ∧
      ∃ n, ∀ w b, Version.parse (String.toList w) = some b → b.pre = [] → n < b.major →
        (Deletes (releasing o w) t fresh x ↔ ∃ alternative ∈ range, Version.IsOpen alternative) := by
  obtain ⟨predicate, d, message, hread, hexpires⟩ := exists_deprecation hd.1
  obtain ⟨range, hrange, hholds⟩ := (isReached_iff ha).mp ((hexpires v).mp hd.1)
  have hdeletes {w : String} {b : Version} (hb : Version.parse w.toList = some b) :
      Deletes (releasing o w) t fresh x ↔ range.holds b = true := by
    rw [deletes_iff hm hx, hexpires, isReached_iff hb]
    exact ⟨fun ⟨r, hr, h⟩ => Except.ok.inj (hrange.symm.trans hr) ▸ h, fun h => ⟨range, hrange, h⟩⟩
  obtain ⟨n, hlate⟩ := range.exists_holds_iff
  refine ⟨predicate, d, message, range, hread, hrange, hholds, fun alternative hmem hopen hall w b hb hpre' hle => ?_,
    fun hcapped => ?_, n, fun w b hb hpre' hn => (hdeletes hb).trans (hlate b hpre' hn)⟩
  · rw [hdeletes hb, Version.Range.holds, any_eq_true]
    exact ⟨alternative, hmem, all_eq_true.mpr (hopen.mono hpre hpre' hle hall)⟩
  · obtain ⟨w, b, hb, hpre', hlater⟩ := Version.exists_later (max a.major n)
    obtain ⟨hmajor, hn⟩ := max_lt_iff.mp hlater
    refine ⟨w, b, hb, hpre', ?_, ?_⟩
    · rw [Version.precedence, compare_lt_iff_lt.mpr hmajor]
      rfl
    · rw [hdeletes hb, hlate b hpre' hn]
      rintro ⟨alternative, hmem, hopen⟩
      exact hcapped alternative hmem hopen

/-- A module with one deprecation. -/
def deprecatingModule (range : String) : Tree Mark :=
  (marked (moduleOf [importing [("deprecate", "deprecate")] "@ember/debug-tools",
    calling "deprecate" [literal (.str "Foo is old"), identifier (.str "isOld"), deprecating range]])).1

theorem deletes_later_atLeast :
    ∃ x ∈ nodesFields (programOf (deprecatingModule ">=2.0.0")).fields,
      Deletes (releasing .usual "2.0.0") (deprecatingModule ">=2.0.0") 100 x ∧
      Deletes (releasing .usual "3.1.0") (deprecatingModule ">=2.0.0") 100 x := by
  have hm : IsModule (deprecatingModule ">=2.0.0") 100 := by decide +kernel
  obtain ⟨x, hx, he, htill⟩ : ∃ x ∈ nodesFields (programOf (deprecatingModule ">=2.0.0")).fields,
      expiresIn (releasing .usual "2.0.0") (deprecatingModule ">=2.0.0") x = true ∧
        (readDeprecation (expressionOf x)).toOption.map (·.2.1.till) = some ">=2.0.0" := by decide +kernel
  have hd := (deletes_iff hm hx).mpr he
  obtain ⟨_, d, _, range, hread, hrange, _, hlater, _⟩ :=
    deletes_later hm hx (a := ⟨2, 0, 0, [], []⟩) (by decide +kernel) rfl hd
  rw [hread] at htill
  rw [show d.till = ">=2.0.0" from Option.some.inj htill] at hrange
  obtain rfl : [[⟨.ge, ⟨2, 0, 0, [], []⟩, false⟩]] = range := Except.ok.inj hrange
  exact ⟨x, hx, hd, hlater [⟨.ge, ⟨2, 0, 0, [], []⟩, false⟩] (mem_singleton_self _)
    (by simp [Version.IsOpen]) (by decide +kernel)
    "3.1.0" ⟨3, 1, 0, [], []⟩ (by decide +kernel) rfl (by decide)⟩

/-- A deprecation until a version is gone in this version, and is back in the next one. -/
theorem deletes_not_later :
    ∃ x ∈ nodesFields (programOf (deprecatingModule "3.0.0")).fields,
      Deletes (releasing .usual "3.0.0") (deprecatingModule "3.0.0") 100 x ∧
      ¬ Deletes (releasing .usual "3.1.0") (deprecatingModule "3.0.0") 100 x := by
  obtain ⟨x, hx, he, hok, k, hk, hleft⟩ : ∃ x ∈ nodesFields (programOf (deprecatingModule "3.0.0")).fields,
      expiresIn (releasing .usual "3.0.0") (deprecatingModule "3.0.0") x = true ∧
        (expand (releasing .usual "3.1.0") (deprecatingModule "3.0.0") 100).result.isOk = true ∧
        ∃ k ∈ x.marks, k ∈ (expand (releasing .usual "3.1.0") (deprecatingModule "3.0.0") 100).tree.marks := by
    decide +kernel
  refine ⟨x, hx, (deletes_iff (by decide +kernel) hx).mpr he, fun hd => ?_⟩
  cases hresult : (expand (releasing .usual "3.1.0") (deprecatingModule "3.0.0") 100).result with
  | error f => rw [hresult] at hok; cases hok
  | ok summary => exact hd.2 summary hresult k hk hleft

end DebugGuards.Expansion
