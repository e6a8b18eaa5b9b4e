import DebugGuards.Proofs.Expansion.Body

/-! What a failed expansion leaves behind. Until the guard is resolved nothing changes but
that expired statements go; from then on every statement that is to go under guard is
there already, and only imports are left to inline. So a failure leaves one of two
documents, and in neither are some of the statements rewritten and others not. -/

namespace DebugGuards.Expansion

open DebugGuards.Tree Node List

variable {o : Options} {t : Tree Mark} {fresh : Mark} {f : Failure}

/-- The document that a failure leaves behind. Either it came before the statements were
put under guard, and nothing has happened but that the expired statements met so far are
gone; or it came from an import that asks for a flag the table lacks, and everything is
rewritten, with the guard in place and the imports before that one inlined. -/
inductive LeftBehind (o : Options) (t : Tree Mark) (f : Failure) (document : Json) : Prop
  | early (met : List (Tree Mark)) (stops : StopsEarly o t f met) (initial : met <+: statementsOf o t)
      (eq : document = withoutExpired o t met) : LeftBehind o t f document
  | late (before : List (Tree Mark)) (x : Tree Mark) (after : List (Tree Mark)) (guard : String)
      (stops : StopsLate o t f before x after) (isGuard : IsGuard o t guard)
      (eq : document = rewrittenWith o t guard (guardConstants o t guard ++ before.flatMap (inlinedBlock o t guard) ++
        x.erase :: after.flatMap (earlyBlock o t guard)))
      (imports : ∀ y ∈ after, isImport y = true → debugOf? o t ≠ some y → earlyBlock o t guard y = [y.erase])
      (helpers : ∀ y ∈ bodyOf t, isImport y = true → sourceOf y = o.toolsSource → y.erase ∈ bodyOf document) :
      LeftBehind o t f document

theorem StopsEarly.initial {met : List (Tree Mark)} (hs : StopsEarly o t f met) : met <+: statementsOf o t := by
  cases hs with
  | verdict x rest split _ _ => exact ⟨x :: rest, split.symm⟩
  | guard all _ _ => exact all ▸ prefix_refl met

theorem isImport_of_flagsFor? {x : Tree Mark} {flags : Table String Int} (hx : flagsFor? o x = some flags) :
    isImport x = true := by
  rw [flagsFor?] at hx
  split at hx
  · assumption
  · cases hx

theorem isImport_of_lacking? {x : Tree Mark} (hx : lacking? o x = some f) : isImport x = true := by
  cases hflags : flagsFor? o x with
  | none => simp [lacking?, hflags] at hx
  | some flags => exact isImport_of_flagsFor? hflags

section Module
variable {m : Mark} {fields : Fields Mark} {body : Mark} {items : List (Tree Mark)} {x : Tree Mark}
  {guard : String}

theorem Opening.legal (ho : Opening t m fields body items) (hx : x ∈ items) : Legal x := fun n hn =>
  ho.sound n (mem_nodesFields_of (Table.mem_of_get? ho.body) (by decide : isMetadata "body" = false)
    (show n ∈ nodesItems items by
      rw [nodesItems_eq]
      exact mem_flatMap.mpr ⟨x, hx, inside_eq_nodes (ho.statements x hx) ▸ hn⟩))

theorem Opening.rewrite_import (ho : Opening t m fields body items) (c : Rewriting) (hx : x ∈ remainingOf o t)
    (hi : isImport x = true) : c.rewrite x = x.erase :=
  Expansion.rewrite_import c (ho.legal (mem_items_of_remainingOf ho hx)) hi

theorem mem_remainingOf_of_isImport (hx : x ∈ bodyOf t) (hi : isImport x = true) : x ∈ remainingOf o t := by
  refine mem_filter.mpr ⟨hx, ?_⟩
  rw [Bool.not_eq_true', Bool.eq_false_iff]
  intro he
  have hst := isStatement_of_expiresIn he
  rw [Alike.not_isStatement hi (by decide)] at hst
  cases hst

/-- An import of the tools module is inlined neither early nor late. -/
theorem blocks_of_tools (ho : Opening t m fields body items) (htools : flagsOf? o o.toolsSource = none)
    (hx : x ∈ remainingOf o t) (hi : isImport x = true) (hsrc : sourceOf x = o.toolsSource) (guard : String) :
    inlinedBlock o t guard x = [x.erase] := by
  have hnone : flagsFor? o x = none := by rw [flagsFor?, if_pos hi, hsrc, htools]
  rw [inlinedBlock, hnone, ho.rewrite_import _ hx hi]

theorem earlyBlock_of_import (ho : Opening t m fields body items) (hm : IsModule t fresh) (hx : x ∈ remainingOf o t)
    (hi : isImport x = true) (hd : debugOf? o t ≠ some x) (guard : String) :
    earlyBlock o t guard x = [x.erase] := by
  rw [← imagesOf_early]
  obtain he | ⟨hd', _⟩ := earlyEntries_cases ho hm hx
  · rw [he]
    exact congrArg (fun v => [v]) (ho.rewrite_import _ hx hi)
  · exact absurd hd' hd

end Module

/-- A failed expansion leaves one of two documents behind. -/
theorem expand_error_leftBehind (hm : IsModule t fresh) (htools : flagsOf? o o.toolsSource = none)
    (he : (expand o t fresh).result = .error f) : LeftBehind o t f (expand o t fresh).tree.erase := by
  obtain ⟨m, fields, body, items, ho⟩ := hm.opens
  obtain ⟨f', met, hstops, hres, htree⟩ | ⟨f', before, x, after, g, hstops, hguard, hres, htree⟩ |
    ⟨_, _, _, _, _, _, _, _, hc⟩ := expand_cases ho hm o
  · obtain rfl : f' = f := Except.error.inj (hres.symm.trans he)
    exact .early met hstops hstops.initial htree
  · obtain rfl : f' = f := Except.error.inj (hres.symm.trans he)
    have hmem : ∀ {y}, y ∈ before ∨ y = x ∨ y ∈ after → y ∈ remainingOf o t := by
      rw [hstops.split]
      simp
    have hx : (rewritingOf o t g).rewrite x = x.erase :=
      ho.rewrite_import _ (hmem (.inr (.inl rfl))) (isImport_of_lacking? hstops.here)
    have hdoc : (expand o t fresh).tree.erase = rewrittenWith o t g (guardConstants o t g ++
        before.flatMap (inlinedBlock o t g) ++ x.erase :: after.flatMap (earlyBlock o t g)) := by
      rw [htree, imagesOf_append, imagesOf_append, imagesOf_guardEntries, imagesOf_flatMap imagesOf_inlined, ← hx,
        ← imagesOf_flatMap imagesOf_early]
      rfl
    refine .late before x after g hstops hguard hdoc
      (fun y hy hi hd => earlyBlock_of_import ho hm (hmem (.inr (.inr hy))) hi hd g) fun y hy hi hsrc => ?_
    -- the failing import is not the helpers import, which stands on either side of it
    have hrem := mem_remainingOf_of_isImport (o := o) hy hi
    rw [hdoc, bodyOf_rewrittenWith ho]
    rw [hstops.split, mem_append, mem_cons] at hrem
    rcases hrem with hb | rfl | ha
    · refine mem_append_left _ (mem_append_right _ (mem_flatMap.mpr ⟨y, hb, ?_⟩))
      rw [blocks_of_tools ho htools (hmem (.inl hb)) hi hsrc]
      exact mem_singleton.mpr rfl
    · exact mem_append_right _ (mem_cons_self ..)
    · refine mem_append_right _ (mem_cons_of_mem _ (mem_flatMap.mpr ⟨y, ha, ?_⟩))
      have hd : debugOf? o t ≠ some y := by
        intro hd
        have hflags := flagsFor?_debug hd
        rw [flagsFor?, if_pos hi, hsrc, htools] at hflags
        cases hflags
      rw [earlyBlock_of_import ho hm (hmem (.inr (.inr ha))) hi hd]
      exact mem_singleton.mpr rfl
  · rw [hc.result] at he
    cases he

/-- A warning, and an import of a flag that is not there. -/
def unknownFlagModule : Tree Mark × Mark :=
  marked (moduleOf [importing [("warn", "w")] "@ember/debug-tools", calling "w" [literal (.str "m")],
    importing [("X", "X")] "@ember/env-flags"])

theorem expand_error_leftBehind_unknownFlag :
    (expand .usual unknownFlagModule.1 unknownFlagModule.2).result =
        .error (.unknownFlag "X" "@ember/env-flags") ∧
      LeftBehind .usual unknownFlagModule.1 (.unknownFlag "X" "@ember/env-flags")
        (expand .usual unknownFlagModule.1 unknownFlagModule.2).tree.erase := by
  have hres : (expand .usual unknownFlagModule.1 unknownFlagModule.2).result =
      .error (.unknownFlag "X" "@ember/env-flags") := by decide +kernel
  exact ⟨hres, expand_error_leftBehind (by decide +kernel) (by decide +kernel) hres⟩

end DebugGuards.Expansion
