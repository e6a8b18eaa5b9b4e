import DebugGuards.Proofs.Expansion.Calls
import DebugGuards.Proofs.Expansion.Outcome
import DebugGuards.Proofs.Expansion.Refinement

/-! Expanding twice. A module is settled if no statement calls a diagnostic, no import asks
for flags, and there is no helpers import but one that is to be kept. The expansion of a
settled module changes nothing and reports nothing, and what an expansion leaves behind is
settled: calls of diagnostics have gone under guard, where they are no statements any
more, flags are constants, and the helpers import is gone, elsewhere or kept. -/

namespace DebugGuards.Expansion

open DebugGuards.Tree Node List

variable {o : Options} {t : Tree Mark} {fresh m : Mark} {fields : Fields Mark} {body : Mark}
  {items : List (Tree Mark)} {guard : String} {x : Tree Mark}

/-- Nothing is left to expand. -/
structure Settled {α : Type} (o : Options) (t : Tree α) : Prop where
  calls : ∀ x ∈ nodesFields (programOf t).fields, isStatement x = true → ∀ n i, calledName? x = some n →
    importedAs? o (bodyOf t) n = some i → Diagnostic.ofName? (.str i) = none ∧ o.strict = false
  flags : ∀ x ∈ bodyOf t, flagsFor? o x = none
  tools : toolsOf o (bodyOf t) = [] ∨ o.helpersModule = .keep true

section Reading

variable {α β : Type}

/-- Statements with expressions that are alike call the same name. -/
theorem calledName?_eq {x : Tree α} {y : Tree β} (h : Alike (expressionOf x) (expressionOf y)) :
    calledName? y = calledName? x := by
  have hcall : ∀ {t : Tree α} {u : Tree β} {name : String}, Alike t u → name ≠ "ExpressionStatement" →
      name ≠ "EmptyStatement" → hasKind u name = hasKind t name := by
    intro t u name htu h1 h2
    cases hs : isStatement t with
    | false => exact htu.hasKind_eq hs _
    | true =>
      rw [Alike.hasKind_of_isPlain (htu.isPlain_right hs) h1 h2,
        Alike.hasKind_of_isPlain (isPlain_of_isStatement hs) h1 h2]
  rw [calledName?, calledName?, isCall, isCall, hcall h (by decide) (by decide)]
  split
  · next hc =>
    obtain ⟨h1, h2⟩ | ⟨c, d, h1, h2, hcd⟩ := h.field (Alike.not_isStatement hc (by decide)) "callee"
    · rw [h1, h2]
      rfl
    · rw [h1, h2, Option.bind_some, Option.bind_some, isIdentifier, isIdentifier, hcall hcd (by decide) (by decide)]
      split
      · next hid => rw [hcd.textAt_eq (Alike.not_isStatement hid (by decide))]
      · rfl
  · rfl

theorem calledName?_map (f : α → β) (x : Tree α) : calledName? (x.map f) = calledName? x := by
  refine calledName?_eq ?_
  have hexpr : expressionOf (x.map f) = (expressionOf x).map f := by
    rw [expressionOf, expressionOf, get?_fields_map]
    cases Table.get? x.fields "expression" with
    | none => exact (map_scalar f .null).symm
    | some v => rfl
  rw [hexpr]
  exact (alike_map f _).1

theorem toolsOf_append (xs ys : List (Tree α)) : toolsOf o (xs ++ ys) = toolsOf o xs ++ toolsOf o ys := by
  rw [toolsOf, toolsOf, toolsOf, filter_append, flatMap_append]

theorem toolsOf_of_other {xs : List (Tree α)} (h : ∀ x ∈ xs, isImport x = true → sourceOf x ≠ o.toolsSource) :
    toolsOf o xs = [] := by
  rw [toolsOf, filter_eq_nil_iff.mpr fun x hx => by simpa using h x hx, flatMap_nil]

theorem toolsOf_flatMap (f : β → List (Tree α)) (xs : List β) :
    toolsOf o (xs.flatMap f) = xs.flatMap fun x => toolsOf o (f x) := by
  induction xs with
  | nil => rfl
  | cons x xs ih => rw [flatMap_cons, flatMap_cons, toolsOf_append, ih]

theorem toolsOf_eq_flatMap (xs : List (Tree α)) : toolsOf o xs = xs.flatMap fun x => toolsOf o [x] := by
  rw [← toolsOf_flatMap, flatMap_singleton']

theorem toolsOf_alike {x : Tree α} {y : Tree β} (h : Alike x y) (hl : Legal x) : toolsOf o [y] = toolsOf o [x] := by
  rw [toolsOf, toolsOf, filter_singleton, filter_singleton, h.isImport_eq]
  cases hi : isImport x with
  | false => rfl
  | true =>
    rw [h.sourceOf_eq hl hi]
    cases sourceOf x == o.toolsSource with
    | false => rfl
    | true => exact congrArg (· ++ []) (h.named_eq hl hi)

theorem flagsFor?_alike {x : Tree α} {y : Tree β} (h : Alike x y) (hl : Legal x) : flagsFor? o y = flagsFor? o x := by
  rw [flagsFor?, flagsFor?, h.isImport_eq]
  split
  · next hi => rw [h.sourceOf_eq hl hi]
  · rfl

/-- Whether a module is settled does not depend on marks. -/
theorem Settled.of_erase (hs : Settled o t.erase) (ho : Opening t m fields body items) : Settled o t := by
  have hbody : bodyOf t.erase = (bodyOf t).map (Tree.map fun _ => ()) := bodyOf_map _ t
  have hlegal : ∀ x ∈ bodyOf t, Legal x := fun x hx => ho.legal (ho.bodyOf_eq ▸ hx)
  have htools : toolsOf o (bodyOf t.erase) = toolsOf o (bodyOf t) := by
    rw [hbody, toolsOf_eq_flatMap, toolsOf_eq_flatMap (bodyOf t), flatMap_map]
    exact flatMap_congr fun x hx => toolsOf_alike (alike_map _ x).1 (hlegal x hx)
  refine ⟨fun x hx hst n i hn hi => ?_, fun x hx => ?_, htools ▸ hs.tools⟩
  · refine hs.calls (x.map fun _ => ()) ?_ ((isStatement_map _ x).trans hst) n i ((calledName?_map _ x).trans hn) ?_
    · rw [erase, programOf_map, fields_map, nodesFields_map]
      exact mem_map_of_mem hx
    · rwa [importedAs?, htools]
  · rw [← flagsFor?_alike (alike_map (fun _ => ()) x).1 (hlegal x hx)]
    exact hs.flags _ (by rw [hbody]; exact mem_map_of_mem hx)

end Reading

section Second

theorem Settled.verdict_eq (hs : Settled o t) (ho : Opening t m fields body items) (hx : x ∈ nodesFields fields)
    (hst : isStatement x = true) : verdictOf o t x = .ok .untouched := by
  have hl : Legal x := fun n hn => ho.sound n (nodesFields_trans hx hn)
  rw [verdictOf, verdict, calledHelper_eq o t hl (isNode_of_isStatement hst)]
  cases hn : calledName? x with
  | none => rfl
  | some n =>
    rw [Option.bind_some]
    cases hi : importedAs? o (bodyOf t) n with
    | none => rfl
    | some i =>
      obtain ⟨hd, hstrict⟩ := hs.calls x (ho.fields_eq ▸ hx) hst n i hn hi
      simp only [Option.map_some, bind, Except.bind, hd, hstrict]
      rfl

theorem Settled.spares (hs : Settled o t) (ho : Opening t m fields body items) (guard : String)
    (hx : x ∈ nodesFields fields) : (rewritingOf o t guard).Spares x := by
  cases hst : isStatement x with
  | false => exact (rewritingOf o t guard).spares_of_not_isStatement hst
  | true =>
    have hv : verdict (rewritingOf o t guard).options (rewritingOf o t guard).helpers x = .ok .untouched :=
      hs.verdict_eq ho hx hst
    exact ⟨by rw [Rewriting.drops, isExpired, hv]; simp,
      fun fs => by rw [Rewriting.finish, hv]; simp [Verdict.operands]⟩

theorem withProgram_erase (ho : Opening t m fields body items) : withProgram t (programOf t).erase = t.erase := by
  rw [withProgram, programOf]
  cases ho.wraps with
  | program hfile heq => rw [if_neg (by simp [hfile]), if_neg (by simp [hfile])]
  | file k fs heq hfile _ hget =>
    subst heq
    rw [if_pos hfile, if_pos hfile, field?, Tree.fields, hget, Option.getD_some, erase_obj k]
    refine congrArg (obj ()) (Table.set_get? (t := Table.mapValues erase fs) ?_)
    rw [Table.get?_mapValues, hget]
    rfl

theorem Settled.rewrittenWith_eq (hs : Settled o t) (ho : Opening t m fields body items) (guard : String) :
    rewrittenWith o t guard ((bodyOf t).map (rewritingOf o t guard).rewrite) = t.erase := by
  have hfields : reshapeFields (rewritingOf o t guard).drops (rewritingOf o t guard).finish fields =
      Table.mapValues erase fields := by
    rw [reshapeFields_eq]
    refine map_congr_left fun e he => congrArg (Prod.mk e.1) ?_
    rw [reshapeSlot]
    split
    · rfl
    · next hk =>
      exact (reshape_of_spared _ _).2 fun n hn => hs.spares ho guard (mem_nodesFields_of he (by simpa using hk) hn)
  have hbody : (bodyOf t).map (rewritingOf o t guard).rewrite = items.map erase := by
    rw [ho.bodyOf_eq]
    refine map_congr_left fun y hy => (reshape_of_spared _ _).1 fun n hn => hs.spares ho guard ?_
    have hmeta : isMetadata "body" = false := by decide
    refine mem_nodesFields_of (Table.mem_of_get? ho.body) hmeta ?_
    rw [inside, nodesItems_eq, mem_flatMap]
    exact ⟨y, hy, hn⟩
  rw [rewrittenWith, ho.fields_eq, hfields, hbody, ← withProgram_erase ho, ho.program, erase_obj]
  refine congrArg (withProgram t) (congrArg (obj ()) (Table.set_get? ?_))
  rw [Table.get?_mapValues, ho.body, Option.map_some, erase_arr]

/-- Expanding a settled module changes nothing and reports nothing. -/
theorem Settled.expand (hs : Settled o t) (hm : IsModule t fresh) :
    ∃ fate, (expand o t fresh).result = .ok { helpersImport := fate } ∧ (expand o t fresh).tree.erase = t.erase := by
  obtain ⟨m, fields, body, items, ho⟩ := hm.opens
  have huntouched : ∀ x ∈ statementsOf o t, verdictOf o t x = .ok .untouched := by
    intro x hx
    have hst := isStatement_of_statementsOf hx
    rw [statementsOf, ho.fields_eq] at hx
    exact hs.verdict_eq ho (liveFields_subset fields hx) hst
  have hexpires : ∀ x ∈ statementsOf o t, expiresIn o t x = false := by
    intro x hx
    rw [expiresIn, isExpired, show verdict o (helpersOf o (bodyOf t)) x = _ from huntouched x hx]
    simp
  have hsites : sitesOf o t = [] := by
    refine filter_eq_nil_iff.mpr fun x hx => ?_
    rw [huntouched x hx]
    decide
  have hremaining : remainingOf o t = bodyOf t := by
    refine filter_eq_self.mpr fun x hx => ?_
    cases he : expiresIn o t x with
    | false => rfl
    | true =>
      rw [hexpires x (mem_statementsOf ho (ho.bodyOf_eq ▸ hx) (isStatement_of_expiresIn he))] at he
      cases he
  have hdebug : debugOf? o t = none := by
    cases hd : debugOf? o t with
    | none => rfl
    | some x =>
      have hflags := flagsFor?_debug hd
      rw [hs.flags x (hremaining ▸ (debugOf?_spec hd).1)] at hflags
      cases hflags
  have hmakes : makesGuard o t = false := by rw [makesGuard, hsites, isEmpty_nil, Bool.not_true, Bool.and_false]
  have hlacking : ∀ x ∈ remainingOf o t, lacking? o x = none := by
    intro x hx
    rw [lacking?, hs.flags x (hremaining ▸ hx)]
    rfl
  obtain ⟨f, met, hstops, hres, _⟩ | ⟨f, before, x, after, g, hstops, _, hres, _⟩ |
    ⟨ps, g, p, h, rs, s, s', fate, hc⟩ := expand_cases ho hm o
  · cases hstops with
    | verdict x rest split _ here =>
      rw [huntouched x (by rw [split]; simp)] at here
      cases here
    | guard _ _ here => simp [guardFailure?, hdebug, hsites] at here
  · have here := hstops.here
    rw [hlacking x (by rw [hstops.split]; simp)] at here
    cases here
  have hentries : inlinedEntries o t g = (bodyOf t).map .old := by
    rw [inlinedEntries, guardEntries, hmakes, hremaining, map_eq_flatMap]
    refine flatMap_congr fun x hx => ?_
    rw [Entry.inlined, hs.flags x hx]
  have himages : imagesOf o t g (inlinedEntries o t g) = (bodyOf t).map (rewritingOf o t g).rewrite := by
    rw [hentries, imagesOf, List.map_map]
    rfl
  refine ⟨fate, ?_, ?_⟩
  · have hcount : expiredCount o t = 0 := by
      rw [expiredCount, filter_eq_nil_iff.mpr fun x hx => by rw [hexpires x hx]; decide]
      rfl
    have hinlined : ((remainingOf o t).map (inlinedCount o)).sum = 0 := by
      have hzero : (remainingOf o t).map (inlinedCount o) = (remainingOf o t).map fun _ => 0 :=
        map_congr_left fun x hx => by rw [inlinedCount, hs.flags x (hremaining ▸ hx)]; rfl
      rw [hzero]
      simp
    rw [hc.result, reportOf, resolvedSummary, hdebug, hmakes, hsites, hcount, hinlined]
    rfl
  · rw [hc.tree, ← hs.rewrittenWith_eq ho g, ← himages]
    obtain ⟨_, herase⟩ | ⟨pre, e, post, k, fs, rs₁, rs₂, hd, himage, herase, _⟩ := hc.clean_cases
    · exact herase
    · -- A helper is declared, so that its import is kept, and reads as it did.
      obtain ⟨q, hq, _⟩ := hd.helper
      have hkeep : o.helpersModule = .keep true := hs.tools.resolve_left fun hnil => by rw [hnil] at hq; cases hq
      rw [herase, cleanedBlock, hkeep, hd.entries, imagesOf_append, append_assoc]
      dsimp only
      rw [himage]
      rfl

end Second

section First

variable {summary : Summary} {ps : List Path} {p : Patch} {w : Workspace}

/-- The imports of tools among the statements of a module. -/
def toolImports (o : Options) (t : Tree Mark) : List (Tree Mark) :=
  (bodyOf t).filter fun x => isImport x && sourceOf x == o.toolsSource

theorem calledName?_guarded (fs : List (String × Json)) (e : Json) :
    calledName? (obj () (Table.set fs "expression" (parenthesized e))) = none := by
  have hexp : expressionOf (obj () (Table.set fs "expression" (parenthesized e))) = parenthesized e := by
    rw [expressionOf, Tree.fields, Table.get?_set, if_pos rfl]
    rfl
  rw [calledName?, hexp]
  rfl

/-- A statement that went under guard calls no name, and one that stands calls no diagnostic. -/
theorem Succeeds.calls_finish (hs : Succeeds o t) (ho : Opening t m fields body items) (hm : IsModule t fresh)
    (hx : x ∈ nodesFields fields) (hnot : (rewritingOf o t guard).drops x = false)
    (hlive : isStatement x = true → x ∈ statementsOf o t)
    (hst : isStatement ((rewritingOf o t guard).finish x
      (rewrittenFields o t guard x.fields)) = true) {n i : String}
    (hn : calledName? ((rewritingOf o t guard).finish x
      (rewrittenFields o t guard x.fields)) = some n)
    (hi : importedAs? o (bodyOf t) n = some i) : Diagnostic.ofName? (.str i) = none ∧ o.strict = false := by
  have hmild : Mild t.heap (rewritingOf o t guard).drops (rewritingOf o t guard).finish :=
    Follows.mild (c := rewritingOf o t guard) (fun _ _ => .inr rfl) fun _ _ => isStatement_of_drops
  have hshows : Shows t.heap x := (layout_moduleScan ho hm o []).shows_node hx
  obtain ⟨_, _, _, hin⟩ := mem_nodesFields hx
  obtain ⟨k, fs, rfl, hnode⟩ := exists_of_mem_inside hin
  rw [Tree.fields] at hst hn
  have hself : isStatement (obj k fs) = true := by
    by_contra hother
    have halike := (hmild.alike hshows).2 hnot
    rw [reshape, if_pos hnode] at halike
    exact hother ((halike.hasKind_eq (by simpa using hother) _).symm.trans hst)
  obtain ⟨v, hv⟩ := hs.judged _ (hlive hself)
  have hverdict : verdict (rewritingOf o t guard).options (rewritingOf o t guard).helpers (obj k fs) = .ok v := hv
  rw [Rewriting.finish, hself, hverdict] at hn
  cases v with
  | expired =>
    rw [Rewriting.drops, isExpired, hself, hverdict] at hnot
    cases hnot
  | asserted | warned | deprecated =>
    simp only [if_true, Verdict.operands, calledName?_guarded] at hn
    cases hn
  | untouched =>
    have hname : calledName? (obj k fs) = some n := by
      rw [← hn]
      refine (calledName?_eq ?_).symm
      show Alike (expressionOf (obj k fs)) (expressionOf (obj () _))
      rw [expressionOf, expressionOf, Tree.fields, Tree.fields, get?_reshapeFields]
      cases hget : Table.get? fs "expression" with
      | none => exact .scalar _
      | some e =>
        rw [Option.map_some, Option.getD_some, Option.getD_some, reshapeSlot, if_neg (by decide)]
        exact (hmild.alike (hshows.field hget)).1
    have hcalled := calledHelper_eq o t (fun n hn => ho.sound n (nodesFields_trans hx hn)) hnode
    rw [hname, Option.bind_some, hi] at hcalled
    obtain ⟨_, hc | ⟨_, _, hc, hd, hstrict⟩⟩ | ⟨_, _, d, _, _, hd⟩ := verdict_ok hv
    · rw [hcalled] at hc
      cases hc
    · rw [hcalled] at hc
      cases hc
      exact ⟨hd, hstrict⟩
    · obtain ⟨_, hv, _⟩ | ⟨_, hv, _⟩ | ⟨_, hv | ⟨_, hv⟩⟩ := Diagnostic.verdict_ok hd <;> cases hv

theorem toolsOf_inlinedBlock (ho : Opening t m fields body items) (hm : IsModule t fresh)
    (htools : flagsOf? o o.toolsSource = none) (hx : x ∈ remainingOf o t) :
    toolsOf o (inlinedBlock o t guard x) = toolsOf o [x] := by
  rw [inlinedBlock]
  cases hf : flagsFor? o x with
  | none => exact toolsOf_alike (ho.alike_rewrite hm hx guard) (ho.legal (mem_items_of_remainingOf ho hx))
  | some flags =>
    have hsrc : sourceOf x ≠ o.toolsSource := by
      intro hsrc
      rw [flagsFor?_tools htools hsrc] at hf
      cases hf
    rw [toolsOf_of_other (forall_mem_singleton.mpr fun _ => hsrc)]
    refine toolsOf_of_other fun v hv hi => ?_
    rw [(constant_of_mem hv).not_isImport] at hi
    cases hi

theorem toolsOf_remainingOf : toolsOf o (remainingOf o t) = toolsOf o (bodyOf t) := by
  rw [← toolsOf_imports, ← toolsOf_imports o (bodyOf t), remainingOf, filter_filter]
  refine congrArg (toolsOf o) (filter_congr fun x hx => ?_)
  cases hi : isImport x with
  | false => rfl
  | true => simpa using (mem_filter.mp (mem_remainingOf_of_isImport (o := o) hx hi)).2

theorem toolsOf_guardConstants : toolsOf o (guardConstants o t guard) = [] := by
  rw [guardConstants]
  split <;> rfl

section

variable (hc : Completed o t fresh m fields body items summary ps guard p w) (ho : Opening t m fields body items)
  (hm : IsModule t fresh) (htools : flagsOf? o o.toolsSource = none) (hone : (toolImports o t).length ≤ 1)
include hc ho hm htools hone

/-- The tools that are imported after an expansion: none, or all if their import is kept. -/
theorem Completed.toolsOf_cases (hmodule : ∀ module, o.helpersModule = .redirect module → module ≠ o.toolsSource) :
    toolsOf o (bodyOf (expand o t fresh).tree.erase) = [] ∨
      o.helpersModule = .keep true ∧ toolsOf o (bodyOf (expand o t fresh).tree.erase) = toolsOf o (bodyOf t) := by
  have hblocks : ∀ xs ⊆ remainingOf o t, toolsOf o (xs.flatMap (inlinedBlock o t guard)) = toolsOf o xs := by
    intro xs hxs
    rw [toolsOf_flatMap, toolsOf_eq_flatMap xs]
    exact flatMap_congr fun x hx => toolsOf_inlinedBlock ho hm htools (hxs hx)
  obtain ⟨ys, herase, ⟨hnone, rfl⟩ | ⟨before, x, after, hsplit, hi, hsrc, rfl⟩⟩ := hc.exists_body ho
  · left
    rw [herase, bodyOf_rewrittenWith ho, toolsOf_append, toolsOf_guardConstants, hblocks _ (List.Subset.refl _),
      toolsOf_remainingOf, hnone]
    rfl
  have hx : x ∈ remainingOf o t := by rw [hsplit]; simp
  rw [herase, bodyOf_rewrittenWith ho]
  by_cases hkeep : o.helpersModule = .keep true
  · right
    have hblock : cleanedBlock o t x = inlinedBlock o t guard x := by
      rw [cleanedBlock, hkeep, blocks_of_tools ho htools hx hi hsrc]
    refine ⟨hkeep, ?_⟩
    rw [hblock, ← flatMap_cons, ← flatMap_append, ← hsplit, toolsOf_append, toolsOf_guardConstants,
      hblocks _ (List.Subset.refl _), toolsOf_remainingOf]
    rfl
  · left
    have hsub : ((remainingOf o t).filter fun x => isImport x && sourceOf x == o.toolsSource).length ≤ 1 :=
      (filter_sublist.filter _).length_le.trans hone
    rw [hsplit, filter_append, filter_cons_of_pos (by simp [hi, hsrc]), length_append,
      length_cons] at hsub
    have hbefore : toolsOf o before = [] := by
      rw [toolsOf, length_eq_zero_iff.mp (by omega : (before.filter _).length = 0), flatMap_nil]
    have hafter : toolsOf o after = [] := by
      rw [toolsOf, length_eq_zero_iff.mp (by omega : (after.filter _).length = 0), flatMap_nil]
    have hclean : toolsOf o (cleanedBlock o t x) = [] := by
      rw [cleanedBlock]
      split
      · next module hmod =>
        split
        · rfl
        · refine toolsOf_of_other (forall_mem_singleton.mpr fun _ => ?_)
          rw [sourceOf_redirectedTo]
          exact hmodule module hmod
      · next hmod => exact absurd hmod hkeep
      · rfl
      · rfl
    simp only [toolsOf_append, toolsOf_guardConstants, hclean, append_nil,
      hblocks before (by rw [hsplit]; exact subset_append_left ..), hbefore,
      hblocks after (by rw [hsplit]; exact fun y hy => mem_append_right _ (mem_cons_of_mem _ hy)), hafter]

theorem Completed.settled
    (hmodule : ∀ module, o.helpersModule = .redirect module → flagsOf? o module = none ∧ module ≠ o.toolsSource) :
    Settled o (expand o t fresh).tree.erase := by
  have hcases := hc.toolsOf_cases ho hm htools hone fun module hm => (hmodule module hm).2
  refine ⟨?_, fun y hy => ?_, hcases.imp_right And.left⟩
  · rcases hcases with hnil | ⟨_, hsame⟩
    · intro x _ _ n i _ hi
      rw [importedAs?, hnil] at hi
      cases hi
    · have hsame : ∀ n, importedAs? o (bodyOf (expand o t fresh).tree.erase) n = importedAs? o (bodyOf t) n := by
        intro n
        rw [importedAs?, importedAs?, hsame]
      simp only [hsame]
      refine (hc.forall_nodes ho hm (fun _ _ hst h => ?_) fun x hx hnot hlive hst n i hn hi => ?_).1
      · rw [hst] at h
        cases h
      · exact hc.succeeds.calls_finish ho hm hx hnot hlive hst hn hi
  · obtain ⟨blocks, hblocks, hbody⟩ := hc.exists_blocks ho
    rw [hbody, mem_append, mem_flatten] at hy
    rcases hy with hy | ⟨vs, hvs, hy⟩
    · rw [guardConstants] at hy
      split at hy
      · rw [mem_singleton.mp hy]
        rfl
      · cases hy
    · obtain ⟨x, hx, hb⟩ := forall₂_exists_left hblocks hvs
      exact hb.flags_eq_none ho hm hx htools (fun module hm => (hmodule module hm).1) hy

end

end First

/-- Expanding what an expansion has left behind changes nothing and reports nothing. -/
theorem expand_idempotent (hm : IsModule t fresh) (hd : Distinct t) (hone : (toolImports o t).length ≤ 1)
    (htools : flagsOf? o o.toolsSource = none)
    (hmodule : ∀ module, o.helpersModule = .redirect module → flagsOf? o module = none ∧ module ≠ o.toolsSource)
    {summary : Summary} (hok : (expand o t fresh).result = .ok summary) :
    ∃ fate, (expand o (expand o t fresh).tree (expand o t fresh).fresh).result =
        .ok { guard := none, synthesized := false, expanded := 0, removed := 0, inlined := 0, helpersImport := fate } ∧
      (expand o (expand o t fresh).tree (expand o t fresh).fresh).tree.erase = (expand o t fresh).tree.erase := by
  obtain ⟨m, fields, body, items, ho⟩ := hm.opens
  obtain ⟨ps, g, p, w, hc⟩ := exists_completed ho hm hd htools hok
  have hmodule' := hc.isModule ho hm
  obtain ⟨m', fields', body', items', ho'⟩ := hmodule'.opens
  exact ((hc.settled ho hm htools hone hmodule).of_erase ho').expand hmodule'

/-- Options that keep the helpers import, so that the bare calls left under guard refer to it. -/
def keeping : Options := { Options.usual with externalize := true, helpers := { module := .keep true } }

theorem expand_idempotent_kept :
    (expand keeping flagsModule.1 flagsModule.2).result =
        .ok { guard := some "DEBUG", expanded := 1, inlined := 2, helpersImport := some .kept } ∧
      ∃ fate, (expand keeping (expand keeping flagsModule.1 flagsModule.2).tree
          (expand keeping flagsModule.1 flagsModule.2).fresh).result =
        .ok { guard := none, synthesized := false, expanded := 0, removed := 0, inlined := 0, helpersImport := fate } ∧
      (expand keeping (expand keeping flagsModule.1 flagsModule.2).tree
          (expand keeping flagsModule.1 flagsModule.2).fresh).tree.erase =
        (expand keeping flagsModule.1 flagsModule.2).tree.erase := by
  have hok : (expand keeping flagsModule.1 flagsModule.2).result =
      .ok { guard := some "DEBUG", expanded := 1, inlined := 2, helpersImport := some .kept } := by decide +kernel
  have hmodule : ∀ module, keeping.helpersModule = .redirect module →
      flagsOf? keeping module = none ∧ module ≠ keeping.toolsSource := by
    rintro _ ⟨⟩
  exact ⟨hok, expand_idempotent (by decide +kernel) (by decide +kernel) (by decide +kernel)
    (by decide +kernel) hmodule hok⟩

end DebugGuards.Expansion
