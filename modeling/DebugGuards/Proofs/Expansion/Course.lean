import DebugGuards.Proofs.Expansion.Opening

/-! The course of an expansion, in terms of the module alone. The statements are judged
in order until one has no verdict; then a guard is found, made or missed; then the flag
imports are inlined until one lacks a flag. Each phase leaves a document that is written
down here, the one before the guard with nothing but expired statements gone, the later
ones rewritten throughout. -/

namespace DebugGuards.Expansion

open DebugGuards.Tree Node List

section Rules
variable (o : Options) (t : Tree Mark)

/-- The rewriting of a module under a guard. -/
def rewritingOf (guard : String) : Rewriting := ⟨o, helpersOf o (bodyOf t), Workspace.dialectOf t, guard⟩

/-- The fields of a program once it is rewritten. -/
abbrev rewrittenFields (guard : String) : Fields Mark → Fields Unit :=
  reshapeFields (rewritingOf o t guard).drops (rewritingOf o t guard).finish

/-- What becomes of an expression statement of a module, or why it cannot be expanded. -/
def verdictOf (x : Tree Mark) : Except Failure Verdict := verdict o (helpersOf o (bodyOf t)) x

/-- The statement goes away. -/
def expiresIn (x : Tree Mark) : Bool := isExpired o (helpersOf o (bodyOf t)) x

/-- The statements that are judged, in order: those inside an expired one are not. -/
def statementsOf : List (Tree Mark) := liveFields (expiresIn o t) (programOf t).fields

/-- The verdict puts a statement under guard. -/
def Verdict.guards : Verdict → Bool
  | untouched | expired => false
  | asserted | warned | deprecated _ => true

/-- The statements that go under guard. -/
def sitesOf : List (Tree Mark) :=
  (statementsOf o t).filter fun x => match verdictOf o t x with
    | .ok v => v.guards
    | .error _ => false

/-- The statements of the body that stay. -/
def remainingOf : List (Tree Mark) := (bodyOf t).filter fun x => !expiresIn o t x

/-- The import that binds the debug flag, if it comes from the flags module. -/
def debugOf? : Option (Tree Mark) :=
  (declarer? (bodyOf t) debugFlag).filter fun x => isImport x && sourceOf x == o.envFlags.source

/-- Why no guard can be had: the import that binds the debug flag asks for one that the
table lacks, or a guard has to be made and the table has no value for it. -/
def guardFailure? : Option Failure :=
  match debugOf? o t with
  | some x => (missing? o.envFlags.flags x).map fun f => .unknownFlag f o.envFlags.source
  | none =>
    if (sitesOf o t).isEmpty || Table.has o.envFlags.flags debugFlag then none
    else some (.unknownFlag debugFlag o.envFlags.source)

/-- A constant has to be made for the guard. -/
def makesGuard : Bool := (debugOf? o t).isNone && !(sitesOf o t).isEmpty

/-- The name can be that of the guard: the debug flag if it is imported, and a name that
nothing declares if a constant is made. -/
structure IsGuard (guard : String) : Prop where
  reused : (debugOf? o t).isSome → guard = debugFlag
  made : makesGuard o t = true → ∀ y ∈ bodyOf t, guard ∉ names y

/-- The fields of the program without the expired ones of the statements met. -/
def standingFields (met : List (Tree Mark)) : List (String × Json) :=
  reshapeFields (fun x => decide (x.ref ∈ gone (expiresIn o t) met)) bare (programOf t).fields

/-- No node of the module declares the name, but for what is inside an expired statement. -/
def Undeclared (guard : String) : Prop := ∀ n ∈ nodesFields (standingFields o t (statementsOf o t)), guard ∉ declares n

/-- What is reported once the guard is resolved. -/
def resolvedSummary (guard : String) (expanded removed : Nat) : Summary :=
  { guard := if (debugOf? o t).isSome || makesGuard o t then some guard else none
    synthesized := makesGuard o t
    expanded := expanded
    removed := removed
    inlined := ((debugOf? o t).map fun x => (named x).length).getD 0 }

/-- What stands in front of the statements once the guard is resolved. -/
def guardEntries (guard : String) : List Entry :=
  if makesGuard o t then
    [.new (constant (.str guard) ((Workspace.dialectOf t).literal
      (.int ((Table.get? o.envFlags.flags debugFlag).getD 0))))]
  else []

/-- What has become of a statement once the guard is resolved. -/
def earlyEntries (x : Tree Mark) : List Entry :=
  if (debugOf? o t).map ref = some x.ref then
    (constantsOf (Workspace.dialectOf t) o.envFlags.flags x).map .new
  else [.old x]

/-- The entries of the body once the guard is resolved. -/
def resolvedEntries (guard : String) : List Entry :=
  guardEntries o t guard ++ (remainingOf o t).flatMap (earlyEntries o t)

/-- The entries of the body once the imports are inlined. -/
def inlinedEntries (guard : String) : List Entry :=
  guardEntries o t guard ++ (remainingOf o t).flatMap fun x => Entry.inlined o (Workspace.dialectOf t) (.old x)

/-- The document without the expired ones of the statements met. -/
def withoutExpired (met : List (Tree Mark)) : Json :=
  withProgram t (reshape (fun x => decide (x.ref ∈ gone (expiresIn o t) met)) bare (programOf t))

/-- The document rewritten, with given statements in its body. -/
def rewrittenWith (guard : String) (body : List Json) : Json :=
  withProgram t (.obj () (Table.set
    (reshapeFields (rewritingOf o t guard).drops (rewritingOf o t guard).finish (programOf t).fields)
    "body" (.arr () body)))

end Rules

/-- The scan of a module, whatever paths were made before. -/
def moduleScan (o : Options) (t : Tree Mark) (fresh m : Mark) (fields : List (String × Tree Mark)) (ps : List Path) :
    Scan :=
  scanOf o (helpersOf o (bodyOf t)) (withPaths (opened t fresh m) ps) fields

variable {o : Options} {t : Tree Mark} {fresh m : Mark} {fields : Fields Mark} {body : Mark}
  {items met : List (Tree Mark)} {ps : List Path} {x : Tree Mark} {guard : String}

section Statements

theorem Opening.fields_eq (ho : Opening t m fields body items) : (programOf t).fields = fields := by
  rw [ho.program]
  rfl

theorem names_of_isStatement {x : Tree Mark} (hx : isStatement x = true) : names x = [] := by
  rw [names, hasKind_iff.mp hx]
  rfl

theorem isStatement_of_expiresIn (hx : expiresIn o t x = true) : isStatement x = true :=
  (Bool.and_eq_true _ _ ▸ hx : isStatement x = true ∧ _).1

theorem declarer?_remainingOf (o : Options) (t : Tree Mark) (n : String) :
    declarer? (remainingOf o t) n = declarer? (bodyOf t) n := by
  rw [declarer?, declarer?, remainingOf, filter_filter]
  congr 1
  refine filter_congr fun x _ => ?_
  cases hx : expiresIn o t x with
  | false => simp
  | true => simp [names_of_isStatement (isStatement_of_expiresIn hx)]

theorem declarer?_map_old (ys : List (Tree Mark)) (n : String) :
    Entry.declarer? (ys.map .old) n = (declarer? ys n).map .old := by
  rw [Entry.declarer?, declarer?, filter_map, getLast?_map]
  rfl

theorem debug?_remainingOf (o : Options) (t : Tree Mark) :
    Entry.debug? o ((remainingOf o t).map .old) = debugOf? o t := by
  rw [Entry.debug?, debugOf?, declarer?_map_old, declarer?_remainingOf]
  cases declarer? (bodyOf t) debugFlag with
  | none => rfl
  | some x =>
    simp only [Option.map_some, Option.bind_some, Entry.import?]
    split <;> rename_i hi <;> simp [Option.filter, hi]

/-- The import of the debug flag is a statement that stays. -/
theorem debugOf?_spec (hd : debugOf? o t = some x) :
    x ∈ remainingOf o t ∧ isImport x = true ∧ sourceOf x = o.envFlags.source := by
  rw [← debug?_remainingOf] at hd
  obtain ⟨hmem, hi, hsrc⟩ := Entry.debug?_spec hd
  obtain ⟨y, hy, e⟩ := mem_map.mp hmem
  cases e
  exact ⟨hy, hi, hsrc⟩

theorem mem_statementsOf (ho : Opening t m fields body items) (hx : x ∈ items) (hs : isStatement x = true) :
    x ∈ statementsOf o t := by
  rw [statementsOf, ho.fields_eq, liveFields_eq, mem_flatMap]
  refine ⟨("body", .arr body items), Table.mem_of_get? ho.body, ?_⟩
  rw [if_neg (show ¬ isMetadata "body" = true by decide)]
  show x ∈ liveItems _ items
  rw [liveItems_eq, mem_flatMap]
  exact ⟨x, hx, mem_live_self hs⟩

theorem isStatement_of_statementsOf (hx : x ∈ statementsOf o t) : isStatement x = true := by
  obtain ⟨e, _, _, hs⟩ := mem_liveFields hx
  exact (isStatement_of_live e.2).2 x hs

theorem survivors_eq (ho : Opening t m fields body items) (hm : IsModule t fresh) :
    Standing.survivors (moduleScan o t fresh m fields ps) (statementsOf o t) items = remainingOf o t := by
  have hl := ho.layout hm o (helpersOf o (bodyOf t)) (withPaths (opened t fresh m) ps).paths
  rw [Standing.survivors, remainingOf, ho.bodyOf_eq]
  refine filter_congr fun x hx => ?_
  have hiff : x.ref ∈ gone (moduleScan o t fresh m fields ps).expired (statementsOf o t) ↔ expiresIn o t x = true := by
    rw [mem_gone]
    constructor
    · rintro ⟨y, hy, he, hr⟩
      have hyn : y ∈ nodesFields fields := by
        rw [statementsOf, ho.fields_eq] at hy
        exact liveFields_subset fields hy
      rw [← (hl.shows_node hyn).unique (hl.shows_node (hl.item_mem hx)) hr]
      exact he
    · intro he
      exact ⟨x, mem_statementsOf ho hx (isStatement_of_expiresIn he), he, rfl⟩
  cases he : expiresIn o t x with
  | false => simpa [he] using hiff
  | true => simpa [he] using hiff

end Statements

section Phases

/-- The state an expansion starts in. -/
def begun (t : Tree Mark) (fresh m : Mark) : State := { workspace := opened t fresh m }

theorem expand_eq (ho : Opening t m fields body items) {r : Except Failure Summary} {s : State}
    (hr : (run o).result (begun t fresh m) = (r, s)) :
    (expand o t fresh).result = r ∧ (expand o t fresh).tree = s.workspace.root ∧
      (expand o t fresh).fresh = s.workspace.fresh := by
  have hrun : (run o).run.run (begun t fresh m) = (r, s) := hr
  rw [expand, ho.ofTree_eq]
  simp only [begun] at hrun
  simp only [hrun, and_self]

theorem layout_moduleScan (ho : Opening t m fields body items) (hm : IsModule t fresh) (o : Options) (ps : List Path) :
    Layout (moduleScan o t fresh m fields ps) fields body items :=
  ho.layout hm o _ (withPaths (opened t fresh m) ps).paths

/-- The state after a scan that has met some statements. -/
theorem registered_of_scanned (ho : Opening t m fields body items) (hm : IsModule t fresh) {s : State} {h : Heap}
    {empty : Ref → Ref} (hs : (moduleScan o t fresh m fields ps).Scanned met s h empty)
    (hmet : met ⊆ statementsOf o t) :
    Registered (moduleScan o t fresh m fields ps) fields body items met
      ((Standing.survivors (moduleScan o t fresh m fields ps) met items).map .old) s
      ⟨gone (moduleScan o t fresh m fields ps).expired met, empty, fun _ => none⟩ h
      ((Standing.survivors (moduleScan o t fresh m fields ps) met items).map ref) := by
  have hnodes : met ⊆ nodesFields fields := by
    refine List.Subset.trans hmet ?_
    rw [statementsOf, ho.fields_eq]
    exact liveFields_subset fields
  exact ⟨Standing.ofScanned hs (layout_moduleScan ho hm o ps) hnodes, hs.apart, fun _ => rfl, hs.finalized,
    .of_forall₂ hs.pending, hs.spare⟩

/-- What an expansion does before it looks for a guard. -/
def survey (o : Options) : Work Nat := do
  collectHelpers o
  dispatchAll o

theorem run_eq_survey (o : Options) : run o = survey o >>= conclude o := by
  rw [run, survey, bind_assoc]

/-- The number of statements that expire. -/
def expiredCount (o : Options) (t : Tree Mark) : Nat := ((statementsOf o t).filter (expiresIn o t)).length

theorem operands_eq_none_iff {x : Tree Mark} {v : Verdict} (hv : verdictOf o t x = .ok v) :
    (moduleScan o t fresh m fields ps).operands x = none ↔ v.guards = false := by
  rw [Scan.operands_of_ok (c := moduleScan o t fresh m fields ps) hv, operandDrafts]
  cases v <;> simp [Verdict.operands, Verdict.guards]

theorem sites_eq (o : Options) (t : Tree Mark) (fresh m : Mark) (fields : Fields Mark) (ps : List Path)
    (met : List (Tree Mark)) :
    ((moduleScan o t fresh m fields ps).sites met).map Prod.fst = met.filter fun x =>
      match verdictOf o t x with
      | .ok v => v.guards
      | .error _ => false := by
  induction met with
  | nil => rfl
  | cons x met ih =>
    rw [Scan.sites] at ih ⊢
    rw [filterMap_cons, filter_cons]
    cases hv : verdictOf o t x with
    | error f =>
      have hnone : (moduleScan o t fresh m fields ps).operands x = none := by
        rw [Scan.operands, show verdict (moduleScan o t fresh m fields ps).options
          (moduleScan o t fresh m fields ps).helpers x = .error f from hv]
      simpa [hnone] using ih
    | ok v =>
      have hiff : (moduleScan o t fresh m fields ps).operands x = none ↔ v.guards = false := operands_eq_none_iff hv
      cases hop : (moduleScan o t fresh m fields ps).operands x with
      | none => simpa [hiff.mp hop] using ih
      | some drafts =>
        have hg : v.guards = true := by
          rw [← Bool.not_eq_false, ← hiff, hop]
          exact Option.some_ne_none _
        simpa [hg] using ih

theorem sites_statementsOf (o : Options) (t : Tree Mark) (fresh m : Mark) (fields : Fields Mark)
    (ps : List Path) :
    ((moduleScan o t fresh m fields ps).sites (statementsOf o t)).map Prod.fst = sitesOf o t := sites_eq ..

/-- The scan: it stops at the first statement that has no verdict, or all is ready for
the guard. -/
theorem result_survey (ho : Opening t m fields body items) (hm : IsModule t fresh) (o : Options) : ∃ ps,
    (∃ f s met x rest p h rs, (survey o).result (begun t fresh m) = (.error f, s) ∧
      statementsOf o t = met ++ x :: rest ∧ verdictOf o t x = .error f ∧
      Registered (moduleScan o t fresh m fields ps) fields body items met
        ((Standing.survivors (moduleScan o t fresh m fields ps) met items).map .old) s p h rs) ∨
    ∃ s p h rs, (survey o).result (begun t fresh m) = (.ok (expiredCount o t + (sitesOf o t).length), s) ∧
      s.helpers = helpersOf o (bodyOf t) ∧
      Registered (moduleScan o t fresh m fields ps) fields body items (statementsOf o t)
        ((remainingOf o t).map .old) s p h rs := by
  have hw := ho.opened hm
  obtain ⟨ps, log, hcollect⟩ := result_collectHelpers (o := o) (s := begun t fresh m) (ho.contents hm) rfl
    fun y hy => hw.models.deref_eq (hw.shows.field ho.body |>.child hy)
  rw [← ho.bodyOf_eq] at hcollect
  refine ⟨ps, ?_⟩
  have hscan := result_dispatchAll
    (s := { workspace := withPaths (opened t fresh m) ps, helpers := helpersOf o (bodyOf t), log := log })
    (hw.paths _) o rfl rfl
  have hstatements : liveFields (isExpired o (helpersOf o (bodyOf t))) fields = statementsOf o t := by
    rw [statementsOf, ho.fields_eq]
    rfl
  have hcount : (moduleScan o t fresh m fields ps).handled (statementsOf o t) =
      expiredCount o t + (sitesOf o t).length := by
    rw [← sites_statementsOf o t fresh m fields ps, length_map]
    rfl
  rcases hscan with ⟨s, h, empty, hrun, hs⟩ | ⟨f, s, h, empty, met, x, rest, hrun, hs, hlive, hx⟩
  · have hs' : (moduleScan o t fresh m fields ps).Scanned (statementsOf o t) s h empty := by
      rw [← hstatements]
      exact hs
    have hreg := registered_of_scanned ho hm hs' (List.Subset.refl _)
    rw [survivors_eq ho hm] at hreg
    refine .inr ⟨s, _, h, _, ?_, hs.helpers, hreg⟩
    rw [survey, result_bind_ok hcollect, ← hcount, ← hstatements]
    exact hrun
  · rw [hstatements] at hlive
    refine .inl ⟨f, s, met, x, rest, _, h, _, ?_, hlive, hx, registered_of_scanned ho hm hs ?_⟩
    · rw [survey, result_bind_ok hcollect]
      exact hrun
    · rw [hlive]
      exact subset_append_left ..

theorem result_run (ho : Opening t m fields body items) (hm : IsModule t fresh) (o : Options) : ∃ ps,
    (∃ f s met x rest p h rs, (run o).result (begun t fresh m) = (.error f, s) ∧
      statementsOf o t = met ++ x :: rest ∧ verdictOf o t x = .error f ∧
      Registered (moduleScan o t fresh m fields ps) fields body items met
        ((Standing.survivors (moduleScan o t fresh m fields ps) met items).map .old) s p h rs) ∨
    ∃ s p h rs, (run o).result (begun t fresh m) = (conclude o (expiredCount o t + (sitesOf o t).length)).result s ∧
      s.helpers = helpersOf o (bodyOf t) ∧
      Registered (moduleScan o t fresh m fields ps) fields body items (statementsOf o t)
        ((remainingOf o t).map .old) s p h rs := by
  obtain ⟨ps, ⟨f, s, met, x, rest, p, h, rs, hscan, hsplit, hx, hreg⟩ | ⟨s, p, h, rs, hscan, hhelpers, hreg⟩⟩ :=
    result_survey ho hm o
  · refine ⟨ps, .inl ⟨f, s, met, x, rest, p, h, rs, ?_, hsplit, hx, hreg⟩⟩
    rw [run_eq_survey]
    exact result_bind_error hscan
  · refine ⟨ps, .inr ⟨s, p, h, rs, ?_, hhelpers, hreg⟩⟩
    rw [run_eq_survey]
    exact result_bind_ok hscan

section Resolving

theorem refs_pairwise (ho : Opening t m fields body items) (hm : IsModule t fresh) :
    items.Pairwise fun a b => a.ref ≠ b.ref := by
  have hl := layout_moduleScan ho hm default []
  refine (children_pairwise (nodup_child hl.distinct hl.body_mem)).imp_of_mem fun {a b} ha _ hd e => ?_
  obtain ⟨k, _, _, rfl, _⟩ := exists_of_isNode (ho.statements a ha)
  exact hd (mem_marks_of_ref rfl) (mem_marks_of_ref e.symm)

theorem earlyEntries_of_none (hd : debugOf? o t = none) (ys : List (Tree Mark)) :
    ys.flatMap (earlyEntries o t) = ys.map .old := by
  rw [map_eq_flatMap]
  refine flatMap_congr fun y _ => ?_
  rw [earlyEntries, hd]
  rfl

theorem earlyEntries_of_ne (hd : debugOf? o t = some x) {ys : List (Tree Mark)} (hne : ∀ y ∈ ys, x.ref ≠ y.ref) :
    ys.flatMap (earlyEntries o t) = ys.map .old := by
  rw [map_eq_flatMap]
  refine flatMap_congr fun y hy => ?_
  rw [earlyEntries, hd, if_neg]
  exact fun e => hne y hy (Option.some.inj e)

theorem exists_split_debug (ho : Opening t m fields body items) (hm : IsModule t fresh) (hd : debugOf? o t = some x) :
    ∃ pre post, (remainingOf o t).map Entry.old = pre ++ .old x :: post ∧
      (remainingOf o t).flatMap (earlyEntries o t) =
        pre ++ (constantsOf (Workspace.dialectOf t) o.envFlags.flags x).map .new ++ post := by
  have hpair : (remainingOf o t).Pairwise fun a b => a.ref ≠ b.ref := by
    rw [remainingOf, ho.bodyOf_eq]
    exact (refs_pairwise ho hm).sublist filter_sublist
  obtain ⟨l₁, l₂, hl⟩ := append_of_mem (debugOf?_spec hd).1
  rw [hl, pairwise_append, pairwise_cons] at hpair
  refine ⟨l₁.map .old, l₂.map .old, by rw [hl, map_append, map_cons], ?_⟩
  rw [hl, flatMap_append, flatMap_cons,
    earlyEntries_of_ne hd fun y hy => (hpair.2.2 y hy x (mem_cons_self ..)).symm,
    earlyEntries_of_ne hd hpair.2.1.1, earlyEntries, hd, if_pos (by rfl), append_assoc]

theorem result_resolve (ho : Opening t m fields body items) (hm : IsModule t fresh) {s : State} {p : Patch} {h : Heap}
    {rs : List Ref} (hr : Registered (moduleScan o t fresh m fields ps) fields body items (statementsOf o t)
      ((remainingOf o t).map .old) s p h rs) (expanded removed : Nat) :
    (∃ f w, guardFailure? o t = some f ∧
      (resolveGuard o { expanded := expanded, removed := removed }).result s = (.error f, { s with workspace := w }) ∧
      ∀ g, Standing (moduleScan o t fresh m fields ps) fields body items (statementsOf o t) g p
        ((remainingOf o t).map .old) w h rs) ∨
    guardFailure? o t = none ∧ ∃ g w log, IsGuard o t g ∧
      (makesGuard o t = true → ∀ n ∈ nodesFields s.workspace.programNode.fields, g ∉ declares n) ∧
      (resolveGuard o { expanded := expanded, removed := removed }).result s =
        (.ok (resolvedSummary o t g expanded removed), { s with workspace := w, finalized := true, log := log }) ∧
      Rewritten (moduleScan o t fresh m fields ps) fields body items (statementsOf o t) g
        (resolvedEntries o t g) w := by
  have hsites := congrArg List.length (sites_statementsOf o t fresh m fields ps)
  rw [length_map] at hsites
  cases hd : debugOf? o t with
  | some x =>
    have hd' := (debug?_remainingOf o t).trans hd
    have hmake : makesGuard o t = false := by rw [makesGuard, hd]; rfl
    cases hmiss : missing? o.envFlags.flags x with
    | some f =>
      obtain ⟨w, hrun, hst⟩ := hr.resolve_reuse_error hd' hmiss { expanded := expanded, removed := removed }
      exact .inl ⟨_, w, by simp [guardFailure?, hd, hmiss], hrun, hst⟩
    | none =>
      obtain ⟨pre, post, hsplit, hearly⟩ := exists_split_debug ho hm hd
      rw [hsplit] at hr hd'
      obtain ⟨w, log, hrun, hst⟩ := hr.resolve_reuse hd' hmiss { expanded := expanded, removed := removed }
      refine .inr ⟨by simp [guardFailure?, hd, hmiss], debugFlag, w, log, ⟨fun _ => rfl, ?_⟩, ?_, ?_, ?_⟩
      · rw [hmake]; nofun
      · rw [hmake]; nofun
      · rw [hrun, resolvedSummary, hd, hmake]
        simp
      · rw [resolvedEntries, guardEntries, hmake, hearly]
        exact hst
  | none =>
    have hd' := (debug?_remainingOf o t).trans hd
    cases hs : sitesOf o t with
    | nil =>
      have hnil : (moduleScan o t fresh m fields ps).sites (statementsOf o t) = [] := by
        rw [← length_eq_zero_iff, hsites, hs]
        rfl
      have hmake : makesGuard o t = false := by rw [makesGuard, hd, hs]; rfl
      obtain ⟨w, log, g, hrun, hst⟩ := hr.resolve_idle hd' hnil { expanded := expanded, removed := removed }
      refine .inr ⟨by simp [guardFailure?, hd, hs], g, w, log, ⟨by rw [hd]; nofun, by rw [hmake]; nofun⟩,
        by rw [hmake]; nofun, ?_, ?_⟩
      · rw [hrun, resolvedSummary, hd, hmake]
        rfl
      · rw [resolvedEntries, guardEntries, hmake, earlyEntries_of_none hd]
        exact hst
    | cons x xs =>
      have hne : (moduleScan o t fresh m fields ps).sites (statementsOf o t) ≠ [] := by
        rw [← length_pos_iff, hsites, hs]
        exact Nat.succ_pos _
      have hmake : makesGuard o t = true := by rw [makesGuard, hd, hs]; rfl
      cases hflag : Table.get? o.envFlags.flags debugFlag with
      | none =>
        refine .inl ⟨_, s.workspace, ?_, hr.resolve_error hd' hne hflag _, hr.standing⟩
        simp [guardFailure?, hd, hs, Table.has, hflag]
      | some i =>
        obtain ⟨w, log, g, hrun, hfresh, hunseen, hst⟩ :=
          hr.resolve_make hd' hne hflag { expanded := expanded, removed := removed }
        refine .inr ⟨?_, g, w, log, ⟨by rw [hd]; nofun, fun _ y hy => ?_⟩, fun _ => hunseen, ?_, ?_⟩
        · simp [guardFailure?, hd, hs, Table.has, hflag]
        · cases he : expiresIn o t y with
          | true => simp [names_of_isStatement (isStatement_of_expiresIn he)]
          | false => exact hfresh _ (mem_map_of_mem (mem_filter.mpr ⟨hy, by rw [he]; rfl⟩))
        · rw [hrun, resolvedSummary, hd, hmake]
          rfl
        · rw [resolvedEntries, guardEntries, hmake, earlyEntries_of_none hd, hflag]
          exact hst

end Resolving

section Inlining

theorem mem_items_of_remainingOf (ho : Opening t m fields body items) (hx : x ∈ remainingOf o t) : x ∈ items := by
  rw [← ho.bodyOf_eq]
  exact (mem_filter.mp hx).1

/-- What the import of the debug flag is resolved with. -/
theorem flagsFor?_debug (hd : debugOf? o t = some x) : flagsFor? o x = some o.envFlags.flags := by
  obtain ⟨_, hi, hsrc⟩ := debugOf?_spec hd
  rw [flagsFor?, if_pos hi, flagsOf?, if_pos hsrc]

theorem lacking?_debug (hd : debugOf? o t = some x) (hg : guardFailure? o t = none) : lacking? o x = none := by
  rw [lacking?, flagsFor?_debug hd]
  simp only [guardFailure?, hd, Option.map_eq_none_iff] at hg
  simp [hg]

theorem earlyEntries_cases (ho : Opening t m fields body items) (hm : IsModule t fresh) {y : Tree Mark}
    (hy : y ∈ remainingOf o t) :
    earlyEntries o t y = [.old y] ∨
    debugOf? o t = some y ∧ earlyEntries o t y = (constantsOf (Workspace.dialectOf t) o.envFlags.flags y).map .new := by
  by_cases hd : (debugOf? o t).map ref = some y.ref
  · obtain ⟨x, hx, hr⟩ := Option.map_eq_some_iff.mp hd
    have hl := layout_moduleScan ho hm o []
    have hshow := fun {z} (hz : z ∈ remainingOf o t) => hl.shows_node (hl.item_mem (mem_items_of_remainingOf ho hz))
    obtain rfl := (hshow (debugOf?_spec hx).1).unique (hshow hy) hr
    exact .inr ⟨hx, by rw [earlyEntries, if_pos hd]⟩
  · exact .inl (by rw [earlyEntries, if_neg hd])

theorem inlined_debug (hd : debugOf? o t = some x) (d : Dialect) :
    Entry.inlined o d (.old x) = (constantsOf d o.envFlags.flags x).map .new := by
  rw [Entry.inlined, flagsFor?_debug hd]

theorem flatMap_inlined_new (o : Options) (d : Dialect) (vs : List Json) :
    (vs.map Entry.new).flatMap (Entry.inlined o d) = vs.map .new := by
  rw [flatMap_map, map_eq_flatMap]
  rfl

theorem flatMap_inlined_guardEntries (o : Options) (t : Tree Mark) (guard : String) (d : Dialect) :
    (guardEntries o t guard).flatMap (Entry.inlined o d) = guardEntries o t guard := by
  rw [guardEntries]
  split <;> rfl

section

variable (ho : Opening t m fields body items) (hm : IsModule t fresh)
include ho hm

theorem flatMap_inlined_early {ys : List (Tree Mark)} (hys : ys ⊆ remainingOf o t) :
    (ys.flatMap (earlyEntries o t)).flatMap (Entry.inlined o (Workspace.dialectOf t)) =
      ys.flatMap fun x => Entry.inlined o (Workspace.dialectOf t) (.old x) := by
  rw [flatMap_assoc]
  refine flatMap_congr fun y hy => ?_
  obtain he | ⟨hd, he⟩ := earlyEntries_cases ho hm (hys hy)
  · rw [he, flatMap_singleton]
  · rw [he, flatMap_inlined_new, inlined_debug hd]

theorem lacking?_of_early (hg : guardFailure? o t = none) {y : Tree Mark} (hy : y ∈ remainingOf o t)
    (h : ∀ e ∈ earlyEntries o t y, e.lacking? o = none) : lacking? o y = none := by
  obtain he | ⟨hd, _⟩ := earlyEntries_cases ho hm hy
  · exact h (.old y) (by rw [he]; exact mem_singleton.mpr rfl)
  · exact lacking?_debug hd hg

/-- Each name is counted once, whether its import is inlined early or late. -/
theorem sum_inlinedCount (guard : String) :
    ((debugOf? o t).map fun x => (named x).length).getD 0 +
        ((resolvedEntries o t guard).map (Entry.inlinedCount o)).sum =
      ((remainingOf o t).map (inlinedCount o)).sum := by
  have hguard : ((guardEntries o t guard).map (Entry.inlinedCount o)).sum = 0 := by
    rw [guardEntries]
    split <;> rfl
  have hold :
      (remainingOf o t).map (inlinedCount o) = ((remainingOf o t).map Entry.old).map (Entry.inlinedCount o) := by
    rw [List.map_map]
    rfl
  rw [resolvedEntries, map_append, sum_append, hguard, hold]
  cases hd : debugOf? o t with
  | none =>
    rw [earlyEntries_of_none hd]
    simp
  | some x =>
    obtain ⟨pre, post, hsplit, hearly⟩ := exists_split_debug ho hm hd
    have hnew : ∀ vs : List Json, ((vs.map Entry.new).map (Entry.inlinedCount o)).sum = 0 := by
      intro vs
      induction vs with
      | nil => rfl
      | cons v vs ih => simpa [Entry.inlinedCount] using ih
    have hx : Entry.inlinedCount o (.old x) = (named x).length := by
      rw [Entry.inlinedCount, inlinedCount, flagsFor?_debug hd]
      rfl
    rw [hsplit, hearly]
    simp only [map_append, sum_append, map_cons, sum_cons, hnew, hx, Option.map_some,
      Option.getD_some]
    omega

end

/-- Where a statement of the module stands among what statements have become. -/
theorem exists_split_old {f : Tree Mark → List Entry} (ys : List (Tree Mark))
    (hf : ∀ y ∈ ys, f y = [.old y] ∨ ∀ z, Entry.old z ∉ f y) {done rest : List Entry}
    (he : ys.flatMap f = done ++ .old x :: rest) :
    ∃ before after, ys = before ++ x :: after ∧ done = before.flatMap f ∧ rest = after.flatMap f := by
  induction ys generalizing done with
  | nil => simp at he
  | cons y ys ih =>
    rw [flatMap_cons] at he
    have hys := fun z hz => hf z (mem_cons_of_mem y hz)
    rcases append_eq_append_iff.mp he with ⟨done', rfl, he'⟩ | ⟨more, he', hrest⟩
    · obtain ⟨before, after, rfl, rfl, rfl⟩ := ih hys he'
      exact ⟨y :: before, after, rfl, by rw [flatMap_cons], rfl⟩
    · rcases hf y (mem_cons_self ..) with hy | hy
      · rw [hy] at he'
        cases done with
        | nil =>
          cases more with
          | nil => cases he'
          | cons e more =>
            cases he'
            cases hrest
            exact ⟨[], ys, rfl, rfl, rfl⟩
        | cons e done =>
          obtain ⟨rfl, hnil⟩ := List.cons.inj he'
          obtain ⟨rfl, rfl⟩ := append_eq_nil_iff.mp hnil.symm
          obtain ⟨before, after, rfl, hb, rfl⟩ := ih hys (by simpa using hrest.symm : _ = [] ++ Entry.old x :: rest)
          exact ⟨y :: before, after, rfl, by rw [flatMap_cons, ← hb, hy]; rfl, rfl⟩
      · cases more with
        | nil =>
          rw [append_nil] at he'
          obtain ⟨before, after, rfl, hb, rfl⟩ := ih hys (by simpa using hrest.symm : _ = [] ++ Entry.old x :: rest)
          exact ⟨y :: before, after, rfl, by rw [flatMap_cons, ← hb, append_nil, he'], rfl⟩
        | cons e more =>
          cases hrest
          exact absurd (by rw [he']; simp) (hy x)

theorem old_not_mem_map_new (vs : List Json) (z : Tree Mark) : Entry.old z ∉ vs.map Entry.new := by
  intro hz
  obtain ⟨_, _, e⟩ := mem_map.mp hz
  cases e

theorem exists_split_resolved (ho : Opening t m fields body items) (hm : IsModule t fresh) {done rest : List Entry}
    (he : resolvedEntries o t guard = done ++ .old x :: rest) :
    ∃ before after, remainingOf o t = before ++ x :: after ∧
      done = guardEntries o t guard ++ before.flatMap (earlyEntries o t) ∧ rest = after.flatMap (earlyEntries o t) := by
  have hf : ∀ y ∈ remainingOf o t, earlyEntries o t y = [.old y] ∨ ∀ z, Entry.old z ∉ earlyEntries o t y := by
    intro y hy
    obtain he | ⟨_, he⟩ := earlyEntries_cases ho hm hy
    · exact .inl he
    · exact .inr fun z => by rw [he]; exact old_not_mem_map_new _ z
  rw [resolvedEntries, guardEntries] at he
  rw [guardEntries]
  split at he
  · next hmake =>
    rw [if_pos hmake]
    cases done with
    | nil => cases he
    | cons e done =>
      obtain ⟨rfl, htail⟩ := List.cons.inj he
      obtain ⟨before, after, hsplit, rfl, rfl⟩ := exists_split_old _ hf htail
      exact ⟨before, after, hsplit, rfl, rfl⟩
  · next hmake =>
    rw [if_neg hmake]
    exact exists_split_old _ hf he

theorem result_inline (ho : Opening t m fields body items) (hm : IsModule t fresh) (hg : guardFailure? o t = none)
    {s : State} (hr : Rewritten (moduleScan o t fresh m fields ps) fields body items (statementsOf o t) guard
      (resolvedEntries o t guard) s.workspace) :
    ((∀ x ∈ remainingOf o t, lacking? o x = none) ∧ ∃ n w log,
      (inlineImports o).result s = (.ok n, { s with workspace := w, log := log }) ∧
      ((debugOf? o t).map fun x => (named x).length).getD 0 + n = ((remainingOf o t).map (inlinedCount o)).sum ∧
      Rewritten (moduleScan o t fresh m fields ps) fields body items (statementsOf o t) guard
        (inlinedEntries o t guard) w) ∨
    ∃ before x after f w log, remainingOf o t = before ++ x :: after ∧ (∀ y ∈ before, lacking? o y = none) ∧
      lacking? o x = some f ∧ (inlineImports o).result s = (.error f, { s with workspace := w, log := log }) ∧
      Rewritten (moduleScan o t fresh m fields ps) fields body items (statementsOf o t) guard
        (guardEntries o t guard ++ before.flatMap (fun y => Entry.inlined o (Workspace.dialectOf t) (.old y)) ++
          .old x :: after.flatMap (earlyEntries o t)) w := by
  obtain ⟨p, h, rs, hs, hcomplete⟩ := hr
  have hmem : ∀ {y}, y ∈ remainingOf o t → ∀ e ∈ earlyEntries o t y, e ∈ resolvedEntries o t guard := fun hy e he =>
    mem_append_right _ (mem_flatMap.mpr ⟨_, hy, he⟩)
  rcases hs.inlineImports (o := o) with ⟨hlack, w, h', rs', log, hrun, hst⟩ |
    ⟨done, x, rest, f, w, h', rs', log, hsplit, hlack, hx, hrun, hst⟩
  · refine .inl ⟨fun x hx => lacking?_of_early ho hm hg hx fun e he => hlack e (hmem hx e he), _, w, log, hrun,
      sum_inlinedCount ho hm guard, p, h', rs', ?_, hcomplete⟩
    rw [resolvedEntries, flatMap_append, flatMap_inlined_guardEntries] at hst
    rw [inlinedEntries, ← flatMap_inlined_early ho hm (List.Subset.refl _)]
    exact hst
  · obtain ⟨before, after, hrem, rfl, rfl⟩ := exists_split_resolved ho hm hsplit
    have hsub : before ⊆ remainingOf o t := by rw [hrem]; exact subset_append_left ..
    refine .inr ⟨before, x, after, f, w, log, hrem, fun y hy => ?_, hx, hrun, p, h', rs', ?_, hcomplete⟩
    · exact lacking?_of_early ho hm hg (hsub hy) fun e he =>
        hlack e (mem_append_right _ (mem_flatMap.mpr ⟨y, hy, he⟩))
    · rw [flatMap_append, flatMap_inlined_guardEntries] at hst
      rw [← flatMap_inlined_early ho hm hsub]
      exact hst

end Inlining

end Phases

section Documents

variable {p : Patch} {es : List Entry} {w : Workspace} {h : Heap} {rs : List Ref}

/-- What a list of entries reads as once the module is rewritten. -/
def imagesOf (o : Options) (t : Tree Mark) (guard : String) (es : List Entry) : List Json :=
  es.map (Entry.image (rewritingOf o t guard).rewrite)

section

variable (ho : Opening t m fields body items)
include ho

theorem root_erase_of_standing
    (hs : Standing (moduleScan o t fresh m fields ps) fields body items met guard p es w h rs) :
    w.root.erase =
      withProgram t (.obj () (Table.set (reshapeFields p.drops (p.finish (rewritingOf o t guard).finish) fields)
        "body" (.arr () (es.map (Entry.image (Standing.imageOf (moduleScan o t fresh m fields ps) guard p)))))) := by
  rw [hs.stage.root_erase hs.layout hs.patch hs.judged ho.wraps,
    hs.stage.value_program hs.layout hs.patch hs.judged hs.guarding, hs.map_value]
  rfl

/-- Before the guard, the fields of the program lack the expired statements only. -/
theorem fields_of_registered {guard : String}
    (hs : Standing (moduleScan o t fresh m fields ps) fields body items met guard p
      ((Standing.survivors (moduleScan o t fresh m fields ps) met items).map .old) w h rs)
    (hfree : ∀ m, p.new m = none) :
    Table.set (reshapeFields p.drops (p.finish (rewritingOf o t guard).finish) fields) "body"
      (.arr () (((Standing.survivors (moduleScan o t fresh m fields ps) met items).map Entry.old).map
        (Entry.image (Standing.imageOf (moduleScan o t fresh m fields ps) guard p)))) = standingFields o t met := by
  have hfinish : p.finish (rewritingOf o t guard).finish = bare := by
    funext x fs
    have hnone : x.mark?.bind p.new = none := by cases x.mark? <;> simp [hfree]
    rw [Patch.finish, hnone]
    rfl
  have hdrops : p.drops = fun x => decide (x.ref ∈ gone (expiresIn o t) met) := by
    funext x
    rw [Patch.drops, hs.patch.gone]
    rfl
  have hbody : Table.get? (reshapeFields p.drops bare fields) "body" =
      some (.arr () (reshapeItems p.drops bare items)) := by
    rw [get?_reshapeFields, ho.body]
    rfl
  have himages : ((Standing.survivors (moduleScan o t fresh m fields ps) met items).map Entry.old).map
      (Entry.image (Standing.imageOf (moduleScan o t fresh m fields ps) guard p)) =
        reshapeItems p.drops bare items := by
    have himage : Standing.imageOf (moduleScan o t fresh m fields ps) guard p = reshape p.drops bare := by
      rw [Standing.imageOf, show p.finish ((moduleScan o t fresh m fields ps).rewriting guard).finish =
        bare from hfinish]
    rw [List.map_map, himage, reshapeItems_eq, Standing.survivors, hdrops]
    refine congrArg (List.map _) (filter_congr fun x _ => ?_)
    exact decide_not
  rw [hfinish, himages, Table.set_get? hbody, hdrops, standingFields, ho.fields_eq]

theorem erase_of_registered {guard : String}
    (hs : Standing (moduleScan o t fresh m fields ps) fields body items met guard p
      ((Standing.survivors (moduleScan o t fresh m fields ps) met items).map .old) w h rs)
    (hfree : ∀ m, p.new m = none) : w.root.erase = withoutExpired o t met := by
  rw [root_erase_of_standing ho hs, fields_of_registered ho hs hfree, withoutExpired, standingFields,
    ho.program, reshape, if_pos (isNode_of_hasKind ho.kind)]
  rfl

theorem undeclared_of_registered (hm : IsModule t fresh) {s : State}
    (hr : Registered (moduleScan o t fresh m fields ps) fields body items (statementsOf o t)
      ((remainingOf o t).map .old) s p h rs)
    (hg : ∀ n ∈ nodesFields s.workspace.programNode.fields, guard ∉ declares n) : Undeclared o t guard := by
  have hs := hr.standing guard
  rw [← survivors_eq ho hm] at hs
  rw [Undeclared, ← fields_of_registered ho hs hr.free, ← hs.map_value]
  intro n hn
  have hfields := hs.programFields_eq
  rw [show (moduleScan o t fresh m fields ps).rewriting guard = rewritingOf o t guard from rfl] at hfields
  rw [← hfields] at hn
  change n ∈ nodesFields (Table.mapValues (Tree.map _) _) at hn
  rw [nodesFields_map] at hn
  obtain ⟨y, hy, rfl⟩ := mem_map.mp hn
  obtain ⟨gs, hc⟩ := hs.contents
  obtain ⟨hnode, hlegal⟩ := hc.node_legal (by rwa [hc.program] at hy)
  rw [declares_map _ hnode hlegal]
  exact hg y hy

theorem statementsOf_eq : statementsOf o t = liveFields (moduleScan o t fresh m fields ps).expired fields := by
  rw [statementsOf, ho.fields_eq]
  rfl

theorem reshapeFields_of_standing
    (hs : Standing (moduleScan o t fresh m fields ps) fields body items (statementsOf o t) guard p es w h rs)
    (hcomplete : Complete (moduleScan o t fresh m fields ps) (statementsOf o t) p) :
    reshapeFields p.drops (p.finish (rewritingOf o t guard).finish) fields =
      reshapeFields (rewritingOf o t guard).drops (rewritingOf o t guard).finish fields := by
  rw [reshapeFields_eq, reshapeFields_eq]
  refine map_congr_left fun e he => ?_
  rw [reshapeSlot, reshapeSlot]
  split
  · rfl
  · next hmeta =>
    refine congrArg (Prod.mk e.1) ((hs.patch.reshape_eq hs.judged.judged hcomplete
      (hs.layout.shows.child (mem_map_of_mem he))).2 ?_)
    rw [statementsOf_eq ho, liveFields_eq]
    intro x hx
    exact mem_flatMap.mpr ⟨e, he, by rwa [if_neg hmeta]⟩

theorem images_of_standing
    (hs : Standing (moduleScan o t fresh m fields ps) fields body items (statementsOf o t) guard p es w h rs)
    (hcomplete : Complete (moduleScan o t fresh m fields ps) (statementsOf o t) p) {es' : List Entry} (hes : es' ⊆ es) :
    es'.map (Entry.image (Standing.imageOf (moduleScan o t fresh m fields ps) guard p)) = imagesOf o t guard es' := by
  refine map_congr_left fun e he => ?_
  cases e with
  | new v => rfl
  | old x =>
    have hx := hs.item_mem (hes he)
    refine (hs.patch.reshape_eq hs.judged.judged hcomplete (hs.shows_old (hes he))).1 ?_ ?_
    · rw [statementsOf_eq ho, liveFields_eq]
      intro y hy
      refine mem_flatMap.mpr ⟨("body", .arr body items), Table.mem_of_get? ho.body, ?_⟩
      rw [if_neg (show ¬ isMetadata "body" = true by decide)]
      show y ∈ liveItems _ items
      rw [liveItems_eq, mem_flatMap]
      exact ⟨x, hx, hy⟩
    · refine Bool.eq_false_iff.mpr fun hexp => hs.kept x (hes he) ?_
      rw [hs.patch.gone, mem_gone]
      exact ⟨x, mem_statementsOf ho hx (isStatement_of_expiresIn hexp), hexp, rfl⟩

theorem erase_of_rewritten
    (hr : Rewritten (moduleScan o t fresh m fields ps) fields body items (statementsOf o t) guard es w) :
    w.root.erase = rewrittenWith o t guard (imagesOf o t guard es) := by
  obtain ⟨p, h, rs, hs, hcomplete⟩ := hr
  rw [root_erase_of_standing ho hs, reshapeFields_of_standing ho hs hcomplete,
    images_of_standing ho hs hcomplete (List.Subset.refl _), rewrittenWith, ho.fields_eq]

end

end Documents

section Ends

/-- An expansion that stops before the guard is resolved. -/
inductive StopsEarly (o : Options) (t : Tree Mark) (f : Failure) (met : List (Tree Mark)) : Prop
  | verdict (x : Tree Mark) (rest : List (Tree Mark)) (split : statementsOf o t = met ++ x :: rest)
      (judged : ∀ y ∈ met, ∃ v, verdictOf o t y = .ok v) (here : verdictOf o t x = .error f) : StopsEarly o t f met
  | guard (all : met = statementsOf o t) (judged : ∀ y ∈ met, ∃ v, verdictOf o t y = .ok v)
      (here : guardFailure? o t = some f) : StopsEarly o t f met

/-- An expansion that stops at an import it cannot inline. -/
structure StopsLate (o : Options) (t : Tree Mark) (f : Failure) (before : List (Tree Mark)) (x : Tree Mark)
    (after : List (Tree Mark)) : Prop where
  judged : ∀ y ∈ statementsOf o t, ∃ v, verdictOf o t y = .ok v
  guard : guardFailure? o t = none
  split : remainingOf o t = before ++ x :: after
  before : ∀ y ∈ before, lacking? o y = none
  here : lacking? o x = some f

/-- An expansion that is not stopped. -/
structure Succeeds (o : Options) (t : Tree Mark) : Prop where
  judged : ∀ y ∈ statementsOf o t, ∃ v, verdictOf o t y = .ok v
  guard : guardFailure? o t = none
  imports : ∀ y ∈ remainingOf o t, lacking? o y = none

theorem verdict_of_registered {es : List Entry} {s : State} {p : Patch} {h : Heap} {rs : List Ref}
    (hr : Registered (moduleScan o t fresh m fields ps) fields body items met es s p h rs) :
    ∀ y ∈ met, ∃ v, verdictOf o t y = .ok v :=
  fun y hy => ((hr.standing "").judged.judged y hy).verdict

theorem length_pending (hr : Registered (moduleScan o t fresh m fields ps) fields body items (statementsOf o t)
    es s p h rs) : s.pending.length = (sitesOf o t).length := by
  rw [← sites_statementsOf o t fresh m fields ps, length_map, hr.pending.length_eq]

/-- What an expansion that is not stopped reports. -/
def reportOf (o : Options) (t : Tree Mark) (guard : String) (fate : Option ImportFate) : Summary :=
  { resolvedSummary o t guard (sitesOf o t).length (expiredCount o t) with
    inlined := ((remainingOf o t).map (inlinedCount o)).sum, helpersImport := fate }

/-- The end of an expansion that is not stopped: before the helpers import is seen to, and
after it. -/
structure Concluded (o : Options) (t : Tree Mark) (fresh m : Mark) (fields : List (String × Tree Mark)) (body : Mark)
    (items : List (Tree Mark)) (ps : List Path) (guard : String) (p : Patch) (h : Heap) (rs : List Ref) (s s' : State)
    (fate : Option ImportFate) : Prop where
  opening : Opening t m fields body items
  isModule : IsModule t fresh
  succeeds : Succeeds o t
  isGuard : IsGuard o t guard
  helpers : s.helpers = helpersOf o (bodyOf t)
  standing : Standing (moduleScan o t fresh m fields ps) fields body items (statementsOf o t) guard p
    (inlinedEntries o t guard) s.workspace h rs
  complete : Complete (moduleScan o t fresh m fields ps) (statementsOf o t) p
  cleaned : (cleanImports o).result s = (.ok fate, s')
  result : (expand o t fresh).result = .ok (reportOf o t guard fate)
  tree : (expand o t fresh).tree = s'.workspace.root
  marks : (expand o t fresh).fresh = s'.workspace.fresh
  undeclared : makesGuard o t = true → Undeclared o t guard

/-- How an expansion ends. If nothing stops it, the helpers import is left to see to. -/
theorem expand_cases (ho : Opening t m fields body items) (hm : IsModule t fresh) (o : Options) :
    (∃ f met, StopsEarly o t f met ∧ (expand o t fresh).result = .error f ∧
      (expand o t fresh).tree.erase = withoutExpired o t met) ∨
    (∃ f before x after g, StopsLate o t f before x after ∧ IsGuard o t g ∧ (expand o t fresh).result = .error f ∧
      (expand o t fresh).tree.erase = rewrittenWith o t g (imagesOf o t g (guardEntries o t g ++
        before.flatMap (fun y => Entry.inlined o (Workspace.dialectOf t) (.old y)) ++
          .old x :: after.flatMap (earlyEntries o t)))) ∨
    ∃ ps g p h rs s s' fate, Concluded o t fresh m fields body items ps g p h rs s s' fate := by
  obtain ⟨ps, ⟨f, s, met, x, rest, p, h, rs, hrun, hsplit, hx, hreg⟩ | ⟨s, p, h, rs, hrun, hhelpers, hreg⟩⟩ :=
    result_run ho hm o
  · obtain ⟨hres, htree, _⟩ := expand_eq ho hrun
    refine .inl ⟨f, met, .verdict x rest hsplit (verdict_of_registered hreg) hx, hres, ?_⟩
    rw [htree, erase_of_registered ho (hreg.standing "") hreg.free]
  have hmet := verdict_of_registered hreg
  rw [conclude, result_get_bind] at hrun
  obtain ⟨f, w, hg, hres, hst⟩ | ⟨hg, g, w, log, hguard, hfresh, hres, hst⟩ :=
    result_resolve ho hm hreg s.pending.length (expiredCount o t + (sitesOf o t).length - s.pending.length)
  · rw [result_bind_error hres] at hrun
    obtain ⟨hres, htree, _⟩ := expand_eq ho hrun
    refine .inl ⟨f, statementsOf o t, .guard rfl hmet hg, hres, ?_⟩
    have hst' := hst ""
    rw [← survivors_eq ho hm] at hst'
    rw [htree, erase_of_registered ho hst' hreg.free]
  rw [result_bind_ok hres] at hrun
  obtain ⟨himports, k, w', log', hinl, hsum, hst'⟩ |
    ⟨before, x, after, f, w', log', hsplit, hbefore, hx, hinl, hst'⟩ :=
    result_inline (s := { s with workspace := w, finalized := true, log := log }) ho hm hg hst
  · rw [result_bind_ok hinl] at hrun
    obtain ⟨p', h', rs', hst', hcomplete⟩ := hst'
    obtain ⟨fate, s', hclean⟩ := Standing.cleanImports_ok (o := o)
      (s := { s with workspace := w', finalized := true, log := log' }) hst' (fun e he => by
        rw [show ({ s with workspace := w', finalized := true, log := log' } : State).helpers = _ from hhelpers] at he
        obtain ⟨q, _, rfl⟩ := mem_helpersOf he
        exact ⟨_, rfl⟩)
    rw [result_bind_ok hclean] at hrun
    obtain ⟨hres, htree, hmarks⟩ := expand_eq ho hrun
    refine .inr (.inr ⟨ps, g, p', h', rs', { s with workspace := w', finalized := true, log := log' }, s', fate, ho, hm,
      ⟨hmet, hg, himports⟩, hguard, hhelpers, hst', hcomplete, hclean, ?_, htree, hmarks,
      fun hmake => undeclared_of_registered ho hm hreg (hfresh hmake)⟩)
    rw [hres, reportOf, ← hsum, length_pending hreg, Nat.add_sub_cancel]
    rfl
  · rw [result_bind_error hinl] at hrun
    obtain ⟨hres, htree, _⟩ := expand_eq ho hrun
    refine .inr (.inl ⟨f, before, x, after, g, ⟨hmet, hg, hsplit, hbefore, hx⟩, hguard, hres, ?_⟩)
    rw [htree, erase_of_rewritten ho hst']

theorem exists_concluded (ho : Opening t m fields body items) (hm : IsModule t fresh) {summary : Summary}
    (hok : (expand o t fresh).result = .ok summary) :
    ∃ ps g p h rs s s' fate, Concluded o t fresh m fields body items ps g p h rs s s' fate ∧
      summary = reportOf o t g fate := by
  obtain ⟨f, _, _, hres, _⟩ | ⟨f, _, _, _, _, _, _, hres, _⟩ | ⟨ps, g, p, h, rs, s, s', fate, hc⟩ :=
    expand_cases ho hm o
  · rw [hok] at hres
    cases hres
  · rw [hok] at hres
    cases hres
  · exact ⟨ps, g, p, h, rs, s, s', fate, hc, Except.ok.inj (hok.symm.trans hc.result)⟩

end Ends

end DebugGuards.Expansion
