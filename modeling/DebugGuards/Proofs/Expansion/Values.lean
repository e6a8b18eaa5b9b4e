import DebugGuards.Proofs.Expansion.Opening
import DebugGuards.Proofs.Expansion.Together

/-! Flag values show in constants only. Whatever the document, two runs whose options differ in
the values of flags give the same result and the same log, and leave documents that differ
in the values of the constants they have made. Up to the guard both runs are one; from
there on they go side by side. A document without a list of statements gives no helpers, so
nothing is ever registered, and no constant is made. -/

namespace DebugGuards.Expansion

open DebugGuards.Tree Node List

/-- A document whose objects have each field once and whose parts each have a mark of their own, below the next one. -/
structure IsDocument (t : Tree Mark) (fresh : Mark) : Prop where
  keyed : t.keyed = true
  distinct : t.marks.Nodup
  below : ∀ m : ℕ, m ∈ t.marks → m < fresh

section Documents

variable {α : Type}

/-- A settled copy has the fields of what it is a copy of. -/
theorem keyed_settle_copy {t : Tree α} (hk : t.keyed = true) (n : Mark) : (t.copy.settle n).1.keyed = true := by
  have hitems : ∀ ts : List (Tree α), (∀ t ∈ ts, ∀ n, (t.copy.settle n).1.keyed = true) → ∀ n,
      ∀ x ∈ (settleItems n (ts.map copy)).1, x.keyed = true := by
    intro ts hts
    induction ts with
    | nil => simp [settleItems]
    | cons t ts ih =>
      rw [forall_mem_cons] at hts
      intro n
      simp only [map_cons, settleItems, forall_mem_cons]
      exact ⟨hts.1 n, ih hts.2 _⟩
  induction t using induct generalizing n with
  | scalar s => rfl
  | arr m items ih =>
    have hcopy : (Tree.arr m items).copy = .arr none (items.map copy) := map_arr _ _ _
    rw [keyed_arr] at hk
    simp only [hcopy, settle]
    exact (keyed_arr _ _).mpr (hitems items (fun t ht n => ih t ht (hk t ht) n) _)
  | obj m fields ih =>
    have hcopy : (Tree.obj m fields).copy = .obj none (Table.mapValues copy fields) := map_obj _ _ _
    have hkeys : (Table.mapValues copy fields).map Prod.fst = fields.map Prod.fst := by simp [Table.mapValues]
    have hvalues : (Table.mapValues copy fields).map Prod.snd = (fields.map Prod.snd).map copy := by
      simp [Table.mapValues]
    rw [keyed_obj] at hk
    simp only [hcopy, settle, settleFields_eq, hkeys, hvalues]
    refine (keyed_obj _ _).mpr ⟨?_, fun e he => ?_⟩
    · rw [map_fst_zip (by rw [settleItems_length]; simp)]
      exact hk.1
    · refine hitems (fields.map Prod.snd) (fun t ht n => ?_) _ _ (of_mem_zip he).2
      obtain ⟨e, he, rfl⟩ := mem_map.mp ht
      exact ih e he (hk.2 e he) n

theorem isDocument_marked {t : Json} (hk : t.keyed = true) : IsDocument (marked t).1 (marked t).2 := by
  obtain ⟨hnext, hmarks⟩ := settle_copy t 0
  refine ⟨keyed_settle_copy hk 0, ?_, fun m hm => ?_⟩
  · rw [marked, hmarks]
    exact nodup_range'
  · rw [marked, hmarks, mem_range'_1] at hm
    rw [marked, hnext]
    exact hm.2

end Documents

section Invariants

variable {α β : Type} {I : State → Prop} {x x' : Work α}

/-- A step keeps an invariant, whether it succeeds or fails. -/
def Work.Stays (I : State → Prop) (x : Work α) : Prop := ∀ s, I s → I (x.result s).2

namespace Work.Stays

theorem bind {f : α → Work β} (hx : x.Stays I) (hf : ∀ a, (f a).Stays I) : (x >>= f).Stays I := by
  intro s hs
  have hnext := hx s hs
  rw [result_bind]
  cases hr : x.result s with
  | mk r t =>
    rw [hr] at hnext
    cases r with
    | error e => exact hnext
    | ok a => exact hf a t hnext

theorem pure (a : α) : (pure a : Work α).Stays I := fun _ h => h

theorem ofExcept (r : Except Failure α) : (Work.ofExcept r).Stays I := fun _ h => h

theorem look (g : Workspace → Except Failure α) : (Work.look g).Stays I := fun _ h => h

theorem forM {γ : Type} {l : List γ} {g : γ → Work PUnit} (hg : ∀ c ∈ l, (g c).Stays I) : (l.forM g).Stays I := by
  induction l with
  | nil => exact pure PUnit.unit
  | cons c l ih =>
    rw [forall_mem_cons] at hg
    exact hg.1.bind fun _ => ih hg.2

theorem mapM {γ : Type} {l : List γ} {g : γ → Work α} (hg : ∀ c ∈ l, (g c).Stays I) : (l.mapM g).Stays I := by
  induction l with
  | nil => exact pure []
  | cons c l ih =>
    rw [forall_mem_cons] at hg
    rw [mapM_cons]
    exact hg.1.bind fun _ => (ih hg.2).bind fun _ => pure _

theorem foldlM {γ : Type} {l : List γ} {g : α → γ → Work α} (hg : ∀ a c, (g a c).Stays I) (a : α) :
    (l.foldlM g a).Stays I := by
  induction l generalizing a with
  | nil => exact pure a
  | cons c l ih =>
    rw [foldlM_cons]
    exact (hg a c).bind ih

/-- One step of both runs. -/
theorem together (hx : x.Stays I) (heq : x' = x) :
    Together (fun s s' => s' = s ∧ I s) x x' fun _ s s' => s' = s ∧ I s := by
  rintro s _ ⟨rfl, hs⟩
  rw [heq]
  exact ⟨rfl, rfl, hx _ hs⟩

end Work.Stays

end Invariants

section Collecting

variable {o o' : Options} {s : State}

theorem SameButValues.collectHelpers (h : SameButValues o o') : collectHelpers o' = collectHelpers o := by
  rw [h.rest]
  rfl

theorem SameButValues.dispatchAll (h : SameButValues o o') : dispatchAll o' = dispatchAll o := by
  rw [h.rest]
  rfl

theorem SameButValues.debugImport? (h : SameButValues o o') : debugImport? o' = debugImport? o := by
  simp only [Expansion.debugImport?, h.source]

theorem SameButValues.cleanImports (h : SameButValues o o') : cleanImports o' = cleanImports o := by
  simp only [Expansion.cleanImports, h.helpersModule]

/-- Collecting the helpers adds paths and helpers, and nothing else. -/
theorem collectHelpers_stays {I : State → Prop}
    (hI : ∀ t : State, I t → ∀ ps helpers log,
      I { t with workspace := { t.workspace with paths := ps }, helpers := helpers, log := log }) :
    (Expansion.collectHelpers o).Stays I := by
  refine .bind (.bind (.look _) fun ps => .mapM fun p _ s hs => hI s hs _ _ _) fun sites =>
    .bind (.forM fun site _ => ?_) fun _ => ?_
  · refine .bind (.look _) fun x => .bind (.ofExcept _) fun source => ?_
    split
    · refine .bind (.ofExcept _) fun specifiers => .forM fun sp _ => .bind (.ofExcept _) fun key s hs => ?_
      exact hI s hs s.workspace.paths _ _
    · exact .pure _
  · exact fun s hs => hI s hs s.workspace.paths s.helpers _

end Collecting

section Bare

variable {o o' : Options} {s s' : State} {w : Workspace}

/-- What stands for the statements has no nodes in it. -/
def Bare (w : Workspace) : Prop := ∀ items, w.statements = .ok items → ∀ x ∈ items, ∃ v, x = .scalar v

/-- Nothing has been collected, and there is nothing to collect. -/
structure Idle (s : State) : Prop where
  helpers : s.helpers = []
  pending : s.pending = []
  bare : Bare s.workspace

theorem Idle.of_same (h : Idle s) (hh : s'.helpers = s.helpers) (hp : s'.pending = s.pending)
    (hw : s'.workspace.programNode = s.workspace.programNode) : Idle s' :=
  ⟨hh.trans h.helpers, hp.trans h.pending, by rw [Bare, Workspace.statements, hw]; exact h.bare⟩

/-- A field name or a letter is no statement. -/
theorem bare_of_body (hb : ∀ list items, w.programNode.require "body" ≠ .ok (.arr list items)) : Bare w := by
  intro items hs x hx
  rw [Workspace.statements] at hs
  cases hbody : w.programNode.require "body" with
  | error e => rw [hbody] at hs; cases hs
  | ok body =>
    rw [hbody] at hs
    replace hs : body.elements = .ok items := hs
    cases body with
    | arr list items => exact absurd hbody (hb list items)
    | obj m fields =>
      cases hs
      obtain ⟨e, _, rfl⟩ := mem_map.mp hx
      exact ⟨_, rfl⟩
    | scalar v =>
      cases v with
      | str text =>
        cases hs
        obtain ⟨c, _, rfl⟩ := mem_map.mp hx
        exact ⟨_, rfl⟩
      | _ => cases hs

theorem Bare.importPaths (hw : Bare w) : (∃ e, w.importPaths = .error e) ∨ w.importPaths = .ok [] := by
  rw [Workspace.importPaths]
  cases hs : w.statements with
  | error e => exact .inl ⟨e, rfl⟩
  | ok items =>
    have hnone : items.filter (fun x => hasKind x "ImportDeclaration") = [] := by
      rw [filter_eq_nil_iff]
      intro x hx
      obtain ⟨v, rfl⟩ := hw items hs x hx
      exact Bool.false_ne_true
    right
    show Except.ok ((items.filter fun x => hasKind x "ImportDeclaration").map w.statementPath) = _
    rw [hnone]
    rfl

theorem Bare.bindings (hw : Bare w) : (∃ e, w.bindings = .error e) ∨ w.bindings = .ok [] := by
  rw [Workspace.bindings]
  cases hs : w.statements with
  | error e => exact .inl ⟨e, rfl⟩
  | ok items =>
    cases items with
    | nil => exact .inr rfl
    | cons x items =>
      obtain ⟨v, rfl⟩ := hw _ hs x mem_cons_self
      exact .inl ⟨_, rfl⟩

theorem importSites_idle (h : Idle s) :
    (∃ e, importSites.result s = (.error e, s)) ∨ importSites.result s = (.ok [], s) := by
  obtain ⟨e, he⟩ | hnone := h.bare.importPaths
  · exact .inl ⟨e, result_look_bind_error he⟩
  · exact .inr (result_look_bind hnone)

theorem collectHelpers_idle : (Expansion.collectHelpers o).Stays Idle := by
  intro s hs
  rw [Expansion.collectHelpers]
  obtain ⟨e, he⟩ | hnone := importSites_idle hs
  · rw [result_bind_error he]
    exact hs
  · rw [result_bind_ok hnone]
    exact hs.of_same rfl rfl rfl

theorem dispatch_idle (site : PathId) : (dispatch o site).Stays Idle := by
  refine .bind (.look _) fun node => .bind (.ofExcept _) fun call => .bind (.ofExcept _) fun name => ?_
  split
  · exact .pure _
  · refine .bind (.ofExcept _) fun key s hs => ?_
    rw [result_get_bind, hs.helpers]
    exact hs

theorem dispatchAll_idle : (Expansion.dispatchAll o).Stays Idle := by
  refine .bind (fun s hs => hs.of_same rfl rfl rfl) fun sites => .foldlM (fun handled site => ?_) 0
  refine .bind (fun s hs => hs) fun s => ?_
  split
  · exact .pure _
  · exact .bind (dispatch_idle _) fun _ => .pure _

theorem debugImport?_idle (h : Idle s) :
    (∃ e, (Expansion.debugImport? o).result s = (.error e, s)) ∨
      (Expansion.debugImport? o).result s = (.ok none, s) := by
  rw [Expansion.debugImport?]
  obtain ⟨e, he⟩ | hnone := h.bare.bindings
  · exact .inl ⟨e, result_look_bind_error (by rw [Workspace.binding?, he]; rfl)⟩
  · exact .inr (result_look_bind (a := none) (by rw [Workspace.binding?, hnone]; rfl))

theorem finalize_idle (guard : Json) : (finalize guard).Stays Idle := by
  intro s hs
  rw [finalize, result_get_bind]
  split
  · exact hs
  · rw [result_bind_ok (result_modify ..), result_get_bind, hs.pending]
    exact ⟨hs.helpers, rfl, hs.bare⟩

theorem resolveGuard_idle (h : SameButValues o o') (summary : Summary) :
    Together (fun s s' => s' = s ∧ Idle s) (resolveGuard o summary) (resolveGuard o' summary)
      fun _ s s' => s' = s ∧ Idle s := by
  rintro _ s ⟨rfl, hs⟩
  rw [resolveGuard, resolveGuard, h.debugImport?]
  obtain ⟨e, he⟩ | hnone := debugImport?_idle (o := o) hs
  · rw [result_bind_error he, result_bind_error he]
    exact ⟨rfl, rfl, hs⟩
  · rw [result_bind_ok hnone, result_bind_ok hnone]
    cases hname : s.workspace.freshName debugFlag with
    | error e =>
      simp only
      rw [result_look_bind_error hname, result_look_bind_error hname]
      exact ⟨rfl, rfl, hs⟩
    | ok name =>
      simp only
      rw [result_look_bind hname, result_look_bind hname, result_get_bind,
        result_get_bind, hs.pending]
      exact Work.Stays.together (.bind (finalize_idle _) fun _ => .pure _) rfl _ _ ⟨rfl, hs⟩

theorem inlineImports_idle (o o' : Options) :
    Together (fun s s' => s' = s ∧ Idle s) (inlineImports o) (inlineImports o') fun _ s s' => s' = s ∧ Idle s := by
  rintro s _ ⟨rfl, hs⟩
  rw [inlineImports, inlineImports]
  obtain ⟨e, he⟩ | hnone := importSites_idle hs
  · rw [result_bind_error he, result_bind_error he]
    exact ⟨rfl, rfl, hs⟩
  · rw [result_bind_ok hnone, result_bind_ok hnone]
    exact ⟨rfl, rfl, hs⟩

/-- With nothing to collect both runs are one to the end. -/
theorem run_idle (h : SameButValues o o') (hs : Idle s) : (run o').result s = (run o).result s := by
  have hclean : Together (fun s s' => s' = s ∧ Idle s) (cleanImports o) (cleanImports o') fun _ s s' => s' = s := by
    rintro s _ ⟨rfl, -⟩
    rw [h.cleanImports]
    exact ⟨rfl, rfl⟩
  have hrun : Together (fun s s' => s' = s ∧ Idle s) (run o) (run o') fun _ s s' => s' = s := by
    refine Together.bind (collectHelpers_idle.together h.collectHelpers) (fun _ => ?_) fun _ _ _ h => h.1
    refine Together.bind (dispatchAll_idle.together h.dispatchAll) (fun handled => ?_) fun _ _ _ h => h.1
    refine Together.bind (Work.Stays.together (fun _ hs => hs) rfl) (fun t => ?_) fun _ _ _ h => h.1
    refine (resolveGuard_idle h _).bind (fun summary => ?_) fun _ _ _ h => h.1
    refine (inlineImports_idle o o').bind (fun inlined => ?_) fun _ _ _ h => h.1
    exact hclean.bind (fun fate => .pure _) fun _ _ _ h => h
  obtain ⟨hr, hstate⟩ := hrun s s ⟨rfl, hs⟩
  exact Prod.ext hr hstate

end Bare

section Runs

variable {o o' : Options} {t : Tree Mark} {fresh : Mark} {s : State} {w : Workspace}

/-- The state of both runs before the scan. -/
structure Framing (K : List Mark) (dialect : Dialect) (fresh : Mark) (s : State) : Prop where
  keeping : s.workspace.Keeping K
  pending : s.pending = []
  dialect : s.workspace.dialect = dialect
  fresh : (fresh : ℕ) ≤ s.workspace.fresh

/-- The scan is the same for both runs, and leaves states from which they can part. -/
theorem dispatchAll_start (h : SameButValues o o') (P : Int → Int → Prop) {K : List Mark} {dialect : Dialect} :
    Together (fun s s' => s' = s ∧ Framing K dialect fresh s) (Expansion.dispatchAll o) (Expansion.dispatchAll o')
      fun _ s s' => ∃ base, (fresh : ℕ) ≤ base ∧ Start P base K dialect [] s s' := by
  rintro _ s ⟨rfl, hs⟩
  rw [h.dispatchAll]
  refine ⟨rfl, ?_⟩
  cases hres : (Expansion.dispatchAll o).result s with
  | mk r t =>
    obtain ⟨S, items, rfl, hf⟩ := hs.keeping
    obtain ⟨⟨S', items', hS, hf'⟩, hdialect, hle, hoff⟩ := dispatchAll_keeps ⟨S, items, rfl, hf⟩ hs.pending hres
    refine ⟨t.workspace.fresh, Nat.le_trans hs.fresh hle, rfl, rfl, ⟨S', _, hS, hf'.twins P⟩, rfl,
      hdialect.trans hs.dialect, fun p hp => ?_, by simp⟩
    obtain ⟨⟨hlt, hsite⟩, hops⟩ := hoff p hp
    exact ⟨hlt, hsite, hops⟩

/-- From a document with a list of statements both runs go side by side. -/
theorem run_framed (h : SameButValues o o') {K : List Mark} {dialect : Dialect} :
    Together (fun s s' => s' = s ∧ Framing K dialect fresh s) (run o) (run o')
      fun _ => Ends (FlagValues o o') fresh dialect := by
  have hcollect : (Expansion.collectHelpers o).Stays (Framing K dialect fresh) := by
    refine collectHelpers_stays fun t ht ps helpers log => ⟨?_, ht.pending, ht.dialect, ht.fresh⟩
    obtain ⟨S, items, hS, hf⟩ := ht.keeping
    exact ⟨S, items, hS, hf.paths ps⟩
  have hends : ∀ {base : Mark}, (fresh : ℕ) ≤ base → ∀ s s', Ends (FlagValues o o') base dialect s s' →
      Ends (FlagValues o o') fresh dialect s s' := fun hle s s' he => ⟨he.root.mono hle, he.fresh, he.log⟩
  refine Together.bind (hcollect.together h.collectHelpers) (fun _ => ?_) ?_
  · refine (dispatchAll_start h (FlagValues o o')).bind (fun handled => ?_) fun _ s s' ⟨base, hle, hs⟩ =>
      hends hle s s' hs.to.ends
    rintro s s' ⟨base, hle, hs⟩
    have hrest : Together (Start (FlagValues o o') base K dialect []) (conclude o handled) (conclude o' handled)
        fun _ => Ends (FlagValues o o') base dialect := by
      intro s s' hs
      obtain rfl := hs.same
      rw [conclude, conclude, result_get_bind, result_get_bind]
      refine (show Together _ _ _ fun _ => Ends (FlagValues o o') base dialect from
        (resolveGuard_together h _).bind (fun summary => ?_) fun _ _ _ h => h.ends) s' s' hs
      refine (inlineImports_together h).bind (fun inlined => ?_) fun _ _ _ h => h.ends
      exact (cleanImports_together h).bind (fun fate => .pure _) fun _ _ _ h => h
    obtain ⟨hr, hend⟩ := hrest s s' hs
    exact ⟨hr, hends hle _ _ hend⟩
  · rintro e s _ ⟨rfl, hs⟩
    obtain ⟨S, items, rfl, hf⟩ := hs.keeping
    exact ⟨.inl rfl, rfl, rfl⟩

theorem expand_ok (hw : Workspace.ofTree t fresh = .ok w) :
    expand o t fresh = ⟨((run o).result { workspace := w }).1, ((run o).result { workspace := w }).2.workspace.root,
      ((run o).result { workspace := w }).2.workspace.fresh, ((run o).result { workspace := w }).2.log⟩ := by
  rw [expand, hw]
  rfl

/-- Options that differ in the values of flags give the same result, the same log and, but for the values of constants
that the run has made, the same document, whether the run succeeds or fails. -/
theorem expand_differs_in_constants (hd : IsDocument t fresh) (h : SameButValues o o') :
    (expand o' t fresh).result = (expand o t fresh).result ∧ (expand o' t fresh).log = (expand o t fresh).log ∧
      (expand o' t fresh).fresh = (expand o t fresh).fresh ∧
      DifferInConstants (FlagValues o o') (Workspace.dialectOf t) fresh (expand o t fresh).tree
        (expand o' t fresh).tree := by
  cases hw : Workspace.ofTree t fresh with
  | error e =>
    rw [expand, expand, hw]
    exact ⟨rfl, rfl, rfl, .inl rfl⟩
  | ok w =>
    rw [expand_ok hw, expand_ok hw]
    by_cases hbody : ∃ list items, w.programNode.require "body" = .ok (.arr list items)
    · obtain ⟨list, items, hbody⟩ := hbody
      obtain ⟨S, hf⟩ := framed_ofTree hd.keyed hd.distinct hd.below hw hbody
      obtain ⟨m, fields, rfl, _, _⟩ := ofTree_inv hd.distinct hw
      have hstart : Framing S.marks (Workspace.dialectOf t) fresh { workspace := opened t fresh m } :=
        ⟨⟨S, items, rfl, hf⟩, rfl, rfl, Nat.le_refl _⟩
      obtain ⟨hr, hends⟩ := run_framed h _ _ ⟨rfl, hstart⟩
      exact ⟨hr, hends.log, hends.fresh, hends.root⟩
    · have hidle : Idle { workspace := w } := ⟨rfl, rfl, bare_of_body fun list items hb => hbody ⟨list, items, hb⟩⟩
      rw [run_idle h hidle]
      exact ⟨rfl, rfl, rfl, .inl rfl⟩

end Runs

section Builds

/-- The options of a build, with one value for all flags. -/
def buildOptions (value : Int) : Options :=
  { envFlags := { flags := [("BETA", value), (debugFlag, value)] },
    features := [{ source := "app/features", flags := [("search", value)] },
      { source := "app/features", flags := [("search", 7)] }] }

theorem buildOptions_same (i j : Int) : SameButValues (buildOptions i) (buildOptions j) :=
  ⟨rfl, rfl, rfl, .cons ⟨rfl, rfl⟩ (.cons ⟨rfl, rfl⟩ .nil)⟩

/-- Flags imported under names of their own, one of them that of a helper, and calls at different depths. -/
def builtModule : Json :=
  moduleOf [importing [("BETA", "beta"), ("DEBUG", "d")] "@ember/env-flags",
    importing [("search", "warn")] "app/features",
    importing [("warn", "warn"), ("assert", "check")] "@ember/debug-tools",
    calling "warn" [literal (.str "slow")],
    make "FunctionDeclaration" [("id", identifier (.str "f")), ("params", listOf []),
      ("body", make "BlockStatement" [("body", listOf [calling "check" [identifier (.str "beta")]])])]]

theorem expand_differs_in_constants_built :
    IsDocument (marked builtModule).1 (marked builtModule).2 ∧ SameButValues (buildOptions 1) (buildOptions 0) ∧
      (expand (buildOptions 1) (marked builtModule).1 (marked builtModule).2).result =
        .ok
          { guard := some "_DEBUG", synthesized := true, expanded := 2, inlined := 3,
            helpersImport := some .removed } ∧
      (expand (buildOptions 0) (marked builtModule).1 (marked builtModule).2).tree ≠
        (expand (buildOptions 1) (marked builtModule).1 (marked builtModule).2).tree ∧
      (expand (buildOptions 0) (marked builtModule).1 (marked builtModule).2).result =
        (expand (buildOptions 1) (marked builtModule).1 (marked builtModule).2).result ∧
      (expand (buildOptions 0) (marked builtModule).1 (marked builtModule).2).log =
        (expand (buildOptions 1) (marked builtModule).1 (marked builtModule).2).log ∧
      (expand (buildOptions 0) (marked builtModule).1 (marked builtModule).2).fresh =
        (expand (buildOptions 1) (marked builtModule).1 (marked builtModule).2).fresh ∧
      DifferInConstants (FlagValues (buildOptions 1) (buildOptions 0)) (Workspace.dialectOf (marked builtModule).1)
        (marked builtModule).2 (expand (buildOptions 1) (marked builtModule).1 (marked builtModule).2).tree
        (expand (buildOptions 0) (marked builtModule).1 (marked builtModule).2).tree := by
  have hd := isDocument_marked (t := builtModule) (by decide +kernel)
  exact ⟨hd, buildOptions_same 1 0, by decide +kernel, by decide +kernel,
    expand_differs_in_constants hd (buildOptions_same 1 0)⟩

end Builds

end DebugGuards.Expansion
