import DebugGuards.Proofs.Expansion.Atomicity
import DebugGuards.Proofs.Expansion.Unshared

/-! The result of an expansion. If no name is declared twice, the first helper is declared
by the import it came from, and that import is taken out, redirected or kept; everything
else stands as the inlining left it. -/

namespace DebugGuards.Expansion

open DebugGuards.Tree Node List

variable {o : Options} {t : Tree Mark} {fresh m : Mark} {fields : Fields Mark} {body : Mark}
  {items : List (Tree Mark)} {guard n : String} {x : Tree Mark}

section Names

/-- No name is declared twice. -/
def Distinct (t : Tree Mark) : Prop := ((bodyOf t).flatMap names).Nodup

instance (t : Tree Mark) : Decidable (Distinct t) := inferInstanceAs (Decidable (List.Nodup _))

/-- The constants of an import declare names that it binds. -/
theorem named_sublist {α : Type} {y : Tree α} (hi : isImport y = true) :
    ((named y).map Prod.snd).Sublist (names y) := by
  have hnames : names y = ((listAt y "specifiers").map localOf).filter (· ≠ "") := by
    simp [names, hasKind_iff.mp hi]
  rw [hnames, named, List.map_map, filter_map]
  refine List.Sublist.map _ ?_
  refine monotone_filter_right _ fun s hs => ?_
  simp only [Bool.and_eq_true, bne_iff_ne, ne_eq] at hs
  simp [hs.2]

theorem flatMap_names_new (vs : List (String × String)) (d : Dialect) (flags : Table String Int) :
    ((vs.map fun s => (constant (.str s.2) (d.literal (.int ((Table.get? flags s.1).getD 0))) : Json)).map
      Entry.new).flatMap Entry.names = vs.map Prod.snd := by
  induction vs with
  | nil => rfl
  | cons s vs ih =>
    rw [map_cons, map_cons, flatMap_cons, map_cons, ih]
    rfl

theorem names_inlined_sublist (o : Options) (d : Dialect) (x : Tree Mark) :
    ((Entry.inlined o d (.old x)).flatMap Entry.names).Sublist (names x) := by
  rw [Entry.inlined]
  cases hf : flagsFor? o x with
  | none => simp [Entry.names]
  | some flags =>
    dsimp only
    rw [constantsOf, flatMap_names_new]
    exact named_sublist (isImport_of_flagsFor? hf)

theorem names_inlinedEntries (hd : Distinct t) (hg : IsGuard o t guard) :
    ((inlinedEntries o t guard).flatMap Entry.names).Nodup := by
  have hsub : (((remainingOf o t).flatMap fun x => Entry.inlined o (Workspace.dialectOf t) (.old x)).flatMap
      Entry.names).Sublist ((bodyOf t).flatMap names) := by
    rw [flatMap_assoc]
    exact (List.Sublist.flatMap_right _ fun x _ => names_inlined_sublist o _ x).trans (filter_sublist.flatMap _)
  rw [inlinedEntries, flatMap_append, guardEntries]
  split
  · next hmake =>
    refine nodup_cons.mpr ⟨fun hmem => ?_, hd.sublist hsub⟩
    obtain ⟨y, hy, hn⟩ := mem_flatMap.mp (hsub.subset hmem)
    exact hg.made hmake y hy hn
  · exact hd.sublist hsub

/-- If no name is declared twice, what declares a name is the only thing that does. -/
theorem filter_of_nodup {σ : Type} {f : σ → List String} {l pre post : List σ} {a : σ} (hd : (l.flatMap f).Nodup)
    (hl : l = pre ++ a :: post) (hn : n ∈ f a) : l.filter (fun b => (f b).contains n) = [a] := by
  subst hl
  rw [flatMap_append, flatMap_cons, nodup_append] at hd
  have hnone : ∀ {l : List σ}, (∀ b ∈ l, n ∉ f b) → l.filter (fun b => (f b).contains n) = [] := by
    intro l hl
    refine filter_eq_nil_iff.mpr fun b hb => ?_
    simpa using hl b hb
  have hpre : pre.filter (fun b => (f b).contains n) = [] := hnone fun b hb hn' =>
    hd.2.2 n (mem_flatMap.mpr ⟨b, hb, hn'⟩) n (mem_append_left _ hn) rfl
  have hpost : post.filter (fun b => (f b).contains n) = [] := hnone fun b hb hn' =>
    (nodup_append.mp hd.2.1).2.2 n hn n (mem_flatMap.mpr ⟨b, hb, hn'⟩) rfl
  rw [filter_append, hpre, filter_cons_of_pos (by simpa using hn), hpost]
  rfl

theorem declarer?_of_nodup {es pre post : List Entry} {e : Entry} (hd : (es.flatMap Entry.names).Nodup)
    (hes : es = pre ++ e :: post) (hn : n ∈ e.names) : Entry.declarer? es n = some e := by
  rw [Entry.declarer?, filter_of_nodup hd hes hn]
  rfl

end Names

section Fate

/-- What becomes of the helpers import. -/
def fateOf (o : Options) : ImportFate :=
  match o.helpersModule with
  | .redirect module => if module = "" then .removed else .redirected
  | .keep true => .kept
  | .keep false | .unset => .removed

/-- What stands in the place of the helpers import. -/
def cleanedBlock (o : Options) (t x : Tree Mark) : List Json :=
  match o.helpersModule with
  | .redirect module =>
    if module = "" then [] else [Standing.redirectedTo (Workspace.dialectOf t) module x]
  | .keep true => [x.erase]
  | .keep false | .unset => []

variable {c : Scan} {met : List (Tree Mark)} {p : Patch} {es pre post : List Entry} {w w' : Workspace} {h h' : Heap}
  {rs : List Ref} {k : Mark} {cell : Cell}

/-- The statements that went under guard have their chains. -/
structure Ended (c : Scan) (met : List (Tree Mark)) (guard : String) (w : Workspace) (h : Heap) : Prop where
  models : Models w h
  sites : ∀ x ∈ met, ∀ drafts, c.operands x = some drafts → ∀ m, x.ref = .part m → ∃ fs e,
    h m = some (.record fs) ∧ Table.get? fs "expression" = some e ∧ Guarded h c.base guard drafts e

theorem Standing.ended (hs : Standing c fields body items met guard p es w h rs) (hc : Complete c met p) :
    Ended c met guard w h := by
  refine ⟨hs.stage.models, fun x hx drafts hop m hr => ?_⟩
  have hj := hs.judged.judged x hx
  obtain ⟨e, he⟩ := Option.ne_none_iff_exists'.mp (hc x hx (by rw [hop]; nofun) m hr)
  obtain ⟨y, hy, drafts', hyr, hop', hg⟩ := hs.guarding m e he
  obtain rfl : y = x := (hs.judged.judged y hy).shows.unique hj.shows (hyr.trans hr.symm)
  rw [hop] at hop'
  cases hop'
  obtain ⟨_, fs, _, rfl, _⟩ := exists_of_isNode (isNode_of_isStatement hj.statement)
  cases hr
  have hne : m ≠ body := fun e => hs.layout.ref_ne_body (hs.judged.nodes hx) (e ▸ rfl)
  have hcell := hs.stage.cells m (hs.layout.ready.marks_lt hj.shows (mem_marks_of_ref rfl)) hne
  rw [hj.shows.here rfl] at hcell
  simp only [cell?, Option.map_some, Patch.cell, he, Cell.prune, Cell.under] at hcell
  exact ⟨_, e, hcell, by rw [Table.get?_set, if_pos rfl], hg⟩

/-- Writing to a part of the module that did not go under guard. -/
theorem Ended.write (he : Ended c met guard w h) (hw : Models w' h') (hwr : h.Writes w.fresh k cell h' w'.fresh)
    (hk : (k : ℕ) < c.base) (hne : ∀ x ∈ met, x.ref ≠ .part k) : Ended c met guard w' h' := by
  refine ⟨hw, fun x hx drafts hop m hr => ?_⟩
  obtain ⟨fs, e, hcell, hget, hg⟩ := he.sites x hx drafts hop m hr
  refine ⟨fs, e, hwr.cell he.models.below (fun eq => hne x hx (eq ▸ hr)) hcell, hget, ?_⟩
  exact hg.mono fun n y hn hy => hwr.cell he.models.below (Nat.ne_of_gt (Nat.lt_of_lt_of_le hk hn)) hy

end Fate

section Cleaning

variable {ps : List Path} {p : Patch} {es pre post : List Entry} {s : State} {h : Heap} {rs : List Ref}

/-- The workspace at the end: how it reads, and if the helpers import is gone, that
nothing else is. -/
structure Cleans (o : Options) (t : Tree Mark) (fresh m : Mark) (fields : List (String × Tree Mark)) (body : Mark)
    (items : List (Tree Mark)) (ps : List Path) (guard : String) (p : Patch) (pre post : List Entry) (ys : List Json)
    (fate : ImportFate) (w : Workspace) : Prop where
  erase : w.root.erase = rewrittenWith o t guard (imagesOf o t guard pre ++ ys ++ imagesOf o t guard post)
  nodup : w.root.marks.Nodup
  ended : ∃ h, Ended (moduleScan o t fresh m fields ps) (statementsOf o t) guard w h
  removed : fate = .removed → ∃ h rs, Standing (moduleScan o t fresh m fields ps) fields body items (statementsOf o t)
    guard p (pre ++ post) w h rs

/-- What a statement reads as once the module is rewritten. -/
theorem Standing.erase_eq (ho : Opening t m fields body items) {e : Entry} {y : Tree Mark}
    (hs : Standing (moduleScan o t fresh m fields ps) fields body items (statementsOf o t) guard p es s.workspace h rs)
    (hc : Complete (moduleScan o t fresh m fields ps) (statementsOf o t) p) (he : e ∈ es)
    (ha : e.At h (moduleScan o t fresh m fields ps).base y.ref) (hy : Shows h y) :
    y.erase = e.image (rewritingOf o t guard).rewrite :=
  calc y.erase = s.workspace.value y.ref := (hs.stage.models.value_ref hy).symm
    _ = e.image (imageOf (moduleScan o t fresh m fields ps) guard p) := hs.value_entry he ha
    _ = e.image (rewritingOf o t guard).rewrite :=
      singleton_inj.mp (images_of_standing ho hs hc (cons_subset.mpr ⟨he, nil_subset _⟩))

/-- A statement of the body is taken out, redirected or kept, and everything else reads as
before. -/
theorem Standing.cleanSite (ho : Opening t m fields body items) (hm : IsModule t fresh) {e : Entry}
    {rs₁ rs₂ : List Ref} {k : Mark} {fs : Fields Mark}
    (hs : Standing (moduleScan o t fresh m fields ps) fields body items (statementsOf o t) guard p (pre ++ e :: post)
      s.workspace h (rs₁ ++ .part k :: rs₂))
    (hpre : List.Forall₂ (Entry.At h (moduleScan o t fresh m fields ps).base) pre rs₁)
    (he : e.At h (moduleScan o t fresh m fields ps).base (.part k))
    (hpost : List.Forall₂ (Entry.At h (moduleScan o t fresh m fields ps).base) post rs₂)
    (hc : Complete (moduleScan o t fresh m fields ps) (statementsOf o t) p)
    (hshows : Shows h (obj k fs)) {i : PathId}
    (hpath : s.workspace.path i = Contents.place s.workspace body (obj k fs)) :
    ∃ s', (Expansion.cleanSite o.helpersModule i).result s = (.ok (some (fateOf o)), s') ∧
      s'.workspace.root.erase = rewrittenWith o t guard
        (imagesOf o t guard pre ++ cleanedBlock o t (obj k fs) ++ imagesOf o t guard post) ∧
      s'.workspace.root.marks.Nodup ∧
      (fateOf o = .removed ∧ (∃ h' rs', Standing (moduleScan o t fresh m fields ps) fields body items
          (statementsOf o t) guard p (pre ++ post) s'.workspace h' rs') ∨
        fateOf o = .kept ∧ s' = s ∨
        fateOf o = .redirected ∧ ∃ h' cs, Models s'.workspace h' ∧
          h.Writes s.workspace.fresh k (.record cs) h' s'.workspace.fresh ∧ s.workspace.SameFrame s'.workspace) := by
  have hnodup := hs.nodup_root ho.wraps hm.distinct
  have hsec := hs.secluded hpre he hpost ho.keyed
  have hleft := images_of_standing ho hs hc (subset_append_left pre (e :: post))
  have hsub : post ⊆ pre ++ e :: post := fun e he => mem_append_right _ (mem_cons_of_mem _ he)
  have hright := images_of_standing ho hs hc hsub
  have hremove : ∃ s', (removeSite i).result s =
      (.ok (some .removed), s') ∧
      s'.workspace.root.erase = rewrittenWith o t guard (imagesOf o t guard pre ++ [] ++ imagesOf o t guard post) ∧
      s'.workspace.root.marks.Nodup ∧
      ∃ h' rs', Standing (moduleScan o t fresh m fields ps) fields body items (statementsOf o t) guard p (pre ++ post)
        s'.workspace h' rs' := by
    have hnot : (obj k fs).ref ∉ rs₁ := fun hmem => hsec.others _ (mem_append_left _ hmem) (by
      rw [hs.stage.models.deref_eq hshows]
      exact mem_marks_of_ref rfl)
    obtain ⟨w', h', rs', hok, _, hs'⟩ := hs.remove hpre hpost hnot hpath
    refine ⟨{ s with workspace := w' }, result_bind_ok (result_act_ok hok), ?_,
      hs'.nodup_root ho.wraps hm.distinct, h', rs', hs'⟩
    rw [erase_of_rewritten ho ⟨p, h', rs', hs', hc⟩, imagesOf_append, append_nil]
  unfold Expansion.cleanSite
  rw [fateOf, cleanedBlock]
  cases o.helpersModule with
  | unset => exact hremove.imp fun _ h => ⟨h.1, h.2.1, h.2.2.1, .inl ⟨rfl, h.2.2.2⟩⟩
  | keep b =>
    cases b with
    | false => exact hremove.imp fun _ h => ⟨h.1, h.2.1, h.2.2.1, .inl ⟨rfl, h.2.2.2⟩⟩
    | true =>
      refine ⟨s, rfl, ?_, hnodup, .inr (.inl ⟨rfl, rfl⟩)⟩
      rw [erase_of_rewritten ho ⟨p, h, _, hs, hc⟩, imagesOf_append, append_assoc,
        hs.erase_eq ho hc (by simp) he hshows]
      rfl
  | redirect module =>
    dsimp only
    split
    · exact hremove.imp fun _ h => ⟨h.1, h.2.1, h.2.2.1, .inl ⟨rfl, h.2.2.2⟩⟩
    · obtain ⟨w', h', cs, hok, hw', hwr, hf, hd, herase⟩ := hs.redirect hpre hpost ho.wraps hsec hshows hpath module
      refine ⟨{ s with workspace := w' }, result_bind_ok (result_act_ok hok), ?_, hd hnodup,
        .inr (.inr ⟨rfl, h', cs, hw', hwr, hf⟩)⟩
      have hdialect : s.workspace.dialect = Workspace.dialectOf t := hs.stage.keeps.dialect
      rw [herase, hdialect, hleft, hright, rewrittenWith, ho.fields_eq, ← reshapeFields_of_standing ho hs hc,
        append_assoc]
      rfl

theorem Standing.cleanImport (ho : Opening t m fields body items) (hm : IsModule t fresh)
    (hs : Standing (moduleScan o t fresh m fields ps) fields body items (statementsOf o t) guard p
      (pre ++ .old x :: post) s.workspace h rs)
    (hc : Complete (moduleScan o t fresh m fields ps) (statementsOf o t) p) (hi : isImport x = true) {i : PathId}
    (hpath : s.workspace.path i = Contents.place s.workspace body x) :
    ∃ s', (Expansion.cleanSite o.helpersModule i).result s = (.ok (some (fateOf o)), s') ∧
      Cleans o t fresh m fields body items ps guard p pre post (cleanedBlock o t x) (fateOf o) s'.workspace := by
  have hmem : Entry.old x ∈ pre ++ .old x :: post := by simp
  have hshows := hs.shows_import hmem hi
  obtain ⟨k, fs, _, rfl, _⟩ := exists_of_isNode (isNode_of_hasKind hi)
  obtain ⟨rs₁, _, rs₂, hpre, rfl, hpost, rfl⟩ := forall₂_split hs.entries
  obtain ⟨s', hrun, herase, hnodup, hends⟩ := hs.cleanSite ho hm hpre rfl hpost hc hshows hpath
  refine ⟨s', hrun, herase, hnodup, ?_, fun hfate => ?_⟩
  · rcases hends with ⟨_, h', rs', hs'⟩ | ⟨_, rfl⟩ | ⟨_, h', cs, hw', hwr, _⟩
    · exact ⟨h', hs'.ended hc⟩
    · exact ⟨h, hs.ended hc⟩
    · refine ⟨h', (hs.ended hc).write hw' hwr (hs.layout.ready.marks_lt (hs.shows_old hmem) (mem_marks_of_ref rfl)) ?_⟩
      intro y hy hr
      have hst := (hs.judged.judged y hy).statement
      rw [(hs.judged.judged y hy).shows.unique (hs.shows_old hmem) hr, Alike.not_isStatement hi (by decide)] at hst
      cases hst
  · rcases hends with ⟨_, hs'⟩ | ⟨hkept, _⟩ | ⟨hredirected, _⟩
    · exact hs'
    · rw [hkept] at hfate
      cases hfate
    · rw [hredirected] at hfate
      cases hfate

theorem toolsOf_eq_nil (h : (helpersOf o (bodyOf t)).head? = none) : toolsOf o (bodyOf t) = [] := by
  have hne : ∀ (ss : List (String × String)) (table : Table Scalar Helper), table ≠ [] →
      ss.foldl enterHelper table ≠ [] := by
    intro ss
    induction ss with
    | nil => exact fun _ h => h
    | cons s ss ih => exact fun table _ => ih _ (by cases table <;> simp [enterHelper, Table.set]; split <;> simp)
  rw [head?_eq_none_iff, helpersOf] at h
  cases hts : toolsOf o (bodyOf t) with
  | nil => rfl
  | cons s ss =>
    rw [hts, foldl_cons] at h
    exact absurd h (hne ss _ (by simp [enterHelper, Table.set]))

theorem mem_toolsOf {s : String × String} (hs : s ∈ toolsOf o (bodyOf t)) :
    ∃ x ∈ bodyOf t, isImport x = true ∧ sourceOf x = o.toolsSource ∧ s ∈ named x := by
  obtain ⟨x, hx, hsx⟩ := mem_flatMap.mp hs
  obtain ⟨hmem, hi⟩ := mem_filter.mp hx
  rw [Bool.and_eq_true, beq_iff_eq] at hi
  exact ⟨x, hmem, hi.1, hi.2, hsx⟩

theorem flagsFor?_tools (ht : flagsOf? o o.toolsSource = none) (hx : sourceOf x = o.toolsSource) :
    flagsFor? o x = none := by
  rw [flagsFor?, hx, ht, ite_self]

/-- The end of an expansion that is not stopped: without helpers nothing is left to do,
and otherwise one import from the tools module is seen to. -/
structure Completed (o : Options) (t : Tree Mark) (fresh m : Mark) (fields : List (String × Tree Mark)) (body : Mark)
    (items : List (Tree Mark)) (summary : Summary) (ps : List Path) (guard : String) (p : Patch) (w : Workspace) :
    Prop where
  succeeds : Succeeds o t
  isGuard : IsGuard o t guard
  reports : ∃ removed, summary = { resolvedSummary o t guard (sitesOf o t).length removed with
    inlined := ((remainingOf o t).map (inlinedCount o)).sum, helpersImport := summary.helpersImport }
  tree : (expand o t fresh).tree = w.root
  marks : (expand o t fresh).fresh = w.fresh
  complete : Complete (moduleScan o t fresh m fields ps) (statementsOf o t) p
  ends : (toolsOf o (bodyOf t) = [] ∧ summary.helpersImport = none ∧ ∃ h rs,
      Standing (moduleScan o t fresh m fields ps) fields body items (statementsOf o t) guard p
        (inlinedEntries o t guard) w h rs) ∨
    ∃ before x after, remainingOf o t = before ++ x :: after ∧ isImport x = true ∧ sourceOf x = o.toolsSource ∧
      summary.helpersImport = some (fateOf o) ∧ Cleans o t fresh m fields body items ps guard p
        (guardEntries o t guard ++ before.flatMap fun y => Entry.inlined o (Workspace.dialectOf t) (.old y))
        (after.flatMap fun y => Entry.inlined o (Workspace.dialectOf t) (.old y)) (cleanedBlock o t x) (fateOf o) w

theorem Completed.ended {summary : Summary} {w : Workspace}
    (hc : Completed o t fresh m fields body items summary ps guard p w) :
    ∃ h, Ended (moduleScan o t fresh m fields ps) (statementsOf o t) guard w h := by
  rcases hc.ends with ⟨_, _, h, rs, hs⟩ | ⟨_, _, _, _, _, _, _, hcleans⟩
  · exact ⟨h, hs.ended hc.complete⟩
  · exact hcleans.ended

theorem Completed.nodup {summary : Summary} {w : Workspace}
    (hc : Completed o t fresh m fields body items summary ps guard p w) (ho : Opening t m fields body items)
    (hm : IsModule t fresh) : w.root.marks.Nodup := by
  rcases hc.ends with ⟨_, _, h, rs, hs⟩ | ⟨_, _, _, _, _, _, _, hcleans⟩
  · exact hs.nodup_root ho.wraps hm.distinct
  · exact hcleans.nodup

theorem guard_of_resolved (expanded removed : Nat) {g : String}
    (hg : (resolvedSummary o t guard expanded removed).guard = some g) : g = guard := by
  rw [resolvedSummary] at hg
  dsimp only at hg
  split at hg
  · exact (Option.some.inj hg).symm
  · cases hg

theorem resolved_of_guard (expanded removed : Nat) {g : String}
    (hg : (resolvedSummary o t guard expanded removed).guard = some g) :
    (debugOf? o t).isSome = true ∨ makesGuard o t = true := by
  rw [resolvedSummary] at hg
  dsimp only at hg
  split at hg
  · next h => exact (Bool.or_eq_true _ _).mp h
  · cases hg

theorem Completed.guard_eq {summary : Summary} {w : Workspace} {g : String}
    (hc : Completed o t fresh m fields body items summary ps guard p w) (hg : summary.guard = some g) : g = guard := by
  obtain ⟨removed, hreports⟩ := hc.reports
  rw [hreports] at hg
  exact guard_of_resolved (sitesOf o t).length removed hg

/-- If a statement goes under guard, the guard is reported. -/
theorem guard_of_sites (hs : sitesOf o t ≠ []) (guard : String) (expanded removed : Nat) :
    (resolvedSummary o t guard expanded removed).guard = some guard := by
  have hsome : ((debugOf? o t).isSome || makesGuard o t) = true := by
    rw [makesGuard]
    cases debugOf? o t <;> simp [hs]
  rw [resolvedSummary, if_pos hsome]

theorem Completed.guard_some {summary : Summary} {w : Workspace}
    (hc : Completed o t fresh m fields body items summary ps guard p w) (hs : sitesOf o t ≠ []) :
    summary.guard = some guard := by
  obtain ⟨removed, hreports⟩ := hc.reports
  rw [hreports]
  exact guard_of_sites hs guard (sitesOf o t).length removed

/-- If no name is declared twice, the first helper is declared by the import that brings
it, and that import is seen to. -/
theorem exists_completed (ho : Opening t m fields body items) (hm : IsModule t fresh) (hd : Distinct t)
    (htools : flagsOf? o o.toolsSource = none) {summary : Summary} (hok : (expand o t fresh).result = .ok summary) :
    ∃ ps g p w, Completed o t fresh m fields body items summary ps g p w := by
  obtain ⟨ps, g, p, h, rs, s, s', fate, ⟨_, _, hsucc, hguard, hhelpers, hs, hc, hclean, _, htree, hfresh, _⟩, rfl⟩ :=
    exists_concluded ho hm hok
  refine ⟨ps, g, p, s'.workspace, hsucc, hguard, ⟨expiredCount o t, rfl⟩, htree, hfresh, hc, ?_⟩
  cases hhead : s.helpers.head? with
  | none =>
    have hidle : (cleanImports o).result s = (.ok none, s) := by
      rw [cleanImports, result_get_bind, hhead]
      rfl
    rw [hidle] at hclean
    cases hclean
    rw [hhelpers] at hhead
    exact .inl ⟨toolsOf_eq_nil hhead, rfl, h, rs, hs⟩
  | some e =>
    obtain ⟨q, hq, rfl⟩ : ∃ q ∈ toolsOf o (bodyOf t), e = (.str q.2, ⟨.str q.2, .str q.1⟩) := by
      rw [hhelpers] at hhead
      exact mem_helpersOf (mem_of_mem_head? hhead)
    obtain ⟨x, hx, hi, hsrc, hnamed⟩ := mem_toolsOf hq
    have hqx : q.2 ∈ names x := (named_sublist hi).subset (mem_map_of_mem hnamed)
    obtain ⟨before, after, hsplit⟩ := append_of_mem (mem_remainingOf_of_isImport (o := o) hx hi)
    have hself : Entry.inlined o (Workspace.dialectOf t) (.old x) = [.old x] := by
      rw [Entry.inlined, flagsFor?_tools htools hsrc]
    have hes : inlinedEntries o t g = (guardEntries o t g ++ before.flatMap fun y =>
        Entry.inlined o (Workspace.dialectOf t) (.old y)) ++ .old x :: after.flatMap fun y =>
          Entry.inlined o (Workspace.dialectOf t) (.old y) := by
      rw [inlinedEntries, hsplit, flatMap_append, flatMap_cons, hself, append_assoc]
      rfl
    have hdecl := declarer?_of_nodup (names_inlinedEntries hd hguard) hes hqx
    obtain ⟨gs, hcont⟩ := hs.contents
    obtain ⟨hnone, _⟩ | ⟨e, y, he, hy, hstands, _, _⟩ := Entry.declarer?_stands hs.stands q.2
    · rw [hnone] at hdecl
      cases hdecl
    rw [hdecl] at he
    cases he
    obtain rfl : y = x := hstands.same x (by rw [Entry.import?, if_pos hi])
    rw [hes] at hs
    obtain ⟨s'', hrun, hcleans⟩ := Standing.cleanImport
      (s := { s with workspace := (s.workspace.addPath (Contents.place s.workspace body y)).2 })
      ho hm (hs.addPath (Contents.place s.workspace body y)) hc hi (s.workspace.addPath_path _)
    rw [result_cleanImports hcont hhead rfl, hy] at hclean
    obtain ⟨hfate, rfl⟩ := Prod.mk.inj (hrun.symm.trans hclean)
    exact .inr ⟨before, y, after, hsplit, hi, hsrc, (Except.ok.inj hfate).symm, hcleans⟩

end Cleaning

end DebugGuards.Expansion
