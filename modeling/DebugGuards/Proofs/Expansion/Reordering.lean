import DebugGuards.Proofs.Expansion.Refinement

/-! The order of registration does not matter. The operands of a statement are parts of
its own call and new parts, so whatever the order in which the registered statements are
put under guard, each is written to once, and the document reads the same at the end,
also where one statement lies within an operand of another. -/

namespace DebugGuards.Expansion

open DebugGuards.Tree Node

variable {c : Scan} {fields : Fields Mark} {body : Mark} {items met : List (Tree Mark)}
  {p : Patch} {es : List Entry} {s : State} {w : Workspace} {h : Heap} {rs : List Ref} {guard : String}
  {o : Options} {t : Tree Mark} {fresh : Mark} {q : Pending} {qs : List Pending}

section Expressions

variable {m : Mark} {fs : Fields Mark}

section

variable (hs : Stage c body p w h rs) (hl : Layout c fields body items)
include hs hl

theorem Stage.value_record (hx : Shows c.heap (obj m fs)) (hb : m ≠ body) :
    w.value (.part m) = ((Cell.record (Table.mapValues (standIn p.gone p.empty) (Table.mapValues ref fs))).under
      (p.new m)).value w.value := by
  refine hs.models.value_cell ?_
  rw [hs.cells m (hl.ready.marks_lt hx (mem_marks_of_ref rfl)) hb, hx.here rfl]
  rfl

theorem Stage.expressionOf_new (hx : Shows c.heap (obj m fs)) (hb : m ≠ body) {e : Ref} (he : p.new m = some e) :
    expressionOf (w.value (.part m)) = w.value e := by
  rw [hs.value_record hl hx hb, he]
  simp only [Cell.under, Cell.value, Table.mapValues_set, expressionOf, Tree.fields, Table.get?_set, if_true,
    Option.getD_some]

/-- A statement that is not under guard still has its call. -/
theorem Stage.isCall_old (hp : PatchOf c met p)
    (hm : Met c fields met) (hx : obj m fs ∈ met) (hnew : p.new m = none) {drafts : List Draft}
    (hop : c.operands (obj m fs) = some drafts) : isCall (expressionOf (w.value (.part m))) = true := by
  obtain ⟨k, cs, hget, hcall⟩ := exists_call hop
  have hnode := call_mem (hm.nodes hx) hget hcall
  have hshows := hl.shows_node hnode
  have hread : expressionOf (w.value (.part m)) = w.value (.part k) := by
    rw [hs.value_record hl (hl.shows_node (hm.nodes hx)) (fun e => hl.ref_ne_body (hm.nodes hx) (e ▸ rfl)), hnew]
    rw [Tree.fields] at hget
    simp only [Cell.under, Cell.value, expressionOf, Tree.fields, Table.get?_mapValues, hget, Option.map_some,
      Option.getD_some]
    rw [hp.standIn_eq hm.judged hshows (not_isStatement_of_isCall hcall)]
    rfl
  rw [hread, isCall, hasKind_iff]
  exact hs.kind?_value hl hp hm.judged hshows (fun e => hl.ref_ne_body hnode (e ▸ rfl)) (hasKind_iff.mp hcall)

end

end Expressions

section Sites

theorem Scan.Awaits.site (ha : c.Awaits h met qs) (hq : q ∈ qs) :
    ∃ x drafts, x ∈ met ∧ c.operands x = some drafts ∧ c.Pends h (x, drafts) q := by
  obtain ⟨sites, hperm, hqs⟩ := ha
  obtain ⟨⟨x, drafts⟩, hsite, hpends⟩ := forall₂_exists_left hqs hq
  obtain ⟨hx, hop⟩ := Scan.mem_sites (hperm.mem_iff.mp hsite)
  exact ⟨x, drafts, hx, hop, hpends⟩

/-- No two pending sites are one statement. -/
theorem Scan.Awaits.nodup (ha : c.Awaits h met qs) (hm : Met c fields met) (hap : met.Pairwise Apart) :
    (qs.map fun q => c.ofPath q.site).Nodup := by
  obtain ⟨sites, hperm, hqs⟩ := ha
  have heq : qs.map (fun q => c.ofPath q.site) = sites.map fun site => site.1.ref := by
    clear hperm
    induction hqs with
    | nil => rfl
    | cons hq _ ih => rw [List.map_cons, List.map_cons, ih, hq.path]
  rw [heq, List.Nodup, List.pairwise_map]
  exact hperm.symm.pairwise (hm.sites_pairwise hap) fun hab => Ne.symm hab

/-- The sites that were pending in the first state are rewritten in the second, each once:
they are different statements, each had a call, and has the chain of the guard and its
operands. -/
structure RewrittenOnce (guard : String) (s s' : State) : Prop where
  distinct : (s.pending.map fun q => (s.workspace.path q.site).node).Nodup
  kept : ∀ q ∈ s.pending, s'.workspace.path q.site = s.workspace.path q.site
  before : ∀ q ∈ s.pending, isCall (expressionOf (s.workspace.node q.site).erase) = true
  after : ∀ q ∈ s.pending, expressionOf (s'.workspace.node q.site).erase =
    parenthesized (guardChain (.str guard) (q.operands.map s'.workspace.value))

theorem Stage.path_eq (hs : Stage c body p w h rs) {site : Tree Mark × List Draft} (hq : c.Pends h site q) :
    w.path q.site = c.start.path q.site := hs.keeps.path q.site hq.bound

theorem Stage.erase_node (hs : Stage c body p w h rs) {m : Mark} {fs : Fields Mark} {drafts : List Draft}
    (hq : c.Pends h (obj m fs, drafts) q) : (w.node q.site).erase = w.value (.part m) := by
  rw [Workspace.node, hs.path_eq hq]
  exact congrArg w.value hq.path

namespace Registered

/-- What is registered may be put in another order. -/
theorem reorder (hr : Registered c fields body items met es s p h rs) (hq : qs.Perm s.pending) :
    Registered c fields body items met es { s with pending := qs } p h rs :=
  ⟨hr.standing, hr.apart, hr.free, hr.unfinished, hr.pending.perm hq, fun n hn => by
    rw [(hq.flatMap_right _).count_eq]
    exact hr.spare n hn⟩

theorem finalize_once (hr : Registered c fields body items met es s p h rs) (guard : String) :
    ∃ s', (Expansion.finalize (.str guard)).result s = (.ok s.pending.length, s') ∧
      Rewritten c fields body items met guard es s'.workspace ∧ RewrittenOnce guard s s' ∧
      ∀ q ∈ s.pending, kind? (s'.workspace.node q.site).erase = some "ExpressionStatement" := by
  obtain ⟨w, h', p', log, hrun, hs, hcomplete, hawaits⟩ :=
    (hr.standing guard).finalize hr.apart hr.free hr.unfinished hr.pending hr.spare guard
  have hst := hr.standing guard
  refine ⟨_, hrun, ⟨p', h', rs, hs, hcomplete⟩, ⟨?_, fun q hq => ?_, fun q hq => ?_, fun q hq => ?_⟩, fun q hq => ?_⟩
  · have heq : s.pending.map (fun q => (s.workspace.path q.site).node) = s.pending.map fun q => c.ofPath q.site := by
      refine List.map_congr_left fun q hq => ?_
      obtain ⟨_, _, _, _, hpends⟩ := hr.pending.site hq
      rw [hst.stage.path_eq hpends, Scan.ofPath]
    rw [heq]
    exact hr.pending.nodup hst.judged hr.apart
  · obtain ⟨_, _, _, _, hpends⟩ := hr.pending.site hq
    obtain ⟨_, _, _, _, hpends'⟩ := hawaits.site hq
    rw [hst.stage.path_eq hpends]
    exact hs.stage.path_eq hpends'
  · obtain ⟨x, drafts, hx, hop, hpends⟩ := hr.pending.site hq
    obtain ⟨m, fs, _, rfl, _⟩ := exists_of_isNode (isNode_of_isStatement (hst.judged.judged x hx).statement)
    rw [hst.stage.erase_node hpends]
    exact hst.stage.isCall_old hst.layout hst.patch hst.judged hx (hr.free m) hop
  · obtain ⟨x, drafts, hx, hop, hpends⟩ := hawaits.site hq
    obtain ⟨m, fs, _, rfl, _⟩ := exists_of_isNode (isNode_of_isStatement (hs.judged.judged x hx).statement)
    obtain ⟨e, he⟩ := Option.ne_none_iff_exists'.mp (hcomplete _ hx (by rw [hop]; exact Option.some_ne_none _) m rfl)
    obtain ⟨y, hy, drafts', hr', hop', hguarded⟩ := hs.guarding m e he
    obtain rfl : y = obj m fs :=
      (hs.layout.shows_node (hs.judged.nodes hy)).unique (hs.layout.shows_node (hs.judged.nodes hx)) hr'
    obtain rfl : drafts' = drafts := by rw [hop] at hop'; exact (Option.some.inj hop').symm
    show expressionOf (w.node q.site).erase = _
    rw [hs.stage.erase_node hpends, hs.stage.expressionOf_new hs.layout (hs.layout.shows_node (hs.judged.nodes hx))
      (fun e => hs.layout.ref_ne_body (hs.judged.nodes hx) (e ▸ rfl)) he, hguarded.value hs.stage.models,
      hpends.operands.value hs.stage.models]
  · obtain ⟨x, drafts, hx, hop, hpends⟩ := hawaits.site hq
    have hst' := (hs.judged.judged x hx).statement
    obtain ⟨m, fs, _, rfl, _⟩ := exists_of_isNode (isNode_of_isStatement hst')
    show kind? (w.node q.site).erase = _
    rw [hs.stage.erase_node hpends]
    exact hs.stage.kind?_value hs.layout hs.patch hs.judged.judged (hs.layout.shows_node (hs.judged.nodes hx))
      (fun e => hs.layout.ref_ne_body (hs.judged.nodes hx) (e ▸ rfl)) (hasKind_iff.mp hst')

end Registered

end Sites

/-- What the scan of a module leaves is registered. -/
theorem exists_registered (hm : IsModule t fresh) (hw : Workspace.ofTree t fresh = .ok w) {handled : Nat}
    (hs : (survey o).result { workspace := w } = (.ok handled, s)) :
    ∃ m fields body items ps p h rs, Opening t m fields body items ∧
      Registered (moduleScan o t fresh m fields ps) fields body items (statementsOf o t)
        ((remainingOf o t).map .old) s p h rs := by
  obtain ⟨m, fields, body, items, ho⟩ := hm.opens
  obtain rfl : opened t fresh m = w := Except.ok.inj (ho.ofTree_eq fresh ▸ hw)
  obtain ⟨ps, ⟨f, s', _, _, _, _, _, _, hscan, _⟩ | ⟨s', p, h, rs, hscan, _, hreg⟩⟩ := result_survey ho hm o
  · rw [begun, hs] at hscan
    cases hscan
  · rw [begun, hs] at hscan
    cases hscan
    exact ⟨m, fields, body, items, ps, p, h, rs, ho, hreg⟩

/-- Once the statements of a module are registered, they may be put under guard in any
order: all are, each is rewritten once, and the document left is the same. -/
theorem finalize_any_order (hm : IsModule t fresh) (hw : Workspace.ofTree t fresh = .ok w) {handled : Nat}
    (hs : (survey o).result { workspace := w } = (.ok handled, s)) (hq : qs.Perm s.pending) (guard : String) :
    ∃ s₁ s₂, (finalize (.str guard)).result s = (.ok s.pending.length, s₁) ∧
      (finalize (.str guard)).result { s with pending := qs } = (.ok s.pending.length, s₂) ∧
      s₂.workspace.root.erase = s₁.workspace.root.erase ∧
      s₁.workspace.root.erase = rewrittenWith o t guard (imagesOf o t guard ((remainingOf o t).map .old)) ∧
      RewrittenOnce guard s s₁ ∧ RewrittenOnce guard { s with pending := qs } s₂ := by
  obtain ⟨m, fields, body, items, ps, p, h, rs, ho, hreg⟩ := exists_registered hm hw hs
  obtain ⟨s₁, hrun₁, hst₁, honce₁, _⟩ := hreg.finalize_once guard
  obtain ⟨s₂, hrun₂, hst₂, honce₂, _⟩ := (hreg.reorder hq).finalize_once guard
  have herase₁ := erase_of_rewritten ho hst₁
  refine ⟨s₁, s₂, hrun₁, ?_, (erase_of_rewritten ho hst₂).trans herase₁.symm, herase₁, honce₁, honce₂⟩
  rw [hrun₂, hq.length_eq]

/-- The scan of a warning inside the predicate of a deprecation. -/
def nestedScan : Except Failure Nat × State := (survey versioned).result (begun nestedModule.1 nestedModule.2 0)

theorem finalize_any_order_nested : ∃ s, nestedScan = (.ok 3, s) ∧ s.pending.length = 2 ∧
    ∃ s₁ s₂, (finalize (.str "DEBUG")).result s = (.ok s.pending.length, s₁) ∧
      (finalize (.str "DEBUG")).result { s with pending := s.pending.reverse } = (.ok s.pending.length, s₂) ∧
      s₂.workspace.root.erase = s₁.workspace.root.erase ∧ RewrittenOnce "DEBUG" s s₁ := by
  have hm : IsModule nestedModule.1 nestedModule.2 := by decide +kernel
  have hw : Workspace.ofTree nestedModule.1 nestedModule.2 = .ok (opened nestedModule.1 nestedModule.2 0) := by
    obtain ⟨m, fields, body, items, ho⟩ := hm.opens
    have hmark : (programOf nestedModule.1).mark? = some 0 := by decide +kernel
    rw [ho.program] at hmark
    rw [ho.ofTree_eq, Option.some.inj hmark]
  have hscan : nestedScan.1 = .ok 3 := by decide +kernel
  have hlen : nestedScan.2.pending.length = 2 := by decide +kernel
  rcases hs : nestedScan with ⟨r, s⟩
  rw [hs] at hscan hlen
  obtain rfl : r = .ok 3 := hscan
  obtain ⟨s₁, s₂, h₁, h₂, heq, _, honce, _⟩ := finalize_any_order hm hw hs (List.reverse_perm s.pending) "DEBUG"
  exact ⟨s, rfl, hlen, s₁, s₂, h₁, h₂, heq, honce⟩

end DebugGuards.Expansion
