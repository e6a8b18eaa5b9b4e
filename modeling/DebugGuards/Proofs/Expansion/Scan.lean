import DebugGuards.Proofs.Expansion.Dispatch
import DebugGuards.Proofs.Expansion.Live
import DebugGuards.Proofs.Workspace.Prune

/-! The scan. While the statements of a module are dispatched one after the other, the
heap is at each moment that of the module without the statements expired so far, with
new parts above; and the statements pending are those met so far that go under guard,
in order. -/

namespace DebugGuards.Expansion

open DebugGuards.Tree Node List

/-- What stays fixed while a module is scanned: the options, the helpers, and the
workspace at the start. -/
structure Scan where
  options : Options
  helpers : Table Scalar Helper
  start : Workspace

namespace Scan

variable (c : Scan)

def heap : Heap := c.start.root.heap

/-- The marks from here on are new. -/
def base : ℕ := c.start.fresh

def expired (s : Tree Mark) : Bool := isExpired c.options c.helpers s

/-- The node of a path. -/
def ofPath (i : PathId) : Ref := (c.start.path i).node

/-- The operands of a statement that goes under guard. -/
def operands (s : Tree Mark) : Option (List Draft) :=
  match verdict c.options c.helpers s with
  | .ok v => operandDrafts c.options c.start.dialect (expressionOf s) v
  | .error _ => none

/-- The statements that go under guard, with their operands. -/
def sites (met : List (Tree Mark)) : List (Tree Mark × List Draft) :=
  met.filterMap fun s => (c.operands s).map fun drafts => (s, drafts)

/-- No part of the module is shared, and all marks in use are below the new ones. -/
structure Ready : Prop where
  nodup : c.start.root.marks.Nodup
  below : ∀ m : ℕ, m ∈ c.start.root.marks → m < c.base

/-- A registered site is that of a statement with its operands. -/
structure Pends (h : Heap) (site : Tree Mark × List Draft) (p : Pending) : Prop where
  bound : p.site < c.start.paths.size
  path : c.ofPath p.site = site.1.ref
  operands : Prepared h c.base site.2 p.operands

/-- A statement of the module that has a verdict. -/
structure Judged (x : Tree Mark) : Prop where
  shows : Shows c.heap x
  statement : isStatement x = true
  verdict : ∃ v, verdict c.options c.helpers x = .ok v

/-- What is true after some statements have been met. -/
structure Scanned (met : List (Tree Mark)) (s : State) (h : Heap) (empty : Ref → Ref) : Prop where
  models : Models s.workspace h
  frame : c.start.SameFrame s.workspace
  helpers : s.helpers = c.helpers
  finalized : s.finalized = false
  le : c.base ≤ s.workspace.fresh
  judged : ∀ x ∈ met, c.Judged x
  apart : met.Pairwise Apart
  cells : ∀ m : ℕ, m < c.base → h m = (c.heap m).map (Cell.prune (gone c.expired met) empty)
  empties : ∀ m fs, c.heap m = some (.record fs) → ∀ r ∈ fs.map Prod.snd, r ∈ gone c.expired met →
    Reflects h c.base Node.emptyStatement (empty r)
  pending : List.Forall₂ (c.Pends h) (c.sites met) s.pending
  spare : h.Spare c.base s.workspace.fresh (s.pending.flatMap Pending.operands)

variable {c} {met : List (Tree Mark)} {s : State} {h : Heap} {empty : Ref → Ref}

theorem Ready.shows (hr : c.Ready) : Shows c.heap c.start.root := shows_heap hr.nodup

theorem Ready.lt (hr : c.Ready) {m : ℕ} {x : Cell} (hm : c.heap m = some x) : m < c.base :=
  hr.below m (mem_marks_of_heap hm)

theorem Ready.marks_lt (hr : c.Ready) {x : Tree Mark} (hx : Shows c.heap x) {m : ℕ} (hm : m ∈ x.marks) :
    m < c.base := by
  obtain ⟨y, hy⟩ := hx.some_of_mem hm
  exact hr.lt hy

theorem exists_verdict {x : Tree Mark} {drafts : List Draft} (hop : c.operands x = some drafts) :
    ∃ v, verdict c.options c.helpers x = .ok v ∧
      operandDrafts c.options c.start.dialect (expressionOf x) v = some drafts := by
  rw [Scan.operands] at hop
  split at hop
  · next v hv => exact ⟨v, hv, hop⟩
  · cases hop

/-- The operands of a statement take parts of the module only. -/
theorem Ready.olds_lt (hr : c.Ready) {x : Tree Mark} (hx : Shows c.heap x) {drafts : List Draft}
    (hop : c.operands x = some drafts) : ∀ n : ℕ, n ∈ drafts.flatMap olds → n < c.base := by
  intro n hn
  obtain ⟨d, hd, hn⟩ := mem_flatMap.mp hn
  obtain ⟨v, _, hv⟩ := exists_verdict hop
  obtain ⟨a, ha, hr'⟩ := mem_olds_operands hv hd hn
  exact hr.marks_lt (hx.expressionOf.argumentsOf a ha) (mem_marks_of_ref hr')

theorem exists_ref_of_isStatement {x : Tree Mark} (hx : isStatement x = true) : ∃ m, x.ref = .part m := by
  cases x with
  | scalar | arr => simp [isStatement, hasKind, kind] at hx
  | obj m fields => exact ⟨m, rfl⟩

namespace Scanned

section

variable (hs : c.Scanned met s h empty) (hr : c.Ready)
include hs hr

theorem gone_part {r : Ref} (hg : r ∈ gone c.expired met) : ∃ m : ℕ, r = .part m ∧ m < c.base := by
  obtain ⟨x, hx, _, rfl⟩ := mem_gone.mp hg
  obtain ⟨m, hm⟩ := exists_ref_of_isStatement (hs.judged x hx).statement
  exact ⟨m, hm, hr.marks_lt (hs.judged x hx).shows (mem_marks_of_ref hm)⟩

theorem shows {x : Tree Mark} (hx : Shows c.heap x)
    (hd : ∀ m ∈ x.marks, .part m ∉ gone c.expired met) : Shows h x := by
  refine hx.congr fun m hm => ?_
  obtain ⟨y, hy⟩ := hx.some_of_mem hm
  rw [hs.cells m (hr.lt hy), hy, Option.map_some, Cell.prune_of_disjoint]
  intro r hmem hg
  obtain ⟨n, rfl, _⟩ := hs.gone_part hr hg
  exact hd n (hx.mem_marks_of_refs hm hy hmem) hg

theorem inPlace_iff {p : Path} (hp : Placed c.heap p) :
    s.workspace.inPlace p = true ↔ p.node ∉ gone c.expired met := by
  rw [Placed] at hp
  split at hp
  · exact hp.elim
  · next parent key hslot =>
    obtain ⟨fs, hfs, hkey⟩ := hp
    have hcell := hs.cells parent (hr.lt hfs)
    rw [hfs] at hcell
    rw [hs.models.inPlace_field hslot hcell, Table.get?_mapValues, hkey]
    simp only [Option.map_some, Option.getD_some, standIn]
    split
    · next hg =>
      have hempty := hs.empties parent fs hfs p.node (mem_map_of_mem (Table.mem_of_get? hkey)) hg
      obtain ⟨m, hm, hlt⟩ := hs.gone_part hr hg
      refine ⟨fun e => absurd hg ?_, fun h => absurd hg h⟩
      rw [e, hm] at hempty
      cases hempty with
      | old _ _ h => cases h
      | new _ _ _ _ hk _ _ _ => omega
    · next hg => simp [hg]
  · next parent list key hslot =>
    obtain ⟨rs, hrs, hmem⟩ := hp
    have hcell := hs.cells list (hr.lt hrs)
    rw [hrs] at hcell
    rw [hs.models.inPlace_item hslot hcell, mem_filter]
    simp [hmem]

end

theorem pending_mono {h' : Heap} {sites : List (Tree Mark × List Draft)} {ps : List Pending}
    (hp : List.Forall₂ (c.Pends h) sites ps) (hh : ∀ (m : ℕ) y, c.base ≤ m → h m = some y → h' m = some y) :
    List.Forall₂ (c.Pends h') sites ps :=
  hp.imp fun _ _ hq => ⟨hq.bound, hq.path, hq.operands.mono (Nat.le_refl _) hh⟩

theorem judged_append (hs : c.Scanned met s h empty) {x : Tree Mark} (hx : c.Judged x) :
    ∀ y ∈ met ++ [x], c.Judged y := by
  intro y hy
  rcases mem_append.mp hy with hy | hy
  · exact hs.judged y hy
  · rw [mem_singleton.mp hy]; exact hx

theorem apart_append (hs : c.Scanned met s h empty) {x : Tree Mark} (hx : ∀ y ∈ met, Apart y x) :
    (met ++ [x]).Pairwise Apart := by
  rw [pairwise_append]
  exact ⟨hs.apart, pairwise_singleton _ _, fun y hy z hz => mem_singleton.mp hz ▸ hx y hy⟩

theorem remnant_statement : (remnant "ExpressionStatement" : Draft) = emptyStatement := by
  rw [remnant, if_pos (by decide +kernel)]

theorem remove (hs : c.Scanned met s h empty) (hr : c.Ready) {x : Tree Mark} {p : Path} {site : PathId}
    (hx : c.Judged x) (hap : ∀ y ∈ met, Apart y x) (hexp : c.expired x = true) (hop : c.operands x = none)
    (hpath : s.workspace.path site = p) (hnode : p.node = x.ref) (hp : Placed c.heap p)
    (hin : s.workspace.inPlace p = true) (hnow : s.workspace.deref p.node = x) :
    ∃ w h' empty', s.workspace.remove site = .ok w ∧
      ∀ log, c.Scanned (met ++ [x]) { s with workspace := w, log := log } h' empty' := by
  have hgone : gone c.expired (met ++ [x]) = gone c.expired met ++ [x.ref] := by simp [gone, hexp]
  have hsites : c.sites (met ++ [x]) = c.sites met := by simp [sites, hop]
  obtain ⟨n, hn⟩ := exists_ref_of_isStatement hx.statement
  have hnew := (hs.inPlace_iff hr hp).mp hin
  subst hpath
  rw [hnode, hn] at hnew
  have hkind : kind? (s.workspace.deref (.part n)) = some "ExpressionStatement" := by
    rw [← hn, ← hnode, hnow]
    exact hasKind_iff.mp hx.statement
  obtain ⟨w, h', empty', hok, hmodels, hframe, hle, hcharges, hcells, hkept, hother, hhere⟩ :=
    Pruned.remove hs.cells hr.nodup hr.below hs.models hs.le hp (hnode.trans hn) hnew hkind
  refine ⟨w, h', empty', hok, fun log => ⟨hmodels, hs.frame.trans hframe, hs.helpers, hs.finalized,
    Nat.le_trans hs.le hle, hs.judged_append hx, hs.apart_append hap, ?_, ?_, ?_, hs.spare.write hcharges hle⟩⟩
  · rw [hgone, hn]
    exact hcells
  · intro m fs hfs r hrmem hg
    rw [hgone, hn, mem_append, mem_singleton] at hg
    by_cases e : r = .part n
    · subst e
      rw [← remnant_statement]
      exact hhere m fs hfs hrmem
    · rw [hother r e]
      exact (hs.empties m fs hfs r hrmem (hg.resolve_right e)).mono (Nat.le_refl _) hkept
  · rw [hsites]
    exact pending_mono hs.pending hkept

theorem pass (hs : c.Scanned met s h empty) {x : Tree Mark} (hx : c.Judged x) (hap : ∀ y ∈ met, Apart y x)
    (hexp : c.expired x = false) (hop : c.operands x = none) (log : List Record) :
    c.Scanned (met ++ [x]) { s with log := log } h empty := by
  have hgone : gone c.expired (met ++ [x]) = gone c.expired met := by simp [gone, hexp]
  have hsites : c.sites (met ++ [x]) = c.sites met := by simp [sites, hop]
  refine ⟨hs.models, hs.frame, hs.helpers, hs.finalized, hs.le, hs.judged_append hx,
    hs.apart_append hap, ?_, ?_, ?_, hs.spare⟩
  · rw [hgone]; exact hs.cells
  · rw [hgone]; exact hs.empties
  · rw [hsites]; exact hs.pending

theorem register (hs : c.Scanned met s h empty) (hr : c.Ready) {x : Tree Mark} (hx : c.Judged x)
    (hap : ∀ y ∈ met, Apart y x)
    (hexp : c.expired x = false) {drafts : List Draft} (hop : c.operands x = some drafts) {site : PathId}
    (hbound : site < c.start.paths.size) (hsite : c.ofPath site = x.ref) {s' : State} {h' : Heap}
    (hreg : Registers site drafts s h s' h') :
    c.Scanned (met ++ [x]) s' h' empty := by
  have hgone : gone c.expired (met ++ [x]) = gone c.expired met := by simp [gone, hexp]
  have hsites : c.sites (met ++ [x]) = c.sites met ++ [(x, drafts)] := by simp [sites, hop]
  obtain ⟨w, refs, log, rfl, hprep, hcharges⟩ := hreg.state
  have hgrows := hreg.enlarges.grows
  have hold : ∀ (m : ℕ) y, c.base ≤ m → h m = some y → h' m = some y :=
    fun m y _ hy => hgrows.cell hs.models.below hy
  refine ⟨hreg.enlarges.models, hs.frame.trans hreg.enlarges.frame, hs.helpers, hs.finalized,
    Nat.le_trans hs.le hgrows.le, hs.judged_append hx, hs.apart_append hap, fun m hm => ?_,
    fun m fs hfs r hr hg => ?_, ?_, ?_⟩
  · rw [hgone, hgrows.old m (Nat.lt_of_lt_of_le hm hs.le), hs.cells m hm]
  · rw [hgone] at hg
    exact (hs.empties m fs hfs r hr hg).mono (Nat.le_refl _) hold
  · rw [hsites]
    refine rel_append (pending_mono hs.pending hold) (.cons ⟨hbound, hsite, ?_⟩ .nil)
    exact hprep.mono hs.le fun _ _ _ hy => hy
  · rw [flatMap_append, flatMap_singleton]
    exact hs.spare.extend hcharges hgrows.le (hr.olds_lt hx.shows hop)

end Scanned

/-- What is known of a statement visited. -/
structure Known (c : Scan) (i : PathId) (v : Visit) : Prop where
  bound : i < c.start.paths.size
  path : c.start.path i = v.path
  ref : v.path.node = v.node.ref
  placed : Placed c.heap v.path
  shows : Shows c.heap v.node
  above : ∀ a ∈ v.path.above, Placed c.heap (c.start.path a)

namespace Scanned

variable {i : PathId} {v : Visit}

section

variable (hs : c.Scanned met s h empty)
include hs

theorem path_eq (i : PathId) : s.workspace.path i = c.start.path i := by
  rw [Workspace.path, hs.frame.paths, Workspace.path]

/-- A node is attached as long as neither it nor an ancestor is gone. -/
theorem attached_eq (hr : c.Ready) (hv : Known c i v) :
    s.workspace.attached i =
      (v.node.ref :: v.path.above.map c.ofPath).all fun r => !(gone c.expired met).contains r := by
  rw [Bool.eq_iff_iff, Workspace.attached, hs.path_eq, hv.path]
  simp only [Bool.and_eq_true, all_eq_true, mem_cons, mem_map, forall_eq_or_imp,
    forall_exists_index, and_imp, forall_apply_eq_imp_iff₂, Bool.not_eq_true', contains_eq_mem,
    decide_eq_false_iff_not]
  refine and_congr ?_ (forall₂_congr fun a ha => ?_)
  · rw [hs.inPlace_iff hr hv.placed, hv.ref]
  · rw [hs.path_eq, hs.inPlace_iff hr (hv.above a ha)]
    rfl

/-- The statement a path tracks, as long as nothing inside it is gone. -/
theorem node_eq (hr : c.Ready) (hv : Known c i v)
    (hapart : ∀ y ∈ met, Apart y v.node) : s.workspace.node i = v.node := by
  have hshows : Shows h v.node := by
    refine hs.shows hr hv.shows fun m hm hg => ?_
    obtain ⟨y, hy, _, e⟩ := mem_gone.mp hg
    exact hapart y hy m e hm
  rw [Workspace.node, hs.path_eq, hv.path, hv.ref, hs.models.deref_eq hshows]

theorem log (log : List Record) : c.Scanned met { s with log := log } h empty :=
  ⟨hs.models, hs.frame, hs.helpers, hs.finalized, hs.le, hs.judged, hs.apart, hs.cells, hs.empties, hs.pending,
    hs.spare⟩

end

end Scanned

section Run

variable {i : PathId} {v : Visit}

theorem expired_of_ok {x : Tree Mark} {v : Verdict} (hx : isStatement x = true)
    (hv : verdict c.options c.helpers x = .ok v) : c.expired x = decide (v = .expired) := by
  rw [expired, isExpired, hx, hv, Bool.true_and]
  cases v <;> rfl

theorem operands_of_ok {x : Tree Mark} {v : Verdict} (hv : verdict c.options c.helpers x = .ok v) :
    c.operands x = operandDrafts c.options c.start.dialect (expressionOf x) v := by
  rw [operands, hv]

/-- The number of statements met that are expired or go under guard. -/
def handled (c : Scan) (met : List (Tree Mark)) : Nat := (met.filter c.expired).length + (c.sites met).length

theorem handled_append (c : Scan) (met : List (Tree Mark)) (x : Tree Mark) :
    c.handled (met ++ [x]) = c.handled met + c.handled [x] := by
  simp only [handled, sites, filter_append, filterMap_append, length_append]
  omega

section

variable (hs : c.Scanned met s h empty) (hr : c.Ready) (hv : Known c i v) (hst : isStatement v.node = true)
  (hapart : ∀ y ∈ met, Apart y v.node)
include hs hr hv hst hapart

/-- Dispatching a statement that is attached and has a verdict. -/
theorem Scanned.dispatch_ok
    (hin : s.workspace.inPlace v.path = true) {r : Verdict} (hver : verdict c.options c.helpers v.node = .ok r) :
    ∃ b s' h' empty', (dispatch c.options i).result s = (.ok b, s') ∧
      c.Scanned (met ++ [v.node]) s' h' empty' ∧ c.handled [v.node] = b.toNat := by
  have hnode := hs.node_eq hr hv hapart
  have hjudged : c.Judged v.node := ⟨hv.shows, hst, r, hver⟩
  have hexp := expired_of_ok hst hver
  have hop := operands_of_ok (c := c) hver
  have hver' : verdict c.options s.helpers v.node = .ok r := by rw [hs.helpers]; exact hver
  by_cases hu : r = .untouched
  · subst hu
    obtain ⟨log, hl⟩ := result_dispatch_untouched hnode hver'
    refine ⟨_, _, _, _, hl, hs.pass hjudged hapart hexp hop log, ?_⟩
    have hexp' : c.expired v.node = false := hexp
    have hop' : c.operands v.node = none := hop
    simp [handled, sites, hexp', hop']
  by_cases hx : r = .expired
  · subst hx
    have hnow : s.workspace.deref v.path.node = v.node := by
      rw [← hnode, Workspace.node, hs.path_eq, hv.path]
    obtain ⟨w, h', empty', hw, hs'⟩ := hs.remove hr hjudged hapart hexp hop ((hs.path_eq i).trans hv.path) hv.ref
      hv.placed hin hnow
    obtain ⟨log, hl⟩ := result_dispatch_expired hnode hver' hw
    refine ⟨_, _, _, _, hl, hs' log, ?_⟩
    have hexp' : c.expired v.node = true := hexp
    have hop' : c.operands v.node = none := hop
    simp [handled, sites, hexp', hop']
  · have hshows : Shows h v.node := by rw [← hnode]; exact hs.models.shows_deref _
    obtain ⟨s', h', drafts, hl, hd, hreg⟩ := result_dispatch_guarded hs.models hs.finalized hnode hshows hver' hu hx
    rw [hs.frame.dialect, ← hop] at hd
    have hsite : c.ofPath i = v.node.ref := by rw [ofPath, hv.path, hv.ref]
    have hexp' : c.expired v.node = false := by rw [hexp]; simpa using hx
    refine ⟨_, _, _, _, hl, hs.register hr hjudged hapart hexp' hd hv.bound hsite hreg, ?_⟩
    simp [handled, sites, hexp', hd]

/-- One site is passed over, is dispatched, or makes the scan fail. -/
theorem Scanned.step (n : Nat) :
    (∃ n' s' h' empty', (dispatchSite c.options n (i, v)).result s = (.ok n', s') ∧
      c.Scanned (meet c.expired c.ofPath met v) s' h' empty' ∧
      n' + c.handled met = n + c.handled (meet c.expired c.ofPath met v)) ∨
    ∃ f s', (dispatchSite c.options n (i, v)).result s = (.error f, s') ∧ c.Scanned met s' h empty ∧
      meet c.expired c.ofPath met v = met ++ [v.node] ∧ verdict c.options c.helpers v.node = .error f := by
  have hatt := hs.attached_eq hr hv
  rw [dispatchSite, result_get_bind, meet, hst, ← hatt, Bool.true_and]
  cases ha : s.workspace.attached i with
  | false => exact .inl ⟨n, s, h, empty, rfl, hs, rfl⟩
  | true =>
    have hin : s.workspace.inPlace v.path = true := by
      rw [Workspace.attached, Bool.and_eq_true, hs.path_eq, hv.path] at ha
      exact ha.1
    simp only [Bool.not_true, Bool.false_eq_true, if_false, if_true]
    cases hver : verdict c.options c.helpers v.node with
    | error f =>
      obtain ⟨log, hl⟩ := result_dispatch_error (o := c.options) (hs.node_eq hr hv hapart)
        (by rw [hs.helpers]; exact hver)
      exact .inr ⟨f, _, result_bind_error hl, hs.log log, trivial, rfl⟩
    | ok r =>
      obtain ⟨b, s', h', empty', hl, hs', hb⟩ := hs.dispatch_ok hr hv hst hapart hin hver
      refine .inl ⟨_, s', h', empty', result_bind_ok hl, hs', ?_⟩
      rw [handled_append, hb]
      cases b
      · rfl
      · show n + 1 + c.handled met = n + (c.handled met + 1)
        omega

end

theorem meet_extends (met : List (Tree Mark)) (vs : List Visit) :
    ∃ rest, vs.foldl (meet c.expired c.ofPath) met = met ++ rest := by
  induction vs generalizing met with
  | nil => exact ⟨[], by simp⟩
  | cons v vs ih =>
    obtain ⟨rest, hrest⟩ := ih (meet c.expired c.ofPath met v)
    rw [foldl_cons, hrest, meet]
    split
    · exact ⟨v.node :: rest, by simp⟩
    · exact ⟨rest, rfl⟩

theorem mem_meet {y : Tree Mark} (hy : y ∈ meet c.expired c.ofPath met v) : y ∈ met ∨ y = v.node := by
  rw [meet] at hy
  split at hy
  · simpa using hy
  · exact .inl hy

theorem Scanned.run (hr : c.Ready) {vs : List (PathId × Visit)} (hs : c.Scanned met s h empty)
    (hv : ∀ iv ∈ vs, Known c iv.1 iv.2 ∧ isStatement iv.2.node = true)
    (hpair : vs.Pairwise fun a b => Apart a.2.node b.2.node) (hapart : ∀ y ∈ met, ∀ iv ∈ vs, Apart y iv.2.node)
    (n : Nat) :
    (∃ n' s' h' empty', (vs.foldlM (dispatchSite c.options) n).result s = (.ok n', s') ∧
      c.Scanned ((vs.map Prod.snd).foldl (meet c.expired c.ofPath) met) s' h' empty' ∧
      n' + c.handled met = n + c.handled ((vs.map Prod.snd).foldl (meet c.expired c.ofPath) met)) ∨
    ∃ f s' h' empty' met' x rest, (vs.foldlM (dispatchSite c.options) n).result s = (.error f, s') ∧
      c.Scanned met' s' h' empty' ∧ (vs.map Prod.snd).foldl (meet c.expired c.ofPath) met = met' ++ x :: rest ∧
      verdict c.options c.helpers x = .error f := by
  induction vs generalizing met s h empty n with
  | nil => exact .inl ⟨n, s, h, empty, rfl, hs, rfl⟩
  | cons iv vs ih =>
    obtain ⟨i, v⟩ := iv
    rw [forall_mem_cons] at hv
    rw [pairwise_cons] at hpair
    simp only [foldlM_cons, map_cons, foldl_cons]
    have hfirst : ∀ y ∈ met, Apart y v.node := fun y hy => hapart y hy (i, v) mem_cons_self
    rcases hs.step hr hv.1.1 hv.1.2 hfirst n with
      ⟨n', s', h', empty', hl, hs', hn⟩ | ⟨f, s', hl, hs', hmeet, hver⟩
    · rw [result_bind_ok hl]
      have hrest : ∀ y ∈ meet c.expired c.ofPath met v, ∀ iv ∈ vs, Apart y iv.2.node := by
        intro y hy iv hiv
        rcases mem_meet hy with hy | rfl
        · exact hapart y hy iv (mem_cons_of_mem _ hiv)
        · exact hpair.1 iv hiv
      refine (ih hs' hv.2 hpair.2 hrest n').imp_left ?_
      rintro ⟨k, s'', h'', empty'', hl', hs'', hk⟩
      dsimp only at hn hk ⊢
      exact ⟨k, s'', h'', empty'', hl', hs'', by omega⟩
    · rw [result_bind_error hl, hmeet]
      obtain ⟨rest, hrest⟩ := meet_extends (c := c) (met ++ [v.node]) (vs.map Prod.snd)
      exact .inr ⟨f, s', h, empty, met, v.node, rest, rfl, hs', by rw [hrest, append_assoc]; rfl, hver⟩

end Run

end Scan

section Sites

/-- A workspace just opened: nothing shared, nothing loose, and the program is there. -/
structure Opened (w : Workspace) (fields : List (String × Tree Mark)) : Prop where
  nodup : w.root.marks.Nodup
  below : ∀ m : ℕ, m ∈ w.root.marks → m < w.fresh
  loose : w.loose = []
  shows : Shows w.root.heap (.obj w.program fields)
  distinct : (obj w.program fields).marks.Nodup
  keyed : (obj w.program fields).keyed = true

variable {w : Workspace} {fields : Fields Mark}

theorem Opened.models (hw : Opened w fields) : Models w w.root.heap := by
  refine ⟨shows_heap hw.nodup, ?_, fun m c hc => .inl (mem_marks_of_heap hc), fun m c hc => ?_⟩
  · rw [hw.loose]; simp
  · exact hw.below m (mem_marks_of_heap hc)

theorem Opened.programNode (hw : Opened w fields) : w.programNode = .obj w.program fields :=
  hw.models.deref_eq hw.shows

/-- Adding paths leaves a workspace open. -/
theorem Opened.paths (hw : Opened w fields) (paths : Array Path) : Opened { w with paths := paths } fields :=
  ⟨hw.nodup, hw.below, hw.loose, hw.shows, hw.distinct, hw.keyed⟩

/-- The workspace after a walk through its program. -/
def walked (w : Workspace) (fields : List (String × Tree Mark)) : Workspace :=
  { w with paths := w.paths ++ ((Visit.below w.paths.size (.obj w.program fields)).map Visit.path).toArray }

theorem walked_path (w : Workspace) {i : PathId} {v : Visit}
    (hv : (i, v) ∈ Visit.numbered w.paths.size (Visit.below w.paths.size (.obj w.program fields))) :
    (walked w fields).path i = v.path := by
  obtain ⟨j, rfl, hj⟩ := Visit.mem_numbered hv
  rw [Workspace.path, walked, Array.getD_eq_getD_getElem?, Array.getElem?_append_right (Nat.le_add_right _ _),
    Nat.add_sub_cancel_left, getElem?_toArray, getElem?_map, hj]
  rfl

theorem Opened.collect (hw : Opened w fields) :
    w.collect ["ExpressionStatement"] =
      ((Visit.numbered w.paths.size (Visit.below w.paths.size (.obj w.program fields))).filter
        fun iv => isStatement iv.2.node, walked w fields) := by
  rw [Workspace.collect, Workspace.walk, hw.programNode]
  refine Prod.ext (filter_congr fun iv _ => ?_) rfl
  simp only [isStatement, hasKind, kind?]
  split
  · simp only [Option.map_some, Option.getD_some, contains_cons, contains_nil, Bool.or_false]
  · rfl

/-- The scan of a workspace just opened. -/
def scanOf (o : Options) (helpers : Table Scalar Helper) (w : Workspace) (fields : List (String × Tree Mark)) :
    Scan := ⟨o, helpers, walked w fields⟩

theorem Opened.ready (hw : Opened w fields) (o : Options) (helpers : Table Scalar Helper) :
    (scanOf o helpers w fields).Ready := ⟨hw.nodup, hw.below⟩

theorem Opened.known (hw : Opened w fields) (o : Options) (helpers : Table Scalar Helper) {i : PathId} {v : Visit}
    (hv : (i, v) ∈ Visit.numbered w.paths.size (Visit.below w.paths.size (.obj w.program fields))) :
    Scan.Known (scanOf o helpers w fields) i v := by
  have hsound := Visit.below_sound hw.shows hw.keyed w.paths.size
  have hmem : v.node ∈ nodesFields fields := by
    rw [← Visit.below_nodes w.paths.size w.program fields]
    refine mem_map_of_mem ?_
    rw [← Visit.numbered_map_snd w.paths.size (Visit.below w.paths.size (.obj w.program fields))]
    exact mem_map_of_mem hv
  have hbound : i < (walked w fields).paths.size := by
    obtain ⟨j, rfl, hj⟩ := Visit.mem_numbered hv
    have hlt := (List.getElem?_eq_some_iff.mp hj).1
    simp only [walked, Array.size_append, size_toArray, length_map]
    exact Nat.add_lt_add_left hlt _
  refine ⟨hbound, walked_path w hv, (hsound _ hv).ref, (hsound _ hv).placed, hw.shows.nodesFields hmem, fun a ha => ?_⟩
  obtain ⟨us, hus, habove, _⟩ := Visit.Sound.line hsound hv
  rw [habove] at ha
  obtain ⟨u, hu, rfl⟩ := mem_map.mp ha
  rw [scanOf, walked_path w (hus hu)]
  exact (hsound _ (hus hu)).placed

theorem Opened.scanned (hw : Opened w fields) (o : Options) {s : State} (hs : s.workspace = walked w fields)
    (hf : s.finalized = false) (hp : s.pending = []) :
    (scanOf o s.helpers w fields).Scanned [] s w.root.heap id := by
  refine ⟨?_, ?_, rfl, hf, ?_, by simp, .nil, fun m _ => ?_, by simp [gone], ?_, ?_⟩
  · rw [hs]; exact (hw.paths _).models
  · rw [hs]; exact .refl _
  · rw [hs]; exact Nat.le_refl _
  · have hid : Cell.prune (gone (scanOf o s.helpers w fields).expired []) id = id :=
      funext fun c => Cell.prune_of_disjoint (by simp [gone])
    rw [hid, Option.map_id]
    rfl
  · rw [hp]; exact .nil
  · rw [hp, hs]
    refine Heap.spare_of_below (fun m c hc n hn => ?_) _
    exact hw.below n (hw.models.root.mem_marks_of_refs (mem_marks_of_heap hc) hc hn)

/-- The statements met in a whole scan. -/
theorem Opened.foldl_meet (hw : Opened w fields) (o : Options) (helpers : Table Scalar Helper) :
    (((Visit.numbered w.paths.size (Visit.below w.paths.size (.obj w.program fields))).filter
      fun iv => isStatement iv.2.node).map Prod.snd).foldl
        (meet (scanOf o helpers w fields).expired (scanOf o helpers w fields).ofPath) [] =
      liveFields (isExpired o helpers) fields := by
  refine (foldl_meet_filter _ []).trans ?_
  rw [Visit.numbered_map_snd]
  refine foldl_meet_below hw.distinct fun iv hiv => ?_
  have hk := hw.known o helpers hiv
  rw [Scan.ofPath, hk.path, hk.ref]

/-- The scan of a module: either all statements not inside an expired one are met and
have verdicts, or the first that has none stops it. -/
theorem result_dispatchAll {s : State} (hw : Opened s.workspace fields) (o : Options) (hf : s.finalized = false)
    (hp : s.pending = []) :
    (∃ s' h empty, (dispatchAll o).result s =
        (.ok ((scanOf o s.helpers s.workspace fields).handled (liveFields (isExpired o s.helpers) fields)), s') ∧
      (scanOf o s.helpers s.workspace fields).Scanned (liveFields (isExpired o s.helpers) fields) s' h empty) ∨
    ∃ f s' h empty met x rest, (dispatchAll o).result s = (.error f, s') ∧
      (scanOf o s.helpers s.workspace fields).Scanned met s' h empty ∧
      liveFields (isExpired o s.helpers) fields = met ++ x :: rest ∧ verdict o s.helpers x = .error f := by
  set c := scanOf o s.helpers s.workspace fields with hc
  have hstart : (dispatchAll o).result s =
      (((Visit.numbered s.workspace.paths.size (Visit.below s.workspace.paths.size
        (.obj s.workspace.program fields))).filter fun iv => isStatement iv.2.node).foldlM
          (dispatchSite o) 0).result { s with workspace := walked s.workspace fields } := by
    rw [dispatchAll, result_bind_ok (result_make ..), hw.collect]
  have hs0 : c.Scanned [] { s with workspace := walked s.workspace fields } s.workspace.root.heap id :=
    hw.scanned o (s := { s with workspace := walked s.workspace fields }) rfl hf hp
  have hpair : (Visit.numbered s.workspace.paths.size (Visit.below s.workspace.paths.size
      (.obj s.workspace.program fields))).Pairwise fun a b => Apart a.2.node b.2.node := by
    have hn := nodesFields_pairwise (fun e he => inside_pairwise (nodup_child hw.distinct (mem_map_of_mem he)))
      (children_pairwise hw.distinct)
    rw [← Visit.below_nodes s.workspace.paths.size s.workspace.program fields, pairwise_map,
      ← Visit.numbered_map_snd s.workspace.paths.size (Visit.below _ _), pairwise_map] at hn
    exact hn
  have hrun := Scan.Scanned.run (hw.ready o s.helpers) hs0
    (fun iv hiv => ⟨hw.known o s.helpers (mem_of_mem_filter hiv), (mem_filter.mp hiv).2⟩)
    (hpair.filter _) (by simp) 0
  rw [hw.foldl_meet o s.helpers] at hrun
  rw [hstart]
  refine hrun.imp_left ?_
  rintro ⟨n, s', h, empty, hl, hs', hn⟩
  have hzero : c.handled [] = 0 := rfl
  obtain rfl : n = c.handled (liveFields (isExpired o s.helpers) fields) := by
    rw [hzero, Nat.zero_add] at hn
    exact hn
  exact ⟨s', h, empty, hl, hs'⟩

end Sites

end DebugGuards.Expansion
