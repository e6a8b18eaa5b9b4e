import DebugGuards.Proofs.Expansion.Stage

/-! Putting the registered statements under guard. The operands of a statement are new
parts and arguments of its call, so the statement is no part of them, and setting its
expression writes to one cell. Statements are put under guard one after the other; what
an operand holds is settled only when all are. -/

namespace DebugGuards

open DebugGuards.Tree Node Expansion List

section Chain

theorem guardChain_grounded {h : Heap} {guard : Draft} {operands : List Draft} (hg : Grounded h guard)
    (ho : ∀ d ∈ operands, Grounded h d) : Grounded h (guardChain guard operands) :=
  guardChain_induction (fun _ _ hl hr => .make _ (by simpa using ⟨.scalar _, hl, hr⟩)) (.identifier hg) ho

theorem Expansion.olds_guardChain (guard : String) (ds : List Draft) :
    (Node.parenthesized (guardChain (.str guard) ds)).olds = ds.flatMap olds := by
  have hchain : ∀ first : Draft, (ds.foldl Node.logicalAnd first).olds = first.olds ++ ds.flatMap olds := by
    induction ds with
    | nil => intro first; simp
    | cons d ds ih =>
      intro first
      rw [foldl_cons, ih]
      simp [Node.logicalAnd, Node.logical, Tree.olds_make]
  rw [Node.parenthesized, Tree.olds_make, guardChain]
  simp [hchain, Node.identifier, Tree.olds_make]

theorem count_olds_drafts {w : Workspace} {rs : List Ref} (hr : ∀ r ∈ rs, (w.deref r).ref = r) (n : ℕ) :
    ((rs.map fun r => (w.deref r).draft).flatMap olds).count n = rs.count (.part n) := by
  induction rs with
  | nil => rfl
  | cons r rs ih =>
    rw [forall_mem_cons] at hr
    rw [map_cons, flatMap_cons, count_append, count_olds_draft, hr.1, ih hr.2, ← count_append]
    rfl

theorem Models.deref_ref {w : Workspace} {h : Heap} (hw : Models w h) {m : Mark} {x : Cell} (hc : h m = some x) :
    (w.deref (.part m)).ref = .part m := by
  obtain ⟨s, hs, e, _⟩ := hw.exists_shows hc
  rw [← e, hw.deref_eq hs, e]

end Chain

section Guarding
variable (p : Patch) (m : Mark) (e : Ref)

/-- The patch with one statement more under guard. -/
def Patch.guarding : Patch := { p with new := Function.update p.new m (some e) }

@[simp] theorem Patch.guarding_gone : (p.guarding m e).gone = p.gone := rfl

@[simp] theorem Patch.guarding_empty : (p.guarding m e).empty = p.empty := rfl

@[simp] theorem Patch.guarding_new_self : (p.guarding m e).new m = some e := Function.update_self ..

theorem Patch.guarding_new_of_ne {n : Mark} (hn : n ≠ m) : (p.guarding m e).new n = p.new n :=
  Function.update_of_ne hn ..

end Guarding

namespace Expansion

/-- The reference stands for the chain of the guard and operands, which are those of
the drafts. -/
def Guarded (h : Heap) (k : ℕ) (guard : String) (drafts : List Draft) (e : Ref) : Prop :=
  ∃ ds refs, Reflects h k (Node.parenthesized (guardChain (.str guard) ds)) e ∧
    Prepared h k ds refs ∧ Prepared h k drafts refs

theorem Guarded.mono {h h' : Heap} {k : ℕ} {guard : String} {drafts : List Draft} {e : Ref}
    (hg : Guarded h k guard drafts e) (hh : ∀ (m : ℕ) c, k ≤ m → h m = some c → h' m = some c) :
    Guarded h' k guard drafts e := by
  obtain ⟨ds, refs, h1, h2, h3⟩ := hg
  exact ⟨ds, refs, h1.mono (Nat.le_refl k) hh, h2.mono (Nat.le_refl k) hh, h3.mono (Nat.le_refl k) hh⟩

variable {c : Scan} {fields : Fields Mark} {body : Mark} {items met : List (Tree Mark)}
  {p : Patch} {w : Workspace} {h : Heap} {rs : List Ref} {x : Tree Mark}

/-- The scan is done, and the statements met belong to the module. -/
structure Met (c : Scan) (fields : List (String × Tree Mark)) (met : List (Tree Mark)) : Prop where
  judged : ∀ x ∈ met, c.Judged x
  nodes : met ⊆ nodesFields fields

section Site

section

variable (hp : PatchOf c met p) (hj : ∀ x ∈ met, c.Judged x) (hx : Shows c.heap x) (hst : isStatement x = false)
include hp hj hx hst

/-- A part that is no statement stays where it is. -/
theorem PatchOf.standIn_eq : standIn p.gone p.empty x.ref = x.ref := by
  rw [standIn, if_neg]
  intro hg
  rw [hp.gone] at hg
  obtain ⟨y, hy, _, hr⟩ := mem_gone.mp hg
  have := (hj y hy).statement
  rw [(hj y hy).shows.unique hx hr, hst] at this
  cases this

theorem PatchOf.ref_mem_record {key : String} {fs : Fields Mark} (hget : Table.get? fs key = some x) :
    x.ref ∈ (Cell.prune p.gone p.empty (.record (Table.mapValues ref fs))).refs := by
  refine mem_map.mpr ⟨(key, x.ref), Table.mem_of_get? ?_, rfl⟩
  rw [Table.get?_mapValues, Table.get?_mapValues, hget, Option.map_some, Option.map_some, hp.standIn_eq hj hx hst]

theorem PatchOf.ref_mem_list {xs : List (Tree Mark)} (hmem : x ∈ xs) :
    x.ref ∈ (Cell.prune p.gone p.empty (.list (xs.map ref))).refs := by
  refine mem_filter.mpr ⟨mem_map_of_mem hmem, decide_eq_true fun hg => ?_⟩
  rw [hp.gone] at hg
  obtain ⟨y, hy, _, hr⟩ := mem_gone.mp hg
  have := (hj y hy).statement
  rw [(hj y hy).shows.unique hx hr, hst] at this
  cases this

end

theorem Stage.not_mem_argument (hs : Stage c body p w h rs) (hl : Layout c fields body items) (hp : PatchOf c met p)
    (hm : Met c fields met) (hx : x ∈ met) {drafts : List Draft} (hop : c.operands x = some drafts) {m : Mark}
    (hr : x.ref = .part m) (hnew : p.new m = none) {a : Tree Mark} (ha : a ∈ argumentsOf (expressionOf x))
    {l : Mark} (hal : a.ref = .part l) : (∃ y, h l = some y) ∧ m ∉ (w.deref (.part l)).marks := by
  obtain ⟨k, fs, hcall, hk⟩ := exists_call hop
  have hcmem := call_mem (hm.nodes hx) hcall hk
  have hexpr : expressionOf x = obj k fs := by rw [expressionOf, hcall]; rfl
  rw [hexpr] at ha
  obtain ⟨_, hnil⟩ | ⟨j, args, hargs, heq, harg⟩ := hl.arguments hcmem hk
  · rw [hnil] at ha; cases ha
  rw [heq] at ha
  obtain ⟨xs, rfl⟩ : ∃ xs, x = obj m xs := by
    cases x with
    | scalar | arr => cases hcall
    | obj n xs => cases hr; exact ⟨xs, rfl⟩
  -- the parts on the way from the statement to the argument
  have hxs := (hm.judged _ hx).shows
  have hcalls : Shows c.heap (obj k fs) := hxs.field hcall
  have hlist : Shows c.heap (arr j args) := hcalls.field hargs
  have hashows : Shows c.heap a := hlist.child ha
  have hcst : isStatement (obj k fs) = false := not_isStatement_of_isCall hk
  have hast := not_isStatement_of_isArgument (harg a ha)
  have hbody := hl.body_not_mem (hm.nodes hx)
  have hbody₁ : body ∉ (obj k fs).marks := fun hb =>
    hbody (marks_child (mem_map_of_mem (Table.mem_of_get? hcall)) hb)
  have hbody₂ : body ∉ (arr j args).marks := fun hb =>
    hbody₁ (marks_child (mem_map_of_mem (Table.mem_of_get? hargs)) hb)
  have hbody₃ : body ∉ a.marks := fun hb => hbody₂ (marks_child (t := arr j args) ha hb)
  have hne : ∀ {y : Tree Mark} {n : Mark}, body ∉ y.marks → y.ref = .part n → n ≠ body :=
    fun hb hn e => hb (e ▸ mem_marks_of_ref hn)
  -- what they hold now
  have hcm : h m = some (Cell.prune p.gone p.empty (.record (Table.mapValues ref xs))) := by
    rw [hs.cells m (hl.ready.marks_lt hxs (mem_marks_of_ref rfl)) (hne hbody rfl), hxs.here rfl]
    simp only [cell?, Option.map_some, Patch.cell, hnew, Cell.under_none]
  have hck := hs.cell_of hl hp hm.judged hcalls rfl (hne hbody₁ rfl) hcst
  have hcj := hs.cell_of hl hp hm.judged hlist rfl (hne hbody₂ rfl) rfl
  have hcl := hs.cell_of hl hp hm.judged hashows hal (hne hbody₃ hal) hast
  have h1 := hs.models.marks_of_refs hcm (hp.ref_mem_record hm.judged hcalls hcst hcall)
  have h2 := hs.models.marks_of_refs hck (hp.ref_mem_record hm.judged hlist rfl hargs)
  have h3 := hs.models.marks_of_refs hcj (n := l) (by rw [← hal]; exact hp.ref_mem_list hm.judged hashows hast ha)
  refine ⟨?_, fun hmem => h1.2 (h2.1 (h3.1 hmem))⟩
  rw [hcl]
  cases a with
  | scalar => cases hal
  | arr | obj => exact ⟨_, rfl⟩

/-- An operand of a statement under guard: it is there, and the statement is no part of it. -/
theorem Stage.operand (hs : Stage c body p w h rs) (hl : Layout c fields body items) (hp : PatchOf c met p)
    (hm : Met c fields met) (hx : x ∈ met) {drafts : List Draft} (hop : c.operands x = some drafts) {m : ℕ}
    (hr : x.ref = .part m) (hnew : p.new m = none) {d : Draft} (hd : d ∈ drafts) {r : Ref}
    (hrefl : Reflects h c.base d r) : (w.deref r).ref = r ∧ m ∉ (w.deref r).marks := by
  obtain ⟨v, _, hv⟩ := Scan.exists_verdict hop
  have hold : ∀ l ∈ d.olds, (∃ y, h l = some y) ∧ m ∉ (w.deref (.part l)).marks := by
    intro l hl'
    obtain ⟨a, ha, hal⟩ := mem_olds_operands hv hd hl'
    exact hs.not_mem_argument hl hp hm hx hop hr hnew ha hal
  have hlt : m < c.base := hl.ready.marks_lt (hm.judged x hx).shows (mem_marks_of_ref hr)
  refine ⟨?_, hs.models.not_mem_of_reflects hrefl hlt fun l hl' => (hold l hl').2⟩
  cases hrefl with
  | scalar s => rfl
  | old _ l hd' =>
    obtain ⟨y, hy⟩ := (hold l (by rw [olds_old hd']; exact mem_singleton.mpr rfl)).1
    exact hs.models.deref_ref hy
  | new _ l y _ _ hy _ _ => exact hs.models.deref_ref hy

theorem Stage.guardSite {s : State} (hs : Stage c body p s.workspace h rs) (hl : Layout c fields body items)
    (hp : PatchOf c met p) (hm : Met c fields met) (hx : x ∈ met) {drafts : List Draft}
    (hop : c.operands x = some drafts) {m : ℕ} (hr : x.ref = .part m) (hnew : p.new m = none) {q : Pending}
    (hq : c.Pends h (x, drafts) q) {rest : List Ref} (hspare : h.Spare c.base s.workspace.fresh (q.operands ++ rest))
    (guard : String) :
    ∃ w h' e, (Expansion.guardSite (.str guard) q).result s = (.ok (), { s with workspace := w }) ∧
      Stage c body (p.guarding m e) w h' rs ∧ Guarded h' c.base guard drafts e ∧ h'.Spare c.base w.fresh rest ∧
      ∀ (n : ℕ) y, c.base ≤ n → h n = some y → h' n = some y := by
  have hxs := (hm.judged x hx).shows
  have hlt : m < c.base := hl.ready.marks_lt hxs (mem_marks_of_ref hr)
  have hmb : m ≠ body := fun e => hl.body_not_mem (hm.nodes hx) (e ▸ mem_marks_of_ref hr)
  obtain ⟨xs, rfl⟩ : ∃ xs, x = obj m xs := by
    obtain ⟨_, _, hcall, _⟩ := exists_call hop
    cases x with
    | scalar | arr => cases hcall
    | obj n xs => cases hr; exact ⟨xs, rfl⟩
  have hheap : c.heap m = some (.record (Table.mapValues ref xs)) := hxs.here rfl
  have hcell : h m = some (.record (Table.mapValues (standIn p.gone p.empty) (Table.mapValues ref xs))) := by
    rw [hs.cells m hlt hmb, hheap]
    simp only [Option.map_some, Patch.cell, hnew, Cell.under_none, Cell.prune]
  have hoperand : ∀ r ∈ q.operands, (s.workspace.deref r).ref = r ∧ m ∉ (s.workspace.deref r).marks := by
    intro r hrm
    obtain ⟨d, hd, hz⟩ := exists_mem_zip hq.operands.1 hrm
    exact hs.operand hl hp hm hx hop hr hnew hd (hq.operands.2 _ hz)
  set ds := q.operands.map fun r => (s.workspace.deref r).draft with hds
  set chain : Draft := Node.parenthesized (guardChain (.str guard) ds) with hchain
  have hground : Grounded (Function.update h m none) chain := by
    have hds' : ∀ d ∈ ds, Grounded (Function.update h m none) d := by
      intro d hd
      obtain ⟨r, hrm, rfl⟩ := mem_map.mp hd
      exact .shown _ ((hs.models.shows_deref r).without (hoperand r hrm).2)
    exact .make _ (by simpa using guardChain_grounded (.scalar _) hds')
  obtain ⟨h', e, hmodels, hwrites, hrefl, hframe, hcharges⟩ := hs.models.setPartField hcell "expression" hground
  have hspare' : h'.Spare c.base (s.workspace.setPartField m "expression" chain).fresh rest := by
    have := hspare.charges hcharges hwrites.le fun n _ => Nat.le_of_eq (by
      rw [hchain, olds_guardChain, hds, count_olds_drafts fun r hr => (hoperand r hr).1])
    rwa [append_nil] at this
  have hold : ∀ (n : ℕ) y, c.base ≤ n → h n = some y → h' n = some y := fun n y hn hy =>
    hwrites.cell hs.models.below (by omega) hy
  have hrun : (Expansion.guardSite (.str guard) q).result s =
      (.ok (), { s with workspace := s.workspace.setPartField m "expression" chain }) := by
    refine result_act_ok ?_
    obtain ⟨now, hnow, _⟩ := hs.models.exists_record hcell
    have hnode : s.workspace.node q.site = obj m now := by
      rw [Workspace.node, hs.keeps.path _ hq.bound]
      have := hq.path
      rw [Scan.ofPath] at this
      rw [this]
      exact hs.models.deref_eq hnow
    simp only [Workspace.setField, hnode]
    rfl
  refine ⟨_, h', e, hrun, ⟨hmodels, hs.keeps.trans hframe.keeps, Nat.le_trans hs.le hwrites.le, fun n hn hnb => ?_,
    ?_, fun n fs hfs r hrm hg => (hs.empties n fs hfs r hrm hg).mono (Nat.le_refl _) hold,
    hspare'.mono (nil_sublist _)⟩, ?_, hspare', hold⟩
  · by_cases hnm : n = m
    · subst hnm
      rw [hwrites.here, hheap]
      simp only [Option.map_some, Patch.cell, Patch.guarding_new_self, Cell.prune, Cell.under, Patch.guarding_gone,
        Patch.guarding_empty]
    · rw [hwrites.old n (Nat.lt_of_lt_of_le hn hs.le) hnm, hs.cells n hn hnb]
      refine congrArg (Option.map · (c.heap n)) (funext fun y => ?_)
      rw [Patch.cell, Patch.cell, p.guarding_new_of_ne m e hnm]
      rfl
  · rw [hwrites.cell hs.models.below (Ne.symm hmb) hs.list]
  · refine ⟨ds, q.operands, hrefl.mono hs.le fun _ _ _ hy => hy, ⟨by simp [hds], fun z hz => ?_⟩,
      hq.operands.mono (Nat.le_refl _) hold⟩
    rw [hds, zip_map_left, mem_map] at hz
    obtain ⟨⟨r, r'⟩, hz, rfl⟩ := hz
    obtain ⟨i, hi⟩ := mem_iff_getElem?.mp hz
    rw [getElem?_zip_eq_some] at hi
    obtain rfl : r = r' := Option.some.inj (hi.1.symm.trans hi.2)
    have := Reflects_draft (h := h') c.base (s.workspace.deref r)
    rwa [(hoperand r (mem_of_getElem? hi.1)).1] at this

theorem PatchOf.guarding (hp : PatchOf c met p) (hx : x ∈ met) {m : Mark} (hr : x.ref = .part m) (e : Ref) :
    PatchOf c met (p.guarding m e) := by
  refine ⟨hp.gone, fun n hn => ?_⟩
  by_cases hnm : n = m
  · exact ⟨x, hx, hnm ▸ hr⟩
  · rw [p.guarding_new_of_ne m e hnm] at hn
    exact hp.new n hn

end Site

section Run

/-- The statements of some sites are under guard; the patch is otherwise as before. -/
structure Guards (c : Scan) (h : Heap) (guard : String) (sites : List (Tree Mark × List Draft)) (p p' : Patch) :
    Prop where
  gone : p'.gone = p.gone
  empty : p'.empty = p.empty
  each : ∀ site ∈ sites, ∀ m, site.1.ref = .part m → ∃ e, p'.new m = some e ∧ Guarded h c.base guard site.2 e
  others : ∀ m, (∀ site ∈ sites, site.1.ref ≠ .part m) → p'.new m = p.new m

/-- Putting statements under guard one after the other. -/
theorem Stage.guardSites {s : State} {sites : List (Tree Mark × List Draft)} {qs : List Pending}
    (hs : Stage c body p s.workspace h rs) (hl : Layout c fields body items) (hp : PatchOf c met p)
    (hm : Met c fields met) (hsites : ∀ site ∈ sites, site.1 ∈ met ∧ c.operands site.1 = some site.2)
    (hfree : ∀ site ∈ sites, ∀ m, site.1.ref = .part m → p.new m = none)
    (hdist : sites.Pairwise fun a b => a.1.ref ≠ b.1.ref) (hqs : List.Forall₂ (c.Pends h) sites qs)
    (hspare : h.Spare c.base s.workspace.fresh (qs.flatMap Pending.operands)) (guard : String) :
    ∃ w h' p', (qs.forM (Expansion.guardSite (.str guard))).result s = (.ok (), { s with workspace := w }) ∧
      Stage c body p' w h' rs ∧ PatchOf c met p' ∧ Guards c h' guard sites p p' ∧
      ∀ (n : ℕ) y, c.base ≤ n → h n = some y → h' n = some y := by
  induction sites generalizing s h p qs with
  | nil =>
    cases hqs
    exact ⟨_, h, p, rfl, hs, hp, ⟨rfl, rfl, by simp, fun _ _ => rfl⟩, fun _ _ _ hy => hy⟩
  | cons site sites ih =>
    obtain ⟨x, drafts⟩ := site
    obtain ⟨q, qs, hq, hrest, rfl⟩ := forall₂_cons_left_iff.mp hqs
    rw [forall_mem_cons] at hsites hfree
    rw [pairwise_cons] at hdist
    obtain ⟨m, hr⟩ := Scan.exists_ref_of_isStatement (hm.judged x hsites.1.1).statement
    obtain ⟨w₁, h₁, e, run₁, hs₁, hg₁, hspare₁, hold₁⟩ :=
      hs.guardSite hl hp hm hsites.1.1 hsites.1.2 hr (hfree.1 m hr) hq hspare guard
    have hne : ∀ site ∈ sites, ∀ n, site.1.ref = .part n → n ≠ m := by
      intro site hsite n hn e
      exact hdist.1 site hsite (by rw [hn, e]; exact hr)
    obtain ⟨w₂, h₂, p', run₂, hs₂, hp₂, hg₂, hold₂⟩ := ih (s := { s with workspace := w₁ }) hs₁
      (hp.guarding hsites.1.1 hr e) hsites.2
      (fun site hsite n hn => by rw [p.guarding_new_of_ne m e (hne site hsite n hn)]; exact hfree.2 site hsite n hn)
      hdist.2 (Scan.Scanned.pending_mono hrest hold₁) hspare₁
    refine ⟨w₂, h₂, p', ?_, hs₂, hp₂, ⟨hg₂.gone, hg₂.empty, ?_, fun n hn => ?_⟩, fun n y hn hy =>
      hold₂ n y hn (hold₁ n y hn hy)⟩
    · rw [List.forM, result_bind_ok run₁, run₂]
    · refine forall_mem_cons.mpr ⟨fun n hn => ?_, hg₂.each⟩
      obtain rfl : n = m := by rw [hr] at hn; cases hn; rfl
      refine ⟨e, ?_, hg₁.mono hold₂⟩
      rw [hg₂.others n fun site hsite hsn => hne site hsite n hsn rfl, p.guarding_new_self]
    · rw [forall_mem_cons] at hn
      rw [hg₂.others n hn.2, p.guarding_new_of_ne m e]
      rintro rfl
      exact hn.1 hr

theorem Scan.mem_sites {site : Tree Mark × List Draft} (hsite : site ∈ c.sites met) :
    site.1 ∈ met ∧ c.operands site.1 = some site.2 := by
  obtain ⟨x, hx, he⟩ := mem_filterMap.mp hsite
  obtain ⟨drafts, hd, rfl⟩ := Option.map_eq_some_iff.mp he
  exact ⟨hx, hd⟩

theorem Met.sites_pairwise (hm : Met c fields met) (hap : met.Pairwise Apart) :
    (c.sites met).Pairwise fun a b => a.1.ref ≠ b.1.ref := by
  rw [Scan.sites, pairwise_filterMap]
  refine hap.imp_of_mem fun {a b} ha hb hab site hsite site' hsite' => ?_
  obtain ⟨_, _, rfl⟩ := Option.map_eq_some_iff.mp hsite
  obtain ⟨_, _, rfl⟩ := Option.map_eq_some_iff.mp hsite'
  intro e
  obtain ⟨m, hr⟩ := Scan.exists_ref_of_isStatement (hm.judged b hb).statement
  exact hab m (e.trans hr) (mem_marks_of_ref hr)

/-- The sites that are pending are those of the statements met, in some order. -/
def Scan.Awaits (c : Scan) (h : Heap) (met : List (Tree Mark)) (qs : List Pending) : Prop :=
  ∃ sites, sites.Perm (c.sites met) ∧ List.Forall₂ (c.Pends h) sites qs

namespace Scan.Awaits

variable {qs qs' : List Pending}

theorem of_forall₂ (hqs : List.Forall₂ (c.Pends h) (c.sites met) qs) : c.Awaits h met qs := ⟨_, .refl _, hqs⟩

theorem length_eq (ha : c.Awaits h met qs) : qs.length = (c.sites met).length := by
  obtain ⟨sites, hperm, hqs⟩ := ha
  rw [← hqs.length_eq, hperm.length_eq]

theorem mono {h' : Heap} (ha : c.Awaits h met qs) (hh : ∀ (m : ℕ) y, c.base ≤ m → h m = some y → h' m = some y) :
    c.Awaits h' met qs := by
  obtain ⟨sites, hperm, hqs⟩ := ha
  exact ⟨sites, hperm, Scan.Scanned.pending_mono hqs hh⟩

/-- The order does not matter. -/
theorem perm (ha : c.Awaits h met qs) (hq : qs'.Perm qs) : c.Awaits h met qs' := by
  obtain ⟨sites, hperm, hqs⟩ := ha
  obtain ⟨sites', hsites, hqs'⟩ := perm_comp_forall₂ hq hqs.flip
  exact ⟨sites', hqs'.trans hperm, hsites.flip⟩

end Scan.Awaits

theorem result_finalize {s s₁ : State} {guard : Json} (hf : s.finalized = false)
    (run : (s.pending.forM (guardSite guard)).result { s with finalized := true } = (.ok (), s₁)) :
    ∃ log, (finalize guard).result s = (.ok s.pending.length, { s₁ with log := log }) := by
  rw [finalize, result_get_bind]
  simp only [hf, Bool.false_eq_true, if_false]
  rw [result_bind_ok (result_modify ..), result_get_bind, result_bind_ok run,
    result_bind_ok (result_record ..)]
  exact ⟨_, rfl⟩

theorem Stage.finalize {s : State} (hs : Stage c body p s.workspace h rs) (hl : Layout c fields body items)
    (hp : PatchOf c met p) (hm : Met c fields met) (hap : met.Pairwise Apart) (hfree : ∀ m, p.new m = none)
    (hf : s.finalized = false) (hqs : c.Awaits h met s.pending)
    (hspare : h.Spare c.base s.workspace.fresh (s.pending.flatMap Pending.operands)) (guard : String) :
    ∃ w h' p' log, (Expansion.finalize (.str guard)).result s =
        (.ok s.pending.length, { s with workspace := w, finalized := true, log := log }) ∧
      Stage c body p' w h' rs ∧ PatchOf c met p' ∧ Guards c h' guard (c.sites met) p p' ∧
      ∀ (n : ℕ) y, c.base ≤ n → h n = some y → h' n = some y := by
  obtain ⟨sites, hperm, hqs⟩ := hqs
  obtain ⟨w, h', p', run, hs', hp', hg, hold⟩ := Stage.guardSites (s := { s with finalized := true }) hs hl hp hm
    (fun _ hsite => Scan.mem_sites (hperm.mem_iff.mp hsite)) (fun _ _ m _ => hfree m)
    (hperm.symm.pairwise (hm.sites_pairwise hap) fun hab => Ne.symm hab) hqs hspare guard
  obtain ⟨log, hrun⟩ := result_finalize hf run
  refine ⟨w, h', p', log, hrun, hs', hp', ⟨hg.gone, hg.empty, fun site hsite => hg.each site (hperm.mem_iff.mpr hsite),
    fun m hm => hg.others m fun site hsite => hm site (hperm.mem_iff.mp hsite)⟩, hold⟩

end Run

end Expansion

end DebugGuards
