import DebugGuards.Proofs.Expansion.Inline

/-! Resolving the guard. The import that binds the debug flag is inlined and its name
reused; without one a constant of a fresh name is made, if any statement waits for it.
Then the registered statements are put under guard. -/

namespace DebugGuards.Expansion

open DebugGuards.Tree Node List

section Declarer

namespace Entry

/-- The last entry that declares a name. -/
def declarer? (es : List Entry) (n : String) : Option Entry := (es.filter fun e => e.names.contains n).getLast?

/-- The import that binds the debug flag, if it comes from the flags module. -/
def debug? (o : Options) (es : List Entry) : Option (Tree Mark) :=
  ((declarer? es debugFlag).bind import?).filter fun x => sourceOf x == o.envFlags.source

variable {es : List Entry} {ys : List (Tree Mark)} {n : String} {o : Options} {x : Tree Mark}

theorem debug?_spec (hd : debug? o es = some x) :
    old x ∈ es ∧ isImport x = true ∧ sourceOf x = o.envFlags.source := by
  rw [debug?, Option.filter_eq_some_iff, Option.bind_eq_some_iff] at hd
  obtain ⟨⟨e, he, hx⟩, hsource⟩ := hd
  obtain ⟨rfl, hi⟩ := eq_old_of_import hx
  exact ⟨(mem_filter.mp (mem_of_getLast? he)).1, hi, by simpa using hsource⟩

theorem declarer?_stands (h : List.Forall₂ Stands es ys) (n : String) :
    (declarer? es n = none ∧ DebugGuards.declarer? ys n = none) ∨
      ∃ e y, declarer? es n = some e ∧ DebugGuards.declarer? ys n = some y ∧ e.Stands y ∧ e ∈ es ∧ y ∈ ys := by
  induction h with
  | nil => exact .inl ⟨rfl, rfl⟩
  | @cons e y es ys hey _ ih =>
    rw [declarer?, DebugGuards.declarer?] at ih ⊢
    rw [filter_cons, filter_cons, hey.names]
    cases e.names.contains n with
    | false =>
      obtain ⟨h1, h2⟩ | ⟨e', y', h1, h2, h3, h4, h5⟩ := ih
      · exact .inl ⟨h1, h2⟩
      · exact .inr ⟨e', y', h1, h2, h3, mem_cons_of_mem _ h4, mem_cons_of_mem _ h5⟩
    | true =>
      rw [if_pos rfl, if_pos rfl, getLast?_cons, getLast?_cons]
      obtain ⟨h1, h2⟩ | ⟨e', y', h1, h2, h3, h4, h5⟩ := ih
      · rw [h1, h2]
        exact .inr ⟨e, y, rfl, rfl, hey, mem_cons_self .., mem_cons_self ..⟩
      · rw [h1, h2]
        exact .inr ⟨e', y', rfl, rfl, h3, mem_cons_of_mem _ h4, mem_cons_of_mem _ h5⟩

end Entry

end Declarer

namespace Standing

variable {c : Scan} {fields : Fields Mark} {body : Mark} {items met : List (Tree Mark)} {guard : String}
  {p : Patch} {es pre post : List Entry} {s : State} {h : Heap} {rs : List Ref} {x : Tree Mark} {o : Options}

/-- Before anything is put under guard its name does not matter. -/
theorem anyGuard {w : Workspace} (hs : Standing c fields body items met guard p es w h rs) (hfree : ∀ m, p.new m = none)
    (g : String) : Standing c fields body items met g p es w h rs := by
  refine ⟨hs.layout, hs.judged, hs.stage, hs.patch, fun m e he => ?_, hs.entries, hs.olds, hs.kept, hs.news⟩
  rw [hfree m] at he
  cases he

theorem addPath {w : Workspace} (hs : Standing c fields body items met guard p es w h rs) (q : Path) :
    Standing c fields body items met guard p es (w.addPath q).2 h rs :=
  ⟨hs.layout, hs.judged, ⟨hs.stage.models.addPath q, hs.stage.keeps.trans (.addPath _ q), hs.stage.le,
    hs.stage.cells, hs.stage.list, hs.stage.empties, hs.stage.sole⟩, hs.patch, hs.guarding, hs.entries,
    hs.olds, hs.kept, hs.news⟩

section Debug

theorem debugImport (hs : Standing c fields body items met guard p es s.workspace h rs) {found : Option (Tree Mark)}
    (hd : Entry.debug? o es = found) :
    (debugImport? o).result s = found.elim (.ok none, s) fun x => (.ok (some s.workspace.paths.size),
      { s with workspace := (s.workspace.addPath (Contents.place s.workspace body x)).2 }) := by
  obtain ⟨gs, hc⟩ := hs.contents
  rw [debugImport?, result_look_bind (hc.binding?_eq debugFlag), ← hd, Entry.debug?]
  obtain ⟨h1, h2⟩ | ⟨e, y, h1, h2, hey, he, hy⟩ := Entry.declarer?_stands hs.stands debugFlag
  · rw [h1, h2]
    rfl
  rw [h1, h2, Option.map_some, Option.bind_some]
  have hkeyword := Contents.keyword_eq_module (hc.nodes y hy) (hc.legal hy)
  have himport := hey.imports
  cases hx : e.import? with
  | none =>
    rw [hx] at himport
    rw [himport] at hkeyword
    have hnot : keyword y ≠ .str "module" := fun e => by simpa using hkeyword.mp e
    simp only [Contents.binding]
    rfl
  | some x =>
    obtain rfl := hey.same x hx
    rw [hx] at himport
    rw [himport] at hkeyword
    have hsource : s.workspace.bindingSource (Contents.binding s.workspace body debugFlag y) =
        .ok (.str (sourceOf y)) := by
      rw [Workspace.bindingSource, Contents.binding, hkeyword.mpr rfl]
      rw [Contents.place, hs.stage.models.deref_eq (hs.shows_import ((Entry.eq_old_of_import hx).1 ▸ he) himport)]
      exact importSource_eq (hc.legal hy) himport
    have hflags : (Work.look (fun w => w.bindingSource (Contents.binding s.workspace body debugFlag y)) >>= fun t =>
        pure (t.equal (.str o.envFlags.source))).result s = (.ok (sourceOf y == o.envFlags.source), s) := by
      rw [result_look_bind hsource, result_pure, equal_str]
    have hkind : (Contents.binding s.workspace body debugFlag y).kind = .str "module" := hkeyword.mpr rfl
    simp only [hkind]
    rw [result_bind_ok hflags, Option.filter_some]
    cases sourceOf y == o.envFlags.source <;> rfl

end Debug

end Standing

/-- The statements to be put under guard are registered, and none is yet. -/
structure Registered (c : Scan) (fields : List (String × Tree Mark)) (body : Mark) (items met : List (Tree Mark))
    (es : List Entry) (s : State) (p : Patch) (h : Heap) (rs : List Ref) : Prop where
  standing : ∀ guard, Standing c fields body items met guard p es s.workspace h rs
  apart : met.Pairwise Apart
  free : ∀ m, p.new m = none
  unfinished : s.finalized = false
  pending : c.Awaits h met s.pending
  spare : h.Spare c.base s.workspace.fresh (s.pending.flatMap Pending.operands)

/-- All registered statements are under guard. -/
def Rewritten (c : Scan) (fields : List (String × Tree Mark)) (body : Mark) (items met : List (Tree Mark))
    (guard : String) (es : List Entry) (w : Workspace) : Prop :=
  ∃ p h rs, Standing c fields body items met guard p es w h rs ∧ Complete c met p

namespace Registered

variable {c : Scan} {fields : Fields Mark} {body : Mark} {items met : List (Tree Mark)}
  {p : Patch} {es pre post : List Entry} {s : State} {h : Heap} {rs : List Ref} {x : Tree Mark} {o : Options}

section

variable (hr : Registered c fields body items met es s p h rs)
include hr

theorem finalize (guard : String) :
    ∃ w log, (Expansion.finalize (.str guard)).result s =
        (.ok s.pending.length, { s with workspace := w, finalized := true, log := log }) ∧
      Rewritten c fields body items met guard es w := by
  obtain ⟨w, h', p', log, hrun, hs, hcomplete, _⟩ :=
    (hr.standing guard).finalize hr.apart hr.free hr.unfinished hr.pending hr.spare guard
  exact ⟨w, log, hrun, p', h', rs, hs, hcomplete⟩

/-- The workspace moves on while nothing is put under guard. -/
theorem step {es' : List Entry} {w : Workspace} {h' : Heap}
    {rs' : List Ref} {guard : String} (hs : Standing c fields body items met guard p es' w h' rs')
    (hold : c.Outlives s.workspace h w h') (log : List Record) :
    Registered c fields body items met es' { s with workspace := w, log := log } p h' rs' :=
  ⟨fun g => hs.anyGuard hr.free g, hr.apart, hr.free, hr.unfinished, hr.pending.mono hold.cells,
    hold.spare _ hr.spare⟩

theorem isEmpty_pending : s.pending.isEmpty = (c.sites met).isEmpty := by
  have hlen := hr.pending.length_eq
  cases hp : s.pending <;> cases hc : c.sites met <;> simp_all

end

section Reuse

theorem addPath (hr : Registered c fields body items met es s p h rs) (q : Path) :
    Registered c fields body items met es { s with workspace := (s.workspace.addPath q).2 } p h rs :=
  hr.step ((hr.standing "").addPath q) ⟨fun _ _ _ hy => hy, fun _ h => h⟩ s.log

theorem resolve_reuse_error (hr : Registered c fields body items met es s p h rs) (hd : Entry.debug? o es = some x)
    {f : String} (hm : missing? o.envFlags.flags x = some f) (summary : Summary) :
    ∃ w, (resolveGuard o summary).result s =
        (.error (.unknownFlag f o.envFlags.source), { s with workspace := w }) ∧
      ∀ guard, Standing c fields body items met guard p es w h rs := by
  obtain ⟨hmem, hi, hsource⟩ := Entry.debug?_spec hd
  have hr' := hr.addPath (Contents.place s.workspace body x)
  refine ⟨_, ?_, hr'.standing⟩
  have hpath : (s.workspace.addPath (Contents.place s.workspace body x)).2.path s.workspace.paths.size =
      Contents.place s.workspace body x := s.workspace.addPath_path _
  rw [resolveGuard, result_bind_ok ((hr.standing "").debugImport hd)]
  dsimp only
  rw [result_bind_error ((hr'.standing "").inlineFlags_error hmem hi hpath hm), hsource]

theorem resolve_reuse (hr : Registered c fields body items met (pre ++ .old x :: post) s p h rs)
    (hd : Entry.debug? o (pre ++ .old x :: post) = some x) (hm : missing? o.envFlags.flags x = none)
    (summary : Summary) :
    ∃ w log, (resolveGuard o summary).result s =
        (.ok { summary with guard := some debugFlag, inlined := summary.inlined + (named x).length },
          { s with workspace := w, finalized := true, log := log }) ∧
      Rewritten c fields body items met debugFlag
        (pre ++ (constantsOf c.start.dialect o.envFlags.flags x).map .new ++ post) w := by
  obtain ⟨hmem, hi, hsource⟩ := Entry.debug?_spec hd
  have hr' := hr.addPath (Contents.place s.workspace body x)
  have hpath : (s.workspace.addPath (Contents.place s.workspace body x)).2.path s.workspace.paths.size =
      Contents.place s.workspace body x := s.workspace.addPath_path _
  obtain ⟨w, h', rs', log, hinline, hf, hs', hold⟩ := (hr'.standing "").inlineFlags_ok hi hpath hm
  obtain ⟨w', log', hfinal, hrewritten⟩ := (hr'.step hs' hold log).finalize debugFlag
  refine ⟨w', log', ?_, hrewritten⟩
  rw [resolveGuard, result_bind_ok ((hr.standing "").debugImport hd)]
  dsimp only
  rw [result_bind_ok hinline, result_bind_ok hfinal]
  rfl

end Reuse

section Make

section

variable (hr : Registered c fields body items met es s p h rs)
include hr

theorem exists_freshName :
    ∃ g, s.workspace.freshName debugFlag = .ok g ∧ (∀ e ∈ es, g ∉ e.names) ∧
      ∀ n ∈ nodesFields s.workspace.programNode.fields, g ∉ declares n := by
  obtain ⟨gs, hc⟩ := (hr.standing "").contents
  obtain ⟨g, hg, hfree, hunseen⟩ := hc.exists_freshName debugFlag
  refine ⟨g, hg, fun e he => ?_, fun n hn hdecl => ?_⟩
  · obtain ⟨y, hy, hey⟩ := forall₂_exists_right (hr.standing "").stands he
    rw [← hey.names]
    exact hfree y hy
  · rw [hc.program] at hn
    obtain ⟨hnode, hlegal⟩ := hc.node_legal hn
    obtain ⟨i, hi, hid, rfl⟩ := occurs_of_declares hlegal hnode hdecl
    exact hunseen i (nodesFields_trans hn hi) hid rfl

theorem resolve_idle (hd : Entry.debug? o es = none) (hsites : c.sites met = []) (summary : Summary) :
    ∃ w log g, (resolveGuard o summary).result s =
        (.ok summary, { s with workspace := w, finalized := true, log := log }) ∧
      Rewritten c fields body items met g es w := by
  obtain ⟨g, hg, _⟩ := hr.exists_freshName
  obtain ⟨w, log, hfinal, hrewritten⟩ := hr.finalize g
  refine ⟨w, log, g, ?_, hrewritten⟩
  have hempty : s.pending.isEmpty = true := by rw [hr.isEmpty_pending, hsites]; rfl
  rw [resolveGuard, result_bind_ok ((hr.standing "").debugImport hd)]
  dsimp only
  rw [result_look_bind hg, result_get_bind, hempty, if_pos rfl,
    result_bind_ok hfinal]
  rfl

theorem resolve_error (hd : Entry.debug? o es = none)
    (hsites : c.sites met ≠ []) (hflag : Table.get? o.envFlags.flags debugFlag = none) (summary : Summary) :
    (resolveGuard o summary).result s = (.error (.unknownFlag debugFlag o.envFlags.source), s) := by
  obtain ⟨g, hg, _⟩ := hr.exists_freshName
  have hempty : s.pending.isEmpty = false := by rw [hr.isEmpty_pending]; simpa using hsites
  rw [resolveGuard, result_bind_ok ((hr.standing "").debugImport hd)]
  dsimp only
  rw [result_look_bind hg, result_get_bind, hempty, hflag]
  rfl

end

theorem copy_constant (name : String) (dialect : Dialect) (i : Int) :
    (constant (.str name) (dialect.literal (.int i)) : Json).copy =
      constant (.str name) (dialect.literal (.int i)) := by
  cases dialect <;> rfl

theorem resolve_make (hr : Registered c fields body items met es s p h rs) (hd : Entry.debug? o es = none)
    (hsites : c.sites met ≠ []) {i : Int} (hflag : Table.get? o.envFlags.flags debugFlag = some i) (summary : Summary) :
    ∃ w log g, (resolveGuard o summary).result s = (.ok { summary with guard := some g, synthesized := true },
        { s with workspace := w, finalized := true, log := log }) ∧ (∀ e ∈ es, g ∉ e.names) ∧
      (∀ n ∈ nodesFields s.workspace.programNode.fields, g ∉ declares n) ∧
      Rewritten c fields body items met g
        (.new (constant (.str g) (c.start.dialect.literal (.int i))) :: es) w := by
  obtain ⟨g, hg, hfree, hunseen⟩ := hr.exists_freshName
  have hempty : s.pending.isEmpty = false := by rw [hr.isEmpty_pending]; simpa using hsites
  have hconstant : Constant (constant (.str g) (c.start.dialect.literal (.int i))) := ⟨g, _, i, rfl⟩
  obtain ⟨w, h', rs', hinsert, hf, hs', hold⟩ := (hr.standing "").insertTop hconstant
  obtain ⟨w', log', hfinal, hrewritten⟩ := (hr.step hs' hold s.log).finalize g
  refine ⟨w', log', g, ?_, hfree, hunseen, hrewritten⟩
  rw [copy_constant, ← (hr.standing "").stage.keeps.dialect] at hinsert
  rw [resolveGuard, result_bind_ok ((hr.standing "").debugImport hd)]
  dsimp only
  rw [result_look_bind hg, result_get_bind, hempty, hflag, if_neg Bool.false_ne_true]
  dsimp only
  rw [result_bind_ok (result_act_ok hinsert), result_bind_ok hfinal]
  rfl

end Make

end Registered

end DebugGuards.Expansion
