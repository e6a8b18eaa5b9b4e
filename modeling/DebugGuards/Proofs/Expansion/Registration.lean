import DebugGuards.Proofs.Expansion.Dispatch
import DebugGuards.Proofs.Workspace.Framed

/-! The scan of an arbitrary document. Whatever the statements look like, the scan does not
touch the way to their list, and the call sites and operands it registers are parts off
the way. -/

namespace DebugGuards.Expansion

open DebugGuards.Tree Node List

variable {K : List Mark} {n : Mark} {s s' : State}

section Reading

variable {x y : Tree Mark} {xs : List (Tree Mark)} {key : String}

theorem Inner.get (hx : Inner K n x) (hy : x.get key = .ok y) : Inner K n y := by
  cases x with
  | scalar | arr => cases hy
  | obj m fields =>
    cases hy
    cases hg : Table.get? fields key with
    | none => exact .scalar .null
    | some z => exact hx.child (mem_map_of_mem (Table.mem_of_get? hg))

theorem Inner.elements (hx : Inner K n x) (hy : x.elements = .ok xs) : ∀ y ∈ xs, Inner K n y := by
  intro y hm
  cases x with
  | arr m items => cases hy; exact hx.child hm
  | obj m fields =>
    cases hy
    obtain ⟨e, _, rfl⟩ := mem_map.mp hm
    exact .scalar _
  | scalar s =>
    cases s with
    | str t =>
      cases hy
      obtain ⟨c, _, rfl⟩ := mem_map.mp hm
      exact .scalar _
    | _ => cases hy

theorem Inner.elementsOf (hx : Inner K n x) (hy : x.elementsOf key = .ok xs) : ∀ y ∈ xs, Inner K n y := by
  cases x with
  | scalar | arr => cases hy
  | obj m fields =>
    simp only [Tree.elementsOf, Tree.get?, bind, Except.bind] at hy
    cases hg : Table.get? fields key with
    | none => rw [hg] at hy; cases hy; simp
    | some z =>
      rw [hg] at hy
      exact Inner.elements (hx.child (mem_map_of_mem (Table.mem_of_get? hg))) hy

end Reading

section Making

theorem innerDraft_scalar (s : Scalar) : InnerDraft K n (.scalar s) := innerDraft_made (.inr rfl) (by simp [children])

theorem innerDraft_make (kind : String) {fields : List (String × Draft)} (hf : ∀ e ∈ fields, InnerDraft K n e.2) :
    InnerDraft K n (make kind fields) := by
  refine innerDraft_made (.inl rfl) fun c hc => ?_
  simp only [make, children, map_cons, mem_cons, mem_map] at hc
  rcases hc with rfl | ⟨e, he, rfl⟩
  · exact innerDraft_scalar _
  · exact hf e he

theorem innerDraft_call {f : Draft} {arguments : List Draft} (hf : InnerDraft K n f)
    (ha : ∀ a ∈ arguments, InnerDraft K n a) : InnerDraft K n (call f arguments) := by
  refine innerDraft_make _ fun e he => ?_
  simp only [mem_cons, not_mem_nil, or_false] at he
  rcases he with rfl | rfl | rfl
  · exact hf
  · exact innerDraft_made (.inl rfl) ha
  · exact innerDraft_scalar _

theorem innerDraft_identifier (name : String) : InnerDraft K n (identifier (.str name)) :=
  innerDraft_make _ (by simpa using innerDraft_scalar _)

theorem innerDraft_member (a b : String) : InnerDraft K n (member (identifier (.str a)) (identifier (.str b))) :=
  innerDraft_make _ (by simpa using ⟨innerDraft_identifier a, innerDraft_identifier b, innerDraft_scalar _⟩)

theorem helperCall_inner {o : Options} {helper : String} {arguments : List Draft} {d : Draft}
    (ha : ∀ a ∈ arguments, InnerDraft K n a) (hd : helperCall o helper arguments = .ok d) : InnerDraft K n d := by
  rw [helperCall] at hd
  cases hc : (callee o.target helper : Except Failure Draft) with
  | error e => rw [hc] at hd; cases hd
  | ok f =>
    rw [hc] at hd
    cases hd
    refine innerDraft_call ?_ ha
    unfold callee at hc
    split at hc
    · cases hc; exact innerDraft_member _ _
    · cases hc; exact innerDraft_identifier _
    · split at hc
      · cases hc; exact innerDraft_member _ _
      · cases hc

theorem literal_inner (dialect : Dialect) (text : String) : InnerDraft K n (dialect.literal (.str text)) := by
  cases dialect with
  | uniform => exact innerDraft_make _ (by simpa using ⟨innerDraft_scalar _, innerDraft_scalar _⟩)
  | kinded =>
    refine innerDraft_make _ fun e he => ?_
    simp only [mem_cons, not_mem_nil, or_false] at he
    rcases he with rfl | rfl
    · exact innerDraft_scalar _
    · refine innerDraft_made (.inl rfl) fun c hc => ?_
      simp only [children, map_cons, map_nil, mem_cons, not_mem_nil, or_false] at hc
      rcases hc with rfl | rfl <;> exact innerDraft_scalar _

end Making

/-- A path of the workspace tracks a node off the way. -/
def Tracks (K : List Mark) (w : Workspace) (site : PathId) : Prop :=
  site < w.paths.size ∧ InnerRef K w.fresh (w.path site).node

/-- A registered call site whose parts are off the way. -/
def Pending.Off (K : List Mark) (w : Workspace) (p : Pending) : Prop :=
  Tracks K w p.site ∧ ∀ r ∈ p.operands, InnerRef K w.fresh r

/-- From one state to another the way and the paths are kept, and what is registered is off the
way. -/
structure Advances (K : List Mark) (s s' : State) : Prop where
  keeping : s'.workspace.Keeping K
  paths : s'.workspace.paths = s.workspace.paths
  dialect : s'.workspace.dialect = s.workspace.dialect
  fresh : (s.workspace.fresh : ℕ) ≤ s'.workspace.fresh
  pending : (∀ p ∈ s.pending, p.Off K s.workspace) → ∀ p ∈ s'.pending, p.Off K s'.workspace

namespace Advances

theorem of_same (hk : s.workspace.Keeping K) (hw : s'.workspace = s.workspace) (hp : s'.pending = s.pending) :
    Advances K s s' :=
  ⟨hw ▸ hk, by rw [hw], by rw [hw], Nat.le_of_eq (by rw [hw]), fun h => by rw [hw, hp]; exact h⟩

theorem refl (hk : s.workspace.Keeping K) : Advances K s s := .of_same hk rfl rfl

theorem trans {s'' : State} (h : Advances K s s') (h' : Advances K s' s'') : Advances K s s'' :=
  ⟨h'.keeping, h'.paths.trans h.paths, h'.dialect.trans h.dialect, Nat.le_trans h.fresh h'.fresh,
    fun hp => h'.pending (h.pending hp)⟩

theorem path_eq (h : Advances K s s') (i : PathId) : s'.workspace.path i = s.workspace.path i := by
  rw [Workspace.path, h.paths, Workspace.path]

theorem tracks (h : Advances K s s') {site : PathId} (ht : Tracks K s.workspace site) : Tracks K s'.workspace site := by
  rw [Tracks, h.path_eq, h.paths]
  exact ⟨ht.1, ht.2.mono h.fresh⟩

/-- A change of the workspace alone. -/
theorem of_workspace {w : Workspace} (hk : w.Keeping K) (hp : w.paths = s.workspace.paths)
    (hd : w.dialect = s.workspace.dialect) (hn : (s.workspace.fresh : ℕ) ≤ w.fresh) :
    Advances K s { s with workspace := w } := by
  refine ⟨hk, hp, hd, hn, fun h p hm => ⟨⟨?_, ?_⟩, fun r hr => ((h p hm).2 r hr).mono hn⟩⟩
  · exact hp ▸ (h p hm).1.1
  · have hpath : w.path p.site = s.workspace.path p.site := by rw [Workspace.path, hp, Workspace.path]
    show InnerRef K w.fresh (w.path p.site).node
    rw [hpath]
    exact (h p hm).1.2.mono hn

end Advances

/-- From a state a step advances, whether it succeeds or fails, and what it gives is so. -/
def Moves {α : Type} (K : List Mark) (s : State) (x : Work α) (P : State → α → Prop) : Prop :=
  Advances K s (x.result s).2 ∧ ∀ a, (x.result s).1 = .ok a → P (x.result s).2 a

section Builders

variable {α β : Type} {x : Work α} {P : State → α → Prop} {Q : State → β → Prop} {o : Options} {site : PathId}
  {call : Tree Mark}

theorem Moves.bind {f : α → Work β} (hx : Moves K s x P) (hf : ∀ t a, Advances K s t → P t a → Moves K t (f a) Q) :
    Moves K s (x >>= f) Q := by
  obtain ⟨hfirst, hp⟩ := hx
  rw [Moves, result_bind]
  cases hr : x.result s with
  | mk r t =>
    rw [hr] at hfirst hp
    cases r with
    | error e => exact ⟨hfirst, fun _ h => nomatch h⟩
    | ok a =>
      obtain ⟨hrest, hq⟩ := hf t a hfirst (hp a rfl)
      exact ⟨hfirst.trans hrest, hq⟩

section

variable (hk : s.workspace.Keeping K)
include hk

/-- A step that leaves the workspace and what is registered alone. -/
theorem Moves.still (hw : (x.result s).2.workspace = s.workspace) (hp : (x.result s).2.pending = s.pending) :
    Moves K s x fun t a => x.result s = (.ok a, t) :=
  ⟨.of_same hk hw hp, fun _ h => Prod.ext h rfl⟩

theorem Moves.pure {a : α} (h : P s a) : Moves K s (pure a) P := by
  refine ⟨.refl hk, ?_⟩
  rintro _ ⟨⟩
  exact h

theorem hold_moves {d : Draft} (hd : InnerDraft K s.workspace.fresh d) :
    Moves K s (Work.make fun w => w.hold d) fun t ref => InnerRef K t.workspace.fresh ref := by
  obtain ⟨S, items, rfl, hf⟩ := hk
  obtain ⟨hf', hr⟩ := hf.hold hd
  refine ⟨.of_workspace ⟨S, items, rfl, hf'⟩ (Workspace.keep_paths ..) (Workspace.keep_dialect ..) ?_, ?_⟩
  · have hfresh : (s.workspace.hold d).2.fresh = (d.settle s.workspace.fresh).2 := Workspace.keep_fresh _ _
    exact Nat.le_trans (marks_settle d s.workspace.fresh).1 (Nat.le_of_eq hfresh.symm)
  · rintro ref ⟨⟩
    exact hr

theorem terminal_moves {helper : String} {arguments : List Draft}
    (ha : ∀ a ∈ arguments, InnerDraft K s.workspace.fresh a) :
    Moves K s (terminal o helper arguments) fun t ref => InnerRef K t.workspace.fresh ref := by
  refine (Moves.still hk rfl rfl).bind fun t d _ h => ?_
  obtain ⟨hd, rfl⟩ := Prod.mk.inj h
  exact hold_moves hk (helperCall_inner ha hd)

theorem forward_moves {helper : String} {arguments : List (Tree Mark)} (hcall : Inner K s.workspace.fresh call)
    (ha : call.elementsOf "arguments" = .ok arguments) :
    Moves K s (terminal o helper (arguments.map Tree.draft)) fun t ref => InnerRef K t.workspace.fresh ref :=
  terminal_moves hk (forall_mem_map.mpr fun a hm => (Inner.elementsOf hcall ha a hm).draft)

theorem conditions_moves (as : List (Tree Mark)) :
    Moves K s (as.mapM fun a => Work.make fun w => w.hold a.copy) fun t refs => ∀ ref ∈ refs,
      InnerRef K t.workspace.fresh ref := by
  induction as generalizing s with
  | nil => exact .pure hk (forall_mem_nil _)
  | cons a as ih =>
    rw [mapM_cons]
    refine (hold_moves hk (innerDraft_copy a)).bind fun t ref hfirst href => ?_
    refine (ih hfirst.keeping).bind fun u refs hrest hrefs => ?_
    exact .pure hrest.keeping (forall_mem_cons.mpr ⟨href.mono hrest.fresh, hrefs⟩)

theorem register_moves {operands : List Ref} (hsite : Tracks K s.workspace site)
    (hops : ∀ ref ∈ operands, InnerRef K s.workspace.fresh ref) :
    Moves K s (register site operands) fun _ _ => True := by
  refine ⟨?_, fun _ _ => trivial⟩
  rw [register, result_get_bind]
  split
  · exact .refl hk
  · refine ⟨hk, rfl, rfl, Nat.le_refl _, fun hp p hm => ?_⟩
    rcases mem_append.mp hm with hm | hm
    · exact hp p hm
    · obtain rfl := mem_singleton.mp hm
      exact ⟨hsite, hops⟩

theorem expandAssert_moves (hsite : Tracks K s.workspace site) (hcall : Inner K s.workspace.fresh call) :
    Moves K s (expandAssert o site call) fun _ _ => True := by
  refine (Moves.still hk rfl rfl).bind fun t arguments _ h => ?_
  obtain ⟨ha, rfl⟩ := Prod.mk.inj h
  refine (forward_moves hk hcall ha).bind fun t last hfirst hlast => ?_
  refine (conditions_moves hfirst.keeping _).bind fun u conditions hsecond hconds => ?_
  refine register_moves hsecond.keeping (hsecond.tracks (hfirst.tracks hsite)) fun ref href => ?_
  rcases mem_append.mp href with href | href
  · exact hconds ref href
  · exact mem_singleton.mp href ▸ hlast.mono hsecond.fresh

theorem expandWarn_moves (hsite : Tracks K s.workspace site) (hcall : Inner K s.workspace.fresh call) :
    Moves K s (expandWarn o site call) fun _ _ => True := by
  refine (Moves.still hk rfl rfl).bind fun t arguments _ h => ?_
  obtain ⟨ha, rfl⟩ := Prod.mk.inj h
  refine (forward_moves hk hcall ha).bind fun t last hfirst hlast => ?_
  exact register_moves hfirst.keeping (hfirst.tracks hsite) fun ref href => mem_singleton.mp href ▸ hlast

end

/-- A path whose node and slot are off the way, or right on it but not at the statements. -/
structure Seated (S : Spine) (n : Mark) (p : Path) : Prop where
  node : InnerRef S.marks n p.node
  field : ∀ parent key, p.slot = .field parent key → parent ∉ S.marks ∨ parent = S.program.mark ∧ key ≠ "body"
  item : ∀ parent list key, p.slot = .item parent list key → list ∉ S.marks ∨ list = S.list

/-- A way with the same marks has the same program and list. -/
theorem Seated.congr {S S' : Spine} {p : Path} (hp : Seated S n p) (hS : S'.marks = S.marks) : Seated S' n p := by
  have heq := hS
  simp only [Spine.marks, List.cons.injEq] at heq
  refine ⟨hS ▸ hp.node, ?_, ?_⟩
  · rw [hS, heq.2.1]
    exact hp.field
  · rw [hS, heq.1]
    exact hp.item

theorem leftover_inner {x : Tree Mark} {d : Draft} (hd : Workspace.leftover x = .ok d) : InnerDraft K n d := by
  simp only [Workspace.leftover, bind, Except.bind] at hd
  split at hd
  · cases hd
  · split at hd
    · cases hd
      exact innerDraft_scalar _
    · split at hd
      · cases hd
      · cases hd
        split
        · exact innerDraft_make _ (by simp)
        · exact innerDraft_scalar _

theorem remove_keeping {S : Spine} {w w' : Workspace} (hk : w.Keeping S.marks) (hp : Seated S w.fresh (w.path site))
    (hok : w.remove site = .ok w') :
    w'.Keeping S.marks ∧ w'.paths = w.paths ∧ w'.dialect = w.dialect ∧ (w.fresh : ℕ) ≤ w'.fresh := by
  obtain ⟨S', items, hS, hf⟩ := hk
  replace hp := hp.congr hS
  rw [← hS]
  rw [Workspace.remove] at hok
  split at hok
  · cases hok
  · next parent list key hslot =>
    cases hs : w.spliceAt (w.path site) list [] with
    | error e => rw [hs] at hok; cases hok
    | ok r =>
      rw [hs] at hok
      cases hok
      obtain ⟨hkeep, hle⟩ := hf.spliceAt (hp.item parent list key hslot) (by simp) hp.node hs
      rw [Workspace.spliceAt] at hs
      split at hs
      · cases hs
        exact ⟨hkeep, Workspace.keep_paths .., Workspace.keep_dialect .., hle⟩
      · cases hs
  · next parent key hslot =>
    cases hl : Workspace.leftover (w.deref (w.path site).node) with
    | error e => rw [hl] at hok; cases hok
    | ok d =>
      rw [hl] at hok
      cases hok
      obtain ⟨hkeep, hle⟩ := hf.setPartField (hp.field parent key hslot) (leftover_inner hl)
      exact ⟨hkeep, Workspace.keep_paths .., Workspace.keep_dialect .., hle⟩

section

variable {S : Spine} (hk : s.workspace.Keeping S.marks) (hlt : site < s.workspace.paths.size)
  (hsite : Seated S s.workspace.fresh (s.workspace.path site))
include hk hlt hsite

theorem expandDeprecate_moves (hcall : Inner S.marks s.workspace.fresh call) :
    Moves S.marks s (expandDeprecate o site call) fun _ _ => True := by
  refine (Moves.still hk rfl rfl).bind fun t ⟨predicate, d, message⟩ _ h => ?_
  obtain ⟨hread, rfl⟩ := Prod.mk.inj h
  obtain ⟨arguments, hargs, hsecond⟩ := readDeprecation_arguments hread
  have hpred := Inner.elementsOf hcall hargs predicate (mem_of_getElem? hsecond)
  obtain ⟨log, hreached⟩ := result_reached o d s
  refine (Moves.still hk (by rw [hreached]) (by rw [hreached])).bind fun t b hlog h => ?_
  obtain ⟨_, rfl⟩ := Prod.mk.inj (hreached.symm.trans h)
  split
  · refine (Moves.still hlog.keeping rfl rfl).bind fun t _ _ h => ?_
    cases h
    refine ⟨?_, fun _ _ => trivial⟩
    cases hw : s.workspace.remove site with
    | error e =>
      rw [result_act_error (by exact hw)]
      exact .of_same hk rfl rfl
    | ok w =>
      rw [result_act_ok (by exact hw)]
      obtain ⟨hkeep, hpaths, hdialect, hle⟩ := remove_keeping hk hsite hw
      exact .of_workspace hkeep hpaths hdialect hle
  · refine (Moves.still hlog.keeping rfl rfl).bind fun t dialect _ h => ?_
    cases h
    refine (terminal_moves hlog.keeping (by simpa using literal_inner _ _)).bind fun t last hfirst hlast => ?_
    refine register_moves hfirst.keeping (hfirst.tracks ⟨hlt, hsite.node⟩) fun ref href => ?_
    simp only [mem_cons, not_mem_nil, or_false] at href
    rcases href with rfl | rfl
    · exact hpred.ref.mono hfirst.fresh
    · exact hlast

theorem dispatch_moves : Moves S.marks s (dispatch o site) fun _ _ => True := by
  have hnode : Inner S.marks s.workspace.fresh (s.workspace.node site) := by
    obtain ⟨S', items, hS, hf⟩ := hk
    rw [← hS]
    exact hf.deref_inner (hsite.congr hS).node
  refine (Moves.still hk rfl rfl).bind fun t node _ h => ?_
  cases h
  refine (Moves.still hk rfl rfl).bind fun t call _ h => ?_
  obtain ⟨hget, rfl⟩ := Prod.mk.inj h
  have hcall := Inner.get hnode hget
  refine (Moves.still hk rfl rfl).bind fun t name _ h => ?_
  obtain ⟨_, rfl⟩ := Prod.mk.inj h
  split
  · exact .pure hk trivial
  refine (Moves.still hk rfl rfl).bind fun t key _ h => ?_
  obtain ⟨_, rfl⟩ := Prod.mk.inj h
  refine (Moves.still hk rfl rfl).bind fun t _ _ h => ?_
  cases h
  split
  · exact .pure hk trivial
  split
  · next d _ =>
    have hd : Moves S.marks s (d.expand o site call) fun _ _ => True := by
      cases d with
      | assertion => exact expandAssert_moves hk ⟨hlt, hsite.node⟩ hcall
      | warning => exact expandWarn_moves hk ⟨hlt, hsite.node⟩ hcall
      | deprecation => exact expandDeprecate_moves hk hlt hsite hcall
    exact hd.bind fun t _ hadv _ => .pure hadv.keeping trivial
  · split
    · exact ⟨.refl hk, fun _ _ => trivial⟩
    · exact (Moves.still hk rfl rfl).bind fun t _ hadv _ => .pure hadv.keeping trivial

end

end Builders

section Walking

/-- The parent or list of a slot is off the way. -/
def Off (K : List Mark) : Slot → Prop
  | .top => False
  | .field parent _ => parent ∉ K
  | .item _ list _ => list ∉ K

open Visit in
theorem enter_off {c : Slot × Tree Mark} (hx : Inner K n c.2) {above : List PathId} {next : PathId} {v : Visit}
    (hv : v ∈ enter above c next) : InnerRef K n v.path.node ∧ (v.path.slot = c.1 ∨ Off K v.path.slot) := by
  rcases mem_cons.mp hv with rfl | hv
  · exact ⟨hx.ref, .inl rfl⟩
  · obtain ⟨d, hd, _, hv⟩ := mem_belowOf hv
    obtain ⟨m, fields, ht, e, he, _, _, hheld⟩ := mem_over hd
    have hfield : Inner K n e.2 := hx.child (by rw [ht]; exact mem_map_of_mem he)
    have hoff : Inner K n d.2 ∧ Off K d.1 := by
      rcases hheld with rfl | ⟨list, items, hlist, hitem, hslot⟩
      · exact ⟨hfield, (hx.ref m (by rw [ht]; rfl)).1⟩
      · rw [hlist] at hfield
        exact ⟨hfield.child hitem, hslot ▸ (hfield.ref list rfl).1⟩
    obtain ⟨hnode, hslot⟩ := enter_off hoff.1 hv
    exact ⟨hnode, .inr (hslot.elim (fun h => h ▸ hoff.2) id)⟩
termination_by c.2
decreasing_by exact sizeOf_child (child_of_over hd)

theorem seated_of_off {S : Spine} {p : Path} (hnode : InnerRef S.marks n p.node) (hslot : Off S.marks p.slot) :
    Seated S n p := by
  refine ⟨hnode, fun parent key h => .inl ?_, fun parent list key h => .inl ?_⟩ <;>
  · rw [h] at hslot
    exact hslot

open Visit in
/-- Every node that is walked to has a seat. -/
theorem below_seated {S : Spine} {items : List (Tree Mark)} {w : Workspace} (hf : Framed S items w) (next : PathId) :
    ∀ v ∈ below next w.programNode, Seated S w.fresh v.path := by
  intro v hv
  rw [hf.programNode, Spine.programWith, Frame.plug, (through_obj ..).2] at hv
  obtain ⟨⟨slot, x⟩, hc, _, hv⟩ := mem_belowOf hv
  obtain ⟨m, fields, ht, e, he, _, hn, hheld⟩ := mem_over hc
  cases ht
  -- beside the body every part is off the way, whether a field or a list holds the node
  have hbeside : Inner S.marks w.fresh e.2 → e.1 ≠ "body" → Seated S w.fresh v.path := by
    intro hin hkey
    rcases hheld with hx | ⟨list, items, hlist, hitem, hslot⟩
    · cases hx
      obtain ⟨hnode, hslot | hslot⟩ := enter_off hin hv
      · refine ⟨hnode, fun parent key h => ?_, fun parent list key h => ?_⟩ <;> rw [hslot] at h <;> cases h
        exact .inr ⟨rfl, hkey⟩
      · exact seated_of_off hnode hslot
    · rw [hlist] at hin
      obtain ⟨hnode, h⟩ := enter_off (hin.child hitem) hv
      exact seated_of_off hnode (h.elim (fun h => by rw [h, hslot]; exact (hin.ref list rfl).1) id)
  rw [mem_append, mem_cons] at he
  rcases he with he | rfl | he
  · refine hbeside (hf.parts _ (mem_append_left _ (mem_append_left _ (mem_map_of_mem he)))) ?_
    rintro h
    exact hf.first (h ▸ mem_map_of_mem he)
  · obtain hx | ⟨_, _, hlist, hitem, hslot⟩ := hheld
    · cases hx
      cases hn
    · cases hlist
      cases hslot
      obtain ⟨hnode, hslot | hslot⟩ := enter_off (hf.items x hitem) hv
      · refine ⟨hnode, fun parent key h => ?_, fun parent list key h => ?_⟩ <;> rw [hslot] at h <;> cases h
        exact .inr rfl
      · exact seated_of_off hnode hslot
  · refine hbeside (hf.parts _ (mem_append_left _ (mem_append_right _ (mem_map_of_mem he)))) ?_
    rintro h
    exact hf.last (h ▸ mem_map_of_mem he)

end Walking

section Scanning

variable {o : Options} {S : Spine}

theorem Seated.mono {p : Path} {n' : Mark} (hp : Seated S n p) (hn : (n : ℕ) ≤ n') : Seated S n' p :=
  ⟨hp.node.mono hn, hp.field, hp.item⟩

theorem foldlM_moves {sites : List (PathId × Visit)} (handled : Nat) (hk : s.workspace.Keeping S.marks)
    (hs : ∀ v ∈ sites, v.1 < s.workspace.paths.size ∧ Seated S s.workspace.fresh (s.workspace.path v.1)) :
    Moves S.marks s (sites.foldlM (dispatchSite o) handled) fun _ _ => True := by
  induction sites generalizing s handled with
  | nil => exact .pure hk trivial
  | cons v sites ih =>
    rw [forall_mem_cons] at hs
    have hstep : Moves S.marks s (dispatchSite o handled v) fun _ _ => True := by
      refine (Moves.still hk rfl rfl).bind fun t _ _ h => ?_
      cases h
      split
      · exact .pure hk trivial
      · exact (dispatch_moves hk hs.1.1 hs.1.2).bind fun t _ hadv _ => .pure hadv.keeping trivial
    rw [foldlM_cons]
    refine hstep.bind fun t handled hfirst _ => ih handled hfirst.keeping fun v hv => ?_
    rw [hfirst.path_eq, hfirst.paths]
    exact ⟨(hs.2 v hv).1, (hs.2 v hv).2.mono hfirst.fresh⟩

/-- After the scan the way is kept, and what is registered is off the way. -/
theorem dispatchAll_keeps {r : Except Failure Nat} (hk : s.workspace.Keeping S.marks) (hp : s.pending = [])
    (h : (dispatchAll o).result s = (r, s')) :
    s'.workspace.Keeping S.marks ∧ s'.workspace.dialect = s.workspace.dialect ∧
      (s.workspace.fresh : ℕ) ≤ s'.workspace.fresh ∧ ∀ p ∈ s'.pending, p.Off S.marks s'.workspace := by
  obtain ⟨S', items, hS, hf⟩ := hk
  rw [dispatchAll, result_bind_ok (result_make _ s)] at h
  have hstart : (s.workspace.collect ["ExpressionStatement"]).2.Keeping S.marks := ⟨S', items, hS, hf.paths _⟩
  have hsites : ∀ v ∈ (s.workspace.collect ["ExpressionStatement"]).1,
      v.1 < (s.workspace.collect ["ExpressionStatement"]).2.paths.size ∧
      Seated S s.workspace.fresh ((s.workspace.collect ["ExpressionStatement"]).2.path v.1) := by
    intro v hv
    obtain ⟨hv, _⟩ := mem_filter.mp hv
    obtain ⟨j, hj, hget⟩ := Visit.mem_numbered (show (v.1, v.2) ∈ Visit.numbered s.workspace.paths.size
      (Visit.below s.workspace.paths.size s.workspace.programNode) from hv)
    have hlt : j < (Visit.below s.workspace.paths.size s.workspace.programNode).length :=
      (List.getElem?_eq_some_iff.mp hget).1
    refine ⟨by simpa [Workspace.collect, Workspace.walk, hj] using hlt, ?_⟩
    have hpath : (s.workspace.collect ["ExpressionStatement"]).2.path v.1 = v.2.path := by
      simp only [Workspace.collect, Workspace.walk, Workspace.path, hj, Array.getD_eq_getD_getElem?]
      rw [Array.getElem?_append_right (Nat.le_add_right _ _)]
      simp [hget]
    rw [hpath]
    exact (below_seated hf _ v.2 (mem_of_getElem? hget)).congr hS.symm
  obtain ⟨hadv, _⟩ := foldlM_moves (s := { s with workspace := _ }) (o := o) 0 hstart hsites
  rw [h] at hadv
  exact ⟨hadv.keeping, hadv.dialect, hadv.fresh, hadv.pending (by simp [hp])⟩

end Scanning

end DebugGuards.Expansion
