import DebugGuards.Proofs.Expansion.Imports
import DebugGuards.Proofs.Expansion.Registration
import DebugGuards.Proofs.Workspace.Twin

/-! Two runs side by side. The runs have options that differ in the values of flags only. From
states that differ in constants only, each phase after the scan gives the same result
and states that differ in constants only, whether it succeeds or fails. -/

namespace DebugGuards.Expansion

open DebugGuards.Tree Node List

section Rules

variable {α β : Type} {R R' : State → State → Prop} {x x' : Work α} {f f' : α → Work β}
  {Q Q' : Except Failure α → State → State → Prop}

/-- From states that `R` relates two steps give one result, and states that `Q` relates for it. -/
def Together (R : State → State → Prop) (x x' : Work α) (Q : Except Failure α → State → State → Prop) : Prop :=
  ∀ s s', R s s' → (x'.result s').1 = (x.result s).1 ∧ Q (x.result s).1 (x.result s).2 (x'.result s').2

namespace Together

theorem bind {Q' : Except Failure β → State → State → Prop} (hx : Together R x x' Q)
    (hf : ∀ a, Together (Q (.ok a)) (f a) (f' a) Q') (he : ∀ e s s', Q (.error e) s s' → Q' (.error e) s s') :
    Together R (x >>= f) (x' >>= f') Q' := by
  intro s s' hR
  obtain ⟨hr, hQ⟩ := hx s s' hR
  rw [result_bind, result_bind]
  generalize x.result s = r at hr hQ
  generalize x'.result s' = r' at hr hQ
  obtain ⟨r, t⟩ := r
  obtain ⟨r', t'⟩ := r'
  obtain rfl : r' = r := hr
  cases r' with
  | error e => exact ⟨rfl, he e t t' hQ⟩
  | ok a => exact hf a t t' hQ

theorem pure (a : α) : Together R (pure a) (pure a) fun _ => R := fun _ _ hR => ⟨rfl, hR⟩

theorem ofExcept (r : Except Failure α) : Together R (Work.ofExcept r) (Work.ofExcept r) fun _ => R :=
  fun _ _ hR => ⟨rfl, hR⟩

theorem look {g g' : Workspace → Except Failure α} (hg : ∀ s s', R s s' → g' s'.workspace = g s.workspace) :
    Together R (Work.look g) (Work.look g') fun _ => R := fun s s' hR => by
  rw [result_look, result_look]
  exact ⟨hg s s' hR, hR⟩

theorem modify {g g' : State → State} (hg : ∀ s s', R s s' → R' (g s) (g' s')) :
    Together R (modify g : Work Unit) (modify g') fun _ => R' := fun s s' hR => by
  rw [result_modify, result_modify]
  exact ⟨rfl, hg s s' hR⟩

theorem act {g g' : Workspace → Except Failure Workspace}
    (hg : ∀ s s', R s s' → (∃ e, g s.workspace = .error e ∧ g' s'.workspace = .error e) ∨
      ∃ w w', g s.workspace = .ok w ∧ g' s'.workspace = .ok w' ∧
        R { s with workspace := w } { s' with workspace := w' }) :
    Together R (Work.act g) (Work.act g') fun _ => R := by
  intro s s' hR
  obtain ⟨e, h, h'⟩ | ⟨w, w', h, h', hnext⟩ := hg s s' hR
  · rw [result_act_error h, result_act_error h']
    exact ⟨rfl, hR⟩
  · rw [result_act_ok h, result_act_ok h']
    exact ⟨rfl, hnext⟩

theorem mono (hx : Together R x x' Q) (hR : ∀ s s', R' s s' → R s s') (hQ : ∀ r s s', Q r s s' → Q' r s s') :
    Together R' x x' Q' := fun s s' h =>
  let ⟨hr, hq⟩ := hx s s' (hR s s' h)
  ⟨hr, hQ _ _ _ hq⟩

theorem foldlM {γ : Type} {l : List γ} {g g' : α → γ → Work α}
    (hg : ∀ c ∈ l, ∀ a, Together R (g a c) (g' a c) fun _ => R) (a : α) :
    Together R (l.foldlM g a) (l.foldlM g' a) fun _ => R := by
  induction l generalizing a with
  | nil => exact pure a
  | cons c l ih =>
    rw [forall_mem_cons] at hg
    rw [foldlM_cons, foldlM_cons]
    exact (hg.1 a).bind (fun a => ih hg.2 a) fun _ _ _ h => h

theorem forM {γ : Type} {l : List γ} {g g' : γ → Work PUnit} (hg : ∀ c ∈ l, Together R (g c) (g' c) fun _ => R) :
    Together R (l.forM g) (l.forM g') fun _ => R := by
  induction l with
  | nil => exact pure PUnit.unit
  | cons c l ih =>
    rw [forall_mem_cons] at hg
    exact hg.1.bind (fun _ => ih hg.2) fun _ _ _ h => h

end Together

end Rules

/-- The place of a statement that is no constant. -/
structure Placed (K : List Mark) (base : Mark) (p : Path) : Prop where
  slot : ∃ parent list, K.head? = some list ∧ p.slot = .item parent list "body"
  node : InnerRef K base p.node

/-- The second state is the first one but for the values of constants; what is registered, and given sites, are no
parts of constants. -/
structure Alongside (P : Int → Int → Prop) (base : Mark) (K : List Mark) (dialect : Dialect) (sites : List PathId)
    (s s' : State) : Prop where
  twins : ∃ S es, S.marks = K ∧ Twins P base S es s.workspace s'.workspace
  other : s' = { s with workspace := s'.workspace }
  dialect : s.workspace.dialect = dialect
  pending : ∀ p ∈ s.pending, p.site < s.workspace.paths.size ∧ InnerRef K base (s.workspace.path p.site).node ∧
    ∀ r ∈ p.operands, InnerRef K base r
  sites : ∀ i ∈ sites, i < s.workspace.paths.size ∧ Placed K base (s.workspace.path i)

namespace Alongside

variable {P : Int → Int → Prop} {base : Mark} {K : List Mark} {dialect : Dialect} {sites : List PathId} {s s' : State}

/-- A change of the workspaces that keeps the paths. -/
theorem step (h : Alongside P base K dialect sites s s') {w w' : Workspace}
    (ht : ∃ S es, S.marks = K ∧ Twins P base S es w w') (hp : w.paths = s.workspace.paths)
    (hd : w.dialect = s.workspace.dialect) :
    Alongside P base K dialect sites { s with workspace := w } { s' with workspace := w' } := by
  have hpath : ∀ i, w.path i = s.workspace.path i := fun i => by rw [Workspace.path, hp, Workspace.path]
  refine ⟨ht, by rw [h.other], hd.trans h.dialect, fun p hm => ?_, fun i hi => ?_⟩
  · show p.site < w.paths.size ∧ InnerRef K base (w.path p.site).node ∧ _
    rw [hpath, hp]
    exact h.pending p hm
  · show i < w.paths.size ∧ Placed K base (w.path i)
    rw [hpath, hp]
    exact h.sites i hi

theorem of_subset (h : Alongside P base K dialect sites s s') {is : List PathId} (hi : is ⊆ sites) :
    Alongside P base K dialect is s s' := ⟨h.twins, h.other, h.dialect, h.pending, fun i hm => h.sites i (hi hm)⟩

theorem record (level : Level) (text : String) :
    Together (Alongside P base K dialect sites) (Work.record level text) (Work.record level text)
      fun _ => Alongside P base K dialect sites :=
  .modify fun _ _ h => ⟨h.twins, by rw [h.other], h.dialect, h.pending, h.sites⟩

theorem addPath (h : Alongside P base K dialect sites s s') {p : Path} (hp : Placed K base p) :
    (s'.workspace.addPath p).1 = (s.workspace.addPath p).1 ∧
      Alongside P base K dialect ((s.workspace.addPath p).1 :: sites) { s with workspace := (s.workspace.addPath p).2 }
        { s' with workspace := (s'.workspace.addPath p).2 } := by
  obtain ⟨S, es, hS, ht⟩ := h.twins
  have hpaths : s'.workspace.paths = s.workspace.paths := by rw [ht.other]
  have hkept : ∀ i < s.workspace.paths.size, i < (s.workspace.addPath p).2.paths.size ∧
      (s.workspace.addPath p).2.path i = s.workspace.path i := fun i hi =>
    ⟨Nat.lt_of_lt_of_le hi (Workspace.Keeps.addPath s.workspace p).size,
      (Workspace.Keeps.addPath s.workspace p).path i hi⟩
  refine ⟨by rw [Workspace.addPath, hpaths]; rfl, ⟨S, es, hS, ?_⟩, by rw [h.other], h.dialect, fun q hq => ?_,
    fun i hi => ?_⟩
  · simp only [Workspace.addPath, hpaths]
    exact ht.paths _
  · obtain ⟨hlt, hoff⟩ := h.pending q hq
    exact ⟨(hkept _ hlt).1, (hkept _ hlt).2 ▸ hoff⟩
  · rcases mem_cons.mp hi with rfl | hi
    · exact ⟨by simp [Workspace.addPath], by rw [Workspace.addPath_path]; exact hp⟩
    · obtain ⟨hlt, hplaced⟩ := h.sites i hi
      exact ⟨(hkept i hlt).1, (hkept i hlt).2 ▸ hplaced⟩

end Alongside

section Sites

variable {P : Int → Int → Prop} {base : Mark} {K : List Mark} {dialect : Dialect} {sites : List PathId} {S : Spine}
  {es : List Both} {w w' : Workspace}

theorem placed_shared (h : Twins P base S es w w') {e : Both} (he : e ∈ es)
    (hb : ∀ m, e.left.ref = .part m → (m : ℕ) < base) : Placed S.marks base (w.statementPath e.left) := by
  rw [h.framed.statementPath]
  refine ⟨⟨_, _, rfl, rfl⟩, fun m hm => ⟨?_, hb m hm⟩⟩
  exact (h.framed.items e.left (mem_map_of_mem he) m (mem_marks_of_ref hm)).1

theorem importPaths_placed (h : Twins P base S es w w') {ps : List Path} (hps : w.importPaths = .ok ps) :
    ∀ p ∈ ps, Placed S.marks base p := by
  rw [Workspace.importPaths, h.framed.statements] at hps
  cases hps
  intro p hp
  obtain ⟨x, hx, rfl⟩ := mem_map.mp hp
  obtain ⟨hx, hkind⟩ := mem_filter.mp hx
  obtain ⟨e, he, rfl⟩ := mem_map.mp hx
  refine placed_shared h he ?_
  cases e with
  | shared x => exact h.fits _ he
  | constants x y => exact absurd hkind (Bool.eq_false_iff.mp (Differ.not_import (h.fits _ he)).1)

theorem addPaths_together {ps : List Path} (hps : ∀ p ∈ ps, Placed K base p) :
    Together (Alongside P base K dialect sites) (ps.mapM fun p => Work.make fun w => w.addPath p)
      (ps.mapM fun p => Work.make fun w => w.addPath p)
      fun r => Alongside P base K dialect (r.toOption.getD [] ++ sites) := by
  induction ps generalizing sites with
  | nil => exact .pure []
  | cons p ps ih =>
    rw [forall_mem_cons] at hps
    rw [mapM_cons]
    have hfirst : Together (Alongside P base K dialect sites) (Work.make fun w => w.addPath p)
        (Work.make fun w => w.addPath p) fun r => Alongside P base K dialect (r.toOption.toList ++ sites) := by
      intro s s' h
      obtain ⟨hi, hnext⟩ := h.addPath hps.1
      exact ⟨congrArg Except.ok hi, hnext⟩
    refine hfirst.bind (fun i => ?_) fun _ _ _ h => h
    refine (ih hps.2).bind (fun is s s' h => ⟨rfl, ?_⟩) fun _ _ _ h => h.of_subset (subset_cons_self _ _)
    refine h.of_subset fun j hj => ?_
    simp only [result_pure, Except.toOption, Option.getD_some, Option.toList_some, mem_append, mem_cons,
      not_mem_nil, or_false] at hj ⊢
    tauto

theorem importSites_together : Together (Alongside P base K dialect sites) importSites importSites
    fun r => Alongside P base K dialect (r.toOption.getD []) := by
  intro s s' h
  obtain ⟨S, es, rfl, ht⟩ := h.twins
  rw [importSites]
  cases hps : s.workspace.importPaths with
  | error e =>
    rw [result_look_bind_error hps, result_look_bind_error (ht.importPaths_eq.trans hps)]
    exact ⟨rfl, h.of_subset (nil_subset _)⟩
  | ok ps =>
    rw [result_look_bind hps, result_look_bind (ht.importPaths_eq.trans hps)]
    obtain ⟨hr, hnext⟩ := addPaths_together (importPaths_placed ht hps) s s' h
    exact ⟨hr, hnext.of_subset (subset_append_left _ _)⟩

end Sites

section Guarding

variable {P : Int → Int → Prop} {base : Mark} {K : List Mark} {dialect : Dialect} {sites : List PathId}

theorem innerDraft_guardChain {n : Mark} (guard : Json) {operands : List Draft}
    (ho : ∀ d ∈ operands, InnerDraft K n d) : InnerDraft K n (parenthesized (guardChain guard.copy operands)) := by
  have hguard : InnerDraft K n (identifier guard.copy) := innerDraft_make _ (by simpa using innerDraft_copy guard)
  have hchain : InnerDraft K n (guardChain guard.copy operands) := guardChain_induction
    (fun _ _ ha hb => innerDraft_make _ (by simpa using ⟨innerDraft_scalar _, ha, hb⟩)) hguard ho
  exact innerDraft_make _ (by simpa using hchain)

theorem guardSite_together (guard : Json) {p : Pending} {pending : List Pending} (hp : p ∈ pending) :
    Together (fun s s' => Alongside P base K dialect sites s s' ∧ s.pending = pending) (guardSite guard p)
      (guardSite guard p) fun _ s s' => Alongside P base K dialect sites s s' ∧ s.pending = pending := by
  refine .act fun s s' ⟨h, hpending⟩ => ?_
  obtain ⟨S, es, rfl, ht⟩ := h.twins
  obtain ⟨_, hsite, hops⟩ := h.pending p (hpending ▸ hp)
  have hnode := ht.node_eq hsite
  have hoperands : p.operands.map (fun r => (s'.workspace.deref r).draft) =
      p.operands.map fun r => (s.workspace.deref r).draft :=
    map_congr_left fun r hr => by rw [ht.deref_eq (hops r hr)]
  have hinner : InnerDraft S.marks s.workspace.fresh
      (parenthesized (guardChain guard.copy (p.operands.map fun r => (s.workspace.deref r).draft))) := by
    refine innerDraft_guardChain guard fun d hd => ?_
    obtain ⟨r, hr, rfl⟩ := mem_map.mp hd
    exact (ht.framed.deref_inner (hops r hr)).draft
  simp only [hoperands, Workspace.setField, hnode]
  cases hobj : s.workspace.node p.site with
  | scalar | arr => exact .inl ⟨_, rfl, rfl⟩
  | obj m fields =>
    have hm := hsite m (Workspace.deref_obj hobj)
    exact .inr ⟨_, _, rfl, rfl,
      h.step (ht.setPartField hm.1 hm.2 hinner) (Workspace.keep_paths ..) (Workspace.keep_dialect ..), hpending⟩

theorem finalize_together (guard : Json) : Together (Alongside P base K dialect sites) (finalize guard) (finalize guard)
    fun _ => Alongside P base K dialect sites := by
  intro s s' h
  have hfin : s'.finalized = s.finalized := by rw [h.other]
  have hpend : s'.pending = s.pending := by rw [h.other]
  rw [finalize, result_get_bind, result_get_bind, hfin]
  split
  · exact ⟨rfl, h⟩
  · rw [result_bind_ok (result_modify ..), result_bind_ok (result_modify ..),
      result_get_bind, result_get_bind]
    have hstart : Alongside P base K dialect sites { s with finalized := true } { s' with finalized := true } :=
      ⟨h.twins, by rw [h.other], h.dialect, h.pending, h.sites⟩
    have hsites : Together (fun t t' => Alongside P base K dialect sites t t' ∧ t.pending = s.pending)
        (s.pending.forM (guardSite guard)) (s.pending.forM (guardSite guard)) fun _ =>
          Alongside P base K dialect sites :=
      (Together.forM fun p hp => guardSite_together guard hp).mono (fun _ _ h => h) fun _ _ _ h => h.1
    simp only [hpend] at hstart ⊢
    exact hsites.bind (fun _ => (Alongside.record _ _).bind (fun _ => .pure _) fun _ _ _ h => h) (fun _ _ _ h => h) _ _
      ⟨hstart, rfl⟩

end Guarding

/-- The values of one flag in two tables. -/
def FlagPair (t t' : Table String Int) (i j : Int) : Prop :=
  ∃ flag, Table.get? t flag = some i ∧ Table.get? t' flag = some j

section Inlining

variable {P : Int → Int → Prop} {base : Mark} {K : List Mark} {dialect : Dialect} {sites : List PathId}
  {t t' : Table String Int}

section

variable (hk : Table.keys t' = Table.keys t)
include hk

theorem isSome_get?_of_keys (flag : String) : (Table.get? t' flag).isSome = (Table.get? t flag).isSome := by
  induction t generalizing t' with
  | nil =>
    obtain rfl := map_eq_nil_iff.mp hk
    rfl
  | cons e t ih =>
    obtain ⟨e', t', rfl, he, ht⟩ := map_eq_cons_iff.mp hk
    rw [Table.get?, Table.get?, he]
    split
    · rfl
    · exact ih ht

theorem holds_flagDocument_eq (v : Json) : (flagDocument t').holds v = (flagDocument t).holds v := by
  have hhas : ∀ flag, Table.has (Table.mapValues (Tree.int (α := Unit)) t') flag =
      Table.has (Table.mapValues (Tree.int (α := Unit)) t) flag := fun flag => by
    rw [has_mapValues, has_mapValues, Table.has, Table.has, isSome_get?_of_keys hk]
  simp only [flagDocument, Tree.holds, hhas]

/-- The value of a flag in both tables, or the one failure. -/
theorem flagValue_together (v : Json) :
    (∃ e, flagValue (flagDocument t) v = .error e ∧ flagValue (flagDocument t') v = .error e) ∨
      ∃ i j, flagValue (flagDocument t) v = .ok (.int i) ∧ flagValue (flagDocument t') v = .ok (.int j) ∧
        FlagPair t t' i j := by
  have hstr : ∀ flag, (∃ e, flagValue (flagDocument t) (.str flag) = .error e ∧
      flagValue (flagDocument t') (.str flag) = .error e) ∨
      ∃ i j, flagValue (flagDocument t) (.str flag) = .ok (.int i) ∧
        flagValue (flagDocument t') (.str flag) = .ok (.int j) ∧ FlagPair t t' i j := by
    intro flag
    have hsome := isSome_get?_of_keys hk flag
    simp only [flagDocument, flagValue, Table.get?_mapValues]
    cases hi : Table.get? t flag with
    | none =>
      rw [hi, Option.isSome_none, Option.isSome_eq_false_iff, Option.isNone_iff_eq_none] at hsome
      rw [hsome]
      exact .inl ⟨_, rfl, rfl⟩
    | some i =>
      rw [hi, Option.isSome_some, Option.isSome_iff_exists] at hsome
      obtain ⟨j, hj⟩ := hsome
      rw [hj]
      exact .inr ⟨i, j, rfl, rfl, flag, hi, hj⟩
  cases v with
  | arr | obj => exact .inl ⟨_, rfl, rfl⟩
  | scalar s =>
    cases s with
    | str flag => exact hstr flag
    | _ => exact .inl ⟨_, rfl, rfl⟩

/-- The constants of both tables, or the one failure. -/
theorem flagConstants_together (hP : ∀ i j, FlagPair t t' i j → P i j)
    (dialect : Dialect) (specifiers : List (Specifier Unit)) (source : Json) :
    (∃ e, flagConstants dialect specifiers (flagDocument t) source = .error e ∧
      flagConstants dialect specifiers (flagDocument t') source = .error e) ∨
      ∃ cs cs', flagConstants dialect specifiers (flagDocument t) source = .ok cs ∧
        flagConstants dialect specifiers (flagDocument t') source = .ok cs' ∧
        List.Forall₂ (SameConstant P dialect) cs cs' := by
  have hmap : ∀ ss : List (Specifier Unit), let g := fun (u : Table String Int) => (ss.mapM fun s => do
      return constant s.bound (dialect.literal (← flagValue (flagDocument u) s.imported)) : Except Failure (List Json))
      (∃ e, g t = .error e ∧ g t' = .error e) ∨
        ∃ cs cs', g t = .ok cs ∧ g t' = .ok cs' ∧ List.Forall₂ (SameConstant P dialect) cs cs' := by
    intro ss
    induction ss with
    | nil => exact .inr ⟨[], [], rfl, rfl, .nil⟩
    | cons s ss ih =>
      simp only [mapM_cons]
      obtain ⟨e, he, he'⟩ | ⟨i, j, hi, hj, hij⟩ := flagValue_together hk s.imported
      · rw [he, he']
        exact .inl ⟨e, rfl, rfl⟩
      · rw [hi, hj]
        obtain ⟨e, he, he'⟩ | ⟨cs, cs', hcs, hcs', hall⟩ := ih
        · simp only [he, he']
          exact .inl ⟨e, rfl, rfl⟩
        · simp only [hcs, hcs']
          exact .inr ⟨_, _, rfl, rfl, .cons ⟨s.bound, i, j, hP i j hij, rfl, rfl⟩ hall⟩
  -- the check is the same for both tables, as they have the same flags
  simp only [flagConstants, holds_flagDocument_eq hk]
  generalize (specifiers.forM _ : Except Failure PUnit) = check
  cases check with
  | error e => exact .inl ⟨e, rfl, rfl⟩
  | ok _ => exact hmap specifiers

theorem placeConstants_together (hP : ∀ i j, FlagPair t t' i j → P i j)
    {site : PathId} (hsite : site ∈ sites) (source : Json) (specifiers : List (Specifier Unit)) :
    Together (Alongside P base K dialect sites) (placeConstants site source specifiers (flagDocument t))
      (placeConstants site source specifiers (flagDocument t')) fun _ => Alongside P base K dialect sites := by
  intro s s' h
  obtain ⟨S, es, rfl, ht⟩ := h.twins
  obtain ⟨_, ⟨parent, list, hlist, hslot⟩, hnode⟩ := h.sites site hsite
  obtain rfl : S.list = list := Option.some.inj hlist
  have hdialect : s'.workspace.dialect = s.workspace.dialect := by rw [ht.other]
  obtain ⟨e, he, he'⟩ | ⟨cs, cs', hcs, hcs', hall⟩ :=
    flagConstants_together hk hP s.workspace.dialect specifiers source
  · rw [← hdialect] at he'
    rw [placeConstants, placeConstants, result_look_bind_error he', result_look_bind_error he]
    exact ⟨rfl, h⟩
  · rw [← hdialect] at hcs'
    rw [placeConstants, placeConstants, result_look_bind hcs', result_look_bind hcs]
    obtain ⟨f, hf, hf'⟩ | ⟨v, v', es', hv, hv', htwins, hpaths, hkept⟩ := ht.replaceMany hall hslot hnode
    · rw [result_bind_error (result_act_error hf'), result_bind_error (result_act_error hf)]
      exact ⟨rfl, h⟩
    · rw [result_bind_ok (result_act_ok hv'), result_bind_ok (result_act_ok hv), ← hall.length_eq]
      have hnext := h.step ⟨S, es', rfl, htwins⟩ hpaths hkept
      exact (Alongside.record _ _).bind (fun _ => .pure _) (fun _ _ _ h => h) _ _ hnext

theorem inlineFlags_together (hP : ∀ i j, FlagPair t t' i j → P i j) {site : PathId} (hsite : site ∈ sites) :
    Together (Alongside P base K dialect sites) (inlineFlags site (flagDocument t)) (inlineFlags site (flagDocument t'))
      fun _ => Alongside P base K dialect sites := by
  intro s s' h
  obtain ⟨S, es, rfl, ht⟩ := h.twins
  rw [inlineFlags, inlineFlags, result_bind_ok (result_node site s), result_bind_ok (result_node site s'),
    ht.node_eq (h.sites site hsite).2.node]
  exact (Together.ofExcept _).bind (fun source => (Together.ofExcept _).bind
    (fun specifiers => placeConstants_together hk hP hsite source specifiers) fun _ _ _ h => h)
    (fun _ _ _ h => h) s s' h

end

end Inlining

/-- Options that differ in nothing but the values of flags. -/
structure SameButValues (o o' : Options) : Prop where
  rest : o' = { o with envFlags := o'.envFlags, features := o'.features }
  source : o'.envFlags.source = o.envFlags.source
  flags : Table.keys o'.envFlags.flags = Table.keys o.envFlags.flags
  features : List.Forall₂ (fun f f' => f'.source = f.source ∧ Table.keys f'.flags = Table.keys f.flags)
    o.features o'.features

/-- The values of one flag under two options: of an environment flag, or of a flag of one feature table. -/
inductive FlagValues (o o' : Options) (i j : Int) : Prop
  | env (h : FlagPair o.envFlags.flags o'.envFlags.flags i j)
  | feature {f f' : FeatureFlags} (hf : (f, f') ∈ o.features.zip o'.features) (h : FlagPair f.flags f'.flags i j)

section Phases

variable {o o' : Options} {base : Mark} {K : List Mark} {dialect : Dialect} {sites : List PathId}

/-- The table for a module is the same one of the list on both sides. -/
theorem SameButValues.featureTable? (h : SameButValues o o') (source : Json) :
    (featureTable? o.features source = none ∧ featureTable? o'.features source = none) ∨
      ∃ f f', featureTable? o.features source = some f ∧ featureTable? o'.features source = some f' ∧
        (f, f') ∈ o.features.zip o'.features ∧ Table.keys f'.flags = Table.keys f.flags := by
  have hall := h.features
  generalize o.features = fs at hall
  generalize o'.features = fs' at hall
  induction hall with
  | nil => exact .inl ⟨rfl, rfl⟩
  | @cons f f' fs fs' hf _ ih =>
    simp only [Expansion.featureTable?, find?_cons, hf.1] at ih ⊢
    cases source.equal (.str f.source) with
    | true => exact .inr ⟨f, f', rfl, rfl, mem_cons_self, hf.2⟩
    | false =>
      obtain hnone | ⟨g, g', hg, hg', hmem, hkeys⟩ := ih
      · exact .inl hnone
      · exact .inr ⟨g, g', hg, hg', mem_cons_of_mem _ hmem, hkeys⟩

/-- One import inlined on both sides, if it is one of flags. -/
theorem inlineSite_together (h : SameButValues o o') {site : PathId} (hsite : site ∈ sites) (count : Nat) :
    Together (Alongside (FlagValues o o') base K dialect sites) (inlineSite o count site) (inlineSite o' count site)
      fun _ => Alongside (FlagValues o o') base K dialect sites := by
  have hnode : Together (Alongside (FlagValues o o') base K dialect sites) (Work.node site) (Work.node site)
      fun _ => Alongside (FlagValues o o') base K dialect sites := by
    refine .look fun s s' hs => ?_
    obtain ⟨S, es, rfl, ht⟩ := hs.twins
    rw [ht.node_eq (hs.sites site hsite).2.node]
  refine hnode.bind (fun x => (Together.ofExcept _).bind (fun source => ?_) fun _ _ _ h => h) fun _ _ _ h => h
  rw [h.source]
  split
  · exact (inlineFlags_together h.flags (fun _ _ => .env) hsite).bind (fun _ => .pure _) fun _ _ _ h => h
  · obtain ⟨hf, hf'⟩ | ⟨f, f', hf, hf', hmem, hkeys⟩ := h.featureTable? source
    · rw [hf, hf']
      exact .pure count
    · rw [hf, hf']
      exact (inlineFlags_together hkeys (fun _ _ => .feature hmem) hsite).bind (fun _ => .pure _) fun _ _ _ h => h

theorem inlineImports_together (h : SameButValues o o') :
    Together (Alongside (FlagValues o o') base K dialect sites) (inlineImports o) (inlineImports o')
      fun _ => Alongside (FlagValues o o') base K dialect [] := by
  refine importSites_together.bind (fun is => ?_) fun _ _ _ h => h.of_subset (nil_subset _)
  exact (Together.foldlM (fun i hi count => inlineSite_together h hi count) 0).mono (fun _ _ h => h)
    fun _ _ _ h => h.of_subset (nil_subset _)

/-- Both states are one, and no constant has been made. -/
structure Start (P : Int → Int → Prop) (base : Mark) (K : List Mark) (dialect : Dialect) (sites : List PathId)
    (s s' : State) : Prop where
  same : s' = s
  fresh : s.workspace.fresh = base
  alongside : Alongside P base K dialect sites s s

theorem Start.to {P : Int → Int → Prop} {s s' : State} (h : Start P base K dialect sites s s') :
    Alongside P base K dialect sites s s' := by
  obtain ⟨rfl, _, h⟩ := h
  exact h

/-- The path of a binding is that of a statement. -/
theorem Start.placed {P : Int → Int → Prop} {s s' : State} (h : Start P base K dialect sites s s')
    {table : Table Scalar Binding} (ht : s.workspace.bindings = .ok table) {k : Scalar} {b : Binding}
    (hb : Table.get? table k = some b) : Placed K base b.path := by
  obtain ⟨S, es, rfl, htwins⟩ := h.alongside.twins
  obtain ⟨x, hx, hpath⟩ := Workspace.path_of_binding htwins.framed.statements ht hb
  obtain ⟨e, he, rfl⟩ := mem_map.mp hx
  rw [hpath]
  refine placed_shared htwins he fun m hm => ?_
  rw [← h.fresh]
  exact (htwins.framed.items e.left hx m (mem_marks_of_ref hm)).2

/-- The import of the debug flag. -/
theorem debugImport?_start (h : SameButValues o o') {P : Int → Int → Prop} :
    Together (Start P base K dialect []) (debugImport? o) (debugImport? o')
      fun r => Start P base K dialect (r.toOption.join.toList) := by
  intro s s' hs
  have heq : debugImport? o' = debugImport? o := by simp only [debugImport?, h.source]
  obtain rfl := hs.same
  rw [heq]
  refine ⟨rfl, ?_⟩
  rw [debugImport?]
  cases hb : s'.workspace.binding? (.str debugFlag) with
  | error e =>
    rw [result_look_bind_error hb]
    exact hs
  | ok b? =>
    rw [result_look_bind hb]
    cases b? with
    | none => exact hs
    | some b =>
      have hplaced : Placed K base b.path := by
        cases ht : s'.workspace.bindings with
        | error e => rw [Workspace.binding?, ht] at hb; cases hb
        | ok table =>
          rw [Workspace.binding?, ht] at hb
          exact hs.placed ht (Except.ok.inj hb)
      obtain ⟨_, hadded⟩ := hs.alongside.addPath hplaced
      -- whether the import is one of flags is read off the state, which stays as it is
      have hread : ∀ F : Work Bool, (∃ q, F.result s' = (q, s')) →
          let x : Work (Option PathId) := do
            if ← F then return some (← Work.make fun w => w.addPath b.path) else return none
          Start P base K dialect (x.result s').1.toOption.join.toList (x.result s').2 (x.result s').2 := by
        rintro F ⟨q, hq⟩ x
        cases q with
        | error e =>
          rw [result_bind_error hq]
          exact hs
        | ok yes =>
          rw [result_bind_ok hq]
          cases yes with
          | false => exact hs
          | true => exact ⟨rfl, hs.fresh, hadded⟩
      refine hread _ ?_
      split
      · cases hsource : s'.workspace.bindingSource b with
        | error e => exact ⟨_, result_look_bind_error hsource⟩
        | ok source => exact ⟨_, result_look_bind hsource⟩
      · exact ⟨_, rfl⟩

/-- The guard found or made on both sides. -/
theorem resolveGuard_together (h : SameButValues o o') (summary : Summary) :
    Together (Start (FlagValues o o') base K dialect []) (resolveGuard o summary) (resolveGuard o' summary)
      fun _ => Alongside (FlagValues o o') base K dialect [] := by
  refine (debugImport?_start h).bind (fun site? => ?_) fun _ _ _ h => h.to
  cases site? with
  | some site =>
    have hinline : Together (Start (FlagValues o o') base K dialect [site])
        (inlineFlags site (flagDocument o.envFlags.flags)) (inlineFlags site (flagDocument o'.envFlags.flags))
        fun _ => Alongside (FlagValues o o') base K dialect [] :=
      (inlineFlags_together h.flags (fun _ _ => .env) mem_cons_self).mono (fun _ _ h => h.to)
        fun _ _ _ h => Alongside.of_subset h (nil_subset _)
    exact hinline.bind (fun count => (finalize_together _).bind (fun _ => .pure _) fun _ _ _ h => h) fun _ _ _ h => h
  | none =>
    intro s s' hs
    obtain rfl := hs.same
    cases hname : s'.workspace.freshName debugFlag with
    | error e =>
      simp only
      rw [result_look_bind_error hname, result_look_bind_error hname]
      exact ⟨rfl, hs.to⟩
    | ok name =>
      simp only
      rw [result_look_bind hname, result_look_bind hname, result_get_bind,
        result_get_bind]
      split
      · exact (finalize_together _).bind (fun _ => .pure _) (fun _ _ _ h => h) _ _ hs.to
      · have hsome := isSome_get?_of_keys h.flags debugFlag
        cases hi : Table.get? o.envFlags.flags debugFlag with
        | none =>
          rw [hi, Option.isSome_none, Option.isSome_eq_false_iff, Option.isNone_iff_eq_none] at hsome
          rw [hsome, h.source]
          exact ⟨rfl, hs.to⟩
        | some i =>
          rw [hi, Option.isSome_some, Option.isSome_iff_exists] at hsome
          obtain ⟨j, hj⟩ := hsome
          rw [hj]
          obtain ⟨S, es, rfl, ht⟩ := hs.alongside.twins
          obtain ⟨v, v', es', hv, hv', htwins, hpaths, hkept⟩ := ht.insertTop (.env ⟨debugFlag, hi, hj⟩) name
          simp only
          rw [result_bind_ok (result_act_ok hv'), result_bind_ok (result_act_ok hv)]
          exact (finalize_together _).bind (fun _ => .pure _) (fun _ _ _ h => h) _ _
            (hs.to.step ⟨S, es', rfl, htwins⟩ hpaths hkept)

/-- What two runs leave behind. -/
structure Ends (P : Int → Int → Prop) (base : Mark) (dialect : Dialect) (s s' : State) : Prop where
  root : DifferInConstants P dialect base s.workspace.root s'.workspace.root
  fresh : s'.workspace.fresh = s.workspace.fresh
  log : s'.log = s.log

variable {P : Int → Int → Prop}

theorem Alongside.ends {s s' : State} (h : Alongside P base K dialect sites s s') : Ends P base dialect s s' := by
  obtain ⟨S, es, rfl, ht⟩ := h.twins
  exact ⟨h.dialect ▸ ht.differ, by rw [ht.other], by rw [h.other]⟩

theorem SameButValues.helpersModule (h : SameButValues o o') : o'.helpersModule = o.helpersModule := by rw [h.rest]; rfl

/-- A statement taken out, given a source or left as it is, on both sides. -/
theorem cleanSite_together (fate : HelperModule) {S : Spine} {es : List Both} {e : Both} (he : e ∈ es) {site : PathId}
    {parent : Mark} :
    Together (fun s s' => s' = { s with workspace := s'.workspace } ∧ s.workspace.dialect = dialect ∧
        Twins P base S es s.workspace s'.workspace ∧
          s.workspace.path site = ⟨e.left.ref, .item parent S.list "body", []⟩)
      (cleanSite fate site) (cleanSite fate site) fun _ => Ends P base dialect := by
  intro s s' ⟨hother, hdialect, ht, hpath⟩
  have hlog : s'.log = s.log := by rw [hother]
  have hremove : ((removeSite site).result s').1 = ((removeSite site).result s).1 ∧
      Ends P base dialect ((removeSite site).result s).2 ((removeSite site).result s').2 := by
    obtain ⟨v, v', hv, hv', hroot, hfresh⟩ := ht.remove (by rw [hpath]) he (by rw [hpath])
    rw [removeSite, result_bind_ok (result_act_ok hv'), result_bind_ok (result_act_ok hv)]
    exact ⟨rfl, hdialect ▸ hroot, hfresh, hlog⟩
  have hkeep : Ends P base dialect s s' := ⟨hdialect ▸ ht.differ, by rw [ht.other], hlog⟩
  cases fate with
  | unset => exact hremove
  | keep b =>
    cases b with
    | true => exact ⟨rfl, hkeep⟩
    | false => exact hremove
  | redirect module =>
    show _ ∧ _
    by_cases hempty : module = ""
    · simp only [cleanSite, if_pos hempty]
      exact hremove
    · simp only [cleanSite, if_neg hempty]
      have hsame : s'.workspace.dialect = s.workspace.dialect := by rw [ht.other]
      obtain ⟨f, hf, hf'⟩ | ⟨v, v', hv, hv', hroot, hfresh⟩ := ht.redirect he (by rw [hpath])
        (s.workspace.dialect.literal (.str module))
      · rw [result_bind_error (result_act_error (by rw [hsame]; exact hf')),
          result_bind_error (result_act_error hf)]
        exact ⟨rfl, hkeep⟩
      · rw [result_bind_ok (result_act_ok (by rw [hsame]; exact hv')),
          result_bind_ok (result_act_ok hv)]
        exact ⟨rfl, hdialect ▸ hroot, hfresh, hlog⟩

/-- The helpers import taken out, redirected or kept on both sides. -/
theorem cleanImports_together (h : SameButValues o o') :
    Together (Alongside P base K dialect []) (cleanImports o) (cleanImports o') fun _ => Ends P base dialect := by
  intro s s' hs
  have hhelpers : s'.helpers = s.helpers := by rw [hs.other]
  obtain ⟨S, es, rfl, ht⟩ := hs.twins
  rw [cleanImports, cleanImports, result_get_bind, result_get_bind,
    hhelpers, h.helpersModule]
  cases s.helpers.head? with
  | none => exact ⟨rfl, hs.ends⟩
  | some first =>
    simp only
    cases hb : s.workspace.bindings with
    | error f =>
      rw [result_look_bind_error (e := f) (by rw [ht.bindings_eq, hb]; rfl),
        result_look_bind_error (e := f) (by rw [hb]; rfl)]
      exact ⟨rfl, hs.ends⟩
    | ok table =>
      cases hk : first.2.bound.asKey with
      | error f =>
        rw [result_look_bind_error (e := f) (by rw [ht.bindings_eq, hb]; rfl),
          result_look_bind_error (e := f) (by rw [hb]; rfl)]
        exact ⟨rfl, hs.ends⟩
      | ok k =>
        rw [result_look_bind (a := Table.get? table k) (by rw [ht.bindings_eq, hb]; rfl),
          result_look_bind (a := Table.get? table k) (by rw [hb]; rfl)]
        cases hget : Table.get? table k with
        | none => exact ⟨rfl, hs.ends⟩
        | some b =>
          obtain ⟨x, hx, hpath⟩ := Workspace.path_of_binding ht.framed.statements hb hget
          obtain ⟨e, he, rfl⟩ := mem_map.mp hx
          rw [ht.framed.statementPath] at hpath
          have hpaths : s'.workspace.paths = s.workspace.paths := by rw [ht.other]
          simp only
          rw [result_bind_ok (result_make ..), result_bind_ok (result_make ..)]
          have hsite : (s'.workspace.addPath b.path).1 = (s.workspace.addPath b.path).1 := by
            rw [Workspace.addPath, hpaths, Workspace.addPath]
          rw [hsite]
          have htwins : Twins P base S es (s.workspace.addPath b.path).2 (s'.workspace.addPath b.path).2 := by
            simp only [Workspace.addPath, hpaths]
            exact ht.paths _
          exact cleanSite_together o.helpersModule he _ _
            ⟨by rw [hs.other], hs.dialect, htwins, (Workspace.addPath_path _ _).trans hpath⟩

end Phases

end DebugGuards.Expansion
