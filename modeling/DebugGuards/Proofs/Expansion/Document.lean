import DebugGuards.Proofs.Expansion.Image

/-! The document between the phases. It is the document it was with another program, and
the program has its fields reshaped and its statements in a list of their own. Once the
scan is complete, dropping by identity is dropping what has expired, so that reshaping is
the rewriting. -/

namespace DebugGuards

open DebugGuards.Tree Node Expansion List

/-- The plain document with another program. -/
def Node.withProgram (t : Tree Mark) (program : Json) : Json :=
  if hasKind t "File" then .obj () (Table.set (Table.mapValues erase t.fields) "program" program) else program

namespace Expansion

section Congruence
variable {h : Heap} {expired drops : Tree Mark → Bool} {f g : Tree Mark → List (String × Json) → Json}
  {met : List (Tree Mark)} {t : Tree Mark}

theorem isNode_of_isStatement {x : Tree Mark} (hx : isStatement x = true) : isNode x = true := by
  rw [isNode, hasKind_iff.mp hx]; rfl

theorem mem_live_self {x : Tree Mark} (hx : isStatement x = true) : x ∈ live expired x := by
  cases x with
  | scalar | arr => cases hx
  | obj m fields =>
    rw [live, if_pos (isNode_of_isStatement hx), if_pos hx]
    exact mem_cons_self

/-- Reshaping depends only on what is done at the statements met. -/
theorem reshape_congr (hd : ∀ x, Shows h x → isStatement x = false → drops x = false)
    (he : ∀ x, expired x = true → isStatement x = true) (hmet : ∀ x ∈ met, drops x = expired x)
    (hf : ∀ x fs, (isStatement x = true → x ∈ met) → f x fs = g x fs) (ht : Shows h t) :
    (live expired t ⊆ met → expired t = false → reshape drops f t = reshape expired g t) ∧
    (liveInside expired t ⊆ met → reshapeInside drops f t = reshapeInside expired g t) := by
  have hdrops : ∀ x, Shows h x → live expired x ⊆ met → drops x = expired x := by
    intro x hx hl
    cases hst : isStatement x with
    | true => exact hmet x (hl (mem_live_self hst))
    | false =>
      rw [hd x hx hst]
      symm
      rw [Bool.eq_false_iff]
      intro hexp
      rw [he x hexp] at hst
      cases hst
  induction t using induct with
  | scalar s =>
    refine ⟨fun _ _ => by rw [reshape, reshape], fun hl => ?_⟩
    rw [reshapeInside, reshapeInside, hdrops _ ht (by simp [live]), reshape, reshape] <;> simp
  | arr m items ih =>
    refine ⟨fun _ _ => by rw [reshape, reshape], fun hl => ?_⟩
    rw [reshapeInside, reshapeInside, reshapeItems_eq, reshapeItems_eq]
    rw [liveInside, liveItems_eq] at hl
    have hitem : ∀ x ∈ items, live expired x ⊆ met := fun x hx s hs => hl (mem_flatMap.mpr ⟨x, hx, hs⟩)
    have hfilter : items.filter (fun x => !drops x) = items.filter fun x => !expired x :=
      filter_congr fun x hx => by rw [hdrops x (ht.child hx) (hitem x hx)]
    rw [hfilter]
    congr 1
    refine map_congr_left fun x hx => ?_
    obtain ⟨hx, hexp⟩ := mem_filter.mp hx
    exact (ih x hx (ht.child hx)).1 (hitem x hx) (by simpa using hexp)
  | obj m fields ih =>
    have hmain : live expired (obj m fields) ⊆ met → expired (obj m fields) = false →
        reshape drops f (obj m fields) = reshape expired g (obj m fields) := by
      intro hl hexp
      rw [reshape, reshape]
      split
      · next hnode =>
        have hfields : liveFields expired fields ⊆ met := by
          intro s hs
          refine hl ?_
          rw [live, if_pos hnode, hexp]
          split
          · exact mem_cons_of_mem _ hs
          · exact hs
        have heq : reshapeFields drops f fields = reshapeFields expired g fields := by
          rw [reshapeFields_eq, reshapeFields_eq]
          refine map_congr_left fun e hmem => Prod.ext rfl ?_
          show reshapeSlot drops f e.1 e.2 = reshapeSlot expired g e.1 e.2
          rw [reshapeSlot, reshapeSlot]
          split
          · rfl
          · next hmeta =>
            refine (ih e hmem (ht.child (mem_map_of_mem hmem))).2 fun s hs => hfields ?_
            rw [liveFields_eq, mem_flatMap]
            exact ⟨e, hmem, by rw [if_neg hmeta]; exact hs⟩
        rw [heq]
        exact hf _ _ fun hst => hl (mem_live_self hst)
      · rfl
    refine ⟨hmain, fun hl => ?_⟩
    have hl : live expired (obj m fields) ⊆ met := hl
    rw [reshapeInside, reshapeInside, hdrops _ ht hl]
    · split
      · rfl
      · next hexp => exact hmain hl (by simpa using hexp)
    · simp
    · simp

end Congruence

variable {c : Scan} {fields : Fields Mark} {body : Mark} {items met : List (Tree Mark)}
  {p : Patch} {w : Workspace} {h : Heap} {rs : List Ref} {x : Tree Mark} {guard : String}

section Rewriting

/-- Every statement that goes under guard has its new expression. -/
def Complete (c : Scan) (met : List (Tree Mark)) (p : Patch) : Prop :=
  ∀ x ∈ met, c.operands x ≠ none → ∀ m, x.ref = .part m → p.new m ≠ none

theorem Verdict.operands_eq_none {α β : Type} [Inhabited α] [Inhabited β] {o : Options} {dialect : Dialect}
    {copy : Tree α → Tree α} {args : List (Tree α)} {v : Verdict} (hv : v.operands o dialect copy args = none)
    (copy' : Tree β → Tree β) (args' : List (Tree β)) : v.operands o dialect copy' args' = none := by
  cases v with
  | untouched | expired => rfl
  | asserted | warned | deprecated => cases hv

/-- A statement that does not go under guard is left bare. -/
theorem Scan.finish_of_operands (hop : c.operands x = none) (fs : List (String × Json)) :
    (c.rewriting guard).finish x fs = .obj () fs := by
  rw [Rewriting.finish, Scan.rewriting]
  rw [Scan.operands] at hop
  cases isStatement x with
  | false => rfl
  | true =>
    simp only [if_true]
    cases hv : verdict c.options c.helpers x with
    | error f => rfl
    | ok v =>
      rw [hv] at hop
      simp only [Verdict.operands_eq_none hop]

theorem PatchOf.reshape_eq (hp : PatchOf c met p) (hj : ∀ x ∈ met, c.Judged x) (hc : Complete c met p)
    {t : Tree Mark} (ht : Shows c.heap t) :
    (live c.expired t ⊆ met → c.expired t = false →
      reshape p.drops (p.finish (c.rewriting guard).finish) t = (c.rewriting guard).rewrite t) ∧
    (liveInside c.expired t ⊆ met → reshapeInside p.drops (p.finish (c.rewriting guard).finish) t =
      reshapeInside (c.rewriting guard).drops (c.rewriting guard).finish t) := by
  refine reshape_congr (h := c.heap) (fun x hx hst => ?_) (fun x hx => ?_) (fun x (hx : x ∈ met) => ?_)
    (fun x fs hst => ?_) ht
  · rw [Patch.drops, decide_eq_false_iff_not]
    intro hg
    obtain ⟨m, hm⟩ := hp.part_of_gone hj _ hg
    exact hp.not_affects hj hx hm hst (.inl (hm ▸ hg))
  · exact (Bool.and_eq_true_iff.mp hx).1
  · rw [Patch.drops, hp.gone, Bool.eq_iff_iff, decide_eq_true_eq, mem_gone]
    constructor
    · rintro ⟨y, hy, hexp, hr⟩
      rwa [← (hj y hy).shows.unique (hj x hx).shows hr]
    · exact fun hexp => ⟨x, hx, hexp, rfl⟩
  · rw [Patch.finish]
    split
    · rfl
    · next hnew =>
      cases hop : c.operands x with
      | none => rw [Scan.finish_of_operands hop]
      | some drafts =>
        cases hs : isStatement x with
        | false => simp [Rewriting.finish, hs]
        | true =>
          obtain ⟨m, hm⟩ := Scan.exists_ref_of_isStatement hs
          have := hc x (hst hs) (by rw [hop]; simp) m hm
          rw [ref_eq_part_iff.mp hm, Option.bind_some, Option.not_isSome_iff_eq_none] at hnew
          exact absurd hnew this

end Rewriting

section Program

theorem Layout.body_mem (hl : Layout c fields body items) : arr body items ∈ (obj c.start.program fields).children :=
  mem_map_of_mem (Table.mem_of_get? hl.body)

theorem Layout.program_ne_body (hl : Layout c fields body items) : c.start.program ≠ body := fun e =>
  not_mem_marks_child hl.distinct rfl hl.body_mem (e ▸ mem_marks_of_ref rfl)

theorem PatchOf.not_affects_of_not_mem (hp : PatchOf c met p) (hm : Met c fields met) {m : Mark}
    (hmem : ∀ n ∈ nodesFields fields, n.ref ≠ .part m) : ¬ p.Affects m := by
  intro ha
  obtain ⟨x, hx, hr⟩ := hp.affects ha
  exact hmem x (hm.nodes hx) hr

theorem Layout.ref_ne_program (hl : Layout c fields body items) {n : Tree Mark} (hn : n ∈ nodesFields fields) :
    n.ref ≠ .part c.start.program := by
  intro hr
  obtain ⟨e, he, _, _, hsub⟩ := marks_nodesFields hn
  exact not_mem_marks_child hl.distinct rfl (mem_map_of_mem he) (hsub (mem_marks_of_ref hr))

theorem Layout.ref_ne_body (hl : Layout c fields body items) {n : Tree Mark} (hn : n ∈ nodesFields fields) :
    n.ref ≠ .part body := fun hr => hl.body_not_mem hn (mem_marks_of_ref hr)

namespace Stage

theorem value_body (hs : Stage c body p w h rs) : w.value (.part body) = .arr () (rs.map w.value) :=
  hs.models.value_cell hs.list

section

variable (hs : Stage c body p w h rs) (hl : Layout c fields body items) (hp : PatchOf c met p) (hm : Met c fields met)
include hs hl hp hm

theorem value_field (hg : Guarding c h guard met p) {e : String × Tree Mark} (he : e ∈ fields)
    (hbody : e.1 ≠ "body") : w.value (standIn p.gone p.empty e.2.ref) =
      reshapeSlot p.drops (p.finish (c.rewriting guard).finish) e.1 e.2 := by
  have hc : e.2 ∈ (obj c.start.program fields).children := mem_map_of_mem he
  have hroot : p.LocalInside (obj c.start.program fields) := by
    intro m _ ha
    obtain ⟨x, hx, hr⟩ := hp.affects ha
    refine ⟨x, ?_, hr⟩
    simp only [inside, nodes, hl.node, if_true]
    exact mem_cons_of_mem _ (hm.nodes hx)
  have hshows := hl.shows.child hc
  have hnot : body ∉ e.2.marks := by
    intro hb
    have hpair := pairwise_map.mp (children_pairwise hl.distinct)
    have : e = ("body", arr body items) :=
      eq_of_mem_of_mem hpair he (Table.mem_of_get? hl.body) hb (mem_marks_of_ref rfl)
    exact hbody (by rw [this])
  have happ := hs.applied hl hshows hnot
  have hread := hs.readable hl hp hm hg
  rw [reshapeSlot]
  split
  · next hmeta =>
    have hn := hroot.metadata hl.distinct he hmeta
    rw [standIn, if_neg (hread.ref_not_gone hn)]
    exact happ.value_erase hs.models hread hshows hn
  · refine (Patch.value_reshape hs.models hread hshows (nodup_child hl.distinct hc) happ).2 (fun hgone => ?_)
      (hroot.field hl.distinct he)
    refine hread.empties c.start.program _ (hl.shows.here rfl) _ ?_ hgone
    exact mem_map.mpr ⟨(e.1, e.2.ref), mem_map_of_mem he, rfl⟩

theorem cell_program : h c.start.program =
      some (.record (Table.mapValues (fun x => standIn p.gone p.empty (ref x)) fields)) := by
  have hnew : p.new c.start.program = none := not_not.mp fun e =>
    hp.not_affects_of_not_mem hm (fun n hn => hl.ref_ne_program hn) (.inr e)
  rw [hs.cells _ (hl.ready.marks_lt hl.shows (mem_marks_of_ref rfl)) hl.program_ne_body, hl.shows.here rfl]
  simp only [cell?, Option.map_some, Patch.cell, hnew, Cell.under_none, Cell.prune, Table.mapValues_mapValues]

end

theorem standIn_body (hl : Layout c fields body items) (hp : PatchOf c met p) (hm : Met c fields met) :
    standIn p.gone p.empty (.part body) = .part body := by
  rw [standIn, if_neg]
  exact fun hgone => hp.not_affects_of_not_mem hm (fun n hn => hl.ref_ne_body hn) (.inl hgone)

theorem value_program (hs : Stage c body p w h rs) (hl : Layout c fields body items) (hp : PatchOf c met p)
    (hm : Met c fields met) (hg : Guarding c h guard met p) :
    w.value (.part c.start.program) = .obj () (Table.set
      (reshapeFields p.drops (p.finish (c.rewriting guard).finish) fields) "body" (.arr () (rs.map w.value))) := by
  rw [hs.models.value_cell (hs.cell_program hl hp hm), Cell.value, Table.mapValues_mapValues, reshapeFields_eq,
    ← hs.value_body]
  congr 1
  have := Table.map_set hl.keys hl.body (f := fun e => w.value (standIn p.gone p.empty e.2.ref))
    (g := fun e => reshapeSlot p.drops (p.finish (c.rewriting guard).finish) e.1 e.2)
    fun e he hne => hs.value_field hl hp hm hg he hne
  simp only [ref, standIn_body hl hp hm] at this
  exact this

end Stage

/-- A document is a program or a file that holds one. -/
inductive Wraps (t program : Tree Mark) : Prop
  | program (file : hasKind t "File" = false) (eq : t = program) : Wraps t program
  | file (m : Mark) (fs : List (String × Tree Mark)) (eq : t = obj m fs) (file : hasKind t "File" = true)
      (keys : (fs.map Prod.fst).Nodup) (get : Table.get? fs "program" = some program) : Wraps t program

section File

variable {m : Mark} {fs : Fields Mark} {e : String × Tree Mark}

/-- What lies outside the program is not affected. -/
theorem PatchOf.not_affects_outside (hp : PatchOf c met p) (hm : Met c fields met) {k : Mark}
    (hk : k ∉ (obj c.start.program fields).marks) : ¬ p.Affects k := by
  refine hp.not_affects_of_not_mem hm fun n hn hr => hk ?_
  obtain ⟨e, he, _, _, hsub⟩ := marks_nodesFields hn
  exact marks_child (mem_map_of_mem he) (hsub (mem_marks_of_ref hr))

namespace Layout

section

variable (hl : Layout c fields body items)
include hl

theorem body_mem_marks : body ∈ (obj c.start.program fields).marks :=
  marks_child hl.body_mem (mem_marks_of_ref rfl)

/-- The fields of a file other than the program share nothing with it. -/
theorem file_disjoint (heq : c.start.root = obj m fs)
    (hget : Table.get? fs "program" = some (obj c.start.program fields)) (he : e ∈ fs) (hne : e.1 ≠ "program") :
    ∀ k ∈ e.2.marks, k ∉ (obj c.start.program fields).marks := by
  have hnodup := hl.ready.nodup
  rw [heq] at hnodup
  have hpair := pairwise_map.mp (children_pairwise hnodup)
  intro k hk hk'
  have : e = ("program", obj c.start.program fields) := eq_of_mem_of_mem hpair he (Table.mem_of_get? hget) hk hk'
  exact hne (by rw [this])

theorem file_not_mem (heq : c.start.root = obj m fs)
    (hget : Table.get? fs "program" = some (obj c.start.program fields)) : m ∉ (obj c.start.program fields).marks := by
  have hnodup := hl.ready.nodup
  rw [heq] at hnodup
  exact not_mem_marks_child hnodup rfl (mem_map_of_mem (Table.mem_of_get? hget))

theorem shows_file (heq : c.start.root = obj m fs) : Shows c.heap (obj m fs) :=
  heq ▸ hl.ready.shows

end

end Layout

namespace Stage

section

variable (hs : Stage c body p w h rs) (hl : Layout c fields body items) (hp : PatchOf c met p) (hm : Met c fields met)
include hs hl hp hm

theorem shows_outside (heq : c.start.root = obj m fs)
    (hget : Table.get? fs "program" = some (obj c.start.program fields)) (he : e ∈ fs) (hne : e.1 ≠ "program") :
    Shows h e.2 := by
  have hdisj := hl.file_disjoint heq hget he hne
  have hes : Shows c.heap e.2 := (hl.shows_file heq).child (mem_map_of_mem he)
  exact (hs.applied hl hes fun hb => hdisj _ hb hl.body_mem_marks).shows hes (hp.part_of_gone hm.judged)
    fun k hk => hp.not_affects_outside hm (hdisj k hk)

theorem cell_file (heq : c.start.root = obj m fs) (hkeys : (fs.map Prod.fst).Nodup)
    (hget : Table.get? fs "program" = some (obj c.start.program fields)) :
    h m = some (.record (Table.mapValues ref fs)) := by
  have hshows := hl.shows_file heq
  have hself := hl.file_not_mem heq hget
  have hnew : p.new m = none := not_not.mp fun e => hp.not_affects_outside hm hself (.inr e)
  have hstand : ∀ e ∈ fs, standIn p.gone p.empty e.2.ref = e.2.ref := by
    intro e he
    rw [standIn, if_neg]
    intro hgone
    obtain ⟨k, hk⟩ := hp.part_of_gone hm.judged _ hgone
    by_cases hne : e.1 = "program"
    · have heq : e.2 = obj c.start.program fields := by
        have := Table.get?_of_mem hkeys (k := e.1) (v := e.2) he
        rw [hne, hget] at this
        exact (Option.some.inj this).symm
      rw [heq] at hgone
      exact hp.not_affects_of_not_mem hm (fun n hn => hl.ref_ne_program hn) (.inl hgone)
    · exact hp.not_affects_outside hm (hl.file_disjoint heq hget he hne k (mem_marks_of_ref hk)) (.inl (hk ▸ hgone))
  rw [hs.cells m (hl.ready.marks_lt hshows (mem_marks_of_ref rfl)) fun e => hself (e ▸ hl.body_mem_marks),
    hshows.here rfl]
  simp only [cell?, Option.map_some, Patch.cell, hnew, Cell.under_none, Cell.prune, Table.mapValues_mapValues]
  exact congrArg (fun fs => some (Cell.record fs))
    (map_congr_left fun e he => congrArg (Prod.mk e.1) (hstand e he))

theorem root_erase (hw : Wraps c.start.root (obj c.start.program fields)) :
    w.root.erase = withProgram c.start.root (w.value (.part c.start.program)) := by
  rw [← hs.models.value_ref hs.models.root, hs.keeps.root]
  cases hw with
  | program hfile heq =>
    rw [withProgram, hfile, heq]
    rfl
  | file m fs heq hfile hkeys hget =>
    rw [withProgram, hfile, if_pos rfl, heq, show (obj m fs).ref = .part m from rfl,
      hs.models.value_cell (hs.cell_file hl hp hm heq hkeys hget), Cell.value, Table.mapValues_mapValues]
    congr 1
    exact Table.map_set hkeys hget (f := fun e => w.value e.2.ref) (g := fun e => e.2.erase)
      fun e he hne => hs.models.value_ref (hs.shows_outside hl hp hm heq hget he hne)

end

end Stage

end File

end Program

end Expansion

end DebugGuards
