import DebugGuards.Proofs.Expansion.Kept
import DebugGuards.Proofs.Expansion.Body

/-! Redirecting a statement. Its source is set in place, and since no other part of the
module holds the statement, everything else reads as before. -/

namespace DebugGuards

open DebugGuards.Tree Node Expansion List

section Framing

variable {w w' : Workspace} {h h' : Heap} {m a : ℕ} {c : Cell} {k k' : ℕ} {t : Tree Mark}

namespace Models

/-- What does not hold the part written to is as it was. -/
theorem deref_of_not_mem (hw : Models w h) (hw' : Models w' h') (hwr : h.Writes k m c h' k') (hk : h.Below k)
    (ht : Shows h t) (hm : m ∉ t.marks) : w'.deref t.ref = w.deref t.ref := by
  rw [hw'.deref_eq (ht.writes hwr hk hm), hw.deref_eq ht]

theorem value_record_set (hw : Models w h) (hw' : Models w' h') (hwr : h.Writes k m c h' k') (hk : h.Below k)
    {fs : List (String × Ref)} (ha : h a = some (.record fs)) (hne : a ≠ m) (hkeys : (fs.map Prod.fst).Nodup)
    {key : String} {r : Ref} (hget : Table.get? fs key = some r)
    (hother : ∀ e ∈ fs, e.1 ≠ key → m ∉ (w.deref e.2).marks) :
    w'.value (.part a) = .obj () (Table.set (w.value (.part a)).fields key (w'.value r)) := by
  obtain ⟨fields, hshows, rfl⟩ := hw.exists_record ha
  have hvalues : ∀ e ∈ fields, e.1 ≠ key → w'.value e.2.ref = w.value e.2.ref := by
    intro e he hkey
    have hes : Shows h e.2 := hshows.child (mem_map_of_mem he)
    have hnot := hother (e.1, e.2.ref) (mem_map.mpr ⟨e, he, rfl⟩) hkey
    rw [hw.deref_eq hes] at hnot
    rw [Workspace.value, hw.deref_of_not_mem hw' hwr hk hes hnot, Workspace.value]
  rw [hw'.value_cell (hwr.cell hk hne ha), hw.value_cell ha, Cell.value, Cell.value, Table.mapValues_mapValues,
    Table.mapValues_mapValues, Tree.fields]
  rw [Table.get?_mapValues, Option.map_eq_some_iff] at hget
  obtain ⟨x, hx, rfl⟩ := hget
  have hkeys' : (fields.map Prod.fst).Nodup := by
    rw [Table.mapValues, List.map_map] at hkeys
    exact hkeys
  exact congrArg (obj ()) (Table.map_set hkeys' hx (f := fun e => w'.value e.2.ref) (g := fun e => w.value e.2.ref)
    hvalues)

/-- A part that is referred to once lies only inside what holds its holder. -/
theorem not_mem_of_holder (hw : Models w h) {n : ℕ} (hu : h.uses (.part n) w.fresh ≤ 1) (hc : h a = some c)
    (hn : .part n ∈ c.refs) (ht : Shows h t) (hr : t.ref ≠ .part n) (ha : a ∉ t.marks) : n ∉ t.marks := by
  intro hmem
  obtain ⟨b, hb, c', hc', hn'⟩ := ht.exists_holder hmem hr
  exact ha (Heap.holder_unique hw.below hu hc hc' hn hn' ▸ hb)

end Models

end Framing

namespace Expansion

section Marks

theorem marks_argumentsOf {e a : Tree Mark} (ha : a ∈ argumentsOf e) : a.marks ⊆ e.marks := fun _ hn =>
  (sublist_argumentsOf e).subset (mem_flatMap.mpr ⟨a, ha, hn⟩)

/-- What is kept of a part lies inside it. -/
theorem Keeps.mem_marks {p : Patch} {x : Tree Mark} {n : Mark} (hk : Keeps p x n) : n ∈ x.marks := by
  induction hk with
  | self hx => exact mem_marks_of_ref hx
  | item hx _ _ ih => exact marks_child (t := arr _ _) hx ih
  | field he _ _ _ ih => exact marks_child (t := obj _ _) (mem_map_of_mem he) ih
  | @argument m fs a n _ ha _ ih =>
    refine marks_argumentsOf (a := a) (e := expressionOf (obj m fs)) ha ih |> fun h => ?_
    cases hget : Table.get? fs "expression" with
    | none =>
      rw [expressionOf, Tree.fields, hget] at h
      simp [null] at h
    | some e =>
      rw [expressionOf, Tree.fields, hget] at h
      exact marks_child (t := obj m fs) (mem_map_of_mem (Table.mem_of_get? hget)) h

end Marks

variable {c : Scan} {fields : Fields Mark} {body : Mark} {items met : List (Tree Mark)} {guard : String}
  {p : Patch} {es pre post : List Entry} {w w' : Workspace} {h h' : Heap} {rs rs₁ rs₂ : List Ref} {x : Tree Mark}
  {k : ℕ} {cell : Cell}

theorem Layout.slot_disjoint (hl : Layout c fields body items) {e : String × Tree Mark} (he : e ∈ fields)
    (hne : e.1 ≠ "body") {n : Mark} (hn : n ∈ (arr body items).marks) : n ∉ e.2.marks := by
  have hpair := pairwise_map.mp (children_pairwise hl.distinct)
  intro hn'
  have : e = ("body", arr body items) := eq_of_mem_of_mem hpair he (Table.mem_of_get? hl.body) hn' hn
  exact hne (by rw [this])

/-- A statement of the body that nothing else holds. -/
structure Secluded (c : Scan) (fields : List (String × Tree Mark)) (body : Mark) (p : Patch) (w : Workspace)
    (others : List Ref) (k : Mark) : Prop where
  others : ∀ r ∈ others, k ∉ (w.deref r).marks
  slots : ∀ e ∈ fields, e.1 ≠ "body" → k ∉ (w.deref (standIn p.gone p.empty e.2.ref)).marks
  outside : ∀ m fs, c.start.root = obj m fs → Table.get? fs "program" = some (obj c.start.program fields) →
    k ≠ m ∧ ∀ e ∈ fs, e.1 ≠ "program" → k ∉ e.2.marks
  ne_body : k ≠ body
  ne_program : k ≠ c.start.program

namespace Standing

/-- After a write to a statement of the body that nothing else holds, the document is as
it was but for that statement. -/
theorem root_erase_write (hs : Standing c fields body items met guard p es w h (rs₁ ++ .part k :: rs₂))
    (hwraps : Wraps c.start.root (obj c.start.program fields)) (hsec : Secluded c fields body p w (rs₁ ++ rs₂) k)
    (hw' : Models w' h') (hwr : h.Writes w.fresh k cell h' w'.fresh) (hf : w.SameFrame w') :
    w'.root.erase = withProgram c.start.root (.obj () (Table.set
      (reshapeFields p.drops (p.finish (c.rewriting guard).finish) fields) "body"
        (.arr () (rs₁.map w.value ++ w'.value (.part k) :: rs₂.map w.value)))) := by
  have hbelow := hs.stage.models.below
  have hbody : w'.value (.part body) = .arr () (rs₁.map w.value ++ w'.value (.part k) :: rs₂.map w.value) := by
    obtain ⟨ys, hys, hrefs⟩ := hs.stage.models.exists_list hs.stage.list
    have hsame : ∀ r ∈ rs₁ ++ rs₂, w'.value r = w.value r := by
      intro r hr
      have hmem : r ∈ ys.map ref := by
        rw [hrefs, mem_append, mem_cons]
        exact (mem_append.mp hr).imp_right .inr
      obtain ⟨y, hy, rfl⟩ := mem_map.mp hmem
      have hshow : Shows h y := hys.child (t := .arr body ys) hy
      have hnot := hsec.others _ hr
      rw [hs.stage.models.deref_eq hshow] at hnot
      rw [Workspace.value, hs.stage.models.deref_of_not_mem hw' hwr hbelow hshow hnot, Workspace.value]
    rw [hw'.value_cell (hwr.cell hbelow (Ne.symm hsec.ne_body) hs.stage.list), Cell.value, map_append,
      map_cons, map_congr_left fun r hr => hsame r (mem_append_left _ hr),
      map_congr_left fun r hr => hsame r (mem_append_right _ hr)]
  have hprogram : w'.value (.part c.start.program) = .obj () (Table.set
      (reshapeFields p.drops (p.finish (c.rewriting guard).finish) fields) "body" (w'.value (.part body))) := by
    have hkeys : ((Table.mapValues (fun x => standIn p.gone p.empty (ref x)) fields).map Prod.fst).Nodup := by
      rw [Table.mapValues, List.map_map]
      exact hs.layout.keys
    have hget : Table.get? (Table.mapValues (fun x => standIn p.gone p.empty (ref x)) fields) "body" =
        some (.part body) := by
      rw [Table.get?_mapValues, hs.layout.body]
      exact congrArg some (Stage.standIn_body hs.layout hs.patch hs.judged)
    rw [hs.stage.models.value_record_set hw' hwr hbelow (hs.stage.cell_program hs.layout hs.patch hs.judged)
      (Ne.symm hsec.ne_program) hkeys hget ?_,
      hs.stage.value_program hs.layout hs.patch hs.judged hs.guarding, Tree.fields, Table.set_set]
    intro e he hne
    obtain ⟨e, hmem, rfl⟩ := mem_map.mp he
    exact hsec.slots e hmem hne
  rw [← hbody, ← hprogram]
  rw [← hw'.value_ref hw'.root, hf.root, hs.stage.keeps.root]
  cases hwraps with
  | program hfile heq =>
    rw [withProgram, hfile, heq]
    rfl
  | file m fs heq hfile hkeys hget =>
    obtain ⟨hne, hout⟩ := hsec.outside m fs heq hget
    have hkeys' : ((Table.mapValues ref fs).map Prod.fst).Nodup := by
      rw [Table.mapValues, List.map_map]
      exact hkeys
    have hget' : Table.get? (Table.mapValues ref fs) "program" = some (.part c.start.program) := by
      rw [Table.get?_mapValues, hget]
      rfl
    have hold : w.value (.part m) = .obj () (Table.set (Table.mapValues erase fs) "program"
        (w.value (.part c.start.program))) := by
      have := hs.stage.root_erase hs.layout hs.patch hs.judged (.file m fs heq hfile hkeys hget)
      rwa [← hs.stage.models.value_ref hs.stage.models.root, hs.stage.keeps.root, withProgram,
        if_pos hfile, heq] at this
    rw [withProgram, if_pos hfile, heq, show (obj m fs).ref = .part m from rfl,
      hs.stage.models.value_record_set hw' hwr hbelow (hs.stage.cell_file hs.layout hs.patch hs.judged heq hkeys hget)
        (Ne.symm hne) hkeys' hget' ?_, hold, Tree.fields, Table.set_set, Tree.fields]
    intro e he hne
    obtain ⟨e, hmem, rfl⟩ := mem_map.mp he
    rw [hs.stage.models.deref_eq (hs.stage.shows_outside hs.layout hs.patch hs.judged heq hget hmem hne)]
    exact hout e hmem hne

theorem not_mem_slot (hs : Standing c fields body items met guard p es w h rs)
    (hkeyed : (obj c.start.program fields).keyed = true) {e : String × Tree Mark} (he : e ∈ fields)
    (hne : e.1 ≠ "body") {n : Mark} (hn : n ∈ (arr body items).marks) :
    n ∉ (w.deref (standIn p.gone p.empty e.2.ref)).marks := by
  have hlt := hs.layout.ready.marks_lt (hs.layout.shows.child hs.layout.body_mem) hn
  rw [standIn]
  split
  · next hgone => exact hs.stage.not_mem_empty hs.layout.shows he hgone hlt
  · intro hmem
    have hkeeps := hs.stage.keeps_of_mem hs.layout hs.judged hs.guarding hlt
      (hs.layout.shows.child (mem_map_of_mem he)) (keyed_child hkeyed (mem_map_of_mem he))
      (hs.layout.slot_disjoint he hne (mem_marks_of_ref rfl)) hmem
    exact hs.layout.slot_disjoint he hne hn hkeeps.mem_marks

/-- A statement of the module that is still there is held by the body alone. -/
theorem secluded_old (hs : Standing c fields body items met guard p (pre ++ .old x :: post) w h rs)
    (hpre : List.Forall₂ (Entry.At h c.base) pre rs₁) (hpost : List.Forall₂ (Entry.At h c.base) post rs₂)
    (hkeyed : (obj c.start.program fields).keyed = true) (hx : x.ref = .part k) :
    Secluded c fields body p w (rs₁ ++ rs₂) k := by
  have hxmem := hs.item_mem (x := x) (by simp)
  have hxnode := hs.layout.item_mem hxmem
  have hlt : k < c.base := hs.layout.ready.marks_lt (hs.shows_old (x := x) (by simp)) (mem_marks_of_ref hx)
  have hkbody : k ∈ (arr body items).marks := marks_child (t := arr body items) hxmem (mem_marks_of_ref hx)
  have hkprogram : k ∈ (obj c.start.program fields).marks := marks_child hs.layout.body_mem hkbody
  -- what another statement of the module has become
  have hold : ∀ y, .old y ∈ pre ++ post → k ∉ (w.deref y.ref).marks := by
    intro y hy hmem
    have hy' : Entry.old y ∈ pre ++ .old x :: post := by
      rw [mem_append, mem_cons]
      exact (mem_append.mp hy).imp_right .inr
    have hyitem := hs.item_mem hy'
    have hkeyedY : y.keyed = true := keyed_child (keyed_child hkeyed hs.layout.body_mem) (y := y) hyitem
    have hkeeps := hs.stage.keeps_of_mem hs.layout hs.judged hs.guarding hlt (hs.shows_old hy') hkeyedY
      (hs.layout.body_not_mem (hs.layout.item_mem hyitem)) hmem
    have hitems := (children_pairwise (nodup_child hs.layout.distinct hs.layout.body_mem)).sublist hs.olds
    rw [filterMap_append, filterMap_cons_some (show (Entry.old x).old? = some x from rfl),
      pairwise_append, pairwise_cons] at hitems
    rcases mem_append.mp hy with hy | hy
    · exact hitems.2.2 y (mem_filterMap.mpr ⟨_, hy, rfl⟩) x (mem_cons_self ..) hkeeps.mem_marks
        (mem_marks_of_ref hx)
    · exact hitems.2.1.1 y (mem_filterMap.mpr ⟨_, hy, rfl⟩) (mem_marks_of_ref hx) hkeeps.mem_marks
  refine ⟨fun r hr => ?_, fun e he hne => ?_, fun m fs heq hget => ?_, ?_, ?_⟩
  · obtain ⟨e, he, ha⟩ : ∃ e ∈ pre ++ post, e.At h c.base r := by
      rcases mem_append.mp hr with hr | hr
      · obtain ⟨e, he, ha⟩ := forall₂_exists_left hpre hr
        exact ⟨e, mem_append_left _ he, ha⟩
      · obtain ⟨e, he, ha⟩ := forall₂_exists_left hpost hr
        exact ⟨e, mem_append_right _ he, ha⟩
    cases e with
    | old y =>
      rw [show r = y.ref from ha]
      exact hold y he
    | new v =>
      refine hs.stage.models.not_mem_of_reflects (show Reflects h c.base v.copy r from ha) hlt fun l hl => ?_
      rw [olds_copy] at hl
      cases hl
  · exact hs.not_mem_slot hkeyed he hne hkbody
  · refine ⟨fun e => hs.layout.file_not_mem heq hget (e ▸ hkprogram), fun e he hne hmem => ?_⟩
    exact hs.layout.file_disjoint heq hget he hne k hmem hkprogram
  · exact fun e => hs.layout.ref_ne_body hxnode (e ▸ hx)
  · exact fun e => hs.layout.ref_ne_program hxnode (e ▸ hx)

theorem secluded_new (hs : Standing c fields body items met guard p es w h (rs₁ ++ .part k :: rs₂))
    (hkeyed : (obj c.start.program fields).keyed = true) (hk : c.base ≤ k) :
    Secluded c fields body p w (rs₁ ++ rs₂) k := by
  have hbelow := hs.stage.models.below
  have hlist := hs.stage.list
  have hprogram := hs.stage.cell_program hs.layout hs.patch hs.judged
  have hold : ∀ {y : Tree Mark}, Shows c.heap y → k ∉ y.marks := fun hy hm =>
    absurd (hs.layout.ready.marks_lt hy hm) (Nat.not_lt.mpr hk)
  have hone : h.uses (.part k) w.fresh ≤ 1 := by
    have := hs.stage.sole k hk
    rw [count_nil] at this
    split_ifs at this <;> omega
  have hmem : Ref.part k ∈ (Cell.list (rs₁ ++ .part k :: rs₂)).refs := by simp [Cell.refs]
  have hnot : Ref.part k ∉ rs₁ ++ rs₂ := by
    have hcount := Nat.le_trans (Heap.usesAt_le (h := h) (r := .part k) (hbelow body _ hlist)) hone
    rw [Heap.usesAt_of_some hlist, Cell.refs, count_append, count_cons_self] at hcount
    rw [← count_eq_zero, count_append]
    omega
  refine ⟨fun r hr => ?_, fun e he hne => ?_, fun m fs heq hget => ?_, ?_, ?_⟩
  · have hr' : r ∈ rs₁ ++ .part k :: rs₂ := by
      rw [mem_append, mem_cons]
      exact (mem_append.mp hr).imp_right .inr
    obtain ⟨hrefs, hshows⟩ := hs.stage.models.shows_of_refs hlist hr'
    refine hs.stage.models.not_mem_of_holder hone hlist hmem hshows (fun e => hnot ?_) ?_
    · rw [← e, hrefs]
      exact hr
    · cases r with
      | scalar s => simp [Workspace.deref]
      | part j => exact (hs.stage.models.marks_of_refs hlist hr').2
  · have hr : standIn p.gone p.empty e.2.ref ∈
        (Cell.record (Table.mapValues (fun x => standIn p.gone p.empty (ref x)) fields)).refs := by
      rw [Cell.refs, Table.mapValues, List.map_map]
      exact mem_map.mpr ⟨e, he, rfl⟩
    obtain ⟨hrefs, hshows⟩ := hs.stage.models.shows_of_refs hprogram hr
    refine hs.stage.models.not_mem_of_holder hone hlist hmem hshows (fun eq => ?_)
      (hs.not_mem_slot hkeyed he hne (mem_marks_of_ref rfl))
    rw [hrefs] at eq
    rw [eq] at hr
    exact hs.layout.program_ne_body (Heap.holder_unique hbelow hone hprogram hlist hr hmem)
  · have hfile := hs.layout.shows_file heq
    refine ⟨fun e => hold hfile (e ▸ mem_marks_of_ref rfl), fun e he _ => hold (hfile.child (mem_map_of_mem he))⟩
  · exact fun e => hold (hs.layout.shows.child hs.layout.body_mem) (e ▸ mem_marks_of_ref rfl)
  · exact fun e => hold hs.layout.shows (e ▸ mem_marks_of_ref rfl)

theorem secluded {e : Entry}
    (hs : Standing c fields body items met guard p (pre ++ e :: post) w h (rs₁ ++ .part k :: rs₂))
    (hpre : List.Forall₂ (Entry.At h c.base) pre rs₁) (he : e.At h c.base (.part k))
    (hpost : List.Forall₂ (Entry.At h c.base) post rs₂) (hkeyed : (obj c.start.program fields).keyed = true) :
    Secluded c fields body p w (rs₁ ++ rs₂) k := by
  cases e with
  | old x => exact hs.secluded_old hpre hpost hkeyed (show Ref.part k = x.ref from he).symm
  | new v => exact hs.secluded_new hkeyed he.le

/-- A statement with another source. -/
def redirectedTo (dialect : Dialect) (module : String) (x : Tree Mark) : Json :=
  .obj () (Table.set (Table.mapValues erase x.fields) "source" (dialect.literal (.str module)))

theorem map_value_of_forall₂ (hs : Standing c fields body items met guard p es w h rs) {es' : List Entry}
    {rs' : List Ref} (hsub : es' ⊆ es) (he : List.Forall₂ (Entry.At h c.base) es' rs') :
    rs'.map w.value = es'.map (Entry.image (imageOf c guard p)) := by
  induction he with
  | nil => rfl
  | cons ha _ ih =>
    rw [map_cons, map_cons, hs.value_entry (hsub (mem_cons_self ..)) ha,
      ih fun _ h => hsub (mem_cons_of_mem _ h)]

/-- Redirecting a statement of the body. -/
theorem redirect {e : Entry}
    (hs : Standing c fields body items met guard p (pre ++ e :: post) w h (rs₁ ++ .part k :: rs₂))
    (hpre : List.Forall₂ (Entry.At h c.base) pre rs₁) (hpost : List.Forall₂ (Entry.At h c.base) post rs₂)
    (hwraps : Wraps c.start.root (obj c.start.program fields)) (hsec : Secluded c fields body p w (rs₁ ++ rs₂) k)
    {fs : Fields Mark} (hshows : Shows h (obj k fs)) {i : PathId}
    (hpath : w.path i = Contents.place w body (obj k fs)) (module : String) :
    ∃ w' h' cs, w.setField i "source" (w.dialect.literal (.str module)) = .ok w' ∧ Models w' h' ∧
      h.Writes w.fresh k (.record cs) h' w'.fresh ∧ w.SameFrame w' ∧ (w.root.marks.Nodup → w'.root.marks.Nodup) ∧
      w'.root.erase = withProgram c.start.root (.obj () (Table.set
        (reshapeFields p.drops (p.finish (c.rewriting guard).finish) fields) "body"
          (.arr () (pre.map (Entry.image (imageOf c guard p)) ++ redirectedTo w.dialect module (obj k fs) ::
            post.map (Entry.image (imageOf c guard p)))))) := by
  have hcell : h k = some (.record (Table.mapValues ref fs)) := hshows.here rfl
  have hground := literal_grounded (h := Function.update h k none) w.dialect module
  obtain ⟨h', r, hw', hwr, hrefl, hf, _⟩ := hs.stage.models.setPartField hcell "source" hground
  have hvalue : (w.setPartField k "source" (w.dialect.literal (.str module))).value (.part k) =
      redirectedTo w.dialect module (obj k fs) := by
    rw [hw'.value_cell hwr.here, Cell.value, Table.mapValues_set, Table.mapValues_mapValues, hw'.value_reflects hrefl,
      resolve_literal, redirectedTo, Tree.fields]
    refine congrArg (fun gs => obj () (Table.set gs "source" _)) (map_congr_left fun e he => ?_)
    have hchild : e.2 ∈ (obj k fs).children := mem_map_of_mem he
    exact congrArg (Prod.mk e.1) (hw'.value_ref ((hshows.child hchild).writes hwr hs.stage.models.below
      (hshows.not_mem_child rfl hchild)))
  refine ⟨_, h', _, ?_, hw', hwr, hf, hs.stage.models.nodup_setPartField hcell hground (olds_literal ..), ?_⟩
  · have hnode : w.node i = obj k fs := by
      rw [Workspace.node, hpath]
      exact hs.stage.models.deref_eq hshows
    rw [Workspace.setField, hnode]
  · rw [hs.root_erase_write hwraps hsec hw' hwr hf, hvalue,
      hs.map_value_of_forall₂ (fun e he => mem_append_left _ he) hpre,
      hs.map_value_of_forall₂ (fun e he => mem_append_right _ (mem_cons_of_mem _ he)) hpost]

end Standing

end Expansion

end DebugGuards
