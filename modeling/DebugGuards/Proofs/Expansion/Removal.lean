import DebugGuards.Proofs.Expansion.Opening

/-! Removing nodes through the paths of one walk. A node is in its place until its own path
is removed, also if it has left the program together with a node around it; so in a document
without shared parts each path can be removed once, in every order. What remains does not
depend on the order: it is the document without the removed nodes. -/

namespace DebugGuards

open DebugGuards.Tree Node List

mutual
/-- The document without some of its parts. Their places in lists are closed up, and a field
that held one holds a remnant. -/
def Tree.without (gone : Ref → Bool) : Tree Mark → Json
  | .scalar s => .scalar s
  | .arr _ items => .arr () (withoutItems gone items)
  | .obj _ fields => .obj () (withoutFields gone fields)
def Tree.withoutItems (gone : Ref → Bool) : List (Tree Mark) → List Json
  | [] => []
  | t :: rest => if gone t.ref then withoutItems gone rest else t.without gone :: withoutItems gone rest
def Tree.withoutFields (gone : Ref → Bool) : List (String × Tree Mark) → List (String × Json)
  | [] => []
  | (key, t) :: rest =>
    (key, if gone t.ref then remnant ((kind? t).getD "") else t.without gone) :: withoutFields gone rest
end

section Equations

variable (gone : Ref → Bool)

theorem Tree.withoutItems_eq (items : List (Tree Mark)) :
    withoutItems gone items = (items.filter (!gone ·.ref)).map (without gone) := by
  induction items with
  | nil => rfl
  | cons t rest ih =>
    rw [withoutItems, ih]
    split <;> simp [*]

theorem Tree.withoutFields_eq (fields : List (String × Tree Mark)) :
    withoutFields gone fields =
      Table.mapValues (fun t => if gone t.ref then remnant ((kind? t).getD "") else t.without gone) fields := by
  induction fields with
  | nil => rfl
  | cons e rest ih =>
    rw [withoutFields, ih]
    rfl

end Equations

/-- After the removal of some nodes of a workspace. -/
structure Removed (w₀ : Workspace) (xs : List (Tree Mark)) (w : Workspace) (h : Heap) (empty : Ref → Ref) : Prop where
  models : Models w h
  frame : w₀.SameFrame w
  le : (w₀.fresh : ℕ) ≤ w.fresh
  nodes : ∀ x ∈ xs, Shows w₀.root.heap x ∧ isNode x = true
  cells : Pruned w₀.root w₀.fresh (xs.map ref) empty h
  empties : ∀ x ∈ xs, ∀ m fs, w₀.root.heap m = some (.record fs) → x.ref ∈ fs.map Prod.snd →
    Reflects h w₀.fresh (remnant ((kind? x).getD "")) (empty x.ref)

namespace Removed

variable {w₀ w : Workspace} {xs : List (Tree Mark)} {h : Heap} {empty : Ref → Ref} {x t : Tree Mark} {i : PathId}

section

variable (hs : Removed w₀ xs w h empty)
include hs

theorem scalar_not_gone (s : Scalar) : .scalar s ∉ xs.map ref := by
  intro hmem
  obtain ⟨x, hx, hr⟩ := mem_map.mp hmem
  have hnode := (hs.nodes x hx).2
  cases x with
  | scalar | arr => cases hnode
  | obj => cases hr

variable (hd : w₀.root.marks.Nodup) (hb : ∀ m ∈ w₀.root.marks, (m : ℕ) < w₀.fresh)
include hb

/-- A node has its type, whatever has left it. -/
theorem kind?_deref {k : String} (hx : Shows w₀.root.heap x) (hk : kind? x = some k) :
    kind? (w.deref x.ref) = some k := by
  cases x with
  | scalar | arr => cases hk
  | obj m fields =>
    have hcell := hs.cells m (hb m (mem_marks_of_heap (hx.here rfl)))
    rw [hx.here rfl] at hcell
    obtain ⟨fields', hshows, heq⟩ := hs.models.exists_record hcell
    rw [show (obj m fields).ref = (obj m fields').ref from rfl, hs.models.deref_eq hshows, kind?_obj]
    have htype := congrArg (Table.get? · "type") heq
    simp only [Table.get?_mapValues, kind?_obj.mp hk, Option.map_some, ref, standIn,
      if_neg (hs.scalar_not_gone _)] at htype
    obtain ⟨v, hv, hr⟩ := Option.map_eq_some_iff.mp htype
    cases v with
    | scalar s => cases hr; exact hv
    | arr | obj => cases hr

/-- A part of the document as it reads now. -/
theorem value_eq (ht : Shows w₀.root.heap t) : w.value t.ref = t.without (xs.map ref).contains := by
  induction t using induct with
  | scalar s => rfl
  | arr m items ih =>
    have hcell := hs.cells m (hb m (mem_marks_of_heap (ht.here rfl)))
    rw [ht.here rfl] at hcell
    rw [ref, hs.models.value_cell hcell, without, withoutItems_eq]
    simp only [Cell.prune, Cell.value, filter_map, List.map_map, Function.comp_def,
      contains_eq_mem, decide_not]
    congr 1
    exact map_congr_left fun x hx => ih x (mem_filter.mp hx).1 (ht.child (mem_filter.mp hx).1)
  | obj m fields ih =>
    have hcell := hs.cells m (hb m (mem_marks_of_heap (ht.here rfl)))
    rw [ht.here rfl] at hcell
    rw [ref, hs.models.value_cell hcell, without, withoutFields_eq]
    simp only [Cell.prune, Cell.value, Table.mapValues_mapValues]
    congr 1
    refine map_congr_left fun e he => Prod.ext rfl ?_
    have hshows : Shows w₀.root.heap e.2 := ht.child (mem_map_of_mem he)
    simp only [standIn, contains_iff_mem]
    split
    · next hgone =>
      obtain ⟨x, hx, hr⟩ := mem_map.mp hgone
      obtain rfl : x = e.2 := (hs.nodes x hx).1.unique hshows hr
      have hrefl :=
        hs.empties _ hx m _ (ht.here rfl) (by simp only [Table.mapValues, List.map_map]; exact mem_map_of_mem he)
      rw [hs.models.value_reflects hrefl, resolve_remnant]
    · exact ih e he hshows

include hd

theorem step (hx : Shows w₀.root.heap x) (hn : isNode x = true) (hplaced : Placed w₀.root.heap (w₀.path i))
    (hnode : (w₀.path i).node = x.ref) (hnew : x.ref ∉ xs.map ref) :
    ∃ w' h' empty', w.remove i = .ok w' ∧ Removed w₀ (xs ++ [x]) w' h' empty' := by
  obtain ⟨k, hk⟩ := Option.isSome_iff_exists.mp hn
  obtain ⟨m, hm⟩ : ∃ m, x.ref = .part m := by
    cases x with
    | scalar | arr => cases hk
    | obj m => exact ⟨m, rfl⟩
  have hpath : w.path i = w₀.path i := by rw [Workspace.path, hs.frame.paths, Workspace.path]
  rw [hm] at hnode hnew
  obtain ⟨w', h', empty', hok, hmodels, hframe, hle, _, hcells, hkept, hother, hhere⟩ :=
    hs.cells.remove hd hb hs.models hs.le (i := i) (hpath ▸ hplaced) (hpath ▸ hnode) hnew (hm ▸ hs.kind?_deref hb hx hk)
  refine ⟨w', h', empty', hok, hmodels, hs.frame.trans hframe, Nat.le_trans hs.le hle, ?_, ?_, ?_⟩
  · rw [forall_mem_append, forall_mem_singleton]
    exact ⟨hs.nodes, hx, hn⟩
  · rw [map_append, map_singleton, hm]
    exact hcells
  · rw [forall_mem_append, forall_mem_singleton]
    refine ⟨fun y hy n fs hfs hmem => ?_, fun n fs hfs hmem => ?_⟩
    · rw [hother _ fun e => hnew (e ▸ mem_map_of_mem hy)]
      exact (hs.empties y hy n fs hfs hmem).mono (Nat.le_refl _) hkept
    · rw [hm] at hmem ⊢
      rw [hk]
      exact hhere n fs hfs hmem

end

theorem run (hs : Removed w₀ xs w h empty) (hd : w₀.root.marks.Nodup) (hb : ∀ m ∈ w₀.root.marks, (m : ℕ) < w₀.fresh)
    {order : List PathId}
    (hknown : ∀ i ∈ order, Shows w₀.root.heap (w₀.node i) ∧ isNode (w₀.node i) = true ∧
      Placed w₀.root.heap (w₀.path i) ∧ (w₀.path i).node = (w₀.node i).ref)
    (hnodup : (xs.map ref ++ order.map fun i => (w₀.node i).ref).Nodup) :
    ∃ w' h' empty', order.foldlM Workspace.remove w = .ok w' ∧ Removed w₀ (xs ++ order.map w₀.node) w' h' empty' := by
  induction order generalizing xs w h empty with
  | nil => exact ⟨w, h, empty, rfl, by simpa using hs⟩
  | cons i order ih =>
    rw [forall_mem_cons] at hknown
    obtain ⟨⟨hshows, hnode, hplaced, href⟩, hknown⟩ := hknown
    have hnew : (w₀.node i).ref ∉ xs.map ref := by
      intro hmem
      exact disjoint_of_nodup_append hnodup hmem (mem_cons_self ..)
    obtain ⟨w₁, h₁, empty₁, hok, hs₁⟩ := hs.step hd hb hshows hnode hplaced href hnew
    obtain ⟨w', h', empty', hrun, hs'⟩ := ih hs₁ hknown (by simpa using hnodup)
    refine ⟨w', h', empty', ?_, by simpa using hs'⟩
    rw [foldlM_cons, hok]
    exact hrun

end Removed

namespace Expansion

variable {w : Workspace} {fields : List (String × Tree Mark)}

theorem Opened.removed (hw : Opened w fields) : Removed w.walk.2 [] w.walk.2 w.root.heap id := by
  refine ⟨(hw.paths _).models, .refl _, Nat.le_refl _, by simp, fun m _ => ?_, by simp⟩
  have hid : Cell.prune ([].map ref) id = id := funext fun c => Cell.prune_of_disjoint (by simp)
  rw [hid, Option.map_id]
  rfl

theorem Opened.walk_nodes (hw : Opened w fields) : (w.walk.1.map fun p => p.2.node) = nodesFields fields := by
  have hnumbered := Visit.numbered_map_snd w.paths.size (Visit.below w.paths.size w.programNode)
  rw [← Visit.below_nodes w.paths.size w.program fields, ← hw.programNode, ← hnumbered, List.map_map]
  rfl

theorem Opened.nodup_refs (hw : Opened w fields) : (w.walk.1.map fun p => p.2.node.ref).Nodup := by
  rw [← Function.comp_def ref, ← List.map_map, hw.walk_nodes]
  have hpair := nodesFields_pairwise
    (fun e he => inside_pairwise (nodup_child hw.distinct (mem_map_of_mem he))) (children_pairwise hw.distinct)
  refine pairwise_map.mpr (hpair.imp_of_mem fun {a b} ha _ hab heq => ?_)
  obtain ⟨_, _, _, hin⟩ := mem_nodesFields ha
  obtain ⟨m, fs, rfl, _⟩ := exists_of_mem_inside hin
  exact hab m rfl (mem_marks_of_ref heq.symm)

theorem Opened.node (hw : Opened w fields) {i : PathId} {v : Visit} (hv : (i, v) ∈ w.walk.1) :
    w.walk.2.node i = v.node ∧ Shows w.root.heap v.node ∧ isNode v.node = true ∧
      Placed w.root.heap (w.walk.2.path i) ∧ (w.walk.2.path i).node = v.node.ref := by
  have hmem : v.node ∈ nodesFields fields := hw.walk_nodes ▸ mem_map_of_mem hv
  rw [Workspace.walk, hw.programNode] at hv ⊢
  have hknown := hw.known .usual [] hv
  have hpath : (walked w fields).path i = v.path := hknown.path
  obtain ⟨_, _, _, hin⟩ := mem_nodesFields hmem
  obtain ⟨_, _, _, hnode⟩ := exists_of_mem_inside hin
  refine ⟨?_, hknown.shows, hnode, hpath ▸ hknown.placed, hpath ▸ hknown.ref⟩
  show (walked w fields).deref ((walked w fields).path i).node = _
  rw [hpath, hknown.ref]
  exact (hw.paths _).models.deref_eq hknown.shows

/-- Each of some paths of a walk can be removed once, in every order, and what remains is the
document without their nodes. -/
theorem removals_commute (hw : Opened w fields) {is order : List PathId} (hn : is.Nodup)
    (his : is ⊆ w.walk.1.map Prod.fst) (ho : order.Perm is) :
    ∃ w', order.foldlM Workspace.remove w.walk.2 = .ok w' ∧
      w'.root.erase = w.root.without (is.map fun i => (w.walk.2.path i).node).contains := by
  have hvisit {i : PathId} (hi : i ∈ order) : ∃ v, (i, v) ∈ w.walk.1 := by
    obtain ⟨p, hp, rfl⟩ := mem_map.mp (his (ho.mem_iff.mp hi))
    exact ⟨p.2, hp⟩
  have hnodup : (order.map fun i => (w.walk.2.node i).ref).Nodup := by
    refine List.Nodup.map_on (fun i hi j hj heq => ?_) (ho.nodup_iff.mpr hn)
    obtain ⟨v, hv⟩ := hvisit hi
    obtain ⟨u, hu⟩ := hvisit hj
    rw [(hw.node hv).1, (hw.node hu).1] at heq
    exact congrArg Prod.fst (inj_on_of_nodup_map hw.nodup_refs hv hu heq)
  have hknown : ∀ i ∈ order, Shows w.root.heap (w.walk.2.node i) ∧ isNode (w.walk.2.node i) = true ∧
      Placed w.root.heap (w.walk.2.path i) ∧ (w.walk.2.path i).node = (w.walk.2.node i).ref := by
    intro i hi
    obtain ⟨v, hv⟩ := hvisit hi
    obtain ⟨hnode, hrest⟩ := hw.node hv
    rw [hnode]
    exact hrest
  obtain ⟨w', h', empty', hrun, hs⟩ := hw.removed.run hw.nodup hw.below hknown hnodup
  refine ⟨w', hrun, ?_⟩
  have hroot : w'.value w.root.ref = w'.root.erase := by
    rw [← hs.models.value_ref hs.models.root, hs.frame.root]
    rfl
  have hgone : (order.map w.walk.2.node).map ref = order.map fun i => (w.walk.2.path i).node := by
    rw [List.map_map]
    refine map_congr_left fun i hi => ?_
    obtain ⟨v, hv⟩ := hvisit hi
    rw [Function.comp_apply, (hw.node hv).1, (hw.node hv).2.2.2.2]
  have hcontains : (order.map fun i => (w.walk.2.path i).node).contains =
      (is.map fun i => (w.walk.2.path i).node).contains :=
    funext fun r => Bool.eq_iff_iff.mpr (by simp only [contains_iff_mem, (ho.map _).mem_iff])
  rw [← hroot, ← hcontains, ← hgone]
  exact hs.value_eq hw.below (shows_heap hw.nodup)

/-- A statement under a condition, and others. -/
def conditional (consequent : Json) (rest : List Json) : Json :=
  moduleOf (make "IfStatement" [("test", identifier (.str "a")), ("consequent", consequent),
    ("alternate", .null)] :: rest)

def conditionalCall : Workspace := opened (marked (conditional (calling "f" []) [calling "g" []])).1 100 0

theorem opened_conditionalCall : Opened conditionalCall conditionalCall.root.fields := by
  have hd : conditionalCall.root.marks.Nodup := by decide +kernel
  exact ⟨hd, by decide +kernel, rfl, shows_heap hd, hd, by decide +kernel⟩

/-- Both statements go, each before or after what is removed inside it. -/
theorem removals_commute_conditional :
    (∃ w', [2, 4, 5, 6].foldlM Workspace.remove conditionalCall.walk.2 = .ok w' ∧
      w'.root.erase = conditional emptyStatement []) ∧
    ∃ w', [6, 4, 5, 2].foldlM Workspace.remove conditionalCall.walk.2 = .ok w' ∧
      w'.root.erase = conditional emptyStatement [] := by
  have hw := opened_conditionalCall
  have hrest : conditionalCall.root.without ([2, 4, 5, 6].map fun i => (conditionalCall.walk.2.path i).node).contains =
      conditional emptyStatement [] := by decide +kernel
  rw [← hrest]
  exact ⟨removals_commute hw (by decide) (by decide +kernel) (.refl _),
    removals_commute hw (by decide) (by decide +kernel) (by decide)⟩

end Expansion

end DebugGuards
