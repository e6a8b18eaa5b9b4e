import DebugGuards.Proofs.Expansion.Removal
import DebugGuards.Proofs.Workspace.Attachment
import Mathlib.Data.List.Chain

/-! The walk through a program as a traversal. Its loop comes to an end with one path for each
node below the program, in pre-order, and the paths above a path are those of the ancestors. -/

namespace DebugGuards

open DebugGuards.Tree Node Relation List

section Reach

variable {t n p x : Tree Mark}

theorem Node.Child.nodes_subset (hc : Child t n) : nodes n ⊆ nodesFields t.fields := by
  obtain ⟨_, key, v, he, hmeta, rfl | ⟨m, items, rfl, hmem⟩⟩ := hc <;> intro y hy <;>
    refine mem_nodesFields_of he hmeta ?_
  · exact nodes_subset_inside _ hy
  · rw [inside, nodesItems_eq]
    exact mem_flatMap.mpr ⟨n, hmem, hy⟩

/-- The nodes below a node are those that can be reached from it. -/
theorem mem_nodesFields_iff {t n : Tree Mark} : n ∈ nodesFields t.fields ↔ TransGen Child t n := by
  constructor
  · intro hn
    rw [Visit.nodesFields_over [], mem_flatMap] at hn
    obtain ⟨c, hc, hn⟩ := hn
    have hchild := Visit.child_of_over hc
    rw [nodes_of_isNode hchild.1, mem_cons] at hn
    rcases hn with rfl | hn
    · exact .single hchild
    · exact .head hchild (mem_nodesFields_iff.mp hn)
  · intro hn
    induction hn using TransGen.head_induction_on with
    | single hc => exact hc.nodes_subset (by rw [nodes_of_isNode hc.1]; exact mem_cons_self)
    | head hc _ ih => exact hc.nodes_subset (by rw [nodes_of_isNode hc.1]; exact mem_cons_of_mem _ ih)
termination_by t
decreasing_by exact Visit.sizeOf_child hchild

theorem sizeOf_of_reach (hn : TransGen Child t n) : sizeOf n < sizeOf t := by
  induction hn with
  | single hc => exact Visit.sizeOf_child hc
  | tail _ hc ih => exact (Visit.sizeOf_child hc).trans ih

theorem Node.Child.held {h : Heap} (hp : Shows h p) (hc : Child p x) :
    ∃ m fs, p.ref = .part m ∧ h m = some (.record fs) ∧ (x.ref ∈ (Cell.record fs).refs ∨
      ∃ l rs, h l = some (.list rs) ∧ x.ref ∈ (Cell.list rs).refs ∧ .part l ∈ (Cell.record fs).refs) := by
  obtain ⟨_, key, v, he, _, hv⟩ := hc
  cases p with
  | scalar | arr => cases he
  | obj m fields =>
    have hmem : v.ref ∈ (Cell.record (Table.mapValues ref fields)).refs := by
      simpa [Cell.refs, Table.mapValues] using ⟨key, v, he, rfl⟩
    refine ⟨m, _, rfl, hp.here rfl, ?_⟩
    rcases hv with rfl | ⟨l, items, rfl, hx⟩
    · exact .inl hmem
    · exact .inr ⟨l, _, (hp.child (mem_map_of_mem he)).here rfl, mem_map_of_mem hx, hmem⟩

end Reach

namespace Expansion

variable {w : Workspace} {fields : Fields Mark} {n p q x : Tree Mark}

theorem Opened.parent_unique (hw : Opened w fields) (hp : Shows w.root.heap p) (hq : Shows w.root.heap q)
    (hxp : Child p x) (hxq : Child q x) : p = q := by
  obtain ⟨_, _, rfl, _⟩ := exists_of_mem_inside (mem_inside_self hxp.1)
  obtain ⟨m, fs, hm, hc, hx⟩ := hxp.held hp
  obtain ⟨m', fs', hm', hc', hx'⟩ := hxq.held hq
  have heq : m = m' := by
    rcases hx with hx | ⟨l, rs, hl, hx, hin⟩ <;> rcases hx' with hx' | ⟨l', rs', hl', hx', hin'⟩
    · exact heap_owner hw.nodup hc hc' hx hx'
    · cases heap_owner hw.nodup hc hl' hx hx'
      cases hc.symm.trans hl'
    · cases heap_owner hw.nodup hl hc' hx hx'
      cases hl.symm.trans hc'
    · cases heap_owner hw.nodup hl hl' hx hx'
      exact heap_owner hw.nodup hc hc' hin hin'
  rw [← hw.models.deref_eq hp, ← hw.models.deref_eq hq, hm, hm', heq]

theorem Opened.shows_reach (hw : Opened w fields) (hn : ReflTransGen Child w.programNode n) : Shows w.root.heap n := by
  rw [hw.programNode, reflTransGen_iff_eq_or_transGen] at hn
  rcases hn with rfl | hn
  · exact hw.shows
  · exact hw.shows.nodesFields (mem_nodesFields_iff.mpr hn)

/-- A line of nodes up to the program, each held by the next, has all that is above the first. -/
theorem Opened.mem_line (hw : Opened w fields) {l : List (Tree Mark)} (hl : ∀ y ∈ l, Shows w.root.heap y)
    (hc : List.IsChain (fun n t => Child t n) (x :: l ++ [w.programNode])) (hn : ReflTransGen Child w.programNode n)
    (hx : TransGen Child n x) : n ∈ l ++ [w.programNode] := by
  obtain ⟨p, hnp, hpx⟩ := TransGen.tail'_iff.mp hx
  have hp := hw.shows_reach (hn.trans hnp)
  rw [reflTransGen_iff_eq_or_transGen] at hnp
  induction l generalizing x p with
  | nil =>
    obtain rfl := hw.parent_unique hp (hw.shows_reach .refl) hpx (isChain_cons_cons.mp hc).1
    -- nothing is both below the program and above it
    rcases reflTransGen_iff_eq_or_transGen.mp hn with rfl | hn
    · exact mem_cons_self
    · rcases hnp with heq | hnp
      · exact mem_singleton.mpr heq.symm
      · exact absurd (sizeOf_of_reach hn) (sizeOf_of_reach hnp).asymm
  | cons y l ih =>
    rw [forall_mem_cons] at hl
    obtain ⟨hyx, hc⟩ := isChain_cons_cons.mp hc
    obtain rfl := hw.parent_unique hp hl.1 hpx hyx
    rcases hnp with rfl | hnp
    · exact mem_cons_self
    · obtain ⟨q, hnq, hqp⟩ := TransGen.tail'_iff.mp hnp
      exact mem_cons_of_mem _ (ih hl.2 hc hnp q (reflTransGen_iff_eq_or_transGen.mp hnq) hqp
        (hw.shows_reach (hn.trans hnq)))

/-- The walk ends with one path for each node that can be reached from the program, in pre-order. The paths above
a path are those of the ancestors of its node, from the nearest up to the program. They were made before, and all
are in place. -/
theorem walk_traverses (hw : Opened w fields) :
    (Visit.Walk.through w.paths.size w.programNode).passes = [] ∧
    (w.walk.1.map fun p => p.2.node) = nodesFields fields ∧
    (w.walk.1.map fun p => p.2.node.ref).Nodup ∧
    (∀ n, n ∈ (w.walk.1.map fun p => p.2.node) ↔ TransGen Child w.programNode n) ∧
    w.walk.1.map Prod.fst = List.range' w.paths.size w.walk.1.length ∧
    ∀ i v, (i, v) ∈ w.walk.1 → w.walk.2.path i = v.path ∧ w.walk.2.node i = v.node ∧
      List.IsChain (fun n t => Child t n) (v.node :: v.path.above.map w.walk.2.node ++ [w.programNode]) ∧
      (∀ n, ReflTransGen Child w.programNode n →
        (n ∈ v.path.above.map w.walk.2.node ++ [w.programNode] ↔ TransGen Child n v.node)) ∧
      (∀ j ∈ v.path.above, j < i) ∧ w.walk.2.attached i = true := by
  refine ⟨?_, hw.walk_nodes, hw.nodup_refs, fun n => ?_, by simp [Workspace.walk, Function.comp_def], fun i v hv => ?_⟩
  · rw [hw.programNode]
    exact (Visit.through_obj ..).1
  · rw [hw.walk_nodes, hw.programNode, ← mem_nodesFields_iff, Tree.fields]
  have hsound := Visit.below_sound hw.shows hw.keyed w.paths.size
  rw [← hw.programNode] at hsound
  obtain ⟨us, hus, habove, hlt, hchain⟩ := Visit.Sound.line hsound hv
  have hline : v.path.above.map w.walk.2.node = us.map fun u => u.2.node := by
    rw [habove, List.map_map]
    exact map_congr_left fun u hu => (hw.node (hus hu)).1
  have hplace {j : PathId} {u : Visit} (hu : (j, u) ∈ w.walk.1) : w.walk.2.inPlace (w.walk.2.path j) = true :=
    (hw.paths _).models.inPlace_of_placed (hw.node hu).2.2.2.1
  have hpath : w.walk.2.path i = v.path := by
    rw [Workspace.walk, hw.programNode] at hv ⊢
    exact walked_path w hv
  rw [hline]
  refine ⟨hpath, (hw.node hv).1, hchain, fun n hn => ⟨fun hmem => ?_, hw.mem_line ?_ hchain hn⟩, ?_, ?_⟩
  · exact @List.IsChain.rel_cons _ (fun n t => TransGen Child t n) _ _ _ ⟨fun h h' => h'.trans h⟩
      (hchain.imp fun _ _ => .single) hmem
  · rw [forall_mem_map]
    exact fun u hu => (hw.node (hus hu)).2.1
  · rw [habove, forall_mem_map]
    exact hlt
  · rw [Workspace.attached, hplace hv, hpath, habove, Bool.true_and, all_eq_true, forall_mem_map]
    exact fun u hu => hplace (hus hu)

/-- In and beside a condition; the callee in the condition comes after the call, its statement and the condition. -/
theorem walk_traverses_conditional :
    (conditionalCall.walk.1.map fun p => p.2.node).map kind? = ["IfStatement", "Identifier", "ExpressionStatement",
      "CallExpression", "Identifier", "ExpressionStatement", "CallExpression", "Identifier"].map some ∧
    ∃ v, (4, v) ∈ conditionalCall.walk.1 ∧ v.path.above = [3, 2, 0] ∧ conditionalCall.walk.2.attached 4 = true := by
  obtain ⟨_, hnodes, _, _, _, hall⟩ := walk_traverses opened_conditionalCall
  have hcallee : (4, [3, 2, 0]) ∈ conditionalCall.walk.1.map fun p => (p.1, p.2.path.above) := by decide +kernel
  obtain ⟨⟨i, v⟩, hv, heq⟩ := mem_map.mp hcallee
  obtain ⟨rfl, habove⟩ := Prod.mk.inj heq
  rw [hnodes]
  exact ⟨by decide +kernel, v, hv, habove, (hall _ v hv).2.2.2.2.2⟩

end Expansion

end DebugGuards
