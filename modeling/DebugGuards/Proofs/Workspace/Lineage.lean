import DebugGuards.Proofs.Workspace.Distinct
import DebugGuards.Proofs.Workspace.Surgery

/-! How the paths of one walk hang together. The slot of a path belongs to the node the walk
started from or to the node of the nearest path above it, whose own ancestors are the other
paths above; and a list that holds the node of a path is in a field of that parent. So the
paths above a path lead from its parent to the start of the walk. -/

namespace DebugGuards

open DebugGuards.Tree List

/-- Each path is where the heap has its node, a node other than the program, and its slot
belongs to the program or to the node of the nearest path above. -/
structure Lineage (w : Workspace) (h : Heap) : Prop where
  placed : ∀ i < w.paths.size, Placed h (w.path i)
  kinded : ∀ i < w.paths.size, h.Kinded (w.path i).node
  listed : ∀ i < w.paths.size, Visit.Listed h (w.path i).slot
  away : ∀ i < w.paths.size, (w.path i).node ≠ .part w.program
  owner : ∀ i < w.paths.size, (w.path i).slot.parent? = some w.program ∧ (w.path i).above = [] ∨
    ∃ a < w.paths.size, ∃ p, (w.path a).node = .part p ∧ (w.path i).slot.parent? = some p ∧
      (w.path i).above = a :: (w.path a).above

/-- The paths of the first walk. -/
theorem Models.lineage_walk {w : Workspace} {h : Heap} {fields : Fields Mark} (hw : Models w h)
    (hp : w.programNode = .obj w.program fields) (hk : w.programNode.keyed = true) (hnone : w.paths = #[]) :
    Lineage w.walk.2 h := by
  have hs : Shows h (.obj w.program fields) := hp ▸ hw.shows_deref _
  rw [hp] at hk
  set vs := Visit.below 0 (.obj w.program fields) with hvs
  have hpaths : w.walk.2.paths = (vs.map Visit.path).toArray := by
    simp [Workspace.walk, hnone, hp, hvs]
  have hsize : w.walk.2.paths.size = vs.length := by simp [hpaths]
  have hget {i : ℕ} {v : Visit} (hv : vs[i]? = some v) : w.walk.2.path i = v.path := by
    simp [Workspace.path, hpaths, Array.getD_eq_getD_getElem?, hv]
  have hvisit {i : ℕ} (hi : i < w.walk.2.paths.size) : ∃ v, vs[i]? = some v ∧ (i, v) ∈ Visit.numbered 0 vs := by
    rw [hsize] at hi
    refine ⟨vs[i], getElem?_eq_getElem hi, mem_map.mpr ⟨(vs[i], i), ?_, rfl⟩⟩
    exact mem_zipIdx_iff_getElem?.mpr (getElem?_eq_getElem hi)
  have hsound := Visit.below_sound hs hk 0
  refine ⟨fun i hi => ?_, fun i hi => ?_, fun i hi => ?_, fun i hi => ?_, fun i hi => ?_⟩ <;>
    obtain ⟨v, hv, hmem⟩ := hvisit hi <;> obtain ⟨t, hled, hfound⟩ := (hsound _ hmem).owner <;> rw [hget hv]
  · exact (hsound _ hmem).placed
  · exact (hsound _ hmem).kinded
  · exact hfound.listed
  · intro hprogram
    rw [(hsound _ hmem).ref] at hprogram
    have hnode : v.node ∈ Node.nodesFields fields := by
      rw [← Visit.below_nodes 0 w.program fields]
      exact mem_map_of_mem (mem_of_getElem? hv)
    obtain ⟨e, he, _, _, hsub⟩ := Node.marks_nodesFields hnode
    exact hs.not_mem_child rfl (mem_map_of_mem he) (hsub (mem_marks_of_ref hprogram))
  · obtain ⟨p, hp, hslot⟩ := hfound.parent
    rcases hled with ⟨rfl, habove⟩ | ⟨a, u, hu, _, rfl, habove⟩
    · cases hp
      exact .inl ⟨hslot, habove⟩
    · rw [← (hsound _ hu).ref] at hp
      obtain ⟨j, rfl, hj⟩ := Visit.mem_numbered hu
      rw [Nat.zero_add] at habove
      have hlt : j < w.walk.2.paths.size := by
        rw [hsize]
        exact (List.getElem?_eq_some_iff.mp hj).1
      exact .inr ⟨j, hlt, p, by rw [hget hj, hp], hslot, by rw [hget hj, habove]⟩

end DebugGuards
