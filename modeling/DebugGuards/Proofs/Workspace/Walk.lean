import DebugGuards.Proofs.Node.WellFormed
import DebugGuards.Proofs.Workspace.Heap

/-! The walk. The visits of a walk are the nodes of the document in order. Each knows
where its node is, and its ancestors are visits made before. A node met earlier is no
part of one met later. -/

namespace DebugGuards

open DebugGuards.Tree List

/-- The heap has the node of a path at the slot of the path. -/
def Placed (h : Heap) (p : Path) : Prop :=
  match p.slot with
  | .top => False
  | .field parent key => ∃ fs, h parent = some (.record fs) ∧ Table.get? fs key = some p.node
  | .item _ list _ => ∃ rs, h list = some (.list rs) ∧ p.node ∈ rs

/-- What a reference stands for is a node. -/
def Heap.Kinded (h : Heap) (r : Ref) : Prop :=
  ∃ (m : Mark) (fs : List (String × Ref)) (k : String),
    r = .part m ∧ h m = some (.record fs) ∧ Table.get? fs "type" = some (.scalar (.str k))

theorem Shows.kinded {h : Heap} {t : Tree Mark} (ht : Shows h t) (hn : Node.isNode t = true) : h.Kinded t.ref := by
  obtain ⟨k, hk⟩ := Option.isSome_iff_exists.mp hn
  cases t with
  | scalar | arr => cases hk
  | obj m fields =>
    refine ⟨m, _, k, rfl, ht.here rfl, ?_⟩
    rw [Table.get?_mapValues, Node.kind?_obj.mp hk]
    rfl

namespace Node

variable {α : Type}

/-- The nodes a slot holds, in a list or on its own. -/
def inside : Tree α → List (Tree α)
  | .arr _ items => nodesItems items
  | t => nodes t

theorem nodesFields_cons (key : String) (t : Tree α) (rest : Fields α) :
    nodesFields ((key, t) :: rest) = (if isMetadata key then [] else inside t) ++ nodesFields rest := by
  cases t <;> simp only [nodesFields, inside]

theorem nodesItems_eq (items : List (Tree α)) : nodesItems items = items.flatMap nodes := by
  induction items with
  | nil => rfl
  | cons t ts ih => rw [nodesItems, ih, flatMap_cons]

theorem nodesFields_eq (fields : Fields α) :
    nodesFields fields = fields.flatMap fun e => if isMetadata e.1 then [] else inside e.2 := by
  induction fields with
  | nil => rfl
  | cons e ts ih => rw [nodesFields_cons, ih, flatMap_cons]

theorem nodes_subset_inside (t : Tree α) : nodes t ⊆ inside t := by
  cases t with
  | scalar | obj => exact List.Subset.refl _
  | arr m items => simp [nodes]

theorem mem_nodesFields {fields : Fields α} {n : Tree α} (hn : n ∈ nodesFields fields) :
    ∃ e ∈ fields, isMetadata e.1 = false ∧ n ∈ inside e.2 := by
  rw [nodesFields_eq, mem_flatMap] at hn
  obtain ⟨e, he, hn⟩ := hn
  split at hn
  · cases hn
  · next hk => exact ⟨e, he, by simpa using hk, hn⟩

/-- What passes to the direct parts of a document passes to its nodes. -/
theorem inside_induction {P : Tree α → Prop} (step : ∀ t, P t → ∀ c ∈ t.children, P c) {t n : Tree α}
    (ht : P t) (hn : n ∈ inside t) : P n := by
  induction t using induct generalizing n with
  | scalar s => simp [inside, nodes] at hn
  | arr m items ih =>
    rw [inside, nodesItems_eq, mem_flatMap] at hn
    obtain ⟨x, hx, hn⟩ := hn
    exact ih x hx (step _ ht x hx) (nodes_subset_inside x hn)
  | obj m fields ih =>
    rw [inside, nodes] at hn
    split at hn
    · rcases mem_cons.mp hn with rfl | hn
      · exact ht
      · obtain ⟨e, he, _, hn⟩ := mem_nodesFields hn
        exact ih e he (step _ ht _ (mem_map_of_mem he)) hn
    · cases hn
    · nofun

theorem mem_inside_self {n : Tree α} (hn : isNode n = true) : n ∈ inside n := by
  cases n with
  | scalar | arr => simp [isNode, kind?, kind] at hn
  | obj m fields => simp [inside, nodes, hn]

theorem nodes_of_isNode {t : Tree α} (hn : isNode t = true) : nodes t = t :: nodesFields t.fields := by
  cases t with
  | scalar | arr => simp [isNode, kind?, kind] at hn
  | obj m fields => rw [nodes, if_pos hn, Tree.fields]

theorem mem_nodesFields_of {fields : Fields α} {e : String × Tree α} (he : e ∈ fields)
    (hk : isMetadata e.1 = false) {n : Tree α} (hn : n ∈ inside e.2) : n ∈ nodesFields fields := by
  rw [nodesFields_eq, mem_flatMap]
  exact ⟨e, he, by rw [hk]; exact hn⟩

theorem length_nodesFields_le {fields : Fields α}
    (hf : ∀ e ∈ fields, (inside e.2).length ≤ e.2.marks.length) :
    (nodesFields fields).length ≤ (marksFields fields).length := by
  rw [nodesFields_eq, marksFields_eq, flatMap_map]
  refine length_flatMap_le fun e he => ?_
  split
  · exact Nat.zero_le _
  · exact hf e he

theorem length_inside_le (t : Tree α) : (inside t).length ≤ t.marks.length := by
  induction t using induct with
  | scalar s => simp [inside, nodes]
  | arr m items ih =>
    rw [inside, nodesItems_eq, marks, marksItems_eq]
    refine Nat.le_succ_of_le (length_flatMap_le fun x hx => ?_)
    cases x with
    | arr => simp [nodes]
    | scalar | obj => exact ih _ hx
  | obj m fields ih =>
    simp only [inside, nodes, marks]
    split
    · exact Nat.succ_le_succ (length_nodesFields_le ih)
    · exact Nat.zero_le _

theorem inside_trans {t n y : Tree α} (hn : n ∈ inside t) (hy : y ∈ inside n) : y ∈ inside t := by
  induction t using induct generalizing n with
  | scalar s => simp [inside, nodes] at hn
  | arr m items ih =>
    rw [inside, nodesItems_eq, mem_flatMap] at hn ⊢
    obtain ⟨x, hx, hn⟩ := hn
    refine ⟨x, hx, ?_⟩
    have h := ih x hx (nodes_subset_inside x hn) hy
    cases x with
    | scalar | obj => exact h
    | arr => simp [nodes] at hn
  | obj m fields ih =>
    simp only [inside, nodes] at hn
    split at hn
    · next hk =>
      rcases mem_cons.mp hn with rfl | hn
      · exact hy
      · obtain ⟨e, he, hmeta, hn⟩ := mem_nodesFields hn
        simp only [inside, nodes, hk, if_true]
        exact mem_cons_of_mem _ (mem_nodesFields_of he hmeta (ih e he hn hy))
    · cases hn

theorem nodesFields_trans {fields : Fields α} {n y : Tree α} (hn : n ∈ nodesFields fields)
    (hy : y ∈ inside n) : y ∈ nodesFields fields := by
  obtain ⟨e, he, hmeta, hn⟩ := mem_nodesFields hn
  exact mem_nodesFields_of he hmeta (inside_trans hn hy)

theorem inside_field {m : α} {fields : Fields α} (hk : isNode (.obj m fields) = true) {key : String}
    {x y : Tree α} (hx : Table.get? fields key = some x) (hmeta : isMetadata key = false) (hy : y ∈ inside x) :
    y ∈ inside (.obj m fields) := by
  simp only [inside, nodes, hk, if_true]
  exact mem_cons_of_mem _ (mem_nodesFields_of (Table.mem_of_get? hx) hmeta hy)

end Node

/-- A node directly below another: a field that is no metadata holds it, on its own or in a list. -/
def Node.Child (t n : Tree Mark) : Prop :=
  Node.isNode n = true ∧ ∃ key v, (key, v) ∈ t.fields ∧ Node.isMetadata key = false ∧
    (v = n ∨ ∃ m items, v = .arr m items ∧ n ∈ items)

namespace Visit

section Held
variable {t : Tree Mark} {above : List PathId}

/-- What a pass over a node comes to, in a field of the node or in a list there. -/
theorem mem_over {c : Slot × Tree Mark} (hc : c ∈ (Pass.over above t).rest) :
    ∃ m fields, t = .obj m fields ∧ ∃ e ∈ fields, Node.isMetadata e.1 = false ∧ Node.isNode c.2 = true ∧
      (c = (.field m e.1, e.2) ∨ ∃ list items, e.2 = .arr list items ∧ c.2 ∈ items ∧ c.1 = .item m list e.1) := by
  cases t with
  | scalar | arr => cases hc
  | obj m fields =>
    obtain ⟨e, he, hc⟩ := mem_flatMap.mp hc
    refine ⟨m, fields, rfl, e, he, ?_⟩
    simp only [held] at hc
    split at hc
    · cases hc
    · next hmeta =>
      refine ⟨by simpa [Node.isMetadata] using hmeta, ?_⟩
      split at hc
      · next list items heq =>
        obtain ⟨x, hx, rfl⟩ := mem_map.mp hc
        rw [mem_filter] at hx
        exact ⟨hx.2, .inr ⟨list, items, heq, hx.1, rfl⟩⟩
      · split at hc
        · next hnode =>
          cases mem_singleton.mp hc
          exact ⟨hnode, .inl rfl⟩
        · cases hc

theorem child_of_over {c : Slot × Tree Mark} (hc : c ∈ (Pass.over above t).rest) : Node.Child t c.2 := by
  obtain ⟨m, fields, rfl, e, he, hmeta, hnode, h⟩ := mem_over hc
  refine ⟨hnode, e.1, e.2, he, hmeta, ?_⟩
  rcases h with rfl | ⟨list, items, hlist, hitem, _⟩
  · exact .inl rfl
  · exact .inr ⟨list, items, hlist, hitem⟩

theorem sizeOf_child {n : Tree Mark} (hc : Node.Child t n) : sizeOf n < sizeOf t := by
  obtain ⟨_, key, v, he, _, hv⟩ := hc
  cases t with
  | scalar | arr => cases he
  | obj m fields =>
    have hfield : sizeOf v < sizeOf (obj m fields) := Tree.sizeOf_child (mem_map_of_mem he)
    rcases hv with rfl | ⟨_, _, rfl, hitem⟩
    · exact hfield
    · exact (Tree.sizeOf_child hitem).trans hfield

/-- Going through what a pass comes to is going through the fields, if only nodes count. -/
theorem flatMap_over {β : Type} {g : Tree Mark → List β} (hg : ∀ x, Node.isNode x = false → g x = []) :
    (Pass.over above t).rest.flatMap (fun c => g c.2) = t.fields.flatMap fun e =>
      if Node.isMetadata e.1 then [] else match e.2 with
        | .arr _ items => items.flatMap g
        | v => g v := by
  cases t with
  | scalar | arr => rfl
  | obj m fields =>
    rw [Pass.over, flatMap_assoc]
    refine flatMap_congr ?_
    rintro ⟨key, v⟩ -
    cases hk : metadataKeys.contains key with
    | true => simp only [held, Node.isMetadata, hk, if_true, flatMap_nil]
    | false =>
      simp only [held, Node.isMetadata, hk, Bool.false_eq_true, if_false]
      cases v with
      | scalar | obj =>
        dsimp only
        split
        · exact append_nil _
        · next hx => exact (hg _ (Bool.eq_false_iff.mpr hx)).symm
      | arr list items =>
        rw [flatMap_map]
        exact flatMap_filter_of_nil fun x _ => hg x

theorem nodesFields_over (above : List PathId) (t : Tree Mark) :
    Node.nodesFields t.fields = (Pass.over above t).rest.flatMap fun c => Node.nodes c.2 := by
  rw [flatMap_over fun x hx => by cases x <;> simp [Node.nodes, hx], Node.nodesFields_eq]
  refine flatMap_congr fun ⟨key, v⟩ _ => ?_
  cases v <;> simp only [Node.inside, Node.nodesItems_eq]

end Held

/-- Visits one after the other, with the numbers running on. -/
def chained {σ : Type} (f : σ → PathId → List Visit) (next : PathId) : List σ → List Visit
  | [] => []
  | x :: rest => f x next ++ chained f (next + (f x next).length) rest

theorem mem_chained {σ : Type} {f : σ → PathId → List Visit} {next : PathId} {l : List σ} {v : Visit}
    (hv : v ∈ chained f next l) : ∃ x ∈ l, ∃ next, v ∈ f x next := by
  induction l generalizing next with
  | nil => cases hv
  | cons x rest ih =>
    rcases mem_append.mp hv with hv | hv
    · exact ⟨x, mem_cons_self, next, hv⟩
    · obtain ⟨y, hy, h⟩ := ih hv
      exact ⟨y, mem_cons_of_mem x hy, h⟩

theorem chained_map {σ τ : Type} (f : τ → PathId → List Visit) (g : σ → τ) (next : PathId) (l : List σ) :
    chained (fun x => f (g x)) next l = chained f next (l.map g) := by
  induction l generalizing next with
  | nil => rfl
  | cons x l ih => rw [chained, ih, map_cons, chained]

theorem chained_nodes {σ : Type} {f : σ → PathId → List Visit} {g : σ → List (Tree Mark)} {l : List σ}
    (hf : ∀ x ∈ l, ∀ next, (f x next).map Visit.node = g x) (next : PathId) :
    (chained f next l).map Visit.node = l.flatMap g := by
  induction l generalizing next with
  | nil => rfl
  | cons x rest ih =>
    rw [forall_mem_cons] at hf
    rw [chained, map_append, hf.1, ih hf.2, flatMap_cons]

section Rounds

/-- The visits below a node, whose own path is the first of those above, by recursion. -/
def belowOf (above : List PathId) (next : PathId) (t : Tree Mark) : List Visit :=
  chained (fun c next => ⟨⟨c.1.2.ref, c.1.1, above⟩, c.1.2⟩ :: belowOf (next :: above) (next + 1) c.1.2) next
    (Pass.over above t).rest.attach
termination_by t
decreasing_by exact sizeOf_child (child_of_over c.2)

/-- A node of a pass and those below it. -/
def enter (above : List PathId) (c : Slot × Tree Mark) (next : PathId) : List Visit :=
  ⟨⟨c.2.ref, c.1, above⟩, c.2⟩ :: belowOf (next :: above) (next + 1) c.2

/-- The visits a pass has still to make. -/
def Pass.visits (p : Pass) (next : PathId) : List Visit := chained (enter p.above) next p.rest

/-- The visits a walk has still to make. -/
def Walk.left (w : Walk) : List Visit := chained Pass.visits w.next w.passes

theorem belowOf_eq (above : List PathId) (next : PathId) (t : Tree Mark) :
    belowOf above next t = chained (enter above) next (Pass.over above t).rest := by
  rw [belowOf]
  exact (chained_map (enter above) Subtype.val next _).trans (by rw [attach_map_subtype_val])

theorem Pass.visits_over (above : List PathId) (next : PathId) (t : Tree Mark) :
    (Pass.over above t).visits next = belowOf above next t := by
  rw [belowOf_eq]
  cases t <;> rfl

theorem mem_belowOf {above : List PathId} {next : PathId} {t : Tree Mark} {v : Visit} (hv : v ∈ belowOf above next t) :
    ∃ c ∈ (Pass.over above t).rest, ∃ next, v ∈ enter above c next := by
  rw [belowOf_eq] at hv
  exact mem_chained hv

/-- What is visited is below the given ancestors. -/
theorem subset_above {above : List PathId} {c : Slot × Tree Mark} {next : PathId} {v : Visit}
    (hv : v ∈ enter above c next) : above ⊆ v.path.above := by
  rcases mem_cons.mp hv with rfl | hv
  · exact List.Subset.refl _
  · obtain ⟨d, hd, _, hv⟩ := mem_belowOf hv
    exact List.Subset.trans (subset_cons_self _ _) (subset_above hv)
termination_by c.2
decreasing_by exact sizeOf_child (child_of_over hd)

theorem belowOf_nodes (above : List PathId) (next : PathId) (t : Tree Mark) :
    (belowOf above next t).map Visit.node = Node.nodesFields t.fields := by
  rw [belowOf_eq, nodesFields_over above]
  refine chained_nodes (fun c hc next => ?_) next
  rw [enter, map_cons, belowOf_nodes, Node.nodes_of_isNode (child_of_over hc).1]
termination_by t
decreasing_by exact sizeOf_child (child_of_over hc)

/-- A round makes the first of the visits to come or finishes a pass. -/
theorem Walk.step_left {w : Walk} (h : w.passes ≠ []) :
    w.step.made.reverse ++ w.step.left = w.made.reverse ++ w.left ∧
      2 * w.step.left.length + w.step.passes.length + 1 = 2 * w.left.length + w.passes.length := by
  obtain ⟨next, made, passes⟩ := w
  match passes with
  | [] => exact absurd rfl h
  | ⟨above, []⟩ :: passes => simp [step, left, chained, Pass.visits, Nat.add_assoc]
  | ⟨above, c :: rest⟩ :: passes =>
    have hleft : left { next, made, passes := ⟨above, c :: rest⟩ :: passes } = ⟨⟨c.2.ref, c.1, above⟩, c.2⟩ ::
        left (step { next, made, passes := ⟨above, c :: rest⟩ :: passes }) := by
      simp only [left, step, chained, Pass.visits, enter, ← Pass.visits_over, cons_append, append_assoc,
        length_cons, length_append, Nat.add_assoc, Nat.add_comm]
    rw [hleft]
    refine ⟨by simp [step], ?_⟩
    simp only [step, length_cons]
    omega

/-- With a round for each pass to finish and two for each visit to make, no pass is left. -/
theorem Walk.run_left {w : Walk} {n : ℕ} (h : 2 * w.left.length + w.passes.length ≤ n) :
    (w.run n).passes = [] ∧ (w.run n).made.reverse = w.made.reverse ++ w.left := by
  have hdone : w.passes = [] → w.passes = [] ∧ w.made.reverse = w.made.reverse ++ w.left := fun hp => by
    simp [left, hp, chained]
  induction n generalizing w with
  | zero => exact hdone (length_eq_zero_iff.mp (by omega))
  | succ n ih =>
    rw [run]
    split
    · next hp => exact hdone (List.isEmpty_iff.mp hp)
    · next hp =>
      obtain ⟨hmade, hrounds⟩ := step_left fun h => hp (List.isEmpty_iff.mpr h)
      rw [← hmade]
      exact ih (by omega) fun hp => by simp [left, hp, chained]

/-- A walk comes to its end, and its visits are those of the recursion. -/
theorem through_obj (next : PathId) (m : Mark) (fields : Fields Mark) :
    (Walk.through next (.obj m fields)).passes = [] ∧ below next (.obj m fields) = belowOf [] next (.obj m fields) := by
  have hleft : Walk.left { next, passes := [Pass.over [] (.obj m fields)] } = belowOf [] next (.obj m fields) := by
    rw [Walk.left, chained, Pass.visits_over, chained, append_nil]
  have hlen := congrArg List.length (belowOf_nodes [] next (.obj m fields))
  have hle := Node.length_nodesFields_le fun e (_ : e ∈ fields) => Node.length_inside_le e.2
  rw [length_map, Tree.fields] at hlen
  have hrun := Walk.run_left (w := { next, passes := [Pass.over [] (.obj m fields)] })
    (n := 2 * (obj m fields).marks.length) (by rw [hleft, marks, length_cons]; simp; omega)
  exact ⟨hrun.1, hrun.2.trans hleft⟩

end Rounds

/-- Visits with the numbers of their paths. -/
def numbered (next : PathId) (vs : List Visit) : List (PathId × Visit) :=
  (vs.zipIdx next).map fun (v, i) => (i, v)

theorem numbered_cons (next : PathId) (v : Visit) (vs : List Visit) :
    numbered next (v :: vs) = (next, v) :: numbered (next + 1) vs := by
  simp [numbered, zipIdx_cons]

theorem numbered_append (next : PathId) (vs ws : List Visit) :
    numbered next (vs ++ ws) = numbered next vs ++ numbered (next + vs.length) ws := by
  simp [numbered, zipIdx_append]

theorem mem_numbered {next i : ℕ} {v : Visit} {vs : List Visit} (h : (i, v) ∈ numbered next vs) :
    ∃ j, i = next + j ∧ vs[j]? = some v := by
  obtain ⟨⟨v', i'⟩, hm, e⟩ := mem_map.mp h
  cases e
  obtain ⟨h1, h2, h3⟩ := mem_zipIdx hm
  exact ⟨i - next, (Nat.add_sub_cancel' h1).symm, by rw [getElem?_eq_getElem (by omega), h3]⟩

theorem numbered_map_snd (next : PathId) (vs : List Visit) : (numbered next vs).map Prod.snd = vs := by
  rw [numbered, List.map_map]
  exact zipIdx_map_fst next vs

variable {h : Heap} {root t x : Tree Mark} {slot : Slot} {all all' : List (PathId × Visit)} {i j : PathId} {v : Visit}
  {above : List PathId}

/-- The list of a slot is in a field of the parent. -/
def Listed (h : Heap) : Slot → Prop
  | .item parent list key => ∃ fs, h parent = some (.record fs) ∧ Table.get? fs key = some (.part list)
  | _ => True

/-- What is known of a node that is found on a pass over another. -/
structure Found (h : Heap) (t : Tree Mark) (slot : Slot) (x : Tree Mark) : Prop where
  child : Node.Child t x
  parent : ∃ p, t.ref = .part p ∧ slot.parent? = some p
  placed : ∀ above, Placed h ⟨x.ref, slot, above⟩
  listed : Listed h slot
  shows : Shows h x
  keyed : x.keyed = true

theorem found (ht : Shows h t) (hk : t.keyed = true) (hx : (slot, x) ∈ (Pass.over above t).rest) :
    Found h t slot x := by
  have hchild := child_of_over hx
  obtain ⟨m, fields, rfl, ⟨key, c⟩, he, _, _, hx⟩ := mem_over hx
  rw [keyed_obj] at hk
  have hkc := hk.2 _ he
  have hc := ht.child (mem_map_of_mem he)
  have hget : Table.get? (Table.mapValues ref fields) key = some c.ref := by
    rw [Table.get?_mapValues, Table.get?_of_mem hk.1 he]
    rfl
  rcases hx with hx | ⟨list, items, rfl, hitem, rfl⟩
  · cases hx
    exact ⟨hchild, ⟨m, rfl, rfl⟩, fun _ => ⟨_, ht.here rfl, hget⟩, trivial, hc, hkc⟩
  · exact ⟨hchild, ⟨m, rfl, rfl⟩, fun _ => ⟨_, hc.here rfl, mem_map_of_mem hitem⟩, ⟨_, ht.here rfl, hget⟩,
      hc.child hitem, (keyed_arr list items).mp hkc x hitem⟩

/-- The paths above what a node holds lead to that node: it is the one the walk started from, or
it was visited before. -/
def Led (root : Tree Mark) (all : List (PathId × Visit)) (i : PathId) (above : List PathId) (t : Tree Mark) : Prop :=
  t = root ∧ above = [] ∨ ∃ a u, (a, u) ∈ all ∧ a < i ∧ t = u.node ∧ above = a :: u.path.above

theorem Led.mono (hl : Led root all i above t) (hall : all ⊆ all') (hi : i ≤ j) : Led root all' j above t :=
  hl.imp_right fun ⟨a, u, hu, ha, hrest⟩ => ⟨a, u, hall hu, Nat.lt_of_lt_of_le ha hi, hrest⟩

/-- What is known of a visit: it was found on the pass over a node that its path leads up to. -/
structure Sound (h : Heap) (root : Tree Mark) (all : List (PathId × Visit)) (i : PathId) (v : Visit) : Prop where
  ref : v.path.node = v.node.ref
  kinded : h.Kinded v.path.node
  owner : ∃ t, Led root all i v.path.above t ∧ Found h t v.path.slot v.node

theorem Sound.placed (hs : Sound h root all i v) : Placed h v.path := by
  obtain ⟨_, _, hfound⟩ := hs.owner
  have hplaced := hfound.placed v.path.above
  rwa [← hs.ref] at hplaced

/-- What holds in each round of a walk. -/
structure Walk.Good (h : Heap) (root : Tree Mark) (start : PathId) (w : Walk) : Prop where
  next : w.next = start + w.made.length
  made : ∀ iv ∈ numbered start w.made.reverse, Sound h root (numbered start w.made.reverse) iv.1 iv.2
  passes : ∀ p ∈ w.passes, ∃ t, Shows h t ∧ t.keyed = true ∧
    Led root (numbered start w.made.reverse) w.next p.above t ∧ p.rest ⊆ (Pass.over p.above t).rest

theorem Walk.Good.step {start : PathId} {w : Walk} (hg : w.Good h root start) : w.step.Good h root start := by
  obtain ⟨next, made, passes⟩ := w
  match passes with
  | [] => exact hg
  | ⟨_, []⟩ :: passes => exact ⟨hg.next, hg.made, fun p hp => hg.passes p (mem_cons_of_mem _ hp)⟩
  | ⟨above, (slot, x) :: rest⟩ :: passes =>
    obtain ⟨t, ht, hk, hled, hsub⟩ := hg.passes _ mem_cons_self
    have hfound := found ht hk (hsub mem_cons_self)
    have hnext : next = start + made.length := hg.next
    have hall : numbered start (⟨⟨x.ref, slot, above⟩, x⟩ :: made).reverse =
        numbered start made.reverse ++ [(next, ⟨⟨x.ref, slot, above⟩, x⟩)] := by
      rw [reverse_cons, numbered_append, length_reverse, ← hnext]
      rfl
    have hold := subset_append_left (numbered start made.reverse) [(next, ⟨⟨x.ref, slot, above⟩, x⟩)]
    refine ⟨by rw [hnext]; rfl, ?_, ?_⟩ <;> simp only [Walk.step, hall]
    · intro iv hiv
      rcases mem_append.mp hiv with hiv | hiv
      · obtain ⟨href, hkind, t, hled, hfound⟩ := hg.made iv hiv
        exact ⟨href, hkind, t, hled.mono hold (Nat.le_refl _), hfound⟩
      · cases mem_singleton.mp hiv
        exact ⟨rfl, hfound.shows.kinded hfound.child.1, t, hled.mono hold (Nat.le_refl _), hfound⟩
    · rw [forall_mem_cons, forall_mem_cons]
      refine ⟨⟨x, hfound.shows, hfound.keyed, .inr ⟨next, _, mem_append_right _ mem_cons_self, ?_⟩, ?_⟩,
        ⟨t, ht, hk, hled.mono hold (Nat.le_succ _), fun c hc => hsub (mem_cons_of_mem _ hc)⟩, fun p hp => ?_⟩
      · cases x <;> exact ⟨Nat.lt_succ_self _, rfl, rfl⟩
      · cases x <;> exact List.Subset.refl _
      · obtain ⟨t, ht, hk, hled, hsub⟩ := hg.passes p (mem_cons_of_mem _ hp)
        exact ⟨t, ht, hk, hled.mono hold (Nat.le_succ _), hsub⟩

theorem Walk.Good.run {start : PathId} {w : Walk} (hg : w.Good h root start) (n : ℕ) : (w.run n).Good h root start := by
  induction n generalizing w with
  | zero => exact hg
  | succ n ih =>
    rw [Walk.run]
    split
    · exact hg
    · exact ih hg.step

theorem below_sound (ht : Shows h t) (hk : t.keyed = true) (next : PathId) :
    ∀ iv ∈ numbered next (below next t), Sound h t (numbered next (below next t)) iv.1 iv.2 := by
  have hstart : Walk.Good h t next { next, passes := [Pass.over [] t] } := by
    refine ⟨rfl, by simp [numbered], fun p hp => ⟨t, ht, hk, .inl ⟨rfl, ?_⟩, ?_⟩⟩ <;>
      cases mem_singleton.mp hp <;> cases t <;> first | rfl | exact List.Subset.refl _
  exact (hstart.run _).made

/-- The visits above a visit: each node is held by the next, and the last by the node the walk
started from. -/
theorem Sound.line (hall : ∀ iv ∈ all, Sound h root all iv.1 iv.2) (hv : (i, v) ∈ all) :
    ∃ us, us ⊆ all ∧ v.path.above = us.map Prod.fst ∧ (∀ u ∈ us, u.1 < i) ∧
      List.IsChain (fun n t => Node.Child t n) (v.node :: us.map (fun u => u.2.node) ++ [root]) := by
  induction i using Nat.strongRecOn generalizing v with
  | _ i ih =>
    obtain ⟨_, _, t, ⟨rfl, habove⟩ | ⟨a, u, hu, ha, rfl, habove⟩, hfound⟩ := hall _ hv
    · exact ⟨[], by simp, habove, by simp, by simpa using hfound.child⟩
    · obtain ⟨us, hus, hline, hlt, hchain⟩ := ih a ha hu
      refine ⟨(a, u) :: us, cons_subset.mpr ⟨hu, hus⟩, by rw [habove, hline]; rfl, ?_,
        .cons_cons hfound.child hchain⟩
      rw [forall_mem_cons]
      exact ⟨ha, fun u hu => Nat.lt_trans (hlt u hu) ha⟩

theorem below_nodes (next : PathId) (m : Mark) (fields : Fields Mark) :
    (below next (.obj m fields)).map Visit.node = Node.nodesFields fields := by
  rw [(through_obj next m fields).2, belowOf_nodes, Tree.fields]

end Visit

/-- The nodes below a part are parts as well. -/
theorem Shows.nodesFields {h : Heap} {m : Mark} {fields : Fields Mark}
    (ht : Shows h (.obj m fields)) {n : Tree Mark} (hn : n ∈ Node.nodesFields fields) : Shows h n := by
  obtain ⟨e, he, _, hn⟩ := Node.mem_nodesFields hn
  exact Node.inside_induction (fun _ hx _ hc => hx.child hc) (ht.child (mem_map_of_mem he)) hn

end DebugGuards
