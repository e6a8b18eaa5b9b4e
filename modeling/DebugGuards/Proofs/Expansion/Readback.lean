import DebugGuards.Proofs.Expansion.Scan

/-! Reading a heap back. A heap that is that of a document without some parts, with new
expressions for some statements, reads as the document reshaped: the parts are dropped,
and the statements finished. Whatever lies outside the walk reads as before. -/

namespace DebugGuards

open DebugGuards.Tree Node Expansion List

/-- A record with another expression, if there is one. -/
def Cell.under (new : Option Ref) : Cell → Cell
  | .record fs =>
    match new with
    | some e => .record (Table.set fs "expression" e)
    | none => .record fs
  | .list rs => .list rs

theorem Cell.under_none (c : Cell) : c.under none = c := by cases c <;> rfl

/-- A change of a heap: parts that are gone, what stands in for them in fields, and the
new expressions of statements. -/
structure Patch where
  gone : List Ref
  empty : Ref → Ref
  new : Mark → Option Ref

namespace Patch

variable (p : Patch)

def cell (m : Mark) (c : Cell) : Cell := (c.prune p.gone p.empty).under (p.new m)

/-- The part of a mark is gone or has a new expression. -/
def Affects (m : Mark) : Prop := .part m ∈ p.gone ∨ p.new m ≠ none

/-- The second heap has the parts of the document patched. -/
def Applied (h h' : Heap) (t : Tree Mark) : Prop := ∀ m ∈ t.marks, h' m = (h m).map (p.cell m)

/-- What is affected in a document are nodes that a walk meets. -/
def Local (t : Tree Mark) : Prop := ∀ m ∈ t.marks, p.Affects m → ∃ n ∈ nodes t, n.ref = .part m

/-- The same for what a slot holds. -/
def LocalInside (t : Tree Mark) : Prop := ∀ m ∈ t.marks, p.Affects m → ∃ n ∈ inside t, n.ref = .part m

variable {p} {h h' : Heap} {t x : Tree Mark} {w : Workspace}

theorem Applied.child (ha : p.Applied h h' t) (hx : x ∈ t.children) : p.Applied h h' x :=
  fun m hm => ha m (marks_child hx hm)

/-- Where nothing is affected the document is as it was. -/
theorem Applied.shows (ha : p.Applied h h' t) (ht : Shows h t) (hg : ∀ r ∈ p.gone, ∃ m, r = .part m)
    (hn : ∀ m ∈ t.marks, ¬ p.Affects m) : Shows h' t := by
  refine ht.congr fun m hm => ?_
  obtain ⟨c, hc⟩ := ht.some_of_mem hm
  have hnew : p.new m = none := not_not.mp fun e => hn m hm (.inr e)
  rw [ha m hm, hc, Option.map_some, cell, hnew, Cell.under_none, Cell.prune_of_disjoint]
  intro r hr hmem
  obtain ⟨n, rfl⟩ := hg r hmem
  exact hn n (ht.mem_marks_of_refs hm hc hr) (.inl hmem)

section Locality

variable {m : Mark} {fields : Fields Mark}

section

variable {e : String × Tree Mark} (hl : p.LocalInside (obj m fields)) (hd : (obj m fields).marks.Nodup)
  (he : e ∈ fields)
include hl hd he

theorem LocalInside.of_field {k : Mark} (hk : k ∈ e.2.marks) (ha : p.Affects k) :
    isMetadata e.1 = false ∧ ∃ n ∈ inside e.2, n.ref = .part k := by
  have hc : ∀ e ∈ fields, e.2 ∈ (obj m fields).children := fun e he => mem_map_of_mem he
  obtain ⟨n, hn, hr⟩ := hl k (marks_child (hc e he) hk) ha
  simp only [inside, nodes] at hn
  split at hn
  · rcases mem_cons.mp hn with rfl | hn
    · exact absurd hk (not_mem_marks_child hd hr (hc e he))
    · obtain ⟨e', he', hmeta, hn, hsub⟩ := marks_nodesFields hn
      have hpair := pairwise_map.mp (children_pairwise hd)
      obtain rfl : e = e' := eq_of_mem_of_mem hpair he he' hk (hsub (mem_marks_of_ref hr))
      exact ⟨hmeta, n, hn, hr⟩
  · cases hn

theorem LocalInside.field : p.LocalInside e.2 :=
  fun _ hk ha => (hl.of_field hd he hk ha).2

theorem LocalInside.metadata (hm : isMetadata e.1 = true) : ∀ k ∈ e.2.marks, ¬ p.Affects k := by
  intro k hk ha
  have := (hl.of_field hd he hk ha).1
  rw [hm] at this
  cases this

end

variable {items : List (Tree Mark)}

theorem LocalInside.item (hl : p.LocalInside (arr m items)) (hd : (arr m items).marks.Nodup) {x : Tree Mark}
    (hx : x ∈ items) : p.Local x := by
  intro k hk ha
  obtain ⟨n, hn, hr⟩ := hl k (marks_child (t := arr m items) hx hk) ha
  rw [inside, nodesItems_eq, mem_flatMap] at hn
  obtain ⟨y, hy, hn⟩ := hn
  obtain rfl : x = y := eq_of_mem_of_mem (children_pairwise hd) hx hy hk
    (marks_inside (nodes_subset_inside y hn) (mem_marks_of_ref hr))
  exact ⟨n, hn, hr⟩

theorem LocalInside.list (hl : p.LocalInside (arr m items)) (hd : (arr m items).marks.Nodup) : ¬ p.Affects m := by
  intro ha
  obtain ⟨n, hn, hr⟩ := hl m (mem_marks_of_ref rfl) ha
  rw [inside, nodesItems_eq, mem_flatMap] at hn
  obtain ⟨y, hy, hn⟩ := hn
  exact not_mem_marks_child hd rfl hy (marks_inside (nodes_subset_inside y hn) (mem_marks_of_ref hr))

theorem LocalInside.node {t n : Tree Mark} (hl : p.LocalInside t) (hd : t.marks.Nodup) (hn : n ∈ inside t) :
    p.LocalInside n := by
  induction t using induct generalizing n with
  | scalar s => simp [inside, nodes] at hn
  | arr m items ih =>
    rw [inside, nodesItems_eq, mem_flatMap] at hn
    obtain ⟨x, hx, hn⟩ := hn
    have hlx := hl.item hd hx
    cases x with
    | scalar | arr => simp [nodes] at hn
    | obj k fs => exact ih _ hx hlx (nodup_child (t := arr m items) hd hx) hn
  | obj m fields ih =>
    have hn' := hn
    simp only [inside, nodes] at hn
    split at hn
    · rcases mem_cons.mp hn with rfl | hn
      · exact hl
      · obtain ⟨e, he, _, hn⟩ := mem_nodesFields hn
        exact ih e he (hl.field hd he) (nodup_child hd (mem_map_of_mem he)) hn
    · cases hn

end Locality

theorem Local.of_nodes_eq_nil (hl : p.Local t) (hn : nodes t = []) : ∀ m ∈ t.marks, ¬ p.Affects m := by
  intro m hm ha
  obtain ⟨n, h, _⟩ := hl m hm ha
  rw [hn] at h
  cases h

/-- The parts that the patch drops. -/
def drops (p : Patch) (x : Tree Mark) : Bool := decide (x.ref ∈ p.gone)

/-- What has to be known to read a patched heap back: stand-ins are empty statements,
and finishing a node is giving it its new expression. -/
structure Readable (p : Patch) (h : Heap) (w : Workspace) (finish : Tree Mark → List (String × Json) → Json) :
    Prop where
  parts : ∀ r ∈ p.gone, ∃ m, r = .part m
  empties : ∀ m fs, h m = some (.record fs) → ∀ r ∈ fs.map Prod.snd, r ∈ p.gone →
    w.value (p.empty r) = emptyStatement
  bare : ∀ m fields, Shows h (.obj m fields) → p.new m = none → ∀ fs, finish (.obj m fields) fs = .obj () fs
  finish : ∀ m fields e, Shows h (.obj m fields) → p.new m = some e →
    Table.mapValues (fun x => w.value (standIn p.gone p.empty (ref x))) fields =
      reshapeFields p.drops finish fields →
    finish (.obj m fields) (reshapeFields p.drops finish fields) =
      .obj () (Table.set (reshapeFields p.drops finish fields) "expression" (w.value e))

variable {finish : Tree Mark → List (String × Json) → Json}

theorem Applied.value_erase (ha : p.Applied h h' t) (hw : Models w h') (hr : p.Readable h w finish)
    (ht : Shows h t) (hn : ∀ m ∈ t.marks, ¬ p.Affects m) : w.value t.ref = t.erase :=
  hw.value_ref (ha.shows ht hr.parts hn)

theorem Readable.ref_not_gone (hr : p.Readable h w finish) (hn : ∀ m ∈ t.marks, ¬ p.Affects m) :
    t.ref ∉ p.gone := by
  intro hg
  obtain ⟨m, hm⟩ := hr.parts _ hg
  exact hn m (mem_marks_of_ref hm) (.inl (hm ▸ hg))

section Object
variable {m : Mark} {fields : Fields Mark}

theorem Applied.record (ha : p.Applied h h' (obj m fields)) (ht : Shows h (obj m fields)) :
    h' m = some ((Cell.record (Table.mapValues (fun x => standIn p.gone p.empty (ref x)) fields)).under (p.new m)) := by
  rw [ha m (mem_marks_of_ref rfl), ht.here rfl]
  simp only [cell?, Option.map_some, cell, Cell.prune, Table.mapValues_mapValues]

section

variable (ha : p.Applied h h' (obj m fields)) (hw : Models w h') (hr : p.Readable h w finish)
  (ht : Shows h (obj m fields))
include ha hw hr ht

/-- The fields of a node read as its fields reshaped. -/
theorem Applied.fields_value (hd : (obj m fields).marks.Nodup) (hl : p.LocalInside (obj m fields))
    (ih : ∀ e ∈ fields, (e.2.ref ∈ p.gone → w.value (p.empty e.2.ref) = emptyStatement) → p.LocalInside e.2 →
      w.value (standIn p.gone p.empty e.2.ref) = reshapeInside p.drops finish e.2) :
    Table.mapValues (fun x => w.value (standIn p.gone p.empty (ref x))) fields =
      reshapeFields p.drops finish fields := by
  rw [reshapeFields_eq]
  refine map_congr_left fun e he => Prod.ext rfl ?_
  have hc : e.2 ∈ (obj m fields).children := mem_map_of_mem he
  show w.value (standIn p.gone p.empty e.2.ref) = reshapeSlot p.drops finish e.1 e.2
  rw [reshapeSlot]
  split
  · next hmeta =>
    have hn := hl.metadata hd he hmeta
    rw [standIn, if_neg (hr.ref_not_gone hn)]
    exact (ha.child hc).value_erase hw hr (ht.child hc) hn
  · refine ih e he (fun hg => hr.empties m _ (ht.here rfl) _ ?_ hg) (hl.field hd he)
    exact mem_map.mpr ⟨(e.1, e.2.ref), mem_map_of_mem he, rfl⟩

theorem Applied.value_obj (hl : p.LocalInside (obj m fields))
    (hv : Table.mapValues (fun x => w.value (standIn p.gone p.empty (ref x))) fields =
      reshapeFields p.drops finish fields) :
    w.value (.part m) = reshape p.drops finish (obj m fields) := by
  rw [reshape]
  split
  · rw [hw.value_cell (ha.record ht)]
    cases hnew : p.new m with
    | none => rw [hr.bare m fields ht hnew, Cell.under, Cell.value, Table.mapValues_mapValues, hv]
    | some e =>
      rw [hr.finish m fields e ht hnew hv, Cell.under, Cell.value, Table.mapValues_set, Table.mapValues_mapValues, hv]
  · next hk =>
    refine ha.value_erase hw hr ht (Local.of_nodes_eq_nil (t := obj m fields) hl ?_)
    simp [nodes, hk]

end

end Object

/-- A patched heap reads as the document reshaped. -/
theorem value_reshape (hw : Models w h') (hr : p.Readable h w finish) (ht : Shows h t) (hd : t.marks.Nodup)
    (ha : p.Applied h h' t) :
    (p.Local t → w.value t.ref = reshape p.drops finish t) ∧
    ((t.ref ∈ p.gone → w.value (p.empty t.ref) = emptyStatement) → p.LocalInside t →
      w.value (standIn p.gone p.empty t.ref) = reshapeInside p.drops finish t) := by
  induction t using induct with
  | scalar s =>
    have hg : Ref.scalar s ∉ p.gone := hr.ref_not_gone (t := .scalar s) (by simp)
    refine ⟨fun _ => by rw [reshape]; rfl, fun _ _ => ?_⟩
    simp only [ref, standIn, hg, if_false, reshapeInside, drops, decide_false, Bool.false_eq_true, reshape]
    rfl
  | arr m items ih =>
    refine ⟨fun hl => ?_, fun _ hl => ?_⟩
    · rw [reshape]
      exact ha.value_erase hw hr ht (hl.of_nodes_eq_nil (by simp [nodes]))
    · have hm : Ref.part m ∉ p.gone := fun h => hl.list hd (.inl h)
      have hcell : h' m = some (.list ((items.map ref).filter (· ∉ p.gone))) := by
        rw [ha m (mem_marks_of_ref rfl), ht.here rfl]; rfl
      have hfilter : items.filter ((fun r => decide (r ∉ p.gone)) ∘ ref) = items.filter fun x => !p.drops x :=
        filter_congr fun x _ => by simp [drops]
      rw [show (arr m items).ref = .part m from rfl, standIn, if_neg hm, hw.value_cell hcell, Cell.value, reshapeInside,
        reshapeItems_eq, filter_map, List.map_map, hfilter]
      congr 1
      refine map_congr_left fun x hx => ?_
      have hx := mem_of_mem_filter hx
      exact (ih x hx (ht.child hx) (nodup_child hd hx) (ha.child hx)).1 (hl.item hd hx)
  | obj m fields ih =>
    have hmain : p.LocalInside (obj m fields) → w.value (.part m) = reshape p.drops finish (obj m fields) := by
      intro hl
      refine ha.value_obj hw hr ht hl (ha.fields_value hw hr ht hd hl fun e he => ?_)
      have hc : e.2 ∈ (obj m fields).children := mem_map_of_mem he
      exact (ih e he (ht.child hc) (nodup_child hd hc) (ha.child hc)).2
    refine ⟨hmain, fun hempty hl => ?_⟩
    simp only [reshapeInside, drops]
    by_cases hg : (obj m fields).ref ∈ p.gone
    · simp only [standIn, hg, if_true, decide_true]
      exact hempty hg
    · simp only [standIn, hg, if_false, decide_false, Bool.false_eq_true]
      exact hmain hl

end Patch

end DebugGuards
