import DebugGuards.Proofs.Expansion.Preserve
import DebugGuards.Proofs.Workspace.Contents

/-! The list of statements in the course of an expansion. It consists of statements of
the module, which read as their images under the rewriting done so far, and of new
constants. Constants come in the place of imports or in front; statements may go. -/

namespace DebugGuards

open List

/-- A plain document has no marks to lose. -/
theorem Tree.erase_json (v : Json) : v.erase = v := by
  rw [erase]
  induction v using induct with
  | scalar s => rw [map_scalar]
  | arr m items ih =>
    rw [map_arr, map_congr_left ih, map_id']
  | obj m fields ih =>
    have hsame : ∀ e ∈ fields, (e.1, map (fun _ => ()) e.2) = e := fun e he => Prod.ext rfl (ih e he)
    rw [map_obj, Table.mapValues, map_congr_left hsame, map_id']

open Node in
/-- The nodes of a well-formed program are well formed throughout. -/
theorem Contents.node_legal {w : Workspace} {fields : Fields Mark} {body : Mark} {ys : List (Tree Mark)}
    {n : Tree Mark} (hc : Contents w fields body ys) (hn : n ∈ nodesFields fields) : isNode n = true ∧ Legal n := by
  obtain ⟨_, _, _, hin⟩ := mem_nodesFields hn
  obtain ⟨_, _, rfl, hnode⟩ := exists_of_mem_inside hin
  exact ⟨hnode, fun y hy => hc.sound y (nodesFields_trans hn hy)⟩

namespace Expansion

open DebugGuards.Tree Node

section Constants

/-- A constant with a number for a value. -/
def Constant (v : Json) : Prop :=
  ∃ (name : String) (dialect : Dialect) (i : Int), v = constant (.str name) (dialect.literal (.int i))

variable {v : Json}

/-- All nodes of a constant are well formed, and none is an expression statement. -/
theorem Constant.forall_inside {Q : Json → Prop} (hv : Constant v)
    (hq : ∀ n : Json, sound n = true → isStatement n = false → Q n) : ∀ n ∈ inside v, Q n := by
  obtain ⟨name, dialect, i, rfl⟩ := hv
  have hinert : ∀ n : Json, Inert n → Q n := fun n hn => hq n hn.1 hn.2.1
  refine forall_inside_make (hq _ rfl rfl) (forall_nodesFields ?_)
  simp only [forall_mem_cons]
  refine ⟨nofun, ?_, nofun⟩
  intro n hn
  rw [listOf, inside, nodesItems_eq, flatMap_singleton, ← inside_eq_nodes rfl] at hn
  refine forall_inside_make (hq _ rfl rfl) (forall_nodesFields ?_) n hn
  simp only [forall_mem_cons]
  exact ⟨forall_inside_identifier hinert name, forall_inside_literal hinert dialect _, nofun⟩

theorem Constant.legal (hv : Constant v) : Legal v := hv.forall_inside fun _ hs _ => hs

theorem Constant.isNode (hv : Constant v) : isNode v = true := by
  obtain ⟨_, _, _, rfl⟩ := hv
  rfl

theorem Constant.not_isImport (hv : Constant v) : isImport v = false := by
  obtain ⟨_, _, _, rfl⟩ := hv
  rfl

end Constants

theorem not_isStatement_of_import {x n : Tree Mark} (hl : Legal x) (hi : isImport x = true) (hn : n ∈ inside x) :
    isStatement n = false := by
  have hsound := hl.sound (isNode_of_hasKind hi)
  rw [sound, hasKind_iff.mp hi] at hsound
  rw [Alike.inside_of_isNode (isNode_of_hasKind hi)] at hn
  rcases mem_cons.mp hn with rfl | hn
  · exact Alike.not_isStatement hi (by decide)
  · simpa using all_eq_true.mp ((Bool.and_eq_true _ _).mp hsound).2 n hn

/-- A statement of the body: one of the module, or a new one. -/
inductive Entry where
  | old (x : Tree Mark)
  | new (v : Json)

namespace Entry

def old? : Entry → Option (Tree Mark)
  | old x => some x
  | new _ => none

/-- The import an entry is. -/
def import? : Entry → Option (Tree Mark)
  | old x => if isImport x then some x else none
  | new _ => none

/-- The names an entry declares. -/
def names : Entry → List String
  | old x => Node.names x
  | new v => Node.names v

/-- What an entry reads as. -/
def image (f : Tree Mark → Json) : Entry → Json
  | old x => f x
  | new v => v

/-- An entry is what a reference of the list refers to. -/
def At (h : Heap) (k : ℕ) : Entry → Ref → Prop
  | old x, r => r = x.ref
  | new v, r => Reflects h k v.copy r

theorem At.mono {h h' : Heap} {k : ℕ} {e : Entry} {r : Ref} (ha : At h k e r)
    (hh : ∀ (m : ℕ) c, k ≤ m → h m = some c → h' m = some c) : At h' k e r := by
  cases e with
  | old x => exact ha
  | new v => exact Reflects.mono ha (Nat.le_refl k) hh

/-- A new entry has a mark of its own. -/
theorem At.le {h : Heap} {k : ℕ} {v : Json} {m : Mark} (ha : At h k (.new v) (.part m)) : k ≤ m := by
  have hnone : v.copy.mark? ≠ some (some m) := by cases v <;> simp [Tree.copy, mark?]
  have ha : Reflects h k v.copy (.part m) := ha
  generalize v.copy = d at ha hnone
  cases ha with
  | old _ _ hm => exact absurd hm hnone
  | new _ _ _ _ hk => exact hk

/-- A statement of the list as it is now stands for an entry. -/
structure Stands (e : Entry) (y : Tree Mark) : Prop where
  names : Node.names y = e.names
  imports : isImport y = e.import?.isSome
  same : ∀ x, e.import? = some x → y = x

end Entry

variable {c : Scan} {fields : Fields Mark} {body : Mark} {items met : List (Tree Mark)} {guard : String}
  {p : Patch} {es : List Entry} {w : Workspace} {h : Heap} {rs : List Ref} {x : Tree Mark} {e : Entry} {r : Ref}

/-- The workspace at some point of an expansion, with the entries of the body. -/
structure Standing (c : Scan) (fields : List (String × Tree Mark)) (body : Mark) (items met : List (Tree Mark))
    (guard : String) (p : Patch) (es : List Entry) (w : Workspace) (h : Heap) (rs : List Ref) : Prop where
  layout : Layout c fields body items
  judged : Met c fields met
  stage : Stage c body p w h rs
  patch : PatchOf c met p
  guarding : Guarding c h guard met p
  entries : List.Forall₂ (Entry.At h c.base) es rs
  olds : (es.filterMap Entry.old?).Sublist items
  kept : ∀ x, Entry.old x ∈ es → x.ref ∉ p.gone
  news : ∀ v, Entry.new v ∈ es → Constant v

/-- What the pending statements need is untouched from one heap to the next. -/
structure Scan.Outlives (c : Scan) (w : Workspace) (h : Heap) (w' : Workspace) (h' : Heap) : Prop where
  cells : ∀ (n : ℕ) y, c.base ≤ n → h n = some y → h' n = some y
  spare : ∀ loose, h.Spare c.base w.fresh loose → h'.Spare c.base w'.fresh loose

namespace Standing

section Values

/-- The image of a node under the rewriting done so far. -/
def imageOf (c : Scan) (guard : String) (p : Patch) : Tree Mark → Json :=
  reshape p.drops (p.finish (c.rewriting guard).finish)

theorem follows (c : Scan) (guard : String) (p : Patch) :
    Follows (c.rewriting guard) (p.finish (c.rewriting guard).finish) := by
  intro x fs
  rw [Patch.finish]
  split
  · exact .inr rfl
  · exact .inl rfl

section

variable (hs : Standing c fields body items met guard p es w h rs)
include hs

theorem isStatement_of_drops (x : Tree Mark)
    (hx : Shows c.heap x) (hd : p.drops x = true) : isStatement x = true := by
  have hgone : x.ref ∈ p.gone := of_decide_eq_true hd
  obtain ⟨m, hm⟩ := hs.patch.part_of_gone hs.judged.judged _ hgone
  exact hs.patch.isStatement_of_affects hs.judged.judged hx hm (.inl (hm ▸ hgone))

theorem item_mem (hx : .old x ∈ es) : x ∈ items :=
  hs.olds.subset (mem_filterMap.mpr ⟨_, hx, rfl⟩)

theorem value_entry (he : e ∈ es) (ha : e.At h c.base r) : w.value r = e.image (imageOf c guard p) := by
  cases e with
  | old x =>
    rw [show r = x.ref from ha]
    exact hs.stage.value_node hs.layout hs.patch hs.judged hs.guarding (hs.layout.item_mem (hs.item_mem he))
  | new v =>
    rw [hs.stage.models.value_reflects ha, resolve_copy]
    exact erase_json v

theorem shows_old (hx : .old x ∈ es) : Shows c.heap x :=
  hs.layout.shows_node (hs.layout.item_mem (hs.item_mem hx))

theorem legal_old (hx : .old x ∈ es) : Legal x :=
  fun n hn => hs.layout.sound n (nodesFields_trans (hs.layout.item_mem (hs.item_mem hx)) hn)

theorem not_drops (hx : .old x ∈ es) : p.drops x = false :=
  decide_eq_false (hs.kept x hx)

theorem alike_image (hx : .old x ∈ es) : Alike x (imageOf c guard p x) :=
  (((follows c guard p).mild hs.isStatement_of_drops).alike (hs.shows_old hx)).2 (hs.not_drops hx)

theorem legal_image (he : e ∈ es) : Legal (e.image (imageOf c guard p)) := by
  cases e with
  | old x =>
    have hn := hs.layout.statements x (hs.item_mem he)
    exact ((follows c guard p).legal hs.isStatement_of_drops (hs.shows_old he) (hs.legal_old he)).2 hn (hs.not_drops he)
  | new v => exact (hs.news v he).legal

theorem isNode_image (he : e ∈ es) : isNode (e.image (imageOf c guard p)) = true := by
  cases e with
  | old x => exact (hs.alike_image he).isNode_eq.trans (hs.layout.statements x (hs.item_mem he))
  | new v => exact (hs.news v he).isNode

theorem names_image (he : e ∈ es) : Node.names (e.image (imageOf c guard p)) = e.names := by
  cases e with
  | old x => exact (hs.alike_image he).names_eq (hs.layout.statements x (hs.item_mem he)) (hs.legal_old he)
  | new v => rfl

theorem isImport_image (he : e ∈ es) : isImport (e.image (imageOf c guard p)) = e.import?.isSome := by
  cases e with
  | old x =>
    rw [Entry.image, (hs.alike_image he).isImport_eq, Entry.import?]
    cases isImport x <;> rfl
  | new v => exact (hs.news v he).not_isImport

/-- There is nothing to rewrite in an import. -/
theorem shows_import (hx : .old x ∈ es) (hi : isImport x = true) : Shows h x := by
  have hmem := hs.layout.item_mem (hs.item_mem hx)
  have hshows := hs.shows_old hx
  refine (hs.stage.applied hs.layout hshows (hs.layout.body_not_mem hmem)).shows hshows
    (hs.patch.part_of_gone hs.judged.judged) fun m hm ha => ?_
  obtain ⟨n, hn, hr⟩ := hs.patch.localInside hs.layout hs.judged.nodes hmem m hm ha
  have hst := hs.patch.isStatement_of_affects hs.judged.judged
    (inside_induction (fun _ h _ hc => h.child hc) hshows hn) hr ha
  rw [not_isStatement_of_import (hs.legal_old hx) hi hn] at hst
  cases hst

end

end Values

section Reading

section

variable (hs : Standing c fields body items met guard p es w h rs)
include hs

theorem map_value : rs.map w.value = es.map (Entry.image (imageOf c guard p)) := by
  have heq : List.Forall₂ (fun e r => e.image (imageOf c guard p) = w.value r) es rs :=
    forall₂_imp hs.entries fun e he r _ ha => (hs.value_entry he ha).symm
  rw [← forall₂_eq_eq_eq, forall₂_map_left_iff, forall₂_map_right_iff]
  exact heq.flip.imp fun _ _ h => h.symm

theorem exists_record :
    ∃ gs, w.programNode = .obj w.program gs ∧ Shows h (.obj w.program gs) ∧
      Table.get? gs "body" = some (.arr body (rs.map w.deref)) := by
  have hprogram := hs.stage.keeps.program
  have hnot := hs.patch.not_affects_of_not_mem hs.judged fun n hn => hs.layout.ref_ne_program hn
  have hnew : p.new c.start.program = none := not_not.mp fun e => hnot (.inr e)
  have hcell : h c.start.program =
      some (.record (Table.mapValues (standIn p.gone p.empty) (Table.mapValues ref fields))) := by
    rw [hs.stage.cells _ (hs.layout.ready.marks_lt hs.layout.shows (mem_marks_of_ref rfl)) hs.layout.program_ne_body,
      hs.layout.shows.here rfl]
    simp only [cell?, Option.map_some, Patch.cell, hnew, Cell.under_none, Cell.prune]
  obtain ⟨gs, hgs, hrefs⟩ := hs.stage.models.exists_record hcell
  obtain ⟨ys, hys, hrs⟩ := hs.stage.models.exists_list hs.stage.list
  have hbody : standIn p.gone p.empty (.part body) = .part body := by
    rw [standIn, if_neg]
    exact fun hgone => hs.patch.not_affects_of_not_mem hs.judged (fun n hn => hs.layout.ref_ne_body hn) (.inl hgone)
  have hget : (Table.get? gs "body").map ref = some (.part body) := by
    rw [← Table.get?_mapValues, hrefs, Table.get?_mapValues, Table.get?_mapValues, hs.layout.body]
    exact congrArg some hbody
  obtain ⟨v, hv, hr⟩ := Option.map_eq_some_iff.mp hget
  have hveq : v = .arr body ys := (hgs.field hv).unique hys hr
  have hderef : rs.map w.deref = ys := by
    rw [← hrs, List.map_map]
    refine (map_congr_left fun y hy => ?_).trans (map_id ys)
    exact hs.stage.models.deref_eq (hys.child (t := .arr body ys) hy)
  refine ⟨gs, ?_, ?_, ?_⟩
  · rw [Workspace.programNode, hprogram]
    exact hs.stage.models.deref_eq hgs
  · rw [hprogram]
    exact hgs
  · rw [hv, hveq, hderef]

theorem programFields_eq :
    Table.mapValues erase w.programNode.fields = Table.set
      (reshapeFields p.drops (p.finish (c.rewriting guard).finish) fields) "body" (.arr () (rs.map w.value)) := by
  obtain ⟨gs, hprogram, _, _⟩ := hs.exists_record
  have hvalue := hs.stage.value_program hs.layout hs.patch hs.judged hs.guarding
  rw [← hs.stage.keeps.program, Workspace.value, show w.deref (.part w.program) = .obj w.program gs from hprogram,
    erase_obj] at hvalue
  rw [hprogram]
  exact (Tree.obj.inj hvalue).2

theorem sound_program : ∀ n ∈ nodesFields (Table.set
    (reshapeFields p.drops (p.finish (c.rewriting guard).finish) fields) "body" (.arr () (rs.map w.value))),
    sound n = true := by
  intro n hn
  obtain ⟨d, hd, hk, hn⟩ := mem_nodesFields hn
  rcases Table.mem_set hd with hd | rfl
  · rw [reshapeFields_eq] at hd
    obtain ⟨e, he, rfl⟩ := mem_map.mp hd
    rw [reshapeSlot, if_neg (by simpa using hk)] at hn
    have hlegal : Legal e.2 := fun m hm => hs.layout.sound m (mem_nodesFields_of he hk hm)
    exact ((follows c guard p).legal hs.isStatement_of_drops (hs.layout.shows.child (mem_map_of_mem he))
      hlegal).1 n hn
  · rw [hs.map_value, inside, nodesItems_eq, mem_flatMap] at hn
    obtain ⟨v, hv, hn⟩ := hn
    obtain ⟨e, he, rfl⟩ := mem_map.mp hv
    exact hs.legal_image he n (nodes_subset_inside _ hn)

/-- The program reads as well formed at every point. -/
theorem contents : ∃ gs, Contents w gs body (rs.map w.deref) := by
  obtain ⟨gs, hprogram, hshows, hbody⟩ := hs.exists_record
  have hvalues := hs.map_value
  have himage : ∀ y ∈ rs.map w.deref, ∃ e ∈ es, y.erase = e.image (imageOf c guard p) := by
    intro y hy
    obtain ⟨r, hr, rfl⟩ := mem_map.mp hy
    have hmem : w.value r ∈ rs.map w.value := mem_map_of_mem hr
    rw [hvalues] at hmem
    obtain ⟨e, he, heq⟩ := mem_map.mp hmem
    exact ⟨e, he, heq.symm⟩
  refine ⟨gs, hprogram, hbody, fun y hy => ?_, fun n hn => ?_⟩
  · obtain ⟨e, he, heq⟩ := himage y hy
    rw [← isNode_map (fun _ => ()), ← erase, heq]
    exact hs.isNode_image he
  · rw [← sound_map (fun _ => ())]
    refine hs.sound_program (n.map fun _ => ()) ?_
    rw [← hs.programFields_eq, hprogram]
    show _ ∈ nodesFields (Table.mapValues (Tree.map _) gs)
    rw [nodesFields_map]
    exact mem_map_of_mem hn

theorem stands : List.Forall₂ Entry.Stands es (rs.map w.deref) := by
  rw [forall₂_map_right_iff]
  refine forall₂_imp hs.entries fun e he r _ ha => ?_
  have hvalue : (w.deref r).erase = e.image (imageOf c guard p) := hs.value_entry he ha
  have halike : Alike (e.image (imageOf c guard p)) (w.deref r) := hvalue ▸ (alike_map _ (w.deref r)).2
  refine ⟨?_, ?_, fun x hx => ?_⟩
  · rw [halike.names_eq (hs.isNode_image he) (hs.legal_image he), hs.names_image he]
  · rw [halike.isImport_eq, hs.isImport_image he]
  · cases e with
    | new v => cases hx
    | old z =>
      obtain ⟨hi, rfl⟩ : isImport z = true ∧ z = x := by simpa [Entry.import?] using hx
      rw [show r = z.ref from ha]
      exact hs.stage.models.deref_eq (hs.shows_import he hi)

end

end Reading

section Writing

theorem write (hs : Standing c fields body items met guard p es w h rs) {w' : Workspace} {h' : Heap} {rs' : List Ref}
    (hw : Models w' h') (hwr : h.Writes w.fresh body (.list rs') h' w'.fresh) (hf : w.SameFrame w')
    (hch : h.Charges w.fresh [] h' w'.fresh []) {es' : List Entry} (hes : List.Forall₂ (Entry.At h' c.base) es' rs')
    (holds : (es'.filterMap Entry.old?).Sublist (es.filterMap Entry.old?))
    (hnews : ∀ v, Entry.new v ∈ es' → Constant v) :
    Standing c fields body items met guard p es' w' h' rs' ∧ c.Outlives w h w' h' := by
  have hbody : (body : ℕ) < c.base := hs.layout.ready.marks_lt hs.layout.shows_body (mem_marks_of_ref rfl)
  have hle : c.base ≤ w.fresh := hs.stage.le
  have hcells : ∀ (n : ℕ) y, c.base ≤ n → h n = some y → h' n = some y := fun n y hn hy =>
    hwr.cell hs.stage.models.below (Nat.ne_of_gt (Nat.lt_of_lt_of_le hbody hn)) hy
  refine ⟨⟨hs.layout, hs.judged, ⟨hw, hs.stage.keeps.trans hf.keeps, Nat.le_trans hle hwr.le, ?_, hwr.here, ?_,
    hs.stage.sole.write hch hwr.le⟩, hs.patch, ?_, hes, holds.trans hs.olds, fun x hx => ?_, hnews⟩, hcells,
    fun _ hspare => hspare.write hch hwr.le⟩
  · intro m hm hne
    rw [hwr.old m (Nat.lt_of_lt_of_le hm hle) hne]
    exact hs.stage.cells m hm hne
  · intro m fs hm r hr hgone
    exact (hs.stage.empties m fs hm r hr hgone).mono (Nat.le_refl _) hcells
  · intro m e he
    obtain ⟨x, hx, drafts, hr, hop, hg⟩ := hs.guarding m e he
    exact ⟨x, hx, drafts, hr, hop, hg.mono hcells⟩
  · have hmem := holds.subset (mem_filterMap.mpr ⟨_, hx, rfl⟩)
    obtain ⟨e, he, hex⟩ := mem_filterMap.mp hmem
    cases e with
    | new v => cases hex
    | old y =>
      cases hex
      exact hs.kept _ he

theorem spliced_eq {r : Ref} {new rs₁ rs₂ : List Ref} (hr : r ∉ rs₁) :
    spliced r new (rs₁ ++ r :: rs₂) = rs₁ ++ new ++ rs₂ := by
  have hne : ∀ q ∈ rs₁, decide (q ≠ r) = true := fun q hq => decide_eq_true fun e => hr (e ▸ hq)
  rw [spliced, takeWhile_append_of_pos hne, dropWhile_append_of_pos hne,
    takeWhile_cons_of_neg (by simp), dropWhile_cons_of_neg (by simp), append_nil]
  rfl

/-- No other entry has the reference of a statement of the module. -/
theorem ref_not_mem {pre post : List Entry} {rs₁ : List Ref}
    (hs : Standing c fields body items met guard p (pre ++ .old x :: post) w h rs)
    (hpre : List.Forall₂ (Entry.At h c.base) pre rs₁) : x.ref ∉ rs₁ := by
  intro hr
  have hx : Entry.old x ∈ pre ++ .old x :: post := by simp
  obtain ⟨m, fs, _, rfl, _⟩ := exists_of_isNode (hs.layout.statements x (hs.item_mem hx))
  obtain ⟨e, he, ha⟩ : ∃ e ∈ pre, e.At h c.base (.part m) := by
    clear hs hx
    induction hpre with
    | nil => cases hr
    | cons ha _ ih =>
      rcases mem_cons.mp hr with rfl | hr
      · exact ⟨_, mem_cons_self .., ha⟩
      · obtain ⟨e, he, ha⟩ := ih hr
        exact ⟨e, mem_cons_of_mem _ he, ha⟩
  cases e with
  | old y =>
    have hpair := (children_pairwise (nodup_child hs.layout.distinct hs.layout.body_mem)).sublist hs.olds
    rw [filterMap_append, filterMap_cons, pairwise_append] at hpair
    have hdisj := hpair.2.2 y (mem_filterMap.mpr ⟨_, he, rfl⟩) (obj m fs) (mem_cons_self ..)
    exact hdisj (mem_marks_of_ref (show y.ref = .part m from ha.symm)) (mem_marks_of_ref rfl)
  | new v =>
    exact absurd (hs.layout.ready.marks_lt (hs.shows_old hx) (mem_marks_of_ref rfl)) (Nat.not_lt.mpr ha.le)

theorem filterMap_old_new (vs : List Json) : (vs.map Entry.new).filterMap Entry.old? = [] := by
  rw [filterMap_map]
  exact filterMap_eq_nil_iff.mpr fun _ _ => rfl

theorem replaceAt {pre post : List Entry} {rs₁ rs₂ : List Ref}
    (hs : Standing c fields body items met guard p (pre ++ e :: post) w h (rs₁ ++ x.ref :: rs₂))
    (hpre : List.Forall₂ (Entry.At h c.base) pre rs₁) (hpost : List.Forall₂ (Entry.At h c.base) post rs₂)
    (hx : x.ref ∉ rs₁) {i : PathId} (hi : w.path i = Contents.place w body x) {vs : List Json}
    (hvs : ∀ v ∈ vs, Constant v) :
    ∃ w' h' rs', w.replaceMany i (vs.map copy) = .ok w' ∧ w.SameFrame w' ∧
      Standing c fields body items met guard p (pre ++ vs.map .new ++ post) w' h' rs' ∧ c.Outlives w h w' h' := by
  have hin : w.inPlace (Contents.place w body x) = true := by
    rw [hs.stage.models.inPlace_item rfl hs.stage.list]
    exact mem_append_right _ (mem_cons_self ..)
  have hground : ∀ d ∈ vs.map copy, Grounded (Function.update h body none) d := by
    intro d hd
    obtain ⟨v, _, rfl⟩ := mem_map.mp hd
    exact .copy v
  obtain ⟨h', w', news, hok, hw', hwr, hlen, hnew, hf, hch⟩ := hs.stage.models.spliceAt hs.stage.list hin hground
  have holds : (vs.map copy).flatMap Tree.olds = [] := by
    rw [flatMap_eq_nil_iff]
    intro d hd
    obtain ⟨v, _, rfl⟩ := mem_map.mp hd
    exact olds_copy v
  rw [holds] at hch
  have hwr : h.Writes w.fresh body (.list (rs₁ ++ news ++ rs₂)) h' w'.fresh := by
    rw [← spliced_eq hx]
    exact hwr
  have hnews : List.Forall₂ (Entry.At h' c.base) (vs.map .new) news := by
    rw [forall₂_map_left_iff, forall₂_iff_zip]
    rw [length_map] at hlen
    refine ⟨hlen, fun {v r} hvr => ?_⟩
    have hr := hnew (v.copy, r) (by rw [zip_map_left]; exact mem_map.mpr ⟨_, hvr, rfl⟩)
    exact hr.mono hs.stage.le fun _ _ _ hc => hc
  have hbody : (body : ℕ) < c.base := hs.layout.ready.marks_lt hs.layout.shows_body (mem_marks_of_ref rfl)
  have hcells : ∀ (n : ℕ) y, c.base ≤ n → h n = some y → h' n = some y := fun n y hn hy =>
    hwr.cell hs.stage.models.below (Nat.ne_of_gt (Nat.lt_of_lt_of_le hbody hn)) hy
  have hentries : List.Forall₂ (Entry.At h' c.base) (pre ++ vs.map .new ++ post) (rs₁ ++ news ++ rs₂) := by
    refine rel_append (rel_append ?_ hnews) ?_
    · exact hpre.imp fun _ _ ha => ha.mono hcells
    · exact hpost.imp fun _ _ ha => ha.mono hcells
  have hstand := hs.write hw' hwr hf hch hentries ?_ ?_
  · refine ⟨w', h', _, ?_, hf, hstand.1, hstand.2⟩
    rw [Workspace.replaceMany, hi]
    show Except.map Prod.snd (w.spliceAt (Contents.place w body x) body _) = _
    rw [hok]
    rfl
  · rw [filterMap_append, filterMap_append, filterMap_append, filterMap_old_new, append_nil]
    exact (List.Sublist.refl _).append ((sublist_cons_self e post).filterMap _)
  · intro v hv
    simp only [mem_append, mem_map] at hv
    rcases hv with (hv | ⟨u, hu, ⟨⟩⟩) | hv
    · exact hs.news v (by simp [hv])
    · exact hvs _ hu
    · exact hs.news v (by simp [hv])

theorem replaceMany {pre post : List Entry}
    (hs : Standing c fields body items met guard p (pre ++ .old x :: post) w h rs) {i : PathId}
    (hi : w.path i = Contents.place w body x) {vs : List Json} (hvs : ∀ v ∈ vs, Constant v) :
    ∃ w' h' rs', w.replaceMany i (vs.map copy) = .ok w' ∧ w.SameFrame w' ∧
      Standing c fields body items met guard p (pre ++ vs.map .new ++ post) w' h' rs' ∧ c.Outlives w h w' h' := by
  obtain ⟨rs₁, _, rs₂, hpre, rfl, hpost, rfl⟩ := forall₂_split hs.entries
  exact hs.replaceAt hpre hpost (hs.ref_not_mem hpre) hi hvs

theorem remove {pre post : List Entry} {rs₁ rs₂ : List Ref}
    (hs : Standing c fields body items met guard p (pre ++ e :: post) w h (rs₁ ++ x.ref :: rs₂))
    (hpre : List.Forall₂ (Entry.At h c.base) pre rs₁) (hpost : List.Forall₂ (Entry.At h c.base) post rs₂)
    (hx : x.ref ∉ rs₁) {i : PathId} (hi : w.path i = Contents.place w body x) :
    ∃ w' h' rs', w.remove i = .ok w' ∧ w.SameFrame w' ∧
      Standing c fields body items met guard p (pre ++ post) w' h' rs' := by
  have hnone : ∀ v ∈ ([] : List Json), Constant v := by simp
  obtain ⟨w', h', rs', hok, hf, hs', _⟩ := hs.replaceAt hpre hpost hx hi hnone
  refine ⟨w', h', rs', ?_, hf, by simpa using hs'⟩
  rw [Workspace.replaceMany, hi] at hok
  rw [Workspace.remove, hi]
  exact hok

theorem insertTop (hs : Standing c fields body items met guard p es w h rs) {v : Json} (hv : Constant v) :
    ∃ w' h' rs', w.insertTop v.copy = .ok w' ∧ w.SameFrame w' ∧
      Standing c fields body items met guard p (.new v :: es) w' h' rs' ∧ c.Outlives w h w' h' := by
  obtain ⟨gs, hprogram, _, hbody⟩ := hs.exists_record
  obtain ⟨h', r, hw', hwr, hr, hf, hch⟩ := hs.stage.models.push hs.stage.list (Grounded.copy v)
  rw [olds_copy] at hch
  have hlt : (body : ℕ) < c.base := hs.layout.ready.marks_lt hs.layout.shows_body (mem_marks_of_ref rfl)
  have hcells : ∀ (n : ℕ) y, c.base ≤ n → h n = some y → h' n = some y := fun n y hn hy =>
    hwr.cell hs.stage.models.below (Nat.ne_of_gt (Nat.lt_of_lt_of_le hlt hn)) hy
  have hentries : List.Forall₂ (Entry.At h' c.base) (.new v :: es) (r :: rs) :=
    .cons (hr.mono hs.stage.le fun _ _ _ hc => hc) (hs.entries.imp fun _ _ ha => ha.mono hcells)
  have hstand := hs.write hw' hwr hf hch hentries (List.Sublist.refl _) ?_
  · refine ⟨_, h', _, ?_, hf, hstand.1, hstand.2⟩
    rw [Workspace.insertTop, hprogram, require, hbody]
    rfl
  · intro u hu
    rcases mem_cons.mp hu with e | hu
    · cases e
      exact hv
    · exact hs.news u hu

end Writing

section Guard

/-- The statements still there after a scan that has met some. -/
def survivors (c : Scan) (met items : List (Tree Mark)) : List (Tree Mark) :=
  items.filter fun x => decide (x.ref ∉ gone c.expired met)

/-- The state after a scan. -/
theorem ofScanned {s : State} {empty : Ref → Ref} (hs : c.Scanned met s h empty) (hl : Layout c fields body items)
    (hmet : met ⊆ nodesFields fields) (guard : String) :
    Standing c fields body items met guard ⟨gone c.expired met, empty, fun _ => none⟩
      ((survivors c met items).map .old) s.workspace h ((survivors c met items).map ref) := by
  have hlist : h body = some (.list ((survivors c met items).map ref)) := by
    rw [hs.cells body (hl.ready.marks_lt hl.shows_body (mem_marks_of_ref rfl)), hl.shows_body.here rfl]
    simp only [cell?, Option.map_some, Cell.prune, survivors, filter_map, Function.comp_def]
  refine ⟨hl, ⟨hs.judged, hmet⟩, ⟨hs.models, hs.frame.keeps, hs.le, fun m hm _ => ?_, hlist, hs.empties,
      hs.spare.mono (nil_sublist _)⟩,
    ⟨rfl, fun m hm => absurd rfl hm⟩, (fun m e he => by cases he), ?_, ?_, ?_, ?_⟩
  · rw [hs.cells m hm]
    congr 1
    funext x
    exact (Cell.under_none _).symm
  · rw [forall₂_map_left_iff, forall₂_map_right_iff]
    exact forall₂_same.mpr fun x _ => rfl
  · rw [filterMap_map]
    show ((survivors c met items).filterMap some).Sublist items
    rw [filterMap_some]
    exact filter_sublist
  · intro x hx
    obtain ⟨y, hy, hxy⟩ := mem_map.mp hx
    cases hxy
    exact of_decide_eq_true (mem_filter.mp hy).2
  · intro v hv
    obtain ⟨y, _, hxy⟩ := mem_map.mp hv
    cases hxy

theorem finalize {s : State} {g : String} (hs : Standing c fields body items met g p es s.workspace h rs)
    (hap : met.Pairwise Apart) (hfree : ∀ m, p.new m = none) (hf : s.finalized = false)
    (hqs : c.Awaits h met s.pending)
    (hspare : h.Spare c.base s.workspace.fresh (s.pending.flatMap Pending.operands)) (guard : String) :
    ∃ w h' p' log, (Expansion.finalize (.str guard)).result s =
        (.ok s.pending.length, { s with workspace := w, finalized := true, log := log }) ∧
      Standing c fields body items met guard p' es w h' rs ∧ Complete c met p' ∧ c.Awaits h' met s.pending := by
  obtain ⟨w, h', p', log, hrun, hstage, hpatch, hg, hold⟩ :=
    hs.stage.finalize hs.layout hs.patch hs.judged hap hfree hf hqs hspare guard
  refine ⟨w, h', p', log, hrun, ⟨hs.layout, hs.judged, hstage, hpatch, ?_, ?_, hs.olds, ?_, hs.news⟩, ?_,
    hqs.mono hold⟩
  · intro m e he
    by_cases hm : ∃ site ∈ c.sites met, site.1.ref = .part m
    · obtain ⟨site, hsite, hr⟩ := hm
      obtain ⟨e', he', hgd⟩ := hg.each site hsite m hr
      rw [he] at he'
      cases he'
      exact ⟨site.1, (Scan.mem_sites hsite).1, site.2, hr, (Scan.mem_sites hsite).2, hgd⟩
    · rw [hg.others m fun site hsite hr => hm ⟨site, hsite, hr⟩, hfree m] at he
      cases he
  · exact hs.entries.imp fun _ _ ha => ha.mono hold
  · intro x hx
    rw [hg.gone]
    exact hs.kept x hx
  · intro x hx hop m hr
    obtain ⟨drafts, hd⟩ := Option.ne_none_iff_exists'.mp hop
    have hsite : (x, drafts) ∈ c.sites met := mem_filterMap.mpr ⟨x, hx, by rw [hd]; rfl⟩
    obtain ⟨e, he, _⟩ := hg.each _ hsite m hr
    rw [he]
    exact Option.some_ne_none e

end Guard

end Standing

end Expansion

end DebugGuards
