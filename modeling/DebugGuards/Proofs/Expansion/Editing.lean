import DebugGuards.Expansion.Session
import DebugGuards.Proofs.Expansion.Values
import DebugGuards.Proofs.Workspace.Attachment

/-! Changing a module through the paths of one walk: nodes are replaced, by one or by several,
and removed. What a path reports about itself after such changes is right but for paths below
a node that was replaced. A path whose node was taken out of a list can change nothing any
more; one whose node was taken out of a field still can. -/

namespace DebugGuards

open DebugGuards.Tree Node List

/-- A change made through a path. -/
inductive Edit where
  | replace (i : PathId) (node : Json)
  | replaceMany (i : PathId) (nodes : List Json)
  | remove (i : PathId)

namespace Edit

@[simp] def path : Edit → PathId
  | replace i _ | replaceMany i _ | remove i => i

/-- The documents to be put in. -/
@[simp] def documents : Edit → List Json
  | replace _ node => [node]
  | replaceMany _ nodes => nodes
  | remove _ => []

/-- The node of the path leaves its place without another one for the path to track. -/
@[simp] def takesOut : Edit → Bool
  | replace _ _ => false
  | _ => true

/-- The paths that come to track another node. -/
@[simp] def retargets : Edit → List PathId
  | replace i _ => [i]
  | _ => []

def act (w : Workspace) : Edit → Except Failure Workspace
  | replace i node => w.replace i node.copy
  | replaceMany i nodes => w.replaceMany i (nodes.map Tree.copy)
  | remove i => w.remove i

/-- The path of a node that is replaced tracks the node put in. -/
def follow (e : Edit) (p : Path) (news : List Ref) (w : Workspace) : Workspace :=
  match e with
  | replace i _ => { w with paths := w.paths.setIfInBounds i { p with node := news.headD p.node } }
  | _ => w

end Edit

section Acts

variable {w w' : Workspace} {h : Heap} {i : PathId} {parent list : Mark} {key : String} {d : Draft}

/-- A draft settled beforehand is settled to the same. -/
theorem Workspace.setPartField_settle (w : Workspace) (m : Mark) (key : String) (d : Draft) :
    (w.settle d).2.setPartField m key (w.settle d).1.draft = w.setPartField m key d := by
  set old := ((w.part? m).bind fun t => Table.get? t.fields key).getD .null with hold
  have hleft : (w.settle d).2.setPartField m key (w.settle d).1.draft =
      (((w.settle d).2.keep old).settle (w.settle d).1.draft).2.editPart m
        (Tree.setField key (((w.settle d).2.keep old).settle (w.settle d).1.draft).1) := rfl
  have hright : w.setPartField m key d =
      ((w.keep old).settle d).2.editPart m (Tree.setField key ((w.keep old).settle d).1) := rfl
  rw [hleft, hright]
  simp only [settle, settle_draft, keep_fresh, keep_fresh_comm]

theorem Workspace.replace_field (hslot : (w.path i).slot = .field parent key) (d : Draft) :
    w.replace i d = .ok { w.setPartField parent key d with
      paths :=
        (w.setPartField parent key d).paths.setIfInBounds i { w.path i with node := (d.settle w.fresh).1.ref } } := by
  have hrun : w.replace i d = .ok
      { (w.settle d).2.setPartField parent key (w.settle d).1.draft with
        paths := ((w.settle d).2.setPartField parent key (w.settle d).1.draft).paths.setIfInBounds i
          { w.path i with node := (w.settle d).1.ref } } := by
    simp only [replace, hslot]
    rfl
  rw [hrun, setPartField_settle]
  rfl

/-- What is left in a field takes no part as it is. -/
theorem leftover_new {t : Tree Mark} (hd : Workspace.leftover t = .ok d) : (∀ g, Grounded g d) ∧ d.olds = [] := by
  have hshape : d = .null ∨ d = emptyStatement := by
    rw [Workspace.leftover] at hd
    cases ht : t.get? "type" with
    | error e => rw [ht] at hd; cases hd
    | ok kind? =>
      rw [ht] at hd
      cases kind? with
      | none => cases hd; exact .inl rfl
      | some kind =>
        cases hk : kind.asText with
        | error e => simp [bind, Except.bind, hk] at hd
        | ok text =>
          simp only [bind, Except.bind, hk, pure, Except.pure, Except.ok.injEq] at hd
          split at hd <;> simp [← hd]
  rcases hshape with rfl | rfl
  · exact ⟨fun _ => .scalar _, olds_scalar _⟩
  · exact ⟨fun _ => .make _ (by simp), olds_emptyStatement⟩

theorem Models.kinded_of_reflects {t : Json} {k : ℕ} {r : Ref} (hw : Models w h) (hr : Reflects h k t.copy r)
    (ht : isNode t = true) : h.Kinded r := by
  have hvalue := hw.value_reflects hr
  rw [resolve_copy] at hvalue
  cases t with
  | scalar | arr => simp [isNode, kind?, kind] at ht
  | obj u fields =>
    cases hr with
    | old d m hm => simp [Tree.copy, map_obj, mark?] at hm
    | new d m c _ _ hc _ _ =>
      obtain ⟨s, hs, hm, _⟩ := hw.exists_shows hc
      rw [Workspace.value, ← hm, hw.deref_eq hs] at hvalue
      have hnode : isNode s = true := by
        rw [← isNode_map (fun _ => ()) s, ← erase, hvalue, erase, isNode_map]
        exact ht
      rw [← hm]
      exact hs.kinded hnode

theorem Models.exists_node (hw : Models w h) {r : Ref} (hr : h.Kinded r) :
    ∃ m fields k, w.deref r = obj m fields ∧ Table.get? fields "type" = some (str k) := by
  obtain ⟨m, fs, k, rfl, hc, htype⟩ := hr
  obtain ⟨fields, hshows, rfl⟩ := hw.exists_record hc
  refine ⟨m, fields, k, hw.deref_eq hshows, ?_⟩
  rw [Table.get?_mapValues, Option.map_eq_some_iff] at htype
  obtain ⟨v, hv, hr⟩ := htype
  cases v with
  | scalar x => cases hr; exact hv
  | arr | obj => cases hr

namespace Edit

variable {e : Edit}

theorem lt_size (hok : e.act w = .ok w') : e.path < w.paths.size := by
  by_contra hlt
  have htop : (w.path e.path).slot = .top := by
    rw [Workspace.path, Array.getD_eq_getD_getElem?, Array.getElem?_eq_none (Nat.not_lt.mp hlt)]
    rfl
  cases e <;> simp only [path] at htop <;>
    simp [act, Workspace.replace, Workspace.replaceMany, Workspace.remove, htop] at hok

theorem act_item (hslot : (w.path e.path).slot = .item parent list key) :
    e.act w = (w.spliceAt (w.path e.path) list (e.documents.map Tree.copy)).map
      fun q => e.follow (w.path e.path) q.1 q.2 := by
  cases e with
  | replace i node =>
    simp only [path] at hslot
    simp only [act, follow, path, documents, map_cons, map_nil, Workspace.replace, hslot]
    cases w.spliceAt (w.path i) list [node.copy] <;> rfl
  | replaceMany i nodes =>
    simp only [path] at hslot
    simp only [act, Workspace.replaceMany, hslot]
    rfl
  | remove i =>
    simp only [path] at hslot
    simp only [act, Workspace.remove, hslot]
    rfl

/-- No change goes through a path whose node is not in its list. -/
theorem act_of_out (hslot : (w.path e.path).slot = .item parent list key) (hout : w.inPlace (w.path e.path) = false) :
    e.act w = .error (w.detachedFailure (w.path e.path)) := by
  rw [act_item hslot, Workspace.spliceAt, hout]
  rfl

theorem act_field (hslot : (w.path e.path).slot = .field parent key) (hok : e.act w = .ok w') :
    ∃ d news, ((∀ g, Grounded g d) ∧ d.olds = []) ∧ news.length = e.documents.length ∧
      (∀ r ∈ news, ∃ t ∈ e.documents, t.copy = d ∧ r = (d.settle w.fresh).1.ref) ∧
      w' = e.follow (w.path e.path) news (w.setPartField parent key d) := by
  cases e with
  | replace i node =>
    simp only [path] at hslot
    rw [act, Workspace.replace_field hslot] at hok
    cases hok
    refine ⟨node.copy, [(node.copy.settle w.fresh).1.ref], ⟨fun _ => .copy node, olds_copy node⟩, rfl, ?_, rfl⟩
    simp
  | replaceMany i nodes =>
    simp only [path] at hslot
    simp only [act, Workspace.replaceMany, hslot] at hok
    cases hok
  | remove i =>
    simp only [path] at hslot
    simp only [act, Workspace.remove, hslot] at hok
    cases hleft : Workspace.leftover (w.deref (w.path i).node) with
    | error f => rw [hleft] at hok; cases hok
    | ok d =>
      rw [hleft] at hok
      cases hok
      exact ⟨d, [], leftover_new hleft, rfl, by simp, rfl⟩

end Edit

end Acts

/-- Lists gain nothing but parts from a given mark on. -/
def Heap.Gains (h : Heap) (fresh : ℕ) (h' : Heap) : Prop :=
  ∀ l rs, h l = some (.list rs) →
    ∃ rs', h' l = some (.list rs') ∧ ∀ q ∈ rs', q ∈ rs ∨ ∀ x : ℕ, q = .part x → fresh ≤ x

/-- What a change does to paths and lists: no path moves but the one that comes to track
another node, lists gain nothing but new parts, and the node of the path leaves its list. -/
structure Edit.Done (e : Edit) (w : Workspace) (h : Heap) (w' : Workspace) (h' : Heap) : Prop where
  path : ∀ j ∉ e.retargets, w'.path j = w.path j
  slot : ∀ j, (w'.path j).slot = (w.path j).slot
  gains : h.Gains w.fresh h'
  loses : ∀ parent l key, (w.path e.path).slot = .item parent l key →
    ∀ rs', h' l = some (.list rs') → (w.path e.path).node ∉ rs'

section Steps

variable {w₀ w w' : Workspace} {h₀ h h' : Heap} {replaced : List PathId} {i : PathId} {parent list : Mark}
  {key : String} {d : Draft} {e : Edit}

theorem Alters.gains {m : Mark} {c c' : Cell} (ha : Alters w h m c c' w' h') (hw : Models w h)
    (hlist : ∀ rs, c = .list rs → ∃ rs', c' = .list rs') : h.Gains w.fresh h' := by
  intro l rs hl
  rcases ha.cell_or hw hl with hd | ⟨rfl, hc, hd⟩
  · exact ⟨rs, hd, fun q hq => .inl hq⟩
  · obtain ⟨rs', rfl⟩ := hlist rs hc.symm
    subst hc
    refine ⟨rs', hd, fun q hq => (ha.refs q hq).imp_right fun hb x hx => (hb x hx).1⟩

section

variable (ht : Snapshot w₀ replaced w h) (hl : Lineage w₀ h₀) (hw₀ : Models w₀ h₀) (hi : i < w.paths.size)
include ht hl hw₀ hi

/-- The field of a path is set to something new. -/
theorem Snapshot.set (hslot : (w.path i).slot = .field parent key) (hd : (∀ g, Grounded g d) ∧ d.olds = []) :
    ∃ h', Snapshot w₀ replaced (w.setPartField parent key d) h' ∧
      ¬ (w.setPartField parent key d).Reaches (w.path i).node ∧
      w.SameFrame (w.setPartField parent key d) ∧ Reflects h' w.fresh d (d.settle w.fresh).1.ref ∧
      Placed h' { w.path i with node := (d.settle w.fresh).1.ref } ∧
      h.Gains w.fresh h' := by
  have hhouse := ht.housed i hi
  rw [hslot] at hhouse
  obtain ⟨fs, hc⟩ := hhouse
  obtain ⟨h', ha, hrefl, hframe⟩ := ht.models.alters_setPartField hc key hd.1 hd.2
  obtain ⟨hsnap, hgone⟩ := ht.step_field hl hw₀ hi hslot ha (ha.models.brings hrefl hd.2) hframe
  refine ⟨h', hsnap, hgone, hframe, hrefl, ?_, ha.gains ht.models (by rintro rs ⟨⟩)⟩
  simp only [Placed, hslot]
  exact ⟨_, ha.writes.here, by rw [Table.get?_set, if_pos rfl]⟩

theorem Snapshot.splice
    (hslot : (w.path i).slot = .item parent list key) (hin : w.inPlace (w.path i) = true) {new : List Draft}
    (hn : ∀ d ∈ new, (∀ g, Grounded g d) ∧ d.olds = []) :
    ∃ h' w' news, w.spliceAt (w.path i) list new = .ok (news, w') ∧ Snapshot w₀ replaced w' h' ∧
      ¬ w'.Reaches (w.path i).node ∧ w.SameFrame w' ∧ new.length = news.length ∧
      (∀ q ∈ new.zip news, Reflects h' w.fresh q.1 q.2) ∧ (∀ r ∈ news, Placed h' { w.path i with node := r }) ∧
      h.Gains w.fresh h' ∧
      ∀ rs', h' list = some (.list rs') → (w.path i).node ∉ rs' := by
  have hhouse := ht.housed i hi
  rw [hslot] at hhouse
  obtain ⟨_, rs, hc⟩ := hhouse
  have hmem : (w.path i).node ∈ rs := (ht.models.inPlace_item hslot hc).mp hin
  obtain ⟨h', w', news, hok, ha, hlen, hrefl, hbrings, hframe⟩ := ht.models.alters_spliceAt hc hin hn
  obtain ⟨hsnap, hgone⟩ := ht.step_item hl hw₀ hi hmem ha hbrings hframe
  refine ⟨h', w', news, hok, hsnap, hgone, hframe, hlen, hrefl, fun r hr => ?_, ha.gains ht.models fun _ _ => ⟨_, rfl⟩,
    fun rs' hrs' => ?_⟩
  · simp only [Placed, hslot]
    exact ⟨_, ha.writes.here, mem_spliced_new hr⟩
  · rw [ha.writes.here] at hrs'
    cases hrs'
    exact ht.not_mem_cut hi hc hbrings

end

theorem Workspace.path_congr (hpaths : w'.paths = w.paths) (j : PathId) : w'.path j = w.path j := by
  rw [Workspace.path, hpaths, Workspace.path]

theorem Snapshot.reflects_ne_program (ht : Snapshot w₀ replaced w h) (hw' : Models w' h')
    (hprogram : w'.program = w.program)
    (hd : d.olds = []) {r : Ref} (hr : Reflects h' w.fresh d r) : r ≠ .part w'.program := by
  intro he
  obtain ⟨fs, hc⟩ := ht.rooted
  exact Nat.not_lt.mpr (hw'.brings hr hd _ he).1 (hprogram ▸ ht.models.lt_fresh hc)

theorem Snapshot.follow (ht : Snapshot w₀ replaced w h) {news : List Ref} (hlen : e.documents.length = news.length)
    (hnews : ∀ r ∈ news, h.Kinded r ∧ r ≠ .part w.program ∧ Placed h { w.path e.path with node := r })
    (hgone : ¬ w.Reaches (w.path e.path).node) :
    Snapshot w₀ (e.retargets ++ replaced) (e.follow (w.path e.path) news w) h := by
  cases e with
  | replace i node =>
    obtain ⟨r, rfl⟩ := length_eq_one_iff.mp hlen.symm
    obtain ⟨hk, haway, hp⟩ := hnews r (mem_singleton_self r)
    exact ht.retarget hk haway hp hgone
  | replaceMany | remove => exact ht

theorem Edit.path_follow {news : List Ref} {p : Path} (j : PathId) (hj : j ∉ e.retargets) :
    (e.follow p news w).path j = w.path j := by
  cases e with
  | replace i node =>
    simp only [retargets, mem_singleton] at hj
    rw [Edit.follow, Snapshot.path_setIfInBounds, if_neg fun h => hj h.1.symm]
  | replaceMany | remove => rfl

theorem Snapshot.act (ht : Snapshot w₀ replaced w h) (hl : Lineage w₀ h₀) (hw₀ : Models w₀ h₀)
    (hdocs : ∀ t ∈ e.documents, isNode t = true) (hok : e.act w = .ok w') :
    ∃ h', Snapshot w₀ (e.retargets ++ replaced) w' h' ∧ e.Done w h w' h' := by
  have hi := e.lt_size hok
  cases hslot : (w.path e.path).slot with
  | top =>
    have hhouse := ht.housed _ hi
    rw [hslot] at hhouse
    exact hhouse.elim
  | field parent key =>
    obtain ⟨d, news, hd, hlen, hnews, rfl⟩ := e.act_field hslot hok
    obtain ⟨h', hsnap, hgone, hframe, hrefl, hplaced, hgains⟩ := ht.set hl hw₀ hi hslot hd
    have hpath := Workspace.path_congr hframe.paths
    rw [← hpath] at hgone hplaced ⊢
    have hmoved := hsnap.follow hlen.symm (fun r hr => by
      obtain ⟨t, ht', rfl, rfl⟩ := hnews r hr
      exact ⟨hsnap.models.kinded_of_reflects hrefl (hdocs t ht'),
        ht.reflects_ne_program hsnap.models hframe.program hd.2 hrefl, hplaced⟩) hgone
    refine ⟨h', hmoved, fun j hj => (Edit.path_follow j hj).trans (hpath j),
      fun j => (hmoved.kept j).1.trans (ht.kept j).1.symm, hgains, fun p l k hp => ?_⟩
    rw [hslot] at hp
    cases hp
  | item parent list key =>
    rw [e.act_item hslot] at hok
    have hin : w.inPlace (w.path e.path) = true := by
      by_contra hout
      rw [Workspace.spliceAt, if_neg hout] at hok
      cases hok
    have hnew : ∀ d ∈ e.documents.map Tree.copy, (∀ g, Grounded g d) ∧ d.olds = [] := by
      intro d hd
      obtain ⟨t, _, rfl⟩ := mem_map.mp hd
      exact ⟨fun _ => .copy t, olds_copy t⟩
    obtain ⟨h', w₁, news, hspliced, hsnap, hgone, hframe, hlen, hrefl, hplaced, hgains, hloses⟩ :=
      ht.splice hl hw₀ hi hslot hin hnew
    rw [hspliced] at hok
    cases hok
    have hpath := Workspace.path_congr hframe.paths
    rw [← hpath] at hgone
    simp only [← hpath e.path] at hplaced
    rw [length_map] at hlen
    rw [← hpath e.path]
    have hmoved : Snapshot w₀ (e.retargets ++ replaced) (e.follow (w₁.path e.path) news w₁) h' := by
      refine hsnap.follow hlen (fun r hr => ?_) hgone
      obtain ⟨d, hd, hzip⟩ := exists_mem_zip (length_map _ |>.trans hlen) hr
      obtain ⟨t, ht', rfl⟩ := mem_map.mp hd
      have hr' := hrefl _ hzip
      exact ⟨hsnap.models.kinded_of_reflects hr' (hdocs t ht'),
        ht.reflects_ne_program hsnap.models hframe.program (olds_copy t) hr', hplaced r hr⟩
    refine ⟨h', hmoved, fun j hj => (Edit.path_follow j hj).trans (hpath j),
      fun j => (hmoved.kept j).1.trans (ht.kept j).1.symm, hgains, fun p l k hp => ?_⟩
    rw [hslot] at hp
    cases hp
    exact hloses

end Steps

section Opening

variable {w : Workspace} {h : Heap}

/-- The paths of a walk, before any change. -/
theorem Lineage.snapshot (hl : Lineage w h) (hw : Models w h) (hs : h.Spare 0 w.fresh [])
    (hroot : ∃ fs, h w.program = some (.record fs)) : Snapshot w [] w h := by
  refine ⟨hw, hs, Nat.le_refl _, rfl, hroot, rfl, fun i => ⟨rfl, rfl⟩, hl.kinded, fun i hi => ?_, hl.away,
    fun i hi _ => hl.placed i hi, fun _ _ _ => rfl, fun _ _ hmem => absurd hmem (not_mem_nil)⟩
  have hp := hl.placed i hi
  have hlisted := hl.listed i hi
  cases hslot : (w.path i).slot with
  | top => simp only [Placed, hslot] at hp
  | field parent key =>
    simp only [Placed, hslot] at hp
    obtain ⟨fs, hc, _⟩ := hp
    exact ⟨fs, hc⟩
  | item parent list key =>
    simp only [Placed, hslot] at hp
    rw [hslot] at hlisted
    obtain ⟨rs, hc, _⟩ := hp
    exact ⟨hlisted, rs, hc⟩

theorem exists_snapshot {t : Json} (hk : t.keyed = true)
    (hok : Workspace.ofTree (t.copy.settle 0).1 (t.copy.settle 0).2 = .ok w) :
    ∃ h, Models w.walk.2 h ∧ Lineage w.walk.2 h ∧ Snapshot w.walk.2 [] w.walk.2 h := by
  have hempty : Heap.Below (fun _ => none) 0 := by rintro m c ⟨⟩
  obtain ⟨h, hset⟩ := settle_settled hempty (Grounded.copy t)
  have hnodup : (t.copy.settle 0).1.marks.Nodup := by
    rw [(settle_copy t 0).2]
    exact nodup_range'
  obtain ⟨m, fields, hw, hprogram, hwhere⟩ := ofTree_inv hnodup hok
  have hm : w.program = m := by rw [hw]
  have hfresh : w.fresh = (t.copy.settle 0).2 := by rw [hw]
  have hmodels : Models w h := by
    rw [hw]
    exact ⟨hset.shows, fun _ ht => absurd ht not_mem_nil, fun n c hc => .inl (hset.held n c (Nat.zero_le n) hc),
      hset.grows.below⟩
  have hspare : h.Spare 0 w.fresh [] := by
    intro n _
    have huses := hset.uses n
    rw [Heap.uses_eq_zero (h := fun _ => none) (by rintro m c ⟨⟩), olds_copy, Heap.newMark] at huses
    rw [hfresh]
    simp only [count_nil, Nat.zero_le, true_and] at huses ⊢
    omega
  have hkeyed : (obj m fields).keyed = true := by
    have hroot := Expansion.keyed_settle_copy hk 0
    rcases hwhere with he | ⟨k, fs, he, hget⟩ <;> rw [he] at hroot
    · exact hroot
    · exact ((keyed_obj _ _).mp hroot).2 _ (Table.mem_of_get? hget)
  rw [← hm] at hprogram hkeyed
  have hlineage := hmodels.lineage_walk hprogram (hprogram ▸ hkeyed) (by rw [hw])
  have hwalked : Models w.walk.2 h := ⟨hmodels.root, hmodels.loose, hmodels.held, hmodels.below⟩
  have hshows : Shows h (obj w.program fields) := hprogram ▸ hmodels.shows_deref _
  exact ⟨h, hwalked, hlineage, hlineage.snapshot hwalked hspare ⟨_, hshows.here rfl⟩⟩

end Opening

namespace Expansion

/-- A change as a step of an expansion. -/
def change (e : Edit) : Work Unit := Work.act fun w => e.act w

/-- The state after one walk over the program. -/
def Session.walked (s : Session) : State := ((Work.make Workspace.walk).result s.state).2

section Runs

variable {w₀ : Workspace} {h₀ h : Heap} {replaced : List PathId} {s s' : State} {edits : List Edit}
  {t : Json} {o : Options} {e : Edit}

theorem Session.exists_snapshot_walked {s : Session} (hk : t.keyed = true) (hs : Session.start o t = .ok s) :
    ∃ h, Models s.walked.workspace h ∧ Lineage s.walked.workspace h ∧
      Snapshot s.walked.workspace [] s.walked.workspace h := by
  cases hok : Workspace.ofTree (t.copy.settle 0).1 (t.copy.settle 0).2 with
  | error f =>
    simp only [Session.start, hok] at hs
    cases hs
  | ok w =>
    simp only [Session.start, hok] at hs
    cases hs
    exact exists_snapshot hk hok

/-- A change succeeds, or leaves the state as it is. -/
theorem change_cases (e : Edit) (s : State) :
    (∃ s', (change e).result s = (.ok (), s') ∧ e.act s.workspace = .ok s'.workspace) ∨
      ∃ f, (change e).result s = (.error f, s) := by
  cases he : e.act s.workspace with
  | error f => exact .inr ⟨f, result_act_error he⟩
  | ok w => exact .inl ⟨_, result_act_ok he, rfl⟩

theorem change_ok (hok : (change e).result s = (.ok (), s')) :
    e.act s.workspace = .ok s'.workspace := by
  obtain ⟨s₁, hres, hact⟩ | ⟨f, hres⟩ := change_cases e s <;> rw [hres] at hok <;> cases hok
  exact hact

theorem snapshot_changes (hl : Lineage w₀ h₀) (hw₀ : Models w₀ h₀) (ht : Snapshot w₀ replaced s.workspace h)
    (hdocs : ∀ e ∈ edits, ∀ t ∈ e.documents, isNode t = true) (hrun : (edits.forM change).result s = (.ok (), s')) :
    ∃ h' replaced', Snapshot w₀ replaced' s'.workspace h' ∧
      ∀ j, j ∈ replaced' ↔ j ∈ replaced ∨ ∃ new, .replace j new ∈ edits := by
  induction edits generalizing s h replaced with
  | nil =>
    cases hrun
    exact ⟨h, replaced, ht, by simp⟩
  | cons e edits ih =>
    rw [forall_mem_cons] at hdocs
    rw [List.forM] at hrun
    obtain ⟨_, _, hf⟩ | ⟨_, s₁, he, hrest⟩ := result_bind_inv hrun
    · cases hf
    · obtain ⟨h₁, ht₁, _⟩ := ht.act hl hw₀ hdocs.1 (change_ok he)
      obtain ⟨h', replaced', ht', hmem⟩ := ih ht₁ hdocs.2 hrest
      refine ⟨h', replaced', ht', fun j => ?_⟩
      rw [hmem]
      cases e with
      | replace i node =>
        simp only [Edit.retargets, singleton_append, mem_cons, Edit.replace.injEq]
        constructor
        · rintro ((rfl | hj) | ⟨new, hnew⟩)
          · exact .inr ⟨node, .inl ⟨rfl, rfl⟩⟩
          · exact .inl hj
          · exact .inr ⟨new, .inr hnew⟩
        · rintro (hj | ⟨new, ⟨rfl, _⟩ | hnew⟩)
          · exact .inl (.inr hj)
          · exact .inl (.inl rfl)
          · exact .inr ⟨new, hnew⟩
      | replaceMany | remove => simp

/-- Through changes that all succeed, the node of a path stays in the program just if the path
is attached and nothing above it was replaced. -/
theorem reaches_iff_attached_of_changes {s : Session} {s' : State} {i : PathId} (hk : t.keyed = true)
    (hs : Session.start o t = .ok s) (hdocs : ∀ e ∈ edits, ∀ t ∈ e.documents, isNode t = true)
    (hrun : (edits.forM change).result s.walked = (.ok (), s')) (hi : i < s'.workspace.paths.size) :
    s'.workspace.Reaches (s'.workspace.path i).node ↔ s'.workspace.attached i = true ∧
      ∀ j ∈ (s'.workspace.path i).above, ∀ new, .replace j new ∉ edits := by
  obtain ⟨h₀, hw₀, hl, ht⟩ := Session.exists_snapshot_walked hk hs
  obtain ⟨h', replaced, ht', hmem⟩ := snapshot_changes hl hw₀ ht hdocs hrun
  rw [ht'.reaches_iff_attached hl hi]
  simp [hmem]

/-- The session of a bare program. -/
def bareSession (t : Json) : Session :=
  { options := .usual, state := { workspace := opened (marked t).1 (marked t).2 0 } }

/-- Two statements with calls. -/
def twoCalls : Json := moduleOf [calling "f" [], calling "g" []]

theorem start_twoCalls : Session.start .usual twoCalls = .ok (bareSession twoCalls) := rfl

def thisExpression : Json := make "ThisExpression" []

/-- The call of the first statement is replaced and the second statement removed. -/
def twoEdits : List Edit := [.replace 1 thisExpression, .remove 3]

theorem reaches_iff_attached_twoCalls :
    ∃ s', (twoEdits.forM change).result (bareSession twoCalls).walked = (.ok (), s') ∧
      ∀ i < 6, s'.workspace.Reaches (s'.workspace.path i).node ↔ s'.workspace.attached i = true ∧
        ∀ j ∈ (s'.workspace.path i).above, ∀ new, .replace j new ∉ twoEdits := by
  have hok : ((twoEdits.forM change).result (bareSession twoCalls).walked).1 = .ok () := by decide +kernel
  have hsize : ((twoEdits.forM change).result (bareSession twoCalls).walked).2.workspace.paths.size = 6 := by
    decide +kernel
  obtain ⟨⟨r, s'⟩, hrun⟩ : ∃ x, (twoEdits.forM change).result (bareSession twoCalls).walked = x := ⟨_, rfl⟩
  rw [hrun] at hok hsize
  rw [hrun]
  refine ⟨s', Prod.ext hok rfl, fun i hi => ?_⟩
  exact reaches_iff_attached_of_changes (by decide +kernel) start_twoCalls (by decide +kernel)
    (hrun.trans (Prod.ext hok rfl)) (by rw [hsize]; exact hi)

/-- The name in a call that was replaced has left the program, and its path is attached. -/
theorem attached_below_replaced :
    ∃ s', (twoEdits.forM change).result (bareSession twoCalls).walked = (.ok (), s') ∧
      s'.workspace.attached 2 = true ∧ ¬ s'.workspace.Reaches (s'.workspace.path 2).node :=
  ⟨_, Prod.ext (by decide +kernel) rfl, by decide +kernel, by decide +kernel⟩

/-- The state after changes made one after the other, those that fail included. -/
def changed (s : State) (edits : List Edit) : State := edits.foldl (fun s e => ((change e).result s).2) s

theorem changed_append_cons (s : State) (before after : List Edit) (e : Edit) :
    changed s (before ++ e :: after) = changed ((change e).result (changed s before)).2 after := by
  simp only [changed, foldl_append, foldl_cons]

/-- What successful changes keep, a run of changes keeps. -/
theorem changed_induction {P : Workspace → Heap → Prop} (hl : Lineage w₀ h₀) (hw₀ : Models w₀ h₀)
    (hstep : ∀ {replaced : List PathId} {e : Edit} {w h w' h'}, Snapshot w₀ replaced w h → e.act w = .ok w' →
      e.Done w h w' h' → P w h → P w' h')
    (ht : Snapshot w₀ replaced s.workspace h) (hdocs : ∀ e ∈ edits, ∀ t ∈ e.documents, isNode t = true)
    (hp : P s.workspace h) :
    ∃ h' replaced', Snapshot w₀ replaced' (changed s edits).workspace h' ∧ P (changed s edits).workspace h' := by
  induction edits generalizing s h replaced with
  | nil => exact ⟨h, replaced, ht, hp⟩
  | cons e edits ih =>
    rw [forall_mem_cons] at hdocs
    rw [changed, foldl_cons]
    obtain ⟨s₁, hres, he⟩ | ⟨f, hres⟩ := change_cases e s <;> rw [hres]
    · obtain ⟨h₁, ht₁, hdone⟩ := ht.act hl hw₀ hdocs.1 he
      exact ih ht₁ hdocs.2 (hstep ht he hdone hp)
    · exact ih ht hdocs.2 hp

/-- The node of a path is not in the list of its slot. -/
def Absent (h : Heap) (p : Path) : Prop :=
  ∀ parent l key, p.slot = .item parent l key → ∀ rs, h l = some (.list rs) → p.node ∉ rs

section Absence

variable {w w' : Workspace} {h' : Heap} {i : PathId} {parent list : Mark} {key : String}

theorem Absent.inPlace (habs : Absent h (w.path i)) (ht : Snapshot w₀ replaced w h) (hi : i < w.paths.size)
    (hslot : (w.path i).slot = .item parent list key) : w.inPlace (w.path i) = false := by
  have hhouse := ht.housed i hi
  rw [hslot] at hhouse
  obtain ⟨_, rs, hc⟩ := hhouse
  rw [Bool.eq_false_iff, ne_eq, ht.models.inPlace_item hslot hc]
  exact habs _ _ _ hslot rs hc

/-- A node that has left its list stays out: no change goes through its path, and others put
in new parts only. -/
theorem Absent.step (habs : Absent h (w.path i)) (ht : Snapshot w₀ replaced w h) (hi : i < w.paths.size)
    (hok : e.act w = .ok w') (hdone : e.Done w h w' h') : Absent h' (w'.path i) := by
  intro parent l key hslot rs' hrs' hmem
  rw [hdone.slot] at hslot
  have hother : i ∉ e.retargets := by
    intro hmem
    obtain rfl : i = e.path := by cases e <;> simp_all
    rw [e.act_of_out hslot (habs.inPlace ht hi hslot)] at hok
    cases hok
  rw [hdone.path i hother] at hmem
  have hhouse := ht.housed i hi
  rw [hslot] at hhouse
  obtain ⟨_, rs, hc⟩ := hhouse
  obtain ⟨rs'', hrs'', hgain⟩ := hdone.gains l rs hc
  rw [hrs'] at hrs''
  cases hrs''
  rcases hgain _ hmem with hold | hnew
  · exact habs parent l key hslot rs hc hold
  · obtain ⟨x, _, hx, _⟩ := (ht.kinded i hi).exists_mark
    exact Nat.not_lt.mpr (hnew x hx) (ht.lt_fresh hi hx)

theorem Absent.of_done (hdone : e.Done w h w' h') (hout : e.takesOut = true) : Absent h' (w'.path e.path) := by
  have hpath : w'.path e.path = w.path e.path := hdone.path _ (by cases e <;> simp_all)
  rw [hpath]
  exact hdone.loses

/-- In a list, a change through a path whose node has left it fails and leaves the state. -/
theorem Absent.change_error (habs : Absent h (s.workspace.path e.path)) (ht : Snapshot w₀ replaced s.workspace h)
    (hi : e.path < s.workspace.paths.size) (hslot : (s.workspace.path e.path).slot = .item parent list key) :
    ∃ k, kind? (s.workspace.node e.path) = some k ∧ (change e).result s = (.error (.detached k), s) := by
  obtain ⟨m, fields, k, hnode, hget⟩ := ht.models.exists_node (ht.kinded e.path hi)
  refine ⟨k, by rw [Workspace.node, hnode]; exact kind?_obj.mpr hget, ?_⟩
  have hfail : s.workspace.detachedFailure (s.workspace.path e.path) = .detached k := by
    rw [Workspace.detachedFailure, hnode, Tree.get, hget]
    rfl
  rw [change, result_act_error (e.act_of_out hslot (habs.inPlace ht hi hslot)), hfail]

theorem change_field (hl : Lineage w₀ h₀) (hw₀ : Models w₀ h₀) (ht : Snapshot w₀ replaced s.workspace h)
    (hi : i < s.workspace.paths.size) (hslot : (s.workspace.path i).slot = .field parent key) :
    (∀ nodes, (change (.replaceMany i nodes)).result s = (.error .outsideList, s)) ∧
    (∀ node, ∃ s', (change (.replace i node)).result s = (.ok (), s') ∧
      s'.workspace.inPlace (s'.workspace.path i) = true) ∧
    ∃ s', (change (.remove i)).result s = (.ok (), s') := by
  refine ⟨fun nodes => ?_, fun node => ?_, ?_⟩
  · refine result_act_error ?_
    simp only [Edit.act, Workspace.replaceMany, hslot]
  · have hok : (Edit.replace i node).act s.workspace = .ok _ := Workspace.replace_field hslot node.copy
    refine ⟨_, result_act_ok hok, ?_⟩
    obtain ⟨h', hsnap, _, hframe, _, hplaced, _⟩ := ht.set hl hw₀ hi hslot ⟨fun _ => .copy node, olds_copy node⟩
    rw [Snapshot.path_setIfInBounds, if_pos ⟨rfl, by rw [hframe.paths]; exact hi⟩]
    exact hsnap.models.inPlace_of_placed hplaced
  · obtain ⟨m, fields, k, hnode, hget⟩ := ht.models.exists_node (ht.kinded i hi)
    have hok : ∃ w, (Edit.remove i).act s.workspace = .ok w := by
      simp only [Edit.act, Workspace.remove, hslot, Workspace.leftover, hnode, Tree.get?, hget]
      exact ⟨_, rfl⟩
    obtain ⟨w, hok⟩ := hok
    exact ⟨_, result_act_ok hok⟩

end Absence

/-- After a node was taken out through a path, and whatever was done since: in a list every
change through the path fails and leaves the state, while in a field only putting in several
nodes fails. -/
theorem change_after_take_out {s : Session} {s' : State} {before after : List Edit} (hk : t.keyed = true)
    (hs : Session.start o t = .ok s) (hdocs : ∀ d ∈ before ++ e :: after, ∀ t ∈ d.documents, isNode t = true)
    (hout : e.takesOut = true) (hok : ((change e).result (changed s.walked before)).1 = .ok ())
    (hlater : changed s.walked (before ++ e :: after) = s') :
    ((s'.workspace.path e.path).slot.isItem = true → ∀ e' : Edit, e'.path = e.path →
      ∃ k, kind? (s'.workspace.node e.path) = some k ∧ (change e').result s' = (.error (.detached k), s')) ∧
    ((s'.workspace.path e.path).slot.isItem = false →
      (∀ nodes, (change (.replaceMany e.path nodes)).result s' = (.error .outsideList, s')) ∧
      (∀ node, ∃ s'', (change (.replace e.path node)).result s' = (.ok (), s'') ∧
        s''.workspace.inPlace (s''.workspace.path e.path) = true) ∧
      ∃ s'', (change (.remove e.path)).result s' = (.ok (), s'')) := by
  obtain ⟨h₀, hw₀, hl, ht₀⟩ := Session.exists_snapshot_walked hk hs
  rw [forall_mem_append, forall_mem_cons] at hdocs
  obtain ⟨hbefore, he, hafter⟩ := hdocs
  obtain ⟨h₁, _, ht₁, -⟩ := changed_induction (P := fun _ _ => True) hl hw₀ (fun _ _ _ _ => trivial) ht₀ hbefore trivial
  obtain ⟨s₂, hres, hact⟩ | ⟨f, hres⟩ := change_cases e (changed s.walked before)
  · have hi : e.path < s.walked.workspace.paths.size := ht₁.size ▸ e.lt_size hact
    obtain ⟨h₂, ht₂, hdone⟩ := ht₁.act hl hw₀ he hact
    rw [changed_append_cons, hres] at hlater
    subst hlater
    obtain ⟨h₃, _, ht₃, habs⟩ := changed_induction (P := fun w h => Absent h (w.path e.path)) hl hw₀
      (fun ht hok hdone habs => habs.step ht (ht.size ▸ hi) hok hdone) ht₂ hafter (.of_done hdone hout)
    have hi₃ := ht₃.size ▸ hi
    cases hslot : ((changed s₂ after).workspace.path e.path).slot with
    | top =>
      have hhouse := ht₃.housed _ hi₃
      rw [hslot] at hhouse
      exact hhouse.elim
    | field parent key => exact ⟨fun hitem => (by cases hitem), fun _ => change_field hl hw₀ ht₃ hi₃ hslot⟩
    | item parent list key =>
      refine ⟨fun _ e' hsame => ?_, fun hfield => (by cases hfield)⟩
      rw [← hsame] at habs hi₃ hslot ⊢
      exact habs.change_error ht₃ hi₃ hslot
  · rw [hres] at hok
    cases hok

/-- A statement in a list. -/
theorem change_after_take_out_statement :
    ∃ s', changed (bareSession twoCalls).walked [.replace 1 thisExpression, .remove 0, .remove 3] = s' ∧
      ∃ k, kind? (s'.workspace.node 0) = some k ∧
        (change (.replace 0 (calling "h" []))).result s' = (.error (.detached k), s') := by
  refine ⟨_, rfl, ?_⟩
  have hdocs : ∀ d ∈ [.replace 1 thisExpression] ++ .remove 0 :: [.remove 3], ∀ t ∈ Edit.documents d,
      isNode t = true := by
    decide +kernel
  have hok :
      ((change (.remove 0)).result (changed (bareSession twoCalls).walked [.replace 1 thisExpression])).1 = .ok () := by
    decide +kernel
  exact (change_after_take_out (by decide +kernel) start_twoCalls hdocs rfl hok rfl).1 (by decide +kernel) _ rfl

/-- A conditional whose only branch is one statement. -/
def branch : Json :=
  moduleOf [make "IfStatement" [("test", identifier (.str "a")),
    ("consequent", make "ReturnStatement" [("argument", .null)]), ("alternate", .null)]]

/-- A branch that was removed is replaced all the same. -/
theorem replace_after_remove_branch :
    let throwing : Json := make "ThrowStatement" [("argument", identifier (.str "b"))]
    let removed := changed (bareSession branch).walked [.remove 2]
    Session.start .usual branch = .ok (bareSession branch) ∧
      ((change (.remove 2)).result (bareSession branch).walked).1 = .ok () ∧
      ((change (.replace 2 throwing)).result removed).1 = .ok () ∧
      (changed removed [.replace 2 throwing]).workspace.root.erase ≠ removed.workspace.root.erase :=
  ⟨rfl, by decide +kernel, by decide +kernel, by decide +kernel⟩

end Runs

end Expansion

end DebugGuards
