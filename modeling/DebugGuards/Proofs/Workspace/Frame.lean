import DebugGuards.Proofs.Workspace.Distinct
import DebugGuards.Proofs.Workspace.Surgery

/-! A document seen from its list of statements. Around the list there is the program, and
around the program there may be a file; whatever else there is lies beside this way down, or
in the list. The parts on the way are marked apart from all others, so an edit of any other
part leaves the way as it is and acts on each side and on the list alone, and what is
found under the mark of another part depends on the list only through what is found in
it. -/

namespace DebugGuards

open DebugGuards.Tree List

section Here

variable {t : Tree Mark} {m : Mark} {f : Tree Mark → Tree Mark}

theorem Tree.find?_self (ht : t.ref = .part m) : t.find? m = some t := by rw [find?_eq, if_pos ht]

theorem Tree.edit_self (ht : t.ref = .part m) : t.edit m f = f t := by rw [edit_eq, if_pos ht]

theorem Tree.find?_below {n : Mark} (ht : t.ref = .part n) (hm : m ≠ n) :
    t.find? m = t.children.findSome? (Tree.find? m) := by
  rw [find?_eq, if_neg fun h => hm (Ref.part.inj (h.symm.trans ht))]

theorem Tree.edit_below {n : Mark} (ht : t.ref = .part n) (hm : m ≠ n) : t.edit m f = t.mapChildren (edit m f) := by
  rw [edit_eq, if_neg fun h => hm (Ref.part.inj (h.symm.trans ht))]

end Here

/-- An object without what one of its fields holds. -/
structure Frame where
  mark : Mark
  before : List (String × Tree Mark)
  key : String
  after : List (String × Tree Mark)

namespace Frame

variable (F : Frame) (m : Mark) (f : Tree Mark → Tree Mark) (x : Tree Mark)

/-- The object with something in the field. -/
def plug : Tree Mark := .obj F.mark (F.before ++ (F.key, x) :: F.after)

/-- What the other fields hold. -/
def parts : List (Tree Mark) := F.before.map Prod.snd ++ F.after.map Prod.snd

def edit : Frame :=
  { F with before := Table.mapValues (Tree.edit m f) F.before, after := Table.mapValues (Tree.edit m f) F.after }

theorem parts_edit : (F.edit m f).parts = F.parts.map (Tree.edit m f) := by
  simp [parts, edit, Table.mapValues, Function.comp_def]

variable {F m}

theorem edit_plug (hm : m ≠ F.mark) : (F.plug x).edit m f = (F.edit m f).plug (x.edit m f) := by
  rw [edit_below rfl hm]
  simp [plug, edit, mapChildren, Table.mapValues]

theorem edit_of_apart (hm : ∀ y ∈ F.parts, m ∉ y.marks) : F.edit m f = F := by
  have hside : ∀ l : Fields Mark, (∀ y ∈ l.map Prod.snd, m ∉ y.marks) →
      Table.mapValues (Tree.edit m f) l = l := by
    intro l hl
    refine (map_congr_left fun e he => ?_).trans (map_id l)
    rw [edit_of_not_mem (hl _ (mem_map_of_mem he))]
    rfl
  rw [edit, hside _ fun y hy => hm y (mem_append_left _ hy), hside _ fun y hy => hm y (mem_append_right _ hy)]

theorem find?_plug (hm : m ≠ F.mark) :
    (F.plug x).find? m = ((F.before.map Prod.snd).findSome? (Tree.find? m)).or
      ((x.find? m).or ((F.after.map Prod.snd).findSome? (Tree.find? m))) := by
  rw [find?_below rfl hm]
  simp only [plug, children, map_append, map_cons, findSome?_append, findSome?_cons]
  cases x.find? m <;> simp

theorem get?_plug (hkey : F.key ∉ F.before.map Prod.fst) : Table.get? (F.plug x).fields F.key = some x := by
  rw [plug, Tree.fields]
  generalize F.before = l at hkey
  induction l with
  | nil => simp [Table.get?]
  | cons e l ih =>
    simp only [map_cons, mem_cons, not_or] at hkey
    rw [cons_append, Table.get?, if_neg (Ne.symm hkey.1)]
    exact ih hkey.2

section Set

variable (F) (key : String) (v : Tree Mark)

/-- The object with another field set. -/
def set : Frame :=
  if key ∈ F.before.map Prod.fst then { F with before := Table.set F.before key v }
  else { F with after := Table.set F.after key v }

@[simp] theorem mark_set : (F.set key v).mark = F.mark := by unfold set; split <;> rfl

@[simp] theorem key_set : (F.set key v).key = F.key := by unfold set; split <;> rfl

theorem keys_before_set : (F.set key v).before.map Prod.fst = F.before.map Prod.fst := by
  rw [set]
  split
  · next hmem =>
    have hkeys := Table.keys_set F.before key v
    rwa [if_pos (show key ∈ Table.keys F.before from hmem)] at hkeys
  · rfl

variable {F key v}

theorem mem_keys_after_set {k : String} (hk : k ∈ (F.set key v).after.map Prod.fst) :
    k ∈ F.after.map Prod.fst ∨ k = key := by
  rw [set] at hk
  split at hk
  · exact .inl hk
  · have hkeys := Table.keys_set F.after key v
    rw [show (Table.set F.after key v).map Prod.fst = Table.keys (Table.set F.after key v) from rfl, hkeys] at hk
    split at hk
    · exact .inl hk
    · exact (mem_append.mp hk).imp_right mem_singleton.mp

theorem mem_parts_set {y : Tree Mark} (hy : y ∈ (F.set key v).parts) : y ∈ F.parts ∨ y = v := by
  rw [set] at hy
  split at hy
  · rcases mem_append.mp hy with h | h
    · exact (Table.mem_values_set h).imp_left (mem_append_left _)
    · exact .inl (mem_append_right _ h)
  · rcases mem_append.mp hy with h | h
    · exact .inl (mem_append_left _ h)
    · exact (Table.mem_values_set h).imp_left (mem_append_right _)

theorem setField_plug (hkey : key ≠ F.key) : setField key v (F.plug x) = (F.set key v).plug x := by
  have hset : ∀ l : Fields Mark, Table.set (l ++ (F.key, x) :: F.after) key v =
      if key ∈ l.map Prod.fst then Table.set l key v ++ (F.key, x) :: F.after
      else l ++ (F.key, x) :: Table.set F.after key v := by
    intro l
    induction l with
    | nil => simp [Table.set, hkey.symm]
    | cons e l ih =>
      by_cases he : e.1 = key
      · simp [Table.set, he]
      · rw [cons_append, Table.set, if_neg he, ih]
        by_cases hl : key ∈ l.map Prod.fst
        · rw [if_pos hl, if_pos (by simp [hl]), Table.set, if_neg he, cons_append]
        · rw [if_neg hl, if_neg (by simpa [Ne.symm he] using hl), cons_append]
  rw [plug, setField, hset, set]
  split <;> rfl

end Set

end Frame

section Search

variable {m : Mark} {l : List (Tree Mark)} {y : Tree Mark}

theorem Tree.find?_eq_none {t : Tree Mark} (hm : m ∉ t.marks) : t.find? m = none := by
  cases hf : t.find? m with
  | none => rfl
  | some s =>
    obtain ⟨href, hsub, _⟩ := find?_spec hf
    exact absurd (hsub (mem_marks_of_ref href)) hm

theorem findSome?_find?_eq_none (hl : ∀ x ∈ l, m ∉ x.marks) : l.findSome? (Tree.find? m) = none := by
  rw [findSome?_eq_none_iff]
  exact fun x hx => find?_eq_none (hl x hx)

theorem marks_of_findSome? (hy : l.findSome? (Tree.find? m) = some y) : ∃ x ∈ l, y.marks ⊆ x.marks := by
  obtain ⟨x, hx, hf⟩ := exists_of_findSome?_eq_some hy
  exact ⟨x, hx, (find?_spec hf).2.1⟩

end Search

/-- A document around a program. -/
def wrapIn : List Frame → Tree Mark → Tree Mark
  | [], x => x
  | F :: Fs, x => F.plug (wrapIn Fs x)

section Wrapped

variable {Fs : List Frame} {m : Mark} {f : Tree Mark → Tree Mark} {x x' : Tree Mark}

section

variable (hm : m ∉ Fs.map Frame.mark)
include hm

theorem edit_wrapIn : (wrapIn Fs x).edit m f = wrapIn (Fs.map (Frame.edit · m f)) (x.edit m f) := by
  induction Fs with
  | nil => rfl
  | cons F Fs ih =>
    simp only [map_cons, mem_cons, not_or] at hm
    rw [wrapIn, Frame.edit_plug _ _ hm.1, ih hm.2, map_cons, wrapIn]

theorem find?_wrapIn_congr (hx : x.find? m = x'.find? m) : (wrapIn Fs x).find? m = (wrapIn Fs x').find? m := by
  induction Fs with
  | nil => exact hx
  | cons F Fs ih =>
    simp only [map_cons, mem_cons, not_or] at hm
    rw [wrapIn, Frame.find?_plug _ hm.1, ih hm.2, wrapIn, Frame.find?_plug _ hm.1]

/-- What is not beside the way is found below it. -/
theorem find?_wrapIn_of_apart (hp : ∀ F ∈ Fs, ∀ y ∈ F.parts, m ∉ y.marks) : (wrapIn Fs x).find? m = x.find? m := by
  induction Fs with
  | nil => rfl
  | cons F Fs ih =>
    simp only [map_cons, mem_cons, not_or] at hm
    rw [forall_mem_cons] at hp
    rw [wrapIn, Frame.find?_plug _ hm.1, ih hm.2 hp.2,
      findSome?_find?_eq_none fun y hy => hp.1 y (mem_append_left _ hy),
      findSome?_find?_eq_none fun y hy => hp.1 y (mem_append_right _ hy), Option.none_or, Option.or_none]

/-- What is found lies beside the way or below it. -/
theorem marks_of_find?_wrapIn {y : Tree Mark} (hy : (wrapIn Fs x).find? m = some y) :
    x.find? m = some y ∨ ∃ F ∈ Fs, ∃ z ∈ F.parts, y.marks ⊆ z.marks := by
  induction Fs with
  | nil => exact .inl hy
  | cons F Fs ih =>
    simp only [map_cons, mem_cons, not_or] at hm
    rw [wrapIn, Frame.find?_plug _ hm.1] at hy
    rcases Option.or_eq_some_iff.mp hy with hb | ⟨_, hy⟩
    · obtain ⟨z, hz, hsub⟩ := marks_of_findSome? hb
      exact .inr ⟨F, mem_cons_self, z, mem_append_left _ hz, hsub⟩
    rcases Option.or_eq_some_iff.mp hy with hx | ⟨_, ha⟩
    · rcases ih hm.2 hx with h | ⟨G, hG, z, hz, hsub⟩
      · exact .inl h
      · exact .inr ⟨G, mem_cons_of_mem _ hG, z, hz, hsub⟩
    · obtain ⟨z, hz, hsub⟩ := marks_of_findSome? ha
      exact .inr ⟨F, mem_cons_self, z, mem_append_right _ hz, hsub⟩

end

end Wrapped

/-- The way down to a list of statements. -/
structure Spine where
  outer : List Frame
  program : Frame
  list : Mark

namespace Spine

variable (S : Spine) (m : Mark) (f : Tree Mark → Tree Mark) (items : List (Tree Mark))

/-- The program with given statements. -/
def programWith : Tree Mark := S.program.plug (.arr S.list items)

/-- The document with given statements. -/
def fill : Tree Mark := wrapIn S.outer (S.programWith items)

/-- The marks on the way. -/
def marks : List Mark := S.list :: S.program.mark :: S.outer.map Frame.mark

/-- What lies beside the way. -/
def parts : List (Tree Mark) := S.program.parts ++ S.outer.flatMap Frame.parts

def edit : Spine := { S with outer := S.outer.map (Frame.edit · m f), program := S.program.edit m f }

@[simp] theorem marks_edit : (S.edit m f).marks = S.marks := by
  simp [marks, edit, Frame.edit, Function.comp_def]

theorem parts_edit : (S.edit m f).parts = S.parts.map (Tree.edit m f) := by
  rw [parts, parts, edit, Frame.parts_edit, map_append, map_flatMap, flatMap_map]
  simp only [Frame.parts_edit]

variable {S m f items}

/-- An edit of a part that is not on the way. -/
theorem edit_fill (hm : m ∉ S.marks) : (S.fill items).edit m f = (S.edit m f).fill (items.map (Tree.edit m f)) := by
  simp only [marks, mem_cons, not_or] at hm
  rw [fill, edit_wrapIn hm.2.2, programWith, Frame.edit_plug _ _ hm.2.1, edit_below rfl hm.1]
  rfl

theorem find?_fill_congr {items' : List (Tree Mark)} (hm : m ∉ S.marks)
    (hi : items.findSome? (Tree.find? m) = items'.findSome? (Tree.find? m)) :
    (S.fill items).find? m = (S.fill items').find? m := by
  simp only [marks, mem_cons, not_or] at hm
  refine find?_wrapIn_congr hm.2.2 ?_
  rw [programWith, Frame.find?_plug _ hm.2.1, programWith, Frame.find?_plug _ hm.2.1,
    find?_below rfl hm.1, find?_below rfl hm.1]
  simp only [children]
  rw [hi]

/-- What is found under another mark lies beside the way or in the list. -/
theorem marks_of_find?_fill (hm : m ∉ S.marks) {y : Tree Mark} (hy : (S.fill items).find? m = some y) :
    ∃ z ∈ S.parts ++ items, y.marks ⊆ z.marks := by
  simp only [marks, mem_cons, not_or] at hm
  rcases marks_of_find?_wrapIn hm.2.2 hy with hy | ⟨F, hF, z, hz, hsub⟩
  · rw [programWith, Frame.find?_plug _ hm.2.1] at hy
    rcases Option.or_eq_some_iff.mp hy with hb | ⟨_, hy⟩
    · obtain ⟨z, hz, hsub⟩ := marks_of_findSome? hb
      exact ⟨z, mem_append_left _ (mem_append_left _ (mem_append_left _ hz)), hsub⟩
    rcases Option.or_eq_some_iff.mp hy with hl | ⟨_, ha⟩
    · rw [find?_below rfl hm.1] at hl
      obtain ⟨z, hz, hsub⟩ := marks_of_findSome? hl
      exact ⟨z, mem_append_right _ hz, hsub⟩
    · obtain ⟨z, hz, hsub⟩ := marks_of_findSome? ha
      exact ⟨z, mem_append_left _ (mem_append_left _ (mem_append_right _ hz)), hsub⟩
  · exact ⟨z, mem_append_left _ (mem_append_right _ (mem_flatMap.mpr ⟨F, hF, hz⟩)), hsub⟩

/-- The marks on the way are different and occur nowhere else. -/
structure Apart (S : Spine) (items : List (Tree Mark)) : Prop where
  nodup : S.marks.Nodup
  parts : ∀ x ∈ S.parts, ∀ m ∈ S.marks, m ∉ x.marks
  items : ∀ x ∈ items, ∀ m ∈ S.marks, m ∉ x.marks

namespace Apart

variable (ha : S.Apart items)

include ha

theorem outer_apart {m : Mark} (hm : m ∈ S.marks) : ∀ F ∈ S.outer, ∀ y ∈ F.parts, m ∉ y.marks :=
  fun F hF y hy => ha.parts y (mem_append_right _ (mem_flatMap.mpr ⟨F, hF, hy⟩)) m hm

theorem program_apart {m : Mark} (hm : m ∈ S.marks) : ∀ y ∈ S.program.parts, m ∉ y.marks :=
  fun y hy => ha.parts y (mem_append_left _ hy) m hm

theorem program_not_outer : S.program.mark ∉ S.outer.map Frame.mark :=
  (nodup_cons.mp (nodup_cons.mp ha.nodup).2).1

theorem list_not_outer : S.list ∉ S.outer.map Frame.mark :=
  fun h => (nodup_cons.mp ha.nodup).1 (mem_cons_of_mem _ h)

theorem list_ne_program : S.list ≠ S.program.mark :=
  fun h => (nodup_cons.mp ha.nodup).1 (h ▸ mem_cons_self)

/-- The program is found under its mark. -/
theorem find?_program : (S.fill items).find? S.program.mark = some (S.programWith items) := by
  rw [fill, find?_wrapIn_of_apart ha.program_not_outer (ha.outer_apart (by simp [marks])),
    find?_self rfl]

/-- The list is found under its mark. -/
theorem find?_list : (S.fill items).find? S.list = some (.arr S.list items) := by
  have hm : S.list ∈ S.marks := mem_cons_self
  rw [fill, find?_wrapIn_of_apart ha.list_not_outer (ha.outer_apart hm), programWith,
    Frame.find?_plug _ ha.list_ne_program,
    findSome?_find?_eq_none fun y hy => ha.program_apart hm y (mem_append_left _ hy), Option.none_or,
    find?_self rfl, Option.some_or]

theorem outer_edit_eq {m : Mark} (hm : m ∈ S.marks) (f : Tree Mark → Tree Mark) :
    S.outer.map (Frame.edit · m f) = S.outer := by
  exact (map_congr_left fun F hF => Frame.edit_of_apart f (ha.outer_apart hm F hF)).trans (map_id _)

theorem edit_list {f : Tree Mark → Tree Mark} {items' : List (Tree Mark)}
    (hf : f (.arr S.list items) = .arr S.list items') : (S.fill items).edit S.list f = S.fill items' := by
  have hm : S.list ∈ S.marks := mem_cons_self
  rw [fill, edit_wrapIn ha.list_not_outer, ha.outer_edit_eq hm, programWith, Frame.edit_plug _ _ ha.list_ne_program,
    Frame.edit_of_apart f (ha.program_apart hm), edit_self rfl, hf]
  rfl

theorem edit_program {f : Tree Mark → Tree Mark} {F : Frame}
    (hf : f (S.programWith items) = F.plug (.arr S.list items)) :
    (S.fill items).edit S.program.mark f = ({ S with program := F } : Spine).fill items := by
  rw [fill, edit_wrapIn ha.program_not_outer, ha.outer_edit_eq (by simp [marks]), edit_self rfl, hf]
  rfl

end Apart

end Spine

section Filling

theorem Frame.exists_plug (m : Mark) {fields : Fields Mark} (hk : (fields.map Prod.fst).Nodup) {key : String}
    {x : Tree Mark} (hx : Table.get? fields key = some x) :
    ∃ F : Frame, F.mark = m ∧ F.key = key ∧ .obj m fields = F.plug x ∧ key ∉ F.before.map Prod.fst ∧
      key ∉ F.after.map Prod.fst := by
  obtain ⟨before, after, rfl⟩ := append_of_mem (Table.mem_of_get? hx)
  refine ⟨⟨m, before, key, after⟩, rfl, rfl, rfl, ?_⟩
  rw [map_append, map_cons, nodup_middle, nodup_cons, mem_append, not_or] at hk
  exact hk.1

theorem Frame.marks_plug (F : Frame) (x : Tree Mark) :
    (F.plug x).marks.Perm (F.mark :: (x.marks ++ F.parts.flatMap Tree.marks)) := by
  rw [Frame.plug, Tree.marks, marksFields_eq, Frame.parts, map_append, map_cons, flatMap_append,
    flatMap_cons, flatMap_append]
  exact perm_append_comm_assoc .. |>.cons _

/-- The parts of a document are those on the way, beside it and in the list. -/
theorem Spine.marks_fill (S : Spine) (items : List (Tree Mark)) :
    (S.fill items).marks.Perm (S.marks ++ (items ++ S.parts).flatMap Tree.marks) := by
  have hwrap : ∀ (Fs : List Frame) (x : Tree Mark), (wrapIn Fs x).marks.Perm
      (Fs.map Frame.mark ++ (x.marks ++ (Fs.flatMap Frame.parts).flatMap Tree.marks)) := by
    intro Fs x
    induction Fs with
    | nil => simp [wrapIn]
    | cons F Fs ih =>
      refine (F.marks_plug _).trans (.cons _ ?_)
      refine (ih.append_right _).trans ?_
      simp only [flatMap_cons, flatMap_append, perm_iff_count, count_append, append_eq]
      intro m
      omega
  have hprogram := S.program.marks_plug (.arr S.list items)
  rw [Tree.marks, marksItems_eq] at hprogram
  refine (hwrap S.outer (S.programWith items)).trans (((hprogram.append_right _).append_left _).trans ?_)
  simp only [Spine.marks, Spine.parts, flatMap_append, perm_iff_count, count_append, count_cons]
  intro m
  omega

end Filling

end DebugGuards
