import DebugGuards.Proofs.Workspace.Frame
import DebugGuards.Workspace.Scope

/-! Workspaces whose document is seen from its list of statements. Nothing beside the way to
the list, in the list or among the loose parts has a part on the way, and each operation
that does not meddle with the way itself keeps it so. -/

namespace DebugGuards

open DebugGuards.Tree List

/-- A document all parts of which are marked below `n` and off the way. -/
def Inner (K : List Mark) (n : Mark) (x : Tree Mark) : Prop := ∀ m ∈ x.marks, m ∉ K ∧ m < n

/-- A draft whose marked parts are so. -/
def InnerDraft (K : List Mark) (n : Mark) (d : Draft) : Prop := ∀ m, some m ∈ d.marks → m ∉ K ∧ m < n

/-- A reference to such a part. -/
def InnerRef (K : List Mark) (n : Mark) (r : Ref) : Prop := ∀ m, r = .part m → m ∉ K ∧ m < n

section Inner

variable {K : List Mark} {n n' m : Mark} {x y : Tree Mark} {d : Draft}

theorem Inner.mono (hx : Inner K n x) (hn : (n : ℕ) ≤ n') : Inner K n' x :=
  fun m hm => ⟨(hx m hm).1, Nat.lt_of_lt_of_le (hx m hm).2 hn⟩

theorem InnerRef.mono {r : Ref} (hr : InnerRef K n r) (hn : (n : ℕ) ≤ n') : InnerRef K n' r :=
  fun m hm => ⟨(hr m hm).1, Nat.lt_of_lt_of_le (hr m hm).2 hn⟩

theorem Inner.of_subset (hx : Inner K n x) (hs : y.marks ⊆ x.marks) : Inner K n y := fun m hm => hx m (hs hm)

theorem Inner.child (hx : Inner K n x) (hy : y ∈ x.children) : Inner K n y := hx.of_subset (marks_child hy)

theorem Inner.scalar (s : Scalar) : Inner K n (.scalar s) := by simp [Inner]

theorem Inner.ref (hx : Inner K n x) : InnerRef K n x.ref := fun _ hm => hx _ (mem_marks_of_ref hm)

theorem inner_iff : Inner K n x ↔ InnerRef K n x.ref ∧ ∀ y ∈ x.children, Inner K n y := by
  refine ⟨fun hx => ⟨hx.ref, fun y hy => hx.child hy⟩, fun ⟨hr, hc⟩ m hm => ?_⟩
  rw [marks_eq, mem_append, mem_flatMap] at hm
  rcases hm with hm | ⟨y, hy, hm⟩
  · exact hr m (ref_eq_part_iff.mpr (Option.mem_toList.mp hm))
  · exact hc y hy m hm

theorem marks_map {α β : Type} (g : α → β) (t : Tree α) : (t.map g).marks = t.marks.map g := by
  induction t using induct with
  | scalar s => simp
  | arr m items ih =>
    simp only [map_arr, marks, marksItems_eq, flatMap_map, map_cons, map_flatMap]
    exact congrArg _ (flatMap_congr fun x hx => ih x hx)
  | obj m fields ih =>
    simp only [map_obj, marks, marksFields_eq, Table.mapValues, List.map_map, flatMap_map, map_cons,
      map_flatMap, Function.comp_apply]
    exact congrArg _ (flatMap_congr fun e he => ih e he)

theorem Inner.draft (hx : Inner K n x) : InnerDraft K n x.draft := by
  intro m hm
  rw [Tree.draft, marks_map] at hm
  obtain ⟨k, hk, e⟩ := mem_map.mp hm
  exact Option.some.inj e ▸ hx k hk

theorem innerDraft_copy {α : Type} (t : Tree α) : InnerDraft K n t.copy := by
  intro m hm
  rw [copy, marks_map] at hm
  obtain ⟨_, _, e⟩ := mem_map.mp hm
  cases e

theorem innerDraft_made (hd : d.mark? = some none ∨ d.mark? = none) (hc : ∀ c ∈ d.children, InnerDraft K n c) :
    InnerDraft K n d := by
  intro m hm
  rw [marks_eq, mem_append, mem_flatMap] at hm
  rcases hm with hm | ⟨c, hc', hm⟩
  · rw [Option.mem_toList] at hm
    rcases hd with h | h <;> rw [h] at hm <;> cases hm
  · exact hc c hc' m hm

end Inner

section Settling

/-- Settling keeps the marks of a draft and hands out the next ones. -/
theorem marks_settle (d : Draft) (n : ℕ) :
    n ≤ (d.settle n).2 ∧ ∀ m : ℕ, m ∈ (d.settle n).1.marks → some m ∈ d.marks ∨ n ≤ m ∧ m < (d.settle n).2 := by
  have hitems : ∀ (ds : List Draft), (∀ d ∈ ds, ∀ n : ℕ, n ≤ (d.settle n).2 ∧
      ∀ m : ℕ, m ∈ (d.settle n).1.marks → some m ∈ d.marks ∨ n ≤ m ∧ m < (d.settle n).2) → ∀ n : ℕ,
      n ≤ (settleItems n ds).2 ∧ ∀ m : ℕ, m ∈ (settleItems n ds).1.flatMap marks →
        some m ∈ ds.flatMap marks ∨ n ≤ m ∧ m < (settleItems n ds).2 := by
    intro ds ih
    induction ds with
    | nil => exact fun n => ⟨Nat.le_refl n, by simp [settleItems]⟩
    | cons d ds ihs =>
      intro n
      rw [forall_mem_cons] at ih
      obtain ⟨hle, hmem⟩ := ih.1 n
      obtain ⟨hle', hmem'⟩ := ihs ih.2 (d.settle n).2
      simp only [settleItems]
      refine ⟨Nat.le_trans hle hle', fun m hm => ?_⟩
      rw [flatMap_cons, mem_append] at hm ⊢
      rcases hm with hm | hm
      · rcases hmem m hm with h | ⟨h1, h2⟩
        · exact .inl (.inl h)
        · exact .inr ⟨h1, Nat.lt_of_lt_of_le h2 hle'⟩
      · rcases hmem' m hm with h | ⟨h1, h2⟩
        · exact .inl (.inr h)
        · exact .inr ⟨Nat.le_trans hle h1, h2⟩
  have htake : ∀ (o : Option Mark) (n : ℕ), n ≤ (takeMark o n).2 ∧
      (o = some (takeMark o n).1 ∨ n ≤ (takeMark o n).1 ∧ (takeMark o n).1 < (takeMark o n).2) := by
    intro o n
    cases o with
    | none => exact ⟨Nat.le_succ n, .inr ⟨Nat.le_refl n, Nat.lt_succ_self n⟩⟩
    | some m => exact ⟨Nat.le_refl n, .inl rfl⟩
  induction d using induct generalizing n with
  | scalar s => exact ⟨Nat.le_refl n, by simp [settle]⟩
  | arr o items ih =>
    obtain ⟨hle, hmark⟩ := htake o n
    obtain ⟨hle', hmem⟩ := hitems items (fun d hd n => ih d hd n) (takeMark o n).2
    simp only [settle]
    refine ⟨Nat.le_trans hle hle', fun m hm => ?_⟩
    rw [marks, marksItems_eq, mem_cons] at hm ⊢
    rcases hm with rfl | hm
    · rcases hmark with h | ⟨h1, h2⟩
      · exact .inl (.inl h.symm)
      · exact .inr ⟨h1, Nat.lt_of_lt_of_le h2 hle'⟩
    · rcases hmem m hm with h | ⟨h1, h2⟩
      · exact .inl (.inr h)
      · exact .inr ⟨Nat.le_trans hle h1, h2⟩
  | obj o fields ih =>
    obtain ⟨hle, hmark⟩ := htake o n
    have hfields : ∀ d ∈ fields.map Prod.snd, ∀ n : ℕ, n ≤ (d.settle n).2 ∧
        ∀ m : ℕ, m ∈ (d.settle n).1.marks → some m ∈ d.marks ∨ n ≤ m ∧ m < (d.settle n).2 := by
      intro d hd n
      obtain ⟨e, he, rfl⟩ := mem_map.mp hd
      exact ih e he n
    obtain ⟨hle', hmem⟩ := hitems (fields.map Prod.snd) hfields (takeMark o n).2
    have hlen : (fields.map Prod.fst).length = (settleItems (takeMark o n).2 (fields.map Prod.snd)).1.length := by
      rw [settleItems_length, length_map, length_map]
    simp only [settle, settleFields_eq]
    refine ⟨Nat.le_trans hle hle', fun m hm => ?_⟩
    rw [marks, marksFields_eq, map_snd_zip (Nat.le_of_eq hlen.symm), mem_cons] at hm
    rw [marks, marksFields_eq, mem_cons]
    rcases hm with rfl | hm
    · rcases hmark with h | ⟨h1, h2⟩
      · exact .inl (.inl h.symm)
      · exact .inr ⟨h1, Nat.lt_of_lt_of_le h2 hle'⟩
    · rcases hmem m hm with h | ⟨h1, h2⟩
      · exact .inl (.inr h)
      · exact .inr ⟨Nat.le_trans hle h1, h2⟩

variable {K : List Mark} {n : Mark} {d : Draft}

theorem InnerDraft.settle (hd : InnerDraft K n d) (hK : ∀ k ∈ K, k < n) : Inner K (d.settle n).2 (d.settle n).1 := by
  obtain ⟨hle, hmem⟩ := marks_settle d n
  intro m hm
  rcases hmem m hm with h | ⟨h1, h2⟩
  · exact ⟨(hd m h).1, Nat.lt_of_lt_of_le (hd m h).2 hle⟩
  · exact ⟨fun hk => absurd (hK m hk) (Nat.not_lt.mpr h1), h2⟩

theorem InnerDraft.mono {n' : Mark} (hd : InnerDraft K n d) (hn : (n : ℕ) ≤ n') : InnerDraft K n' d :=
  fun m hm => ⟨(hd m hm).1, Nat.lt_of_lt_of_le (hd m hm).2 hn⟩

theorem settleItems_inner {ds : List Draft} (hd : ∀ d ∈ ds, InnerDraft K n d) (hK : ∀ k ∈ K, k < n) :
    (n : ℕ) ≤ (settleItems n ds).2 ∧ ∀ x ∈ (settleItems n ds).1, Inner K (settleItems n ds).2 x := by
  induction ds generalizing n with
  | nil => exact ⟨Nat.le_refl _, by simp [settleItems]⟩
  | cons d ds ih =>
    rw [forall_mem_cons] at hd
    have hle : (n : ℕ) ≤ (d.settle n).2 := (marks_settle d n).1
    obtain ⟨hle', hin⟩ := ih (fun e he => (hd.2 e he).mono hle) (fun k hk => Nat.lt_of_lt_of_le (hK k hk) hle)
    simp only [settleItems, forall_mem_cons]
    exact ⟨Nat.le_trans hle hle', (hd.1.settle hK).mono hle', hin⟩

end Settling

section Editing

variable {K : List Mark} {n m : Mark} {x v : Tree Mark} {f : Tree Mark → Tree Mark}

theorem Inner.edit (hf : ∀ y, Inner K n y → Inner K n (f y)) (hx : Inner K n x) : Inner K n (x.edit m f) := by
  induction x using induct with
  | scalar s => rw [edit_eq, if_neg (by simp [Tree.ref])]; exact hx
  | arr k items ih =>
    rw [edit_eq]
    split
    · exact hf _ hx
    · refine inner_iff.mpr ⟨hx.ref, fun y hy => ?_⟩
      obtain ⟨z, hz, rfl⟩ := mem_map.mp (show y ∈ items.map (Tree.edit m f) from hy)
      exact ih z hz (hx.child hz)
  | obj k fields ih =>
    rw [edit_eq]
    split
    · exact hf _ hx
    · refine inner_iff.mpr ⟨hx.ref, fun y hy => ?_⟩
      obtain ⟨e, he, rfl⟩ := mem_map.mp (show y ∈ (Table.mapValues (Tree.edit m f) fields).map Prod.snd from hy)
      obtain ⟨e', he', rfl⟩ := mem_map.mp he
      exact ih e' he' (hx.child (mem_map_of_mem he'))

theorem Inner.setField (hv : Inner K n v) (key : String) (hx : Inner K n x) : Inner K n (Tree.setField key v x) := by
  cases x with
  | scalar | arr => exact hx
  | obj k fields =>
    refine inner_iff.mpr ⟨hx.ref, fun y hy => ?_⟩
    rcases Table.mem_values_set (show y ∈ (Table.set fields key v).map Prod.snd from hy) with h | rfl
    · exact hx.child h
    · exact hv

theorem mem_splice {new : List (Tree Mark)} {r : Ref} {items : List (Tree Mark)} {y : Tree Mark}
    (hy : y ∈ items.takeWhile (·.ref ≠ r) ++ new ++ (items.dropWhile (·.ref ≠ r)).drop 1) : y ∈ items ∨ y ∈ new := by
  rw [append_assoc, mem_append, mem_append] at hy
  rcases hy with h | h | h
  · exact .inl ((takeWhile_sublist _).subset h)
  · exact .inr h
  · exact .inl ((dropWhile_sublist _).subset (mem_of_mem_drop h))

theorem Inner.splice {new : List (Tree Mark)} (hnew : ∀ y ∈ new, Inner K n y) (r : Ref) (hx : Inner K n x) :
    Inner K n (Tree.splice r new x) := by
  cases x with
  | scalar | obj => exact hx
  | arr k items =>
    refine inner_iff.mpr ⟨hx.ref, fun y hy => ?_⟩
    rcases mem_splice hy with h | h
    · exact hx.child h
    · exact hnew y h

end Editing

theorem Workspace.part?_ref {w : Workspace} {m : Mark} {x : Tree Mark} (hx : w.part? m = some x) : x.ref = .part m := by
  rcases Option.or_eq_some_iff.mp hx with h | ⟨_, h⟩
  · exact (find?_spec h).1
  · obtain ⟨y, _, hf⟩ := exists_of_findSome?_eq_some h
    exact (find?_spec hf).1

/-- An object found through a reference has its mark. -/
theorem Workspace.deref_obj {w : Workspace} {r : Ref} {m : Mark} {fields : Fields Mark}
    (h : w.deref r = .obj m fields) : r = .part m := by
  cases r with
  | scalar s => cases h
  | part k =>
    rw [Workspace.deref] at h
    cases hp : w.part? k with
    | none => rw [hp] at h; cases h
    | some x =>
      rw [hp, Option.getD_some] at h
      have href := Workspace.part?_ref hp
      rw [h] at href
      exact href.symm

/-- The document of the workspace is a way with statements at its end, and everything else is off
the way. -/
structure Framed (S : Spine) (items : List (Tree Mark)) (w : Workspace) : Prop where
  root : w.root = S.fill items
  program : w.program = S.program.mark
  key : S.program.key = "body"
  first : "body" ∉ S.program.before.map Prod.fst
  last : "body" ∉ S.program.after.map Prod.fst
  nodup : S.marks.Nodup
  below : ∀ m ∈ S.marks, m < w.fresh
  parts : ∀ x ∈ S.parts, Inner S.marks w.fresh x
  items : ∀ x ∈ items, Inner S.marks w.fresh x
  loose : ∀ x ∈ w.loose, Inner S.marks w.fresh x

namespace Framed

variable {S : Spine} {items : List (Tree Mark)} {w : Workspace} {m : Mark} {x v : Tree Mark}

theorem apart (hf : Framed S items w) : S.Apart items :=
  ⟨hf.nodup, fun x hx m hm hmem => (hf.parts x hx m hmem).1 hm, fun x hx m hm hmem => (hf.items x hx m hmem).1 hm⟩

section Reading

section

variable (hf : Framed S items w)
include hf

theorem part?_inner (hm : m ∉ S.marks) (hx : w.part? m = some x) : Inner S.marks w.fresh x := by
  rw [Workspace.part?, hf.root] at hx
  rcases Option.or_eq_some_iff.mp hx with h | ⟨_, h⟩
  · obtain ⟨z, hz, hsub⟩ := Spine.marks_of_find?_fill hm h
    rcases mem_append.mp hz with hz | hz
    · exact (hf.parts z hz).of_subset hsub
    · exact (hf.items z hz).of_subset hsub
  · obtain ⟨z, hz, hsub⟩ := marks_of_findSome? h
    exact (hf.loose z hz).of_subset hsub

theorem deref_inner {r : Ref} {n : Mark} (hr : InnerRef S.marks n r) : Inner S.marks w.fresh (w.deref r) := by
  cases r with
  | scalar s => exact .scalar s
  | part m =>
    rw [Workspace.deref]
    cases hp : w.part? m with
    | none => exact .scalar .null
    | some x => exact hf.part?_inner (hr m rfl).1 hp

theorem part?_list : w.part? S.list = some (.arr S.list items) := by
  rw [Workspace.part?, hf.root, hf.apart.find?_list, Option.some_or]

theorem programNode : w.programNode = S.programWith items := by
  rw [Workspace.programNode, Workspace.deref, Workspace.part?, hf.root, hf.program, hf.apart.find?_program,
    Option.some_or, Option.getD_some]

theorem get?_body : Table.get? w.programNode.fields "body" = some (.arr S.list items) := by
  rw [hf.programNode, Spine.programWith, ← hf.key]
  exact Frame.get?_plug _ (hf.key ▸ hf.first)

theorem require_body : w.programNode.require "body" = .ok (.arr S.list items) := by
  have hget := hf.get?_body
  rw [hf.programNode] at hget ⊢
  simp only [Spine.programWith, Frame.plug, Tree.fields] at hget
  simp only [Spine.programWith, Frame.plug, require, hget]

theorem statements : w.statements = .ok items := by
  rw [Workspace.statements, hf.require_body]
  rfl

theorem statementPath (x : Tree Mark) : w.statementPath x = ⟨x.ref, .item w.program S.list "body", []⟩ := by
  rw [Workspace.statementPath, hf.get?_body]
  rfl

end

end Reading

section Changing

section

variable (hf : Framed S items w)
include hf

theorem paths (ps : Array Path) : Framed S items { w with paths := ps } :=
  ⟨hf.root, hf.program, hf.key, hf.first, hf.last, hf.nodup, hf.below, hf.parts, hf.items, hf.loose⟩

theorem grow {n : Mark} (hn : (w.fresh : ℕ) ≤ n) : Framed S items { w with fresh := n } :=
  ⟨hf.root, hf.program, hf.key, hf.first, hf.last, hf.nodup, fun m hm => Nat.lt_of_lt_of_le (hf.below m hm) hn,
    fun x hx => (hf.parts x hx).mono hn, fun x hx => (hf.items x hx).mono hn, fun x hx => (hf.loose x hx).mono hn⟩

theorem keep (hx : Inner S.marks w.fresh x) : Framed S items (w.keep x) := by
  refine ⟨by simpa using hf.root, by simpa using hf.program, hf.key, hf.first, hf.last,
    hf.nodup, by simpa using hf.below, by simpa using hf.parts, by simpa using hf.items, fun y hy => ?_⟩
  rw [Workspace.keep_fresh]
  cases x with
  | scalar s => exact hf.loose y hy
  | arr _ _ | obj _ _ =>
    rcases mem_append.mp (show y ∈ w.loose ++ [_] from hy) with h | h
    · exact hf.loose y h
    · exact mem_singleton.mp h ▸ hx

theorem settle {d : Draft} (hd : InnerDraft S.marks w.fresh d) :
    Framed S items (w.settle d).2 ∧ Inner S.marks (w.settle d).2.fresh (w.settle d).1 :=
  ⟨hf.grow (marks_settle d w.fresh).1, hd.settle hf.below⟩

theorem hold {d : Draft} (hd : InnerDraft S.marks w.fresh d) :
    Framed S items (w.hold d).2 ∧ InnerRef S.marks (w.hold d).2.fresh (w.hold d).1 := by
  obtain ⟨hs, hx⟩ := hf.settle hd
  refine ⟨hs.keep hx, ?_⟩
  show InnerRef S.marks ((w.settle d).2.keep (w.settle d).1).fresh _
  rw [Workspace.keep_fresh]
  exact hx.ref

/-- An edit of a part off the way. -/
theorem editPart (hm : m ∉ S.marks) {f : Tree Mark → Tree Mark}
    (hin : ∀ y, Inner S.marks w.fresh y → Inner S.marks w.fresh (f y)) :
    Framed (S.edit m f) (items.map (Tree.edit m f)) (w.editPart m f) := by
  have hall : ∀ l : List (Tree Mark), (∀ x ∈ l, Inner S.marks w.fresh x) →
      ∀ y ∈ l.map (Tree.edit m f), Inner S.marks w.fresh y := by
    intro l hl y hy
    obtain ⟨x, hx, rfl⟩ := mem_map.mp hy
    exact (hl x hx).edit hin
  refine ⟨?_, hf.program, hf.key, ?_, ?_, ?_, ?_, ?_, ?_, ?_⟩
  · rw [Workspace.editPart, hf.root, Spine.edit_fill hm]
  · simpa [Spine.edit, Frame.edit, Table.mapValues, Function.comp_def] using hf.first
  · simpa [Spine.edit, Frame.edit, Table.mapValues, Function.comp_def] using hf.last
  · simpa using hf.nodup
  · rw [Spine.marks_edit]
    exact hf.below
  · rw [Spine.parts_edit, Spine.marks_edit]
    exact hall _ hf.parts
  · rw [Spine.marks_edit]
    exact hall _ hf.items
  · rw [Spine.marks_edit]
    exact hall _ hf.loose

theorem editList {f : Tree Mark → Tree Mark} {items' : List (Tree Mark)}
    (hlist : f (.arr S.list items) = .arr S.list items') (hin : ∀ x ∈ items', Inner S.marks w.fresh x) :
    Framed S items' (w.editPart S.list f) := by
  have hloose : w.loose.map (Tree.edit S.list f) = w.loose :=
    (map_congr_left fun x hx => edit_of_not_mem fun hmem =>
      (hf.loose x hx _ hmem).1 mem_cons_self).trans (map_id _)
  refine ⟨?_, hf.program, hf.key, hf.first, hf.last, hf.nodup, hf.below, hf.parts, hin, ?_⟩
  · rw [Workspace.editPart, hf.root, hf.apart.edit_list hlist]
  · rw [Workspace.editPart, hloose]
    exact hf.loose

/-- A field of the program is set that does not hold the statements. -/
theorem editProgram {key : String} (hkey : key ≠ "body") (hv : Inner S.marks w.fresh v) :
    Framed { S with program := S.program.set key v } items (w.editPart S.program.mark (setField key v)) := by
  have hmarks : ({ S with program := S.program.set key v } : Spine).marks = S.marks := by simp [Spine.marks]
  have hloose : w.loose.map (Tree.edit S.program.mark (setField key v)) = w.loose :=
    (map_congr_left fun x hx => edit_of_not_mem fun hmem =>
      (hf.loose x hx _ hmem).1 (by simp [Spine.marks])).trans (map_id _)
  refine ⟨?_, hf.program.trans (Frame.mark_set ..).symm, by simpa using hf.key, ?_, ?_, ?_, ?_, ?_, ?_, ?_⟩
  · rw [Workspace.editPart, hf.root]
    exact hf.apart.edit_program (Frame.setField_plug _ (by rw [hf.key]; exact hkey))
  · rw [Frame.keys_before_set]
    exact hf.first
  · exact fun hmem => (Frame.mem_keys_after_set hmem).elim hf.last hkey.symm
  · rw [hmarks]
    exact hf.nodup
  · rw [hmarks]
    exact hf.below
  · rw [hmarks]
    intro x hx
    rcases mem_append.mp hx with h | h
    · rcases Frame.mem_parts_set h with h | rfl
      · exact hf.parts x (mem_append_left _ h)
      · exact hv
    · exact hf.parts x (mem_append_right _ h)
  · rw [hmarks]
    exact hf.items
  · rw [hmarks, Workspace.editPart, hloose]
    exact hf.loose

end

end Changing

end Framed

/-- The workspace has a document with a given way. -/
def Workspace.Keeping (K : List Mark) (w : Workspace) : Prop := ∃ S items, S.marks = K ∧ Framed S items w

section Keeping

variable {S : Spine} {items : List (Tree Mark)} {w w' : Workspace} {m : Mark} {p : Path}

/-- What a field held. -/
theorem Framed.field_inner (hf : Framed S items w) {key : String}
    (hm : m ∉ S.marks ∨ m = S.program.mark ∧ key ≠ "body") :
    Inner S.marks w.fresh (((w.part? m).bind fun t => Table.get? t.fields key).getD .null) := by
  have hchild : ∀ x, (∀ y, Table.get? (Tree.fields x) key = some y → Inner S.marks w.fresh y) →
      Inner S.marks w.fresh ((Table.get? (Tree.fields x) key).getD .null) := by
    intro x hx
    cases hg : Table.get? (Tree.fields x) key with
    | none => exact .scalar .null
    | some y => exact hx y hg
  rcases hm with hm | ⟨rfl, hkey⟩
  · cases hp : w.part? m with
    | none => exact .scalar .null
    | some x =>
      refine hchild x fun y hy => ?_
      cases x with
      | scalar | arr => cases hy
      | obj k fields => exact (hf.part?_inner hm hp).child (mem_map_of_mem (Table.mem_of_get? hy))
  · rw [Workspace.part?, hf.root, hf.apart.find?_program, Option.some_or]
    refine hchild _ fun y hy => ?_
    have hmem := Table.mem_of_get? hy
    rw [Spine.programWith, Frame.plug, Tree.fields, mem_append, mem_cons, Prod.mk.injEq] at hmem
    rcases hmem with h | ⟨h, _⟩ | h
    · exact hf.parts y (mem_append_left _ (mem_append_left _ (mem_map_of_mem h)))
    · exact absurd (h.trans hf.key) hkey
    · exact hf.parts y (mem_append_left _ (mem_append_right _ (mem_map_of_mem h)))

theorem Framed.setPartField (hf : Framed S items w) {key : String} {d : Draft}
    (hm : m ∉ S.marks ∨ m = S.program.mark ∧ key ≠ "body") (hd : InnerDraft S.marks w.fresh d) :
    (w.setPartField m key d).Keeping S.marks ∧ (w.fresh : ℕ) ≤ (w.setPartField m key d).fresh := by
  have hk := hf.keep (hf.field_inner hm)
  obtain ⟨hs, hx⟩ := hk.settle (d := d) (by rw [Workspace.keep_fresh]; exact hd)
  refine ⟨?_, ?_⟩
  · rcases hm with hm | ⟨rfl, hkey⟩
    · exact ⟨_, _, by simp, hs.editPart hm fun y hy => hx.setField key hy⟩
    · exact ⟨_, _, by simp [Spine.marks], hs.editProgram hkey hx⟩
  · have hle := (marks_settle d (w.keep (((w.part? m).bind fun t => Table.get? t.fields key).getD .null)).fresh).1
    exact Nat.le_trans (Nat.le_of_eq (Workspace.keep_fresh ..).symm) hle

theorem Framed.spliceAt (hf : Framed S items w) {list : Mark} (hl : list ∉ S.marks ∨ list = S.list) {ds : List Draft}
    (hd : ∀ d ∈ ds, InnerDraft S.marks w.fresh d) (hp : InnerRef S.marks w.fresh p.node) {rs : List Ref}
    (hok : w.spliceAt p list ds = .ok (rs, w')) : w'.Keeping S.marks ∧ (w.fresh : ℕ) ≤ w'.fresh := by
  rw [Workspace.spliceAt] at hok
  split at hok
  · cases hok
    obtain ⟨hle, hin⟩ := settleItems_inner hd hf.below
    have hg := (hf.grow hle).keep ((hf.deref_inner hp).mono hle)
    have hfresh : ({ w with fresh := (settleItems w.fresh ds).2 }.keep (w.deref p.node)).fresh =
        (settleItems w.fresh ds).2 := Workspace.keep_fresh ..
    rw [← hfresh] at hin
    refine ⟨?_, Nat.le_trans hle (Nat.le_of_eq hfresh.symm)⟩
    rcases hl with hl | rfl
    · exact ⟨_, _, by simp, hg.editPart hl fun y hy => hy.splice hin p.node⟩
    · refine ⟨S, _, rfl, hg.editList rfl fun x hx => ?_⟩
      rcases mem_splice hx with h | h
      · exact hg.items x h
      · exact hin x h
  · cases hok

end Keeping

section Opening

variable {t : Tree Mark} {fresh : Mark} {w : Workspace}

/-- The program of a document that can be opened: the document, or what a file holds. -/
theorem ofTree_inv (hd : t.marks.Nodup) (hw : Workspace.ofTree t fresh = .ok w) :
    ∃ m fields, w = { root := t, program := m, dialect := Workspace.dialectOf t, fresh := fresh } ∧
      w.programNode = .obj m fields ∧
      (t = .obj m fields ∨ ∃ k fs, t = .obj k fs ∧ Table.get? fs "program" = some (.obj m fields)) := by
  have hdone : ∀ m fields, w = { root := t, program := m, dialect := Workspace.dialectOf t, fresh := fresh } →
      (t = .obj m fields ∨ ∃ k fs, t = .obj k fs ∧ Table.get? fs "program" = some (.obj m fields)) →
      w.programNode = .obj m fields := by
    rintro m fields rfl hwhere
    have hfind : t.find? m = some (.obj m fields) := by
      rcases hwhere with rfl | ⟨k, fs, rfl, hget⟩
      · exact find?_self rfl
      · rw [find?_child hd (mem_map_of_mem (Table.mem_of_get? hget)) (mem_marks_of_ref rfl)]
        exact find?_self rfl
    rw [Workspace.programNode, Workspace.deref, Workspace.part?, hfind, Option.some_or, Option.getD_some]
  suffices h : ∃ m fields, w = { root := t, program := m, dialect := Workspace.dialectOf t, fresh := fresh } ∧
      (t = .obj m fields ∨ ∃ k fs, t = .obj k fs ∧ Table.get? fs "program" = some (.obj m fields)) by
    obtain ⟨m, fields, heq, hwhere⟩ := h
    exact ⟨m, fields, heq, hdone m fields heq hwhere, hwhere⟩
  rw [Workspace.ofTree] at hw
  split at hw
  · cases hp : t.require "program" with
    | error e => rw [hp] at hw; cases hw
    | ok p =>
      have hget : ∃ k fs, t = .obj k fs ∧ Table.get? fs "program" = some p := by
        cases t with
        | scalar | arr => cases hp
        | obj k fs =>
          simp only [require] at hp
          split at hp
          · next v hv => exact ⟨k, fs, rfl, by rw [hv, Except.ok.inj hp]⟩
          · cases hp
      rw [hp] at hw
      simp only [bind, Except.bind] at hw
      split at hw
      · split at hw <;> cases hw
        exact ⟨_, _, rfl, .inr hget⟩
      · cases hw
  · simp only [bind, Except.bind] at hw
    split at hw
    · split at hw <;> cases hw
      exact ⟨_, _, rfl, .inl rfl⟩
    · cases hw

theorem framed_ofTree (hk : t.keyed = true) (hd : t.marks.Nodup) (hb : ∀ m ∈ t.marks, m < fresh)
    (hw : Workspace.ofTree t fresh = .ok w) {list : Mark} {items : List (Tree Mark)}
    (hbody : w.programNode.require "body" = .ok (.arr list items)) : ∃ S, Framed S items w := by
  obtain ⟨m, fields, rfl, hnode, hwhere⟩ := ofTree_inv hd hw
  have hget : Table.get? fields "body" = some (.arr list items) := by
    rw [hnode] at hbody
    simp only [require] at hbody
    split at hbody
    · next v hv => rw [hv, Except.ok.inj hbody]
    · cases hbody
  -- a spine that fills up to the document is all there is to find, as each part has a mark of its own
  have hframed : ∀ S : Spine, S.fill items = t → S.program.mark = m → S.program.key = "body" →
      "body" ∉ S.program.before.map Prod.fst → "body" ∉ S.program.after.map Prod.fst →
      Framed S items { root := t, program := m, dialect := Workspace.dialectOf t, fresh := fresh } := by
    intro S hfill hm hkey hfirst hlast
    have hperm := S.marks_fill items
    rw [hfill] at hperm
    have hnodup := nodup_append'.mp (hperm.nodup_iff.mp hd)
    have hinner : ∀ x ∈ items ++ S.parts, Inner S.marks fresh x := fun x hx m hm =>
      have hmem := mem_flatMap.mpr ⟨x, hx, hm⟩
      ⟨fun h => hnodup.2.2 h hmem, hb m (hperm.mem_iff.mpr (mem_append_right _ hmem))⟩
    exact ⟨hfill.symm, hm.symm, hkey, hfirst, hlast, hnodup.1,
      fun m hm => hb m (hperm.mem_iff.mpr (mem_append_left _ hm)),
      fun x hx => hinner x (mem_append_right _ hx), fun x hx => hinner x (mem_append_left _ hx), by simp⟩
  rcases hwhere with rfl | ⟨k, fs, rfl, hprogram⟩
  · obtain ⟨F, hm, hkey, heq, hfirst, hlast⟩ := Frame.exists_plug m ((keyed_obj _ _).mp hk).1 hget
    exact ⟨⟨[], F, list⟩, hframed _ heq.symm hm hkey hfirst hlast⟩
  · have hkeys := (keyed_obj _ _).mp hk
    have hkeyed := (keyed_obj _ _).mp (hkeys.2 _ (Table.mem_of_get? hprogram))
    obtain ⟨F, hm, hkey, heq, hfirst, hlast⟩ := Frame.exists_plug m hkeyed.1 hget
    obtain ⟨G, _, _, hfile, _, _⟩ := Frame.exists_plug k hkeys.1 hprogram
    exact ⟨⟨[G], F, list⟩, hframed _ (by rw [hfile, heq]; rfl) hm hkey hfirst hlast⟩

end Opening

end DebugGuards
