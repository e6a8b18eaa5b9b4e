import DebugGuards.Proofs.Workspace.Framed

/-! Two workspaces that differ in constants. The second document is the first one but for the
values of constants that both have among their statements, made in the same places and under
the same marks. The marks of the constants are at least `base` and those of anything else
that is ever looked up or edited are less, so nothing that is read differs, and what is done to
one is done to the other. -/

namespace DebugGuards

open DebugGuards.Tree Node List
open Workspace (declared part? deref node keep_fresh keep_root inPlace spliceAt bindings)

section Copies

variable {α : Type}

theorem settleItems_copy_of {ts : List (Tree α)}
    (ht : ∀ t ∈ ts, ∀ n : ℕ, (t.copy.settle n).2 = n + t.marks.length ∧
      (t.copy.settle n).1.marks = List.range' n t.marks.length) (n : ℕ) :
    (settleItems n (ts.map copy)).2 = n + (ts.flatMap marks).length ∧
      (settleItems n (ts.map copy)).1.flatMap marks = List.range' n (ts.flatMap marks).length := by
  induction ts generalizing n with
  | nil => simp [settleItems]
  | cons t ts ih =>
    rw [forall_mem_cons] at ht
    obtain ⟨hnext, hmarks⟩ := ht.1 n
    obtain ⟨hnext', hmarks'⟩ := ih ht.2 (n + t.marks.length)
    simp only [map_cons, settleItems, flatMap_cons, length_append]
    rw [hnext]
    refine ⟨by rw [hnext', Nat.add_assoc], ?_⟩
    rw [hmarks', hmarks, range'_append_1]

theorem settle_copy (t : Tree α) (n : ℕ) :
    (t.copy.settle n).2 = n + t.marks.length ∧ (t.copy.settle n).1.marks = List.range' n t.marks.length := by
  induction t using induct generalizing n with
  | scalar s => simp [copy, settle, marks]
  | arr m items ih =>
    obtain ⟨hnext, hmarks⟩ := settleItems_copy_of ih (n + 1)
    have hcopy : (Tree.arr m items).copy = .arr none (items.map copy) := map_arr _ _ _
    simp only [hcopy, settle, takeMark, marks, marksItems_eq, length_cons, range'_succ]
    exact ⟨by rw [hnext, Nat.add_assoc, Nat.add_comm 1], by rw [hmarks]⟩
  | obj m fields ih =>
    have hfields : ∀ t ∈ fields.map Prod.snd, ∀ n : ℕ, (t.copy.settle n).2 = n + t.marks.length ∧
        (t.copy.settle n).1.marks = List.range' n t.marks.length := by
      intro t ht
      obtain ⟨e, he, rfl⟩ := mem_map.mp ht
      exact ih e he
    obtain ⟨hnext, hmarks⟩ := settleItems_copy_of hfields (n + 1)
    have hcopy : (Tree.obj m fields).copy = .obj none (Table.mapValues copy fields) := map_obj _ _ _
    have hvalues : (Table.mapValues copy fields).map Prod.snd = (fields.map Prod.snd).map copy := by
      simp [Table.mapValues]
    have hlen : ((Table.mapValues copy fields).map Prod.fst).length =
        (settleItems (n + 1) ((fields.map Prod.snd).map copy)).1.length := by
      rw [settleItems_length]
      simp [Table.mapValues]
    simp only [hcopy, settle, takeMark, settleFields_eq, hvalues, marks, marksFields_eq,
      map_snd_zip (Nat.le_of_eq hlen.symm), length_cons, range'_succ]
    exact ⟨by rw [hnext, Nat.add_assoc, Nat.add_comm 1], by rw [hmarks]⟩

theorem settleItems_copy (ts : List (Tree α)) (n : ℕ) :
    (settleItems n (ts.map copy)).2 = n + (ts.flatMap marks).length ∧
      (settleItems n (ts.map copy)).1.flatMap marks = List.range' n (ts.flatMap marks).length :=
  settleItems_copy_of (fun t _ => settle_copy t) n

end Copies

/-- The constant `name` with the value `i`, its parts marked from `n` on. -/
def constantAt (dialect : Dialect) (n : Mark) (name : Json) (i : Int) : Tree Mark :=
  ((constant name (dialect.literal (.int i))).copy.settle n).1

section Constants

variable {dialect : Dialect} {n : Mark} {name : Json}

/-- The number of parts of a constant does not depend on the value. -/
theorem length_marks_constant (dialect : Dialect) (name : Json) (i j : Int) :
    (constant name (dialect.literal (.int i))).marks.length =
      (constant name (dialect.literal (.int j))).marks.length := by
  cases dialect <;> rfl

theorem marks_constantAt (dialect : Dialect) (n : Mark) (name : Json) (i : Int) :
    (constantAt dialect n name i).marks =
      List.range' n (constant name (dialect.literal (.int i))).marks.length := (settle_copy _ n).2

theorem marks_constantAt_congr (i j : Int) :
    (constantAt dialect n name i).marks = (constantAt dialect n name j).marks := by
  rw [marks_constantAt, marks_constantAt, length_marks_constant dialect name i j]

theorem declared_constantAt (i j : Int) :
    declared (constantAt dialect n name i) = declared (constantAt dialect n name j) := by
  cases dialect <;> rfl

end Constants

/-- One constant with two values that `P` relates, made after `base`. -/
def Differ (P : Int → Int → Prop) (dialect : Dialect) (base : Mark) (x y : Tree Mark) : Prop :=
  ∃ (n : Mark) (name : Json) (i j : Int), (base : ℕ) ≤ n ∧ P i j ∧ x = constantAt dialect n name i ∧
    y = constantAt dialect n name j

namespace Differ

variable {P : Int → Int → Prop} {dialect : Dialect} {base : Mark} {x y : Tree Mark} (h : Differ P dialect base x y)

include h

theorem ref_eq : y.ref = x.ref := by
  obtain ⟨n, name, i, j, _, _, rfl, rfl⟩ := h
  rfl

theorem marks_eq : y.marks = x.marks := by
  obtain ⟨n, name, i, j, _, _, rfl, rfl⟩ := h
  exact marks_constantAt_congr j i

theorem le_mark {m : Mark} (hm : m ∈ x.marks) : (base : ℕ) ≤ m := by
  obtain ⟨n, name, i, j, hn, _, rfl, rfl⟩ := h
  rw [marks_constantAt, mem_range'_1] at hm
  exact Nat.le_trans hn hm.1

theorem declared_eq : declared y = declared x := by
  obtain ⟨n, name, i, j, _, _, rfl, rfl⟩ := h
  exact declared_constantAt j i

theorem not_import : hasKind x "ImportDeclaration" = false ∧ hasKind y "ImportDeclaration" = false := by
  obtain ⟨n, name, i, j, _, _, rfl, rfl⟩ := h
  exact ⟨rfl, rfl⟩

end Differ

/-- A statement of two documents. -/
inductive Both
  | shared (x : Tree Mark)
  | constants (x y : Tree Mark)

namespace Both

def left : Both → Tree Mark
  | shared x | constants x _ => x

def right : Both → Tree Mark
  | shared x | constants _ x => x

/-- The constant of the first document. -/
def constant? : Both → Option (Tree Mark)
  | shared _ => none
  | constants x _ => some x

/-- An edit of a part of what is shared. -/
def edit (m : Mark) (f : Tree Mark → Tree Mark) : Both → Both
  | shared x => shared (x.edit m f)
  | constants x y => constants x y

variable {P : Int → Int → Prop} {dialect : Dialect} {base m : Mark} {f : Tree Mark → Tree Mark} {e : Both}

/-- What is shared is marked before `base`, and the rest are constants made after it. -/
def Fits (P : Int → Int → Prop) (dialect : Dialect) (base : Mark) : Both → Prop
  | shared x => ∀ m, x.ref = .part m → (m : ℕ) < base
  | constants x y => Differ P dialect base x y

section

variable (he : e.Fits P dialect base)
include he

theorem Fits.ref_eq : e.right.ref = e.left.ref := by
  cases e with
  | shared x => rfl
  | constants x y => exact Differ.ref_eq he

theorem Fits.marks_eq : e.right.marks = e.left.marks := by
  cases e with
  | shared x => rfl
  | constants x y => exact Differ.marks_eq he

theorem Fits.declared_eq : declared e.right = declared e.left := by
  cases e with
  | shared x => rfl
  | constants x y => exact Differ.declared_eq he

theorem Fits.hasKind_import : hasKind e.right "ImportDeclaration" = hasKind e.left "ImportDeclaration" := by
  cases e with
  | shared x => rfl
  | constants x y => exact (Differ.not_import he).2.trans (Differ.not_import he).1.symm

/-- Parts marked before `base` are the same in both. -/
theorem Fits.find?_eq (hm : (m : ℕ) < base) : e.right.find? m = e.left.find? m := by
  cases e with
  | shared x => rfl
  | constants x y =>
    have hx : m ∉ x.marks := fun h => absurd (Differ.le_mark he h) (Nat.not_le.mpr hm)
    have hy : m ∉ y.marks := Differ.marks_eq he ▸ hx
    exact (find?_eq_none hy).trans (find?_eq_none hx).symm

theorem Fits.left_edit (hm : (m : ℕ) < base) : (e.edit m f).left = e.left.edit m f := by
  cases e with
  | shared x => rfl
  | constants x y => exact (edit_of_not_mem fun h => absurd (Differ.le_mark he h) (Nat.not_le.mpr hm)).symm

theorem Fits.right_edit (hm : (m : ℕ) < base) : (e.edit m f).right = e.right.edit m f := by
  cases e with
  | shared x => rfl
  | constants x y =>
    exact (edit_of_not_mem fun h => absurd (Differ.le_mark he (Differ.marks_eq he ▸ h)) (Nat.not_le.mpr hm)).symm

theorem Fits.edit (hf : ∀ t, (f t).ref = t.ref) : (e.edit m f).Fits P dialect base := by
  cases e with
  | shared x =>
    intro k hk
    rw [edit_ref hf] at hk
    exact he k hk
  | constants x y => exact he

end

theorem splice_map {l : List Both} (hl : ∀ e ∈ l, e.right.ref = e.left.ref) (k : Mark) (r : Ref) (new : List Both) :
    let l' := l.takeWhile (·.left.ref ≠ r) ++ new ++ (l.dropWhile (·.left.ref ≠ r)).drop 1
    Tree.splice r (new.map left) (.arr k (l.map left)) = .arr k (l'.map left) ∧
      Tree.splice r (new.map right) (.arr k (l.map right)) = .arr k (l'.map right) := by
  have hwhile : l.takeWhile (·.right.ref ≠ r) = l.takeWhile (·.left.ref ≠ r) ∧
      l.dropWhile (·.right.ref ≠ r) = l.dropWhile (·.left.ref ≠ r) := by
    induction l with
    | nil => exact ⟨rfl, rfl⟩
    | cons e l ih =>
      rw [forall_mem_cons] at hl
      simp only [takeWhile_cons, dropWhile_cons, hl.1, ih hl.2, and_self]
  simp only [Tree.splice, takeWhile_map, dropWhile_map, Function.comp_def, map_append, map_drop,
    hwhile, and_self]

theorem constant?_edit (e : Both) : (e.edit m f).constant? = e.constant? := by cases e <;> rfl

end Both

/-- One constant with two values, not marked yet. -/
def SameConstant (P : Int → Int → Prop) (dialect : Dialect) (c c' : Json) : Prop :=
  ∃ (name : Json) (i j : Int), P i j ∧ c = constant name (dialect.literal (.int i)) ∧
    c' = constant name (dialect.literal (.int j))

section Bindings

variable {w : Workspace}

/-- The bindings are read off the names that the statements declare and their paths. -/
theorem Workspace.bindings_of_statements {items : List (Tree Mark)} (hw : w.statements = .ok items) :
    w.bindings = (items.map fun x => (declared x, w.statementPath x)).foldlM (fun table (q : _ × Path) => do
      (← q.1).foldlM (fun table (name, kind) => do
        return Table.set table (← name.asKey) ⟨name, kind, q.2⟩) table) [] := by
  rw [bindings, hw, foldlM_map]
  rfl

theorem foldlM_induct {ε α β : Type} {f : β → α → Except ε β} {I : β → Prop} {l : List α}
    (hf : ∀ b a b', a ∈ l → I b → f b a = .ok b' → I b') {b b' : β} (hb : I b) (h : l.foldlM f b = .ok b') : I b' := by
  induction l generalizing b with
  | nil => cases h; exact hb
  | cons a l ih =>
    rw [foldlM_cons] at h
    cases hx : f b a with
    | error e => rw [hx] at h; cases h
    | ok c =>
      rw [hx] at h
      exact ih (fun b a b' ha => hf b a b' (mem_cons_of_mem _ ha)) (hf b a c mem_cons_self hb hx) h

theorem Workspace.path_of_binding {items : List (Tree Mark)} (hw : w.statements = .ok items)
    {table : Table Scalar Binding}
    (hb : w.bindings = .ok table) {k : Scalar} {b : Binding} (hget : Table.get? table k = some b) :
    ∃ x ∈ items, b.path = w.statementPath x := by
  have hall : ∀ b ∈ table.map Prod.snd, ∃ x ∈ items, b.path = w.statementPath x := by
    rw [bindings, hw] at hb
    refine foldlM_induct (I := fun table => ∀ b ∈ table.map Prod.snd, ∃ x ∈ items, b.path = w.statementPath x)
      (fun table x table' hx hI h => ?_) (by simp) hb
    cases hd : declared x with
    | error e => rw [hd] at h; cases h
    | ok names =>
      rw [hd] at h
      refine foldlM_induct (I := fun table => ∀ b ∈ table.map Prod.snd, ∃ x ∈ items, b.path = w.statementPath x)
        (fun table q table' _ hI h => ?_) hI h
      obtain ⟨name, kind⟩ := q
      cases hk : name.asKey with
      | error e => simp only [hk] at h; cases h
      | ok key =>
        simp only [hk] at h
        cases h
        intro b hb
        rcases Table.mem_values_set hb with h | rfl
        · exact hI b h
        · exact ⟨x, hx, rfl⟩
  exact hall b (mem_map_of_mem (Table.mem_of_get? hget))

end Bindings

/-- The second workspace is the first one but for the values of constants. -/
structure Twins (P : Int → Int → Prop) (base : Mark) (S : Spine) (es : List Both) (w w' : Workspace) : Prop where
  framed : Framed S (es.map Both.left) w
  other : w' = { w with root := S.fill (es.map Both.right) }
  way : ∀ m ∈ S.marks, (m : ℕ) < base
  base_le : (base : ℕ) ≤ w.fresh
  fits : ∀ e ∈ es, e.Fits P w.dialect base
  apart : ((es.filterMap Both.constant?).flatMap marks).Nodup

/-- A framed workspace is its own twin. -/
theorem Framed.twins {w : Workspace} {S : Spine} {items : List (Tree Mark)} (hf : Framed S items w)
    (P : Int → Int → Prop) :
    Twins P w.fresh S (items.map .shared) w w := by
  have hleft : (items.map Both.shared).map Both.left = items := by simp [Both.left, Function.comp_def]
  have hright : (items.map Both.shared).map Both.right = items := by simp [Both.right, Function.comp_def]
  refine ⟨by rw [hleft]; exact hf, by rw [hright, ← hf.root], hf.below, Nat.le_refl _, fun e he => ?_, ?_⟩
  · obtain ⟨x, hx, rfl⟩ := mem_map.mp he
    exact fun m hm => (hf.items x hx m (mem_marks_of_ref hm)).2
  · simp [Both.constant?, Function.comp_def]

namespace Twins

variable {P : Int → Int → Prop} {base m : Mark} {S : Spine} {es : List Both} {w w' : Workspace} {p : Path}

theorem framed_right (h : Twins P base S es w w') : Framed S (es.map Both.right) w' := by
  have hf := h.framed
  rw [h.other]
  refine ⟨rfl, hf.program, hf.key, hf.first, hf.last, hf.nodup, hf.below, hf.parts, fun x hx => ?_, hf.loose⟩
  obtain ⟨e, he, rfl⟩ := mem_map.mp hx
  refine (hf.items e.left (mem_map_of_mem he)).of_subset ?_
  rw [(h.fits e he).marks_eq]
  exact List.Subset.refl _

section Reading

section

variable (h : Twins P base S es w w')
include h

theorem part?_eq (hm : m ∉ S.marks) (hb : (m : ℕ) < base) : w'.part? m = w.part? m := by
  have hitems : (es.map Both.right).findSome? (Tree.find? m) = (es.map Both.left).findSome? (Tree.find? m) := by
    have hmap : es.map (Tree.find? m ∘ Both.right) = es.map (Tree.find? m ∘ Both.left) :=
      map_congr_left fun e he => (h.fits e he).find?_eq hb
    simpa [findSome?_map, Function.comp_def] using congrArg (List.findSome? id) hmap
  have hroot : w'.root.find? m = w.root.find? m := by
    rw [h.framed_right.root, h.framed.root]
    exact Spine.find?_fill_congr hm hitems
  rw [part?, hroot, h.other]
  rfl

theorem deref_eq {r : Ref} (hr : InnerRef S.marks base r) : w'.deref r = w.deref r := by
  cases r with
  | scalar s => rfl
  | part m => rw [deref, h.part?_eq (hr m rfl).1 (hr m rfl).2, deref]

theorem path_eq (i : PathId) : w'.path i = w.path i := by rw [h.other]; rfl

theorem node_eq {i : PathId} (hi : InnerRef S.marks base (w.path i).node) : w'.node i = w.node i := by
  rw [node, h.path_eq, h.deref_eq hi, node]

theorem statementPath_eq {e : Both} (he : e ∈ es) : w'.statementPath e.right = w.statementPath e.left := by
  rw [h.framed_right.statementPath, h.framed.statementPath, (h.fits e he).ref_eq, h.other]

theorem bindings_eq : w'.bindings = w.bindings := by
  rw [Workspace.bindings_of_statements h.framed_right.statements,
    Workspace.bindings_of_statements h.framed.statements, List.map_map, List.map_map]
  congr 1
  exact map_congr_left fun e he => Prod.ext (h.fits e he).declared_eq (h.statementPath_eq he)

theorem importPaths_eq : w'.importPaths = w.importPaths := by
  have hfilter : es.filter ((fun x => hasKind x "ImportDeclaration") ∘ Both.right) =
      es.filter ((fun x => hasKind x "ImportDeclaration") ∘ Both.left) :=
    filter_congr fun e he => (h.fits e he).hasKind_import
  have hpaths : ((es.map Both.right).filter fun x => hasKind x "ImportDeclaration").map w'.statementPath =
      ((es.map Both.left).filter fun x => hasKind x "ImportDeclaration").map w.statementPath := by
    rw [filter_map, filter_map, List.map_map, List.map_map, hfilter]
    exact map_congr_left fun e he => h.statementPath_eq (mem_filter.mp he).1
  rw [Workspace.importPaths, h.framed_right.statements, Workspace.importPaths, h.framed.statements]
  exact congrArg Except.ok hpaths

end

end Reading

section Changing

section

variable (h : Twins P base S es w w')
include h

theorem paths (ps : Array Path) : Twins P base S es { w with paths := ps } { w' with paths := ps } :=
  ⟨h.framed.paths ps, by rw [h.other], h.way, h.base_le, h.fits, h.apart⟩

theorem grow {n : Mark} (hn : (w.fresh : ℕ) ≤ n) : Twins P base S es { w with fresh := n } { w' with fresh := n } :=
  ⟨h.framed.grow hn, by rw [h.other], h.way, Nat.le_trans h.base_le hn, h.fits, h.apart⟩

theorem keep {x : Tree Mark} (hx : Inner S.marks w.fresh x) : Twins P base S es (w.keep x) (w'.keep x) := by
  refine ⟨h.framed.keep hx, ?_, h.way, by rw [keep_fresh]; exact h.base_le,
    by rw [Workspace.keep_dialect]; exact h.fits, h.apart⟩
  rw [h.other]
  cases x <;> rfl

theorem settle (d : Draft) : (w'.settle d).1 = (w.settle d).1 ∧ Twins P base S es (w.settle d).2 (w'.settle d).2 := by
  have hfresh : w'.fresh = w.fresh := by rw [h.other]
  simp only [Workspace.settle, hfresh, true_and]
  exact h.grow (marks_settle d w.fresh).1

theorem editPart (hm : m ∉ S.marks) (hb : (m : ℕ) < base) {f : Tree Mark → Tree Mark}
    (hin : ∀ y, Inner S.marks w.fresh y → Inner S.marks w.fresh (f y)) (hf : ∀ t, (f t).ref = t.ref) :
    Twins P base (S.edit m f) (es.map (Both.edit m f)) (w.editPart m f) (w'.editPart m f) := by
  have hleft : (es.map (Both.edit m f)).map Both.left = (es.map Both.left).map (Tree.edit m f) := by
    rw [List.map_map, List.map_map]
    exact map_congr_left fun e he => (h.fits e he).left_edit hb
  have hright : (es.map (Both.edit m f)).map Both.right = (es.map Both.right).map (Tree.edit m f) := by
    rw [List.map_map, List.map_map]
    exact map_congr_left fun e he => (h.fits e he).right_edit hb
  refine ⟨hleft ▸ h.framed.editPart hm hin, ?_, by rw [Spine.marks_edit]; exact h.way, h.base_le, fun e he => ?_, ?_⟩
  · rw [hright, ← Spine.edit_fill hm, h.other]
    rfl
  · obtain ⟨e', he', rfl⟩ := mem_map.mp he
    exact (h.fits e' he').edit hf
  · rw [filterMap_map, show Both.constant? ∘ Both.edit m f = Both.constant? from funext Both.constant?_edit]
    exact h.apart

theorem setPartField (hm : m ∉ S.marks) (hb : (m : ℕ) < base) {key : String} {d : Draft}
    (hd : InnerDraft S.marks w.fresh d) :
    ∃ S' es', S'.marks = S.marks ∧ Twins P base S' es' (w.setPartField m key d) (w'.setPartField m key d) := by
  have hold : ((w'.part? m).bind fun t => Table.get? t.fields key).getD .null =
      ((w.part? m).bind fun t => Table.get? t.fields key).getD .null := by rw [h.part?_eq hm hb]
  have hfield : Inner S.marks w.fresh (((w.part? m).bind fun t => Table.get? t.fields key).getD .null) :=
    h.framed.field_inner (.inl hm)
  have hk := h.keep hfield
  have hx := (hk.framed.settle (d := d) (by rw [keep_fresh]; exact hd)).2
  obtain ⟨hval, hs⟩ := hk.settle d
  rw [Workspace.setPartField, Workspace.setPartField, hold]
  simp only [hval]
  exact ⟨_, _, Spine.marks_edit .., hs.editPart hm hb (fun y hy => hx.setField key hy) (setField_ref key _)⟩

/-- The statements changed: some of them are left out and others put in between. -/
theorem editList {f f' : Tree Mark → Tree Mark} {as bs new : List Both} (hsub : (as ++ bs).Sublist es)
    (hl : f (.arr S.list (es.map Both.left)) = .arr S.list ((as ++ new ++ bs).map Both.left))
    (hr : f' (.arr S.list (es.map Both.right)) = .arr S.list ((as ++ new ++ bs).map Both.right))
    (hnew : ∀ e ∈ new, e.Fits P w.dialect base ∧ Inner S.marks w.fresh e.left)
    (hnodup : ((new.filterMap Both.constant?).flatMap marks).Nodup)
    (hdisj : List.Disjoint ((new.filterMap Both.constant?).flatMap marks)
      ((es.filterMap Both.constant?).flatMap marks)) :
    Twins P base S (as ++ new ++ bs) (w.editPart S.list f) (w'.editPart S.list f') := by
  have hmem : ∀ e ∈ as ++ new ++ bs, e ∈ es ∨ e ∈ new := by
    intro e he
    rw [append_assoc, mem_append, mem_append] at he
    rcases he with he | he | he
    · exact .inl (hsub.subset (mem_append_left _ he))
    · exact .inr he
    · exact .inl (hsub.subset (mem_append_right _ he))
  have hloose : ∀ g, w.loose.map (Tree.edit S.list g) = w.loose := fun g =>
    (map_congr_left fun x hx => edit_of_not_mem fun hmem =>
      (h.framed.loose x hx _ hmem).1 mem_cons_self).trans (map_id _)
  refine ⟨h.framed.editList hl fun x hx => ?_, ?_, h.way, h.base_le, fun e he => ?_, ?_⟩
  · obtain ⟨e, he, rfl⟩ := mem_map.mp hx
    exact (hmem e he).elim (fun he => h.framed.items _ (mem_map_of_mem he)) fun he => (hnew e he).2
  · have hroot := h.framed_right.apart.edit_list hr
    rw [Workspace.editPart, h.framed_right.root, hroot, h.other]
    simp only [Workspace.editPart, hloose]
  · exact (hmem e he).elim (h.fits e) fun he => (hnew e he).1
  · have hold : ((as ++ bs).filterMap Both.constant?).flatMap marks |>.Sublist
        ((es.filterMap Both.constant?).flatMap marks) := (hsub.filterMap _).flatMap _
    have hperm : (as ++ new ++ bs).Perm (new ++ (as ++ bs)) := by
      rw [← append_assoc]
      exact perm_append_comm.append_right bs
    rw [((hperm.filterMap Both.constant?).flatMap_right marks).nodup_iff, filterMap_append, flatMap_append,
      nodup_append']
    exact ⟨hnodup, hold.nodup h.apart, fun m hm hm' => hdisj hm (hold.subset hm')⟩

end

end Changing

section Inserting

theorem exists_settled {dialect : Dialect} {cs cs' : List Json} (hc : List.Forall₂ (SameConstant P dialect) cs cs')
    {n : Mark} (hn : (base : ℕ) ≤ n) :
    (settleItems n (cs'.map copy)).2 = (settleItems n (cs.map copy)).2 ∧
      ∃ new : List Both, new.map Both.left = (settleItems n (cs.map copy)).1 ∧
        new.map Both.right = (settleItems n (cs'.map copy)).1 ∧
        new.filterMap Both.constant? = (settleItems n (cs.map copy)).1 ∧ ∀ e ∈ new, e.Fits P dialect base := by
  induction hc generalizing n with
  | nil => exact ⟨rfl, [], rfl, rfl, rfl, by simp⟩
  | cons hc _ ih =>
    obtain ⟨name, i, j, hP, rfl, rfl⟩ := hc
    have hnext : ((constant name (dialect.literal (.int j))).copy.settle n).2 =
        ((constant name (dialect.literal (.int i))).copy.settle n).2 := by
      rw [(settle_copy _ n).1, (settle_copy _ n).1, length_marks_constant dialect name i j]
    obtain ⟨hfresh, new, hl, hr, hcs, hfits⟩ := ih (n := ((constant name (dialect.literal (.int i))).copy.settle n).2)
      (Nat.le_trans hn (marks_settle _ n).1)
    simp only [map_cons, settleItems, hnext]
    refine ⟨hfresh, .constants (constantAt dialect n name i) (constantAt dialect n name j) :: new, ?_, ?_, ?_, ?_⟩
    · rw [map_cons, hl]; rfl
    · rw [map_cons, hr]; rfl
    · simp only [filterMap_cons, Both.constant?, hcs]; rfl
    · exact forall_mem_cons.mpr ⟨⟨n, name, i, j, hn, hP, rfl, rfl⟩, hfits⟩

variable {cs cs' : List Json} {i : PathId}

section

variable (h : Twins P base S es w w')
include h

theorem inPlace_eq {parent : Mark} {key : String}
    (hp : p.slot = .item parent S.list key) : w'.inPlace p = w.inPlace p := by
  have hrefs : es.map (ref ∘ Both.right) = es.map (ref ∘ Both.left) :=
    map_congr_left fun e he => (h.fits e he).ref_eq
  simp only [inPlace, hp, h.framed.part?_list, h.framed_right.part?_list]
  simpa [any_map, Function.comp_def] using congrArg (List.any · (· == p.node)) hrefs

theorem disjoint_of_le {ms : List Mark} (hms : ∀ m ∈ ms, (w.fresh : ℕ) ≤ m) :
    List.Disjoint ms ((es.filterMap Both.constant?).flatMap marks) := by
  intro m hm hm'
  obtain ⟨x, hx, hmem⟩ := mem_flatMap.mp hm'
  obtain ⟨e, he, hex⟩ := mem_filterMap.mp hx
  have hleft : e.left = x := by
    cases e with
    | shared y => cases hex
    | constants y z => exact Option.some.inj hex
  have hlt := (h.framed.items e.left (mem_map_of_mem he) m (hleft ▸ hmem)).2
  exact absurd (hms m hm) (Nat.not_le.mpr hlt)

theorem exists_new (hc : List.Forall₂ (SameConstant P w.dialect) cs cs') :
    (settleItems w.fresh (cs'.map copy)).2 = (settleItems w.fresh (cs.map copy)).2 ∧
      ∃ new : List Both, new.map Both.left = (settleItems w.fresh (cs.map copy)).1 ∧
        new.map Both.right = (settleItems w.fresh (cs'.map copy)).1 ∧
        (∀ e ∈ new, e.Fits P w.dialect base ∧ Inner S.marks (settleItems w.fresh (cs.map copy)).2 e.left) ∧
        ((new.filterMap Both.constant?).flatMap marks).Nodup ∧
        List.Disjoint ((new.filterMap Both.constant?).flatMap marks) ((es.filterMap Both.constant?).flatMap marks) := by
  obtain ⟨hfresh, new, hl, hr, hcs, hfits⟩ := exists_settled hc h.base_le
  have hmarks := (settleItems_copy cs w.fresh).2
  have hcopies : ∀ d ∈ cs.map copy, InnerDraft S.marks w.fresh d := by
    intro d hd
    obtain ⟨c, _, rfl⟩ := mem_map.mp hd
    exact innerDraft_copy c
  have hinner := (settleItems_inner hcopies h.framed.below).2
  refine ⟨hfresh, new, hl, hr, fun e he => ⟨hfits e he, hinner _ (hl ▸ mem_map_of_mem he)⟩, ?_, ?_⟩
  · rw [hcs, hmarks]
    exact nodup_range'
  · rw [hcs, hmarks]
    exact h.disjoint_of_le fun m hm => (mem_range'_1.mp hm).1

/-- Both workspaces with constants in the place of a statement, or with the same failure. -/
theorem replaceMany (hc : List.Forall₂ (SameConstant P w.dialect) cs cs') {parent : Mark}
    (hp : (w.path i).slot = .item parent S.list "body") (hr : InnerRef S.marks base (w.path i).node) :
    (∃ f, w.replaceMany i (cs.map copy) = .error f ∧ w'.replaceMany i (cs'.map copy) = .error f) ∨
      ∃ v v' es', w.replaceMany i (cs.map copy) = .ok v ∧ w'.replaceMany i (cs'.map copy) = .ok v' ∧
        Twins P base S es' v v' ∧ v.paths = w.paths ∧ v.dialect = w.dialect := by
  have hfresh : w'.fresh = w.fresh := by rw [h.other]
  simp only [Workspace.replaceMany, h.path_eq, hp, spliceAt, h.inPlace_eq hp]
  by_cases hin : w.inPlace (w.path i) = true
  · obtain ⟨hnext, new, hnl, hnr, hnew, hnodup, hdisj⟩ := h.exists_new hc
    have hle : (w.fresh : ℕ) ≤ (settleItems w.fresh (cs.map copy)).2 := by
      rw [(settleItems_copy cs w.fresh).1]
      exact Nat.le_add_right _ _
    have hsub : (es.takeWhile (·.left.ref ≠ (w.path i).node) ++
        (es.dropWhile (·.left.ref ≠ (w.path i).node)).drop 1).Sublist es := by
      have happ := (List.Sublist.refl (es.takeWhile (·.left.ref ≠ (w.path i).node))).append
        (drop_sublist 1 (es.dropWhile (·.left.ref ≠ (w.path i).node)))
      rwa [takeWhile_append_dropWhile] at happ
    have hsplice := Both.splice_map (fun e he => (h.fits e he).ref_eq) S.list (w.path i).node new
    have hkept := (h.grow hle).keep ((h.framed.deref_inner hr).mono hle)
    have htwins := hkept.editList hsub hsplice.1 hsplice.2 (by simpa using hnew) hnodup hdisj
    rw [hnl, hnr] at htwins
    simp only [hfresh, hnext, h.deref_eq hr, if_pos hin]
    exact .inr ⟨_, _, _, rfl, rfl, htwins, by simp [Workspace.editPart], by simp [Workspace.editPart]⟩
  · left
    refine ⟨w.detachedFailure (w.path i), by rw [if_neg hin]; rfl, ?_⟩
    rw [if_neg hin, Workspace.detachedFailure, h.deref_eq hr]
    rfl

theorem insertTop {a b : Int} (hP : P a b) (name : String) :
    ∃ v v' es', w.insertTop (constant (.str name) (w.dialect.literal (.int a))) = .ok v ∧
      w'.insertTop (constant (.str name) (w'.dialect.literal (.int b))) = .ok v' ∧
      Twins P base S es' v v' ∧ v.paths = w.paths ∧ v.dialect = w.dialect := by
  have hcopy : ∀ c : Int, (constant (.str name) (w.dialect.literal (.int c)) : Draft) =
      (constant (.str name) (w.dialect.literal (.int c)) : Json).copy := by
    intro c
    cases w.dialect <;> rfl
  have hc : List.Forall₂ (SameConstant P w.dialect) [constant (.str name) (w.dialect.literal (.int a))]
      [constant (.str name) (w.dialect.literal (.int b))] := .cons ⟨.str name, a, b, hP, rfl, rfl⟩ .nil
  obtain ⟨hnext, new, hnl, hnr, hnew, hnodup, hdisj⟩ := h.exists_new hc
  have hgrown := h.grow (marks_settle (constant (.str name) (w.dialect.literal (.int a)) : Json).copy w.fresh).1
  have hpush : ∀ (t : Tree Mark) (g : Both → Tree Mark), new.map g = [t] →
      Tree.push t (.arr S.list (es.map g)) = .arr S.list (([] ++ new ++ es).map g) := by
    intro t g hg
    rw [nil_append, map_append, hg]
    rfl
  have htwins := hgrown.editList (List.Sublist.refl ([] ++ es))
    (hpush (constantAt w.dialect w.fresh (.str name) a) _ hnl)
    (hpush (constantAt w.dialect w.fresh (.str name) b) _ hnr) hnew hnodup hdisj
  have hfresh : w'.fresh = w.fresh := by rw [h.other]
  rw [show w'.dialect = w.dialect by rw [h.other]]
  simp only [Workspace.insertTop, h.framed.require_body, h.framed_right.require_body, hcopy, Workspace.settle, hfresh]
  simp only [map_cons, map_nil, settleItems] at hnext
  rw [hnext]
  exact ⟨_, _, _, rfl, rfl, htwins, rfl, rfl⟩

end

end Inserting

end Twins

/-- One statement, or one constant made after `base` whose two values `P` relates. A constant that has the
name of a helper may have been given a source. -/
inductive Twin (P : Int → Int → Prop) (dialect : Dialect) (base : Mark) : Tree Mark → Tree Mark → Prop
  | same (x : Tree Mark) : Twin P dialect base x x
  | constant {n : Mark} {i j : Int} (name : Json) (hn : (base : ℕ) ≤ n) (hP : P i j) :
      Twin P dialect base (constantAt dialect n name i) (constantAt dialect n name j)
  | redirected {n : Mark} {i j : Int} (name : Json) (v : Tree Mark) (hn : (base : ℕ) ≤ n) (hP : P i j) :
      Twin P dialect base (setField "source" v (constantAt dialect n name i))
        (setField "source" v (constantAt dialect n name j))

/-- Two documents that are one but for the values of constants among the statements. -/
def DifferInConstants (P : Int → Int → Prop) (dialect : Dialect) (base : Mark) (t t' : Tree Mark) : Prop :=
  t' = t ∨ ∃ (S : Spine) (items items' : List (Tree Mark)), S.program.key = "body" ∧ t = S.fill items ∧
    t' = S.fill items' ∧ List.Forall₂ (Twin P dialect base) items items'

theorem Twin.mono {P : Int → Int → Prop} {dialect : Dialect} {base base' : Mark} (hb : (base' : ℕ) ≤ base)
    {x y : Tree Mark} (h : Twin P dialect base x y) : Twin P dialect base' x y := by
  cases h with
  | same => exact .same x
  | constant name hn hP => exact .constant name (Nat.le_trans hb hn) hP
  | redirected name v hn hP => exact .redirected name v (Nat.le_trans hb hn) hP

theorem DifferInConstants.mono {P : Int → Int → Prop} {dialect : Dialect} {base base' : Mark} (hb : (base' : ℕ) ≤ base)
    {t t' : Tree Mark} (h : DifferInConstants P dialect base t t') : DifferInConstants P dialect base' t t' := by
  obtain rfl | ⟨S, items, items', hkey, rfl, rfl, hall⟩ := h
  · exact .inl rfl
  · exact .inr ⟨S, items, items', hkey, rfl, rfl, hall.imp fun _ _ => Twin.mono hb⟩

section Leaving

variable {P : Int → Int → Prop} {dialect : Dialect} {base m : Mark} {S : Spine} {es : List Both} {w w' : Workspace}
  {i : PathId} {e : Both}

theorem Both.Fits.twin (he : e.Fits P dialect base) : Twin P dialect base e.left e.right := by
  cases e with
  | shared x => exact .same x
  | constants x y =>
    obtain ⟨n, name, i, j, hn, hP, rfl, rfl⟩ := he
    exact .constant name hn hP

theorem forall₂_twin {l : List Both} {f : Tree Mark → Tree Mark}
    (hl : ∀ e ∈ l, Twin P dialect base (f e.left) (f e.right)) :
    List.Forall₂ (Twin P dialect base) ((l.map Both.left).map f) ((l.map Both.right).map f) := by
  rw [List.map_map, List.map_map, forall₂_map_left_iff, forall₂_map_right_iff]
  exact forall₂_same.mpr hl

/-- Any selection of the statements. -/
theorem Twins.differ_of_subset (h : Twins P base S es w w') {l : List Both} (hl : l ⊆ es) :
    DifferInConstants P w.dialect base (S.fill (l.map Both.left)) (S.fill (l.map Both.right)) := by
  have htwin := forall₂_twin (f := id) fun e he => (h.fits e (hl he)).twin
  rw [map_id, map_id] at htwin
  exact .inr ⟨S, _, _, h.framed.key, rfl, rfl, htwin⟩

theorem Twins.differ (h : Twins P base S es w w') : DifferInConstants P w.dialect base w.root w'.root := by
  rw [h.framed.root, h.framed_right.root]
  exact h.differ_of_subset (List.Subset.refl es)

theorem Twins.remove (h : Twins P base S es w w') {parent : Mark} (hp : (w.path i).slot = .item parent S.list "body")
    (he : e ∈ es) (hr : (w.path i).node = e.left.ref) :
    ∃ v v', w.remove i = .ok v ∧ w'.remove i = .ok v' ∧ DifferInConstants P w.dialect base v.root v'.root ∧
      v'.fresh = v.fresh := by
  have hin : w.inPlace (w.path i) = true := by
    simp only [inPlace, hp, h.framed.part?_list, any_map, any_eq_true, Function.comp_apply]
    exact ⟨e, he, by rw [hr, beq_self_eq_true]⟩
  have hsplice := Both.splice_map (fun e he => (h.fits e he).ref_eq) S.list (w.path i).node []
  have hmem : es.takeWhile (·.left.ref ≠ (w.path i).node) ++ [] ++
      (es.dropWhile (·.left.ref ≠ (w.path i).node)).drop 1 ⊆ es := by
    intro e he
    rw [append_nil, mem_append] at he
    exact he.elim (fun he => (takeWhile_sublist _).subset he)
      fun he => (dropWhile_sublist _).subset (mem_of_mem_drop he)
  have hdiffer := h.differ_of_subset hmem
  rw [← h.framed.apart.edit_list hsplice.1, ← h.framed_right.apart.edit_list hsplice.2, ← h.framed.root,
    ← h.framed_right.root] at hdiffer
  simp only [Workspace.remove, h.path_eq, hp, spliceAt, h.inPlace_eq hp, if_pos hin]
  refine ⟨_, _, rfl, rfl, ?_, ?_⟩
  · simp only [Workspace.editPart, keep_root]
    exact hdiffer
  · simp only [Workspace.editPart, keep_fresh, h.other, settleItems]

/-- A mark under which there are no parts of constants but constants themselves. -/
def Tops (es : List Both) (m : Mark) : Prop := ∀ x y, .constants x y ∈ es → m ∈ x.marks → x.ref = .part m

theorem Twins.tops (h : Twins P base S es w w') (he : e ∈ es) (hm : e.left.ref = .part m) : Tops es m := by
  intro x y hx hmem
  cases e with
  | shared z => exact absurd (Differ.le_mark (h.fits _ hx) hmem) (Nat.not_le.mpr (h.fits _ he m hm))
  | constants z z' =>
    have hpair := (nodup_flatMap.mp h.apart).2
    have hz : z ∈ es.filterMap Both.constant? := mem_filterMap.mpr ⟨_, he, rfl⟩
    have hx : x ∈ es.filterMap Both.constant? := mem_filterMap.mpr ⟨_, hx, rfl⟩
    rw [eq_of_mem_of_mem hpair hx hz hmem (mem_marks_of_ref hm)]
    exact hm

/-- The same is found on both sides, or an object each. -/
def SameFind (a b : Option (Tree Mark)) : Prop :=
  b = a ∨ ∃ m fs gs, a = some (.obj m fs) ∧ b = some (.obj m gs)

namespace SameFind

variable {a b c : Option (Tree Mark)}

theorem or_right (h : SameFind a b) (c : Option (Tree Mark)) : SameFind (a.or c) (b.or c) := by
  obtain rfl | ⟨m, fs, gs, rfl, rfl⟩ := h
  · exact .inl rfl
  · exact .inr ⟨m, fs, gs, rfl, rfl⟩

theorem or_left (h : SameFind a b) (c : Option (Tree Mark)) : SameFind (c.or a) (c.or b) := by
  cases c with
  | none => exact h
  | some x => exact .inl rfl

theorem findSome? (l : List Both) (hl : ∀ e ∈ l, SameFind (e.left.find? m) (e.right.find? m)) :
    SameFind ((l.map Both.left).findSome? (Tree.find? m)) ((l.map Both.right).findSome? (Tree.find? m)) := by
  induction l with
  | nil => exact .inl rfl
  | cons e l ih =>
    rw [forall_mem_cons] at hl
    rw [map_cons, map_cons, findSome?_cons, findSome?_cons]
    obtain heq | ⟨k, fs, gs, hf, hg⟩ := hl.1
    · rw [heq]
      cases e.left.find? m with
      | none => exact ih hl.2
      | some x => exact .inl rfl
    · rw [hf, hg]
      exact .inr ⟨k, fs, gs, rfl, rfl⟩

theorem fill {items items' : List (Tree Mark)} (hm : m ∉ S.marks)
    (hi : SameFind (items.findSome? (Tree.find? m)) (items'.findSome? (Tree.find? m))) :
    SameFind ((S.fill items).find? m) ((S.fill items').find? m) := by
  simp only [Spine.marks, mem_cons, not_or] at hm
  have hprogram : SameFind ((S.programWith items).find? m) ((S.programWith items').find? m) := by
    rw [Spine.programWith, Frame.find?_plug _ hm.2.1, Spine.programWith, Frame.find?_plug _ hm.2.1,
      find?_below rfl hm.1, find?_below rfl hm.1]
    exact (hi.or_right _).or_left _
  rw [Spine.fill, Spine.fill]
  have houter := hm.2.2
  generalize S.outer = Fs at houter
  induction Fs with
  | nil => exact hprogram
  | cons F Fs ih =>
    simp only [map_cons, mem_cons, not_or] at houter
    rw [wrapIn, Frame.find?_plug _ houter.1, wrapIn, Frame.find?_plug _ houter.1]
    exact ((ih houter.2).or_right _).or_left _

end SameFind

theorem Twins.sameFind (h : Twins P base S es w w') (hm : m ∉ S.marks) (ht : Tops es m) :
    SameFind (w.part? m) (w'.part? m) := by
  have heach : ∀ e ∈ es, SameFind (e.left.find? m) (e.right.find? m) := by
    intro e he
    cases e with
    | shared x => exact .inl rfl
    | constants x y =>
      have hxy : Differ P w.dialect base x y := h.fits _ he
      by_cases hmem : m ∈ x.marks
      · have hx := ht x y he hmem
        rw [Both.left, Both.right, find?_self hx, find?_self (hxy.ref_eq.trans hx)]
        obtain ⟨n, name, i, j, hn, hP, rfl, rfl⟩ := hxy
        exact .inr ⟨_, _, _, rfl, rfl⟩
      · rw [Both.left, Both.right, find?_eq_none hmem, find?_eq_none (hxy.marks_eq ▸ hmem)]
        exact .inl rfl
  rw [part?, part?, h.framed.root, h.framed_right.root, h.other]
  exact (SameFind.fill hm (.findSome? es heach)).or_right _

/-- A source set on both sides. -/
theorem Twins.twin_edit (h : Twins P base S es w w') (ht : Tops es m) (v : Tree Mark) (he : e ∈ es) :
    Twin P w.dialect base (e.left.edit m (setField "source" v)) (e.right.edit m (setField "source" v)) := by
  cases e with
  | shared x => exact .same _
  | constants x y =>
    have hxy : Differ P w.dialect base x y := h.fits _ he
    by_cases hmem : m ∈ x.marks
    · have hx := ht x y he hmem
      rw [Both.left, Both.right, edit_self hx, edit_self (hxy.ref_eq.trans hx)]
      obtain ⟨n, name, i, j, hn, hP, rfl, rfl⟩ := hxy
      exact .redirected name v hn hP
    · rw [Both.left, Both.right, edit_of_not_mem hmem, edit_of_not_mem (hxy.marks_eq ▸ hmem)]
      exact (h.fits _ he).twin

/-- A source can be set under a path in both workspaces, and then they differ in constants. -/
def SetsSource (P : ℤ → ℤ → Prop) (base : Mark) (i : PathId) (d : Draft) (w w' : Workspace) : Prop :=
  ∃ v v', w.setField i "source" d = .ok v ∧ w'.setField i "source" d = .ok v' ∧
    DifferInConstants P w.dialect base v.root v'.root ∧ v'.fresh = v.fresh

theorem Twins.setSource (h : Twins P base S es w w') (hm : m ∉ S.marks) (ht : Tops es m)
    {fs gs : Fields Mark} (hw : w.node i = .obj m fs) (hw' : w'.node i = .obj m gs) (d : Draft) :
    SetsSource P base i d w w' := by
  have hfresh : w'.fresh = w.fresh := by rw [h.other]
  rw [SetsSource, Workspace.setField, hw, Workspace.setField, hw']
  refine ⟨_, _, rfl, rfl, ?_, by simp [Workspace.setPartField, Workspace.settle, Workspace.editPart, hfresh]⟩
  simp only [Workspace.setPartField, Workspace.settle, Workspace.editPart, keep_root, keep_fresh,
    h.framed.root, h.framed_right.root, hfresh, Spine.edit_fill hm]
  exact .inr ⟨S.edit m _, _, _, h.framed.key, rfl, rfl, forall₂_twin fun e he => h.twin_edit ht _ he⟩

/-- Both statements under one path with a source, or with the same failure. -/
theorem Twins.redirect (h : Twins P base S es w w') (he : e ∈ es) (hr : (w.path i).node = e.left.ref) (d : Draft) :
    (∃ f, w.setField i "source" d = .error f ∧ w'.setField i "source" d = .error f) ∨ SetsSource P base i d w w' := by
  have hpath : (w'.path i).node = e.left.ref := by rw [h.path_eq, hr]
  have hobj : ∀ {m fs gs}, w.node i = .obj m fs → w'.node i = .obj m gs → SetsSource P base i d w w' := by
    intro m fs gs hw hw'
    have hm : e.left.ref = .part m := hr.symm.trans (Workspace.deref_obj hw)
    exact h.setSource (h.framed.items e.left (mem_map_of_mem he) m (mem_marks_of_ref hm)).1 (h.tops he hm) hw hw' d
  have hsame : w'.node i = w.node i →
      (∃ f, w.setField i "source" d = .error f ∧ w'.setField i "source" d = .error f) ∨ SetsSource P base i d w w' := by
    intro heq
    cases hx : w.node i with
    | obj m fs => exact .inr (hobj hx (heq.trans hx))
    | scalar | arr =>
      refine .inl ⟨.badShape, ?_, ?_⟩
      · rw [Workspace.setField, hx]
      · rw [Workspace.setField, heq, hx]
  have hnode : w.node i = w.deref e.left.ref ∧ w'.node i = w'.deref e.left.ref := by
    rw [node, hr, node, hpath]
    exact ⟨rfl, rfl⟩
  cases hm : e.left.ref with
  | scalar s =>
    rw [hm] at hnode
    exact hsame (hnode.2.trans hnode.1.symm)
  | part m =>
    have hoff : m ∉ S.marks := (h.framed.items e.left (mem_map_of_mem he) m (mem_marks_of_ref hm)).1
    rw [hm, deref, deref] at hnode
    obtain heq | ⟨k, fs, gs, hf, hg⟩ := h.sameFind hoff (h.tops he hm)
    · exact hsame (by rw [hnode.1, hnode.2, heq])
    · exact .inr (hobj (hnode.1.trans (by rw [hf]; rfl)) (hnode.2.trans (by rw [hg]; rfl)))

end Leaving

end DebugGuards
