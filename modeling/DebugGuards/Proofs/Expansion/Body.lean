import DebugGuards.Proofs.Expansion.Course

/-! The body of a module in the course of its expansion, as plain statements: what a
statement becomes when the guard is resolved and when imports are inlined. There is
nothing to rewrite in an import, so an import that is not inlined is left as it was. -/

namespace DebugGuards.Expansion

open DebugGuards.Tree Node List

section Untouched

variable {c : Rewriting} {x : Tree Mark}

theorem not_drops_of_not_isStatement (hx : isStatement x = false) : c.drops x = false := by
  rw [Rewriting.drops, isExpired, hx, Bool.false_and]

theorem finish_of_not_isStatement (hx : isStatement x = false) (fs : List (String × Json)) :
    c.finish x fs = .obj () fs := by
  simp [Rewriting.finish, hx]

/-- The rewriting leaves a node as it is. -/
def Rewriting.Spares (c : Rewriting) (n : Tree Mark) : Prop := c.drops n = false ∧ ∀ fs, c.finish n fs = .obj () fs

theorem Rewriting.spares_of_not_isStatement (c : Rewriting) (hx : isStatement x = false) : c.Spares x :=
  ⟨not_drops_of_not_isStatement hx, finish_of_not_isStatement hx⟩

/-- A document all nodes of which are spared is left as it is. -/
theorem reshape_of_spared (c : Rewriting) (x : Tree Mark) :
    ((∀ n ∈ nodes x, c.Spares n) → reshape c.drops c.finish x = x.erase) ∧
    ((∀ n ∈ inside x, c.Spares n) → reshapeInside c.drops c.finish x = x.erase) := by
  have hself : ∀ y : Tree Mark, (∀ n ∈ nodes y, c.Spares n) → c.Spares y := by
    intro y hy
    cases hst : isStatement y with
    | false => exact c.spares_of_not_isStatement hst
    | true =>
      have hnode := isNode_of_isStatement hst
      exact hy y (inside_eq_nodes hnode ▸ mem_inside_self hnode)
  induction x using induct with
  | scalar s =>
    refine ⟨fun _ => by rw [reshape]; rfl, fun _ => ?_⟩
    rw [reshapeInside, if_neg (by rw [not_drops_of_not_isStatement rfl]; decide), reshape]
    · rfl
    · simp
  | arr m items ih =>
    refine ⟨fun _ => by rw [reshape], fun hn => ?_⟩
    rw [inside, nodesItems_eq] at hn
    have hitem : ∀ y ∈ items, ∀ n ∈ nodes y, c.Spares n := fun y hy n hny =>
      hn n (mem_flatMap.mpr ⟨y, hy, hny⟩)
    have hkept : items.filter (fun y => !c.drops y) = items := by
      refine filter_eq_self.mpr fun y hy => ?_
      rw [(hself y (hitem y hy)).1]
      rfl
    rw [reshapeInside, reshapeItems_eq, hkept, erase_arr]
    exact congrArg (arr ()) (map_congr_left fun y hy => (ih y hy).1 (hitem y hy))
  | obj m fields ih =>
    have hmain : (∀ n ∈ nodes (obj m fields), c.Spares n) →
        reshape c.drops c.finish (obj m fields) = (obj m fields).erase := by
      intro hn
      rw [reshape]
      split
      · next hnode =>
        rw [(hself _ hn).2, erase_obj, reshapeFields_eq]
        refine congrArg (obj ()) (map_congr_left fun e he => ?_)
        rw [reshapeSlot]
        split
        · rfl
        · next hmeta =>
          refine congrArg (Prod.mk e.1) ((ih e he).2 fun n hne => hn n ?_)
          rw [nodes, if_pos hnode]
          exact mem_cons_of_mem _ (mem_nodesFields_of he (by simpa using hmeta) hne)
      · rfl
    refine ⟨hmain, fun hn => ?_⟩
    have hn : ∀ n ∈ nodes (obj m fields), c.Spares n := hn
    rw [reshapeInside, if_neg (by rw [(hself _ hn).1]; decide)]
    · exact hmain hn
    · simp

theorem rewrite_import (c : Rewriting) (hl : Legal x) (hi : isImport x = true) : c.rewrite x = x.erase :=
  (reshape_of_spared c x).1 fun _ hn => c.spares_of_not_isStatement
    (not_isStatement_of_import hl hi (inside_eq_nodes (isNode_of_hasKind hi) ▸ hn))

end Untouched

section Blocks
variable (o : Options) (t : Tree Mark) (guard : String)

/-- The constant that is made for the guard, if one is. -/
def guardConstants : List Json :=
  if makesGuard o t then
    [constant (.str guard) ((Workspace.dialectOf t).literal
      (.int ((Table.get? o.envFlags.flags debugFlag).getD 0)))]
  else []

/-- What stands in the place of a statement once imports are inlined: the constants of
an import from a flags module, any other statement rewritten. -/
def inlinedBlock (x : Tree Mark) : List Json :=
  match flagsFor? o x with
  | some flags => constantsOf (Workspace.dialectOf t) flags x
  | none => [(rewritingOf o t guard).rewrite x]

/-- What stands in the place of a statement when only the guard is resolved. -/
def earlyBlock (x : Tree Mark) : List Json :=
  if (debugOf? o t).map ref = some x.ref then constantsOf (Workspace.dialectOf t) o.envFlags.flags x
  else [(rewritingOf o t guard).rewrite x]

variable {o t guard}

theorem imagesOf_append (es es' : List Entry) :
    imagesOf o t guard (es ++ es') = imagesOf o t guard es ++ imagesOf o t guard es' := map_append

theorem imagesOf_new (vs : List Json) : imagesOf o t guard (vs.map .new) = vs := by
  rw [imagesOf, List.map_map]
  exact map_id vs

theorem imagesOf_guardEntries : imagesOf o t guard (guardEntries o t guard) = guardConstants o t guard := by
  rw [guardEntries, guardConstants]
  split <;> rfl

theorem imagesOf_inlined (x : Tree Mark) :
    imagesOf o t guard (Entry.inlined o (Workspace.dialectOf t) (.old x)) = inlinedBlock o t guard x := by
  rw [Entry.inlined, inlinedBlock]
  cases flagsFor? o x with
  | none => rfl
  | some flags => exact imagesOf_new _

theorem imagesOf_early (x : Tree Mark) : imagesOf o t guard (earlyEntries o t x) = earlyBlock o t guard x := by
  rw [earlyEntries, earlyBlock]
  split
  · exact imagesOf_new _
  · rfl

theorem imagesOf_flatMap {f : Tree Mark → List Entry} {g : Tree Mark → List Json}
    (hf : ∀ x, imagesOf o t guard (f x) = g x) (xs : List (Tree Mark)) :
    imagesOf o t guard (xs.flatMap f) = xs.flatMap g := by
  rw [imagesOf, map_flatMap]
  exact flatMap_congr fun x _ => hf x

theorem imagesOf_inlinedEntries :
    imagesOf o t guard (inlinedEntries o t guard) =
      guardConstants o t guard ++ (remainingOf o t).flatMap (inlinedBlock o t guard) := by
  rw [inlinedEntries, imagesOf_append, imagesOf_guardEntries, imagesOf_flatMap imagesOf_inlined]

end Blocks

section Reading

variable {o : Options} {t : Tree Mark} {m : Mark} {fields : Fields Mark} {body : Mark}
  {items : List (Tree Mark)} {guard : String}

/-- The program that was put in is read back. -/
theorem programOf_withProgram {fs : List (String × Json)} (hw : Wraps t (obj m fields))
    (hk : hasKind (obj () fs) "Program" = true) : programOf (withProgram t (.obj () fs)) = .obj () fs := by
  cases hw with
  | program hfile _ =>
    have hnot : hasKind (obj () fs) "File" = false := by
      rw [Bool.eq_false_iff, ne_eq, hasKind_iff, hasKind_iff.mp hk]
      decide
    rw [withProgram, if_neg (by rw [hfile]; decide), programOf, if_neg (by rw [hnot]; decide)]
  | file k fs' e hfile _ _ =>
    have hkind :
        hasKind (.obj () (Table.set (Table.mapValues erase t.fields) "program" (.obj () fs))) "File" = true := by
      subst e
      rw [hasKind_iff, kind?_obj, Table.get?_set, if_neg (by decide), Table.get?_mapValues,
        Tree.fields, kind?_obj.mp (hasKind_iff.mp hfile)]
      rfl
    rw [withProgram, if_pos hfile, programOf, if_pos hkind, field?, Tree.fields, Table.get?_set, if_pos rfl]
    rfl

theorem programOf_rewrittenWith (ho : Opening t m fields body items) (ys : List Json) :
    programOf (rewrittenWith o t guard ys) = .obj () (Table.set (reshapeFields (rewritingOf o t guard).drops
      (rewritingOf o t guard).finish fields) "body" (.arr () ys)) := by
  have hkind : hasKind (obj () (Table.set (rewrittenFields o t guard
      fields) "body" (.arr () ys))) "Program" = true := by
    rw [hasKind_iff, kind?_obj, Table.get?_set, if_neg (by decide), get?_reshapeFields,
      kind?_obj.mp (hasKind_iff.mp ho.kind)]
    show some (reshapeSlot _ _ "type" (.scalar (.str "Program"))) = _
    rw [reshapeSlot]
    split
    · rfl
    · exact congrArg some ((reshape_of_spared _ _).2 fun _ h => by cases h)
  rw [rewrittenWith, ho.fields_eq, programOf_withProgram ho.wraps hkind]

/-- The statements that were put in are read back. -/
theorem bodyOf_rewrittenWith (ho : Opening t m fields body items) (ys : List Json) :
    bodyOf (rewrittenWith o t guard ys) = ys := by
  rw [bodyOf, programOf_rewrittenWith ho, field?, Tree.fields, Table.get?_set, if_pos rfl]

theorem isStatement_of_drops {c : Rewriting} {x : Tree Mark} (hx : c.drops x = true) : isStatement x = true :=
  (Bool.and_eq_true _ _ ▸ hx : isStatement x = true ∧ _).1

variable {fresh : Mark} {x : Tree Mark}

theorem Opening.shows_item (ho : Opening t m fields body items) (hm : IsModule t fresh) (hx : x ∈ items) :
    Shows t.heap x :=
  ((ho.opened hm).shows.field ho.body).child (t := arr body items) hx

/-- A statement that stays is still of its kind. -/
theorem Opening.alike_rewrite (ho : Opening t m fields body items) (hm : IsModule t fresh) (hx : x ∈ remainingOf o t)
    (guard : String) : Alike x ((rewritingOf o t guard).rewrite x) := by
  have hf : Follows (rewritingOf o t guard) (rewritingOf o t guard).finish := fun _ _ => .inr rfl
  have hstays : expiresIn o t x = false := by simpa using (mem_filter.mp hx).2
  exact ((hf.mild fun _ _ => isStatement_of_drops).alike (ho.shows_item hm (mem_items_of_remainingOf ho hx))).2 hstays

end Reading

end DebugGuards.Expansion
