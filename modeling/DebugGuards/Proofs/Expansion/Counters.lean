import DebugGuards.Proofs.Expansion.Bindings
import DebugGuards.Proofs.Expansion.Counting
import DebugGuards.Proofs.Expansion.Dangling
import DebugGuards.Proofs.Expansion.Values

/-! The counters of an expansion against the document it leaves. What is counted as
expanded bounds the number of statements under guard, and a statement is missing only if it
lay inside a call that dropped it or in a statement of the body that was taken out. What is
counted as removed is gone, and a constant of a new name stands in front of the body just
when one is reported. -/

namespace DebugGuards.Expansion

open DebugGuards.Tree Node List

variable {o : Options} {t : Tree Mark} {fresh m : Mark} {fields : Fields Mark} {body : Mark}
  {items : List (Tree Mark)} {guard : String} {x : Tree Mark} {ps : List Path} {p : Patch} {w : Workspace} {h : Heap}
  {rs : List Ref} {s s' : State} {fate : Option ImportFate}

instance (x : Tree Mark) : Decidable (Redeclares o t x) := inferInstanceAs (Decidable (∃ q ∈ _, _))

section Program

/-- The statements that go under guard, field by field. -/
theorem sitesOf_eq (ho : Opening t m fields body items) (guard : String) :
    sitesOf o t = fields.flatMap (rewritingOf o t guard).sitesAt := by
  have hfilter : sitesOf o t = (statementsOf o t).filter (rewritingOf o t guard).guards := by
    refine filter_congr fun x hx => ?_
    obtain ⟨e, _, _, hs⟩ := mem_liveFields hx
    rw [Rewriting.guards, (isStatement_of_live e.2).2 x hs, Bool.true_and]
    rfl
  rw [hfilter, statementsOf, ho.fields_eq, liveFields_eq, filter_flatMap]
  refine flatMap_congr fun e _ => ?_
  rw [Rewriting.sitesAt]
  split <;> rfl

theorem countable_slot (ho : Opening t m fields body items) (hm : IsModule t fresh) (o : Options)
    (hplain : ∀ n ∈ nodesFields fields, isGuardedBy guard n = false) {e : String × Tree Mark} (he : e ∈ fields)
    (hk : isMetadata e.1 = false) : Countable (rewritingOf o t guard) t.heap e.2 where
  shows := (ho.opened hm).shows.child (mem_map_of_mem he)
  legal n hn := ho.sound n (mem_nodesFields_of he hk hn)
  keyed := ((keyed_obj _ _).mp ho.keyed).2 e he
  plain n hn := hplain n (mem_nodesFields_of he hk hn)

theorem guardedIn_constant {v : Json} (hv : Constant v) (guard : String) : guardedIn guard (nodes v) = 0 := by
  obtain ⟨name, dialect, i, rfl⟩ := hv
  have hid : guardedIn guard (inside (identifier (.str name) : Json)) = 0 :=
    guardedIn_inert (forall_inside_identifier (fun _ h => h) name)
  have hlit : guardedIn guard (inside (dialect.literal (.int i) : Json)) = 0 :=
    guardedIn_inert (forall_inside_literal (fun _ h => h) dialect _)
  have hinner : guardedIn guard (nodes (make "VariableDeclarator" [("id", identifier (.str name)),
      ("init", dialect.literal (.int i))] : Json)) = 0 := by
    rw [← inside_eq_nodes rfl, guardedIn_inside_make (by decide), guardedIn_nodesFields, map_cons, map_cons,
      guardedAt_of_not (by decide), guardedAt_of_not (by decide), hid, hlit]
    rfl
  rw [← inside_eq_nodes rfl, constant, guardedIn_inside_make (by decide), guardedIn_nodesFields, map_cons,
    map_singleton, guardedAt_of_not (by decide), guardedAt_of_not (by decide), listOf, inside, inside,
    nodesItems_eq, flatMap_singleton, hinner]
  · rfl
  · simp

/-- An import holds nothing that could go under guard. -/
theorem sitesIn_import (c : Rewriting) (hl : Legal x) (hi : isImport x = true) : c.sitesIn x = [] := by
  refine filter_eq_nil_iff.mpr fun y hy => ?_
  have hst := not_isStatement_of_import hl hi ((inside_eq_nodes (isNode_of_hasKind hi)).symm ▸ (live_subset x).1 hy)
  rw [Rewriting.guards, hst]
  exact Bool.false_ne_true

variable (ho : Opening t m fields body items) (hm : IsModule t fresh)
  (hplain : ∀ n ∈ nodesFields fields, isGuardedBy guard n = false)

include ho hm hplain

/-- A statement of the body, rewritten. -/
theorem fits_item (hx : x ∈ items) (hd : expiresIn o t x = false) :
    Fits (guardedIn guard (nodes ((rewritingOf o t guard).rewrite x))) ((rewritingOf o t guard).sitesIn x).length
      (∀ y ∈ (rewritingOf o t guard).sitesIn x, (rewritingOf o t guard).KeepsSites y) := by
  have hn := ho.statements x hx
  have hslot := countable_slot ho hm o hplain (Table.mem_of_get? ho.body) (show isMetadata "body" = false by decide)
  have hcounted := (hslot.item hx hn).counted.node hn
  rw [show (rewritingOf o t guard).drops x = false from hd, if_neg Bool.false_ne_true] at hcounted
  exact hcounted

/-- What stands in the place of a statement of the body. -/
theorem fits_block (hx : x ∈ remainingOf o t) :
    Fits (guardedIn guard ((inlinedBlock o t guard x).flatMap nodes)) ((rewritingOf o t guard).sitesIn x).length
      (∀ y ∈ (rewritingOf o t guard).sitesIn x, (rewritingOf o t guard).KeepsSites y) := by
  have hitem := mem_items_of_remainingOf ho hx
  rw [inlinedBlock]
  cases hf : flagsFor? o x with
  | some flags =>
    rw [sitesIn_import _ (ho.legal hitem) (isImport_of_flagsFor? hf)]
    have hzero : guardedIn guard ((constantsOf (Workspace.dialectOf t) flags x).flatMap nodes) = 0 := by
      rw [guardedIn_flatMap]
      refine List.sum_eq_zero_iff_forall_eq_nat.mpr fun n hmem => ?_
      obtain ⟨v, hv, rfl⟩ := mem_map.mp hmem
      obtain ⟨q, _, rfl⟩ := mem_map.mp hv
      exact guardedIn_constant ⟨_, _, _, rfl⟩ guard
    exact ⟨Nat.le_of_eq hzero, by simpa using hzero⟩
  | none =>
    rw [flatMap_singleton]
    exact fits_item ho hm hplain hitem (by simpa using (mem_filter.mp hx).2)

theorem fits_body :
    Fits (guardedIn guard ((imagesOf o t guard (inlinedEntries o t guard)).flatMap nodes))
      ((rewritingOf o t guard).sitesInside (.arr body items)).length
      (∀ y ∈ (rewritingOf o t guard).sitesInside (.arr body items), (rewritingOf o t guard).KeepsSites y) := by
  have hconstants : guardedIn guard ((guardConstants o t guard).flatMap nodes) = 0 := by
    rw [guardConstants]
    split
    · rw [flatMap_singleton]
      exact guardedIn_constant ⟨_, _, _, rfl⟩ guard
    · rfl
  have himages : guardedIn guard ((imagesOf o t guard (inlinedEntries o t guard)).flatMap nodes) =
      ((remainingOf o t).map fun x => guardedIn guard ((inlinedBlock o t guard x).flatMap nodes)).sum := by
    rw [imagesOf_inlinedEntries, flatMap_append, guardedIn, countP_append, ← guardedIn,
      ← guardedIn, hconstants, Nat.zero_add, flatMap_assoc, guardedIn_flatMap]
  have hsites : (rewritingOf o t guard).sitesInside (.arr body items) =
      (remainingOf o t).flatMap (rewritingOf o t guard).sitesIn := by
    rw [Rewriting.sitesInside_arr, remainingOf, ho.bodyOf_eq]
    refine (flatMap_filter_of_nil fun y _ hy => Rewriting.sitesIn_of_drops (c := rewritingOf o t guard) ?_).symm
    exact show expiresIn o t y = true by simpa using hy
  rw [himages, hsites]
  exact Fits.flatMap fun x hx => fits_block ho hm hplain hx

theorem fits_program :
    Fits (guardedIn guard (nodesFields (programOf (rewrittenWith o t guard
        (imagesOf o t guard (inlinedEntries o t guard)))).fields))
      (sitesOf o t).length (∀ y ∈ sitesOf o t, (rewritingOf o t guard).KeepsSites y) := by
  rw [programOf_rewrittenWith ho, sitesOf_eq ho guard]
  have hbody : Fits (guardedIn guard (inside (.arr () (imagesOf o t guard (inlinedEntries o t guard)) : Json)))
      ((rewritingOf o t guard).sitesInside (.arr body items)).length
      (True ∧ ∀ y ∈ (rewritingOf o t guard).sitesInside (.arr body items), (rewritingOf o t guard).KeepsSites y) := by
    rw [inside, nodesItems_eq, true_and]
    exact fits_body ho hm hplain
  have hfits := fits_set (c := rewritingOf o t guard) (by decide) ((keyed_obj _ _).mp ho.keyed).1 ho.body
    (fun e he hk => (countable_slot ho hm o hplain he hk).counted) hbody
  rw [true_and] at hfits
  exact hfits

end Program

section Cleaning

theorem guardedIn_rewrittenWith (ho : Opening t m fields body items) (guard : String) (ys : List Json) :
    guardedIn guard (nodesFields (programOf (rewrittenWith o t guard ys)).fields) =
      guardedIn guard (ys.flatMap nodes) + guardedIn guard (nodesFields ((fields.filter fun e => e.1 ≠ "body").map
        fun e => (e.1, reshapeSlot (rewritingOf o t guard).drops (rewritingOf o t guard).finish e.1 e.2))) := by
  have hinside : inside (.arr () ys : Json) = ys.flatMap nodes := by rw [inside, nodesItems_eq]
  rw [programOf_rewrittenWith ho, Tree.fields,
    guardedIn_set (by decide) ((keyed_obj _ _).mp ho.keyed).1 ho.body guard, hinside]

theorem guardedIn_set_le (guard : String) (fs : List (String × Json)) (key : String) (v : Json) :
    guardedIn guard (nodesFields (Table.set fs key v)) ≤
      guardedIn guard (nodesFields fs) + guardedAt guard (key, v) := by
  induction fs with
  | nil => rw [Table.set, guardedIn_nodesFields]; simp
  | cons e fs ih =>
    obtain ⟨a, b⟩ := e
    simp only [guardedIn_nodesFields, map_cons, sum_cons] at ih ⊢
    rw [Table.set]
    split
    · next ha =>
      subst ha
      rw [map_cons, sum_cons]
      omega
    · rw [map_cons, sum_cons]
      omega

/-- Another source puts nothing under guard. -/
theorem guardedIn_redirectedTo (d : Dialect) (module : String) (k : Mark) (fs : Fields Mark) :
    guardedIn guard (nodes (Standing.redirectedTo d module (obj k fs))) ≤ guardedIn guard (nodes (obj k fs).erase) := by
  have hkind := kind_redirectedTo d module (k := k) fs
  have hexp : expressionOf (Standing.redirectedTo d module (obj k fs)) = expressionOf (obj k fs).erase := by
    rw [Standing.redirectedTo, erase_obj, expressionOf, expressionOf, Tree.fields, Tree.fields, Tree.fields,
      Table.get?_set, if_neg (by decide)]
  have hself : isGuardedBy guard (Standing.redirectedTo d module (obj k fs)) = isGuardedBy guard (obj k fs).erase := by
    rw [isGuardedBy, isGuardedBy, hexp, isStatement, isStatement, hasKind, hasKind, hkind]
  have hnode : isNode (Standing.redirectedTo d module (obj k fs)) = isNode (obj k fs).erase := by
    rw [isNode, isNode, kind?, kind?, hkind]
  have hlit : guardedAt guard ("source", (d.literal (.str module) : Json)) = 0 :=
    guardedIn_inert (forall_inside_literal (fun _ h => h) d _)
  have hfields := guardedIn_set_le guard (Table.mapValues erase fs) "source" (d.literal (.str module))
  rw [hlit, Nat.add_zero] at hfields
  cases hn : isNode (obj k fs).erase with
  | false =>
    rw [Alike.nodes_eq_nil.mpr (hnode.trans hn)]
    exact Nat.zero_le _
  | true =>
    have herase : (obj k fs).erase.fields = Table.mapValues erase fs := by rw [erase_obj]; rfl
    rw [← inside_eq_nodes (hnode.trans hn), ← inside_eq_nodes hn, Alike.inside_of_isNode (hnode.trans hn),
      Alike.inside_of_isNode hn, guardedIn, guardedIn, countP_cons, countP_cons, hself, herase]
    exact Nat.add_le_add_right hfields _

theorem guardedIn_cleanedBlock (k : Mark) (fs : Fields Mark) :
    guardedIn guard ((cleanedBlock o t (obj k fs)).flatMap nodes) ≤ guardedIn guard (nodes (obj k fs).erase) := by
  rw [cleanedBlock]
  split
  · split
    · exact Nat.zero_le _
    · rw [flatMap_singleton]
      exact guardedIn_redirectedTo ..
  · rw [flatMap_singleton]
  · exact Nat.zero_le _
  · exact Nat.zero_le _

/-- The body after the cleaning has no more under guard than before, and as much if what
declares a helper and is no import holds nothing that went under guard. -/
theorem Concluded.exists_cleaned (hc : Concluded o t fresh m fields body items ps guard p h rs s s' fate)
    (hplain : ∀ n ∈ nodesFields fields, isGuardedBy guard n = false) :
    ∃ ys, (expand o t fresh).tree.erase = rewrittenWith o t guard ys ∧
      guardedIn guard (ys.flatMap nodes) ≤
        guardedIn guard ((imagesOf o t guard (inlinedEntries o t guard)).flatMap nodes) ∧
      ((∀ y ∈ bodyOf t, isImport y = false → Redeclares o t y → (rewritingOf o t guard).sitesIn y = []) →
        guardedIn guard (ys.flatMap nodes) =
          guardedIn guard ((imagesOf o t guard (inlinedEntries o t guard)).flatMap nodes)) := by
  have ho := hc.opening
  have hs := hc.standing
  rw [hc.tree]
  obtain ⟨_, herase⟩ | ⟨pre, e, post, k, fs, rs₁, rs₂, hd, himage, herase, _⟩ := hc.clean_cases
  · exact ⟨_, herase, Nat.le_refl _, fun _ => rfl⟩
  · have hmem : e ∈ inlinedEntries o t guard := by rw [hd.entries]; simp
    have hle : guardedIn guard ((cleanedBlock o t (obj k fs)).flatMap nodes) ≤ _ := guardedIn_cleanedBlock k fs
    rw [himage] at hle
    have hsplit : ∀ zs : List Json,
        guardedIn guard ((imagesOf o t guard pre ++ zs ++ imagesOf o t guard post).flatMap nodes) =
          guardedIn guard ((imagesOf o t guard pre).flatMap nodes) + guardedIn guard (zs.flatMap nodes) +
            guardedIn guard ((imagesOf o t guard post).flatMap nodes) := by
      intro zs
      rw [flatMap_append, flatMap_append, guardedIn, countP_append, countP_append]
      rfl
    have himages : imagesOf o t guard (inlinedEntries o t guard) =
        imagesOf o t guard pre ++ [e.image (rewritingOf o t guard).rewrite] ++ imagesOf o t guard post := by
      rw [hd.entries, imagesOf_append, append_assoc]
      rfl
    rw [himages]
    refine ⟨_, herase, ?_, fun hfree => ?_⟩
    · rw [hsplit, hsplit, flatMap_singleton]
      omega
    · have hzero : guardedIn guard (nodes (e.image (rewritingOf o t guard).rewrite)) = 0 := by
        cases e with
        | new v => exact guardedIn_constant (hs.news v hmem) guard
        | old x =>
          have hx := hs.item_mem hmem
          have hredeclares := hd.redeclares hs
          have hsites : (rewritingOf o t guard).sitesIn x = [] := by
            cases hi : isImport x with
            | true => exact sitesIn_import _ (ho.legal hx) hi
            | false => exact hfree x (ho.bodyOf_eq.symm ▸ hx) hi hredeclares
          have hstays : expiresIn o t x = false :=
            not_drops_of_not_isStatement (c := rewritingOf o t guard) (not_isStatement_of_redeclares hredeclares)
          have hfits := fits_item ho hc.isModule hplain hx hstays
          rw [hsites] at hfits
          exact Nat.le_zero.mp hfits.1
      rw [hsplit, hsplit, flatMap_singleton]
      omega

end Cleaning

section Gone

variable {K : List Mark} {w' : Workspace}

/-- The document has none of some marks that have been handed out. -/
structure Lacks (K : List Mark) (w : Workspace) : Prop where
  root : Inner K w.fresh w.root
  below : ∀ k ∈ K, k < w.fresh

namespace Lacks

theorem paths (hw : Lacks K w) (ps : Array Path) : Lacks K { w with paths := ps } := ⟨hw.root, hw.below⟩

theorem setPartField (hw : Lacks K w) {d : Draft} (hd : InnerDraft K w.fresh d) (m : Mark) (key : String) :
    Lacks K (w.setPartField m key d) := by
  have hle := (marks_settle d w.fresh).1
  have hv := hd.settle hw.below
  have hfresh : ∀ x, (w.keep x).fresh = w.fresh := fun _ => Workspace.keep_fresh ..
  have hroot : ∀ x, (w.keep x).root = w.root := fun _ => Workspace.keep_root ..
  constructor
  · simp only [Workspace.setPartField, Workspace.settle, Workspace.editPart, hfresh, hroot]
    exact Inner.edit (fun y hy => hv.setField key hy) (hw.root.mono hle)
  · simp only [Workspace.setPartField, Workspace.settle, Workspace.editPart, hfresh]
    exact fun k hk => Nat.lt_of_lt_of_le (hw.below k hk) hle

theorem remove (hw : Lacks K w) {i : PathId} (hok : w.remove i = .ok w') : Lacks K w' := by
  rw [Workspace.remove] at hok
  split at hok
  · cases hok
  · next list _ _ =>
    rw [Workspace.spliceAt] at hok
    split at hok
    · cases hok
      have hfresh : ∀ x, (w.keep x).fresh = w.fresh := fun _ => Workspace.keep_fresh ..
      have hroot : ∀ x, (w.keep x).root = w.root := fun _ => Workspace.keep_root ..
      constructor
      · simp only [Workspace.editPart, hfresh, hroot]
        exact Inner.edit (fun y hy => hy.splice (by simp) _) hw.root
      · simp only [Workspace.editPart, hfresh]
        exact hw.below
    · cases hok
  · next parent key _ =>
    cases hl : Workspace.leftover (w.deref (w.path i).node) with
    | error f => rw [hl] at hok; cases hok
    | ok d =>
      rw [hl] at hok
      cases hok
      exact hw.setPartField (leftover_inner hl) parent key

theorem setField (hw : Lacks K w) {i : PathId} {key : String} {d : Draft} (hd : InnerDraft K w.fresh d)
    (hok : w.setField i key d = .ok w') : Lacks K w' := by
  rw [Workspace.setField] at hok
  split at hok
  · cases hok
    exact hw.setPartField hd _ key
  · cases hok

end Lacks

/-- The cleaning brings nothing back. -/
theorem cleanImports_lacks (o : Options) (K : List Mark) :
    (cleanImports o).Stays fun s => Lacks K s.workspace := by
  have hremove : ∀ site, (removeSite site).Stays fun s => Lacks K s.workspace := by
    refine fun site => .bind (fun s hs => ?_) fun _ => .pure _
    cases hr : s.workspace.remove site with
    | error f => rw [result_act_error hr]; exact hs
    | ok w => rw [result_act_ok hr]; exact hs.remove hr
  refine .bind (fun _ hs => hs) fun s₀ => ?_
  split
  · exact .pure _
  refine .bind (.look _) fun b => ?_
  split
  · exact .pure _
  refine .bind (fun s hs => hs.paths _) fun site => ?_
  unfold cleanSite
  split
  · split
    · exact hremove site
    · refine .bind (fun s hs => ?_) fun _ => .pure _
      cases hr : s.workspace.setField site "source" (s.workspace.dialect.literal (.str _)) with
      | error f => rw [result_act_error hr]; exact hs
      | ok w => rw [result_act_ok hr]; exact hs.setField (literal_inner _ _) hr
  · exact .pure _
  · exact hremove site
  · exact hremove site

theorem Concluded.not_mem_cleaned (hc : Concluded o t fresh m fields body items ps guard p h rs s s' fate)
    (hx : x ∈ statementsOf o t) (he : expiresIn o t x = true) {k : Mark} (hk : k ∈ x.marks) :
    k ∉ (expand o t fresh).tree.marks := by
  have ho := hc.opening
  have hs := hc.standing
  have hgone : Standing.Dropped items (statementsOf o t) p (inlinedEntries o t guard) k := by
    refine .gone x hx ?_ hk
    rw [hs.patch.gone, mem_gone]
    exact ⟨x, hx, he, rfl⟩
  have hnot := hs.not_mem_root ho.wraps (hs.secluded_of_dropped ho.keyed hgone)
  have hlt := Nat.lt_of_lt_of_le (hs.layout.ready.marks_lt (hs.judged.judged x hx).shows hk) hs.stage.le
  have hlacks : Lacks [k] s.workspace := by
    refine ⟨fun n hn => ⟨fun hmem => hnot (mem_singleton.mp hmem ▸ hn), ?_⟩, forall_mem_singleton.mpr hlt⟩
    obtain ⟨cell, hcell⟩ := hs.stage.models.root.some_of_mem hn
    exact hs.stage.models.below n cell hcell
  have hafter := cleanImports_lacks o [k] s hlacks
  rw [hc.cleaned] at hafter
  rw [hc.tree]
  exact fun hmem => (hafter.root k hmem).1 (mem_singleton.mpr rfl)

end Gone

section Inserted

/-- A constant in front of the body whose name nothing declared before. -/
def Inserts (t : Tree Mark) (d : Json) (n : String) : Prop :=
  (∃ init rest, bodyOf d = constant (.str n) init :: rest) ∧ ∀ y ∈ bodyOf t, n ∉ names y

/-- The guard that is made is the only constant of this kind, and without one there is none. -/
theorem Concluded.inserts_iff (hc : Concluded o t fresh m fields body items ps guard p h rs s s' fate) (n : String) :
    Inserts t (expand o t fresh).tree.erase n ↔ makesGuard o t = true ∧ n = guard := by
  have ho := hc.opening
  constructor
  · rintro ⟨⟨init, rest, hbody⟩, hnew⟩
    have hmake : makesGuard o t = true := by
      by_contra hnot
      obtain ⟨ys, herase, htidied⟩ := hc.tidied
      rw [herase, bodyOf_rewrittenWith ho] at hbody
      obtain ⟨y, hy, hnames⟩ := htidied.exists_names_eq (z := constant (.str n) init) (by rw [hbody]; simp)
      rw [imagesOf_inlinedEntries, guardConstants, if_neg hnot, nil_append, mem_flatMap] at hy
      obtain ⟨x, hx, hy⟩ := hy
      refine hnew x (mem_filter.mp hx).1 (names_inlinedBlock ho hc.isModule hx hy (n := n) ?_).1
      rw [hnames]
      exact mem_singleton.mpr rfl
    obtain ⟨init', rest', hfirst, _⟩ := hc.firstDeclares hmake
    obtain ⟨heq, _⟩ := List.cons.inj (hbody.symm.trans hfirst)
    have hnames : names (constant (.str n) init : Json) = names (constant (.str guard) init' : Json) := by rw [heq]
    exact ⟨hmake, (List.cons.inj hnames).1⟩
  · rintro ⟨hmake, rfl⟩
    obtain ⟨init, rest, hfirst, _⟩ := hc.firstDeclares hmake
    exact ⟨⟨init, rest, hfirst⟩, hc.isGuard.made hmake⟩

end Inserted

/-- What an expansion reports is what it leaves. At most as many statements are under the
guard as were put there; and as many, unless one lay in what a call was rid of, if none lay
in a statement that declares a helper anew. The statements that expired are gone, and a
constant of a new name stands in front if and only if a guard was made. -/
theorem expand_counts (hm : IsModule t fresh) {summary : Summary} (hok : (expand o t fresh).result = .ok summary) :
    (summary.expanded = (sitesOf o t).length ∧ ∀ g, summary.guard = some g →
      (∀ n ∈ nodesFields (programOf t).fields, isGuardedBy g n = false) →
      guardedIn g (nodesFields (programOf (expand o t fresh).tree.erase).fields) ≤ summary.expanded ∧
      ((∀ y ∈ bodyOf t, isImport y = false → Redeclares o t y → (rewritingOf o t g).sitesIn y = []) →
        (guardedIn g (nodesFields (programOf (expand o t fresh).tree.erase).fields) = summary.expanded ↔
          ∀ x ∈ sitesOf o t, (rewritingOf o t g).KeepsSites x))) ∧
    (summary.guard = none → summary.expanded = 0) ∧
    (summary.removed = ((statementsOf o t).filter (expiresIn o t)).length ∧
      ∀ x ∈ statementsOf o t, expiresIn o t x = true → ∀ k ∈ x.marks, k ∉ (expand o t fresh).tree.marks) ∧
    ((summary.synthesized = true ↔ ∃ n, Inserts t (expand o t fresh).tree.erase n) ∧
      ∀ n, Inserts t (expand o t fresh).tree.erase n → summary.guard = some n) := by
  obtain ⟨m, fields, body, items, ho⟩ := hm.opens
  obtain ⟨ps, g, p, h, rs, s, s', fate, hc, rfl⟩ := exists_concluded ho hm hok
  rw [ho.fields_eq]
  have hinserts := hc.inserts_iff
  refine ⟨⟨rfl, fun g' hg' hplain => ?_⟩, fun hnone => ?_, ⟨rfl, fun x hx he k hk => hc.not_mem_cleaned hx he hk⟩,
    ⟨fun hsyn => ⟨g, (hinserts g).mpr ⟨hsyn, rfl⟩⟩, fun ⟨n, hn⟩ => ((hinserts n).mp hn).1⟩, fun n hn => ?_⟩
  · obtain rfl := guard_of_resolved (sitesOf o t).length (expiredCount o t) hg'
    obtain ⟨ys, herase, hle, heq⟩ := hc.exists_cleaned hplain
    have hfits := fits_program ho hm hplain (o := o)
    rw [herase]
    rw [guardedIn_rewrittenWith ho] at hfits ⊢
    refine ⟨Nat.le_trans (Nat.add_le_add_right hle _) hfits.1, fun hfree => ?_⟩
    rw [heq hfree]
    exact hfits.2
  · by_contra hne
    have hsites : sitesOf o t ≠ [] := fun he => hne (length_eq_zero_iff.mpr he)
    have hguard := guard_of_sites hsites g (sitesOf o t).length (expiredCount o t)
    rw [show (resolvedSummary o t g (sitesOf o t).length (expiredCount o t)).guard = none from hnone] at hguard
    cases hguard
  · obtain ⟨hmake, rfl⟩ := (hinserts n).mp hn
    exact if_pos (by rw [hmake, Bool.or_true])

theorem expand_counts_nested :
    IsModule nestedModule.1 nestedModule.2 ∧
      (expand versioned nestedModule.1 nestedModule.2).result =
        .ok
          { guard := some "_DEBUG", synthesized := true, expanded := 2, removed := 1,
            helpersImport := some .removed } ∧
      guardedIn "_DEBUG"
        (nodesFields (programOf (expand versioned nestedModule.1 nestedModule.2).tree.erase).fields) = 2 ∧
      (∀ x ∈ statementsOf versioned nestedModule.1, expiresIn versioned nestedModule.1 x = true →
        ∀ k ∈ x.marks, k ∉ (expand versioned nestedModule.1 nestedModule.2).tree.marks) ∧
      ∃ n, Inserts nestedModule.1 (expand versioned nestedModule.1 nestedModule.2).tree.erase n := by
  have hm : IsModule nestedModule.1 nestedModule.2 := by decide +kernel
  have hok : (expand versioned nestedModule.1 nestedModule.2).result =
      .ok
        { guard := some "_DEBUG", synthesized := true, expanded := 2, removed := 1,
          helpersImport := some .removed } := by
    decide +kernel
  obtain ⟨⟨_, hcount⟩, _, ⟨_, hgone⟩, hinserts, _⟩ := expand_counts hm hok
  refine ⟨hm, hok, ?_, hgone, hinserts.mp rfl⟩
  have hplain : ∀ n ∈ nodesFields (programOf nestedModule.1).fields, isGuardedBy "_DEBUG" n = false := by decide +kernel
  have hkeeps :
      ∀ x ∈ sitesOf versioned nestedModule.1, (rewritingOf versioned nestedModule.1 "_DEBUG").KeepsSites x := by
    decide +kernel
  refine ((hcount "_DEBUG" rfl hplain).2 ?_).mpr hkeeps
  decide +kernel

/-- A warning inside the metadata of a deprecation. -/
def discardedModule : Tree Mark × Mark :=
  marked (moduleOf [importing [("warn", "warn"), ("deprecate", "deprecate")] "@ember/debug-tools",
    calling "deprecate" [literal (.str "m"), identifier (.str "p"),
      objectLiteral [("id", literal (.str "a")), ("until", literal (.str ">=9")),
        ("note", make "FunctionExpression" [("params", listOf []),
          ("body", make "BlockStatement" [("body", listOf [calling "warn" [literal (.str "inner")]])])])]]])

/-- A function with the name of the helper that it calls. -/
def redeclaredModule : Tree Mark × Mark :=
  marked (moduleOf [importing [("warn", "warn")] "@ember/debug-tools",
    make "FunctionDeclaration" [("id", identifier (.str "warn")), ("params", listOf []),
      ("body", make "BlockStatement" [("body", listOf [calling "warn" [literal (.str "x")]])])]])

/-- The warning is counted and is nowhere: its deprecation does not take the metadata over,
or the function it lies in is taken out in the place of the import. -/
theorem expand_counts_lost :
    IsModule discardedModule.1 discardedModule.2 ∧ IsModule redeclaredModule.1 redeclaredModule.2 ∧
      (∀ n ∈ nodesFields (programOf discardedModule.1).fields, isGuardedBy "_DEBUG" n = false) ∧
      (∀ n ∈ nodesFields (programOf redeclaredModule.1).fields, isGuardedBy "_DEBUG" n = false) ∧
      (expand .usual discardedModule.1 discardedModule.2).result =
        .ok { guard := some "_DEBUG", synthesized := true, expanded := 2, helpersImport := some .removed } ∧
      guardedIn "_DEBUG"
        (nodesFields (programOf (expand .usual discardedModule.1 discardedModule.2).tree.erase).fields) = 1 ∧
      (expand .usual redeclaredModule.1 redeclaredModule.2).result =
        .ok { guard := some "_DEBUG", synthesized := true, expanded := 1, helpersImport := some .removed } ∧
      guardedIn "_DEBUG"
        (nodesFields (programOf (expand .usual redeclaredModule.1 redeclaredModule.2).tree.erase).fields) = 0 := by
  decide +kernel

end DebugGuards.Expansion
