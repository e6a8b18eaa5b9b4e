import DebugGuards.Proofs.Expansion.Inlining

/-! The outcome of an expansion is a module again. No object gets a field twice, every node
that is left or built is well formed, and the parts keep marks of their own below the next
one. -/

namespace DebugGuards.Expansion

open DebugGuards.Tree Node List

section Marks

variable {α β : Type} (f : α → β) (t : Tree α)

theorem programOf_map : programOf (t.map f) = (programOf t).map f := by
  rw [programOf, programOf, hasKind_map]
  split
  · rw [field?, field?, get?_fields_map]
    cases Table.get? t.fields "program" with
    | none => exact (map_scalar f .null).symm
    | some v => rfl
  · rfl

theorem bodyOf_map : bodyOf (t.map f) = (bodyOf t).map (Tree.map f) := by
  rw [bodyOf, bodyOf, programOf_map, field?, field?, get?_fields_map]
  cases Table.get? (programOf t).fields "body" with
  | none => rfl
  | some v => cases v <;> simp

theorem wellFormed_map : wellFormed (t.map f) = wellFormed t := by
  have hbody : Node.holds ((programOf t).map f) "body" (isListOf isNode) =
      Node.holds (programOf t) "body" (isListOf isNode) := by
    rw [Node.holds, Node.holds, field?, field?, get?_fields_map]
    cases Table.get? (programOf t).fields "body" with
    | none => rfl
    | some v => cases v <;> simp [isListOf, Function.comp_def]
  rw [wellFormed, wellFormed, keyed_map, programOf_map, hasKind_map, hbody, fields_map, nodesFields_map, all_map]
  simp only [Function.comp_def, sound_map]

end Marks

section Keyed

theorem keyed_make {k : String} {fields : List (String × Json)} (hd : ("type" :: fields.map Prod.fst).Nodup)
    (hf : ∀ e ∈ fields, e.2.keyed = true) : (make k fields).keyed = true :=
  (keyed_obj _ _).mpr ⟨hd, forall_mem_cons.mpr ⟨rfl, hf⟩⟩

theorem keyed_literal (d : Dialect) (v : Scalar) : (d.literal (.scalar v) : Json).keyed = true := by
  cases d <;> cases v <;> rfl

theorem keyed_calleeNode (target : Target) (d : Diagnostic) : (d.calleeNode target : Json).keyed = true := by
  cases target <;> rfl

theorem keyed_call {callee : Json} {args : List Json} (hc : callee.keyed = true) (ha : ∀ a ∈ args, a.keyed = true) :
    (call callee args).keyed = true := by
  refine keyed_make (by simp) ?_
  simp only [forall_mem_cons]
  exact ⟨hc, (keyed_arr _ _).mpr ha, rfl, forall_mem_nil _⟩

theorem keyed_chain (guard : String) {operands : List Json} (ho : ∀ a ∈ operands, a.keyed = true) :
    (parenthesized (guardChain (.str guard) operands)).keyed = true := by
  have hchain : (guardChain (.str guard) operands).keyed = true := by
    refine guardChain_induction (P := fun e => e.keyed = true) (fun l r hl hr => keyed_make (by simp) ?_) rfl ho
    simp only [forall_mem_cons]
    exact ⟨rfl, hl, hr, forall_mem_nil _⟩
  exact keyed_make (by simp) (forall_mem_singleton.mpr hchain)

theorem keyed_argumentsOf {e : Json} (he : e.keyed = true) : ∀ a ∈ argumentsOf e, a.keyed = true := by
  rw [argumentsOf]
  cases e with
  | scalar | arr => exact forall_mem_nil _
  | obj m fs =>
    rw [Tree.elementsOf, Tree.get?]
    simp only [bind, Except.bind]
    cases hget : Table.get? fs "arguments" with
    | none => exact forall_mem_nil _
    | some v =>
      have hv := ((keyed_obj _ _).mp he).2 _ (Table.mem_of_get? hget)
      cases v with
      | arr n items => exact (keyed_arr _ _).mp hv
      | obj n gs => exact forall_mem_map.mpr fun _ _ => rfl
      | scalar s =>
        cases s with
        | str text => exact forall_mem_map.mpr fun _ _ => rfl
        | _ => exact forall_mem_nil _

theorem Rewriting.keyed_finish (c : Rewriting) (x : Tree Mark) {fs : List (String × Json)}
    (hf : (obj () fs).keyed = true) : (c.finish x fs).keyed = true := by
  obtain h | ⟨v, operands, _, _, hop, h⟩ := c.finish_cases x fs <;> rw [h]
  · exact hf
  · have hargs : ∀ a ∈ argumentsOf (expressionOf (obj () fs)), a.keyed = true := by
      refine keyed_argumentsOf ?_
      rw [expressionOf, Tree.fields]
      cases hget : Table.get? fs "expression" with
      | none => rfl
      | some e => exact ((keyed_obj _ _).mp hf).2 _ (Table.mem_of_get? hget)
    refine keyed_set hf _ (keyed_chain _ (Verdict.forall_operands hop hargs rfl (fun d => ?_) fun text => ?_))
    · exact keyed_call (keyed_calleeNode ..) hargs
    · exact keyed_call (keyed_calleeNode ..) (forall_mem_singleton.mpr (keyed_literal ..))

/-- A rewritten document has each field once. -/
theorem Rewriting.keyed_rewrite (c : Rewriting) (t : Tree Mark) (ht : t.keyed = true) :
    (c.rewrite t).keyed = true ∧ (reshapeInside c.drops c.finish t).keyed = true := by
  have herase : ∀ x : Tree Mark, x.keyed = true → x.erase.keyed = true := fun x hx => (keyed_map _ x).trans hx
  rw [Rewriting.rewrite]
  induction t using induct with
  | scalar s =>
    rw [reshapeInside, not_drops_of_not_isStatement rfl, reshape]
    · exact ⟨rfl, rfl⟩
    · simp
  | arr m items ih =>
    refine ⟨by rw [reshape]; exact herase _ ht, ?_⟩
    rw [keyed_arr] at ht
    rw [reshapeInside, keyed_arr, reshapeItems_eq, forall_mem_map]
    exact fun x hx => (ih x (mem_of_mem_filter hx) (ht x (mem_of_mem_filter hx))).1
  | obj m fields ih =>
    have hreshape : (reshape c.drops c.finish (obj m fields)).keyed = true := by
      rw [reshape]
      split
      · refine c.keyed_finish _ ?_
        rw [keyed_obj] at ht
        rw [keyed_obj, reshapeFields_eq, List.map_map, forall_mem_map]
        refine ⟨ht.1, fun e he => ?_⟩
        show (reshapeSlot _ _ e.1 e.2).keyed = true
        rw [reshapeSlot]
        split
        · exact herase _ (ht.2 e he)
        · exact (ih e he (ht.2 e he)).2
      · exact herase _ ht
    refine ⟨hreshape, ?_⟩
    rw [reshapeInside]
    · split
      · rfl
      · exact hreshape
    · simp

end Keyed

variable {o : Options} {t : Tree Mark} {fresh m : Mark} {fields : Fields Mark} {body : Mark}
  {items : List (Tree Mark)} {guard : String} {x : Tree Mark} {Q : Json → Prop}

section Nodes

/-- What holds of the nodes that say nothing, and of each node that stays once it is
finished, holds of all nodes of the rewritten program. -/
theorem Opening.forall_nodes (ho : Opening t m fields body items) (hm : IsModule t fresh) (hq : ∀ n, Inert n → Q n)
    (hself : ∀ x ∈ nodesFields fields, (rewritingOf o t guard).drops x = false →
      (isStatement x = true → x ∈ statementsOf o t) →
      Q ((rewritingOf o t guard).finish x
        (rewrittenFields o t guard x.fields))) :
    ∀ n ∈ nodesFields (rewrittenFields o t guard fields), Q n := by
  have hf : Follows (rewritingOf o t guard) (rewritingOf o t guard).finish := fun _ _ => .inr rfl
  intro n hn
  obtain ⟨d, hd, hk, hn⟩ := mem_nodesFields hn
  rw [rewrittenFields, reshapeFields_eq] at hd
  obtain ⟨e, he, rfl⟩ := mem_map.mp hd
  rw [reshapeSlot, if_neg (by simpa using hk)] at hn
  have hshows : Shows t.heap e.2 := (ho.opened hm).shows.child (mem_map_of_mem he)
  have hlegal : Legal e.2 := fun n hn => ho.sound n (mem_nodesFields_of he hk hn)
  refine (hf.forall_inside (fun _ _ => isStatement_of_drops) hshows hlegal hq fun y hy hnot hlive _ => ?_).1 n hn
  refine hself y (mem_nodesFields_of he hk hy) hnot fun hst => ?_
  rw [statementsOf, ho.fields_eq, liveFields_eq, mem_flatMap]
  exact ⟨e, he, by rw [if_neg (by simpa using hk)]; exact hlive hst⟩

theorem Opening.nodes_rewrite (ho : Opening t m fields body items) (hx : x ∈ remainingOf o t) :
    nodes ((rewritingOf o t guard).rewrite x) ⊆
      nodesFields (rewrittenFields o t guard fields) := by
  intro n hn
  have hmeta : isMetadata "body" = false := by decide
  have hget : Table.get? (rewrittenFields o t guard fields) "body" =
      some (.arr () (reshapeItems (rewritingOf o t guard).drops (rewritingOf o t guard).finish items)) := by
    rw [get?_reshapeFields, ho.body]
    rfl
  refine mem_nodesFields_of (Table.mem_of_get? hget) hmeta ?_
  rw [inside, nodesItems_eq, reshapeItems_eq, mem_flatMap]
  refine ⟨_, mem_map_of_mem (mem_filter.mpr ⟨mem_items_of_remainingOf ho hx, ?_⟩), hn⟩
  exact (mem_filter.mp hx).2

theorem forall_nodes_redirectedTo (d : Dialect) (module : String) (hl : Legal x) (hi : isImport x = true)
    (hq : ∀ n : Json, sound n = true → isStatement n = false → Q n) :
    ∀ n ∈ nodes (Standing.redirectedTo d module x), Q n := by
  obtain ⟨k, fs, rfl, _⟩ := exists_fields hi
  have himport := isImport_redirectedTo d module hi
  have hfields : ∀ n ∈ nodesFields (Table.set (Table.mapValues erase fs) "source" (d.literal (.str module))),
      sound n = true ∧ isStatement n = false := by
    intro n hn
    obtain ⟨e, he, hk, hn⟩ := mem_nodesFields hn
    rcases Table.mem_set he with he | rfl
    · obtain ⟨c, hc, rfl⟩ := mem_map.mp he
      rw [show erase c.2 = c.2.map _ from rfl, (nodes_map _ _).2] at hn
      obtain ⟨y, hy, rfl⟩ := mem_map.mp hn
      have hmem : y ∈ inside (obj k fs) := by
        rw [Alike.inside_of_isNode (isNode_of_hasKind hi)]
        exact mem_cons_of_mem _ (mem_nodesFields_of hc hk hy)
      exact ⟨(sound_map _ y).trans (hl y hmem), (isStatement_map _ y).trans (not_isStatement_of_import hl hi hmem)⟩
    · exact forall_inside_literal (Q := fun n => sound n = true ∧ isStatement n = false)
        (fun _ hn => ⟨hn.1, hn.2.1⟩) d (.str module) n hn
  have hself : sound (Standing.redirectedTo d module (obj k fs)) = true := by
    have hsound := hl.sound (isNode_of_hasKind hi)
    rw [sound, hasKind_iff.mp hi] at hsound
    simp only [Bool.and_eq_true] at hsound
    rw [sound, hasKind_iff.mp himport]
    simp only [Bool.and_eq_true]
    refine ⟨⟨?_, ?_⟩, all_eq_true.mpr fun n hn => by rw [(hfields n hn).2]; rfl⟩
    · rw [Node.holds, field?, Standing.redirectedTo, Tree.fields, Table.get?_set, if_pos rfl]
      cases d <;> rfl
    · have hspec := (alike_map (fun _ => ()) (obj k fs)).1.holdsIf (Alike.not_isStatement hi (by decide))
        (Alike.preserves_isListOf Alike.preserves_isSpecifier) hsound.1.2
      rw [map_obj] at hspec
      rw [Node.holdsIf, field?, Standing.redirectedTo, Tree.fields, Table.get?_set, if_neg (by decide)]
      exact hspec
  intro n hn
  rw [← inside_eq_nodes (isNode_of_hasKind himport), Alike.inside_of_isNode (isNode_of_hasKind himport)] at hn
  rcases mem_cons.mp hn with rfl | hn
  · exact hq _ hself (Alike.not_isStatement himport (by decide))
  · exact hq n (hfields n hn).1 (hfields n hn).2

/-- What a statement of the body becomes consists of nodes with each field once, and holds
what its image holds and nodes that are no statements. -/
theorem Becomes.forall_nodes {vs : List Json} (hb : Becomes o t guard x vs) (ho : Opening t m fields body items)
    (hm : IsModule t fresh) (hx : x ∈ remainingOf o t) (hq : ∀ n : Json, sound n = true → isStatement n = false → Q n)
    (hr : ∀ n ∈ nodes ((rewritingOf o t guard).rewrite x), Q n) :
    ∀ v ∈ vs, isNode v = true ∧ v.keyed = true ∧ ∀ n ∈ nodes v, Q n := by
  have hitem := mem_items_of_remainingOf ho hx
  have hkeyed : x.keyed = true :=
    (keyed_arr _ _).mp (((keyed_obj _ _).mp ho.keyed).2 _ (Table.mem_of_get? ho.body)) x hitem
  have hrewrite : isNode ((rewritingOf o t guard).rewrite x) = true ∧ ((rewritingOf o t guard).rewrite x).keyed = true ∧
      ∀ n ∈ nodes ((rewritingOf o t guard).rewrite x), Q n :=
    ⟨(ho.alike_rewrite hm hx guard).isNode_eq.trans (ho.statements x hitem),
      ((rewritingOf o t guard).keyed_rewrite x hkeyed).1, hr⟩
  have herase : isImport x = true → isNode x.erase = true ∧ x.erase.keyed = true ∧ ∀ n ∈ nodes x.erase, Q n := by
    intro hi
    rw [ho.rewrite_import _ hx hi] at hrewrite
    exact hrewrite
  cases hb with
  | constants flags vs _ each =>
    intro v hv
    obtain ⟨s, _, i, _, rfl⟩ := forall₂_exists_left each hv
    have hc : Constant (constant (.str s.2) ((Workspace.dialectOf t).literal (.int i))) := ⟨s.2, _, i, rfl⟩
    refine ⟨hc.isNode, ?_, fun n hn => hc.forall_inside hq n (nodes_subset_inside _ hn)⟩
    cases Workspace.dialectOf t <;> rfl
  | rewritten hi => exact forall_mem_singleton.mpr hrewrite
  | same hi => exact forall_mem_singleton.mpr (herase hi)
  | tools vs hi _ eq =>
    rcases eq with rfl | rfl
    · exact forall_mem_singleton.mpr (herase hi)
    · rw [cleanedBlock]
      split
      · split
        · exact forall_mem_nil _
        · refine forall_mem_singleton.mpr ⟨isNode_of_hasKind (isImport_redirectedTo _ _ hi), ?_,
            forall_nodes_redirectedTo _ _ (ho.legal hitem) hi hq⟩
          obtain ⟨k, fs, rfl, _⟩ := exists_fields hi
          have hmap := (keyed_map (fun _ => ()) (obj k fs)).trans hkeyed
          rw [map_obj] at hmap
          exact keyed_set hmap _ (keyed_literal ..)
      · exact forall_mem_singleton.mpr (herase hi)
      · exact forall_mem_nil _
      · exact forall_mem_nil _

variable {summary : Summary} {ps : List Path} {p : Patch} {w : Workspace}

/-- What holds of nodes that are no statements, and of each node that stays once it is
finished, holds of all nodes of the outcome. -/
theorem Completed.forall_nodes (hc : Completed o t fresh m fields body items summary ps guard p w)
    (ho : Opening t m fields body items) (hm : IsModule t fresh)
    (hq : ∀ n : Json, sound n = true → isStatement n = false → Q n)
    (hself : ∀ x ∈ nodesFields fields, (rewritingOf o t guard).drops x = false →
      (isStatement x = true → x ∈ statementsOf o t) →
      Q ((rewritingOf o t guard).finish x
        (rewrittenFields o t guard x.fields))) :
    (∀ n ∈ nodesFields (programOf (expand o t fresh).tree.erase).fields, Q n) ∧
      ∀ v ∈ bodyOf (expand o t fresh).tree.erase, isNode v = true ∧ v.keyed = true := by
  have hall : ∀ n ∈ nodesFields (rewrittenFields o t guard fields), Q n :=
    ho.forall_nodes hm (fun n hn => hq n hn.1 hn.2.1) hself
  obtain ⟨blocks, hblocks, hbody⟩ := hc.exists_blocks ho
  have hvs : ∀ v ∈ bodyOf (expand o t fresh).tree.erase, isNode v = true ∧ v.keyed = true ∧ ∀ n ∈ nodes v, Q n := by
    intro v hv
    rw [hbody, mem_append, mem_flatten] at hv
    rcases hv with hv | ⟨vs, hvs, hv⟩
    · rw [guardConstants] at hv
      split at hv
      · rw [mem_singleton.mp hv]
        have hconst : Constant (constant (.str guard) ((Workspace.dialectOf t).literal
          (.int ((Table.get? o.envFlags.flags debugFlag).getD 0)))) := ⟨guard, _, _, rfl⟩
        refine ⟨hconst.isNode, ?_, fun n hn => hconst.forall_inside hq n (nodes_subset_inside _ hn)⟩
        cases Workspace.dialectOf t <;> rfl
      · cases hv
    · obtain ⟨x, hx, hb⟩ := forall₂_exists_left hblocks hvs
      exact hb.forall_nodes ho hm hx hq (fun n hn => hall n (ho.nodes_rewrite hx hn)) v hv
  refine ⟨fun n hn => ?_, fun v hv => ⟨(hvs v hv).1, (hvs v hv).2.1⟩⟩
  obtain ⟨ys, herase, _⟩ := hc.exists_body ho
  rw [herase, bodyOf_rewrittenWith ho] at hvs
  rw [herase, programOf_rewrittenWith ho] at hn
  obtain ⟨d, hd, hk, hn⟩ := mem_nodesFields hn
  rcases Table.mem_set hd with hd | rfl
  · exact hall n (mem_nodesFields_of hd hk hn)
  · rw [inside, nodesItems_eq, mem_flatMap] at hn
    obtain ⟨v, hv, hn⟩ := hn
    exact (hvs v hv).2.2 n hn

end Nodes

section Module

variable {summary : Summary} {ps : List Path} {p : Patch} {w : Workspace}

theorem keyed_rewrittenWith (ho : Opening t m fields body items) (hk : t.keyed = true) {ys : List Json}
    (hys : ∀ v ∈ ys, v.keyed = true) : (rewrittenWith o t guard ys).keyed = true := by
  have hprogram :
      (obj () (Table.set (rewrittenFields o t guard (programOf t).fields) "body" (.arr () ys))).keyed = true := by
    refine keyed_set ?_ _ ((keyed_arr _ _).mpr hys)
    have hkeyed := (keyed_obj _ _).mp ho.keyed
    rw [ho.fields_eq, keyed_obj, rewrittenFields, reshapeFields_eq, List.map_map, forall_mem_map]
    refine ⟨hkeyed.1, fun e he => ?_⟩
    show (reshapeSlot _ _ e.1 e.2).keyed = true
    rw [reshapeSlot]
    split
    · exact (keyed_map _ e.2).trans (hkeyed.2 e he)
    · exact ((rewritingOf o t guard).keyed_rewrite e.2 (hkeyed.2 e he)).2
  rw [rewrittenWith, withProgram]
  split
  · next hfile =>
    obtain ⟨k, fs, _, rfl, _⟩ := exists_of_isNode (isNode_of_hasKind hfile)
    have hmap := (keyed_map (fun _ => ()) (obj k fs)).trans hk
    rw [map_obj] at hmap
    exact keyed_set hmap _ hprogram
  · exact hprogram

section

variable (hc : Completed o t fresh m fields body items summary ps guard p w) (ho : Opening t m fields body items)
  (hm : IsModule t fresh)
include hc ho hm

theorem Completed.wellFormed : wellFormed (expand o t fresh).tree.erase = true := by
  have hkeyed : t.keyed = true := by
    have hw := hm.wellFormed
    simp only [Node.wellFormed, Bool.and_eq_true] at hw
    exact hw.1.1.1
  have hself : ∀ x ∈ nodesFields fields, (rewritingOf o t guard).drops x = false →
      sound ((rewritingOf o t guard).finish x
        (rewrittenFields o t guard x.fields)) = true := by
    intro x hx hnot
    have hf : Follows (rewritingOf o t guard) (rewritingOf o t guard).finish := fun _ _ => .inr rfl
    have hshows := (layout_moduleScan ho hm o []).shows_node hx
    have halike := ((hf.mild fun _ _ => isStatement_of_drops).alike hshows).2 hnot
    obtain ⟨_, _, _, hin⟩ := mem_nodesFields hx
    obtain ⟨k, fs, rfl, hn⟩ := exists_of_mem_inside hin
    rw [reshape, if_pos hn] at halike
    exact halike.sound (ho.sound _ hx)
  obtain ⟨hsound, hbody⟩ := hc.forall_nodes (Q := fun n => sound n = true) ho hm (fun _ hs _ => hs)
    fun x hx hnot _ => hself x hx hnot
  obtain ⟨ys, herase, _⟩ := hc.exists_body ho
  simp only [Node.wellFormed, Bool.and_eq_true]
  refine ⟨⟨⟨?_, ?_⟩, ?_⟩, all_eq_true.mpr hsound⟩
  · rw [herase, bodyOf_rewrittenWith ho] at hbody
    rw [herase]
    exact keyed_rewrittenWith ho hkeyed fun v hv => (hbody v hv).2
  · rw [herase, programOf_rewrittenWith ho, hasKind_iff, kind?_obj, Table.get?_set, if_neg (by decide)]
    exact get?_type (fun _ => not_drops_of_not_isStatement rfl) (kind?_obj.mp (hasKind_iff.mp ho.kind))
  · rw [herase, bodyOf_rewrittenWith ho] at hbody
    rw [herase, programOf_rewrittenWith ho, Node.holds, field?, Tree.fields, Table.get?_set, if_pos rfl]
    exact all_eq_true.mpr fun v hv => (hbody v hv).1

/-- The outcome of an expansion can be expanded again. -/
theorem Completed.isModule : IsModule (expand o t fresh).tree (expand o t fresh).fresh := by
  obtain ⟨h, hended⟩ := hc.ended
  refine ⟨(wellFormed_map _ _).symm.trans (hc.wellFormed ho hm), hc.tree ▸ hc.nodup ho hm, fun k hk => ?_⟩
  rw [hc.tree] at hk
  obtain ⟨cell, hcell⟩ := hended.models.root.some_of_mem hk
  rw [hc.marks]
  exact hended.models.below k cell hcell

end

end Module

end DebugGuards.Expansion
