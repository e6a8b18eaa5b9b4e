import DebugGuards.Proofs.Expansion.Externals

/-! What is gone with the helpers import. A part of the module that lay in an expired
statement, in what a statement under guard called, or in the import that was taken out is
nowhere in the result. So no use of a helper is left dangling if the helper was used in
these places only. -/

namespace DebugGuards

open DebugGuards.Tree Node Expansion List

section Trees

variable {h : Heap} {x y s : Tree Mark} {j n : Mark}

theorem Shows.mem_marks_of_shared (hx : Shows h x) (hd : x.marks.Nodup) (hs : Shows h s) (hj : s.ref = .part j)
    (hjx : j ∈ x.marks) (hne : x.ref ≠ .part j) (hn : n ∈ s.marks) (hy : y ∈ x.children) (hny : n ∈ y.marks) :
    j ∈ y.marks := by
  rw [marks_eq, mem_append, mem_flatMap, Option.mem_toList] at hjx
  obtain ⟨z, hz, hjz⟩ := hjx.resolve_left fun e => hne (ref_eq_part_iff.mpr e)
  have hnz := (hx.child hz).marks_subset hjz hs hj hn
  obtain rfl : z = y := eq_of_mem_of_mem (children_pairwise hd) hz hy hnz hny
  exact hjz

end Trees

namespace Expansion

variable {c : Scan} {fields : Fields Mark} {body : Mark} {items met : List (Tree Mark)} {guard : String}
  {p : Patch} {es : List Entry} {w : Workspace} {h : Heap} {rs : List Ref} {x s : Tree Mark} {n j : Mark}

namespace Standing

section Paths

theorem exists_site (hs : Standing c fields body items met guard p es w h rs) {m : Mark} {fs : Fields Mark}
    (hx : Shows c.heap (.obj m fs)) (hm : p.new m ≠ none) :
    ∃ k gs, Table.get? fs "expression" = some (.obj k gs) ∧ isCall (.obj k gs) = true ∧
      (argumentsOf (.obj k gs) = [] ∨ ∃ i as, Table.get? gs "arguments" = some (.arr i as) ∧
        argumentsOf (.obj k gs) = as ∧ ∀ a ∈ as, isArgument a = true) := by
  obtain ⟨e, he⟩ := Option.ne_none_iff_exists'.mp hm
  obtain ⟨y, hy, drafts, hr, hop, _⟩ := hs.guarding m e he
  obtain rfl : y = .obj m fs := (hs.judged.judged y hy).shows.unique hx hr
  obtain ⟨k, gs, hcall, hk⟩ := exists_call hop
  refine ⟨k, gs, hcall, hk, ?_⟩
  obtain ⟨_, hnil⟩ | ⟨i, as, hargs, heq, hall⟩ := hs.layout.arguments (call_mem (hs.judged.nodes hy) hcall hk) hk
  · exact .inl hnil
  · exact .inr ⟨i, as, hargs, heq, hall⟩

theorem expressionOf_of_get? {m k : Mark} {fs gs : Fields Mark}
    (hg : Table.get? fs "expression" = some (.obj k gs)) : expressionOf (.obj m fs) = .obj k gs := by
  rw [expressionOf, Tree.fields, hg]
  rfl

section

variable (hs : Standing c fields body items met guard p es w h rs)
include hs

theorem keeps_through (hst : isStatement s = true)
    (hss : Shows c.heap s) (hj : s.ref = .part j) (hn : n ∈ s.marks) (hk : Keeps p x n) (hx : Shows c.heap x)
    (hd : x.marks.Nodup) (hjx : j ∈ x.marks) : Keeps p x j ∧ Keeps p s n := by
  have hself : ∀ {y : Tree Mark}, Shows c.heap y → y.ref = .part j → y = s := fun hy hr =>
    hy.unique hss (hr.trans hj.symm)
  induction hk with
  | @self x n hxn =>
    by_cases hr : x.ref = .part j
    · obtain rfl := hself hx hr
      exact ⟨.self hj, .self hxn⟩
    · rw [marks_eq, mem_append, mem_flatMap, Option.mem_toList] at hjx
      obtain ⟨z, hz, hjz⟩ := hjx.resolve_left fun e => hr (ref_eq_part_iff.mpr e)
      exact absurd ((hx.child hz).marks_subset hjz hss hj hn) (not_mem_marks_child hd hxn hz)
  | @item m xs y n hy hg inside ih =>
    have hc : y ∈ (arr m xs).children := hy
    by_cases hr : (arr m xs).ref = .part j
    · obtain rfl := hself hx hr
      exact ⟨.self hj, .item hy hg inside⟩
    · have hjy := hx.mem_marks_of_shared hd hss hj hjx hr hn hc inside.mem_marks
      obtain ⟨h1, h2⟩ := ih hn (hx.child hc) (nodup_child hd hc) hjy
      exact ⟨.item hy hg h1, h2⟩
  | @field m fs e n he hg hkey inside ih =>
    have hc : e.2 ∈ (obj m fs).children := mem_map_of_mem he
    by_cases hr : (obj m fs).ref = .part j
    · obtain rfl := hself hx hr
      exact ⟨.self hj, .field he hg hkey inside⟩
    · have hje := hx.mem_marks_of_shared hd hss hj hjx hr hn hc inside.mem_marks
      obtain ⟨h1, h2⟩ := ih hn (hx.child hc) (nodup_child hd hc) hje
      exact ⟨.field he hg hkey h1, h2⟩
  | @argument m fs a n hm ha inside ih =>
    by_cases hr : (obj m fs).ref = .part j
    · obtain rfl := hself hx hr
      exact ⟨.self hj, .argument hm ha inside⟩
    -- neither the call nor its list of arguments is a statement
    obtain ⟨k, gs, hcall, hk, hargs⟩ := hs.exists_site hx hm
    rw [expressionOf_of_get? hcall] at ha
    obtain hnil | ⟨i, as, hlist, heq, hall⟩ := hargs
    · rw [hnil] at ha
      cases ha
    rw [heq] at ha
    have h1 : obj k gs ∈ (obj m fs).children := mem_map_of_mem (Table.mem_of_get? hcall)
    have h2 : arr i as ∈ (obj k gs).children := mem_map_of_mem (Table.mem_of_get? hlist)
    have h3 : a ∈ (arr i as).children := ha
    have hd1 := nodup_child hd h1
    have hd2 := nodup_child hd1 h2
    have hna := inside.mem_marks
    have hne : ∀ {y : Tree Mark}, Shows c.heap y → isStatement y = false → y.ref ≠ .part j := by
      intro y hy hnot e
      rw [hself hy e, hst] at hnot
      cases hnot
    have hj1 := hx.mem_marks_of_shared hd hss hj hjx hr hn h1 (marks_child h2 (marks_child h3 hna))
    have hj2 := (hx.child h1).mem_marks_of_shared hd1 hss hj hj1 (hne (hx.child h1) (not_isStatement_of_isCall hk)) hn
      h2 (marks_child h3 hna)
    have hj3 := ((hx.child h1).child h2).mem_marks_of_shared hd2 hss hj hj2 (hne ((hx.child h1).child h2) rfl) hn h3 hna
    obtain ⟨h4, h5⟩ := ih hn (((hx.child h1).child h2).child h3) (nodup_child hd2 h3) hj3
    exact ⟨.argument hm (by rw [expressionOf_of_get? hcall, heq]; exact ha) h4, h5⟩

/-- A statement that has gone is nowhere below. -/
theorem ref_of_keeps_gone (hk : Keeps p x j) (hg : .part j ∈ p.gone) (hx : Shows c.heap x) : x.ref = .part j := by
  induction hk with
  | self hxn => exact hxn
  | item hy hng _ ih => exact absurd (ih hg (hx.child (t := arr _ _) hy) ▸ hg) hng
  | field he hng _ _ ih => exact absurd (ih hg (hx.child (t := obj _ _) (mem_map_of_mem he)) ▸ hg) hng
  | @argument m fs a j hm ha inside ih =>
    obtain ⟨k, gs, hcall, hk, hargs⟩ := hs.exists_site hx hm
    rw [expressionOf_of_get? hcall] at ha
    obtain hnil | ⟨i, as, hlist, heq, hall⟩ := hargs
    · rw [hnil] at ha
      cases ha
    rw [heq] at ha
    have hshows : Shows c.heap a := ((hx.child (t := obj m fs) (mem_map_of_mem (Table.mem_of_get? hcall))).child
      (t := obj k gs) (mem_map_of_mem (Table.mem_of_get? hlist))).child (t := arr i as) ha
    have hst := hs.patch.isStatement_of_affects hs.judged.judged hshows (ih hg hshows) (.inl hg)
    rw [not_isStatement_of_isArgument (hall a ha)] at hst
    cases hst

/-- What a statement under guard called is nowhere in it. -/
theorem not_keeps_callee {m : Mark}
    {fs : Fields Mark} (hx : Shows c.heap (.obj m fs)) (hd : (obj m fs).marks.Nodup) (hm : p.new m ≠ none)
    {f : Tree Mark} (hf : field? (expressionOf (.obj m fs)) "callee" = some f) (hn : n ∈ f.marks) :
    ¬ Keeps p (.obj m fs) n := by
  intro hk
  obtain ⟨k, gs, hcall, hkind, hargs⟩ := hs.exists_site hx hm
  rw [expressionOf_of_get? hcall] at hf
  have h1 : obj k gs ∈ (obj m fs).children := mem_map_of_mem (Table.mem_of_get? hcall)
  have h2 : f ∈ (obj k gs).children := mem_map_of_mem (Table.mem_of_get? hf)
  have hncall : n ∈ (obj k gs).marks := marks_child h2 hn
  have hfields := pairwise_map.mp (children_pairwise hd)
  have hfields' := pairwise_map.mp (children_pairwise (nodup_child hd h1))
  cases hk with
  | self hxn => exact not_mem_marks_child hd hxn h1 hncall
  | @field _ _ e _ he _ hkey inside =>
    have : e = ("expression", obj k gs) := eq_of_mem_of_mem hfields he (Table.mem_of_get? hcall) inside.mem_marks hncall
    exact hkey hm (by rw [this])
  | @argument _ _ a _ _ ha inside =>
    rw [expressionOf_of_get? hcall] at ha
    obtain hnil | ⟨i, as, hlist, heq, _⟩ := hargs
    · rw [hnil] at ha
      cases ha
    rw [heq] at ha
    have hna : n ∈ (arr i as).marks := marks_child (t := arr i as) ha inside.mem_marks
    have : ("callee", f) = ("arguments", arr i as) :=
      eq_of_mem_of_mem hfields' (Table.mem_of_get? hf) (Table.mem_of_get? hlist) hn hna
    exact absurd (congrArg Prod.fst this) (show ¬ "callee" = "arguments" by decide)

end

end Paths

section Gone

/-- Where a part of the module is that nothing is left of: in a statement that has gone,
in what a statement under guard called, or in a statement of the body that was taken out. -/
inductive Dropped (items met : List (Tree Mark)) (p : Patch) (es : List Entry) (n : Mark) : Prop
  | gone (s : Tree Mark) (hs : s ∈ met) (gone : s.ref ∈ p.gone) (inside : n ∈ s.marks) : Dropped items met p es n
  | callee (m : Mark) (fs : List (String × Tree Mark)) (f : Tree Mark) (hs : obj m fs ∈ met) (new : p.new m ≠ none)
      (eq : field? (expressionOf (obj m fs)) "callee" = some f) (inside : n ∈ f.marks) : Dropped items met p es n
  | entry (s : Tree Mark) (hs : s ∈ items) (out : Entry.old s ∉ es) (inside : n ∈ s.marks) : Dropped items met p es n

theorem Dropped.exists_node (hs : Standing c fields body items met guard p es w h rs) (hd : Dropped items met p es n) :
    ∃ s ∈ nodesFields fields, n ∈ s.marks := by
  cases hd with
  | gone s hmet _ hin => exact ⟨s, hs.judged.nodes hmet, hin⟩
  | entry s hitem _ hin => exact ⟨s, hs.layout.item_mem hitem, hin⟩
  | callee m fs f hmet new eq hin =>
    obtain ⟨k, gs, hcall, _, _⟩ := hs.exists_site (hs.judged.judged _ hmet).shows new
    rw [expressionOf_of_get? hcall] at eq
    refine ⟨_, hs.judged.nodes hmet, marks_child (mem_map_of_mem (Table.mem_of_get? hcall)) ?_⟩
    exact marks_child (t := obj k gs) (mem_map_of_mem (Table.mem_of_get? eq)) hin

/-- A statement of the body or another field of the program. -/
inductive Top (fields : List (String × Tree Mark)) (es : List Entry) : Tree Mark → Prop
  | old (x : Tree Mark) (hx : Entry.old x ∈ es) : Top fields es x
  | slot (e : String × Tree Mark) (he : e ∈ fields) (hne : e.1 ≠ "body") : Top fields es e.2

theorem Top.shows_nodup (hs : Standing c fields body items met guard p es w h rs) (hx : Top fields es x) :
    Shows c.heap x ∧ x.marks.Nodup := by
  cases hx with
  | old x hx => exact ⟨hs.shows_old hx, hs.layout.distinct_node (hs.layout.item_mem (hs.item_mem hx))⟩
  | slot e he _ =>
    exact ⟨hs.layout.shows.child (mem_map_of_mem he), nodup_child hs.layout.distinct (mem_map_of_mem he)⟩

/-- Fields of the program that share something are the same. -/
theorem field_unique (hl : Layout c fields body items) {e e' : String × Tree Mark} (he : e ∈ fields) (he' : e' ∈ fields)
    (hn : n ∈ e.2.marks) (hn' : n ∈ e'.2.marks) : e = e' := by
  have hpair := pairwise_map.mp (children_pairwise hl.distinct)
  exact eq_of_mem_of_mem hpair he he' hn hn'

theorem item_unique (hl : Layout c fields body items) {y : Tree Mark} (hx : x ∈ items) (hy : y ∈ items)
    (hn : n ∈ x.marks) (hn' : n ∈ y.marks) : x = y :=
  eq_of_mem_of_mem (children_pairwise (nodup_child hl.distinct hl.body_mem)) hx hy hn hn'

section

variable (hs : Standing c fields body items met guard p es w h rs)
include hs

/-- A node that shares something with a part at the top lies in it. -/
theorem Top.mem_marks (hx : Top fields es x)
    (hmem : s ∈ nodesFields fields) (hj : s.ref = .part j) (hn : n ∈ s.marks) (hnx : n ∈ x.marks) : j ∈ x.marks := by
  obtain ⟨e, he, _, hin, hsub⟩ := marks_nodesFields hmem
  have hbody : ("body", arr body items) ∈ fields := Table.mem_of_get? hs.layout.body
  cases hx with
  | slot e' he' _ =>
    obtain rfl := field_unique hs.layout he he' (hsub hn) hnx
    exact hsub (mem_marks_of_ref hj)
  | old x hx =>
    have hitem := hs.item_mem hx
    obtain rfl := field_unique hs.layout he hbody (hsub hn) (marks_child (t := arr body items) hitem hnx)
    rw [inside, nodesItems_eq, mem_flatMap] at hin
    obtain ⟨y, hy, hsy⟩ := hin
    have hmarks := marks_inside (nodes_subset_inside y hsy)
    obtain rfl := item_unique hs.layout hy hitem (hmarks hn) hnx
    exact hmarks (mem_marks_of_ref hj)

/-- Nothing at the top that is still there holds what has been dropped. -/
theorem not_keeps (hd : Dropped items met p es n) (hx : Top fields es x) (hxg : x.ref ∉ p.gone) : ¬ Keeps p x n := by
  intro hk
  obtain ⟨hshows, hnodup⟩ := Top.shows_nodup hs hx
  have hbody : ("body", arr body items) ∈ fields := Table.mem_of_get? hs.layout.body
  cases hd with
  | gone s hmet hgone hin =>
    have hj := hs.judged.judged s hmet
    obtain ⟨j, hr⟩ := hs.patch.part_of_gone hs.judged.judged _ hgone
    obtain ⟨hkj, _⟩ := hs.keeps_through hj.statement hj.shows hr hin hk hshows hnodup
      (hx.mem_marks hs (hs.judged.nodes hmet) hr hin hk.mem_marks)
    rw [hr] at hgone
    exact hxg (hs.ref_of_keeps_gone hkj hgone hshows ▸ hgone)
  | callee m fs f hmet new eq hin =>
    have hj := hs.judged.judged _ hmet
    obtain ⟨k, gs, hcall, _, _⟩ := hs.exists_site hj.shows new
    have hinside : n ∈ (obj m fs).marks := by
      rw [expressionOf_of_get? hcall] at eq
      refine marks_child (mem_map_of_mem (Table.mem_of_get? hcall)) ?_
      exact marks_child (t := obj k gs) (mem_map_of_mem (Table.mem_of_get? eq)) hin
    obtain ⟨_, hkn⟩ := hs.keeps_through hj.statement hj.shows rfl hinside hk hshows hnodup
      (hx.mem_marks hs (hs.judged.nodes hmet) rfl hinside hk.mem_marks)
    exact hs.not_keeps_callee hj.shows (hs.layout.distinct_node (hs.judged.nodes hmet)) new eq hin hkn
  | entry s hitem hout hin =>
    cases hx with
    | old x hx =>
      obtain rfl := item_unique hs.layout (hs.item_mem hx) hitem hk.mem_marks hin
      exact hout hx
    | slot e he hne =>
      have heq := field_unique hs.layout he hbody hk.mem_marks (marks_child (t := arr body items) hitem hin)
      exact hne (by rw [heq])

theorem secluded_of_dropped (hkeyed : (obj c.start.program fields).keyed = true) (hd : Dropped items met p es n) :
    Secluded c fields body p w rs n := by
  obtain ⟨s, hnode, hns⟩ := hd.exists_node hs
  obtain ⟨e₀, he₀, _, _, hsub₀⟩ := marks_nodesFields hnode
  have hprogram : n ∈ (obj c.start.program fields).marks :=
    marks_child (mem_map_of_mem he₀) (hsub₀ hns)
  have hlt : n < c.base := hs.layout.ready.marks_lt hs.layout.shows hprogram
  have htop : ∀ {y : Tree Mark}, Top fields es y → y.keyed = true → body ∉ y.marks → y.ref ∉ p.gone →
      n ∉ (w.deref y.ref).marks := fun hy hk hb hg hmem =>
    hs.not_keeps hd hy hg (hs.stage.keeps_of_mem hs.layout hs.judged hs.guarding hlt (hy.shows_nodup hs).1 hk hb hmem)
  refine ⟨fun r hr => ?_, fun e he hne => ?_, fun m fs heq hget => ?_, ?_, ?_⟩
  · obtain ⟨e, he, ha⟩ := forall₂_exists_left hs.entries hr
    cases e with
    | old y =>
      have hitem := hs.item_mem he
      rw [show r = y.ref from ha]
      exact htop (.old y he) (keyed_child (keyed_child hkeyed hs.layout.body_mem) hitem)
        (hs.layout.body_not_mem (hs.layout.item_mem hitem)) (hs.kept y he)
    | new v =>
      refine hs.stage.models.not_mem_of_reflects (show Reflects h c.base v.copy r from ha) hlt fun l hl => ?_
      rw [olds_copy] at hl
      cases hl
  · have hbody : body ∉ e.2.marks := fun hb =>
      hne (by rw [field_unique hs.layout he (Table.mem_of_get? hs.layout.body) hb (mem_marks_of_ref rfl)])
    rw [standIn]
    split
    · next hgone => exact hs.stage.not_mem_empty hs.layout.shows he hgone hlt
    · next hgone => exact htop (.slot e he hne) (keyed_child hkeyed (mem_map_of_mem he)) hbody hgone
  · refine ⟨fun e => hs.layout.file_not_mem heq hget (e ▸ hprogram), fun e he hne hmem => ?_⟩
    exact hs.layout.file_disjoint heq hget he hne n hmem hprogram
  · exact fun e => hs.layout.body_not_mem hnode (e ▸ hns)
  · exact fun e => not_mem_marks_child hs.layout.distinct rfl (mem_map_of_mem he₀) (e ▸ hsub₀ hns)

/-- What nothing of the body holds and nothing around it is not in the document. -/
theorem not_mem_root
    (hwraps : Wraps c.start.root (obj c.start.program fields)) (hsec : Secluded c fields body p w rs n) :
    n ∉ w.root.marks := by
  have hbody : n ∉ (w.deref (.part body)).marks := by
    intro hmem
    obtain rfl | ⟨r, hr, hn⟩ := hs.stage.models.mem_marks_deref hs.stage.list hmem
    · exact hsec.ne_body rfl
    · exact hsec.others r hr hn
  have hprogram : n ∉ (w.deref (.part c.start.program)).marks := by
    intro hmem
    obtain rfl | ⟨r, hr, hn⟩ :=
      hs.stage.models.mem_marks_deref (hs.stage.cell_program hs.layout hs.patch hs.judged) hmem
    · exact hsec.ne_program rfl
    rw [Cell.refs, Table.mapValues, List.map_map, mem_map] at hr
    obtain ⟨e, he, rfl⟩ := hr
    by_cases hkey : e.1 = "body"
    · have heq : Table.get? fields e.1 = some e.2 := Table.get?_of_mem hs.layout.keys he
      rw [hkey, hs.layout.body] at heq
      have hstand := Stage.standIn_body hs.layout hs.patch hs.judged
      rw [Function.comp_apply, ← Option.some.inj heq] at hn
      exact hbody (hstand ▸ hn)
    · exact hsec.slots e he hkey hn
  intro hmem
  rw [← hs.stage.models.deref_eq hs.stage.models.root, hs.stage.keeps.root] at hmem
  cases hwraps with
  | program hfile heq =>
    rw [heq] at hmem
    exact hprogram hmem
  | file m fs heq hfile hkeys hget =>
    obtain ⟨hne, hout⟩ := hsec.outside m fs heq hget
    rw [heq] at hmem
    obtain rfl | ⟨r, hr, hn⟩ := hs.stage.models.mem_marks_deref
      (hs.stage.cell_file hs.layout hs.patch hs.judged heq hkeys hget) hmem
    · exact hne rfl
    rw [Cell.refs, Table.mapValues, List.map_map, mem_map] at hr
    obtain ⟨e, he, rfl⟩ := hr
    by_cases hkey : e.1 = "program"
    · have hsame : Table.get? fs e.1 = some e.2 := Table.get?_of_mem hkeys he
      rw [hkey, hget] at hsame
      rw [Function.comp_apply, ← Option.some.inj hsame] at hn
      exact hprogram hn
    · rw [Function.comp_apply, hs.stage.models.deref_eq
        (hs.stage.shows_outside hs.layout hs.patch hs.judged heq hget he hkey)] at hn
      exact hout e he hkey hn

end

end Gone

section Texts

theorem textAt_obj (k : Mark) (gs : Fields Mark) (key : String) :
    textAt (obj k gs) key = match Table.get? (Table.mapValues ref gs) key with
      | some (.scalar (.str s)) => s
      | _ => "" := by
  rw [textAt, field?, Tree.fields, Table.get?_mapValues]
  cases Table.get? gs key with
  | none => rfl
  | some v =>
    cases v with
    | arr | obj => rfl
    | scalar s => cases s <;> rfl

theorem textAt_eq (hs : Standing c fields body items met guard p es w h rs) {k : ℕ}
    {gs : Fields Mark} (hy : Shows h (.obj k gs)) (hk : k < c.base) :
    ∃ fs, c.start.root.find? k = some (.obj k fs) ∧
      ∀ key, key ≠ "expression" → textAt (obj k gs) key = textAt (obj k fs) key := by
  have hcell : h k = some (.record (Table.mapValues ref gs)) := hy.here rfl
  have hne : k ≠ body := by
    rintro rfl
    rw [hs.stage.list] at hcell
    cases hcell
  rw [hs.stage.cells k hk hne, Option.map_eq_some_iff] at hcell
  obtain ⟨cell, hcell, heq⟩ := hcell
  obtain ⟨y, hfind, hyc⟩ := Option.bind_eq_some_iff.mp hcell
  have hshows : Shows c.heap y := hs.layout.ready.shows.find? hfind
  have hr := (find?_spec hfind).1
  cases y with
  | scalar s => cases hr
  | arr n ys =>
    cases hyc
    cases hn : p.new k <;> simp [Patch.cell, Cell.prune, Cell.under] at heq
  | obj n fs =>
    cases hr
    cases hyc
    refine ⟨fs, hfind, fun key hkey => ?_⟩
    have hget : Table.get? (Table.mapValues ref gs) key =
        (Table.get? (Table.mapValues ref fs) key).map (standIn p.gone p.empty) := by
      rw [← Table.get?_mapValues]
      cases hn : p.new k with
      | none =>
        rw [Patch.cell, hn, Cell.under_none, Cell.prune] at heq
        rw [← Cell.record.inj heq]
      | some e =>
        rw [Patch.cell, hn, Cell.prune, Cell.under] at heq
        rw [← Cell.record.inj heq, Table.get?_set, if_neg (Ne.symm hkey)]
    rw [textAt_obj, textAt_obj, hget]
    cases hf : Table.get? (Table.mapValues ref fs) key with
    | none => rfl
    | some r =>
      rw [Option.map_some]
      by_cases hgone : r ∈ p.gone
      · -- a stand-in is a part, and so was what it stands for
        obtain ⟨j, rfl⟩ := hs.patch.part_of_gone hs.judged.judged r hgone
        have hmem : Ref.part j ∈ (Table.mapValues ref fs).map Prod.snd := mem_map_of_mem (Table.mem_of_get? hf)
        have hempty := hs.stage.empties k _ (hshows.here rfl) _ hmem hgone
        rw [standIn, if_pos hgone]
        generalize p.empty (.part j) = q at hempty
        cases hempty with
        | old _ _ hm => cases hm
        | new _ l _ _ _ _ _ _ => rfl
      · rw [standIn, if_neg hgone]

end Texts

end Standing

section Result

variable {o : Options} {t : Tree Mark} {fresh m : Mark} {summary : Summary}

/-- A part of a module that an expansion which takes an import out does away with: one in
that import, in an expired statement, or in what a statement that goes under guard
calls. -/
inductive Covered (o : Options) (t x : Tree Mark) (k : Mark) : Prop
  | imported (inside : k ∈ x.marks) : Covered o t x k
  | expired (s : Tree Mark) (hs : s ∈ statementsOf o t) (expires : expiresIn o t s = true) (inside : k ∈ s.marks) :
      Covered o t x k
  | callee (s f : Tree Mark) (hs : s ∈ sitesOf o t) (eq : field? (expressionOf s) "callee" = some f)
      (inside : k ∈ f.marks) : Covered o t x k

theorem isIdentifier_obj (k : Mark) (gs : Fields Mark) :
    isIdentifier (obj k gs) = true ↔ textAt (obj k gs) "type" = "Identifier" := by
  rw [isIdentifier, hasKind_iff, kind?_obj, textAt, field?, Tree.fields]
  constructor
  · intro h
    rw [h]
  · intro h
    split at h
    · next s hs => rw [hs, h]
    · exact absurd h (by decide)

/-- What is covered is dropped once the import is out. -/
theorem dropped_of_covered {ps : List Path} {p : Patch} {pre post : List Entry} {w : Workspace} {h : Heap}
    {rs : List Ref} {k : Mark}
    (hs : Standing (moduleScan o t fresh m fields ps) fields body items (statementsOf o t) guard p (pre ++ post) w h rs)
    (hc : Complete (moduleScan o t fresh m fields ps) (statementsOf o t) p) (hx : x ∈ items)
    (hout : Entry.old x ∉ pre ++ post) (hk : Covered o t x k) :
    Standing.Dropped items (statementsOf o t) p (pre ++ post) k := by
  cases hk with
  | imported hin => exact .entry x hx hout hin
  | expired s hmet hexp hin =>
    refine .gone s hmet ?_ hin
    rw [hs.patch.gone, mem_gone]
    exact ⟨s, hmet, hexp, rfl⟩
  | callee s f hsite eq hin =>
    obtain ⟨hmet, v, drafts, _, _, hop⟩ := exists_operands hsite fresh m fields ps
    obtain ⟨j, fs, _, rfl, _⟩ := exists_of_isNode (isNode_of_isStatement (isStatement_of_statementsOf hmet))
    exact .callee j fs f hmet (hc _ hmet (by rw [hop]; nofun) j rfl) eq hin

/-- An import that is taken out is nowhere else among the entries. -/
theorem old_not_mem (ho : Opening t m fields body items) (hm : IsModule t fresh) {before after : List (Tree Mark)}
    (hsplit : remainingOf o t = before ++ x :: after) (guard : String) :
    Entry.old x ∉
      (guardEntries o t guard ++ before.flatMap fun y => Entry.inlined o (Workspace.dialectOf t) (.old y)) ++
        after.flatMap fun y => Entry.inlined o (Workspace.dialectOf t) (.old y) := by
  have hpair : (remainingOf o t).Pairwise fun a b => a.ref ≠ b.ref := by
    rw [remainingOf, ho.bodyOf_eq]
    exact (refs_pairwise ho hm).sublist filter_sublist
  rw [hsplit, pairwise_append, pairwise_cons] at hpair
  have hinlined : ∀ ys : List (Tree Mark), (∀ y ∈ ys, y.ref ≠ x.ref) →
      Entry.old x ∉ ys.flatMap fun y => Entry.inlined o (Workspace.dialectOf t) (.old y) := by
    intro ys hys hmem
    obtain ⟨y, hy, hin⟩ := mem_flatMap.mp hmem
    rw [Entry.inlined] at hin
    split at hin
    · exact old_not_mem_map_new _ _ hin
    · cases mem_singleton.mp hin
      exact hys x hy rfl
  rw [mem_append, mem_append]
  rintro ((hmem | hmem) | hmem)
  · rw [guardEntries] at hmem
    split at hmem
    · cases mem_singleton.mp hmem
    · cases hmem
  · exact hinlined before (fun y hy => hpair.2.2 y hy x (mem_cons_self ..)) hmem
  · exact hinlined after (fun y hy => Ne.symm (hpair.2.1.1 y hy)) hmem

/-- If the helpers import is taken out, and a name it bound occurred nowhere else but in
expired statements and as what a diagnostic was called by, then no identifier of the
module with that name is left. -/
theorem expand_no_dangling (hm : IsModule t fresh) (hd : Distinct t) (htools : flagsOf? o o.toolsSource = none)
    (hone : (bodyOf t).filter (fun x => isImport x && sourceOf x == o.toolsSource) = [x])
    (hok : (expand o t fresh).result = .ok summary) (hremoved : summary.helpersImport = some .removed) :
    ∀ n ∈ names x, (∀ k y, t.find? k = some y → isIdentifier y = true → textAt y "name" = n → Covered o t x k) →
      ∀ k < fresh, ∀ y, (expand o t fresh).tree.find? k = some y → isIdentifier y = true → textAt y "name" ≠ n := by
  rintro n _ huse k hk y hfind hid rfl
  obtain ⟨m, fields, body, items, ho⟩ := hm.opens
  obtain ⟨ps, g, p, w, hc⟩ := exists_completed ho hm hd htools hok
  rcases hc.ends with ⟨_, hnone, _⟩ | ⟨before, x', after, hsplit, hi, hsrc, hfate, hcleans⟩
  · rw [hnone] at hremoved
    cases hremoved
  have hx' : x' ∈ remainingOf o t := by
    rw [hsplit]
    simp
  obtain rfl := eq_of_tools hone hx' hi hsrc
  rw [hfate] at hremoved
  obtain ⟨h, rs, hs⟩ := hcleans.removed (Option.some.inj hremoved)
  rw [hc.tree] at hfind
  have hshows : Shows h y := hs.stage.models.root.find? hfind
  obtain ⟨hr, hsub, _⟩ := find?_spec hfind
  obtain ⟨_, gs, _, rfl, _⟩ := exists_of_isNode (isNode_of_hasKind hid)
  cases hr
  obtain ⟨fs, hbefore, htexts⟩ := hs.textAt_eq hshows hk
  have hidentifier : isIdentifier (obj k fs) = true := by
    rw [isIdentifier_obj, ← htexts "type" (by decide)]
    exact (isIdentifier_obj k gs).mp hid
  have hcovered := huse k (obj k fs) hbefore hidentifier (htexts "name" (by decide)).symm
  have hdropped := dropped_of_covered hs hc.complete (mem_items_of_remainingOf ho hx') (old_not_mem ho hm hsplit g)
    hcovered
  exact hs.not_mem_root ho.wraps (hs.secluded_of_dropped ho.keyed hdropped) (hsub (mem_marks_of_ref rfl))

theorem expand_no_dangling_alias :
    (expand .usual aliasedModule.1 aliasedModule.2).result =
        .ok { guard := some "_DEBUG", synthesized := true, expanded := 1, helpersImport := some .removed } ∧
      ∀ k < aliasedModule.2, ∀ y, (expand .usual aliasedModule.1 aliasedModule.2).tree.find? k = some y →
        isIdentifier y = true → textAt y "name" ≠ "w" := by
  have hok : (expand .usual aliasedModule.1 aliasedModule.2).result =
      .ok { guard := some "_DEBUG", synthesized := true, expanded := 1, helpersImport := some .removed } := by
    decide +kernel
  have hone : (bodyOf aliasedModule.1).filter (fun x => isImport x && sourceOf x == Options.usual.toolsSource) =
      [(bodyOf aliasedModule.1).headD .null] := by decide +kernel
  have huses : ∀ k ∈ aliasedModule.1.marks, ∀ y ∈ aliasedModule.1.find? k, isIdentifier y = true →
      textAt y "name" = "w" → k ∈ ((bodyOf aliasedModule.1).headD .null).marks ∨
        ∃ s ∈ sitesOf .usual aliasedModule.1, ∃ f ∈ (field? (expressionOf s) "callee").toList, k ∈ f.marks := by
    decide +kernel
  refine ⟨hok, expand_no_dangling (by decide +kernel) (by decide +kernel) (by decide +kernel) hone hok rfl "w"
    (by decide +kernel) fun k y hfind hid hname => ?_⟩
  obtain ⟨hr, hsub, _⟩ := find?_spec hfind
  rcases huses k (hsub (mem_marks_of_ref hr)) y hfind hid hname with hin | ⟨s, hs, f, hf, hin⟩
  · exact .imported hin
  · exact .callee s f hs (Option.mem_toList.mp hf) hin

/-- A helper that is used as a value. -/
def valueModule : Tree Mark × Mark :=
  marked (moduleOf [importing [("assert", "assert")] "@ember/debug-tools",
    constant (.str "check") (identifier (.str "assert"))])

/-- The helper is not bound any more, and its use is still there. -/
theorem expand_dangling :
    IsModule valueModule.1 valueModule.2 ∧
      (expand .usual valueModule.1 valueModule.2).result = .ok { helpersImport := some .removed } ∧
      (bodyOf (expand .usual valueModule.1 valueModule.2).tree).flatMap names = ["check"] ∧
      ∃ y ∈ inside (expand .usual valueModule.1 valueModule.2).tree, isIdentifier y = true ∧
        textAt y "name" = "assert" := by
  decide +kernel

end Result

end Expansion

end DebugGuards
