import DebugGuards.Proofs.Expansion.Calls
import DebugGuards.Proofs.Expansion.Remains

/-! Names and scopes. The statements that an expansion takes out or puts under guard are
known by the name they call, and nothing is asked of what stands around them: a parameter
of that name does not save a statement. The guard that is made is another matter. Its name
is chosen so that nothing in the module declares it, and nothing that is written declares
it either, so wherever it stands it means the constant. -/

namespace DebugGuards.Expansion

open DebugGuards.Tree Node List

variable {o : Options} {t : Tree Mark} {fresh m : Mark} {fields : Fields Mark} {body : Mark}
  {items : List (Tree Mark)} {guard n : String} {x : Tree Mark} {ps : List Path} {p : Patch} {es : List Entry}
  {w : Workspace} {h : Heap} {rs : List Ref}

section Undeclared

/-- No node inside declares the name. -/
def Silent (n : String) (d : Json) : Prop := ∀ y ∈ inside d, n ∉ declares y

theorem not_mem_of_inert {d : Json} (hd : Inert d) : n ∉ declares d := by
  rw [hd.2.2]
  exact not_mem_nil

/-- A constant declares its name only. -/
theorem silent_constant {a : String} (hne : a ≠ n) (d : Dialect) (i : Int) :
    Silent n (constant (.str a) (d.literal (.int i))) := by
  have hq : ∀ y : Json, Inert y → n ∉ declares y := fun _ => not_mem_of_inert
  have hnot : n ∉ [a] := fun hmem => hne (mem_singleton.mp hmem).symm
  refine forall_inside_make (Q := fun y => n ∉ declares y) hnot (forall_nodesFields ?_)
  simp only [forall_mem_cons]
  refine ⟨(fun _ h => by cases h), ?_, fun _ h => by cases h⟩
  intro y hy
  rw [listOf, inside, nodesItems_eq, flatMap_singleton, ← inside_eq_nodes rfl] at hy
  refine forall_inside_make (Q := fun y => n ∉ declares y) ?_ (forall_nodesFields ?_) y hy
  · exact hnot
  · simp only [forall_mem_cons]
    exact ⟨forall_inside_identifier hq a, forall_inside_literal hq d _, fun _ h => by cases h⟩

theorem Mild.declares_eq {drops : Tree Mark → Bool} {finish : Tree Mark → List (String × Json) → Json}
    (hm : Mild h drops finish) (hx : Shows h x) (hl : Legal x) (hn : isNode x = true) (hd : drops x = false) :
    declares (reshape drops finish x) = declares x := by
  cases hst : isStatement x with
  | false => exact ((hm.alike hx).2 hd).declares_eq hst hn hl
  | true =>
    obtain ⟨k, fs, _, rfl, _⟩ := exists_of_isNode hn
    have htype := kind?_obj.mp (hasKind_iff.mp hst)
    rw [reshape, if_pos hn, declares_of_isStatement (hm.kept _ _ (get?_type hm.not_drops_scalar htype)),
      declares_of_isStatement hst]

theorem Undeclared.rewritten (hu : Undeclared o t guard) (ho : Opening t m fields body items)
    (hs : Standing (moduleScan o t fresh m fields ps) fields body items (statementsOf o t) guard p es w h rs)
    (hc : Complete (moduleScan o t fresh m fields ps) (statementsOf o t) p) :
    ∀ y ∈ nodesFields (rewrittenFields o t guard fields),
      guard ∉ declares y := by
  have hdrops : p.drops = fun x => decide (x.ref ∈ gone (expiresIn o t) (statementsOf o t)) := by
    funext x
    rw [Patch.drops, hs.patch.gone]
    rfl
  have hfollows := Standing.follows (moduleScan o t fresh m fields ps) guard p
  have hmild := hfollows.mild hs.isStatement_of_drops
  have hbare : Mild (moduleScan o t fresh m fields ps).heap p.drops bare :=
    ⟨hs.isStatement_of_drops, fun _ _ _ => rfl, fun _ _ hk => hasKind_iff.mpr (kind?_obj.mpr hk)⟩
  rw [rewrittenFields, ← reshapeFields_of_standing ho hs hc]
  intro y hy
  obtain ⟨d, hd, hk, hy⟩ := mem_nodesFields hy
  rw [reshapeFields_eq] at hd
  obtain ⟨e, he, rfl⟩ := mem_map.mp hd
  rw [reshapeSlot, if_neg (by simpa using hk)] at hy
  have hlegal : Legal e.2 := fun m hm => hs.layout.sound m (mem_nodesFields_of he hk hm)
  have hshows : Shows (moduleScan o t fresh m fields ps).heap e.2 := hs.layout.shows.child (mem_map_of_mem he)
  refine (hfollows.forall_inside (Q := fun y => guard ∉ declares y) hs.isStatement_of_drops hshows hlegal
    (fun _ => not_mem_of_inert) fun z hz hnot _ hstays => ?_).1 y hy
  have hzs := inside_induction (fun _ h _ hc => h.child hc) hshows hz
  obtain ⟨k, fs, rfl, hnode⟩ := exists_of_mem_inside hz
  have hzl : Legal (obj k fs) := fun n hn => hlegal n (inside_trans hz hn)
  -- what is left of the node declares what the node does, whether or not it is rewritten inside
  have hnow := hmild.declares_eq hzs hzl hnode hnot
  have hthen := hbare.declares_eq hzs hzl hnode hnot
  rw [reshape, if_pos hnode] at hnow hthen
  rw [Tree.fields, hnow, ← hthen]
  refine hu _ ?_
  rw [standingFields, ho.fields_eq, ← hdrops, reshapeFields_eq]
  refine mem_nodesFields_of (mem_map_of_mem he) hk ?_
  rw [reshapeSlot, if_neg (by simpa using hk)]
  exact hstays

/-- What stands in the place of a statement does not declare the guard that is made. -/
theorem silent_inlined (ho : Opening t m fields body items) (hm : IsModule t fresh) (hg : IsGuard o t guard)
    (hmake : makesGuard o t = true)
    (hu : ∀ y ∈ nodesFields (rewrittenFields o t guard fields),
      guard ∉ declares y) {e : Entry}
    (he : e ∈ (remainingOf o t).flatMap fun x => Entry.inlined o (Workspace.dialectOf t) (.old x)) :
    Silent guard (e.image (rewritingOf o t guard).rewrite) := by
  obtain ⟨x, hx, he⟩ := mem_flatMap.mp he
  rw [Entry.inlined] at he
  cases hf : flagsFor? o x with
  | some flags =>
    rw [hf] at he
    obtain ⟨v, hv, rfl⟩ := mem_map.mp he
    obtain ⟨s, hs, rfl⟩ := mem_map.mp hv
    refine silent_constant (fun heq => hg.made hmake x (mem_filter.mp hx).1 ?_) _ _
    exact (named_sublist (isImport_of_flagsFor? hf)).subset (mem_map.mpr ⟨s, hs, heq⟩)
  | none =>
    rw [hf, mem_singleton] at he
    subst he
    intro y hy
    have hitem := mem_items_of_remainingOf ho hx
    have hstays : expiresIn o t x = false := by simpa using (mem_filter.mp hx).2
    have hbody : Table.get? (rewrittenFields o t guard fields) "body" =
        some (.arr () (reshapeItems (rewritingOf o t guard).drops (rewritingOf o t guard).finish items)) := by
      rw [get?_reshapeFields, ho.body]
      rfl
    refine hu y (mem_nodesFields_of (Table.mem_of_get? hbody) (by decide : isMetadata "body" = false) ?_)
    rw [inside, reshapeItems_eq, nodesItems_eq, mem_flatMap]
    have hkept : x ∈ items.filter fun y => !(rewritingOf o t guard).drops y :=
      mem_filter.mpr ⟨hitem, congrArg not hstays⟩
    have hnode : isNode ((rewritingOf o t guard).rewrite x) = true :=
      (ho.alike_rewrite hm hx guard).isNode_eq.trans (ho.statements x hitem)
    exact ⟨_, mem_map_of_mem hkept, inside_eq_nodes hnode ▸ hy⟩

theorem kind_redirectedTo (d : Dialect) (module : String) {k : Mark} (fs : Fields Mark) :
    kind (Standing.redirectedTo d module (obj k fs)) = kind (obj k fs).erase := by
  rw [Standing.redirectedTo, erase_obj, kind, kind, Table.get?_set, if_neg (by decide)]
  rfl

/-- The source of a statement says nothing about what it declares. -/
theorem declares_redirectedTo (d : Dialect) (module : String) {k : Mark} (fs : Fields Mark) :
    declares (Standing.redirectedTo d module (obj k fs)) = declares (obj k fs).erase := by
  have hfield : ∀ key, key ≠ "source" → field? (Standing.redirectedTo d module (obj k fs)) key =
      field? (obj k fs).erase key := fun key hkey => by
    rw [Standing.redirectedTo, erase_obj, field?, field?, Tree.fields, Tree.fields, Table.get?_set,
      if_neg (Ne.symm hkey)]
    rfl
  rw [declares, declares, names_redirectedTo, listAt, listAt, boundIn, boundIn, boundIn, boundIn,
    hfield "params" (by decide), hfield "param" (by decide), hfield "id" (by decide), isStatement, isStatement, hasKind,
    hasKind, kind_redirectedTo]

theorem silent_redirectedTo (d : Dialect) (module : String) {k : Mark} {fs : Fields Mark}
    (hs : Silent n (obj k fs).erase) : Silent n (Standing.redirectedTo d module (obj k fs)) := by
  have hnode : isNode (Standing.redirectedTo d module (obj k fs)) = isNode (obj k fs).erase := by
    rw [isNode, isNode, kind?, kind?, kind_redirectedTo]
  intro y hy
  cases hn : isNode (obj k fs).erase with
  | false =>
    change y ∈ nodes (Standing.redirectedTo d module (obj k fs)) at hy
    rw [Alike.nodes_eq_nil.mpr (hnode.trans hn)] at hy
    cases hy
  | true =>
    rcases mem_inside_obj hy with rfl | hy
    · rw [← Standing.redirectedTo, declares_redirectedTo]
      exact hs _ (mem_inside_self hn)
    · obtain ⟨e, he, hk, hy⟩ := mem_nodesFields hy
      rcases Table.mem_set he with he | rfl
      · refine hs y ?_
        rw [Alike.inside_of_isNode hn, erase_obj]
        exact mem_cons_of_mem _ (mem_nodesFields_of he hk hy)
      · exact forall_inside_literal (fun _ => not_mem_of_inert) d _ y hy

/-- The helpers import declares nothing new when it is seen to. -/
theorem silent_cleanedBlock {k : Mark} {fs : Fields Mark} {z : Json}
    (hz : z ∈ cleanedBlock o t (obj k fs)) (hs : Silent n (obj k fs).erase) : Silent n z := by
  rw [cleanedBlock] at hz
  split at hz
  · split at hz
    · cases hz
    · rw [mem_singleton.mp hz]
      exact silent_redirectedTo _ _ hs
  · rwa [mem_singleton.mp hz]
  · cases hz
  · cases hz

/-- A constant in front of the body declares the name, and nothing else in the program
does. -/
def FirstDeclares (d : Json) (n : String) : Prop :=
  ∃ init rest, bodyOf d = constant (.str n) init :: rest ∧
    ∀ y ∈ nodesFields (Table.set (programOf d).fields "body" (listOf rest)), n ∉ declares y

theorem firstDeclares_rewrittenWith (ho : Opening t m fields body items)
    (hu : ∀ y ∈ nodesFields (rewrittenFields o t guard fields),
      guard ∉ declares y) {init : Json} {rest : List Json} (hrest : ∀ y ∈ rest, Silent guard y) :
    FirstDeclares (rewrittenWith o t guard (constant (.str guard) init :: rest)) guard := by
  refine ⟨init, rest, bodyOf_rewrittenWith ho _, fun y hy => ?_⟩
  rw [programOf_rewrittenWith ho, Tree.fields, Table.set_set] at hy
  obtain ⟨d, hd, hk, hy⟩ := mem_nodesFields hy
  rcases Table.mem_set hd with hd | rfl
  · exact hu y (mem_nodesFields_of hd hk hy)
  · rw [listOf, inside, nodesItems_eq, mem_flatMap] at hy
    obtain ⟨z, hz, hy⟩ := hy
    exact hrest z hz y (nodes_subset_inside z hy)

variable {s s' : State} {fate : Option ImportFate}

/-- The guard that is made stands in front, and nothing else declares it. -/
theorem Concluded.firstDeclares (hc : Concluded o t fresh m fields body items ps guard p h rs s s' fate)
    (hmake : makesGuard o t = true) : FirstDeclares (expand o t fresh).tree.erase guard := by
  have ho := hc.opening
  have hg := hc.isGuard
  have hu := (hc.undeclared hmake).rewritten ho hc.standing hc.complete
  have hes : inlinedEntries o t guard = .new (constant (.str guard) ((Workspace.dialectOf t).literal
      (.int ((Table.get? o.envFlags.flags debugFlag).getD 0)))) :: (remainingOf o t).flatMap fun x =>
        Entry.inlined o (Workspace.dialectOf t) (.old x) := by
    rw [inlinedEntries, guardEntries, if_pos hmake]
    rfl
  rw [hc.tree]
  obtain ⟨_, herase⟩ | ⟨pre, e, post, k, fs, rs₁, rs₂, hd, himage, herase, _⟩ := hc.clean_cases
  · rw [herase, hes]
    refine firstDeclares_rewrittenWith ho hu fun y hy => ?_
    obtain ⟨e, he, rfl⟩ := mem_map.mp hy
    exact silent_inlined ho hc.isModule hg hmake hu he
  · obtain ⟨q, hq, hqy⟩ := hd.helper
    rw [← hd.erase, himage] at hqy
    cases pre with
    | nil =>
      -- the guard is no helper
      obtain ⟨rfl, _⟩ := List.cons.inj (hes.symm.trans hd.entries)
      obtain ⟨x, hx, hi, _, hnamed⟩ := mem_toolsOf hq
      obtain rfl : q.2 = guard := mem_singleton.mp hqy
      exact absurd ((named_sublist hi).subset (mem_map_of_mem hnamed)) (hg.made hmake x hx)
    | cons e₀ pre =>
      obtain ⟨rfl, hrest⟩ := List.cons.inj (hes.symm.trans hd.entries)
      have hsilent : ∀ e' ∈ pre ++ e :: post, Silent guard (e'.image (rewritingOf o t guard).rewrite) := fun e' he' =>
        silent_inlined ho hc.isModule hg hmake hu (hrest ▸ he')
      rw [herase]
      refine firstDeclares_rewrittenWith ho hu fun y hy => ?_
      rcases mem_append.mp hy with hy | hy
      · rcases mem_append.mp hy with hy | hy
        · obtain ⟨e', he', rfl⟩ := mem_map.mp hy
          exact hsilent e' (mem_append_left _ he')
        · exact silent_cleanedBlock hy (himage ▸ hsilent e (by simp))
      · obtain ⟨e', he', rfl⟩ := mem_map.mp hy
        exact hsilent e' (by simp [he'])

end Undeclared

section Statements

/-- The statement calls a diagnostic that the module imports, going by its name. -/
def CallsHelper (o : Options) (t x : Tree Mark) : Prop :=
  ∃ n i, calledName? x = some n ∧ importedAs? o (bodyOf t) n = some i ∧ (Diagnostic.ofName? (.str i)).isSome = true

/-- The statement declares a name under which the module imports a tool. -/
def Redeclares (o : Options) (t x : Tree Mark) : Prop := ∃ q ∈ toolsOf o (bodyOf t), q.2 ∈ names x

theorem callsHelper_of_verdict {v : Verdict} (hl : Legal x) (hn : isNode x = true) (hv : verdictOf o t x = .ok v)
    (hne : v ≠ .untouched) : CallsHelper o t x := by
  obtain ⟨h, _⟩ | ⟨name, helper, d, hcalled, hd, _⟩ := verdict_ok hv
  · exact absurd h hne
  rw [calledHelper_eq o t hl hn] at hcalled
  obtain ⟨n, hname, hcalled⟩ := Option.bind_eq_some_iff.mp (Except.ok.inj hcalled)
  obtain ⟨i, himp, heq⟩ := Option.map_eq_some_iff.mp hcalled
  cases heq
  exact ⟨n, i, hname, himp, Option.isSome_of_eq_some hd⟩

variable {k : Mark} {s s' : State}

/-- What is affected calls a helper. -/
theorem Standing.callsHelper
    (hs : Standing (moduleScan o t fresh m fields ps) fields body items (statementsOf o t) guard p es w h rs)
    (hx : Shows (moduleScan o t fresh m fields ps).heap x) (hr : x.ref = .part k) (ha : p.Affects k) :
    x ∈ nodesFields fields ∧ CallsHelper o t x := by
  have hof : ∀ y ∈ statementsOf o t, y.ref = .part k → ∀ v, verdictOf o t y = .ok v → v ≠ .untouched →
      x ∈ nodesFields fields ∧ CallsHelper o t x := by
    intro y hy hyr v hv hne
    have hj := hs.judged.judged y hy
    obtain rfl : y = x := hj.shows.unique hx (hyr.trans hr.symm)
    have hmem := hs.judged.nodes hy
    have hlegal : Legal y := fun n hn => hs.layout.sound n (nodesFields_trans hmem hn)
    exact ⟨hmem, callsHelper_of_verdict hlegal (isNode_of_isStatement hj.statement) hv hne⟩
  rcases ha with hgone | hnew
  · rw [hs.patch.gone] at hgone
    obtain ⟨y, hy, hexp, hyr⟩ := mem_gone.mp hgone
    exact hof y hy hyr _ (verdict_of_isExpired o _ hexp) (by simp)
  · obtain ⟨e, he⟩ := Option.ne_none_iff_exists'.mp hnew
    obtain ⟨y, hy, drafts, hyr, hop, _⟩ := hs.guarding k e he
    obtain ⟨v, hv, hd⟩ := Scan.exists_verdict hop
    refine hof y hy hyr v hv ?_
    rintro rfl
    cases hd

/-- The statement that declares the first helper, if it is one of the module. -/
theorem Declarer.redeclares {pre post : List Entry} {fs : Fields Mark} {rs₁ rs₂ : List Ref}
    (hd : Declarer o t (moduleScan o t fresh m fields ps) h es rs pre (.old x) post k fs rs₁ rs₂)
    (hs : Standing (moduleScan o t fresh m fields ps) fields body items (statementsOf o t) guard p es w h rs) :
    Redeclares o t x := by
  have hmem : Entry.old x ∈ es := by rw [hd.entries]; simp
  obtain ⟨q, hq, hqy⟩ := hd.helper
  have hvalue := (hs.stage.models.value_ref hd.shows).symm.trans (hs.value_entry hmem hd.here)
  rw [← hd.erase, hvalue, hs.names_image hmem] at hqy
  exact ⟨q, hq, hqy⟩

theorem not_isStatement_of_redeclares (hx : Redeclares o t x) : isStatement x = false := by
  obtain ⟨q, _, hq⟩ := hx
  refine Bool.eq_false_iff.mpr fun hst => ?_
  rw [names_of_isStatement hst] at hq
  cases hq

/-- The document in the end: what is written to is no statement, and the statements of the
body are there, but for one that declares a helper. -/
structure Aftermath (o : Options) (t : Tree Mark) (c : Scan) (body : Mark) (items : List (Tree Mark)) (p : Patch)
    (guard : String) (es : List Entry) (written : List Mark) (w : Workspace) (h : Heap) (rs : List Ref) : Prop where
  held : Held c body p guard written w h rs
  listed : ∀ m ∈ written, Listed c items m
  other : ∀ x m, Shows c.heap x → x.ref = .part m → m ∈ written → isStatement x = false
  items : ∀ z, Entry.old z ∈ es → (z.ref ∈ rs ∧ ∀ m ∈ written, z.ref ≠ .part m) ∨ Redeclares o t z

theorem Standing.aftermath {es' : List Entry}
    (hs : Standing (moduleScan o t fresh m fields ps) fields body items (statementsOf o t) guard p es' w h rs)
    (hes : ∀ z, Entry.old z ∈ es → Entry.old z ∈ es' ∨ Redeclares o t z) :
    Aftermath o t (moduleScan o t fresh m fields ps) body items p guard es [] w h rs := by
  refine ⟨hs.held, (fun _ h => by cases h), (fun _ _ _ _ h => by cases h), fun z hz => ?_⟩
  refine (hes z hz).imp_left fun hz => ⟨?_, fun _ h => by cases h⟩
  obtain ⟨r, hr, e⟩ := forall₂_exists_right hs.entries hz
  exact (show r = z.ref from e) ▸ hr

theorem Concluded.exists_aftermath {fate : Option ImportFate}
    (hc : Concluded o t fresh m fields body items ps guard p h rs s s' fate) :
    ∃ written h' rs', Aftermath o t (moduleScan o t fresh m fields ps) body items p guard (inlinedEntries o t guard)
      written s'.workspace h' rs' := by
  have hs := hc.standing
  obtain ⟨rfl, _⟩ | ⟨pre, e, post, k, fs, rs₁, rs₂, hd, _, _, ⟨h', rs', hs'⟩ | ⟨q, hq⟩ | ⟨h', cs, hw', hwr, hroot⟩⟩ :=
    hc.clean_cases
  · exact ⟨[], h, rs, hs.aftermath fun _ hz => .inl hz⟩
  · refine ⟨[], h', rs', hs'.aftermath fun z hz => ?_⟩
    rw [hd.entries, mem_append, mem_cons] at hz
    rcases hz with hz | rfl | hz
    · exact .inl (mem_append_left _ hz)
    · exact .inr (hd.redeclares hs)
    · exact .inl (mem_append_right _ hz)
  · rw [hq]
    exact ⟨[], h, rs, (hs.addPath q).aftermath fun _ hz => .inl hz⟩
  · have hmem : e ∈ inlinedEntries o t guard := by rw [hd.entries]; simp
    have hold : ∀ x, Shows (moduleScan o t fresh m fields ps).heap x → x.ref = .part k → Redeclares o t x := by
      intro x hx hr
      cases e with
      | new v => exact absurd (hs.layout.ready.marks_lt hx (mem_marks_of_ref hr)) (Nat.not_lt.mpr hd.here.le)
      | old y =>
        obtain rfl : y = x := (hs.shows_old hmem).unique hx ((show Ref.part k = y.ref from hd.here).symm.trans hr.symm)
        exact hd.redeclares hs
    have hlisted : Listed (moduleScan o t fresh m fields ps) items k := by
      cases e with
      | new v => exact .new hd.here.le
      | old y => exact .item y (hs.item_mem hmem) (show Ref.part k = y.ref from hd.here).symm
    have hrs := hd.refs
    subst hrs
    refine ⟨[k], h', _, hs.held_write (hlisted.ne_body hs.layout) hw' hwr hroot,
      fun _ h => mem_singleton.mp h ▸ hlisted,
      fun x j hx hr h => not_isStatement_of_redeclares (hold x hx (mem_singleton.mp h ▸ hr)), fun z hz => ?_⟩
    by_cases hr : z.ref = .part k
    · exact .inr (hold z (hs.shows_old hz) hr)
    · obtain ⟨r, hmem, e⟩ := forall₂_exists_right hs.entries hz
      exact .inl ⟨(show r = z.ref from e) ▸ hmem, fun _ h => mem_singleton.mp h ▸ hr⟩

section Fares

variable {written : List Mark} {y : Tree Mark}

/-- What has become of a statement that is still there. It has the expression it had; or it
calls a helper, and has the guard in front. -/
inductive Fares (o : Options) (t : Tree Mark) (guard? : Option String) (x y : Tree Mark) : Prop
  | same (statement : isStatement y = true) (expression : (expressionOf y).ref = (expressionOf x).ref) :
      Fares o t guard? x y
  | guarded (g : String) (operands : List Json) (statement : isStatement y = true) (helper : CallsHelper o t x)
      (guard : guard? = some g) (expression : (expressionOf y).erase = parenthesized (guardChain (.str g) operands)) :
      Fares o t guard? x y

theorem Aftermath.fares {rs' : List Ref} {w' : Workspace} {h' : Heap} (expanded removed : Nat)
    (hs : Standing (moduleScan o t fresh m fields ps) fields body items (statementsOf o t) guard p es w h rs)
    (ha : Aftermath o t (moduleScan o t fresh m fields ps) body items p guard es written w' h' rs')
    (hx : x ∈ nodesFields fields) (hst : isStatement x = true) (hexp : isStatement (expressionOf x) = false)
    (hr : x.ref = .part k) (hy : w'.root.find? k = some y) :
    Fares o t (resolvedSummary o t guard expanded removed).guard x y := by
  have hshows := hs.layout.shows_node hx
  have hb : k ≠ body := fun e => hs.layout.ref_ne_body hx (e ▸ hr)
  have hw : k ∉ written := fun hmem => by
    rw [ha.other x k hshows hr hmem] at hst
    cases hst
  obtain ⟨_, fs, _, rfl, _⟩ := exists_of_isNode (isNode_of_isStatement hst)
  cases hr
  have hyshows := ha.held.models.root.find? hy
  obtain ⟨gs, rfl⟩ := ha.held.exists_obj hs.layout hshows hb hw hyshows (find?_spec hy).1
  have hst' := ha.held.isStatement_eq hs.layout hs.patch hs.judged hshows hb hw hst hyshows
  cases hnew : p.new k with
  | none =>
    exact .same hst' (ha.held.expression_of_none hs.layout hs.patch hs.judged hshows hb hw hexp hnew hyshows)
  | some e =>
    obtain ⟨operands, hoperands⟩ := ha.held.expression_of_some hs.layout hshows hb hw hnew hyshows
    have hsites : sitesOf o t ≠ [] := by
      obtain ⟨z, hz, drafts, _, hop, _⟩ := hs.guarding k e hnew
      refine ne_nil_of_mem (a := z) ?_
      rw [← sites_statementsOf o t fresh m fields ps]
      exact mem_map.mpr ⟨(z, drafts), mem_filterMap.mpr ⟨z, hz, by rw [hop]; rfl⟩, rfl⟩
    refine .guarded guard operands hst' (hs.callsHelper hshows rfl (.inr ?_)).2 (guard_of_sites hsites ..) hoperands
    rw [hnew]
    exact Option.some_ne_none e

/-- A statement that is in nothing that calls a helper or declares one is still there. -/
theorem Aftermath.mem_root {rs' : List Ref} {w' : Workspace} {h' : Heap} (ho : Opening t m fields body items)
    (hs : Standing (moduleScan o t fresh m fields ps) fields body items (statementsOf o t) guard p
      (inlinedEntries o t guard) w h rs)
    (ha : Aftermath o t (moduleScan o t fresh m fields ps) body items p guard (inlinedEntries o t guard)
      written w' h' rs')
    (hx : x ∈ nodesFields fields) (hst : isStatement x = true) (hr : x.ref = .part k)
    (hcalls : ∀ y ∈ nodesFields fields, CallsHelper o t y → k ∉ y.marks)
    (hdeclares : ∀ y ∈ items, isImport y = false → Redeclares o t y → k ∉ y.marks) : k ∈ w'.root.marks := by
  have hl := hs.layout
  have hfree : ∀ y j, Shows (moduleScan o t fresh m fields ps).heap y → y.ref = .part j → k ∈ y.marks →
      ¬ p.Affects j := fun y j hy hyr hk haff =>
    hcalls y (hs.callsHelper hy hyr haff).1 (hs.callsHelper hy hyr haff).2 hk
  obtain ⟨e, he, _, _, hsub⟩ := marks_nodesFields hx
  refine ha.held.mem_root hl hs.patch hs.judged ho.wraps ha.listed hfree (fun z hz hk => ?_) he
    (fun e => hl.ref_ne_body hx (e ▸ hr)) (hsub (mem_marks_of_ref hr))
  have hin := hl.mem_inside_item hx hr hz hk
  have himport : isImport z = false := by
    refine Bool.eq_false_iff.mpr fun hi => ?_
    rw [not_isStatement_of_import (ho.legal hz) hi hin] at hst
    cases hst
  have hstays : expiresIn o t z = false := by
    refine Bool.eq_false_iff.mpr fun hexp => ?_
    have hzst := isStatement_of_expiresIn hexp
    obtain ⟨j, _, _, rfl, _⟩ := exists_of_isNode (ho.statements z hz)
    refine hfree _ j (hl.shows_node (hl.item_mem hz)) rfl hk (.inl ?_)
    rw [hs.patch.gone, mem_gone]
    exact ⟨_, mem_statementsOf ho hz hzst, hexp, rfl⟩
  have hmem : Entry.old z ∈ inlinedEntries o t guard := by
    refine mem_append_right _
      (mem_flatMap.mpr ⟨z, mem_filter.mpr ⟨ho.bodyOf_eq ▸ hz, by simp [hstays]⟩, ?_⟩)
    rw [Entry.inlined, flagsFor?, himport]
    exact mem_singleton.mpr rfl
  exact (ha.items z hmem).resolve_right fun hd => hdeclares z hz himport hd hk

end Fares

end Statements

/-- Statements are known by the name they call. One that is still there has the expression
it had, or calls a helper by name and is under guard; one that is not lies inside such a
call, or in a statement that declares the name of a helper. A guard that is made is declared
by its constant, in front, and by nothing else; one that is found is the debug flag. -/
theorem expand_by_name (hm : IsModule t fresh) {summary : Summary} (hok : (expand o t fresh).result = .ok summary) :
    (∀ x ∈ nodesFields (programOf t).fields, isStatement x = true → isStatement (expressionOf x) = false →
      ∀ k, x.ref = .part k →
        (∀ y, (expand o t fresh).tree.find? k = some y → Fares o t summary.guard x y) ∧
        ((expand o t fresh).tree.find? k = none →
          (∃ y ∈ nodesFields (programOf t).fields, CallsHelper o t y ∧ k ∈ y.marks) ∨
          ∃ y ∈ bodyOf t, isImport y = false ∧ Redeclares o t y ∧ k ∈ y.marks)) ∧
    ∀ g, summary.guard = some g →
      summary.synthesized = false ∧ g = debugFlag ∨
      summary.synthesized = true ∧ FirstDeclares (expand o t fresh).tree.erase g := by
  obtain ⟨m, fields, body, items, ho⟩ := hm.opens
  obtain ⟨ps, g, p, h, rs, s, s', fate, hc, rfl⟩ := exists_concluded ho hm hok
  obtain ⟨written, h', rs', hafter⟩ := hc.exists_aftermath
  have hs := hc.standing
  rw [ho.fields_eq, ho.bodyOf_eq]
  refine ⟨fun x hx hst hexp k hr => ⟨fun y hy => ?_, fun hnone => ?_⟩, fun g' hg' => ?_⟩
  · rw [hc.tree] at hy
    exact hafter.fares (sitesOf o t).length (expiredCount o t) hs hx hst hexp hr hy
  · by_contra hnot
    rw [not_or] at hnot
    have hmem := hafter.mem_root ho hs hx hst hr (fun y hy hcall hk => hnot.1 ⟨y, hy, hcall, hk⟩)
      fun y hy hi hd hk => hnot.2 ⟨y, hy, hi, hd, hk⟩
    obtain ⟨y, hy⟩ := find?_isSome hmem
    rw [← hc.tree, hnone] at hy
    cases hy
  · obtain rfl := guard_of_resolved (sitesOf o t).length (expiredCount o t) hg'
    cases hmake : makesGuard o t with
    | true => exact .inr ⟨hmake, hc.firstDeclares hmake⟩
    | false =>
      refine .inl ⟨hmake,
        hc.isGuard.reused ((resolved_of_guard (sitesOf o t).length (expiredCount o t) hg').resolve_right ?_)⟩
      rw [hmake]
      decide

/-- A function with two parameters that warns. -/
def warningFunction (a b : String) : Json :=
  make "FunctionDeclaration" [("id", identifier (.str "f")),
    ("params", listOf [identifier (.str a), identifier (.str b)]),
    ("body", make "BlockStatement" [("body", listOf [calling "warn" [literal (.str "x")]])])]

/-- A function that has the name a guard would have for a parameter. -/
def takenNameModule : Tree Mark × Mark :=
  marked (moduleOf [importing [("warn", "warn")] "@ember/debug-tools", warningFunction "_DEBUG" "x"])

theorem expand_by_name_taken :
    (expand .usual takenNameModule.1 takenNameModule.2).result =
      .ok { guard := some "_DEBUG2", synthesized := true, expanded := 1, helpersImport := some .removed } ∧
    (∀ x ∈ nodesFields (programOf takenNameModule.1).fields, isStatement x = true →
      isStatement (expressionOf x) = false → ∀ k, x.ref = .part k →
        (∀ y, (expand .usual takenNameModule.1 takenNameModule.2).tree.find? k = some y →
          Fares .usual takenNameModule.1 (some "_DEBUG2") x y) ∧
        ((expand .usual takenNameModule.1 takenNameModule.2).tree.find? k = none →
          (∃ y ∈ nodesFields (programOf takenNameModule.1).fields, CallsHelper .usual takenNameModule.1 y ∧
            k ∈ y.marks) ∨
          ∃ y ∈ bodyOf takenNameModule.1, isImport y = false ∧ Redeclares .usual takenNameModule.1 y ∧ k ∈ y.marks)) ∧
    ∀ g, some "_DEBUG2" = some g → true = false ∧ g = debugFlag ∨
      true = true ∧ FirstDeclares (expand .usual takenNameModule.1 takenNameModule.2).tree.erase g := by
  have hok : (expand .usual takenNameModule.1 takenNameModule.2).result =
      .ok { guard := some "_DEBUG2", synthesized := true, expanded := 1, helpersImport := some .removed } := by
    decide +kernel
  exact ⟨hok, expand_by_name (by decide +kernel) hok⟩

/-- A function whose parameters have the names of the helper and of the guard. -/
def shadowedModule : Tree Mark × Mark :=
  marked (moduleOf [importing [("DEBUG", "DEBUG")] "@ember/env-flags",
    importing [("warn", "warn")] "@ember/debug-tools", warningFunction "warn" "DEBUG"])

/-- A call of a parameter is taken for one of the helper of that name, and put under a guard
that is a parameter too. -/
theorem expand_ignores_parameters :
    IsModule shadowedModule.1 shadowedModule.2 ∧
      (expand .usual shadowedModule.1 shadowedModule.2).result =
        .ok { guard := some "DEBUG", expanded := 1, inlined := 1, helpersImport := some .removed } ∧
      ∃ f ∈ bodyOf shadowedModule.1, "warn" ∈ declares f ∧ "DEBUG" ∈ declares f ∧
        ∃ x ∈ inside f, isStatement x = true ∧ calledName? x = some "warn" ∧
          (x.mark?.bind fun k => (expand .usual shadowedModule.1 shadowedModule.2).tree.find? k).map
              (fun y => (expressionOf y).erase) =
            some (parenthesized (guardChain (.str "DEBUG")
              [call (Diagnostic.warning.calleeNode .console) [literal (.str "x")]])) := by
  decide +kernel

end DebugGuards.Expansion
