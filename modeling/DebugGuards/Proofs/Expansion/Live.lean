import DebugGuards.Proofs.Expansion.Rewrite
import DebugGuards.Proofs.Workspace.Distinct

/-! The statements met on a walk. Going through the visits in order and passing over
those that are, or are below, a statement met before that has expired, gives the same
statements as the recursion over the document. -/

namespace DebugGuards.Expansion

open DebugGuards.Tree Node List

variable (expired : Tree Mark → Bool)

/-- The identities of the expired statements among those met. -/
def gone (met : List (Tree Mark)) : List Ref := (met.filter expired).map ref

/-- What a visit adds to the statements met: its node, if it is a statement and neither
the node nor an ancestor is gone. Ancestors are given by the numbers of their paths. -/
def meet (ofPath : PathId → Ref) (met : List (Tree Mark)) (v : Visit) : List (Tree Mark) :=
  if isStatement v.node && (v.node.ref :: v.path.above.map ofPath).all (fun r => !(gone expired met).contains r)
  then met ++ [v.node] else met

section Live

/-- The statements of what a slot holds. -/
def liveInside : Tree Mark → List (Tree Mark)
  | .arr _ items => liveItems expired items
  | t => live expired t

theorem liveItems_eq (items : List (Tree Mark)) : liveItems expired items = items.flatMap (live expired) := by
  induction items with
  | nil => rfl
  | cons x rest ih => rw [liveItems, ih, flatMap_cons]

theorem liveFields_eq (fields : Fields Mark) :
    liveFields expired fields = fields.flatMap fun e => if isMetadata e.1 then [] else liveInside expired e.2 := by
  induction fields with
  | nil => rfl
  | cons e rest ih =>
    obtain ⟨key, t⟩ := e
    rw [flatMap_cons, ← ih]
    cases t <;> simp only [liveFields, liveInside]

variable {expired}

theorem mem_liveFields {fields : Fields Mark} {s : Tree Mark} (hs : s ∈ liveFields expired fields) :
    ∃ e ∈ fields, isMetadata e.1 = false ∧ s ∈ liveInside expired e.2 := by
  rw [liveFields_eq, mem_flatMap] at hs
  obtain ⟨e, he, hs⟩ := hs
  split at hs
  · cases hs
  · next hk => exact ⟨e, he, by simpa using hk, hs⟩

/-- The statements met are nodes of the document. -/
theorem live_subset (t : Tree Mark) : live expired t ⊆ nodes t ∧ liveInside expired t ⊆ inside t := by
  induction t using induct with
  | scalar s => simp [liveInside, live]
  | arr m items ih =>
    refine ⟨by simp [live], fun s hs => ?_⟩
    rw [liveInside, liveItems_eq, mem_flatMap] at hs
    obtain ⟨x, hx, hs⟩ := hs
    rw [inside, nodesItems_eq, mem_flatMap]
    exact ⟨x, hx, (ih x hx).1 hs⟩
  | obj m fields ih =>
    have hf : liveFields expired fields ⊆ nodesFields fields := by
      intro s hs
      obtain ⟨e, he, hk, hs⟩ := mem_liveFields hs
      exact mem_nodesFields_of he hk ((ih e he).2 hs)
    have hlive : live expired (.obj m fields) ⊆ nodes (.obj m fields) := by
      rw [live, nodes]
      split
      · split
        · refine cons_subset_cons _ ?_
          split
          · exact nil_subset _
          · exact hf
        · exact List.Subset.trans hf (subset_cons_self _ _)
      · exact List.Subset.refl _
    exact ⟨hlive, hlive⟩

theorem liveFields_subset (fields : Fields Mark) :
    liveFields expired fields ⊆ nodesFields fields := by
  intro s hs
  obtain ⟨e, he, hk, hs⟩ := mem_liveFields hs
  exact mem_nodesFields_of he hk ((live_subset e.2).2 hs)

theorem isStatement_of_live (t : Tree Mark) :
    (∀ s ∈ live expired t, isStatement s = true) ∧ ∀ s ∈ liveInside expired t, isStatement s = true := by
  induction t using induct with
  | scalar s => simp [liveInside, live]
  | arr m items ih =>
    refine ⟨by simp [live], fun s hs => ?_⟩
    rw [liveInside, liveItems_eq, mem_flatMap] at hs
    obtain ⟨x, hx, hs⟩ := hs
    exact (ih x hx).1 s hs
  | obj m fields ih =>
    have hf : ∀ s ∈ liveFields expired fields, isStatement s = true := by
      intro s hs
      obtain ⟨e, he, _, hs⟩ := mem_liveFields hs
      exact (ih e he).2 s hs
    have hlive : ∀ s ∈ live expired (.obj m fields), isStatement s = true := by
      intro s hs
      rw [live] at hs
      split at hs
      · split at hs
        · next hst =>
          rcases mem_cons.mp hs with rfl | hs
          · exact hst
          · split at hs
            · cases hs
            · exact hf s hs
        · exact hf s hs
      · cases hs
    exact ⟨hlive, hlive⟩

end Live

section Gone
variable {expired}

theorem gone_append (a b : List (Tree Mark)) : gone expired (a ++ b) = gone expired a ++ gone expired b := by
  simp [gone]

theorem mem_gone {met : List (Tree Mark)} {r : Ref} :
    r ∈ gone expired met ↔ ∃ s ∈ met, expired s = true ∧ s.ref = r := by
  simp [gone, and_assoc]

theorem foldl_meet_of_gone {ofPath : PathId → Ref} {met : List (Tree Mark)} {vs : List Visit}
    (hv : ∀ v ∈ vs, ∃ a ∈ v.path.above, ofPath a ∈ gone expired met) : vs.foldl (meet expired ofPath) met = met := by
  induction vs with
  | nil => rfl
  | cons v vs ih =>
    rw [forall_mem_cons] at hv
    obtain ⟨a, ha, hg⟩ := hv.1
    have hm : meet expired ofPath met v = met := by
      rw [meet, if_neg]
      simp only [Bool.and_eq_true, all_cons, all_map, all_eq_true, not_and]
      intro _ _ hall
      have := hall a ha
      simp [hg] at this
    rw [foldl_cons, hm, ih hv.2]

theorem foldl_meet_filter {ofPath : PathId → Ref} (vs : List (PathId × Visit)) (met : List (Tree Mark)) :
    ((vs.filter fun iv => isStatement iv.2.node).map Prod.snd).foldl (meet expired ofPath) met =
      (vs.map Prod.snd).foldl (meet expired ofPath) met := by
  induction vs generalizing met with
  | nil => rfl
  | cons iv vs ih =>
    rw [map_cons, foldl_cons, ← ih]
    cases hst : isStatement iv.2.node with
    | true => rw [filter_cons_of_pos (by simpa using hst), map_cons, foldl_cons]
    | false =>
      rw [filter_cons_of_neg (by simp [hst])]
      simp [meet, hst]

end Gone

section Walk
variable {expired} {ofPath : PathId → Ref} {above : List PathId}

/-- Nothing of a document with given marks, and none of its ancestors, is gone. -/
structure Clear (expired : Tree Mark → Bool) (ofPath : PathId → Ref) (above : List PathId) (marks : List Mark)
    (met : List (Tree Mark)) : Prop where
  ancestors : ∀ a ∈ above, ofPath a ∉ gone expired met
  parts : ∀ m ∈ marks, .part m ∉ gone expired met
  outside : ∀ a ∈ above, ∀ m ∈ marks, ofPath a ≠ .part m

theorem Clear.mono {marks marks' : List Mark} {met : List (Tree Mark)} (hc : Clear expired ofPath above marks met)
    (hm : marks' ⊆ marks) : Clear expired ofPath above marks' met :=
  ⟨hc.ancestors, fun m h => hc.parts m (hm h), fun a ha m h => hc.outside a ha m (hm h)⟩

/-- Going through the visits adds given statements, if nothing is gone before. -/
def Meets (expired : Tree Mark → Bool) (ofPath : PathId → Ref) (above : List PathId) (f : PathId → List Visit)
    (marks : List Mark) (statements : List (Tree Mark)) : Prop :=
  ∀ next met, (∀ iv ∈ Visit.numbered next (f next), ofPath iv.1 = iv.2.node.ref) →
    Clear expired ofPath above marks met → (f next).foldl (meet expired ofPath) met = met ++ statements

theorem chained_meets {σ : Type} {f : σ → PathId → List Visit} {mk : σ → List Mark}
    {g : σ → List (Tree Mark)} {l : List σ} (hf : ∀ x ∈ l, Meets expired ofPath above (f x) (mk x) (g x))
    (hg : ∀ x ∈ l, ∀ s ∈ g x, ∃ m ∈ mk x, s.ref = .part m)
    (hd : l.Pairwise fun a b => List.Disjoint (mk a) (mk b)) :
    Meets expired ofPath above (fun next => Visit.chained f next l) (l.flatMap mk) (l.flatMap g) := by
  induction l with
  | nil => intro next met _ _; simp [Visit.chained]
  | cons x rest ih =>
    intro next met hn hc
    rw [forall_mem_cons] at hf hg
    rw [pairwise_cons] at hd
    simp only [Visit.chained, Visit.numbered_append, forall_mem_append] at hn
    have hfirst := hf.1 next met hn.1 (hc.mono (by simp))
    have hclear : Clear expired ofPath above (rest.flatMap mk) (met ++ g x) := by
      have hnew : ∀ r ∈ gone expired (g x), ∃ m ∈ mk x, r = .part m := by
        intro r hm
        obtain ⟨s, hs, _, rfl⟩ := mem_gone.mp hm
        exact hg.1 s hs
      refine ⟨fun a ha h => ?_, fun m hm h => ?_, fun a ha m hm => hc.outside a ha m ?_⟩
      · rw [gone_append, mem_append] at h
        rcases h with h | h
        · exact hc.ancestors a ha h
        · obtain ⟨m, hm, e⟩ := hnew _ h
          exact hc.outside a ha m (by simp [hm]) e
      · rw [gone_append, mem_append] at h
        rcases h with h | h
        · exact hc.parts m (by simp [mem_flatMap.mp hm]) h
        · obtain ⟨m', hm', e⟩ := hnew _ h
          cases e
          obtain ⟨y, hy, hm⟩ := mem_flatMap.mp hm
          exact hd.1 y hy hm' hm
      · simp [mem_flatMap.mp hm]
    simp only [Visit.chained, foldl_append, hfirst]
    rw [ih hf.2 hg.2 hd.2 _ _ hn.2 hclear, flatMap_cons, append_assoc]

theorem exists_ref_of_live {t s : Tree Mark} (hs : s ∈ liveInside expired t) :
    ∃ m ∈ t.marks, s.ref = .part m := by
  have hn := (live_subset t).2 hs
  obtain ⟨m, fields, rfl, _⟩ := exists_of_mem_inside hn
  exact ⟨m, marks_inside hn (mem_marks_of_ref rfl), rfl⟩

theorem live_subset_liveInside (t : Tree Mark) : live expired t ⊆ liveInside expired t := by
  cases t with
  | scalar | obj => exact List.Subset.refl _
  | arr m items => simp [live]

theorem liveFields_over (above : List PathId) (t : Tree Mark) :
    liveFields expired t.fields = (Visit.Pass.over above t).rest.flatMap fun c => live expired c.2 := by
  rw [Visit.flatMap_over fun x hx => by cases x <;> simp [live, hx], liveFields_eq]
  refine flatMap_congr fun ⟨key, v⟩ _ => ?_
  cases v <;> simp only [liveInside, liveItems_eq]

/-- What a pass comes to are different parts of the document, in order. -/
theorem over_sublist (above : List PathId) (t : Tree Mark) :
    ((Visit.Pass.over above t).rest.flatMap fun c => c.2.marks).Sublist (t.children.flatMap marks) := by
  cases t with
  | scalar | arr => exact nil_sublist _
  | obj m fields =>
    rw [Visit.Pass.over, flatMap_assoc, children, flatMap_map]
    refine List.Sublist.flatMap_right fields fun e _ => ?_
    simp only [Visit.held]
    split
    · exact nil_sublist _
    · split
      · next list items heq =>
        rw [heq, marks, marksItems_eq, flatMap_map]
        exact (filter_sublist.flatMap marks).trans (sublist_cons_self _ _)
      · split <;> simp

theorem enter_meets {m : Mark} {fields : Fields Mark} (hd : (obj m fields).marks.Nodup)
    (hk : isNode (obj m fields) = true) (hf : ∀ above, Meets expired ofPath above
      (fun next => Visit.belowOf above next (obj m fields)) ((fields.map Prod.snd).flatMap marks)
      (liveFields expired fields)) (slot : Slot) :
    Meets expired ofPath above (Visit.enter above (slot, obj m fields)) (obj m fields).marks
      (live expired (obj m fields)) := by
  intro next met hn hc
  simp only [Visit.enter, live, hk, if_true, Visit.numbered_cons, forall_mem_cons] at hn ⊢
  have hself : m ∈ (obj m fields).marks := mem_marks_of_ref rfl
  have hsub : (fields.map Prod.snd).flatMap marks ⊆ (obj m fields).marks := by
    rw [marks_eq]; exact subset_append_right _ _
  have hfirst : meet expired ofPath met ⟨⟨(obj m fields).ref, slot, above⟩, obj m fields⟩ =
      if isStatement (obj m fields) then met ++ [obj m fields] else met := by
    have hall : (Ref.part m :: above.map ofPath).all (fun r => !(gone expired met).contains r) = true := by
      simpa using ⟨hc.parts m hself, hc.ancestors⟩
    simp only [meet, ref, hall, Bool.and_true]
  -- below a node that is not gone
  have below : ∀ met', gone expired met' = gone expired met →
      (Visit.belowOf (next :: above) (next + 1) (obj m fields)).foldl (meet expired ofPath) met' =
        met' ++ liveFields expired fields := by
    intro met' he
    refine hf (next :: above) (next + 1) met' hn.2 ⟨?_, ?_, ?_⟩
    · rw [he, forall_mem_cons, hn.1]
      exact ⟨hc.parts m hself, hc.ancestors⟩
    · rw [he]; exact fun k hk => hc.parts k (hsub hk)
    · rw [forall_mem_cons, hn.1]
      refine ⟨fun k hk e => ?_, fun a ha k hk => hc.outside a ha k (hsub hk)⟩
      cases e
      obtain ⟨c, hc', hk⟩ := mem_flatMap.mp hk
      exact not_mem_marks_child hd rfl hc' hk
  rw [foldl_cons, hfirst]
  cases hs : isStatement (obj m fields) with
  | false => simpa using below met rfl
  | true =>
    simp only [if_true]
    cases hx : expired (obj m fields) with
    | false =>
      rw [below _ (by simp [gone, hx])]
      simp
    | true =>
      rw [foldl_meet_of_gone]
      · simp
      · intro v hv
        obtain ⟨_, _, _, hv⟩ := Visit.mem_belowOf hv
        refine ⟨next, Visit.subset_above hv mem_cons_self, ?_⟩
        rw [hn.1]
        exact mem_gone.mpr ⟨_, by simp, hx, rfl⟩

/-- Going through the visits below a node adds the statements there that are not inside an
expired one. -/
theorem belowOf_meets {t : Tree Mark} (hd : t.marks.Nodup) (above : List PathId) :
    Meets expired ofPath above (fun next => Visit.belowOf above next t) (t.children.flatMap marks)
      (liveFields expired t.fields) := by
  have hsub := over_sublist above t
  rw [marks_eq] at hd
  have hnodup := nodup_flatMap.mp (hsub.nodup ((sublist_append_right _ _).nodup hd))
  have hall : ∀ c ∈ (Visit.Pass.over above t).rest,
      Meets expired ofPath above (Visit.enter above c) c.2.marks (live expired c.2) := by
    intro c hc
    have hbelow := belowOf_meets (hnodup.1 c hc)
    obtain ⟨m, fields, hobj, hk⟩ := exists_of_mem_inside (mem_inside_self (Visit.child_of_over hc).1)
    obtain ⟨slot, x⟩ := c
    cases hobj
    exact enter_meets (hnodup.1 _ hc) hk hbelow slot
  intro next met hn hc
  simp only [Visit.belowOf_eq] at hn ⊢
  rw [liveFields_over above]
  exact chained_meets hall (fun c _ s hs => exists_ref_of_live (live_subset_liveInside _ hs)) hnodup.2 next met hn
    (hc.mono hsub.subset)
termination_by t
decreasing_by exact Visit.sizeOf_child (Visit.child_of_over hc)

theorem foldl_meet_below {m : Mark} {fields : Fields Mark} (hd : (obj m fields).marks.Nodup)
    {next : PathId} (hn : ∀ iv ∈ Visit.numbered next (Visit.below next (obj m fields)), ofPath iv.1 = iv.2.node.ref) :
    (Visit.below next (obj m fields)).foldl (meet expired ofPath) [] = liveFields expired fields := by
  rw [(Visit.through_obj next m fields).2] at hn ⊢
  exact (belowOf_meets hd [] next [] hn ⟨by simp, by simp [gone], by simp⟩).trans (nil_append _)

end Walk

end DebugGuards.Expansion
