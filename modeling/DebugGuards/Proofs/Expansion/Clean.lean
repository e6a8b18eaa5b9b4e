import DebugGuards.Proofs.Expansion.Resolve

/-! The helpers import. What declares the first helper is looked up by name and taken
out, redirected or kept. This never fails. -/

namespace DebugGuards.Expansion

open DebugGuards.Tree Node

section Helpers

theorem mem_foldl_enterHelper {ss : List (String × String)} {table : Table Scalar Helper} {e : Scalar × Helper}
    (he : e ∈ ss.foldl enterHelper table) : e ∈ table ∨ ∃ s ∈ ss, e = (.str s.2, ⟨.str s.2, .str s.1⟩) := by
  induction ss generalizing table with
  | nil => exact .inl he
  | cons s ss ih =>
    rcases ih he with he | ⟨s', hs', rfl⟩
    · rcases Table.mem_set he with he | rfl
      · exact .inl he
      · exact .inr ⟨s, List.mem_cons_self .., rfl⟩
    · exact .inr ⟨s', List.mem_cons_of_mem _ hs', rfl⟩

theorem mem_helpersOf {α : Type} {o : Options} {ys : List (Tree α)} {e : Scalar × Helper} (he : e ∈ helpersOf o ys) :
    ∃ s ∈ toolsOf o ys, e = (.str s.2, ⟨.str s.2, .str s.1⟩) := by
  rcases mem_foldl_enterHelper he with he | he
  · cases he
  · exact he

end Helpers

variable {c : Scan} {fields : Fields Mark} {body : Mark} {items met : List (Tree Mark)} {guard : String}
  {p : Patch} {es pre post : List Entry} {s : State} {h : Heap} {rs : List Ref} {x y : Tree Mark} {o : Options}

theorem result_cleanImports {gs : Fields Mark} {ys : List (Tree Mark)} {k : Scalar} {first : Helper}
    {n : String} (hc : Contents s.workspace gs body ys) (hf : s.helpers.head? = some (k, first))
    (hn : first.bound = .str n) :
    (cleanImports o).result s =
      match declarer? ys n with
      | none => (.ok none, s)
      | some y => (cleanSite o.helpersModule s.workspace.paths.size).result
          { s with workspace := (s.workspace.addPath (Contents.place s.workspace body y)).2 } := by
  have hlook : (do return Table.get? (← s.workspace.bindings) (← first.bound.asKey) : Except Failure _) =
      .ok ((declarer? ys n).map (Contents.binding s.workspace body n)) := by
    rw [hn]
    exact hc.binding?_eq n
  rw [cleanImports, result_get_bind, hf]
  dsimp only
  rw [result_look_bind hlook]
  cases declarer? ys n with
  | none => rfl
  | some y => rfl

section Total

theorem Standing.cleanSite_ok (hs : Standing c fields body items met guard p es s.workspace h rs)
    (hy : y ∈ rs.map s.workspace.deref) {i : PathId}
    (hi : s.workspace.path i = Contents.place s.workspace body y) :
    ∃ fate s', (cleanSite o.helpersModule i).result s = (.ok fate, s') := by
  obtain ⟨r, hr, rfl⟩ := List.mem_map.mp hy
  obtain ⟨hrefs, hshows⟩ := hs.stage.models.shows_of_refs hs.stage.list hr
  have hremove : ∃ w', s.workspace.remove i = .ok w' := by
    have hin : s.workspace.inPlace (Contents.place s.workspace body (s.workspace.deref r)) = true := by
      rw [hs.stage.models.inPlace_item rfl hs.stage.list]
      exact (show (s.workspace.deref r).ref ∈ rs by rw [hrefs]; exact hr)
    have hnone : ∀ d ∈ ([] : List Draft), Grounded (Function.update h body none) d := nofun
    obtain ⟨_, w', _, hok, _⟩ := hs.stage.models.spliceAt hs.stage.list hin hnone
    refine ⟨w', ?_⟩
    rw [Workspace.remove, hi]
    show Except.map Prod.snd (s.workspace.spliceAt (Contents.place s.workspace body _) body _) = _
    rw [hok]
    rfl
  have hset : ∀ key v, ∃ w', s.workspace.setField i key v = .ok w' := by
    intro key v
    obtain ⟨gs, hc⟩ := hs.contents
    obtain ⟨m, fs, _, hobj, _⟩ := exists_of_isNode (hc.nodes _ hy)
    have hnode : s.workspace.node i = obj m fs := by
      rw [Workspace.node, hi]
      exact (congrArg s.workspace.deref hrefs).trans hobj
    rw [Workspace.setField, hnode]
    exact ⟨_, rfl⟩
  obtain ⟨w', hw'⟩ := hremove
  have hgo : (removeSite i).result s = (.ok (some .removed), { s with workspace := w' }) := by
    rw [removeSite, result_bind_ok (result_act_ok hw')]
    rfl
  unfold cleanSite
  split
  · next module _ =>
    split
    · exact ⟨_, _, hgo⟩
    · obtain ⟨w'', hw''⟩ := hset "source" (s.workspace.dialect.literal (.str module))
      refine ⟨_, _, result_bind_ok (result_act_ok hw'')⟩
  · exact ⟨_, _, rfl⟩
  · exact ⟨_, _, hgo⟩
  · exact ⟨_, _, hgo⟩

theorem Standing.cleanImports_ok (hs : Standing c fields body items met guard p es s.workspace h rs)
    (hn : ∀ e ∈ s.helpers, ∃ n, e.2.bound = .str n) : ∃ fate s', (cleanImports o).result s = (.ok fate, s') := by
  cases hhead : s.helpers.head? with
  | none =>
    refine ⟨none, s, ?_⟩
    rw [cleanImports, result_get_bind, hhead]
    rfl
  | some e =>
    obtain ⟨n, hb⟩ := hn e (List.mem_of_mem_head? hhead)
    obtain ⟨gs, hc⟩ := hs.contents
    rw [result_cleanImports hc hhead hb]
    cases hd : declarer? (rs.map s.workspace.deref) n with
    | none => exact ⟨_, _, rfl⟩
    | some y =>
      have hy := (List.mem_filter.mp (List.mem_of_getLast? hd)).1
      have hpath : (s.workspace.addPath (Contents.place s.workspace body y)).2.path s.workspace.paths.size =
          Contents.place s.workspace body y := s.workspace.addPath_path _
      exact Standing.cleanSite_ok (s := { s with workspace := _ }) (hs.addPath _) hy hpath

end Total

end DebugGuards.Expansion
