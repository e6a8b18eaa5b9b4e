import DebugGuards.Proofs.Expansion.Entries

/-! The imports of a module. The helpers are those that the imports of the tools module
name. An import from a flags module becomes one constant for each name, unless the table
lacks one. -/

namespace DebugGuards.Expansion

open DebugGuards.Tree Node List

section Rules

variable {α : Type}

/-- The names that the statements of a module import from the tools module. -/
def toolsOf (o : Options) (ys : List (Tree α)) : List (String × String) :=
  (ys.filter fun y => isImport y && sourceOf y == o.toolsSource).flatMap named

/-- An imported name as a helper, under the name it is bound to. -/
def enterHelper (table : Table Scalar Helper) (s : String × String) : Table Scalar Helper :=
  Table.set table (.str s.2) ⟨.str s.2, .str s.1⟩

/-- The helpers that the statements of a module import. -/
def helpersOf (o : Options) (ys : List (Tree α)) : Table Scalar Helper := (toolsOf o ys).foldl enterHelper []

/-- The flags a module exports, if it is a module of flags. -/
def flagsOf? (o : Options) (source : String) : Option (Table String Int) :=
  if source = o.envFlags.source then some o.envFlags.flags
  else (o.features.find? fun f => source == f.source).map FeatureFlags.flags

/-- The flags that an import is resolved with. -/
def flagsFor? (o : Options) (y : Tree α) : Option (Table String Int) :=
  if isImport y then flagsOf? o (sourceOf y) else none

/-- The first name an import asks for that a table lacks. -/
def missing? (flags : Table String Int) (y : Tree α) : Option String :=
  ((named y).find? fun s => !Table.has flags s.1).map Prod.fst

/-- The constants that an import becomes. -/
def constantsOf (dialect : Dialect) (flags : Table String Int) (y : Tree α) : List Json :=
  (named y).map fun s => constant (.str s.2) (dialect.literal (.int ((Table.get? flags s.1).getD 0)))

theorem constant_of_mem {dialect : Dialect} {flags : Table String Int} {y : Tree α} {v : Json}
    (hv : v ∈ constantsOf dialect flags y) : Constant v := by
  obtain ⟨s, _, rfl⟩ := mem_map.mp hv
  exact ⟨s.2, dialect, _, rfl⟩

end Rules

section Constants

theorem equal_str {α : Type} (a b : String) : (Tree.str a : Tree α).equal (.str b) = (a == b) := by
  rw [equal]
  rw [Bool.eq_iff_iff]
  simp [Scalar.key]

theorem featureTable?_eq (features : List FeatureFlags) (source : String) :
    featureTable? features (.str source) = features.find? fun f => source == f.source := by
  rw [featureTable?]
  congr 1
  funext f
  exact equal_str source f.source

theorem has_mapValues {β γ : Type} (f : β → γ) (t : Table String β) (k : String) :
    Table.has (Table.mapValues f t) k = Table.has t k := by
  rw [Table.has, Table.has, Table.get?_mapValues, Option.isSome_map]

theorem holds_flagDocument (flags : Table String Int) (k : String) :
    (flagDocument flags).holds (.str k) = .ok (Table.has flags k) := by
  rw [← has_mapValues Tree.int flags k]
  rfl

theorem flagValue_flagDocument {flags : Table String Int} {k : String} {i : Int} (hk : Table.get? flags k = some i) :
    flagValue (flagDocument flags) (.str k) = .ok (.int i) := by
  rw [flagDocument, flagValue, Table.get?_mapValues, hk]
  rfl

/-- All names are looked up before any constant is made. -/
theorem checkFlags_eq (flags : Table String Int) (source : String) (ss : List (String × String)) :
    (ss.map fun s => (⟨.str s.1, .str s.2⟩ : Specifier Unit)).forM (fun s => do
      if !(← (flagDocument flags).holds s.imported) then
        throw (Failure.unknownFlag s.imported.text (Tree.str source : Json).text)) =
      match ss.find? fun s => !Table.has flags s.1 with
      | some s => .error (.unknownFlag s.1 source)
      | none => .ok () := by
  induction ss with
  | nil => rfl
  | cons s ss ih =>
    rw [map_cons, List.forM, holds_flagDocument, find?_cons]
    cases hk : Table.has flags s.1 with
    | false => rfl
    | true => exact ih

theorem flagConstants_eq (dialect : Dialect) (flags : Table String Int) (y : Tree Mark) (source : String) :
    flagConstants dialect ((named y).map fun s => ⟨.str s.1, .str s.2⟩) (flagDocument flags) (.str source) =
      match missing? flags y with
      | some f => .error (.unknownFlag f source)
      | none => .ok (constantsOf dialect flags y) := by
  rw [flagConstants, checkFlags_eq, missing?]
  cases hf : (named y).find? fun s => !Table.has flags s.1 with
  | some s => rfl
  | none =>
    have hhas : ∀ s ∈ named y, ∃ i, Table.get? flags s.1 = some i := by
      intro s hs
      have := List.find?_eq_none.mp hf s hs
      exact Option.ne_none_iff_exists'.mp (by simpa [Table.has] using this)
    show List.mapM _ _ = _
    rw [mapM_map]
    refine mapM_eq_map fun s hs => ?_
    obtain ⟨i, hi⟩ := hhas s hs
    simp only [Function.comp_apply, flagValue_flagDocument hi, hi]
    rfl

end Constants

section Sites

variable {s : State} {w : Workspace} {fields : Fields Mark} {body : Mark} {ys : List (Tree Mark)}

/-- The workspace with further paths. -/
def withPaths (w : Workspace) (ps : List Path) : Workspace := { w with paths := w.paths ++ ps.toArray }

theorem withPaths_keeps (w : Workspace) (ps : List Path) : w.Keeps (withPaths w ps) := by
  refine ⟨rfl, rfl, rfl, by simp [withPaths], fun i hi => ?_⟩
  simp only [withPaths, Workspace.path, Array.getD_eq_getD_getElem?, Array.getElem?_append_left hi]

theorem result_addPaths (ps : List Path) (s : State) :
    ∃ is, (ps.mapM fun p => Work.make fun w => w.addPath p).result s =
        (.ok is, { s with workspace := withPaths s.workspace ps }) ∧
      List.Forall₂ (fun i p => i < (withPaths s.workspace ps).paths.size ∧
        (withPaths s.workspace ps).path i = p) is ps := by
  induction ps generalizing s with
  | nil => exact ⟨[], by simp [withPaths], .nil⟩
  | cons p ps ih =>
    obtain ⟨is, hrun, hall⟩ := ih { s with workspace := (s.workspace.addPath p).2 }
    have hw : withPaths (s.workspace.addPath p).2 ps = withPaths s.workspace (p :: ps) := by
      simp [withPaths, Workspace.addPath]
    rw [hw] at hrun hall
    refine ⟨s.workspace.paths.size :: is, ?_, .cons ⟨?_, ?_⟩ hall⟩
    · rw [mapM_cons, result_bind_ok (result_make ..), result_bind_ok hrun]
      rfl
    · simp [withPaths]
    · simp [withPaths, Workspace.path]

/-- The import sites are paths of the import declarations. -/
theorem result_importSites (hc : Contents s.workspace fields body ys) :
    ∃ is ps, importSites.result s = (.ok is, { s with workspace := withPaths s.workspace ps }) ∧
      List.Forall₂ (fun i y => i < (withPaths s.workspace ps).paths.size ∧
        (withPaths s.workspace ps).path i = Contents.place s.workspace body y) is (ys.filter isImport) := by
  obtain ⟨is, hrun, hall⟩ := result_addPaths ((ys.filter isImport).map (Contents.place s.workspace body)) s
  refine ⟨is, _, ?_, forall₂_map_right_iff.mp hall⟩
  rw [importSites, result_look_bind hc.importPaths_eq]
  exact hrun

end Sites

section Helpers

variable {s : State} {w : Workspace} {fields : Fields Mark} {body : Mark} {ys : List (Tree Mark)}

theorem importSource_erase {y : Tree Mark} (hl : Legal y) (hi : isImport y = true) :
    importSource y.erase = .ok (.str (sourceOf y)) := by
  rw [erase, importSource_map, importSource_eq hl hi]
  rfl

theorem specifiers_erase {y : Tree Mark} (hl : Legal y) (hi : isImport y = true) :
    specifiers y.erase = .ok ((named y).map fun s => ⟨.str s.1, .str s.2⟩) := by
  have hlegal : Legal y.erase := (legal_map _).mpr hl
  have himport : isImport y.erase = true := (hasKind_map _ _ _).trans hi
  have hnamed : named y.erase = named y := (alike_map _ y).1.named_eq hl hi
  rw [specifiers_eq hlegal himport, hnamed]

/-- Helpers are entered under the names they are bound to. -/
def Named (table : Table Scalar Helper) : Prop :=
  ∀ k helper, Table.get? table k = some helper → helper.bound = .scalar k

theorem Named.enter {table : Table Scalar Helper} (ht : Named table) (s : String × String) :
    Named (enterHelper table s) := by
  intro k helper hk
  rw [enterHelper, Table.get?_set] at hk
  split at hk
  · rename_i e
    cases hk
    rw [← e]
  · exact ht k helper hk

theorem result_addHelpers (ss : List (String × String)) (hn : Named s.helpers) :
    ((ss.map fun s => (⟨.str s.1, .str s.2⟩ : Specifier Unit)).forM fun s => addHelper s.imported s.bound).result s =
      (.ok (), { s with helpers := ss.foldl enterHelper s.helpers }) ∧ Named (ss.foldl enterHelper s.helpers) := by
  induction ss generalizing s with
  | nil => exact ⟨rfl, hn⟩
  | cons a ss ih =>
    have hfirst : ((Table.get? s.helpers (.str a.2)).map Helper.bound).getD (.str a.2) = .str a.2 := by
      cases hget : Table.get? s.helpers (.str a.2) with
      | none => rfl
      | some helper => exact hn _ helper hget
    have hset :
        (addHelper (.str a.1) (.str a.2)).result s = (.ok (), { s with helpers := enterHelper s.helpers a }) := by
      have htable : Table.set s.helpers (.str a.2)
          ⟨((Table.get? s.helpers (.str a.2)).map Helper.bound).getD (.str a.2), .str a.1⟩ =
          enterHelper s.helpers a := by
        rw [hfirst]
        rfl
      exact congrArg (fun table => (Except.ok (), { s with helpers := table })) htable
    obtain ⟨hrun, hnamed⟩ := ih (s := { s with helpers := enterHelper s.helpers a }) (hn.enter a)
    refine ⟨?_, hnamed⟩
    rw [map_cons, List.forM, result_bind_ok hset, hrun]
    rfl

theorem result_collectSite {o : Options} {i : PathId} {y : Tree Mark} (hi : s.workspace.node i = y)
    (himport : isImport y = true) (hl : Legal y) (hn : Named s.helpers) :
    (collectSite o i).result s = (.ok (), { s with helpers := (toolsOf o [y]).foldl enterHelper s.helpers }) ∧
      Named ((toolsOf o [y]).foldl enterHelper s.helpers) := by
  rw [collectSite, result_bind_ok (result_node i s), hi,
    result_bind_ok (by rw [importSource_erase hl himport, result_ofExcept]), equal_str, toolsOf,
    filter_cons, himport]
  cases hsource : sourceOf y == o.toolsSource with
  | false => exact ⟨rfl, hn⟩
  | true =>
    rw [if_pos rfl, result_bind_ok (by rw [specifiers_erase hl himport, result_ofExcept])]
    simpa using result_addHelpers (named y) hn

/-- The imports are gone through in order. -/
theorem result_collectSites {o : Options} {is : List PathId} (hw : s.workspace = w)
    (hsites : List.Forall₂ (fun i y => w.node i = y) is ys) (hys : ∀ y ∈ ys, isImport y = true ∧ Legal y)
    (hn : Named s.helpers) :
    (is.forM (collectSite o)).result s =
      (.ok (), { s with helpers := (toolsOf o ys).foldl enterHelper s.helpers }) := by
  induction hsites generalizing s with
  | nil => rfl
  | @cons i y is ys hi hrest ih =>
    rw [forall_mem_cons] at hys
    obtain ⟨hrun, hnamed⟩ := result_collectSite (o := o) (by rw [hw]; exact hi) hys.1.1 hys.1.2 hn
    have htools : toolsOf o (y :: ys) = toolsOf o [y] ++ toolsOf o ys := by
      rw [toolsOf, toolsOf, toolsOf, ← flatMap_append, ← filter_append]
      rfl
    rw [List.forM, result_bind_ok hrun, htools, foldl_append]
    exact ih (s := { s with helpers := (toolsOf o [y]).foldl enterHelper s.helpers }) hw hys.2 hnamed

theorem toolsOf_imports {α : Type} (o : Options) (ys : List (Tree α)) :
    toolsOf o (ys.filter isImport) = toolsOf o ys := by
  rw [toolsOf, toolsOf, filter_filter]
  congr 2
  funext y
  cases isImport y <;> simp

theorem result_collectHelpers {o : Options} (hc : Contents s.workspace fields body ys) (hn : s.helpers = [])
    (href : ∀ y ∈ ys, s.workspace.deref y.ref = y) :
    ∃ ps log, (collectHelpers o).result s =
      (.ok (), { s with workspace := withPaths s.workspace ps, helpers := helpersOf o ys, log := log }) := by
  obtain ⟨is, ps, hrun, hall⟩ := result_importSites hc
  have hsites : List.Forall₂ (fun i y => (withPaths s.workspace ps).node i = y) is (ys.filter isImport) := by
    refine forall₂_imp hall fun i _ y hy h => ?_
    rw [Workspace.node, h.2]
    exact href y (mem_filter.mp hy).1
  have hcollect := result_collectSites (o := o) (s := { s with workspace := withPaths s.workspace ps }) rfl hsites
    (fun y hy => ⟨(mem_filter.mp hy).2, hc.legal (mem_filter.mp hy).1⟩)
    (by rw [hn]; exact fun _ _ h => by cases h)
  rw [toolsOf_imports] at hcollect
  refine ⟨ps, ?_⟩
  rw [collectHelpers, result_bind_ok hrun]
  show ∃ log, ((is.forM (collectSite o)) >>= _).result _ = _
  rw [result_bind_ok hcollect, result_get_bind, result_record, hn]
  exact ⟨_, rfl⟩

end Helpers

end DebugGuards.Expansion
