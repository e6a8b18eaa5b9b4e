import DebugGuards.Proofs.Node.Names
import Mathlib.Data.List.Induction
import Mathlib.Data.List.Perm.Subperm

/-! What is read off a well-formed program: its statements, its imports, which statement
binds a name, the names that occur, and a name that does not. -/

namespace DebugGuards

open DebugGuards.Tree Node List

section FreshName

open Workspace

theorem candidate_injective (base : String) : Function.Injective (candidate base) := by
  intro i j h
  simp only [candidate] at h
  split at h <;> split at h
  · omega
  · have hrepr := String.append_right_inj ("_" ++ base) |>.mp ((String.append_empty).trans h)
    exact absurd hrepr.symm (Nat.repr_ne_empty)
  · have hrepr := String.append_right_inj ("_" ++ base) |>.mp (h.trans String.append_empty.symm)
    exact absurd hrepr Nat.repr_ne_empty
  · have hrepr := congrArg (fun s => Nat.ofDigitChars 10 s.toList 0) ((String.append_right_inj ("_" ++ base)).mp h)
    simpa [Nat.toString_eq_ofList_toDigits] using hrepr

/-- There are more candidates than names taken, so one of them is free, and the first is found. -/
theorem exists_firstFree (base : String) (taken : List Scalar) :
    ∃ i, firstFree base taken = candidate base i ∧ .str (candidate base i) ∉ taken ∧
      ∀ j < i, .str (candidate base j) ∈ taken := by
  rw [firstFree, find?_map]
  cases hf : (List.range (taken.length + 1)).find? ((fun c => !taken.contains (.str c)) ∘ candidate base) with
  | some i =>
    obtain ⟨hi, _, hj⟩ := find?_range_eq_some.mp hf
    exact ⟨i, rfl, by simpa using hi, by simpa using hj⟩
  | none =>
    have hsub : ((List.range (taken.length + 1)).map (candidate base)).map Scalar.str ⊆ taken := by
      intro s hs
      obtain ⟨c, hc, rfl⟩ := mem_map.mp hs
      obtain ⟨i, hi, rfl⟩ := mem_map.mp hc
      simpa using List.find?_eq_none.mp hf i hi
    have hnodup : (((List.range (taken.length + 1)).map (candidate base)).map Scalar.str).Nodup :=
      (nodup_range.map (candidate_injective base)).map fun _ _ h => Scalar.str.inj h
    have hlen := (subperm_of_subset hnodup hsub).length_le
    simp only [length_map, length_range] at hlen
    omega

theorem firstFree_not_mem (base : String) (taken : List Scalar) : Scalar.str (firstFree base taken) ∉ taken := by
  obtain ⟨i, hi, hfree, _⟩ := exists_firstFree base taken
  rwa [hi]

end FreshName

/-- The last statement that declares a name. -/
def declarer? {α : Type} (ys : List (Tree α)) (n : String) : Option (Tree α) :=
  (ys.filter fun y => (names y).contains n).getLast?

/-- The program of the workspace is well formed and has given statements. -/
structure Contents (w : Workspace) (fields : List (String × Tree Mark)) (body : Mark) (ys : List (Tree Mark)) :
    Prop where
  program : w.programNode = .obj w.program fields
  body : Table.get? fields "body" = some (.arr body ys)
  nodes : ∀ y ∈ ys, isNode y = true
  sound : ∀ n ∈ nodesFields fields, sound n = true

namespace Contents

variable {w : Workspace} {fields : Fields Mark} {body : Mark} {ys : List (Tree Mark)} {y : Tree Mark}

theorem statements_eq (hc : Contents w fields body ys) : w.statements = .ok ys := by
  rw [Workspace.statements, hc.program, require, hc.body]
  rfl

/-- The place of a statement in the list of the program. -/
def place (w : Workspace) (body : Mark) (y : Tree Mark) : Path := ⟨y.ref, .item w.program body "body", []⟩

theorem statementPath_eq (hc : Contents w fields body ys) (y : Tree Mark) : w.statementPath y = place w body y := by
  rw [Workspace.statementPath, hc.program, Tree.fields, hc.body]
  rfl

theorem legal (hc : Contents w fields body ys) (hy : y ∈ ys) : Legal y := by
  intro n hn
  have hmeta : isMetadata "body" = false := by decide
  refine hc.sound n (mem_nodesFields_of (Table.mem_of_get? hc.body) hmeta ?_)
  obtain ⟨m, fs, _, rfl, _⟩ := exists_of_isNode (hc.nodes y hy)
  rw [inside, nodesItems_eq, mem_flatMap]
  exact ⟨_, hy, hn⟩

theorem importPaths_eq (hc : Contents w fields body ys) :
    w.importPaths = .ok ((ys.filter isImport).map (place w body)) := by
  rw [Workspace.importPaths, hc.statements_eq]
  refine congrArg Except.ok (map_congr_left fun y _ => hc.statementPath_eq y)

section Bindings

/-- The binding of a name by a statement. -/
def binding (w : Workspace) (body : Mark) (n : String) (y : Tree Mark) : Binding :=
  ⟨.str n, keyword y, place w body y⟩

/-- The statement's names entered into a table of bindings. -/
def enter (w : Workspace) (body : Mark) (table : Table Scalar Binding) (y : Tree Mark) : Table Scalar Binding :=
  (names y).foldl (fun table n => Table.set table (.str n) (binding w body n y)) table

theorem foldlM_eq_foldl {σ β : Type} {f : σ → β → Except Failure σ} {g : σ → β → σ} {l : List β}
    (h : ∀ x ∈ l, ∀ s, f s x = .ok (g s x)) (s : σ) : l.foldlM f s = .ok (l.foldl g s) := by
  induction l generalizing s with
  | nil => rfl
  | cons x rest ih =>
    rw [forall_mem_cons] at h
    rw [foldlM_cons, h.1 s, foldl_cons]
    exact ih h.2 _

theorem bindings_eq (hc : Contents w fields body ys) : w.bindings = .ok (ys.foldl (enter w body) []) := by
  rw [Workspace.bindings, hc.statements_eq]
  refine foldlM_eq_foldl (fun y hy table => ?_) []
  rw [declared_eq (hc.nodes y hy) (hc.legal hy)]
  show List.foldlM _ table _ = _
  rw [foldlM_map]
  refine foldlM_eq_foldl (fun n _ table => ?_) table
  rw [hc.statementPath_eq]
  rfl

theorem get?_enter (table : Table Scalar Binding) (y : Tree Mark) (n : String) :
    Table.get? (enter w body table y) (.str n) =
      if (names y).contains n then some (binding w body n y) else Table.get? table (.str n) := by
  rw [enter]
  induction names y using List.reverseRecOn with
  | nil => rfl
  | append_singleton rest k ih =>
    rw [foldl_append, foldl_cons, foldl_nil, Table.get?_set, ih]
    by_cases hk : k = n
    · subst hk; simp
    · have hne : Scalar.str k ≠ Scalar.str n := fun h => hk (Scalar.str.inj h)
      rw [if_neg hne]
      simp [Ne.symm hk]

theorem get?_bindings (ys : List (Tree Mark)) (n : String) :
    Table.get? (ys.foldl (enter w body) []) (.str n) = (declarer? ys n).map (binding w body n) := by
  induction ys using List.reverseRecOn with
  | nil => rfl
  | append_singleton rest y ih =>
    rw [foldl_append, foldl_cons, foldl_nil, get?_enter, ih, declarer?, declarer?, filter_append]
    rw [filter_cons, filter_nil]
    split
    · rw [getLast?_concat]
      rfl
    · rw [append_nil]

theorem binding?_eq (hc : Contents w fields body ys) (n : String) :
    w.binding? (.str n) = .ok ((declarer? ys n).map (binding w body n)) := by
  rw [Workspace.binding?, hc.bindings_eq]
  exact congrArg Except.ok (get?_bindings ys n)

theorem mem_keys_enter {table : Table Scalar Binding} {y : Tree Mark} {k : Scalar} :
    k ∈ Table.keys (enter w body table y) ↔ k ∈ Table.keys table ∨ ∃ n ∈ names y, k = .str n := by
  rw [enter]
  induction names y using List.reverseRecOn with
  | nil => simp
  | append_singleton rest a ih =>
    rw [foldl_append, foldl_cons, foldl_nil, Table.keys_set]
    split <;> grind

theorem mem_keys_bindings {k : Scalar} :
    k ∈ Table.keys (ys.foldl (enter w body) []) ↔ ∃ y ∈ ys, ∃ n ∈ names y, k = .str n := by
  induction ys using List.reverseRecOn with
  | nil => simp [Table.keys]
  | append_singleton rest y ih =>
    rw [foldl_append, foldl_cons, foldl_nil, mem_keys_enter, ih]
    simp only [mem_append, mem_singleton, or_and_right, exists_or, exists_eq_left]

end Bindings

section Names

theorem key_eq_str {s : Scalar} {n : String} : s.key = .str n ↔ s = .str n := by
  cases s with
  | float x =>
    rw [Scalar.key]
    cases x.toInt? <;> simp
  | _ => simp [Scalar.key]

/-- A name entered into a list of names, unless it is there. -/
def enterName (taken : List Scalar) (n : String) : List Scalar :=
  if taken.any fun s => s.key = (Scalar.str n).key then taken else taken ++ [.str n]

theorem mem_enterName {taken : List Scalar} {n m : String} :
    .str m ∈ enterName taken n ↔ .str m ∈ taken ∨ m = n := by
  have htaken : (taken.any fun s => s.key = (Scalar.str n).key) = true ↔ .str n ∈ taken := by
    rw [any_eq_true]
    constructor
    · rintro ⟨s, hs, hk⟩
      rwa [← key_eq_str.mp (of_decide_eq_true hk)]
    · exact fun hn => ⟨_, hn, decide_eq_true rfl⟩
  rw [enterName]
  split
  · next hn =>
    refine ⟨.inl, ?_⟩
    rintro (hm | rfl)
    · exact hm
    · exact htaken.mp hn
  · simp

theorem mem_foldl_enterName {ns : List String} {taken : List Scalar} {m : String} :
    .str m ∈ ns.foldl enterName taken ↔ .str m ∈ taken ∨ m ∈ ns := by
  induction ns generalizing taken with
  | nil => simp
  | cons n ns ih => rw [foldl_cons, ih, mem_enterName, mem_cons, or_assoc]

/-- The names that occur, if identifiers have texts for names. -/
theorem referencedNames_eq {w : Workspace}
    (hn : ∀ i ∈ nodesFields w.programNode.fields, isIdentifier i = true → holds i "name" isText = true) :
    w.referencedNames =
      .ok ((((nodesFields w.programNode.fields).filter isIdentifier).map (textAt · "name")).foldl enterName []) := by
  have hnodes : (Visit.below 0 w.programNode).map Visit.node = nodesFields w.programNode.fields := by
    cases w.programNode with
    | scalar | arr => rfl
    | obj m fields => exact Visit.below_nodes 0 m fields
  rw [Workspace.referencedNames, foldl_map, foldl_filter, ← hnodes, foldl_map]
  refine foldlM_eq_foldl (fun v hv taken => ?_) []
  cases hid : isIdentifier v.node with
  | false => rfl
  | true =>
    rw [require_text (hn _ (hnodes ▸ mem_map_of_mem hv) hid)]
    rfl

theorem named (hc : Contents w fields body ys) :
    ∀ i ∈ nodesFields w.programNode.fields, isIdentifier i = true → holds i "name" isText = true := by
  intro i hi hid
  rw [hc.program] at hi
  have hs := hc.sound i hi
  rw [Node.sound, hasKind_iff.mp hid] at hs
  exact ((Bool.and_eq_true _ _).mp hs).1

theorem exists_freshName (hc : Contents w fields body ys) (name : String) :
    ∃ g, w.freshName name = .ok g ∧ (∀ y ∈ ys, g ∉ names y) ∧
      ∀ i ∈ nodesFields fields, isIdentifier i = true → textAt i "name" ≠ g := by
  rw [Workspace.freshName, referencedNames_eq hc.named, hc.bindings_eq, hc.program]
  refine ⟨_, rfl, fun y hy hn => ?_, fun i hi hid hn => ?_⟩
  · exact firstFree_not_mem _ _ (mem_append_right _ (mem_keys_bindings.mpr ⟨y, hy, _, hn, rfl⟩))
  · have hmem := mem_map_of_mem (f := (textAt · "name")) (mem_filter.mpr ⟨hi, hid⟩)
    rw [hn] at hmem
    exact firstFree_not_mem _ _ (mem_append_left _ (mem_foldl_enterName.mpr (.inr hmem)))

theorem keyword_eq_module {y : Tree Mark} (hn : isNode y = true) (hl : Legal y) :
    keyword y = .str "module" ↔ isImport y = true := by
  rw [isImport, hasKind_iff, keyword]
  split
  · simp [*]
  · rename_i hk
    have hs := hl.sound hn
    rw [Node.sound, hk] at hs
    have hkind := ((Bool.and_eq_true _ _).mp hs).2
    simp only [hk, Option.some.injEq, String.reduceEq, iff_false]
    intro h
    rw [holdsIf] at hkind
    cases hf : field? y "kind" with
    | none => rw [hf] at h; simp at h
    | some v =>
      rw [hf, Option.getD_some] at h
      rw [hf, h] at hkind
      simp at hkind
  · rename_i h1 _
    simpa using h1

end Names

end Contents

end DebugGuards
