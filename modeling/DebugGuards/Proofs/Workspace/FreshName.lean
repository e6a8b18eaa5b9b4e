import DebugGuards.Proofs.Expansion.Opening
import Mathlib.Data.List.TakeWhile

/-! A fresh name is the first candidate that is free. The candidates are made from the name
asked for, less the underscores in front and the digits at its end; a candidate is free if no
identifier of the program has it for a name and no statement declares it. -/

namespace DebugGuards

open DebugGuards.Tree Node Workspace List

/-- What is left of a name without the underscores in front and the digits at its end; `temp`
if that is nothing. -/
def IsBase (name base : String) : Prop :=
  ∃ front core back : List Char, name.toList = front ++ core ++ back ∧ (∀ c ∈ front, c = '_') ∧
    (∀ c ∈ core.head?, c ≠ '_') ∧
    (∀ c ∈ core.getLast?, Char.isDigit c = false) ∧ (∀ c ∈ back, Char.isDigit c = true) ∧
    base = if core = [] then "temp" else String.ofList core

theorem isBase_baseName (name : String) : IsBase name (baseName name) := by
  set cs := name.toList.dropWhile (· == '_') with hcs
  set core := (cs.reverse.dropWhile Char.isDigit).reverse with hcore
  have hsplit : cs = core ++ (cs.reverse.takeWhile Char.isDigit).reverse := by
    rw [hcore, ← reverse_append, takeWhile_append_dropWhile, reverse_reverse]
  refine ⟨name.toList.takeWhile (· == '_'), core, (cs.reverse.takeWhile Char.isDigit).reverse, ?_, fun c hc => ?_,
    fun c hc => ?_, fun c hc => ?_, fun c hc => ?_, ?_⟩
  · rw [append_assoc, ← hsplit, hcs, takeWhile_append_dropWhile]
  · have hc := mem_takeWhile_imp hc
    exact beq_iff_eq.mp hc
  · have hhead : cs.head? = some c := by rw [hsplit, head?_append, Option.mem_def.mp hc, Option.some_or]
    have hnot := head?_dropWhile_not (· == '_') name.toList
    rw [← hcs, hhead] at hnot
    exact fun h => by simp [h] at hnot
  · have hnot := head?_dropWhile_not Char.isDigit cs.reverse
    rw [hcore, getLast?_reverse, Option.mem_def] at hc
    rw [hc] at hnot
    exact hnot
  · exact mem_takeWhile_imp (mem_reverse.mp hc)
  · have hempty : String.ofList core = "" ↔ core = [] := by
      rw [← String.toList_inj, String.toList_ofList]
      exact Iff.rfl
    simp only [baseName, ← hcs, ← hcore, hempty]

/-- No identifier of the program has the name, and no module-level binding is of it. -/
def Workspace.IsFree (w : Workspace) (table : Table Scalar Binding) (n : String) : Prop :=
  (∀ i ∈ nodesFields w.programNode.fields, isIdentifier i = true → textAt i "name" ≠ n) ∧ .str n ∉ Table.keys table

/-- Where identifiers have texts for names, the fresh name is the first free candidate, for
whatever bindings the program has; and a well-formed program has some. -/
theorem freshName_first (w : Workspace) (name : String)
    (hn : ∀ i ∈ nodesFields w.programNode.fields, isIdentifier i = true → holds i "name" isText = true) :
    (∀ fields body ys, Contents w fields body ys → ∃ table, w.bindings = .ok table) ∧
    ∀ table, w.bindings = .ok table → ∃ base i, IsBase name base ∧ w.freshName name = .ok (candidate base i) ∧
      w.IsFree table (candidate base i) ∧ ∀ j < i, ¬ w.IsFree table (candidate base j) := by
  refine ⟨fun fields body ys hc => ⟨_, hc.bindings_eq⟩, fun table ht => ?_⟩
  set ns := ((nodesFields w.programNode.fields).filter isIdentifier).map (textAt · "name") with hns
  have hfree (n : String) : w.IsFree table n ↔ .str n ∉ ns.foldl Contents.enterName [] ++ Table.keys table := by
    rw [IsFree, mem_append, not_or, Contents.mem_foldl_enterName, hns]
    simp only [not_mem_nil, false_or, mem_map, mem_filter, not_exists, not_and, and_imp]
  obtain ⟨i, hi, hnot, hbefore⟩ := exists_firstFree (baseName name) (ns.foldl Contents.enterName [] ++ Table.keys table)
  refine ⟨baseName name, i, isBase_baseName name, ?_, (hfree _).mpr hnot, fun j hj hf => (hfree _).mp hf (hbefore j hj)⟩
  rw [freshName, Contents.referencedNames_eq hn, ht, ← hi]
  rfl

/-- A program in which two candidates are taken, by an identifier and by a binding. -/
def takenNames : Workspace :=
  let t := marked (moduleOf [calling "_DEBUG" [], constant (.str "_DEBUG2") (literal (.int 1))])
  Expansion.opened t.1 t.2 0

theorem freshName_first_takenNames :
    ∃ table base i, takenNames.bindings = .ok table ∧ IsBase "__DEBUG7" base ∧
      takenNames.freshName "__DEBUG7" = .ok (candidate base i) ∧ takenNames.IsFree table (candidate base i) := by
  have hn : ∀ i ∈ nodesFields takenNames.programNode.fields, isIdentifier i = true → holds i "name" isText = true := by
    decide +kernel
  obtain ⟨base, i, hbase, hname, hfree, _⟩ := (freshName_first takenNames "__DEBUG7" hn).2 _ rfl
  exact ⟨_, base, i, rfl, hbase, hname, hfree⟩

end DebugGuards
