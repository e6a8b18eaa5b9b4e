import DebugGuards.Proofs.Printing.Operators

/-! What the fields of a node hold, and what a printer reads from them. -/

namespace DebugGuards.Printing

open Node

section Documents

variable {α : Type}

/-- Whether a field holds something that counts as true. -/
def flagged (t : Tree α) (key : String) : Bool := ((field? t key).map Tree.truth).getD false

/-- What a field holds. -/
def FieldIs (t : Tree α) (key : String) (P : Tree α → Prop) : Prop := ∃ u, field? t key = some u ∧ P u

def FieldLists (t : Tree α) (key : String) (P : List (Tree α) → Prop) : Prop :=
  ∃ m items, field? t key = some (.arr m items) ∧ P items

def IsIdentifier (n : String) (t : Tree α) : Prop := kind? t = some "Identifier" ∧ field? t "name" = some (.str n)

end Documents

variable {α : Type} [Inhabited α] {indent : String} {m : α} {fields : Fields α} {key : String}

theorem expressionAt_node {v w : Tree α} {p : Nat} (h : field? (.obj m fields) key = some v)
    (hv : (Part.of indent v).expression p = .ok w) : (Part.node indent m fields).expressionAt key p = .ok w := by
  rw [Part.expressionAt, require_node h]
  exact hv

theorem textAt_node {v : Tree α} {p : Nat} {s : String} (h : field? (.obj m fields) key = some v)
    (hv : (Part.of indent v).expression p = .ok (.str s)) : (Part.node indent m fields).textAt key p = .ok s := by
  rw [Part.textAt, expressionAt_node h hv]
  rfl

theorem flag_node (key : String) : (Part.node indent m fields).flag key = .ok (flagged (.obj m fields) key) := by
  simp only [Part.flag, Part.get?, Part.node, Part.tree, Part.fields, get?_ofFields, bind, Except.bind,
    pure, Except.pure, flagged, field?, Tree.fields, Option.map_map]
  congr 2
  exact congrArg (Option.map · _) (funext fun v => congrArg Tree.truth (tree_of v))

theorem ofItems_eq (items : List (Tree α)) : Part.ofItems indent items = items.map (Part.of indent) := by
  induction items with
  | nil => simp [Part.ofItems]
  | cons t ts ih => simp [Part.ofItems, ih]

theorem elementsOf_node {n : α} {items : List (Tree α)} (h : field? (.obj m fields) key = some (.arr n items)) :
    (Part.node indent m fields).elementsOf key = .ok (items.map (Part.of indent)) := by
  rw [field?, Tree.fields] at h
  simp only [Part.elementsOf, Part.get?, Part.node, Part.tree, Part.fields, get?_ofFields, h, Option.map_some, bind,
    Except.bind, Part.of, Part.silent, Part.items, pure, Except.pure, ofItems_eq]

omit [Inhabited α] in
theorem commaJoin_str (texts : List String) :
    commaJoin (texts.map Tree.str : List (Tree α)) = .ok (", ".intercalate texts) := by
  have hall : (texts.map Tree.str : List (Tree α)).mapM Tree.asText = (.ok texts : Except Failure _) := by
    induction texts with
    | nil => rfl
    | cons s texts ih =>
      rw [List.map_cons, List.mapM_cons, ih]
      rfl
  rw [commaJoin, hall]
  rfl

theorem bare_identifier {n : String} (h : IsIdentifier n (.obj m fields)) :
    bare indent "Identifier" (Part.node indent m fields) = .ok (.str n, atomic) := by
  show (do return (← (Tree.obj m fields).require "name", atomic)) = _
  rw [require_of_field? h.2]
  rfl

theorem expression_identifier {t : Tree α} {n : String} (h : IsIdentifier n t) {p : Nat} (hp : p ≤ atomic) :
    (Part.of indent t).expression p = .ok (.str n) := by
  obtain ⟨m, fields, rfl, hk⟩ := exists_of_kind? h.1
  rw [expression_of, printExpression_node hk (by decide) (bare_identifier h), if_neg (by omega)]

theorem mapM_ok {β γ : Type} {f : β → Printed γ} {xs : List β} (ys : List γ)
    (h : List.Forall₂ (fun x y => f x = .ok y) xs ys) : xs.mapM f = .ok ys := by
  induction h with
  | nil => rfl
  | cons hd _ ih =>
    rw [List.mapM_cons, hd, ih]
    rfl

theorem get?_node (key : String) :
    (Part.node indent m fields).get? key = .ok ((field? (.obj m fields) key).map (Part.of indent)) := by
  simp [Part.get?, Part.node, Part.tree, Part.fields, get?_ofFields, field?, Tree.fields]

theorem hasKind_node {k : String} (hk : kind? (.obj m fields) = some k) (names : List String) :
    (Part.node indent m fields).hasKind names = .ok (names.contains k) := by
  obtain ⟨_, _, ⟨⟩, hk'⟩ := exists_of_kind? hk
  rw [Part.hasKind, kind_node hk']
  rfl

section Part

variable (m : α) (fields : Fields α)

/-- Apart from how it prints, a part made of an object is the node with its fields. -/
theorem get?_of (key : String) : (Part.of indent (.obj m fields)).get? key = (Part.node indent m fields).get? key := by
  rw [Part.of]
  rfl

theorem hasKind_of (names : List String) :
    (Part.of indent (.obj m fields)).hasKind names = (Part.node indent m fields).hasKind names := by
  rw [Part.of]
  rfl

end Part

end DebugGuards.Printing
