import DebugGuards.Failure
import DebugGuards.Text.Split
import DebugGuards.Tree.Text

/-! Reading documents whose shape is not known. Asking a part of the wrong kind fails
with `badShape`, and a required field that is absent fails with its name. -/

namespace DebugGuards.Tree

variable {α : Type}

/-- The field of an object, null if absent. -/
def get (t : Tree α) (key : String) : Except Failure (Tree α) :=
  match t with
  | obj _ fields => .ok ((Table.get? fields key).getD null)
  | _ => .error .badShape

/-- The field of an object, if present. -/
def get? (t : Tree α) (key : String) : Except Failure (Option (Tree α)) :=
  match t with
  | obj _ fields => .ok (Table.get? fields key)
  | _ => .error .badShape

/-- The field of an object, which must be there. -/
def require (t : Tree α) (key : String) : Except Failure (Tree α) :=
  match t with
  | obj _ fields =>
    match Table.get? fields key with
    | some v => .ok v
    | none => .error (.missingKey key)
  | _ => .error .badShape

/-- What there is to go through: the items of a list, the field names of an object,
the characters of a text. -/
def elements : Tree α → Except Failure (List (Tree α))
  | arr _ items => .ok items
  | obj _ fields => .ok (fields.map fun f => str f.1)
  | str s => .ok (s.toList.map fun c => str (String.singleton c))
  | _ => .error .badShape

/-- The elements of a field, none if the field is absent. -/
def elementsOf (t : Tree α) (key : String) : Except Failure (List (Tree α)) := do
  match ← t.get? key with
  | some v => v.elements
  | none => .ok []

/-- The text of a part that must be one. -/
def asText : Tree α → Except Failure String
  | str s => .ok s
  | _ => .error .badShape

/-- The key of a part that must be able to stand for one. -/
def asKey (t : Tree α) : Except Failure Scalar :=
  match t.key? with
  | some k => .ok k
  | none => .error .badShape

/-- Whether a value is among what a part holds: a field name, an item, or a piece of a
text. -/
def holds (t v : Tree α) : Except Failure Bool :=
  match t with
  | obj _ fields => do
    match ← v.asKey with
    | .str k => return Table.has fields k
    | _ => return false
  | arr _ items => .ok (items.any v.equal)
  | str s => do
    let piece ← v.asText
    return Text.holds piece.toList s.toList
  | _ => .error .badShape

end DebugGuards.Tree
