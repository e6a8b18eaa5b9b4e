import DebugGuards.Node.Build
import DebugGuards.Printing.Precedence

/-! A document each of whose parts knows how it prints: as a statement at a given
depth, and as an expression in a place that asks for a given binding power. A part is
made from the parts below it, so a printer is an ordinary function of the parts of a
node and never calls itself. A printed expression is a document and not just a text,
since a node may hold a raw form that is none. -/

namespace DebugGuards.Printing

abbrev Printed := Except Failure

/-- A document with the parts below it and the ways it prints. A statement prints
without the indentation of its first line. -/
inductive Part (α : Type) where
  | mk (tree : Tree α) (items : List (Part α)) (fields : List (String × Part α))
    (statement : Nat → Printed String) (expression : Nat → Printed (Tree α))

namespace Part

variable {α : Type}

def tree : Part α → Tree α
  | mk t _ _ _ _ => t

def items : Part α → List (Part α)
  | mk _ is _ _ _ => is

def fields : Part α → List (String × Part α)
  | mk _ _ fs _ _ => fs

def statement : Part α → Nat → Printed String
  | mk _ _ _ s _ => s

def expression : Part α → Nat → Printed (Tree α)
  | mk _ _ _ _ e => e

/-- A part that does not print. -/
def silent (t : Tree α) (items : List (Part α)) : Part α :=
  mk t items [] (fun _ => .error .badShape) (fun _ => .error .badShape)

def get? (p : Part α) (key : String) : Printed (Option (Part α)) :=
  match p.tree with
  | .obj _ _ => .ok (Table.get? p.fields key)
  | _ => .error .badShape

/-- The field of an object, unless it is absent or null. -/
def given? (p : Part α) (key : String) : Printed (Option (Part α)) := do
  match ← p.get? key with
  | some q =>
    match q.tree with
    | .null => return none
    | _ => return some q
  | none => return none

def require (p : Part α) (key : String) : Printed (Part α) := do
  match ← p.get? key with
  | some q => return q
  | none => .error (.missingKey key)

/-- Whether a field holds something that counts as true. -/
def flag (p : Part α) (key : String) : Printed Bool := do
  return ((← p.get? key).map fun q => q.tree.truth).getD false

/-- The parts to go through in a field, none if it is absent. -/
def elementsOf (p : Part α) (key : String) : Printed (List (Part α)) := do
  match ← p.get? key with
  | none => return []
  | some q =>
    match q.tree with
    | .arr _ _ => return q.items
    | t => return (← t.elements).map fun e => silent e []

def kind (p : Part α) : Printed (Tree α) := p.tree.get "type"

def hasKind (p : Part α) (names : List String) : Printed Bool := do
  match ← p.kind with
  | .str s => return names.contains s
  | _ => return false

/-- The expression in a field, which must be there, in a place of a given power. -/
def expressionAt (p : Part α) (key : String) (power : Nat := 0) : Printed (Tree α) := do
  (← p.require key).expression power

def textAt (p : Part α) (key : String) (power : Nat := 0) : Printed String := do
  return (← p.expressionAt key power).text

end Part

/-- Texts with `", "` between them. A part that is no text cannot be joined. -/
def commaJoin {α : Type} (ts : List (Tree α)) : Printed String := do
  return ", ".intercalate (← ts.mapM Tree.asText)

end DebugGuards.Printing
