import DebugGuards.Number.Shortest
import DebugGuards.Table

/-! Documents: scalars, lists and objects with their fields in order. Every list and
object carries a mark. With marks of type `Unit` this is a plain JSON value; with
numbers as marks it is a document whose composite parts have an identity, so that two
parts with equal contents can be told apart. -/

namespace DebugGuards

inductive Scalar where
  | null
  | bool (b : Bool)
  | int (i : Int)
  | float (x : Binary64)
  | str (s : String)
deriving DecidableEq, Inhabited

inductive Tree (α : Type) where
  | scalar (s : Scalar)
  | arr (mark : α) (items : List (Tree α))
  | obj (mark : α) (fields : List (String × Tree α))

abbrev Json := Tree Unit

/-- The fields of an object. -/
abbrev Fields (α : Type) := List (String × Tree α)

namespace Tree

variable {α β : Type}

@[match_pattern] abbrev null : Tree α := .scalar .null
@[match_pattern] abbrev bool (b : Bool) : Tree α := .scalar (.bool b)
@[match_pattern] abbrev int (i : Int) : Tree α := .scalar (.int i)
@[match_pattern] abbrev float (x : Binary64) : Tree α := .scalar (.float x)
@[match_pattern] abbrev str (s : String) : Tree α := .scalar (.str s)

instance : Inhabited (Tree α) := ⟨null⟩

/-- The fields of an object; nothing else has any. -/
def fields : Tree α → List (String × Tree α)
  | obj _ fs => fs
  | _ => []

def isObject : Tree α → Bool
  | obj _ _ => true
  | _ => false

def mark? : Tree α → Option α
  | arr m _ | obj m _ => some m
  | scalar _ => none

section Equality
variable [DecidableEq α]

mutual
/-- Equality of documents, marks and field order included. -/
def decTree : (a b : Tree α) → Decidable (a = b)
  | scalar s, scalar t => decidable_of_iff (s = t) ⟨congrArg scalar, Tree.scalar.inj⟩
  | arr m xs, arr n ys =>
    match decEq m n, decItems xs ys with
    | isTrue h, isTrue h' => isTrue (by rw [h, h'])
    | isFalse h, _ => isFalse fun e => h (Tree.arr.inj e).1
    | _, isFalse h => isFalse fun e => h (Tree.arr.inj e).2
  | obj m xs, obj n ys =>
    match decEq m n, decFields xs ys with
    | isTrue h, isTrue h' => isTrue (by rw [h, h'])
    | isFalse h, _ => isFalse fun e => h (Tree.obj.inj e).1
    | _, isFalse h => isFalse fun e => h (Tree.obj.inj e).2
  | scalar _, arr _ _ | scalar _, obj _ _ | arr _ _, scalar _ | arr _ _, obj _ _
  | obj _ _, scalar _ | obj _ _, arr _ _ => isFalse nofun
def decItems : (a b : List (Tree α)) → Decidable (a = b)
  | [], [] => isTrue rfl
  | x :: xs, y :: ys =>
    match decTree x y, decItems xs ys with
    | isTrue h, isTrue h' => isTrue (by rw [h, h'])
    | isFalse h, _ => isFalse fun e => h (List.cons.inj e).1
    | _, isFalse h => isFalse fun e => h (List.cons.inj e).2
  | [], _ :: _ | _ :: _, [] => isFalse nofun
def decFields : (a b : List (String × Tree α)) → Decidable (a = b)
  | [], [] => isTrue rfl
  | (k, x) :: xs, (l, y) :: ys =>
    match decEq k l, decTree x y, decFields xs ys with
    | isTrue h, isTrue h', isTrue h'' => isTrue (by rw [h, h', h''])
    | isFalse h, _, _ => isFalse fun e => h (Prod.mk.inj (List.cons.inj e).1).1
    | _, isFalse h, _ => isFalse fun e => h (Prod.mk.inj (List.cons.inj e).1).2
    | _, _, isFalse h => isFalse fun e => h (List.cons.inj e).2
  | [], _ :: _ | _ :: _, [] => isFalse nofun
end

instance : DecidableEq (Tree α) := decTree

end Equality

mutual
/-- The document with its marks sent through a function. -/
def map (f : α → β) : Tree α → Tree β
  | scalar s => scalar s
  | arr m items => arr (f m) (mapItems f items)
  | obj m fields => obj (f m) (mapFields f fields)
def mapItems (f : α → β) : List (Tree α) → List (Tree β)
  | [] => []
  | t :: ts => map f t :: mapItems f ts
def mapFields (f : α → β) : List (String × Tree α) → List (String × Tree β)
  | [] => []
  | (k, t) :: ts => (k, map f t) :: mapFields f ts
end

mutual
/-- The marks of the parts of a document, each part before those inside it. -/
def marks : Tree α → List α
  | scalar _ => []
  | arr m items => m :: marksItems items
  | obj m fields => m :: marksFields fields
def marksItems : List (Tree α) → List α
  | [] => []
  | t :: ts => marks t ++ marksItems ts
def marksFields : List (String × Tree α) → List α
  | [] => []
  | (_, t) :: ts => marks t ++ marksFields ts
end

/-- The plain value of a document. -/
def erase (t : Tree α) : Json := t.map fun _ => ()

theorem mapItems_eq_map (f : α → β) (items : List (Tree α)) :
    mapItems f items = items.map (map f) := by
  induction items with
  | nil => rfl
  | cons t ts ih => simp [mapItems, ih]

theorem mapFields_eq_mapValues (f : α → β) (fields : List (String × Tree α)) :
    mapFields f fields = Table.mapValues (map f) fields := by
  induction fields with
  | nil => rfl
  | cons e ts ih => simp [mapFields, Table.mapValues, ih]

end Tree

end DebugGuards
