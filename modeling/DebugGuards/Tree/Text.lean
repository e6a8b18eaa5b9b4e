import DebugGuards.Text.Quoted
import DebugGuards.Tree.Basic

/-! Truth, equality and written form of documents. Null, false, zero and the empty
text, list and object count as false. Numbers are equal by value, so `true`, `1` and
`1.0` are one key; objects are equal regardless of field order. The written form of a
composite has its texts quoted, while a text on its own is written as it is. -/

namespace DebugGuards

namespace Scalar

def truth : Scalar → Bool
  | null => false
  | bool b => b
  | int i => i != 0
  | float x => !x.isZero
  | str s => s != ""

/-- The one representative of the scalars equal to a given one. -/
def key : Scalar → Scalar
  | bool b => int (if b then 1 else 0)
  | float x => (x.toInt?.map int).getD (float x)
  | s => s

/-- The number a scalar counts as. -/
def number? : Scalar → Option Binary64
  | bool b => some (.ofInt (if b then 1 else 0))
  | int i => some (.ofInt i)
  | float x => some x
  | _ => none

def form : Scalar → String
  | null => "None"
  | bool b => if b then "True" else "False"
  | int i => toString i
  | float x => x.text
  | str s => Text.quoted s

end Scalar

namespace Tree

variable {α : Type}

def truth : Tree α → Bool
  | scalar s => s.truth
  | arr _ items => !items.isEmpty
  | obj _ fields => !fields.isEmpty

/-- The key a document stands for in a table; a composite is none. -/
def key? : Tree α → Option Scalar
  | scalar s => some s.key
  | _ => none

mutual
/-- The written form with texts quoted. -/
def form : Tree α → String
  | scalar s => s.form
  | arr _ items => "[" ++ ", ".intercalate (formItems items) ++ "]"
  | obj _ fields => "\x7b" ++ ", ".intercalate (formFields fields) ++ "\x7d"
def formItems : List (Tree α) → List String
  | [] => []
  | t :: ts => form t :: formItems ts
def formFields : List (String × Tree α) → List String
  | [] => []
  | (k, t) :: ts => (Text.quoted k ++ ": " ++ form t) :: formFields ts
end

/-- The written form; a text stands for itself. -/
def text : Tree α → String
  | str s => s
  | t => t.form

mutual
/-- Equality by value, regardless of marks and of the order of fields. -/
def equal : Tree α → Tree α → Bool
  | scalar s, scalar t => s.key == t.key
  | arr _ xs, arr _ ys => equalItems xs ys
  | obj _ fs, obj _ gs => fs.length == gs.length && equalFields fs gs
  | _, _ => false
def equalItems : List (Tree α) → List (Tree α) → Bool
  | [], [] => true
  | x :: xs, y :: ys => equal x y && equalItems xs ys
  | _, _ => false
def equalFields : List (String × Tree α) → List (String × Tree α) → Bool
  | [], _ => true
  | (k, x) :: fs, gs =>
    (match Table.get? gs k with
      | some y => equal x y
      | none => false) && equalFields fs gs
end

end Tree

end DebugGuards
