import DebugGuards.Tree.Basic

/-! Marked documents. Every list and object carries a number, its identity: parts with
the same mark are one part, wherever they occur. A draft is a document whose new parts
have no mark yet; settling it hands out fresh ones. An edit acts on every occurrence of
a mark alike, so occurrences of one part never drift apart. -/

namespace DebugGuards

/-- The identity of a list or object. -/
abbrev Mark := Nat

/-- A document some of whose parts are new. -/
abbrev Draft := Tree (Option Mark)

/-- A part of a document by identity; a scalar has none but its value. -/
inductive Ref where
  | part (m : Mark)
  | scalar (s : Scalar)
deriving DecidableEq, Inhabited

namespace Tree

def ref : Tree Mark → Ref
  | arr m _ | obj m _ => .part m
  | scalar s => .scalar s

/-- The document as a draft without new parts. -/
def draft (t : Tree Mark) : Draft := t.map some

/-- The document as a draft all of whose parts are new. -/
def copy {α : Type} (t : Tree α) : Draft := t.map fun _ => none

/-- The mark of a part, or the next free one; and the next free one after that. -/
def takeMark (m : Option Mark) (next : Mark) : Mark × Mark :=
  match m with
  | some m => (m, next)
  | none => (next, next + 1)

mutual
/-- The draft with its new parts marked from `next` on, and the next free mark. -/
def settle (next : Mark) : Draft → Tree Mark × Mark
  | scalar s => (scalar s, next)
  | arr m items =>
    let (m, next) := takeMark m next
    let (items, next) := settleItems next items
    (arr m items, next)
  | obj m fields =>
    let (m, next) := takeMark m next
    let (fields, next) := settleFields next fields
    (obj m fields, next)
def settleItems (next : Mark) : List Draft → List (Tree Mark) × Mark
  | [] => ([], next)
  | t :: ts =>
    let (t, next) := settle next t
    let (ts, next) := settleItems next ts
    (t :: ts, next)
def settleFields (next : Mark) : List (String × Draft) → List (String × Tree Mark) × Mark
  | [] => ([], next)
  | (k, t) :: ts =>
    let (t, next) := settle next t
    let (ts, next) := settleFields next ts
    ((k, t) :: ts, next)
end

mutual
def find? (m : Mark) : Tree Mark → Option (Tree Mark)
  | scalar _ => none
  | arr n items => if n = m then some (arr n items) else findItems? m items
  | obj n fields => if n = m then some (obj n fields) else findFields? m fields
def findItems? (m : Mark) : List (Tree Mark) → Option (Tree Mark)
  | [] => none
  | t :: ts => (find? m t).or (findItems? m ts)
def findFields? (m : Mark) : List (String × Tree Mark) → Option (Tree Mark)
  | [] => none
  | (_, t) :: ts => (find? m t).or (findFields? m ts)
end

mutual
/-- The document with every part of a given mark sent through a function. -/
def edit (m : Mark) (f : Tree Mark → Tree Mark) : Tree Mark → Tree Mark
  | scalar s => scalar s
  | arr n items => if n = m then f (arr n items) else arr n (editItems m f items)
  | obj n fields => if n = m then f (obj n fields) else obj n (editFields m f fields)
def editItems (m : Mark) (f : Tree Mark → Tree Mark) : List (Tree Mark) → List (Tree Mark)
  | [] => []
  | t :: ts => edit m f t :: editItems m f ts
def editFields (m : Mark) (f : Tree Mark → Tree Mark) :
    List (String × Tree Mark) → List (String × Tree Mark)
  | [] => []
  | (k, t) :: ts => (k, edit m f t) :: editFields m f ts
end

/-- An object with a field set; anything else as it is. -/
def setField (key : String) (v : Tree Mark) : Tree Mark → Tree Mark
  | obj m fields => obj m (Table.set fields key v)
  | t => t

/-- A list with its first item of a given identity replaced by others; anything else as
it is. -/
def splice (r : Ref) (new : List (Tree Mark)) : Tree Mark → Tree Mark
  | arr m items => arr m (items.takeWhile (·.ref ≠ r) ++ new ++ (items.dropWhile (·.ref ≠ r)).drop 1)
  | t => t

/-- A list with an item put in front; anything else as it is. -/
def push (v : Tree Mark) : Tree Mark → Tree Mark
  | arr m items => arr m (v :: items)
  | t => t

end Tree

end DebugGuards
