import DebugGuards.Node.Build
import DebugGuards.Workspace.Mark

/-! Paths. A path tracks a node and remembers the slot it was found in and the paths of
its ancestors. The walk visits the nodes below a given one in pre-order: fields in
order, the nodes of a list one after the other, and no fields that hold positions or
comments. A list inside a list and an object without a `type` are not entered. -/

namespace DebugGuards

/-- The number of a path in the order of their making. -/
abbrev PathId := Nat

/-- Where a node sits: at the top, in a field of its parent, or in a list that is one. -/
inductive Slot where
  | top
  | field (parent : Mark) (key : String)
  | item (parent list : Mark) (key : String)
deriving DecidableEq, Inhabited

namespace Slot

def key? : Slot → Option String
  | top => none
  | field _ k | item _ _ k => some k

def parent? : Slot → Option Mark
  | top => none
  | field p _ | item p _ _ => some p

def isItem : Slot → Bool
  | item _ _ _ => true
  | _ => false

end Slot

/-- `above` are the paths of the ancestors, nearest first, without the node the walk
started from. -/
structure Path where
  node : Ref
  slot : Slot
  above : List PathId
deriving DecidableEq, Inhabited

/-- A node met on a walk. -/
structure Visit where
  path : Path
  node : Tree Mark

namespace Visit

def metadataKeys : List String :=
  ["loc", "range", "start", "end", "extra", "comments", "leadingComments", "trailingComments"]

/-- The nodes a field of a node holds with their slots, in order. -/
def held (parent : Mark) (key : String) (t : Tree Mark) : List (Slot × Tree Mark) :=
  if metadataKeys.contains key then []
  else match t with
    | .arr list items => (items.filter Node.isNode).map fun x => (.item parent list key, x)
    | t => if Node.isNode t then [(.field parent key, t)] else []

/-- A pass over the nodes in the fields of a node, left at some point: what is still to come,
and the paths of the node and its ancestors. -/
structure Pass where
  above : List PathId
  rest : List (Slot × Tree Mark)

def Pass.over (above : List PathId) : Tree Mark → Pass
  | .obj m fields => ⟨above, fields.flatMap fun e => held m e.1 e.2⟩
  | _ => ⟨above, []⟩

/-- A walk under way: the number of the next path, the visits made, the latest first, and
the passes not yet finished, the innermost first. -/
structure Walk where
  next : PathId
  made : List Visit := []
  passes : List Pass

namespace Walk

/-- One round of a walk: the innermost pass goes on to its next node, which is visited and
passed over in turn, or is finished. -/
def step (w : Walk) : Walk :=
  match w.passes with
  | [] => w
  | ⟨_, []⟩ :: passes => { w with passes }
  | ⟨above, (slot, t) :: rest⟩ :: passes =>
    { next := w.next + 1, made := ⟨⟨t.ref, slot, above⟩, t⟩ :: w.made,
      passes := Pass.over (w.next :: above) t :: ⟨above, rest⟩ :: passes }

/-- A walk after some more rounds, or when no pass is left. -/
def run : Nat → Walk → Walk
  | 0, w => w
  | n + 1, w => if w.passes.isEmpty then w else w.step.run n

/-- The walk through the nodes below a given one. There are two rounds for each node and one
to finish, so it is over within two rounds for each mark. -/
def through (next : PathId) (t : Tree Mark) : Walk :=
  run (2 * t.marks.length) { next, passes := [Pass.over [] t] }

end Walk

/-- The nodes below a node, the node itself apart. -/
def below (next : PathId) (t : Tree Mark) : List Visit := (Walk.through next t).made.reverse

end Visit

end DebugGuards
