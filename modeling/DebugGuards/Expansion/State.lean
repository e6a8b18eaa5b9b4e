import DebugGuards.Log
import DebugGuards.Workspace.Scope

/-! The state of an expansion: the workspace, the helpers imported, the expansions
pending, and the log. A run that fails keeps the state it has reached. -/

namespace DebugGuards.Expansion

/-- A name bound to an imported helper. -/
structure Helper where
  bound : Json
  imported : Json

/-- A call site waiting for the name of the guard, with the conditions and the
diagnostic call that will follow the guard. -/
structure Pending where
  site : PathId
  operands : List Ref

structure State where
  workspace : Workspace
  helpers : Table Scalar Helper := []
  pending : List Pending := []
  finalized : Bool := false
  log : List Record := []

abbrev Work := ExceptT Failure (StateM State)

namespace Work

variable {α : Type}

def ofExcept (r : Except Failure α) : Work α := ExceptT.mk (pure r)

def look (f : Workspace → Except Failure α) : Work α := do ofExcept (f (← get).workspace)

/-- Changes the workspace, or leaves it as it is and fails. -/
def act (f : Workspace → Except Failure Workspace) : Work Unit := do
  let w ← look f
  modify fun s => { s with workspace := w }

/-- Changes the workspace and gives what comes of it. -/
def make (f : Workspace → α × Workspace) : Work α := do
  let (a, w) := f (← get).workspace
  modify fun s => { s with workspace := w }
  return a

def record (level : Level) (text : String) : Work Unit :=
  modify fun s => { s with log := s.log ++ [⟨level, text⟩] }

def node (i : PathId) : Work (Tree Mark) := look fun w => .ok (w.node i)

end Work

/-- A name is bound to an imported helper; a name bound again keeps its place and its
first form. -/
def addHelper (imported bound : Json) : Work Unit := do
  let key ← Work.ofExcept bound.asKey
  modify fun s =>
    let first := ((Table.get? s.helpers key).map Helper.bound).getD bound
    { s with helpers := Table.set s.helpers key ⟨first, imported⟩ }

end DebugGuards.Expansion
