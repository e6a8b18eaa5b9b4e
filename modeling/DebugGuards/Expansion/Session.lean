import DebugGuards.Expansion.Run
import DebugGuards.Printing.Statement

/-! Working on a module step by step. A session hands out numbered handles, which are
paths into the module, and carries out single operations of an expansion on them. A
step that fails leaves the session usable, and a step that fails before it has its
answer hands out no handle. -/

namespace DebugGuards.Expansion

structure Session where
  options : Options
  state : State
  handles : List PathId := []

abbrev SessionStep := ExceptT Failure (StateM Session)

namespace Session

/-- A session over a plain document. -/
def start (o : Options) (t : Json) : Except Failure Session := do
  let (t, fresh) := t.copy.settle 0
  return { options := o, state := { workspace := ← Workspace.ofTree t fresh } }

def workspace (s : Session) : Workspace := s.state.workspace

variable {α : Type}

/-- A step of an expansion as a step of the session. -/
def work (x : Work α) : SessionStep α := ExceptT.mk fun s =>
  let (r, state) := x.run.run s.state
  (r, { s with state := state })

def look (f : Session → Except Failure α) : SessionStep α := do
  ExceptT.mk (pure (f (← get)))

def issue (i : PathId) : SessionStep Nat := do
  let n := (← get).handles.length
  modify fun s => { s with handles := s.handles ++ [i] }
  return n

def issueAll (is : List PathId) : SessionStep (List Nat) := is.mapM issue

def handle (h : Nat) : SessionStep PathId := look fun s =>
  match s.handles[h]? with
  | some i => .ok i
  | none => .error .badShape

section Looking

/-- A node met on a walk: its type, the field it is in, the type of its parent, and
whether the field is a list. -/
structure Place where
  kind : Json
  key : Option String
  parentKind : Json
  inList : Bool

def place (w : Workspace) (v : Visit) : Place :=
  let slot := v.path.slot
  let parent := (slot.parent?.bind w.part?).getD .null
  ⟨(Node.kind v.node).erase, slot.key?, (Node.kind parent).erase, slot.isItem⟩

def walk : SessionStep (List Place) := do
  let visits ← work (Work.make Workspace.walk)
  look fun s => .ok (visits.map fun (_, v) => place s.workspace v)

def root : SessionStep Nat := do
  let path ← look fun s => .ok ⟨.part s.workspace.program, .top, []⟩
  issue (← work (Work.make fun w => w.addPath path))

def collect (kinds : List String) : SessionStep (List Nat × List Place) := do
  let visits ← work (Work.make fun w => w.collect kinds)
  let places ← look fun s => .ok (visits.map fun (_, v) => place s.workspace v)
  return (← issueAll (visits.map Prod.fst), places)

/-- Handles for the expression statements, with the names they call. -/
def statements : SessionStep (List Nat × List Json) := do
  let visits ← work (Work.make fun w => w.collect ["ExpressionStatement"])
  let callees ← visits.mapM fun (_, v) => look fun _ => do Node.calleeName (← v.node.get "expression")
  return (← issueAll (visits.map Prod.fst), callees.map Tree.erase)

/-- Handles for the import declarations, with their sources and named specifiers. -/
def imports : SessionStep (List Nat × List (Json × List (Node.Specifier Unit))) := do
  let sites ← work importSites
  let described ← sites.mapM fun i => look fun s => do
    let declaration := (s.workspace.node i).erase
    return (← Node.importSource declaration, ← Node.specifiers declaration)
  return (← issueAll sites, described)

/-- A module-level binding and the number of its statement. -/
structure BindingView where
  name : Json
  kind : Json
  source : Json
  index : Option Nat

def bindings : SessionStep (List BindingView) := look fun s => do
  let w := s.workspace
  let body ← w.statements
  (← w.bindings).mapM fun (_, b) => do
    return ⟨b.name.erase, b.kind.erase, (← w.bindingSource b).erase,
      body.findIdx? fun t => t.ref == b.path.node⟩

/-- The binding of a name with a handle for its statement. -/
def binding (name : Json) : SessionStep (Option (Json × Json × Nat)) := do
  let found ← look fun s => do return Table.get? (← s.workspace.bindings) (← name.asKey)
  match found with
  | none => return none
  | some b =>
    let source ← look fun s => s.workspace.bindingSource b
    let i ← work (Work.make fun w => w.addPath b.path)
    return some (b.kind.erase, source.erase, ← issue i)

/-- Names in order. Texts and numbers have no common order. -/
def sortNames (names : List Scalar) : Except Failure (List Scalar) :=
  let texts := names.filterMap fun
    | .str s => some s
    | _ => none
  let numbers := names.filterMap fun n => n.number?.map fun x => (x, n)
  if names.length ≤ 1 then .ok names
  else if texts.length = names.length then
    .ok ((texts.mergeSort fun a b => compare a b != .gt).map .str)
  else if numbers.length = names.length then
    .ok ((numbers.mergeSort fun a b => a.1.atMost b.1).map Prod.snd)
  else .error .badShape

/-- The names of all identifiers, in order. -/
def names : SessionStep (List Scalar) := look fun s => do sortNames (← s.workspace.referencedNames)

def freshName (name : Json) : SessionStep String := look fun s => do
  s.workspace.freshName (← name.asText)

def attached : SessionStep (List Bool) := look fun s => .ok (s.handles.map s.workspace.attached)

def source : SessionStep String := look fun s => Printing.source s.workspace.root

def document : SessionStep Json := look fun s => .ok s.workspace.root.erase

end Looking

section Changing

def act (h : Nat) (f : PathId → Workspace → Except Failure Workspace) : SessionStep Unit := do
  let i ← handle h
  work (Work.act (f i))

def replace (h : Nat) (node : Json) : SessionStep Unit := act h fun i w => w.replace i node.copy

def replaceMany (h : Nat) (nodes : List Json) : SessionStep Unit :=
  act h fun i w => w.replaceMany i (nodes.map Tree.copy)

def remove (h : Nat) : SessionStep Unit := act h fun i w => w.remove i

def insertTop (node : Json) : SessionStep Unit := work (Work.act fun w => w.insertTop node.copy)

def setSource (h : Nat) (source : Json) : SessionStep Unit :=
  act h fun i w => w.setField i "source" (w.dialect.literal source.copy)

def setExpression (h : Nat) (node : Json) : SessionStep Unit :=
  act h fun i w => w.setField i "expression" node.copy

end Changing

section Expanding

def literal (value : Json) : SessionStep Json := look fun s => .ok (s.workspace.dialect.literal value)

def constants (specifiers : List (Node.Specifier Unit)) (table source : Json) : SessionStep (List Json) :=
  look fun s => flagConstants s.workspace.dialect specifiers table source

def inline (h : Nat) (table : Json) : SessionStep Nat := do
  let i ← handle h
  work (inlineFlags i table)

/-- The feature flags configured for a module. -/
def feature (source : Json) : SessionStep (Option FeatureFlags) := look fun s =>
  .ok (featureTable? s.options.features source)

/-- Binds a name to a helper and gives all bindings. -/
def bind (imported bound : Json) : SessionStep (List Helper) := do
  work (addHelper imported bound)
  look fun s => .ok (s.state.helpers.map Prod.snd)

def resolve (bound : Json) : SessionStep (Option Json) := look fun s => do
  return (Table.get? s.state.helpers (← bound.asKey)).map Helper.imported

/-- Dispatches a statement; gives whether it was taken and the number of expansions
pending. -/
def dispatch (h : Nat) : SessionStep (Bool × Nat) := do
  let i ← handle h
  let o := (← get).options
  let handled ← work (Expansion.dispatch o i)
  return (handled, (← get).state.pending.length)

/-- The number of expansions pending, and whether they have been carried out. -/
def registry : SessionStep (Nat × Bool) := look fun s => .ok (s.state.pending.length, s.state.finalized)

def finalize (guard : Json) : SessionStep Nat := work (Expansion.finalize guard)

end Expanding

end Session

end DebugGuards.Expansion
