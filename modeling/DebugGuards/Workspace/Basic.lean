import DebugGuards.Workspace.Path

/-! A module under the knife. The workspace holds the document, the parts that have
been taken out of it or not yet put in, and the paths made so far. Taken-out parts stay
editable through their paths, and a part that is both in the document and among the
loose ones is one part: every edit reaches all its occurrences. -/

namespace DebugGuards

structure Workspace where
  root : Tree Mark
  /-- The program node: the document itself, or the one a file wraps. -/
  program : Mark
  dialect : Dialect
  loose : List (Tree Mark) := []
  fresh : Mark
  paths : Array Path := #[]

namespace Workspace

section Open

/-- The dialect of the first literal, template literals apart; without one, files are
written in the dialect with a node type for each kind. -/
def dialectOf (t : Tree Mark) : Dialect :=
  let kinds := (Visit.below 0 t).filterMap fun v => Node.kind? v.node
  let literals := kinds.filter fun k => Node.literalKinds.contains k && k != "TemplateLiteral"
  match literals with
  | k :: _ => if k == "Literal" then .uniform else .kinded
  | [] => if Node.hasKind t "File" then .kinded else .uniform

/-- The workspace over a program, or over a file that wraps one. -/
def ofTree (t : Tree Mark) (fresh : Mark) : Except Failure Workspace := do
  let program ← if Node.hasKind t "File" then t.require "program" else .ok t
  match program with
  | .obj m _ =>
    if Node.hasKind program "Program" then
      return { root := t, program := m, dialect := dialectOf t, fresh := fresh }
    .error (.notProgram (Node.kind program).form)
  | _ => .error (.notProgram (Node.kind program).form)

end Open

section Parts
variable (w : Workspace)

/-- The part with a given mark, in the document or among the loose ones. -/
def part? (m : Mark) : Option (Tree Mark) :=
  (w.root.find? m).or (w.loose.findSome? (Tree.find? m))

/-- What a reference stands for now. -/
def deref : Ref → Tree Mark
  | .part m => (w.part? m).getD .null
  | .scalar s => .scalar s

/-- An edit of every occurrence of a part. -/
def editPart (m : Mark) (f : Tree Mark → Tree Mark) : Workspace :=
  { w with root := w.root.edit m f, loose := w.loose.map (Tree.edit m f) }

/-- A part kept at hand outside the document. -/
def keep (t : Tree Mark) : Workspace :=
  match t with
  | .scalar _ => w
  | t => { w with loose := w.loose ++ [t] }

/-- A draft with its new parts marked. -/
def settle (t : Draft) : Tree Mark × Workspace :=
  let (t, fresh) := t.settle w.fresh
  (t, { w with fresh := fresh })

/-- A new part, kept at hand. -/
def hold (t : Draft) : Ref × Workspace :=
  let (t, w) := w.settle t
  (t.ref, w.keep t)

def programNode : Tree Mark := w.deref (.part w.program)

end Parts

section Paths
variable (w : Workspace)

def addPath (p : Path) : PathId × Workspace :=
  (w.paths.size, { w with paths := w.paths.push p })

/-- The nodes below the program, with new paths. -/
def walk : List (PathId × Visit) × Workspace :=
  let visits := Visit.below w.paths.size w.programNode
  ((visits.zipIdx w.paths.size).map fun (v, i) => (i, v),
    { w with paths := w.paths ++ (visits.map Visit.path).toArray })

/-- A walk that keeps the nodes of given types. -/
def collect (kinds : List String) : List (PathId × Visit) × Workspace :=
  let (visits, w) := w.walk
  (visits.filter fun (_, v) => ((Node.kind? v.node).map kinds.contains).getD false, w)

def path (i : PathId) : Path := w.paths.getD i default

/-- The node a path tracks, as it is now. -/
def node (i : PathId) : Tree Mark := w.deref (w.path i).node

/-- The node of a path is where the path found it. -/
def inPlace (p : Path) : Bool :=
  match p.slot with
  | .top => false
  | .field parent key =>
    match w.part? parent with
    | some (.obj _ fields) => ((Table.get? fields key).getD .null).ref == p.node
    | _ => false
  | .item _ list _ =>
    match w.part? list with
    | some (.arr _ items) => items.any (·.ref == p.node)
    | _ => false

/-- The node of a path and all its ancestors are in place. -/
def attached (i : PathId) : Bool :=
  let p := w.path i
  w.inPlace p && p.above.all fun j => w.inPlace (w.path j)

end Paths

section Surgery
variable (w : Workspace)

/-- The failure of a path whose node has left its list. -/
def detachedFailure (p : Path) : Failure :=
  match (w.deref p.node).get "type" with
  | .ok kind => .detached kind.text
  | .error f => f

/-- Sets a field of a part; what it held is kept at hand. -/
def setPartField (m : Mark) (key : String) (v : Draft) : Workspace :=
  let old := ((w.part? m).bind fun t => Table.get? t.fields key).getD .null
  let (v, w) := (w.keep old).settle v
  w.editPart m (Tree.setField key v)

/-- Puts nodes in the place of the node of a path in its list. -/
def spliceAt (p : Path) (list : Mark) (new : List Draft) : Except Failure (List Ref × Workspace) :=
  if w.inPlace p then
    let (new, fresh) := Tree.settleItems w.fresh new
    let w := { w with fresh := fresh }.keep (w.deref p.node)
    .ok (new.map Tree.ref, w.editPart list (Tree.splice p.node new))
  else .error (w.detachedFailure p)

/-- Puts a node in the place of another; the path tracks it from then on. -/
def replace (i : PathId) (new : Draft) : Except Failure Workspace := do
  let p := w.path i
  match p.slot with
  | .top => .error .replaceRoot
  | .item _ list _ =>
    let (refs, w) ← w.spliceAt p list [new]
    return { w with paths := w.paths.setIfInBounds i { p with node := refs.headD p.node } }
  | .field parent key =>
    let (t, w) := w.settle new
    let w := w.setPartField parent key t.draft
    return { w with paths := w.paths.setIfInBounds i { p with node := t.ref } }

/-- Puts any number of nodes in the place of one in a list. -/
def replaceMany (i : PathId) (new : List Draft) : Except Failure Workspace :=
  let p := w.path i
  match p.slot with
  | .item _ list _ => (w.spliceAt p list new).map Prod.snd
  | _ => .error .outsideList

/-- What is left in a field whose node is removed: a field that held a statement must
go on holding one. -/
def leftover (node : Tree Mark) : Except Failure Draft := do
  match ← node.get? "type" with
  | none => return .null
  | some kind => return if (← kind.asText).endsWith "Statement" then Node.emptyStatement else .null

/-- Takes the node of a path out. -/
def remove (i : PathId) : Except Failure Workspace :=
  let p := w.path i
  match p.slot with
  | .top => .error .removeRoot
  | .item _ list _ => (w.spliceAt p list []).map Prod.snd
  | .field parent key => (leftover (w.deref p.node)).map (w.setPartField parent key)

/-- Sets a field of the node a path tracks. -/
def setField (i : PathId) (key : String) (v : Draft) : Except Failure Workspace :=
  match w.node i with
  | .obj m _ => .ok (w.setPartField m key v)
  | _ => .error .badShape

/-- Puts a statement at the top of the program. -/
def insertTop (new : Draft) : Except Failure Workspace := do
  match ← w.programNode.require "body" with
  | .arr m _ =>
    let (t, w) := w.settle new
    return w.editPart m (Tree.push t)
  | _ => .error .badShape

end Surgery

end Workspace

end DebugGuards
