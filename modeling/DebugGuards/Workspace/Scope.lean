import DebugGuards.Workspace.Basic

/-! The module scope: which names the statements of the program declare, which names
occur at all, and a name that occurs nowhere. It is read off the document as it is at
the time of asking. -/

namespace DebugGuards

section Patterns

/-- Names in the order in which they are met. -/
abbrev Names := Except Failure (List (Tree Mark))

/-- What going through something that is no list gives: nothing if there is nothing in
it, else texts, which are no patterns. -/
def noPatterns (t : Tree Mark) : Names := do
  if (← t.elements).isEmpty then return [] else .error .badShape

/-- A first list of names followed by a second one. -/
def Names.append (a b : Names) : Names := do return (← a) ++ (← b)

/-- A single name, which must be able to stand for a key. -/
def asName (t : Tree Mark) : Names := t.asKey.map fun _ => [t]

mutual
/-- The names a binding pattern declares, each of which must be able to stand for a
key. -/
def patternNames : Tree Mark → Names
  | .null => .ok []
  | .obj m fields =>
    match Node.kind (.obj m fields) with
    | .str "Identifier" => do asName (← (Tree.obj m fields).require "name")
    | .str "ObjectPattern" => propertiesAt "properties" fields
    | .str "ArrayPattern" => elementsAt "elements" fields
    | .str "RestElement" => patternAt "argument" fields
    | .str "AssignmentPattern" => patternAt "left" fields
    | _ => .ok []
  | _ => .error .badShape
/-- The names of the pattern in a field, none if it is absent. -/
def patternAt (key : String) : List (String × Tree Mark) → Names
  | [] => .ok []
  | (k, t) :: rest => if k = key then patternNames t else patternAt key rest
/-- The names of the patterns in a list field. -/
def elementsAt (key : String) : List (String × Tree Mark) → Names
  | [] => .ok []
  | (k, t) :: rest =>
    if k = key then
      match t with
      | .arr _ items => itemNames items
      | t => noPatterns t
    else elementsAt key rest
def itemNames : List (Tree Mark) → Names
  | [] => .ok []
  | t :: ts => (patternNames t).append (itemNames ts)
/-- The names of the property patterns in a list field. -/
def propertiesAt (key : String) : List (String × Tree Mark) → Names
  | [] => .ok []
  | (k, t) :: rest =>
    if k = key then
      match t with
      | .arr _ items => propertyNames items
      | t => noPatterns t
    else propertiesAt key rest
def propertyNames : List (Tree Mark) → Names
  | [] => .ok []
  | .obj m fields :: ts =>
    Names.append
      (if Node.hasKind (.obj m fields) "RestElement" then patternAt "argument" fields
        else patternAt "value" fields)
      (propertyNames ts)
  | _ :: _ => .error .badShape
end

end Patterns

/-- A name declared at module level: `kind` is `module` for an import, the keyword of a
variable declaration, and `hoisted` for a function or class. -/
structure Binding where
  name : Tree Mark
  kind : Tree Mark
  path : Path

namespace Workspace

variable (w : Workspace)

/-- The list of statements as something to go through. -/
def statements : Except Failure (List (Tree Mark)) := do (← w.programNode.require "body").elements

/-- The path of a statement of the program. -/
def statementPath (statement : Tree Mark) : Path :=
  let body := ((Table.get? w.programNode.fields "body").bind Tree.mark?).getD 0
  ⟨statement.ref, .item w.program body "body", []⟩

/-- The names a statement declares, with their kinds. -/
def declared (statement : Tree Mark) : Except Failure (List (Tree Mark × Tree Mark)) := do
  match ← statement.get "type" with
  | .str "ImportDeclaration" =>
    let names ← (← statement.elementsOf "specifiers").mapM fun s => do
      let name ← Node.localName s
      if name.truth then asName name else return []
    return names.flatten.map fun n => (n, .str "module")
  | .str "VariableDeclaration" =>
    let keyword := (← statement.get? "kind").getD (.str "var")
    let names ← (← statement.elementsOf "declarations").mapM fun d => do patternNames (← d.get "id")
    return names.flatten.map fun n => (n, keyword)
  | .str "FunctionDeclaration" | .str "ClassDeclaration" =>
    let id ← statement.get "id"
    if Node.isIdentifier id then return [(← id.require "name", .str "hoisted")] else return []
  | _ => return []

/-- The module-level bindings. A name that is declared again keeps its place and takes
the later declaration's data. -/
def bindings : Except Failure (Table Scalar Binding) := do
  (← w.statements).foldlM (fun table statement => do
    (← declared statement).foldlM (fun table (name, kind) => do
      return Table.set table (← name.asKey) ⟨name, kind, w.statementPath statement⟩) table) []

def binding? (name : Tree Mark) : Except Failure (Option Binding) := do
  let table ← w.bindings
  return Table.get? table (← name.asKey)

/-- The module a binding was imported from; null for other bindings. -/
def bindingSource (b : Binding) : Except Failure (Tree Mark) :=
  match b.kind with
  | .str "module" => Node.importSource (w.deref b.path.node)
  | _ => .ok .null

/-- The paths of the import declarations of the program. -/
def importPaths : Except Failure (List Path) := do
  return ((← w.statements).filter fun s => Node.hasKind s "ImportDeclaration").map w.statementPath

/-- The names of all identifiers below the program, each once in its first form. -/
def referencedNames : Except Failure (List Scalar) := do
  (Visit.below 0 w.programNode).foldlM (fun names v => do
    if !Node.isIdentifier v.node then return names
    match ← v.node.require "name" with
    | .scalar name =>
      return if names.any fun n => n.key = name.key then names else names ++ [name]
    | _ => .error .badShape) []

section FreshName

/-- A name without leading underscores and trailing digits. -/
def baseName (name : String) : String :=
  let cs := name.toList.dropWhile (· == '_')
  let base := String.ofList (cs.reverse.dropWhile Char.isDigit).reverse
  if base = "" then "temp" else base

/-- The `i`-th candidate, counted from zero: `_base`, `_base2`, `_base3`, ... -/
def candidate (base : String) (i : Nat) : String :=
  if i = 0 then "_" ++ base else "_" ++ base ++ toString (i + 1)

/-- The first candidate that is not taken. One of the first `taken.length + 1` is free,
since they are all different. -/
def firstFree (base : String) (taken : List Scalar) : String :=
  let candidates := (List.range (taken.length + 1)).map (candidate base)
  (candidates.find? fun c => !taken.contains (.str c)).getD (candidate base taken.length)

/-- A name like the given one that neither occurs nor is declared in the program. -/
def freshName (name : String) : Except Failure String := do
  let referenced ← w.referencedNames
  let declared := Table.keys (← w.bindings)
  return firstFree (baseName name) (referenced ++ declared)

end FreshName

end Workspace

end DebugGuards
