import DebugGuards.Tree.Access

/-! Syntax nodes are objects with a `type`. Two dialects of the tree format are read:
in one a literal is a `Literal` whatever its value, in the other there is a node type
for each kind of literal. The readers here take any document and fail only where a
part they must look into has the wrong shape. -/

namespace DebugGuards.Node

variable {α : Type}

def literalKinds : List String :=
  ["Literal", "StringLiteral", "NumericLiteral", "BooleanLiteral", "NullLiteral",
    "BigIntLiteral", "RegExpLiteral", "TemplateLiteral"]

def propertyKinds : List String := ["Property", "ObjectProperty"]

/-- The `type` of an object; anything else, or an object without one, has null. -/
def kind : Tree α → Tree α
  | .obj _ fields => (Table.get? fields "type").getD .null
  | _ => .null

def hasKind (t : Tree α) (name : String) : Bool :=
  match kind t with
  | .str s => s == name
  | _ => false

/-- A node proper: an object whose `type` is a text. -/
def kind? (t : Tree α) : Option String :=
  match kind t with
  | .str s => some s
  | _ => none

def isNode (t : Tree α) : Bool := (kind? t).isSome

def isCall (t : Tree α) : Bool := hasKind t "CallExpression"

def isIdentifier (t : Tree α) : Bool := hasKind t "Identifier"

/-- An identifier of a given name; null stands for any name. -/
def isIdentifierNamed (t name : Tree α) : Bool :=
  isIdentifier t &&
    match name with
    | .null => true
    | _ => ((Table.get? t.fields "name").getD .null).equal name

/-- Whether the `type` is one of the given ones. A composite cannot be looked up. -/
def kindIn (t : Tree α) (names : List String) : Except Failure Bool := do
  return (names.map Scalar.str).contains (← (kind t).asKey)

def isLiteral (t : Tree α) : Except Failure Bool := kindIn t literalKinds

def isProperty (t : Tree α) : Except Failure Bool := kindIn t propertyKinds

def isObjectLiteral (t : Tree α) : Bool := hasKind t "ObjectExpression"

def isStringLiteral (t : Tree α) : Bool :=
  hasKind t "StringLiteral" ||
    hasKind t "Literal" &&
      match Table.get? t.fields "value" with
      | some (.str _) => true
      | _ => false

/-- The value of a literal; null for anything else. -/
def literalValue (t : Tree α) : Except Failure (Tree α) := do
  if ← isLiteral t then t.get "value" else return .null

/-- The name of an identifier, which must be there; null for anything else. -/
def identifierName (t : Tree α) : Except Failure (Tree α) :=
  if isIdentifier t then t.require "name" else .ok .null

/-- The static name of a property: that of an identifier, or the text of a literal.
A computed name is none. -/
def propertyKey (p : Tree α) : Except Failure (Tree α) := do
  if (← p.get "computed").truth then return .null
  let key ← p.get "key"
  if isIdentifier key then key.require "name"
  else if ← isLiteral key then
    match ← key.get "value" with
    | .null => return .null
    | v => return .str v.text
  else return .null

/-- The module an import declaration names; null if it names none. -/
def importSource (d : Tree α) : Except Failure (Tree α) := do
  let source ← d.get "source"
  if source.truth then literalValue source else return .null

/-- The name a named specifier imports; null for other specifiers. -/
def importedName (s : Tree α) : Except Failure (Tree α) := do
  if !hasKind s "ImportSpecifier" then return .null
  let imported ← s.get "imported"
  if isIdentifier imported then imported.require "name"
  else if isStringLiteral imported then imported.require "value"
  else return .null

/-- The name a specifier binds; null if it binds none. -/
def localName (s : Tree α) : Except Failure (Tree α) := do identifierName (← s.get "local")

/-- An imported name and the name it is bound to. -/
structure Specifier (α : Type) where
  imported : Tree α
  bound : Tree α

def specifiers (d : Tree α) : Except Failure (List (Specifier α)) := do
  let pairs ← (← d.elementsOf "specifiers").mapM fun s => do
    return ⟨← importedName s, ← localName s⟩
  return pairs.filter fun p => p.imported.truth && p.bound.truth

/-- The name called by a call of a plain identifier; null for anything else. -/
def calleeName (t : Tree α) : Except Failure (Tree α) := do
  if isCall t then identifierName (← t.get "callee") else return .null

/-- The arguments of a call, as they stand; none at all counts as an empty list. -/
def callArguments [Inhabited α] (t : Tree α) : Except Failure (Tree α) := do
  return (← t.get? "arguments").getD (.arr default [])

/-- The value of a string literal; null for anything else. -/
def stringValue (t : Tree α) : Except Failure (Tree α) :=
  if isStringLiteral t then t.require "value" else .ok .null

/-- The static properties of an object literal with the values of their literals. A
name that is given again keeps its place and its first form. -/
def staticProperties (t : Tree α) : Except Failure (Option (Table Scalar (Tree α))) := do
  if !isObjectLiteral t then return none
  let props ← (← t.elementsOf "properties").foldlM
    (fun (table : Table Scalar (Scalar × Tree α)) p => do
      if !(← isProperty p) then return table
      match ← propertyKey p with
      | .null => return table
      | .scalar name =>
        let first := ((Table.get? table name.key).map Prod.fst).getD name
        return Table.set table name.key (first, ← literalValue (← p.get "value"))
      | _ => .error .badShape) []
  return some (props.map Prod.snd)

/-- The line a node starts on; null if unknown. -/
def line (t : Tree α) : Except Failure (Tree α) := do
  match Table.get? t.fields "loc" with
  | some loc@(.obj _ _) =>
    match ← loc.get? "start" with
    | some start => start.get "line"
    | none => return .null
  | _ => return .null

end DebugGuards.Node
