import DebugGuards.Printing.Expression

/-! How statements print, and the printing of whole documents. A statement's text has
no indentation on its first line; whoever sets it on a line of its own adds it. Simple
statements end in a semicolon. A statement whose expression starts like a block or a
function declaration is put in parentheses. -/

namespace DebugGuards.Printing

variable {α : Type}

section Simple

def expressionStatement (p : Part α) : Printed String := do
  let e ← p.require "expression"
  let text ← e.expression 0
  if ← e.hasKind ["ObjectExpression", "FunctionExpression"] then return "(" ++ text.text ++ ");"
  return (← text.asText) ++ ";"

def returnStatement (p : Part α) : Printed String := do
  match ← p.given? "argument" with
  | none => return "return;"
  | some e => return "return " ++ (← e.expression 0).text ++ ";"

def throwStatement (p : Part α) : Printed String := do
  return "throw " ++ (← p.textAt "argument") ++ ";"

/-- One declarator: a name or pattern with its initial value. -/
def declarator (p : Part α) : Printed (Tree α) := do
  let target ← p.expressionAt "id"
  match ← p.given? "init" with
  | none => return target
  | some e =>
    let value ← e.expression 1
    return .str ((← target.asText) ++ " = " ++ (← value.asText))

def variableDeclaration (p : Part α) : Printed String := do
  let parts ← (← p.elementsOf "declarations").mapM declarator
  let keyword := ((← p.tree.get? "kind").map Tree.text).getD "var"
  return keyword ++ " " ++ (← commaJoin parts) ++ ";"

end Simple

/-- A condition with its branches; a branch that is itself a condition follows `else`
on the same line. -/
def ifStatement (indent : String) (p : Part α) (depth : Nat) : Printed String := do
  let test ← p.textAt "test"
  let consequent ← block indent (← p.require "consequent") depth
  let text := "if (" ++ test ++ ") " ++ consequent
  match ← p.given? "alternate" with
  | none => return text
  | some alternate =>
    if ← alternate.hasKind ["IfStatement"] then
      return text ++ " else " ++ (← alternate.statement depth)
    return text ++ " else " ++ (← block indent alternate depth)

section Modules

/-- The name under which a specifier's other end is known. -/
def outerName (t : Tree α) : Printed (Tree α) := do
  let name ← t.get "name"
  if name.truth then return name else t.get "value"

/-- A clause of an import: `inl` for a default or namespace one, `inr` for a name in
braces. -/
def importClause (t : Tree α) : Printed (Tree α ⊕ Tree α) := do
  let kind ← t.get "type"
  let name ← (← t.require "local").require "name"
  match kind with
  | .str "ImportDefaultSpecifier" => return .inl name
  | .str "ImportNamespaceSpecifier" => return .inl (.str ("* as " ++ name.text))
  | _ =>
    let imported ← outerName (← t.require "imported")
    return .inr (if imported.equal name then imported else .str (imported.text ++ " as " ++ name.text))

def importDeclaration (p : Part α) : Printed String := do
  let source := (← p.expressionAt "source").text
  let clauses ← (← p.elementsOf "specifiers").mapM fun s => importClause s.tree
  let lone := clauses.filterMap Sum.getLeft?
  let named := clauses.filterMap Sum.getRight?
  let all ← if named.isEmpty then pure lone
    else do pure (lone ++ [.str ("\x7b " ++ (← commaJoin named) ++ " \x7d")])
  if all.isEmpty then return "import " ++ source ++ ";"
  return "import " ++ (← commaJoin all) ++ " from " ++ source ++ ";"

def exportClause (t : Tree α) : Printed (Tree α) := do
  let name ← (← t.require "local").require "name"
  let exported ← outerName (← t.require "exported")
  return if name.equal exported then name else .str (name.text ++ " as " ++ exported.text)

def exportNamed (p : Part α) (depth : Nat) : Printed String := do
  match ← p.given? "declaration" with
  | some d => return "export " ++ (← d.statement depth)
  | none =>
    let names ← (← p.elementsOf "specifiers").mapM fun s => exportClause s.tree
    let text := "export \x7b " ++ (← commaJoin names) ++ " \x7d"
    match ← p.given? "source" with
    | none => return text ++ ";"
    | some source => return text ++ " from " ++ (← (← source.expression 0).asText) ++ ";"

def exportDefault (indent : String) (p : Part α) (depth : Nat) : Printed String := do
  let d ← p.require "declaration"
  if ← d.hasKind ["FunctionDeclaration"] then
    return "export default " ++ (← function indent d depth)
  return "export default " ++ (← d.expression 1).text ++ ";"

end Modules

/-- A statement at a given depth, without the indentation of its first line. -/
def printStatement (indent : String) (p : Part α) (depth : Nat) : Printed String := do
  match ← p.kind with
  | .str "ExpressionStatement" => expressionStatement p
  | .str "EmptyStatement" => return ";"
  | .str "BlockStatement" => block indent p depth
  | .str "ReturnStatement" => returnStatement p
  | .str "ThrowStatement" => throwStatement p
  | .str "IfStatement" => ifStatement indent p depth
  | .str "VariableDeclaration" => variableDeclaration p
  | .str "FunctionDeclaration" => function indent p depth
  | .str "ImportDeclaration" => importDeclaration p
  | .str "ExportNamedDeclaration" => exportNamed p depth
  | .str "ExportDefaultDeclaration" => exportDefault indent p depth
  | .str "inline" => .error .endless
  | kind => .error (.unsupportedStatement kind.text)

section Documents
variable [Inhabited α]

mutual
/-- The parts of a document with their printers. -/
def Part.of (indent : String) : Tree α → Part α
  | .scalar s => .silent (.scalar s) []
  | .arr m items => .silent (.arr m items) (Part.ofItems indent items)
  | .obj m fields =>
    let parts := Part.ofFields indent fields
    let node := Part.mk (.obj m fields) [] parts (fun _ => .error .badShape) fun _ => .error .badShape
    .mk (.obj m fields) [] parts (printStatement indent node) (printExpression indent node)
def Part.ofItems (indent : String) : List (Tree α) → List (Part α)
  | [] => []
  | t :: ts => Part.of indent t :: Part.ofItems indent ts
def Part.ofFields (indent : String) : List (String × Tree α) → List (String × Part α)
  | [] => []
  | (k, t) :: ts => (k, Part.of indent t) :: Part.ofFields indent ts
end

/-- The source text of a module or of a single statement, ending in a line feed. -/
def emit (indent : String) (t : Tree α) : Printed String := do
  let p := Part.of indent t
  let p ← if ← p.hasKind ["File"] then p.require "program" else pure p
  let lines ←
    if ← p.hasKind ["Program"] then (← p.elementsOf "body").mapM fun s => lineOf indent s 0
    else do pure [← lineOf indent p 0]
  return "\n".intercalate lines ++ "\n"

def indentation : String := "  "

def source (t : Tree α) : Printed String := emit indentation t

/-- The source text of an expression in a place of a given power. -/
def expressionSource (t : Tree α) (power : Nat) : Printed (Tree α) :=
  (Part.of indentation t).expression power

end Documents

end DebugGuards.Printing
