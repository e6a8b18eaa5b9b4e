import DebugGuards.Node.Shape

/-! Making nodes. New objects and lists carry the default mark, so the same makers
serve plain values and documents whose new parts are still to be marked. -/

namespace DebugGuards

namespace Node

variable {α : Type} [Inhabited α]

/-- An object with a `type` and further fields. -/
def make (kind : String) (fields : List (String × Tree α)) : Tree α :=
  .obj default (("type", .str kind) :: fields)

def listOf (items : List (Tree α)) : Tree α := .arr default items

section Escapes

def replace (c : Char) (text : List Char) (cs : List Char) : List Char :=
  cs.flatMap fun x => if x = c then text else [x]

/-- The characters of a string literal: backslashes are escaped, then double quotes, then
line feeds. -/
def escapeText (cs : List Char) : List Char :=
  replace '\n' ['\\', 'n'] (replace '"' ['\\', '"'] (replace '\\' ['\\', '\\'] cs))

/-- What becomes of one character. -/
def escapeLiteral : Char → List Char
  | '\\' => ['\\', '\\']
  | '"' => ['\\', '"']
  | '\n' => ['\\', 'n']
  | c => [c]

/-- No pass escapes what an earlier one put in, so they come to one. -/
theorem escapeText_eq (cs : List Char) : escapeText cs = cs.flatMap escapeLiteral := by
  simp only [escapeText, replace, List.flatMap_assoc]
  congr 1
  funext c
  fun_cases escapeLiteral c with
  | case1 => rfl
  | case2 => rfl
  | case3 => rfl
  | case4 c hslash hquote hfeed => simp_all

end Escapes

/-- The source text of a literal with a given value. -/
def rawLiteral : Tree α → String
  | .null => "null"
  | .bool b => if b then "true" else "false"
  | .str s => String.ofList ('"' :: escapeText s.toList ++ ['"'])
  | t => t.form

def identifier (name : Tree α) : Tree α := make "Identifier" [("name", name)]

def literal (value : Tree α) : Tree α :=
  make "Literal" [("value", value), ("raw", .str (rawLiteral value))]

/-- A literal whose node type tells the kind of its value. -/
def kindedLiteral : Tree α → Tree α
  | .null => make "NullLiteral" []
  | .bool b => make "BooleanLiteral" [("value", .bool b)]
  | value =>
    let kind := match value with
      | .str _ => "StringLiteral"
      | _ => "NumericLiteral"
    make kind [("value", value),
      ("extra", .obj default [("rawValue", value), ("raw", .str (rawLiteral value))])]

def call (callee : Tree α) (arguments : List (Tree α)) : Tree α :=
  make "CallExpression"
    [("callee", callee), ("arguments", listOf arguments), ("optional", .bool false)]

def member (object property : Tree α) : Tree α :=
  make "MemberExpression"
    [("object", object), ("property", property), ("computed", .bool false), ("optional", .bool false)]

def logical (operator left right : Tree α) : Tree α :=
  make "LogicalExpression" [("operator", operator), ("left", left), ("right", right)]

def logicalAnd (left right : Tree α) : Tree α := logical (.str "&&") left right

def parenthesized (expression : Tree α) : Tree α :=
  make "ParenthesizedExpression" [("expression", expression)]

/-- The declaration `const name = init`. -/
def constant (name init : Tree α) : Tree α :=
  make "VariableDeclaration"
    [("kind", .str "const"),
      ("declarations", listOf [make "VariableDeclarator" [("id", identifier name), ("init", init)]])]

def expressionStatement (expression : Tree α) : Tree α :=
  make "ExpressionStatement" [("expression", expression)]

def emptyStatement : Tree α := make "EmptyStatement" []

def property (key value : Tree α) : Tree α :=
  make "Property"
    [("key", identifier key), ("value", value), ("kind", .str "init"), ("computed", .bool false),
      ("method", .bool false), ("shorthand", .bool false)]

def objectLiteral (properties : List (String × Tree α)) : Tree α :=
  make "ObjectExpression" [("properties", listOf (properties.map fun p => property (.str p.1) p.2))]

/-- A named specifier; without a local name the imported one is bound. -/
def importSpecifier (imported bound : Tree α) : Tree α :=
  make "ImportSpecifier"
    [("imported", identifier imported), ("local", identifier (if bound.truth then bound else imported))]

def importDeclaration (source : Tree α) (specifiers : List (Tree α)) : Tree α :=
  make "ImportDeclaration" [("specifiers", listOf specifiers), ("source", literal source)]

def program (body : List (Tree α)) : Tree α :=
  make "Program" [("sourceType", .str "module"), ("body", listOf body)]

end Node

/-- How a tree writes its literals. -/
inductive Dialect where
  | uniform
  | kinded
deriving DecidableEq, Inhabited

def Dialect.literal {α : Type} [Inhabited α] : Dialect → Tree α → Tree α
  | uniform, v => Node.literal v
  | kinded, v => Node.kindedLiteral v

end DebugGuards
