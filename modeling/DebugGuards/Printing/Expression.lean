import DebugGuards.Printing.Part

/-! How expressions and binding patterns print. Each printer takes the parts of its
node and gives the text with its binding power; `printExpression` puts
parentheses around what binds looser than its place asks for. -/

namespace DebugGuards.Printing

variable {α : Type}

/-- A printed expression and its binding power. -/
abbrev Bound (α : Type) := Tree α × Nat

def bound (text : String) (power : Nat) : Bound α := (.str text, power)

section Literals

/-- The raw form of a literal: its own, or the one among its extras. -/
def rawForm (t : Tree α) : Printed (Tree α) := do
  let raw ← t.get "raw"
  if raw.truth then return raw
  let extra ← t.get "extra"
  if extra.truth then extra.get "raw" else return .null

def regular (t : Tree α) : Printed (Tree α) := do
  let pattern ← t.require "pattern"
  let flags := ((← t.get? "flags").map Tree.text).getD ""
  return .str ("/" ++ pattern.text ++ "/" ++ flags)

/-- The raw form if there is one, else a form made from the value. -/
def literal [Inhabited α] (t : Tree α) : Printed (Tree α) := do
  match ← rawForm t with
  | .null =>
    if Node.hasKind t "NullLiteral" then return .str "null"
    else if Node.hasKind t "RegExpLiteral" then regular t
    else
      match ← t.get? "regex" with
      | some r => regular r
      | none => return .str (Node.rawLiteral (← t.get "value"))
  | raw => return raw

/-- The expression after the `i`-th piece of a template, if there is one. -/
def substitution? (p : Part α) (i : Nat) : Printed (Option (Part α)) := do
  match (← p.get? "expressions").map Part.tree with
  | some (.obj _ fields) => if i < fields.length then .error (.missingKey (toString i)) else return none
  | _ => return (← p.elementsOf "expressions")[i]?

def template (p : Part α) : Printed (Bound α) := do
  let pieces ← (← p.elementsOf "quasis").zipIdx.mapM fun (quasi, i) => do
    let raw ← (← quasi.tree.require "value").require "raw"
    match ← substitution? p i with
    | some e => return [raw, .str ("$\x7b" ++ (← (← e.expression 0).asText) ++ "\x7d")]
    | none => return [raw]
  return bound ("`" ++ "".intercalate (← pieces.flatten.mapM Tree.asText) ++ "`") atomic

end Literals

section Calls

def arguments (p : Part α) : Printed String := do
  commaJoin (← (← p.elementsOf "arguments").mapM fun a => a.expression 1)

def call (p : Part α) : Printed (Bound α) := do
  let callee ← p.textAt "callee" postfixed
  let mark := if ← p.flag "optional" then "?." else ""
  return bound (callee ++ mark ++ "(" ++ (← arguments p) ++ ")") postfixed

def new (p : Part α) : Printed (Bound α) := do
  let callee ← p.textAt "callee" postfixed
  return bound ("new " ++ callee ++ "(" ++ (← arguments p) ++ ")") postfixed

def member (p : Part α) : Printed (Bound α) := do
  let object ← p.textAt "object" postfixed
  if ← p.flag "computed" then
    return bound (object ++ "[" ++ (← p.textAt "property") ++ "]") postfixed
  let dot := if ← p.flag "optional" then "?." else "."
  return bound (object ++ dot ++ (← p.textAt "property")) postfixed

end Calls

section Operators

/-- The power asked of an operand, raised when it would mix `??` with `||` or `&&`. -/
def operandPower (operator : String) (operand : Part α) (power : Nat) : Printed Nat := do
  if ← operand.hasKind ["LogicalExpression"] then
    match ← (← operand.tree.require "operator").asKey with
    | .str inner => return if mixesNullish operator inner then atomic else power
    | _ => return power
  else return power

def binary (p : Part α) : Printed (Bound α) := do
  let op ← p.tree.require "operator"
  match ← op.asKey with
  | .str operator =>
    match power? operator with
    | none => .error (.missingKey operator)
    | some power =>
      let left ← p.require "left"
      let leftPower ← operandPower operator left (operandPowers operator power).1
      let right ← p.require "right"
      let rightPower ← operandPower operator right (operandPowers operator power).2
      let l ← left.expression leftPower
      let r ← right.expression rightPower
      return bound (l.text ++ " " ++ operator ++ " " ++ r.text) power
  | _ => .error (.missingKey op.text)

/-- A word operator is set off by a space. -/
def unaryGap (operator : String) : String :=
  if operator ≠ "" ∧ operator.toList.all Text.isLetter then " " else ""

def prefixed (p : Part α) : Printed (Bound α) := do
  let operator ← (← p.tree.require "operator").asText
  return bound (operator ++ unaryGap operator ++ (← p.textAt "argument" unary)) unary

def update (p : Part α) : Printed (Bound α) := do
  let argument ← p.textAt "argument" unary
  let before ← p.flag "prefix"
  let operator := (← p.tree.require "operator").text
  return bound (if before then operator ++ argument else argument ++ operator) unary

def assignment (p : Part α) : Printed (Bound α) := do
  let left ← p.textAt "left"
  let operator := (← p.tree.require "operator").text
  return bound (left ++ " " ++ operator ++ " " ++ (← p.textAt "right" 1)) 1

def conditional (p : Part α) : Printed (Bound α) := do
  let test ← p.textAt "test" 2
  let consequent ← p.textAt "consequent" 1
  return bound (test ++ " ? " ++ consequent ++ " : " ++ (← p.textAt "alternate" 1)) 1

end Operators

section Composites

/-- Items between brackets; null stands for a hole. -/
def list (p : Part α) (power : Nat) : Printed (Bound α) := do
  let items ← (← p.elementsOf "elements").mapM fun item =>
    match item.tree with
    | .null => .ok (.str "")
    | _ => item.expression power
  return bound ("[" ++ (← commaJoin items) ++ "]") atomic

def property (p : Part α) : Printed (Tree α) := do
  if ← p.hasKind ["SpreadElement", "RestElement"] then
    return .str ("..." ++ (← (← p.expressionAt "argument" 1).asText))
  let key ← p.expressionAt "key"
  let key := if ← p.flag "computed" then .str ("[" ++ key.text ++ "]") else key
  if ← p.flag "shorthand" then return key
  return .str (key.text ++ ": " ++ (← p.textAt "value" 1))

def properties (p : Part α) : Printed String := do
  let props ← (← p.elementsOf "properties").mapM property
  return "\x7b " ++ (← commaJoin props) ++ " \x7d"

def object (p : Part α) : Printed (Bound α) := do
  match ← p.get? "properties" with
  | some q => return bound (← if q.tree.truth then properties p else .ok "\x7b\x7d") atomic
  | none => return bound "\x7b\x7d" atomic

def spread (p : Part α) (power : Nat) : Printed (Bound α) := do
  return bound ("..." ++ (← (← p.expressionAt "argument" power).asText)) 1

def defaulted (p : Part α) : Printed (Bound α) := do
  let left ← p.textAt "left"
  return bound (left ++ " = " ++ (← p.textAt "right" 1)) 1

end Composites

section Functions

/-- Statements between braces, or the empty braces. -/
def braced (indent : String) (depth : Nat) (lines : List String) : String :=
  "\x7b\n" ++ "\n".intercalate lines ++ "\n" ++ String.join (List.replicate depth indent) ++ "\x7d"

def lineOf (indent : String) (p : Part α) (depth : Nat) : Printed String := do
  return String.join (List.replicate depth indent) ++ (← p.statement depth)

/-- A block; a statement that is none is put into one. -/
def block (indent : String) (p : Part α) (depth : Nat) : Printed String := do
  if ← p.hasKind ["BlockStatement"] then
    match ← p.get? "body" with
    | none => return "\x7b\x7d"
    | some body =>
      if !body.tree.truth then return "\x7b\x7d"
      let statements ← p.elementsOf "body"
      return braced indent depth (← statements.mapM fun s => lineOf indent s (depth + 1))
  else return braced indent depth [← lineOf indent p (depth + 1)]

def parameters (p : Part α) : Printed String := do
  commaJoin (← (← p.elementsOf "params").mapM fun q => q.expression 0)

def function (indent : String) (p : Part α) (depth : Nat) : Printed String := do
  let lead := if ← p.flag "async" then "async " else ""
  let star := if ← p.flag "generator" then "*" else ""
  let name ← if ← p.flag "id" then do
    pure (" " ++ (← (← p.tree.require "id").require "name").text) else pure ""
  let params ← parameters p
  return lead ++ "function" ++ star ++ name ++ "(" ++ params ++ ") " ++
    (← block indent (← p.require "body") depth)

def arrow (indent : String) (p : Part α) : Printed (Bound α) := do
  let lead := if ← p.flag "async" then "async " else ""
  let body ← p.require "body"
  let text ←
    if ← body.hasKind ["BlockStatement"] then block indent body 0
    else do
      let text := (← body.expression 1).text
      pure (if ← body.hasKind ["ObjectExpression"] then "(" ++ text ++ ")" else text)
  return bound (lead ++ "(" ++ (← parameters p) ++ ") => " ++ text) 1

end Functions

/-- The text and power of an expression of a given type. -/
def bare (indent : String) (kind : String) (p : Part α) : Printed (Bound α) :=
  match kind with
  | "Identifier" => do return (← p.tree.require "name", atomic)
  | "ThisExpression" => .ok (bound "this" atomic)
  | "TemplateLiteral" => template p
  | "ParenthesizedExpression" => do return bound ("(" ++ (← p.textAt "expression") ++ ")") atomic
  | "CallExpression" => call p
  | "NewExpression" => new p
  | "MemberExpression" => member p
  | "LogicalExpression" | "BinaryExpression" => binary p
  | "UnaryExpression" => prefixed p
  | "UpdateExpression" => update p
  | "AssignmentExpression" => assignment p
  | "ConditionalExpression" => conditional p
  | "ArrayExpression" => list p 1
  | "ObjectExpression" => object p
  | "SpreadElement" => spread p 1
  | "FunctionExpression" => do return bound (← function indent p 0) atomic
  | "ArrowFunctionExpression" => arrow indent p
  | "ObjectPattern" => do return bound (← properties p) atomic
  | "ArrayPattern" => list p 0
  | "AssignmentPattern" => defaulted p
  | "RestElement" => spread p 0
  | _ => .error (.unsupportedExpression kind)

/-- An expression in a place of a given power. -/
def printExpression [Inhabited α] (indent : String) (p : Part α) (power : Nat) : Printed (Tree α) := do
  match ← (← p.kind).asKey with
  | .str kind =>
    if Node.literalKinds.contains kind && kind != "TemplateLiteral" then literal p.tree
    else
      let (text, own) ← bare indent kind p
      return if own < power then .str ("(" ++ text.text ++ ")") else text
  | _ => .error (.unsupportedExpression (← p.kind).text)

end DebugGuards.Printing
