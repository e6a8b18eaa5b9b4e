import DebugGuards.Node.Build
import DebugGuards.Options.Basic

/-! What a diagnostic compiles to: a method of the console, a bare helper, or a helper
on a namespace object. -/

namespace DebugGuards.Expansion

/-- The console method that stands for a helper. -/
def consoleMethod? : String → Option String
  | "assert" => some "assert"
  | "warn" | "deprecate" => some "warn"
  | _ => none

/-- What a helper is called as. -/
def callee {α : Type} [Inhabited α] (target : Target) (helper : String) : Except Failure (Tree α) :=
  match target with
  | .global name => .ok (Node.member (Node.identifier (.str name)) (Node.identifier (.str helper)))
  | .external => .ok (Node.identifier (.str helper))
  | .console =>
    match consoleMethod? helper with
    | some method => .ok (Node.member (Node.identifier (.str "console")) (Node.identifier (.str method)))
    | none => .error (.missingKey helper)

def helperCall {α : Type} [Inhabited α] (o : Options) (helper : String) (arguments : List (Tree α)) :
    Except Failure (Tree α) := do
  return Node.call (← callee o.target helper) arguments

end DebugGuards.Expansion
