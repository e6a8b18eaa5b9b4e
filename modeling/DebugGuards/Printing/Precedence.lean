import DebugGuards.Tree.Access

/-! Binding powers of the binary and logical operators. An operand that binds looser
than its place asks for is put in parentheses. `??` may not stand beside `||` or `&&`
without parentheses, so such an operand is treated as if its place asked for an atom. -/

namespace DebugGuards.Printing

/-- The binding power of an operator, higher binding tighter. -/
def power? : String → Option Nat
  | "??" => some 1
  | "||" => some 2
  | "&&" => some 3
  | "|" => some 4
  | "^" => some 5
  | "&" => some 6
  | "==" | "!=" | "===" | "!==" => some 7
  | "<" | ">" | "<=" | ">=" | "in" | "instanceof" => some 8
  | "<<" | ">>" | ">>>" => some 9
  | "+" | "-" => some 10
  | "*" | "/" | "%" => some 11
  | "**" => some 12
  | _ => none

def atomic : Nat := 20

def unary : Nat := 14

/-- The power of calls, member accesses and what may stand before them. -/
def postfixed : Nat := 15

/-- The least powers the left and the right operand of an operator may have. `**` is
right associative and takes no unary operand on the left; all others are left
associative. -/
def operandPowers (operator : String) (power : Nat) : Nat × Nat :=
  if operator = "**" then (postfixed, power) else (power, power + 1)

/-- One of the two operators is `??` and the other `||` or `&&`. -/
def mixesNullish (a b : String) : Bool :=
  (a == "??" && (b == "||" || b == "&&")) || (b == "??" && (a == "||" || a == "&&"))

end DebugGuards.Printing
