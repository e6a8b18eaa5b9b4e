import DebugGuards.Expansion.State

/-! Guarded expressions, built in two phases. While the module is scanned each call
site is registered with the operands of its guarded expression; once the name of the
guard is known all sites are put under it, in the order of registration. The operands are
placed in the expression as they are and not copied, so what changes inside an
operand shows in the expression as well. -/

namespace DebugGuards.Expansion

/-- The chain `guard && operand && ... && operand`, associated to the left. -/
def guardChain {α : Type} [Inhabited α] (guard : Tree α) (operands : List (Tree α)) : Tree α :=
  operands.foldl Node.logicalAnd (Node.identifier guard)

def register (site : PathId) (operands : List Ref) : Work Unit := do
  if (← get).finalized then throw .lateRegistration
  modify fun s => { s with pending := s.pending ++ [⟨site, operands⟩] }

def guardSite (guard : Json) (p : Pending) : Work Unit :=
  Work.act fun w =>
    let operands := p.operands.map fun r => (w.deref r).draft
    w.setField p.site "expression" (Node.parenthesized (guardChain guard.copy operands))

/-- Puts every registered call site under the guard and counts them. This happens once. -/
def finalize (guard : Json) : Work Nat := do
  if (← get).finalized then throw .finalizedTwice
  modify fun s => { s with finalized := true }
  let pending := (← get).pending
  pending.forM (guardSite guard)
  let count := pending.length
  Work.record .debug (s!"Finalized {count} expansion(s) with guard " ++ guard.text)
  return count

end DebugGuards.Expansion
