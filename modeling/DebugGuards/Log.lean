/-! Log records and their levels. A record passes a threshold if its level is at least
as severe. A message of a level above debugging starts with the sign of its level. -/

namespace DebugGuards

inductive Level where
  | debug | info | success | warning | error
deriving DecidableEq, Inhabited

namespace Level

def severity : Level → Nat
  | debug => 10
  | info => 20
  | success => 25
  | warning => 30
  | error => 40

def name : Level → String
  | debug => "DEBUG"
  | info => "INFO"
  | success => "SUCCESS"
  | warning => "WARNING"
  | error => "ERROR"

def passes (threshold level : Level) : Bool := threshold.severity ≤ level.severity

end Level

structure Record where
  level : Level
  text : String
deriving DecidableEq, Inhabited

namespace Record

def info (message : String) : Record := ⟨.info, "ℹ️  " ++ message⟩

def success (message : String) : Record := ⟨.success, "✅ " ++ message⟩

def warning (message : String) : Record := ⟨.warning, "⚠️  " ++ message⟩

def error (message : String) : Record := ⟨.error, "❌ " ++ message⟩

end Record

end DebugGuards
