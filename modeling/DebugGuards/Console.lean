import DebugGuards.Log

/-! The console: how wide it is, which records it lets through, what shows them, and those
it has let through so far. Giving the console another width, or its usual one, also puts
the threshold back to information. What shows a record reads its text as markup; whether
it can be read so is for those who put it to see to. -/

namespace DebugGuards

structure Console where
  threshold : Level := .info
  width : Nat := 80
  /-- The widths of what shows the records. -/
  handlers : List Nat := [80]
  log : List Record := []
deriving DecidableEq, Inhabited

namespace Console

/-- Adds a record if it passes the threshold. -/
def put (c : Console) (r : Record) : Console :=
  if c.threshold.passes r.level then { c with log := c.log ++ [r] } else c

def putAll (c : Console) (rs : List Record) : Console := rs.foldl put c

section Messages

def debug (c : Console) (message : String) : Console := c.put ⟨.debug, message⟩

def info (c : Console) (message : String) : Console := c.put (.info message)

def success (c : Console) (message : String) : Console := c.put (.success message)

def warning (c : Console) (message : String) : Console := c.put (.warning message)

def error (c : Console) (message : String) : Console := c.put (.error message)

end Messages

section Settings

/-- Debugging records pass only if asked for. -/
def thresholdOf (verbose : Bool) : Level := if verbose then .debug else .info

def setVerbosity (c : Console) (verbose : Bool) : Console := { c with threshold := thresholdOf verbose }

/-- Gives the console a width. What showed records before no longer does. -/
def setWidth (c : Console) (width : Nat) : Console :=
  { c with threshold := .info, width, handlers := [width] }

def reset (c : Console) : Console := c.setWidth 80

def sinks (c : Console) : Nat := c.handlers.length

end Settings

theorem putAll_log (c : Console) (rs : List Record) :
    (c.putAll rs).log = c.log ++ rs.filter fun r => c.threshold.passes r.level := by
  induction rs generalizing c with
  | nil => simp [putAll]
  | cons r rest ih =>
    have h := ih (c.put r)
    simp only [putAll, List.foldl_cons] at h ⊢
    rw [h]
    by_cases hr : c.threshold.passes r.level = true <;> simp [put, hr]

end Console

end DebugGuards
