/-! Cutting texts at a separator. The pieces are what stands between the separators,
which are found from the left and do not overlap; a text without one is its only
piece. -/

namespace DebugGuards.Text

/-- Puts a character in front of the first piece. -/
def extend (c : Char) : List (List Char) → List (List Char)
  | [] => [[c]]
  | p :: ps => (c :: p) :: ps

/-- The pieces of a text whose first `skip` characters belong to a separator. -/
def splitAfter (sep : List Char) : (skip : Nat) → List Char → List (List Char)
  | _, [] => [[]]
  | skip + 1, _ :: cs => splitAfter sep skip cs
  | 0, c :: cs =>
    if sep.isPrefixOf (c :: cs) then [] :: splitAfter sep (sep.length - 1) cs
    else extend c (splitAfter sep 0 cs)

def split (sep cs : List Char) : List (List Char) := splitAfter sep 0 cs

def holds (piece cs : List Char) : Bool := piece.isEmpty || 1 < (split piece cs).length

theorem extend_ne_nil (c : Char) (ps : List (List Char)) : extend c ps ≠ [] := by
  cases ps <;> simp [extend]

theorem splitAfter_ne_nil (sep : List Char) (skip : Nat) (cs : List Char) :
    splitAfter sep skip cs ≠ [] := by
  induction cs generalizing skip with
  | nil => simp [splitAfter]
  | cons c cs ih =>
    cases skip with
    | succ n => exact ih n
    | zero =>
      simp only [splitAfter]
      split
      · simp
      · exact extend_ne_nil c _

theorem split_ne_nil (sep cs : List Char) : split sep cs ≠ [] := splitAfter_ne_nil sep 0 cs

end DebugGuards.Text
