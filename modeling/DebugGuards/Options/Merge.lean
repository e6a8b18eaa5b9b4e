import DebugGuards.Json.Writer
import DebugGuards.Options.Basic

/-! Merging options documents. The second document goes over the first: where both hold
an object the two are merged, and anything else is replaced. The keys of the first
keep their places and new keys follow in their own order. -/

namespace DebugGuards.Options

/-- What a document gives as a table: its fields, or the pairs of a list. -/
def tableOf : Json → Except Failure (Table String Json)
  | .obj _ fields => .ok fields
  | .str "" => .ok []
  | .arr _ items => items.foldlM (fun t item => do
      match ← item.elements with
      | [.scalar k, v] => return Table.set t (Json.fieldName k) v
      | _ => .error .badShape) []
  | _ => .error .badShape

mutual
/-- The fields of the first argument with those of the second merged over them. -/
def mergeFields (base : Table String Json) : List (String × Json) → Table String Json
  | [] => base
  | (k, v) :: rest => mergeFields (Table.set base k (mergeValue (Table.get? base k) v)) rest
/-- What a key holds after merging. -/
def mergeValue (held : Option Json) : Json → Json
  | .obj m extra =>
    match held with
    | some (.obj _ base) => .obj () (mergeFields base extra)
    | _ => .obj m extra
  | v => v
end

/-- The second document merged over the first. -/
def merge (base extra : Json) : Except Failure Json := do
  let fields ← tableOf base
  match extra with
  | .obj _ entries => return .obj () (mergeFields fields entries)
  | _ => .error .badShape

end DebugGuards.Options
