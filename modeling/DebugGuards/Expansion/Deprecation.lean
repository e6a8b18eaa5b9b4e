import DebugGuards.Tree.Access

/-! The metadata of a deprecation and the message made from it. -/

namespace DebugGuards.Expansion

/-- `till` is the range of versions in which the deprecated code must be gone. -/
structure Deprecation where
  id : String
  till : String
  url : Option String
deriving DecidableEq

namespace Deprecation

/-- Reads the metadata from static properties; an absent property is null. Further
properties are ignored. -/
def ofProperties {α : Type} (get : String → Tree α) : Except Failure Deprecation :=
  if !(get "id").truth then .error (.incompleteMeta "id")
  else if !(get "until").truth then .error (.incompleteMeta "until")
  else .ok ⟨(get "id").text, (get "until").text, if (get "url").truth then some (get "url").text else none⟩

/-- The text a deprecation helper is called with. -/
def describe (d : Deprecation) (message : String) : String :=
  let text := "DEPRECATED [" ++ d.id ++ "]: " ++ message ++ ". Will be removed in " ++ d.till ++ "."
  match d.url with
  | some url => text ++ " See " ++ url ++ " for more information."
  | none => text

end Deprecation

end DebugGuards.Expansion
