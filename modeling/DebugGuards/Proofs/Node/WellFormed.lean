import DebugGuards.Proofs.Node.Map
import DebugGuards.Proofs.Table
import DebugGuards.Workspace.Path

/-! Well-formed modules. Objects have distinct field names, and each node met on a walk
has the parts that its type calls for, as far as they are ever read: names of
identifiers, arguments of calls, specifiers and sources of imports, the positions of
binding patterns. All of it can be computed, and none of it depends on marks. -/

namespace DebugGuards

namespace Tree

variable {α β : Type}

mutual
/-- No object has a field twice. -/
def keyed : Tree α → Bool
  | scalar _ => true
  | arr _ items => keyedItems items
  | obj _ fields => decide (fields.map Prod.fst).Nodup && keyedFields fields
def keyedItems : List (Tree α) → Bool
  | [] => true
  | t :: ts => keyed t && keyedItems ts
def keyedFields : List (String × Tree α) → Bool
  | [] => true
  | (_, t) :: ts => keyed t && keyedFields ts
end

theorem keyed_arr (m : α) (items : List (Tree α)) :
    (arr m items).keyed = true ↔ ∀ x ∈ items, x.keyed = true := by
  rw [keyed]
  induction items with
  | nil => simp [keyedItems]
  | cons x rest ih => simp [keyedItems, ih]

theorem keyed_obj (m : α) (fields : Fields α) :
    (obj m fields).keyed = true ↔ (fields.map Prod.fst).Nodup ∧ ∀ e ∈ fields, e.2.keyed = true := by
  rw [keyed, Bool.and_eq_true, decide_eq_true_eq]
  refine and_congr Iff.rfl ?_
  induction fields with
  | nil => simp [keyedFields]
  | cons e rest ih => simp [keyedFields, ih]

theorem keyed_set {m : α} {fields : Fields α} (hf : (obj m fields).keyed = true) (key : String)
    {v : Tree α} (hv : v.keyed = true) : (obj m (Table.set fields key v)).keyed = true := by
  rw [keyed_obj] at hf ⊢
  refine ⟨Table.nodup_set hf.1 key v, fun e he => ?_⟩
  rcases Table.mem_set he with he | rfl
  · exact hf.2 e he
  · exact hv

theorem keyed_map (f : α → β) (t : Tree α) : (t.map f).keyed = t.keyed := by
  rw [Bool.eq_iff_iff]
  induction t using induct with
  | scalar s => rw [map_scalar]; exact Iff.rfl
  | arr m items ih =>
    rw [map_arr, keyed_arr, keyed_arr, List.forall_mem_map]
    exact forall₂_congr ih
  | obj m fields ih =>
    rw [map_obj, keyed_obj, keyed_obj, Table.mapValues, List.map_map, List.forall_mem_map]
    exact and_congr Iff.rfl (forall₂_congr ih)

end Tree

namespace Node

variable {α β : Type}

theorem hasKind_iff {t : Tree α} {name : String} : hasKind t name = true ↔ kind? t = some name := by
  rw [hasKind, kind?]
  cases kind t with
  | scalar s => cases s <;> simp
  | arr | obj => simp

theorem kind?_obj {m : α} {fields : Fields α} {name : String} :
    kind? (.obj m fields) = some name ↔ Table.get? fields "type" = some (.str name) := by
  rw [kind?, kind]
  cases Table.get? fields "type" with
  | none => simp
  | some t =>
    cases t with
    | scalar s => cases s <;> simp
    | arr | obj => simp

/-- Fields that hold positions and comments are not walked. -/
def isMetadata (key : String) : Bool := Visit.metadataKeys.contains key

mutual
/-- A node and the nodes below it, in the order of a walk. -/
def nodes : Tree α → List (Tree α)
  | .obj m fields => if isNode (.obj m fields) then .obj m fields :: nodesFields fields else []
  | _ => []
def nodesFields : List (String × Tree α) → List (Tree α)
  | [] => []
  | (key, t) :: rest =>
    (if isMetadata key then []
      else match t with
        | .arr _ items => nodesItems items
        | t => nodes t) ++ nodesFields rest
def nodesItems : List (Tree α) → List (Tree α)
  | [] => []
  | t :: rest => nodes t ++ nodesItems rest
end

def isText : Tree α → Bool
  | .str _ => true
  | _ => false

def field? (t : Tree α) (key : String) : Option (Tree α) := Table.get? t.fields key

/-- What a field holds satisfies a test, if the field is there. -/
def holdsIf (t : Tree α) (key : String) (p : Tree α → Bool) : Bool :=
  match field? t key with
  | some v => p v
  | none => true

/-- What a field holds satisfies a test. -/
def holds (t : Tree α) (key : String) (p : Tree α → Bool) : Bool :=
  match field? t key with
  | some v => p v
  | none => false

def isListOf (p : Tree α → Bool) : Tree α → Bool
  | .arr _ items => items.all p
  | _ => false

/-- A node or nothing. -/
def isSlot (t : Tree α) : Bool := isNode t || match t with
  | .null => true
  | _ => false

def isStatement (t : Tree α) : Bool := hasKind t "ExpressionStatement"

/-- What an argument may be. -/
def isArgument (t : Tree α) : Bool := isNode t && !isStatement t

def isSpecifier (t : Tree α) : Bool :=
  match kind? t with
  | some "ImportSpecifier" =>
    holds t "local" isIdentifier && holds t "imported" fun i => isIdentifier i || isStringLiteral i
  | some "ImportDefaultSpecifier" | some "ImportNamespaceSpecifier" => holds t "local" isIdentifier
  | _ => false

def isPatternProperty (t : Tree α) : Bool :=
  match kind? t with
  | some "Property" | some "ObjectProperty" | some "RestElement" => true
  | _ => false

/-- The start of a location is an object. -/
def hasLocation (t : Tree α) : Bool :=
  holdsIf t "loc" fun loc => holdsIf loc "start" Tree.isObject

/-- A node has the parts that its type calls for. -/
def sound (t : Tree α) : Bool :=
  match kind? t with
  | some "Identifier" => holds t "name" isText && (nodesFields t.fields).isEmpty
  | some "StringLiteral" => holds t "value" isText
  | some "CallExpression" => holdsIf t "arguments" (isListOf isArgument) && hasLocation t
  | some "ObjectExpression" => holdsIf t "properties" (isListOf isNode)
  | some "Property" | some "ObjectProperty" => holds t "key" isNode && holds t "value" isNode
  | some "ImportDeclaration" =>
    holds t "source" isStringLiteral && holdsIf t "specifiers" (isListOf isSpecifier) &&
      (nodesFields t.fields).all fun n => !isStatement n
  | some "VariableDeclaration" =>
    holdsIf t "declarations" (isListOf fun d => hasKind d "VariableDeclarator") &&
      holdsIf t "kind" fun k => match k with
        | .str k => k != "module"
        | _ => true
  | some "VariableDeclarator" => holdsIf t "id" isSlot
  | some "ObjectPattern" => holdsIf t "properties" (isListOf isPatternProperty)
  | some "ArrayPattern" => holdsIf t "elements" (isListOf isSlot)
  | some "RestElement" => holdsIf t "argument" isSlot
  | some "AssignmentPattern" => holdsIf t "left" isSlot
  | _ => true

/-- The program of a document: the document itself, or what a file wraps. -/
def programOf (t : Tree α) : Tree α := if hasKind t "File" then (field? t "program").getD .null else t

/-- The statements of a module. -/
def bodyOf (t : Tree α) : List (Tree α) :=
  match field? (programOf t) "body" with
  | some (.arr _ items) => items
  | _ => []

/-- A well-formed module, bare or in a file. -/
def wellFormed (t : Tree α) : Bool :=
  t.keyed && hasKind (programOf t) "Program" && holds (programOf t) "body" (isListOf isNode) &&
    (nodesFields (programOf t).fields).all sound

end Node

end DebugGuards
