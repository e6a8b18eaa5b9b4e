import DebugGuards.Proofs.Workspace.Walk
import DebugGuards.Workspace.Scope

/-! The names of a module: those that patterns bind and statements declare, and what
an import names and from where. Each is a plain function of the document, and on
well-formed documents the readers, which can fail elsewhere, give just that. -/

namespace DebugGuards

open List

namespace Node

section Reading
variable {α : Type}

/-- The text in a field, empty if there is none. -/
def textAt (t : Tree α) (key : String) : String :=
  match field? t key with
  | some (.str s) => s
  | _ => ""

/-- The items of the list in a field. -/
def listAt (t : Tree α) (key : String) : List (Tree α) :=
  match field? t key with
  | some (.arr _ items) => items
  | _ => []

mutual
/-- The names a pattern binds. -/
def bound : Tree α → List String
  | .obj m fields =>
    match kind? (.obj m fields) with
    | some "Identifier" => [textAt (.obj m fields) "name"]
    | some "ObjectPattern" => boundPropertiesAt "properties" fields
    | some "ArrayPattern" => boundItemsAt "elements" fields
    | some "RestElement" => boundAt "argument" fields
    | some "AssignmentPattern" => boundAt "left" fields
    | _ => []
  | _ => []
def boundAt (key : String) : List (String × Tree α) → List String
  | [] => []
  | (k, t) :: rest => if k = key then bound t else boundAt key rest
def boundItemsAt (key : String) : List (String × Tree α) → List String
  | [] => []
  | (k, t) :: rest =>
    if k = key then
      match t with
      | .arr _ items => boundItems items
      | _ => []
    else boundItemsAt key rest
def boundItems : List (Tree α) → List String
  | [] => []
  | t :: rest => bound t ++ boundItems rest
def boundPropertiesAt (key : String) : List (String × Tree α) → List String
  | [] => []
  | (k, t) :: rest =>
    if k = key then
      match t with
      | .arr _ items => boundProperties items
      | _ => []
    else boundPropertiesAt key rest
def boundProperties : List (Tree α) → List String
  | [] => []
  | .obj m fields :: rest =>
    (if hasKind (.obj m fields) "RestElement" then boundAt "argument" fields else boundAt "value" fields) ++
      boundProperties rest
  | _ :: rest => boundProperties rest
end

/-- The names of the pattern that a field holds. -/
def boundIn (t : Tree α) (key : String) : List String := ((field? t key).map bound).getD []

/-- The names a property of a pattern binds. -/
def boundProperty (p : Tree α) : List String := boundIn p (if hasKind p "RestElement" then "argument" else "value")

theorem boundAt_eq (m : α) (fields : Fields α) (key : String) :
    boundAt key fields = boundIn (.obj m fields) key := by
  rw [boundIn, field?, Tree.fields]
  induction fields with
  | nil => rfl
  | cons e rest ih => rw [boundAt, Table.get?, ih]; split <;> rfl

theorem boundItems_eq (items : List (Tree α)) : boundItems items = items.flatMap bound := by
  induction items with
  | nil => rfl
  | cons x rest ih => rw [boundItems, ih, flatMap_cons]

theorem boundProperties_eq (items : List (Tree α)) : boundProperties items = items.flatMap boundProperty := by
  induction items with
  | nil => rfl
  | cons x rest ih =>
    rw [flatMap_cons, ← ih]
    cases x with
    | scalar | arr => simp [boundProperties, boundProperty, boundIn, field?, Tree.fields, Table.get?]
    | obj m fields =>
      rw [boundProperties, boundProperty, boundAt_eq m, boundAt_eq m]
      split <;> rfl

theorem boundItemsAt_eq (m : α) (fields : Fields α) (key : String) :
    boundItemsAt key fields = (listAt (.obj m fields) key).flatMap bound := by
  rw [listAt, field?, Tree.fields]
  induction fields with
  | nil => rfl
  | cons e rest ih =>
    obtain ⟨k, t⟩ := e
    rw [boundItemsAt.eq_def, Table.get?]
    simp only
    split
    · cases t with
      | arr n items => exact boundItems_eq items
      | scalar | obj => rfl
    · exact ih

theorem boundPropertiesAt_eq (m : α) (fields : Fields α) (key : String) :
    boundPropertiesAt key fields = (listAt (.obj m fields) key).flatMap boundProperty := by
  rw [listAt, field?, Tree.fields]
  induction fields with
  | nil => rfl
  | cons e rest ih =>
    obtain ⟨k, t⟩ := e
    rw [boundPropertiesAt.eq_def, Table.get?]
    simp only
    split
    · cases t with
      | arr n items => exact boundProperties_eq items
      | scalar | obj => rfl
    · exact ih

/-- What a pattern binds, by its type. -/
theorem bound_eq (t : Tree α) :
    bound t = match kind? t with
      | some "Identifier" => [textAt t "name"]
      | some "ObjectPattern" => (listAt t "properties").flatMap boundProperty
      | some "ArrayPattern" => (listAt t "elements").flatMap bound
      | some "RestElement" => boundIn t "argument"
      | some "AssignmentPattern" => boundIn t "left"
      | _ => [] := by
  cases t with
  | scalar | arr => rfl
  | obj m fields => rw [bound, boundPropertiesAt_eq m, boundItemsAt_eq m, boundAt_eq m, boundAt_eq m]

/-- The name a specifier binds. -/
def localOf (s : Tree α) : String := ((field? s "local").map (textAt · "name")).getD ""

/-- The name a specifier imports: that of an identifier, or a text. -/
def importedOf (s : Tree α) : String :=
  ((field? s "imported").map fun i => textAt i (if isIdentifier i then "name" else "value")).getD ""

/-- The name of a function or class, if it has one. -/
def ownName (t : Tree α) : List String :=
  ((field? t "id").map fun id => if isIdentifier id then [textAt id "name"] else []).getD []

/-- The names a statement declares at module level. -/
def names (t : Tree α) : List String :=
  match kind? t with
  | some "ImportDeclaration" => ((listAt t "specifiers").map localOf).filter (· ≠ "")
  | some "VariableDeclaration" => (listAt t "declarations").flatMap fun d => boundIn d "id"
  | some "FunctionDeclaration" | some "ClassDeclaration" => ownName t
  | _ => []

def isImport (t : Tree α) : Bool := hasKind t "ImportDeclaration"

/-- The module an import names. -/
def sourceOf (t : Tree α) : String := ((field? t "source").map (textAt · "value")).getD ""

/-- The named specifiers of an import, each with the name it is bound to. -/
def named (t : Tree α) : List (String × String) :=
  ((listAt t "specifiers").filter fun s =>
    hasKind s "ImportSpecifier" && importedOf s != "" && localOf s != "").map fun s => (importedOf s, localOf s)

/-- What kind of binding a declaration makes. -/
def keyword (t : Tree α) : Tree α :=
  match kind? t with
  | some "ImportDeclaration" => .str "module"
  | some "VariableDeclaration" => (field? t "kind").getD (.str "var")
  | _ => .str "hoisted"

end Reading

section Legal
variable {α : Type} {t x : Tree α} {key : String}

/-- All nodes of what a slot holds are sound. -/
def Legal (t : Tree α) : Prop := ∀ n ∈ inside t, sound n = true

theorem kind_of_kind? {k : String} (hk : kind? t = some k) : kind t = .str k := by
  rw [kind?] at hk
  split at hk
  · next h => cases hk; exact h
  · cases hk

theorem exists_of_isNode (hn : isNode t = true) : ∃ m fields k, t = .obj m fields ∧ kind? t = some k := by
  cases t with
  | scalar | arr => cases hn
  | obj m fields =>
    obtain ⟨k, hk⟩ := Option.isSome_iff_exists.mp hn
    exact ⟨m, fields, k, rfl, hk⟩

theorem isNode_of_hasKind {name : String} (h : hasKind t name = true) : isNode t = true := by
  rw [isNode, hasKind_iff.mp h]; rfl

namespace Legal

theorem sound (ht : Legal t) (hn : isNode t = true) : Node.sound t = true := ht t (mem_inside_self hn)

theorem field (ht : Legal t) (hn : isNode t = true) (hx : field? t key = some x) (hk : isMetadata key = false) :
    Legal x := by
  obtain ⟨m, fields, k, rfl, _⟩ := exists_of_isNode hn
  exact fun n hmem => ht n (inside_field hn hx hk hmem)

theorem item {m : α} {items : List (Tree α)} (ht : Legal (.arr m items)) (hx : x ∈ items) (hn : isNode x = true) :
    Legal x := by
  intro n hmem
  refine ht n ?_
  rw [inside, nodesItems_eq, mem_flatMap]
  refine ⟨x, hx, ?_⟩
  obtain ⟨m, fields, k, rfl, _⟩ := exists_of_isNode hn
  exact hmem

theorem listAt (ht : Legal t) (hn : isNode t = true) (hk : isMetadata key = false) (hx : x ∈ listAt t key)
    (hxn : isNode x = true) : Legal x := by
  rw [Node.listAt] at hx
  split at hx
  · next m items hf => exact (ht.field hn hf hk).item hx hxn
  · cases hx

end Legal

/-- The items of a list field that is well-formed. -/
theorem elementsOf_list {p : Tree α → Bool} (hn : isNode t = true) (h : holdsIf t key (isListOf p) = true) :
    t.elementsOf key = .ok (listAt t key) ∧ ∀ x ∈ listAt t key, p x = true := by
  obtain ⟨m, fields, k, rfl, _⟩ := exists_of_isNode hn
  simp only [holdsIf, field?, Tree.fields, listAt, Tree.elementsOf, Tree.get?, bind, Except.bind] at h ⊢
  cases hg : Table.get? fields key with
  | none => exact ⟨rfl, by simp⟩
  | some v =>
    rw [hg] at h
    cases v with
    | scalar | obj => cases h
    | arr n items => exact ⟨rfl, by simpa [isListOf] using h⟩

theorem text_of_holds (h : holds t key isText = true) : field? t key = some (.str (textAt t key)) := by
  rw [holds] at h
  rw [textAt]
  split at h
  · next v hv =>
    rw [hv]
    cases v with
    | scalar s => cases s <;> first | rfl | cases h
    | arr | obj => cases h
  · cases h

theorem require_text (h : holds t key isText = true) : t.require key = .ok (.str (textAt t key)) := by
  have hf := text_of_holds h
  cases t with
  | scalar | arr => cases hf
  | obj m fields =>
    rw [field?, Tree.fields] at hf
    simp only [Tree.require, hf]

theorem identifier_name (ht : Legal t) (hid : isIdentifier t = true) : holds t "name" isText = true := by
  have hs := ht.sound (isNode_of_hasKind hid)
  rw [Node.sound, hasKind_iff.mp hid] at hs
  exact (Bool.and_eq_true_iff.mp hs).1

theorem identifierName_eq (ht : Legal t) (hid : isIdentifier t = true) :
    identifierName t = .ok (.str (textAt t "name")) := by
  rw [identifierName, hid, if_pos rfl, require_text (identifier_name ht hid)]

theorem stringLiteral_value (ht : Legal t) (hs : isStringLiteral t = true) : holds t "value" isText = true := by
  rw [isStringLiteral, Bool.or_eq_true, Bool.and_eq_true] at hs
  rcases hs with hs | ⟨_, hs⟩
  · have := ht.sound (isNode_of_hasKind hs)
    rwa [Node.sound, hasKind_iff.mp hs] at this
  · rw [holds, field?]
    split at hs
    · next s hv => rw [hv]; rfl
    · cases hs

end Legal

section Imports
variable {α : Type} {t s : Tree α}

theorem import_parts (ht : Legal t) (hi : isImport t = true) :
    holds t "source" isStringLiteral = true ∧ holdsIf t "specifiers" (isListOf isSpecifier) = true := by
  have hs := ht.sound (isNode_of_hasKind hi)
  rw [Node.sound, hasKind_iff.mp hi] at hs
  simp only [Bool.and_eq_true] at hs
  exact hs.1

theorem importSource_eq (ht : Legal t) (hi : isImport t = true) : importSource t = .ok (.str (sourceOf t)) := by
  have hn : isNode t = true := isNode_of_hasKind hi
  have hs := (import_parts ht hi).1
  rw [holds] at hs
  split at hs
  · next source hf =>
    have hlegal := ht.field hn hf (by decide)
    have hv := stringLiteral_value hlegal hs
    have hkind : kind? source = some "StringLiteral" ∨ kind? source = some "Literal" := by
      rw [isStringLiteral, Bool.or_eq_true, Bool.and_eq_true] at hs
      exact hs.imp hasKind_iff.mp fun h => hasKind_iff.mp h.1
    have hlit : isLiteral source = .ok true := by
      rw [isLiteral, kindIn]
      rcases hkind with hk | hk <;> rw [kind_of_kind? hk] <;> rfl
    have htext := text_of_holds hv
    obtain ⟨m, fields, k, rfl, _⟩ := exists_of_isNode hn
    cases source with
    | scalar | arr => rcases hkind with hk | hk <;> cases hk
    | obj n fs =>
      have hne : fs ≠ [] := by
        rintro rfl
        cases htext
      rw [field?, Tree.fields] at hf htext
      have htruth : (Tree.obj n fs).truth = true := by simpa [Tree.truth] using hne
      have hget : (Tree.obj n fs).get "value" = .ok (.str (textAt (.obj n fs) "value")) := by
        simp only [Tree.get, htext, Option.getD_some]
      simp only [importSource, Tree.get, hf, Option.getD_some, bind, Except.bind, htruth, if_true, literalValue, hlit,
        sourceOf, field?, Tree.fields, Option.map_some]
      exact hget
  · cases hs

theorem isNode_of_isSpecifier (hs : isSpecifier s = true) : isNode s = true := by
  rw [isSpecifier] at hs
  rw [isNode]
  split at hs
  · next h => rw [h]; rfl
  · next h => rw [h]; rfl
  · next h => rw [h]; rfl
  · cases hs

theorem specifier_local (hs : isSpecifier s = true) : holds s "local" isIdentifier = true := by
  rw [isSpecifier] at hs
  split at hs
  · exact (Bool.and_eq_true_iff.mp hs).1
  · exact hs
  · exact hs
  · cases hs

theorem localName_eq (hl : Legal s) (hs : isSpecifier s = true) : localName s = .ok (.str (localOf s)) := by
  have hn := isNode_of_isSpecifier hs
  have hloc := specifier_local hs
  rw [holds] at hloc
  split at hloc
  · next i hf =>
    have hi := identifierName_eq (hl.field hn hf (by decide)) hloc
    obtain ⟨m, fields, k, rfl, _⟩ := exists_of_isNode hn
    rw [field?, Tree.fields] at hf
    simp only [localName, Tree.get, hf, Option.getD_some, bind, Except.bind, hi, localOf, field?, Tree.fields,
      Option.map_some]
  · cases hloc

theorem importedName_eq (hl : Legal s) (hs : isSpecifier s = true) :
    importedName s = .ok (if hasKind s "ImportSpecifier" then .str (importedOf s) else .null) := by
  cases hk : hasKind s "ImportSpecifier" with
  | false => simp [importedName, hk, pure, Except.pure]
  | true =>
    have hn := isNode_of_isSpecifier hs
    rw [isSpecifier, hasKind_iff.mp hk] at hs
    simp only [Bool.and_eq_true, holds] at hs
    replace hs := hs.2
    split at hs
    · next i hf =>
      have hlegal := hl.field hn hf (by decide)
      obtain ⟨m, fields, k, rfl, _⟩ := exists_of_isNode hn
      rw [field?, Tree.fields] at hf
      simp only [importedName, hk, Bool.not_true, Bool.false_eq_true, if_false, Tree.get, hf, Option.getD_some, bind,
        Except.bind, if_true, importedOf, field?, Tree.fields, Option.map_some]
      cases hid : isIdentifier i with
      | true => simpa using require_text (identifier_name hlegal hid)
      | false =>
        rw [hid, Bool.false_or] at hs
        simpa [hs] using require_text (stringLiteral_value hlegal hs)
    · cases hs

theorem mapM_eq_map {β γ : Type} {f : β → Except Failure γ} {g : β → γ} {l : List β} (h : ∀ x ∈ l, f x = .ok (g x)) :
    l.mapM f = .ok (l.map g) := by
  induction l with
  | nil => rfl
  | cons x l ih =>
    rw [forall_mem_cons] at h
    rw [mapM_cons, h.1, ih h.2]
    rfl

theorem specifiers_eq (ht : Legal t) (hi : isImport t = true) :
    specifiers t = .ok ((named t).map fun s => ⟨.str s.1, .str s.2⟩) := by
  have hn : isNode t = true := isNode_of_hasKind hi
  obtain ⟨hel, hsp⟩ := elementsOf_list hn (import_parts ht hi).2
  have hpairs : (listAt t "specifiers").mapM (fun s => do
      return (⟨← importedName s, ← localName s⟩ : Specifier α)) =
      .ok ((listAt t "specifiers").map fun s =>
        ⟨if hasKind s "ImportSpecifier" then .str (importedOf s) else .null, .str (localOf s)⟩) := by
    refine mapM_eq_map fun s hs => ?_
    have hlegal := ht.listAt hn (by decide) hs (isNode_of_isSpecifier (hsp s hs))
    rw [importedName_eq hlegal (hsp s hs), localName_eq hlegal (hsp s hs)]
    rfl
  simp only [specifiers, hel, bind, Except.bind] at hpairs ⊢
  rw [hpairs]
  simp only [pure, Except.pure, Except.ok.injEq, named, filter_map, List.map_map]
  have htest : ((fun p : Specifier α => p.imported.truth && p.bound.truth) ∘ fun s =>
      ⟨if hasKind s "ImportSpecifier" then .str (importedOf s) else .null, .str (localOf s)⟩) =
      fun s : Tree α => hasKind s "ImportSpecifier" && importedOf s != "" && localOf s != "" := by
    funext s
    simp only [Function.comp_apply]
    cases hk : hasKind s "ImportSpecifier" <;> rfl
  rw [htest]
  refine map_congr_left fun s hs => ?_
  have hk := (mem_filter.mp hs).2
  simp only [Bool.and_eq_true] at hk
  simp [hk.1.1]

end Imports

section Patterns

theorem patternAt_eq (m : Mark) (fields : Fields Mark) (key : String) :
    patternAt key fields = match field? (.obj m fields) key with
      | some t => patternNames t
      | none => .ok [] := by
  rw [field?, Tree.fields]
  induction fields with
  | nil => rfl
  | cons e rest ih => rw [patternAt, Table.get?, ih]; split <;> rfl

theorem elementsAt_eq (m : Mark) (fields : Fields Mark) (key : String)
    {p : Tree Mark → Bool} (h : holdsIf (.obj m fields) key (isListOf p) = true) :
    elementsAt key fields = itemNames (listAt (.obj m fields) key) := by
  rw [holdsIf, field?, Tree.fields] at h
  rw [listAt, field?, Tree.fields]
  induction fields with
  | nil => rw [elementsAt]; rfl
  | cons e rest ih =>
    obtain ⟨k, t⟩ := e
    rw [Table.get?] at h ⊢
    rw [elementsAt.eq_def]
    simp only
    split
    · next hk =>
      rw [if_pos hk] at h
      cases t with
      | arr n items => rfl
      | scalar | obj => cases h
    · next hk =>
      rw [if_neg hk] at h
      exact ih h

theorem propertiesAt_eq (m : Mark) (fields : Fields Mark) (key : String)
    {p : Tree Mark → Bool} (h : holdsIf (.obj m fields) key (isListOf p) = true) :
    propertiesAt key fields = propertyNames (listAt (.obj m fields) key) := by
  rw [holdsIf, field?, Tree.fields] at h
  rw [listAt, field?, Tree.fields]
  induction fields with
  | nil => rw [propertiesAt]; rfl
  | cons e rest ih =>
    obtain ⟨k, t⟩ := e
    rw [Table.get?] at h ⊢
    rw [propertiesAt.eq_def]
    simp only
    split
    · next hk =>
      rw [if_pos hk] at h
      cases t with
      | arr n items => rfl
      | scalar | obj => cases h
    · next hk =>
      rw [if_neg hk] at h
      exact ih h

/-- A pattern is read as the names it binds. -/
def Reads (t : Tree Mark) : Prop := patternNames t = .ok ((bound t).map .str)

theorem itemNames_eq {items : List (Tree Mark)} (h : ∀ x ∈ items, Reads x) :
    itemNames items = .ok ((items.flatMap bound).map .str) := by
  induction items with
  | nil => rfl
  | cons x rest ih =>
    rw [forall_mem_cons] at h
    rw [itemNames, ih h.2, h.1, flatMap_cons, map_append]
    rfl

theorem patternAt_reads {m : Mark} {fields : Fields Mark} {key : String}
    (h : ∀ x, field? (.obj m fields) key = some x → Reads x) :
    patternAt key fields = .ok ((boundIn (.obj m fields) key).map .str) := by
  rw [patternAt_eq m, boundIn]
  cases hf : field? (.obj m fields) key with
  | none => rfl
  | some x => exact h x hf

theorem propertyNames_eq {items : List (Tree Mark)} (hp : ∀ x ∈ items, isPatternProperty x = true)
    (h : ∀ x ∈ items, ∀ y, field? x (if hasKind x "RestElement" then "argument" else "value") = some y → Reads y) :
    propertyNames items = .ok ((items.flatMap boundProperty).map .str) := by
  induction items with
  | nil => rfl
  | cons x rest ih =>
    rw [forall_mem_cons] at h hp
    rw [flatMap_cons, map_append]
    cases x with
    | scalar | arr => cases hp.1
    | obj m fields =>
      rw [propertyNames, ih hp.2 h.2, boundProperty]
      have hx := h.1
      split
      · next hk =>
        rw [hk, if_pos rfl] at hx
        rw [patternAt_reads hx]
        rfl
      · next hk =>
        rw [if_neg hk] at hx
        rw [patternAt_reads hx]
        rfl

theorem sizeOf_field {α : Type} [SizeOf α] {t x : Tree α} {key : String} (hx : field? t key = some x) :
    sizeOf x < sizeOf t := by
  cases t with
  | scalar | arr => cases hx
  | obj m fields => exact Tree.sizeOf_child (mem_map_of_mem (Table.mem_of_get? hx))

theorem sizeOf_listAt {α : Type} [SizeOf α] {t x : Tree α} {key : String} (hx : x ∈ listAt t key) :
    sizeOf x < sizeOf t := by
  rw [listAt] at hx
  split at hx
  · next m items hf =>
    have h1 : sizeOf x < sizeOf (Tree.arr m items) := Tree.sizeOf_child hx
    have h2 := sizeOf_field hf
    omega
  · cases hx

theorem isNode_of_isPatternProperty {α : Type} {t : Tree α} (h : isPatternProperty t = true) : isNode t = true := by
  rw [isPatternProperty] at h
  rw [isNode]
  split at h
  · next hk => rw [hk]; rfl
  · next hk => rw [hk]; rfl
  · next hk => rw [hk]; rfl
  · cases h

theorem isSlot_of_isNode {α : Type} {t : Tree α} (h : isNode t = true) : isSlot t = true := by
  simp [isSlot, h]

theorem eq_null_of_isSlot {α : Type} {t : Tree α} (h : isSlot t = true) (hn : isNode t = false) : t = .null := by
  unfold isSlot at h
  rw [hn, Bool.false_or] at h
  cases t with
  | scalar s => cases s <;> first | rfl | cases h
  | arr | obj => cases h

/-- Where a property of a pattern has its own pattern. -/
theorem isSlot_of_isPatternProperty {α : Type} {t x : Tree α} (hl : Legal t) (h : isPatternProperty t = true)
    (hx : field? t (if hasKind t "RestElement" then "argument" else "value") = some x) : isSlot x = true ∧ Legal x := by
  have hn := isNode_of_isPatternProperty h
  have hs := hl.sound hn
  cases hr : hasKind t "RestElement" with
  | true =>
    rw [hr, if_pos rfl] at hx
    rw [sound, hasKind_iff.mp hr] at hs
    simp only [holdsIf, hx] at hs
    exact ⟨hs, hl.field hn hx (by decide)⟩
  | false =>
    rw [hr, if_neg (by simp)] at hx
    refine ⟨?_, hl.field hn hx (by decide)⟩
    rw [isPatternProperty] at h
    rw [sound] at hs
    split at h
    · next hk =>
      rw [hk] at hs
      simp only [Bool.and_eq_true, holds, hx] at hs
      exact isSlot_of_isNode hs.2
    · next hk =>
      rw [hk] at hs
      simp only [Bool.and_eq_true, holds, hx] at hs
      exact isSlot_of_isNode hs.2
    · next hk =>
      rw [hasKind_iff.mpr hk] at hr
      cases hr
    · cases h

theorem reads {t : Tree Mark} (hs : isSlot t = true) (hl : Legal t) : Reads t := by
  induction t using Tree.inductSize with
  | step t ih =>
    cases t with
    | scalar s => cases s <;> first | rfl | cases hs
    | arr m items => cases hs
    | obj m fields =>
      have hn : isNode (Tree.obj m fields) = true := by simpa [isSlot] using hs
      have hsound := hl.sound hn
      obtain ⟨k, hk⟩ := Option.isSome_iff_exists.mp hn
      -- a field that holds a pattern
      have hfield : ∀ {key : String}, isMetadata key = false → holdsIf (.obj m fields) key isSlot = true →
          patternAt key fields = .ok ((boundIn (.obj m fields) key).map .str) := by
        intro key hmeta hslot
        refine patternAt_reads fun x hx => ih x (sizeOf_field hx) ?_ (hl.field hn hx hmeta)
        rwa [holdsIf, hx] at hslot
      rw [Reads, bound_eq, patternNames, kind_of_kind? hk, hk]
      rw [sound, hk] at hsound
      split
      · next hid =>
        cases hid
        rw [require_text (Bool.and_eq_true_iff.mp hsound).1]
        rfl
      · next hid =>
        cases hid
        rw [propertiesAt_eq m _ _ hsound]
        have hprops := (elementsOf_list hn hsound).2
        refine propertyNames_eq hprops fun x hx y hy => ?_
        have hlegal := hl.listAt hn (by decide) hx (isNode_of_isPatternProperty (hprops x hx))
        obtain ⟨h1, h2⟩ := isSlot_of_isPatternProperty hlegal (hprops x hx) hy
        exact ih y (Nat.lt_trans (sizeOf_field hy) (sizeOf_listAt hx)) h1 h2
      · next hid =>
        cases hid
        rw [elementsAt_eq m _ _ hsound]
        have hslots := (elementsOf_list hn hsound).2
        refine itemNames_eq fun x hx => ?_
        refine ih x (sizeOf_listAt hx) (hslots x hx) ?_
        cases hxn : isNode x with
        | true => exact hl.listAt hn (by decide) hx hxn
        | false =>
          rw [eq_null_of_isSlot (hslots x hx) hxn]
          intro n hmem
          simp [inside, nodes] at hmem
      · next hid => cases hid; exact hfield (by decide) hsound
      · next hid => cases hid; exact hfield (by decide) hsound
      · next h1 h2 h3 h4 h5 =>
        have hnone : (match some k with
            | some "Identifier" => [textAt (.obj m fields) "name"]
            | some "ObjectPattern" => (listAt (.obj m fields) "properties").flatMap boundProperty
            | some "ArrayPattern" => (listAt (.obj m fields) "elements").flatMap bound
            | some "RestElement" => boundIn (.obj m fields) "argument"
            | some "AssignmentPattern" => boundIn (.obj m fields) "left"
            | _ => []) = [] := by
          split <;> simp_all
        rw [hnone]
        rfl

end Patterns

section Declared
variable {t : Tree Mark}

theorem get_type {k : String} (hk : kind? t = some k) : t.get "type" = .ok (.str k) := by
  cases t with
  | scalar | arr => cases hk
  | obj m fields => rw [Tree.get, ← kind, kind_of_kind? hk]

theorem declared_import (hl : Legal t) (hi : isImport t = true) :
    Workspace.declared t = .ok ((((listAt t "specifiers").map localOf).filter (· ≠ "")).map
      fun n => (.str n, .str "module")) := by
  have hn : isNode t = true := isNode_of_hasKind hi
  obtain ⟨hel, hsp⟩ := elementsOf_list hn (import_parts hl hi).2
  have hnames : (listAt t "specifiers").mapM (fun s => do
      let name ← localName s
      if name.truth then asName name else return []) =
      .ok ((listAt t "specifiers").map fun s =>
        if localOf s ≠ "" then [(.str (localOf s) : Tree Mark)] else []) := by
    refine mapM_eq_map fun s hs => ?_
    have hlegal := hl.listAt hn (by decide) hs (isNode_of_isSpecifier (hsp s hs))
    rw [localName_eq hlegal (hsp s hs)]
    simp only [bind, Except.bind, Tree.truth, Scalar.truth, bne_iff_ne]
    split <;> rfl
  have hflat : ∀ l : List (Tree Mark), (l.map fun s =>
      if localOf s ≠ "" then [(.str (localOf s) : Tree Mark)] else []).flatten =
      ((l.map localOf).filter (· ≠ "")).map .str := by
    intro l
    induction l with
    | nil => rfl
    | cons s l ih =>
      rw [map_cons, flatten_cons, ih, map_cons]
      by_cases he : localOf s = "" <;> simp [he]
  rw [Workspace.declared, get_type (hasKind_iff.mp hi)]
  simp only [bind, Except.bind] at hnames ⊢
  rw [hel]
  simp only
  rw [hnames]
  simp only [pure, Except.pure, hflat, List.map_map]
  rfl

theorem declared_variable (hl : Legal t) (hv : hasKind t "VariableDeclaration" = true) :
    Workspace.declared t = .ok (((listAt t "declarations").flatMap fun d => boundIn d "id").map
      fun n => (.str n, (field? t "kind").getD (.str "var"))) := by
  have hn : isNode t = true := isNode_of_hasKind hv
  have hsound := hl.sound hn
  rw [sound, hasKind_iff.mp hv] at hsound
  simp only [Bool.and_eq_true] at hsound
  obtain ⟨hel, hd⟩ := elementsOf_list hn hsound.1
  have hnames : (listAt t "declarations").mapM (fun d => do patternNames (← d.get "id")) =
      .ok ((listAt t "declarations").map fun d => (boundIn d "id").map .str) := by
    refine mapM_eq_map fun d hmem => ?_
    have hdn : isNode d = true := isNode_of_hasKind (hd d hmem)
    have hdl := hl.listAt hn (by decide) hmem hdn
    have hds : holdsIf d "id" isSlot = true := by
      have := hdl.sound hdn
      rwa [sound, hasKind_iff.mp (hd d hmem)] at this
    obtain ⟨m, fields, k, rfl, _⟩ := exists_of_isNode hdn
    rw [boundIn]
    cases hf : field? (.obj m fields) "id" with
    | none =>
      rw [field?, Tree.fields] at hf
      simp only [Tree.get, hf, bind, Except.bind, Option.getD_none]
      rfl
    | some x =>
      have hx := reads (by rwa [holdsIf, hf] at hds) (hdl.field hdn hf (by decide))
      rw [field?, Tree.fields] at hf
      simp only [Tree.get, hf, bind, Except.bind, Option.getD_some, Option.map_some]
      exact hx
  have hkind : t.get? "kind" = .ok (field? t "kind") := by
    obtain ⟨m, fields, k, rfl, _⟩ := exists_of_isNode hn
    rfl
  rw [Workspace.declared, get_type (hasKind_iff.mp hv)]
  simp only [bind, Except.bind] at hnames ⊢
  rw [hkind, hel]
  simp only
  rw [hnames]
  simp only [pure, Except.pure, flatMap_def, map_flatten, List.map_map, Function.comp_def]

theorem declared_hoisted (hl : Legal t)
    (hk : kind? t = some "FunctionDeclaration" ∨ kind? t = some "ClassDeclaration") :
    Workspace.declared t = .ok ((ownName t).map fun n => (.str n, .str "hoisted")) := by
  have hn : isNode t = true := by rw [isNode]; rcases hk with hk | hk <;> rw [hk] <;> rfl
  have hget : t.get "id" = .ok ((field? t "id").getD .null) := by
    obtain ⟨m, fields, k, rfl, _⟩ := exists_of_isNode hn
    rfl
  have hmain : (do
      let id ← t.get "id"
      if isIdentifier id then return [(← id.require "name", (.str "hoisted" : Tree Mark))] else return []) =
      (Except.ok ((ownName t).map fun n => (.str n, .str "hoisted")) :
        Except Failure (List (Tree Mark × Tree Mark))) := by
    rw [hget, ownName]
    simp only [bind, Except.bind]
    cases hf : field? t "id" with
    | none => rfl
    | some id =>
      simp only [Option.getD_some, Option.map_some]
      cases hid : isIdentifier id with
      | false => simp [pure, Except.pure]
      | true => simp [require_text (identifier_name (hl.field hn hf (by decide)) hid), pure, Except.pure]
  rcases hk with hk | hk
  · rw [Workspace.declared, get_type hk]; exact hmain
  · rw [Workspace.declared, get_type hk]; exact hmain

theorem declared_eq (hn : isNode t = true) (hl : Legal t) :
    Workspace.declared t = .ok ((names t).map fun n => (.str n, keyword t)) := by
  obtain ⟨k, hk⟩ := Option.isSome_iff_exists.mp hn
  by_cases h1 : k = "ImportDeclaration"
  · subst h1; rw [declared_import hl (hasKind_iff.mpr hk), names, keyword, hk]; rfl
  by_cases h2 : k = "VariableDeclaration"
  · subst h2; rw [declared_variable hl (hasKind_iff.mpr hk), names, keyword, hk]; rfl
  by_cases h3 : k = "FunctionDeclaration"
  · subst h3; rw [declared_hoisted hl (.inl hk), names, keyword, hk]; rfl
  by_cases h4 : k = "ClassDeclaration"
  · subst h4; rw [declared_hoisted hl (.inr hk), names, keyword, hk]; rfl
  have hnone : names t = [] := by
    rw [names, hk]
    split <;> simp_all
  rw [Workspace.declared, get_type hk, hnone]
  simp only [bind, Except.bind]
  split <;> simp_all [pure, Except.pure]

end Declared

end Node

end DebugGuards
