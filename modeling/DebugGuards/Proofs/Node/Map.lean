import DebugGuards.Node.Shape

/-! Reading does not depend on marks. Each reader of documents and nodes commutes with a
change of the marks, so what is read off a plain document holds of every marked form of
it. -/

namespace DebugGuards

namespace Tree

variable {α β γ : Type} (f : α → β)

/-- Induction over the parts of a document, items and fields by membership. -/
@[elab_as_elim]
theorem induct {P : Tree α → Prop} (scalar : ∀ s, P (.scalar s))
    (arr : ∀ m items, (∀ t ∈ items, P t) → P (.arr m items))
    (obj : ∀ m fields, (∀ e ∈ fields, P e.2) → P (.obj m fields)) (t : Tree α) : P t := by
  refine @Tree.rec α P (fun items => ∀ t ∈ items, P t) (fun fields => ∀ e ∈ fields, P e.2)
    (fun e => P e.2) scalar arr obj ?_ ?_ ?_ ?_ ?_ t
  · simp
  · intro t ts ht hts; exact List.forall_mem_cons.mpr ⟨ht, hts⟩
  · simp
  · intro e es he hes; exact List.forall_mem_cons.mpr ⟨he, hes⟩
  · intro _ _ h; exact h

@[simp] theorem map_scalar (s : Scalar) : (scalar s : Tree α).map f = scalar s := by rw [map]

@[simp] theorem map_arr (m : α) (items : List (Tree α)) :
    (arr m items).map f = arr (f m) (items.map (map f)) := by rw [map, mapItems_eq_map]

@[simp] theorem map_obj (m : α) (fields : Fields α) :
    (obj m fields).map f = obj (f m) (Table.mapValues (map f) fields) := by
  rw [map, mapFields_eq_mapValues]

theorem map_map (g : β → γ) (t : Tree α) : (t.map f).map g = t.map (g ∘ f) := by
  induction t using induct with
  | scalar s => simp
  | arr m items ih => simpa using ih
  | obj m fields ih =>
    simp only [map_obj, Table.mapValues, List.map_map, Function.comp_apply]
    exact congrArg _ (List.map_congr_left fun e he => Prod.ext rfl (ih e he))

theorem fields_map (t : Tree α) : (t.map f).fields = Table.mapValues (map f) t.fields := by
  cases t <;> simp [fields, Table.mapValues]

theorem get?_fields_map (t : Tree α) (k : String) :
    Table.get? (t.map f).fields k = (Table.get? t.fields k).map (map f) := by
  rw [fields_map, Table.get?_mapValues]

@[simp] theorem truth_map (t : Tree α) : (t.map f).truth = t.truth := by
  cases t <;> simp [truth, Table.mapValues]

@[simp] theorem key?_map (t : Tree α) : (t.map f).key? = t.key? := by cases t <;> simp [key?]

@[simp] theorem asKey_map (t : Tree α) : (t.map f).asKey = t.asKey := by rw [asKey, key?_map, asKey]

theorem get_map (t : Tree α) (k : String) : (t.map f).get k = (t.get k).map (map f) := by
  cases t with
  | scalar | arr => simp [get, Except.map]
  | obj m fields =>
    simp only [map_obj, get, Table.get?_mapValues, Except.map]
    cases Table.get? fields k <;> simp

end Tree

namespace Node

variable {α β : Type} (f : α → β)

theorem kind_map (t : Tree α) : kind (t.map f) = (kind t).map f := by
  cases t with
  | scalar | arr => simp [kind]
  | obj m fields =>
    simp only [Tree.map_obj, kind, Table.get?_mapValues]
    cases Table.get? fields "type" <;> simp

@[simp] theorem kind?_map (t : Tree α) : kind? (t.map f) = kind? t := by
  rw [kind?, kind_map, kind?]
  cases h : kind t with
  | scalar s => rw [Tree.map_scalar]; cases s <;> rfl
  | arr | obj => simp

@[simp] theorem hasKind_map (t : Tree α) (name : String) : hasKind (t.map f) name = hasKind t name := by
  rw [hasKind, kind_map, hasKind]
  cases h : kind t with
  | scalar s => rw [Tree.map_scalar]; cases s <;> rfl
  | arr | obj => simp

@[simp] theorem isNode_map (t : Tree α) : isNode (t.map f) = isNode t := by rw [isNode, kind?_map, isNode]

@[simp] theorem isIdentifier_map (t : Tree α) : isIdentifier (t.map f) = isIdentifier t := hasKind_map f t _

theorem kindIn_map (t : Tree α) (names : List String) : kindIn (t.map f) names = kindIn t names := by
  rw [kindIn, kind_map, Tree.asKey_map, kindIn]

theorem isLiteral_map (t : Tree α) : isLiteral (t.map f) = isLiteral t := kindIn_map f t _

theorem literalValue_map (t : Tree α) : literalValue (t.map f) = (literalValue t).map (Tree.map f) := by
  rw [literalValue, isLiteral_map, literalValue]
  cases isLiteral t with
  | error e => rfl
  | ok b =>
    cases b with
    | true => exact Tree.get_map f t _
    | false => simp [bind, Except.bind, pure, Except.pure, Except.map]

theorem importSource_map (t : Tree α) : importSource (t.map f) = (importSource t).map (Tree.map f) := by
  rw [importSource, Tree.get_map, importSource]
  cases t.get "source" with
  | error e => rfl
  | ok source =>
    simp only [Except.map, bind, Except.bind, Tree.truth_map]
    split
    · exact literalValue_map f source
    · simp [pure, Except.pure]

end Node

end DebugGuards
