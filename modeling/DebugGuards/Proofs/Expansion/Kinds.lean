import DebugGuards.Proofs.Expansion.Counting

/-! The types of nodes under a rewriting. Every node of the result has a type that some
node had before, or one of those that are built: and a literal is built only for a
statement under guard, of which there are none without helpers. -/

namespace DebugGuards

open DebugGuards.Tree Node Expansion List

namespace Node

section Kinds

variable {α β : Type} (deep : Bool)

mutual
/-- The types of the nodes of a document, metadata apart, in order. Only if it goes deep
are objects without a type and lists in lists entered. -/
def kinds : Tree α → List String
  | .obj m fields =>
    match kind? (.obj m fields) with
    | some k => k :: kindsFields fields
    | none => if deep then kindsFields fields else []
  | .arr _ items => if deep then kindsItems items else []
  | .scalar _ => []
def kindsItems : List (Tree α) → List String
  | [] => []
  | t :: ts => kinds t ++ kindsItems ts
def kindsFields : List (String × Tree α) → List String
  | [] => []
  | (key, t) :: rest =>
    (if isMetadata key then []
      else match t with
        | .arr _ items => kindsItems items
        | t => kinds t) ++ kindsFields rest
end

/-- The types that a slot holds. -/
def kindsIn : Tree α → List String
  | .arr _ items => kindsItems deep items
  | t => kinds deep t

variable {deep}

theorem kindsItems_eq (items : List (Tree α)) : kindsItems deep items = items.flatMap (kinds deep) := by
  induction items with
  | nil => rfl
  | cons t ts ih => rw [kindsItems, ih, flatMap_cons]

theorem kindsFields_cons (key : String) (t : Tree α) (rest : Fields α) :
    kindsFields deep ((key, t) :: rest) = (if isMetadata key then [] else kindsIn deep t) ++ kindsFields deep rest := by
  cases t <;> rfl

theorem kindsFields_eq (fields : Fields α) :
    kindsFields deep fields = fields.flatMap fun e => if isMetadata e.1 then [] else kindsIn deep e.2 := by
  induction fields with
  | nil => rfl
  | cons e rest ih => rw [kindsFields_cons, ih, flatMap_cons]

theorem kinds_node {m : α} {fields : Fields α} {k : String} (hk : kind? (.obj m fields) = some k) :
    kinds deep (.obj m fields) = k :: kindsFields deep fields := by rw [kinds, hk]

theorem kinds_subset_kindsIn (t : Tree α) : kinds deep t ⊆ kindsIn deep t := by
  cases t with
  | scalar | obj => exact List.Subset.refl _
  | arr m items =>
    rw [kinds]
    split
    · exact List.Subset.refl _
    · exact nil_subset _

theorem mem_kindsFields {fields : Fields α} {k : String} :
    k ∈ kindsFields deep fields ↔ ∃ e ∈ fields, isMetadata e.1 = false ∧ k ∈ kindsIn deep e.2 := by
  rw [kindsFields_eq, mem_flatMap]
  refine exists_congr fun e => and_congr_right fun _ => ?_
  cases isMetadata e.1 <;> simp

/-- Marks do not matter. -/
theorem kinds_map (f : α → β) (t : Tree α) :
    kinds deep (t.map f) = kinds deep t ∧ kindsIn deep (t.map f) = kindsIn deep t := by
  induction t using induct with
  | scalar s => exact ⟨rfl, rfl⟩
  | arr m items ih =>
    have hitems : kindsItems deep (items.map (map f)) = kindsItems deep items := by
      rw [kindsItems_eq, kindsItems_eq, flatMap_map]
      exact flatMap_congr fun x hx => (ih x hx).1
    rw [map_arr, kinds, kinds, kindsIn, kindsIn, hitems]
    exact ⟨rfl, rfl⟩
  | obj m fields ih =>
    have hfields : kindsFields deep (Table.mapValues (map f) fields) = kindsFields deep fields := by
      rw [kindsFields_eq, kindsFields_eq, Table.mapValues, flatMap_map]
      refine flatMap_congr fun e he => ?_
      dsimp only
      rw [(ih e he).2]
    have hkinds : kinds deep ((obj m fields).map f) = kinds deep (obj m fields) := by
      have hk := kind?_map f (.obj m fields)
      rw [map_obj] at hk ⊢
      rw [kinds, kinds, hk, hfields]
    refine ⟨hkinds, ?_⟩
    rw [map_obj] at hkinds ⊢
    exact hkinds

theorem kinds_erase (t : Tree α) : kinds deep t.erase = kinds deep t := (kinds_map _ t).1

/-- The types of the nodes that are walked are among them. -/
theorem kind_mem_kinds {t n : Tree α} {k : String} (hn : n ∈ inside t) (hk : kind? n = some k) :
    k ∈ kindsIn deep t := by
  have hfields : ∀ fields : Fields α,
      (∀ e ∈ fields, ∀ n ∈ inside e.2, ∀ k, kind? n = some k → k ∈ kindsIn deep e.2) →
      ∀ n ∈ nodesFields fields, ∀ k, kind? n = some k → k ∈ kindsFields deep fields := by
    intro fields ih n hn k hk
    obtain ⟨e, he, hkey, hn⟩ := mem_nodesFields hn
    exact mem_kindsFields.mpr ⟨e, he, hkey, ih e he n hn k hk⟩
  induction t using induct generalizing n k with
  | scalar s => cases hn
  | arr m items ih =>
    rw [inside, nodesItems_eq, mem_flatMap] at hn
    obtain ⟨x, hx, hn⟩ := hn
    rw [kindsIn, kindsItems_eq, mem_flatMap]
    refine ⟨x, hx, ?_⟩
    cases x with
    | scalar | arr => cases hn
    | obj => exact ih _ hx hn hk
  | obj m fields ih =>
    change n ∈ nodes (.obj m fields) at hn
    rw [nodes] at hn
    split at hn
    · next hnode =>
      obtain ⟨j, hj⟩ := Option.isSome_iff_exists.mp hnode
      rw [kindsIn, kinds_node hj]
      rcases mem_cons.mp hn with rfl | hn
      · rw [hj] at hk
        exact Option.some.inj hk ▸ mem_cons_self
      · exact mem_cons_of_mem _ (hfields fields (fun e he n hn k hk => ih e he hn hk) n hn k hk)
      · simp
    · cases hn

/-- A field set brings its own types only. -/
theorem forall_kinds_set {good : String → Prop} {m : α} {fields : Fields α} {key : String} {v : Tree α}
    (hkey : key ≠ "type") (hf : ∀ k ∈ kinds deep (.obj m fields), good k) (hv : ∀ k ∈ kindsIn deep v, good k) :
    ∀ k ∈ kinds deep (.obj m (Table.set fields key v)), good k := by
  have hkind : kind? (.obj m (Table.set fields key v)) = kind? (.obj m fields) := by
    rw [kind?, kind?, kind, kind, Table.get?_set, if_neg hkey]
  have hset : (∀ k ∈ kindsFields deep fields, good k) → ∀ k ∈ kindsFields deep (Table.set fields key v), good k := by
    intro h k hk
    obtain ⟨e, he, hmeta, hk⟩ := mem_kindsFields.mp hk
    rcases Table.mem_set he with he | rfl
    · exact h k (mem_kindsFields.mpr ⟨e, he, hmeta, hk⟩)
    · exact hv k hk
  rw [kinds] at hf
  rw [kinds, hkind]
  cases hk : kind? (.obj m fields) with
  | some j =>
    rw [hk, forall_mem_cons] at hf
    exact forall_mem_cons.mpr ⟨hf.1, hset hf.2⟩
  | none =>
    rw [hk] at hf
    cases deep with
    | true => exact hset hf
    | false => exact hf

end Kinds

end Node

/-- The types of the literals that are built in a dialect, for texts and numbers. -/
def Dialect.built : Dialect → List String
  | .uniform => ["Literal"]
  | .kinded => ["StringLiteral", "NumericLiteral"]

namespace Expansion

variable {deep : Bool} {good : String → Prop}

section Built

/-- The types of the nodes that an expansion builds, literals apart. -/
def builtKinds : List String :=
  ["Identifier", "MemberExpression", "CallExpression", "LogicalExpression", "ParenthesizedExpression",
    "VariableDeclarator", "VariableDeclaration", "EmptyStatement"]

theorem forall_kinds_make {k : String} {fields : List (String × Json)} (hk : good k)
    (hf : ∀ e ∈ fields, ∀ j ∈ kindsIn deep e.2, good j) : ∀ j ∈ kindsIn deep (make k fields), good j := by
  intro j hj
  rw [make, kindsIn, kinds_node (kind?_make k fields), mem_cons, kindsFields_cons, mem_append] at hj
  · rcases hj with rfl | hj | hj
    · exact hk
    · cases hj
    · obtain ⟨e, he, _, hj⟩ := mem_kindsFields.mp hj
      exact hf e he j hj
  · simp

theorem forall_kinds_list {items : List Json} (hi : ∀ x ∈ items, ∀ k ∈ kinds deep x, good k) :
    ∀ k ∈ kindsIn deep (listOf items), good k := by
  intro k hk
  rw [listOf, kindsIn, kindsItems_eq, mem_flatMap] at hk
  obtain ⟨x, hx, hk⟩ := hk
  exact hi x hx k hk

theorem forall_kinds_scalar (v : Scalar) : ∀ k ∈ kindsIn deep (.scalar v : Json), good k := by
  intro k hk
  cases hk

/-- A literal is a single node, whatever else is noted about its value. -/
theorem kindsIn_literal (deep : Bool) (d : Dialect) {v : Scalar} (hv : (∃ s, v = .str s) ∨ ∃ i, v = .int i) :
    ∃ k ∈ d.built, kindsIn deep (d.literal (.scalar v) : Json) = [k] := by
  obtain ⟨s, rfl⟩ | ⟨i, rfl⟩ := hv <;> cases d
  · exact ⟨"Literal", by decide, rfl⟩
  · exact ⟨"StringLiteral", by decide, rfl⟩
  · exact ⟨"Literal", by decide, rfl⟩
  · exact ⟨"NumericLiteral", by decide, rfl⟩

theorem forall_kinds_literal {d : Dialect} (hd : ∀ k ∈ d.built, good k) {v : Scalar}
    (hv : (∃ s, v = .str s) ∨ ∃ i, v = .int i) : ∀ k ∈ kindsIn deep (d.literal (.scalar v) : Json), good k := by
  obtain ⟨k, hk, heq⟩ := kindsIn_literal deep d hv
  rw [heq]
  exact forall_mem_singleton.mpr (hd k hk)

variable (hbuilt : ∀ k ∈ builtKinds, good k)

include hbuilt

theorem forall_kinds_identifier (name : String) : ∀ k ∈ kindsIn deep (identifier (.str name) : Json), good k := by
  refine forall_kinds_make (hbuilt "Identifier" (by decide)) ?_
  simp only [forall_mem_cons]
  exact ⟨forall_kinds_scalar _, forall_mem_nil _⟩

theorem forall_kinds_calleeNode (target : Target) (d : Diagnostic) :
    ∀ k ∈ kindsIn deep (d.calleeNode target : Json), good k := by
  have hmember : ∀ a b : String, ∀ k ∈ kindsIn deep (member (identifier (.str a)) (identifier (.str b)) : Json),
      good k := by
    intro a b
    refine forall_kinds_make (hbuilt "MemberExpression" (by decide)) ?_
    simp only [forall_mem_cons]
    exact ⟨forall_kinds_identifier hbuilt a, forall_kinds_identifier hbuilt b, forall_kinds_scalar _,
      forall_kinds_scalar _, forall_mem_nil _⟩
  cases target with
  | global name => exact hmember name d.name
  | external => exact forall_kinds_identifier hbuilt d.name
  | console => exact hmember _ _

theorem forall_kinds_call (target : Target) (d : Diagnostic) {args : List Json}
    (ha : ∀ a ∈ args, ∀ k ∈ kinds deep a, good k) : ∀ k ∈ kindsIn deep (call (d.calleeNode target) args), good k := by
  refine forall_kinds_make (hbuilt "CallExpression" (by decide)) ?_
  simp only [forall_mem_cons]
  exact ⟨forall_kinds_calleeNode hbuilt target d, forall_kinds_list ha, forall_kinds_scalar _, forall_mem_nil _⟩

theorem forall_kinds_chain (guard : String) {operands : List Json} (ho : ∀ a ∈ operands, ∀ k ∈ kindsIn deep a, good k) :
    ∀ k ∈ kindsIn deep (parenthesized (guardChain (.str guard) operands)), good k := by
  have hchain : ∀ k ∈ kindsIn deep (guardChain (.str guard) operands), good k := by
    refine guardChain_induction (P := fun e => ∀ k ∈ kindsIn deep e, good k) (fun l r hl hr => ?_)
      (forall_kinds_identifier hbuilt guard) ho
    refine forall_kinds_make (hbuilt "LogicalExpression" (by decide)) ?_
    simp only [forall_mem_cons]
    exact ⟨forall_kinds_scalar _, hl, hr, forall_mem_nil _⟩
  refine forall_kinds_make (hbuilt "ParenthesizedExpression" (by decide)) ?_
  simp only [forall_mem_cons]
  exact ⟨hchain, forall_mem_nil _⟩

theorem forall_kinds_constant {d : Dialect} (hd : ∀ k ∈ d.built, good k) (name : String) (i : Int) :
    ∀ k ∈ kinds deep (constant (.str name) (d.literal (.int i)) : Json), good k := by
  have hdeclarator : ∀ k ∈ kinds deep (make "VariableDeclarator" [("id", identifier (.str name)),
      ("init", d.literal (.int i))] : Json), good k := by
    refine forall_kinds_make (hbuilt "VariableDeclarator" (by decide)) ?_
    simp only [forall_mem_cons]
    exact ⟨forall_kinds_identifier hbuilt name, forall_kinds_literal hd (.inr ⟨i, rfl⟩), forall_mem_nil _⟩
  refine forall_kinds_make (hbuilt "VariableDeclaration" (by decide)) ?_
  simp only [forall_mem_cons]
  exact ⟨forall_kinds_scalar _, forall_kinds_list (forall_mem_singleton.mpr hdeclarator), forall_mem_nil _⟩

end Built

section Reshaped

variable {drops : Tree Mark → Bool} {finish : Tree Mark → List (String × Json) → Json}

theorem forall_kinds_fields {fields : Fields Mark}
    (hslots : ∀ e ∈ fields, isMetadata e.1 = false → (∀ k ∈ kindsIn deep e.2, good k) →
      ∀ k ∈ kindsIn deep (reshapeInside drops finish e.2), good k) (h : ∀ k ∈ kindsFields deep fields, good k) :
    ∀ k ∈ kindsFields deep (reshapeFields drops finish fields), good k := by
  intro k hk
  obtain ⟨e, he, hkey, hk⟩ := mem_kindsFields.mp hk
  rw [reshapeFields_eq, mem_map] at he
  obtain ⟨e, he, rfl⟩ := he
  rw [reshapeSlot, if_neg (by simpa using hkey)] at hk
  exact hslots e he hkey (fun j hj => h j (mem_kindsFields.mpr ⟨e, he, hkey, hj⟩)) k hk

/-- If a node that stays keeps to good types when it is finished, so does the document. -/
theorem forall_kinds_reshape (hscalar : ∀ s, drops (.scalar s) = false) (hempty : good "EmptyStatement")
    (hfinish : ∀ m fields, isNode (.obj m fields) = true → Legal (.obj m fields) →
      (∀ k ∈ kinds deep (.obj () (reshapeFields drops finish fields) : Json), good k) →
      ∀ k ∈ kindsIn deep (finish (.obj m fields) (reshapeFields drops finish fields)), good k) (t : Tree Mark) :
    ((isNode t = true → Legal t) → (∀ k ∈ kinds deep t, good k) → ∀ k ∈ kinds deep (reshape drops finish t), good k) ∧
    (Legal t → (∀ k ∈ kindsIn deep t, good k) → ∀ k ∈ kindsIn deep (reshapeInside drops finish t), good k) := by
  induction t using induct with
  | scalar s =>
    rw [reshapeInside, hscalar, reshape]
    · exact ⟨fun _ h => h, fun _ h => h⟩
    · simp
  | arr m items ih =>
    refine ⟨fun _ h => ?_, fun hl h k hk => ?_⟩
    · rw [reshape, kinds_erase]
      exact h
    · rw [kindsIn, kindsItems_eq] at h
      rw [reshapeInside, kindsIn, kindsItems_eq, reshapeItems_eq, mem_flatMap] at hk
      obtain ⟨y, hy, hk⟩ := hk
      obtain ⟨x, hx, rfl⟩ := mem_map.mp hy
      have hmem := mem_of_mem_filter hx
      exact (ih x hmem).1 (hl.item hmem) (fun j hj => h j (mem_flatMap.mpr ⟨x, hmem, hj⟩)) k hk
  | obj m fields ih =>
    have hnode : (isNode (.obj m fields) = true → Legal (.obj m fields)) → (∀ k ∈ kinds deep (.obj m fields), good k) →
        ∀ k ∈ kindsIn deep (reshape drops finish (.obj m fields)), good k := by
      intro hl h
      rw [reshape]
      split
      · next hn =>
        refine hfinish m fields hn (hl hn) ?_
        obtain ⟨j, hj⟩ := Option.isSome_iff_exists.mp hn
        rw [kinds_node hj, forall_mem_cons] at h
        rw [kinds_node (kind?_obj.mpr (get?_type hscalar (kind?_obj.mp hj))), forall_mem_cons]
        refine ⟨h.1, forall_kinds_fields (fun e he hkey => (ih e he).2 fun n hmem => hl hn n ?_) h.2⟩
        rw [Alike.inside_of_isNode hn]
        exact mem_cons_of_mem _ (mem_nodesFields_of he hkey hmem)
      · rw [erase, (kinds_map _ _).2]
        exact h
    refine ⟨fun hl h k hk => hnode hl h k (kinds_subset_kindsIn _ hk), fun hl h => ?_⟩
    cases hd : drops (.obj m fields) with
    | true =>
      rw [reshapeInside, if_pos hd]
      · exact forall_kinds_make hempty (forall_mem_nil _)
      · simp
    | false =>
      rw [reshapeInside_obj hd]
      exact hnode (fun _ => hl) h

/-- The arguments of a call bring types of the call. -/
theorem kinds_argument {e a : Json} (he : isNode e = true) (ha : a ∈ argumentsOf e) : kinds deep a ⊆ kinds deep e := by
  obtain ⟨m, fields, j, rfl, hj⟩ := exists_of_isNode he
  rw [kinds_node hj]
  intro k hk
  rw [argumentsOf, elementsOf, Tree.get?] at ha
  cases hget : Table.get? fields "arguments" with
  | none => simp [hget, bind, Except.bind] at ha
  | some v =>
    simp only [hget, bind, Except.bind] at ha
    cases v with
    | arr i items =>
      have hmeta : isMetadata "arguments" = false := by decide
      refine mem_cons_of_mem _ (mem_kindsFields.mpr ⟨_, Table.mem_of_get? hget, hmeta, ?_⟩)
      rw [kindsIn, kindsItems_eq]
      exact mem_flatMap.mpr ⟨a, ha, hk⟩
    | obj i fs =>
      obtain ⟨f, _, rfl⟩ := mem_map.mp ha
      cases hk
    | scalar v =>
      cases v with
      | str text =>
        obtain ⟨f, _, rfl⟩ := mem_map.mp ha
        cases hk
      | _ => cases ha

/-- The expression of a statement brings types of the statement. -/
theorem kindsIn_expression {x : Json} (hx : isNode x = true) : kindsIn deep (expressionOf x) ⊆ kinds deep x := by
  obtain ⟨m, fields, j, rfl, hj⟩ := exists_of_isNode hx
  rw [kinds_node hj, expressionOf, Tree.fields]
  intro k hk
  cases hget : Table.get? fields "expression" with
  | none => rw [hget] at hk; cases hk
  | some e =>
    rw [hget] at hk
    have hmeta : isMetadata "expression" = false := by decide
    exact mem_cons_of_mem _ (mem_kindsFields.mpr ⟨_, Table.mem_of_get? hget, hmeta, hk⟩)

theorem calledHelper_nil (x : Tree Mark) (called : Tree Mark × Helper) : calledHelper [] x ≠ .ok (some called) := by
  intro h
  rw [calledHelper] at h
  cases hx : x.get "expression" with
  | error f => rw [hx] at h; cases h
  | ok e =>
    cases hc : calleeName e with
    | error f => simp only [hx, hc, bind, Except.bind] at h; cases h
    | ok name =>
      simp only [hx, hc, bind, Except.bind] at h
      split at h
      · cases h
      · cases hk : name.asKey <;> simp only [hk] at h <;> cases h

/-- A statement goes under guard only if there are helpers. -/
theorem helpers_ne_nil {o : Options} {helpers : Table Scalar Helper} {x : Tree Mark} {v : Verdict}
    (hv : verdict o helpers x = .ok v) (hg : v.guards = true) : helpers ≠ [] := by
  rintro rfl
  obtain ⟨rfl, _⟩ | ⟨name, helper, d, hcalled, _⟩ := verdict_ok hv
  · cases hg
  · exact calledHelper_nil x _ hcalled

theorem Rewriting.kindsIn_rewrite (c : Rewriting) {a : Tree Mark} (ha : isNode a = true) :
    kindsIn deep (c.rewrite a) = kinds deep (c.rewrite a) := by
  obtain ⟨m, fields, _, rfl, _⟩ := exists_of_isNode ha
  rw [Rewriting.rewrite, reshape, if_pos ha]
  obtain he | ⟨_, _, _, _, _, he⟩ := c.finish_cases (.obj m fields) (reshapeFields c.drops c.finish fields) <;>
    rw [he] <;> rfl

theorem forall_kinds_operands {o : Options} {d : Dialect} {v : Verdict} {args operands : List Json}
    (hbuilt : ∀ k ∈ builtKinds, good k) (hd : ∀ k ∈ d.built, good k)
    (hop : v.operands o d id args = some operands) (ha : ∀ a ∈ args, ∀ k ∈ kindsIn deep a, good k) :
    ∀ a ∈ operands, ∀ k ∈ kindsIn deep a, good k := by
  have hargs : ∀ a ∈ args, ∀ k ∈ kinds deep a, good k := fun a hmem k hk => ha a hmem k (kinds_subset_kindsIn a hk)
  refine Verdict.forall_operands (P := fun a => ∀ k ∈ kindsIn deep a, good k) hop ha (forall_kinds_scalar _)
    (fun d => forall_kinds_call hbuilt _ d hargs) fun text => forall_kinds_call hbuilt _ _ ?_
  refine forall_mem_singleton.mpr fun k hk => ?_
  exact forall_kinds_literal hd (.inl ⟨text, rfl⟩) k (kinds_subset_kindsIn _ hk)

/-- A statement that goes under guard keeps to good types, if a literal of the dialect is
good once there are helpers. -/
theorem Rewriting.forall_kinds_finish (c : Rewriting) (hbuilt : ∀ k ∈ builtKinds, good k)
    (hlit : c.helpers ≠ [] → ∀ k ∈ c.dialect.built, good k) {m : Mark} {fields : Fields Mark}
    (hn : isNode (.obj m fields) = true) (hl : Legal (.obj m fields))
    (hf : ∀ k ∈ kinds deep (.obj () (reshapeFields c.drops c.finish fields) : Json), good k) :
    ∀ k ∈ kindsIn deep (c.finish (.obj m fields) (reshapeFields c.drops c.finish fields)), good k := by
  cases hg : c.guards (.obj m fields) with
  | false =>
    rw [Rewriting.finish_of_not_guards hg]
    exact hf
  | true =>
    obtain ⟨_, v, hv, hguards⟩ := Rewriting.exists_verdict hg
    obtain ⟨operands, _, hop, hfinish⟩ := Rewriting.finish_of_guards hg hv (reshapeFields c.drops c.finish fields)
    have hnode : ∀ {i : Mark} {cs : Fields Mark}, isNode (.obj i cs) = true →
        isNode (.obj () (reshapeFields c.drops c.finish cs) : Json) = true := by
      intro i cs hcs
      obtain ⟨j, hj⟩ := Option.isSome_iff_exists.mp hcs
      exact Option.isSome_iff_exists.mpr ⟨j, kind?_obj.mpr
        (get?_type (fun _ => not_drops_of_not_isStatement rfl) (kind?_obj.mp hj))⟩
    have hargs : ∀ a ∈ argumentsOf (expressionOf (.obj () (reshapeFields c.drops c.finish fields))),
        ∀ k ∈ kindsIn deep a, good k := by
      have hargs := Rewriting.arguments_rewritten hl hg
      intro a ha k hk
      refine hf k (kindsIn_expression (hnode hn) (kinds_subset_kindsIn _ (kinds_argument ?_ ha ?_)))
      · obtain ⟨i, cs, _, hcall, _, hread⟩ := Rewriting.expression_rewritten hl hg
        rw [show expressionOf (.obj () (reshapeFields c.drops c.finish fields)) = _ from hread]
        exact hnode (isNode_of_hasKind hcall)
      · rw [show argumentsOf (expressionOf (.obj () (reshapeFields c.drops c.finish fields))) = _ from hargs.1] at ha
        obtain ⟨b, hb, rfl⟩ := mem_map.mp ha
        have hb := hargs.2 b hb
        rw [isArgument, Bool.and_eq_true] at hb
        rwa [c.kindsIn_rewrite hb.1] at hk
    have hchain := forall_kinds_chain hbuilt c.guard
      (forall_kinds_operands hbuilt (hlit (helpers_ne_nil hv hguards)) hop hargs)
    rw [hfinish]
    exact forall_kinds_set (by decide) hf hchain

theorem Rewriting.forall_kinds (c : Rewriting) (hbuilt : ∀ k ∈ builtKinds, good k)
    (hlit : c.helpers ≠ [] → ∀ k ∈ c.dialect.built, good k) (t : Tree Mark) :
    ((isNode t = true → Legal t) → (∀ k ∈ kinds deep t, good k) → ∀ k ∈ kinds deep (c.rewrite t), good k) ∧
    (Legal t → (∀ k ∈ kindsIn deep t, good k) → ∀ k ∈ kindsIn deep (reshapeInside c.drops c.finish t), good k) :=
  forall_kinds_reshape (fun s => not_drops_of_not_isStatement rfl) (hbuilt _ (by decide))
    (fun _ _ hn hl => c.forall_kinds_finish hbuilt hlit hn hl) t

end Reshaped

end Expansion

end DebugGuards
