import DebugGuards.Proofs.Printing.Fields
import DebugGuards.Proofs.Printing.Terms

/-! Documents that are nodes for lists, objects, functions and binding patterns print as the
terms they are nodes for are written. So two of them print alike just if they are nodes for
the same term, unless one of the four forms is in them of which the text shows too little. -/

namespace DebugGuards.Printing

open Node List

section Documents

variable {α : Type}

/-- A node for a literal, without a raw form. -/
def IsLiteral (v : Literal) (t : Tree α) : Prop :=
  kind? t = some "Literal" ∧ field? t "value" = some v.value ∧ flagged t "raw" = false ∧ flagged t "extra" = false ∧
    field? t "regex" = none

def IsEmptyBlock (t : Tree α) : Prop := kind? t = some "BlockStatement" ∧ FieldLists t "body" (· = [])

def HasName (t : Tree α) : Option String → Prop
  | none => flagged t "id" = false
  | some n => FieldIs t "id" (IsIdentifier n)

/-- A node for a property with these attributes. -/
def IsProperty (access : Access) (method computed shorthand : Bool) (t : Tree α) : Prop :=
  kind? t = some "Property" ∧ field? t "kind" = some (.str access.text) ∧ flagged t "method" = method ∧
    flagged t "computed" = computed ∧ flagged t "shorthand" = shorthand

mutual
/-- A document is a node for a term. -/
def Encodes : Term → Tree α → Prop
  | .name n, t => IsIdentifier n t
  | .literal v, t => IsLiteral v t
  | .list binds as, t => kind? t = some (if binds then "ArrayPattern" else "ArrayExpression") ∧
      FieldLists t "elements" (EncodeAll as)
  | .record binds as, t => kind? t = some (if binds then "ObjectPattern" else "ObjectExpression") ∧
      FieldLists t "properties" (EncodeAll as)
  | .function async generator n as, t => kind? t = some "FunctionExpression" ∧ flagged t "async" = async ∧
      flagged t "generator" = generator ∧ HasName t n ∧ FieldLists t "params" (EncodeAll as) ∧
      FieldIs t "body" IsEmptyBlock
  | .hole, t => t = .null
  | .spread binds a, t => kind? t = some (if binds then "RestElement" else "SpreadElement") ∧
      FieldIs t "argument" (Encodes a)
  | .defaulted l r, t => kind? t = some "AssignmentPattern" ∧ FieldIs t "left" (Encodes l) ∧
    FieldIs t "right" (Encodes r)
  | .property access method computed k v, t => IsProperty access method computed false t ∧ FieldIs t "key" (Encodes k) ∧
      FieldIs t "value" (Encodes v)
  | .shorthand n, t => IsProperty .init false false true t ∧ FieldIs t "key" (IsIdentifier n) ∧
      FieldIs t "value" (IsIdentifier n)
  | .shorthandDefault n v, t => IsProperty .init false false true t ∧ FieldIs t "key" (IsIdentifier n) ∧
      FieldIs t "value" fun u => kind? u = some "AssignmentPattern" ∧ FieldIs u "left" (IsIdentifier n) ∧
        FieldIs u "right" (Encodes v)
def EncodeAll : List Term → List (Tree α) → Prop
  | [], ts => ts = []
  | a :: as, ts => ∃ t rest, ts = t :: rest ∧ Encodes a t ∧ EncodeAll as rest
end

theorem forall₂_of_encodeAll {items : List (Tree α)} {as : List Term} {P : Tree α → Term → Prop}
    (h : EncodeAll as items) (hp : ∀ a ∈ as, ∀ t, Encodes a t → P t a) : List.Forall₂ P items as := by
  induction as generalizing items with
  | nil =>
    obtain rfl := h
    exact .nil
  | cons a as ih =>
    obtain ⟨t, rest, rfl, ht, hrest⟩ := h
    rw [forall_mem_cons] at hp
    exact .cons (hp.1 t ht) (ih hrest hp.2)

end Documents

section Texts

namespace Term

theorem spell_further (xs : List Lexeme) (as : List Term) :
    spell (xs ++ further as) = ", ".intercalate (spell xs :: as.map text) := by
  induction as generalizing xs with
  | nil => simp [further]
  | cons a as ih =>
    rw [further, spell_append, spell_cons, spell_cons, ih, map_cons, String.intercalate_cons_cons]
    simp [← String.toList_inj, text, Lexeme.text, Lexeme.chars, Mark.chars]

theorem spell_lexemesOf (as : List Term) : spell (lexemesOf as) = ", ".intercalate (as.map text) := by
  cases as with
  | nil => rfl
  | cons a as => exact spell_further a.lexemes as

theorem text_list (x : Bool) (as : List Term) : (list x as).text = "[" ++ ", ".intercalate (as.map text) ++ "]" := by
  rw [text, lexemes, spell_cons, spell_append, spell_lexemesOf]
  simp [← String.toList_inj, Lexeme.text, Lexeme.chars, Mark.chars]

/-- Members between braces. -/
theorem text_record {x : Bool} {as : List Term} (h : (as.isEmpty && !x) = false) :
    (record x as).text = "\x7b " ++ ", ".intercalate (as.map text) ++ " \x7d" := by
  rw [text, lexemes, if_neg (by simp [h]), spell_cons, spell_cons, spell_append, spell_lexemesOf]
  simp [← String.toList_inj, Lexeme.text, Lexeme.chars, Mark.chars]

theorem text_function (async generator : Bool) (n : Option String) (as : List Term) :
    (function async generator n as).text = (if async then "async " else "") ++ "function" ++
      (if generator then "*" else "") ++ (n.elim "" fun n => " " ++ n) ++ "(" ++
        ", ".intercalate (as.map text) ++ ") " ++ "\x7b\x7d" := by
  rw [text, lexemes, spell_append, spell_cons, spell_append, spell_lexemesOf]
  cases async <;> cases generator <;> cases n <;>
    simp [← String.toList_inj, functionHead, Lexeme.text, Lexeme.chars, Mark.chars]

theorem text_spread (x : Bool) (a : Term) : (spread x a).text = "..." ++ a.text := by
  rw [text, lexemes, spell_cons]
  simp [text, Lexeme.text, Lexeme.chars, Mark.chars]

theorem text_defaulted (t v : Term) : (defaulted t v).text = t.text ++ " = " ++ v.text := by
  rw [text, lexemes, spell_append, spell_cons, spell_cons, spell_cons]
  simp [← String.toList_inj, text, Lexeme.text, Lexeme.chars, Mark.chars]

theorem text_property (access : Access) (method computed : Bool) (k v : Term) :
    (property access method computed k v).text =
      (if computed then "[" ++ k.text ++ "]" else k.text) ++ ": " ++ v.text := by
  rw [text, lexemes, spell_append, spell_cons, spell_cons]
  cases computed <;> simp [← String.toList_inj, text, Lexeme.text, Lexeme.chars, Mark.chars]

theorem text_literal (v : Literal) : (literal v).text = v.lexeme.text := by
  simp [text, lexemes]

theorem text_name (n : String) : (name n).text = n := by
  simp [text, lexemes, Lexeme.text, Lexeme.chars]

end Term

end Texts

section Printing

variable {α : Type} [Inhabited α] {indent k : String} {m : α} {fields : Fields α} {t : Tree α} {a : Term}
  {items : List (Tree α)} {as : List Term}

/-- Where little is asked for, a node prints as a term is written. -/
def Writes (indent : String) (t : Tree α) (a : Term) : Prop :=
  ∀ q ≤ 1, (Part.of indent t).expression q = .ok (.str a.text)

theorem writes_of_bare (own : Nat) (hk : kind? t = some k)
    (hl : (literalKinds.contains k && k != "TemplateLiteral") = false) (hown : 1 ≤ own)
    (hb : ∀ m fields, t = .obj m fields → bare indent k (Part.node indent m fields) = .ok (.str a.text, own)) :
    Writes indent t a := by
  obtain ⟨m, fields, rfl, hk'⟩ := exists_of_kind? hk
  intro q hq
  rw [expression_of, printExpression_node hk' hl (hb m fields rfl), if_neg (by omega)]

omit [Inhabited α] in
theorem truth_getD (m : α) (fields : Fields α) (key : String) :
    ((Table.get? fields key).getD .null).truth = flagged (.obj m fields) key := by
  rw [flagged, field?, Tree.fields]
  cases Table.get? fields key <;> rfl

theorem writes_literal {v : Literal} (h : IsLiteral v t) : Writes indent t (.literal v) := by
  obtain ⟨hk, hv, hraw, hextra, hregex⟩ := h
  obtain ⟨m, fields, rfl, hk'⟩ := exists_of_kind? hk
  rw [field?, Tree.fields] at hv hregex
  have hnone : rawForm (.obj m fields) = .ok .null := by
    simp [rawForm, Tree.get, bind, Except.bind, pure, Except.pure, truth_getD m, hraw, hextra]
  have hkind : ∀ k, "Literal" ≠ k → hasKind (.obj m fields) k = false := by
    intro k hne
    rw [Bool.eq_false_iff, Ne, hasKind_iff, hk]
    simpa using hne
  have hlit : literal (.obj m fields) = (.ok (.str v.lexeme.text) : Printed (Tree α)) := by
    simp [literal, hnone, hkind "NullLiteral", hkind "RegExpLiteral", Tree.get?, Tree.get, hv, hregex, bind,
      Except.bind, pure, Except.pure, Literal.rawLiteral_value]
  intro q hq
  rw [expression_of, printExpression, kind_node hk']
  have hkinds : (literalKinds.contains "Literal" && "Literal" != "TemplateLiteral") = true := by decide
  simp only [bind, Except.bind, Tree.asKey, Tree.key?, Scalar.key, hkinds, if_true]
  rw [show (Part.node indent m fields).tree = .obj m fields from rfl, hlit, Term.text_literal]

theorem list_node {n : α} {q : Nat} {x : Bool} (hq : q ≤ 1)
    (h : field? (.obj m fields) "elements" = some (.arr n items))
    (hall : List.Forall₂ (fun t a => t = .null ∧ a = .hole ∨ kind? t ≠ none ∧ Writes indent t a) items as) :
    list (Part.node indent m fields) q = .ok (.str (Term.list x as).text, atomic) := by
  rw [list, elementsOf_node h]
  simp only [bind, Except.bind]
  rw [mapM_ok ((as.map Term.text).map .str)]
  · simp only [commaJoin_str, Term.text_list]
    rfl
  · rw [forall₂_map_left_iff, List.map_map, forall₂_map_right_iff]
    refine hall.imp fun t a hta => ?_
    simp only [tree_of]
    rcases hta with ⟨rfl, rfl⟩ | ⟨hk, hw⟩
    · rfl
    · obtain ⟨k, hk⟩ := Option.ne_none_iff_exists'.mp hk
      obtain ⟨m, fields, rfl, -⟩ := exists_of_kind? hk
      exact hw q hq

/-- A member of an object prints as a term is written. -/
def Enters (indent : String) (t : Tree α) (a : Term) : Prop := property (Part.of indent t) = .ok (.str a.text)

section

variable {n : α} (h : field? (.obj m fields) "properties" = some (.arr n items))
  (hall : List.Forall₂ (Enters indent) items as)
include h hall

theorem properties_node :
    properties (Part.node indent m fields) = .ok ("\x7b " ++ ", ".intercalate (as.map Term.text) ++ " \x7d") := by
  rw [properties, elementsOf_node h]
  simp only [bind, Except.bind]
  rw [mapM_ok ((as.map Term.text).map .str)]
  · simp only [commaJoin_str]
    rfl
  · rw [forall₂_map_left_iff, List.map_map, forall₂_map_right_iff]
    exact hall

theorem object_node : object (Part.node indent m fields) = .ok (.str (Term.record false as).text, atomic) := by
  have hlen := hall.length_eq
  rw [object, get?_node, h]
  simp only [bind, Except.bind, Option.map_some, tree_of, Tree.truth]
  cases items with
  | nil =>
    obtain rfl := forall₂_nil_left_iff.mp hall
    rfl
  | cons t items =>
    have hne : (as.isEmpty && !false) = false := by
      cases as with
      | nil => cases hlen
      | cons a as => rfl
    simp only [isEmpty_cons, Bool.not_false, if_true, properties_node h hall, Term.text_record hne]
    rfl

end

theorem parameters_node {n : α} (h : field? (.obj m fields) "params" = some (.arr n items))
    (hall : List.Forall₂ (Writes indent) items as) :
    parameters (Part.node indent m fields) = .ok (", ".intercalate (as.map Term.text)) := by
  rw [parameters, elementsOf_node h]
  simp only [bind, Except.bind]
  rw [mapM_ok ((as.map Term.text).map .str)]
  · exact commaJoin_str _
  · rw [forall₂_map_left_iff, List.map_map, forall₂_map_right_iff]
    exact hall.imp fun t a h => h 0 (by decide)

theorem block_empty (h : IsEmptyBlock t) : block indent (Part.of indent t) 0 = .ok "\x7b\x7d" := by
  obtain ⟨hk, n, items, hb, rfl⟩ := h
  obtain ⟨m, fields, rfl, -⟩ := exists_of_kind? hk
  rw [block, hasKind_of, hasKind_node hk, get?_of, get?_node, hb]
  rfl

omit [Inhabited α] in
theorem flagged_of_kind? {key : String} {u : Tree α} (hu : field? t key = some u) (hk : kind? u = some k) :
    flagged t key = true := by
  obtain ⟨m, fields, rfl, hk'⟩ := exists_of_kind? hk
  rw [flagged, hu]
  cases fields with
  | nil => cases hk'
  | cons f fields => rfl

theorem function_node {n : α} {async generator : Bool} {name : Option String}
    (ha : flagged (.obj m fields) "async" = async) (hg : flagged (.obj m fields) "generator" = generator)
    (hn : HasName (.obj m fields) name) (hp : field? (.obj m fields) "params" = some (.arr n items))
    (hall : List.Forall₂ (Writes indent) items as) (hb : FieldIs (.obj m fields) "body" IsEmptyBlock) :
    function indent (Part.node indent m fields) 0 = .ok (Term.function async generator name as).text := by
  obtain ⟨u, hu, hblock⟩ := hb
  rw [function, flag_node, flag_node, flag_node, parameters_node hp hall, require_node hu]
  simp only [bind, Except.bind, ha, hg, block_empty hblock]
  cases name with
  | none =>
    rw [HasName] at hn
    rw [hn, Term.text_function]
    rfl
  | some n =>
    obtain ⟨v, hv, hid⟩ := hn
    obtain ⟨m', fields', rfl, -⟩ := exists_of_kind? hid.1
    rw [flagged_of_kind? hv hid.1, show (Part.node indent m fields).tree = .obj m fields from rfl, Term.text_function]
    simp only [if_true, require_of_field? hv, require_of_field? hid.2]
    rfl

theorem property_of (m : α) (fields : Fields α) :
    property (Part.of indent (.obj m fields)) = property (Part.node indent m fields) := by
  rw [Part.of]
  rfl

theorem spread_node {u : Tree α} {q : Nat} (x : Bool) (hu : field? (.obj m fields) "argument" = some u)
    (hw : Writes indent u a) (hq : q ≤ 1) :
    spread (Part.node indent m fields) q = .ok (.str (Term.spread x a).text, 1) := by
  rw [spread, expressionAt_node hu (hw q hq), Term.text_spread]
  rfl

theorem enters_spread {x : Bool} {u : Tree α} (hk : kind? t = some (if x then "RestElement" else "SpreadElement"))
    (hu : field? t "argument" = some u) (hw : Writes indent u a) : Enters indent t (.spread x a) := by
  obtain ⟨m, fields, rfl, -⟩ := exists_of_kind? hk
  have hkinds : ["SpreadElement", "RestElement"].contains (if x then "RestElement" else "SpreadElement") = true := by
    cases x <;> decide
  rw [Enters, property_of, property, hasKind_node hk, hkinds, expressionAt_node hu (hw 1 le_rfl), Term.text_spread]
  rfl

section Properties

variable {access : Access} {method computed : Bool} {u v : Tree α}

theorem hasKind_property {shorthand : Bool} (h : IsProperty access method computed shorthand (.obj m fields)) :
    (Part.node indent m fields).hasKind ["SpreadElement", "RestElement"] = .ok false := by
  rw [hasKind_node h.1]
  rfl

/-- Of a property its key and its value are printed, and not what it is for. -/
theorem enters_property {k a : Term} (h : IsProperty access method computed false t) (hu : field? t "key" = some u)
    (hv : field? t "value" = some v) (hk : Writes indent u k) (ha : Writes indent v a) :
    Enters indent t (.property access method computed k a) := by
  obtain ⟨m, fields, rfl, -⟩ := exists_of_kind? h.1
  rw [Enters, property_of, property, hasKind_property h, expressionAt_node hu (hk 0 (by decide)), flag_node, flag_node,
    h.2.2.2.1, h.2.2.2.2, textAt_node hv (ha 1 le_rfl), Term.text_property]
  cases computed <;> rfl

theorem enters_shorthand {n : String} {a : Term} (h : IsProperty access method false true t)
    (hu : field? t "key" = some u) (hk : IsIdentifier n u) (ha : a.text = n) : Enters indent t a := by
  obtain ⟨m, fields, rfl, -⟩ := exists_of_kind? h.1
  rw [Enters, property_of, property, hasKind_property h, expressionAt_node hu (expression_identifier hk (by decide)),
    flag_node, flag_node, h.2.2.2.1, h.2.2.2.2, ha]
  rfl

end Properties

omit [Inhabited α] in
theorem kind?_ne_none (h : Encodes a t) (hne : a ≠ .hole) : kind? t ≠ none := by
  have hk : ∃ k, kind? t = some k := by
    cases a with
    | hole => exact absurd rfl hne
    | property | shorthand | shorthandDefault => exact ⟨_, h.1.1⟩
    | name | literal | list | record | function | spread | defaulted => exact ⟨_, h.1⟩
  obtain ⟨k, hk⟩ := hk
  simp [hk]

/-- A node prints as the term that it is a node for is written, as a member of an object
where it stands in one. -/
theorem prints_of_encodes {p : Place} (ha : a.fits p = true) (h : Encodes a t) :
    (p ≠ .member ∧ p ≠ .field → a ≠ .hole → Writes indent t a) ∧ (p = .member ∨ p = .field → Enters indent t a) := by
  induction a using Term.induct generalizing t p with
  | name n =>
    refine ⟨fun _ _ q hq => ?_, fun hp => ?_⟩
    · rw [expression_identifier h (hq.trans (by decide)), Term.text_name]
    · rcases hp with rfl | rfl <;> simp [Term.fits, Place.takes] at ha
  | literal v =>
    refine ⟨fun _ _ => writes_literal h, fun hp => ?_⟩
    rcases hp with rfl | rfl <;> simp [Term.fits, Place.takes] at ha
  | list x as ih =>
    obtain ⟨hk, n, items, hi, hall⟩ := h
    simp only [Term.fits, Bool.and_eq_true, Term.fitAll_iff] at ha
    have hp := Term.ne_of_takes ha.1
    refine ⟨fun _ _ => ?_, fun hm => absurd hm (not_or.mpr hp.2)⟩
    have hitems := forall₂_of_encodeAll (P := fun t a => t = .null ∧ a = .hole ∨ kind? t ≠ none ∧
        Writes indent t a) hall
      (by
        intro a hmem u hu
        by_cases hne : a = .hole
        · subst hne
          exact .inl ⟨hu, rfl⟩
        · refine .inr ⟨kind?_ne_none hu hne, (ih a hmem (ha.2 a hmem) hu).1 ?_ hne⟩
          cases x <;> decide)
    cases x with
    | false =>
      refine writes_of_bare atomic hk (by decide) (by decide) fun m fields ht => ?_
      subst ht
      exact list_node le_rfl hi hitems
    | true =>
      refine writes_of_bare atomic hk (by decide) (by decide) fun m fields ht => ?_
      subst ht
      exact list_node (by decide) hi hitems
  | record x as ih =>
    obtain ⟨hk, n, items, hi, hall⟩ := h
    simp only [Term.fits, Bool.and_eq_true, Term.fitAll_iff] at ha
    have hp := Term.ne_of_takes ha.1
    refine ⟨fun _ _ => ?_, fun hm => absurd hm (not_or.mpr hp.2)⟩
    have hitems := forall₂_of_encodeAll (P := Enters indent) hall
      (by
        intro a hmem u hu
        refine (ih a hmem (ha.2 a hmem) hu).2 ?_
        cases x <;> decide)
    cases x with
    | false =>
      refine writes_of_bare atomic hk (by decide) (by decide) fun m fields ht => ?_
      subst ht
      exact object_node hi hitems
    | true =>
      refine writes_of_bare atomic hk (by decide) (by decide) fun m fields ht => ?_
      subst ht
      rw [Term.text_record (by simp)]
      show (do return bound (← properties (Part.node indent m fields)) atomic) = _
      rw [properties_node hi hitems]
      rfl
  | function async generator n as ih =>
    obtain ⟨hk, hasync, hgen, hn, ⟨n', items, hi, hall⟩, hbody⟩ := h
    simp only [Term.fits, Bool.and_eq_true, Term.fitAll_iff] at ha
    have hp := Term.ne_of_takes ha.1.1
    refine ⟨fun _ _ => ?_, fun hm => absurd hm (not_or.mpr hp.2)⟩
    have hitems := forall₂_of_encodeAll (P := Writes indent) hall
      fun a hmem u hu => (ih a hmem (ha.2 a hmem) hu).1 (by decide) (Term.ne_hole (ha.2 a hmem) (by decide))
    refine writes_of_bare atomic hk (by decide) (by decide) fun m fields ht => ?_
    subst ht
    show (do return bound (← function indent (Part.node indent m fields) 0) atomic) = _
    rw [function_node hasync hgen hn hi hitems hbody]
    rfl
  | hole =>
    refine ⟨fun _ hne => absurd rfl hne, fun hp => ?_⟩
    rcases hp with rfl | rfl <;> cases ha
  | spread x a ih =>
    obtain ⟨hk, u, hu, hau⟩ := h
    have hw : Writes indent u a := by
      cases x <;> simp only [Term.fits, Bool.and_eq_true] at ha <;>
        exact (ih ha.2 hau).1 (by decide) (Term.ne_hole ha.2 (by decide))
    refine ⟨fun _ _ => ?_, fun _ => enters_spread hk hu hw⟩
    cases x with
    | false =>
      refine writes_of_bare 1 hk (by decide) le_rfl fun m fields ht => ?_
      subst ht
      exact spread_node false hu hw le_rfl
    | true =>
      refine writes_of_bare 1 hk (by decide) le_rfl fun m fields ht => ?_
      subst ht
      exact spread_node true hu hw (by decide)
  | defaulted l v ihl ihv =>
    obtain ⟨hk, ⟨u, hu, hl⟩, w, hw, hv⟩ := h
    obtain ⟨htakes, -, hlf, hvf⟩ := Term.place_of_defaulted ha
    have hwl : Writes indent u l := (ihl hlf hl).1 (by decide) (Term.ne_hole hlf (by decide))
    have hwv : Writes indent w v := (ihv hvf hv).1 (by decide) (Term.ne_hole hvf (by decide))
    refine ⟨fun _ _ => ?_, fun hm => absurd hm (not_or.mpr (Term.ne_of_takes htakes).2)⟩
    refine writes_of_bare 1 hk (by decide) le_rfl fun m fields ht => ?_
    subst ht
    show defaulted (Part.node indent m fields) = _
    rw [defaulted, textAt_node hu (hwl 0 (by decide)), textAt_node hw (hwv 1 le_rfl), Term.text_defaulted]
    rfl
  | property access method computed k v ihk ihv =>
    obtain ⟨h, ⟨u, hu, hk⟩, w, hw, hv⟩ := h
    obtain ⟨hp, hkf, hvf⟩ := Term.place_of_property ha
    have hwk : Writes indent u k := by
      cases computed <;> exact (ihk hkf hk).1 (by decide) (Term.ne_hole hkf (by decide))
    have hwv : Writes indent w v := by
      rcases hp with rfl | rfl <;> exact (ihv hvf hv).1 (by decide) (Term.ne_hole hvf (by decide))
    exact ⟨fun hne => absurd hp (not_or.mpr hne), fun _ => enters_property h hu hw hwk hwv⟩
  | shorthand n =>
    obtain ⟨h, ⟨u, hu, hk⟩, -⟩ := h
    simp only [Term.fits, Bool.and_eq_true, Bool.or_eq_true, decide_eq_true_eq] at ha
    exact ⟨fun hne => absurd ha.1 (not_or.mpr hne), fun _ => enters_shorthand h hu hk (Term.text_name n)⟩
  | shorthandDefault n v ih =>
    obtain ⟨h, ⟨u, hu, hk⟩, -⟩ := h
    simp only [Term.fits, Bool.and_eq_true, decide_eq_true_eq] at ha
    exact ⟨fun hne => absurd ha.1.1 hne.2, fun _ => enters_shorthand h hu hk (Term.text_name n)⟩

end Printing

/-- Expressions and what binds names print as they are written. -/
theorem expressionSource_encodes {α : Type} [Inhabited α] {t : Tree α} {a : Term} {p : Place}
    (hp : p = .expression ∨ p = .element) (ha : a.fits p = true) (h : Encodes a t) :
    expressionSource t 0 = .ok (.str a.text) := by
  rcases hp with rfl | rfl <;>
    exact (prints_of_encodes ha h).1 (by decide) (Term.ne_hole ha (by decide)) 0 (by decide)

/-- Two nodes, both for expressions or both for what binds names, print, and they print the
same text just if they are nodes for the same term. -/
theorem expressionSource_eq_iff_encode {α : Type} [Inhabited α] {t u : Tree α} {a b : Term} {p : Place}
    (hp : p = .expression ∨ p = .element) (ht : Encodes a t) (hu : Encodes b u) (ha : a.fits p = true)
    (hb : b.fits p = true) (hpa : a.plain = true) (hpb : b.plain = true) :
    ∃ x y, expressionSource t 0 = .ok (.str x) ∧ expressionSource u 0 = .ok (.str y) ∧ (x = y ↔ a = b) := by
  exact ⟨a.text, b.text, expressionSource_encodes hp ha ht, expressionSource_encodes hp hb hu,
    Term.text_inj ha hb hpa hpb, fun h => h ▸ rfl⟩

section Instances

mutual
/-- The term as a document. -/
def Term.tree : Term → Json
  | .name n => identifier (.str n)
  | .literal v => make "Literal" [("value", v.value)]
  | .list binds as => make (if binds then "ArrayPattern" else "ArrayExpression") [("elements", listOf (trees as))]
  | .record binds as => make (if binds then "ObjectPattern" else "ObjectExpression") [("properties", listOf (trees as))]
  | .function async generator n as => make "FunctionExpression"
      [("id", n.elim .null fun n => identifier (.str n)), ("params", listOf (trees as)),
        ("body", make "BlockStatement" [("body", listOf [])]), ("generator", .bool generator), ("async", .bool async)]
  | .hole => .null
  | .spread binds a => make (if binds then "RestElement" else "SpreadElement") [("argument", a.tree)]
  | .defaulted l r => make "AssignmentPattern" [("left", l.tree), ("right", r.tree)]
  | .property access method computed k v => make "Property"
      [("key", k.tree), ("value", v.tree), ("kind", .str access.text), ("computed", .bool computed),
        ("method", .bool method), ("shorthand", .bool false)]
  | .shorthand n => make "Property"
      [("key", identifier (.str n)), ("value", identifier (.str n)), ("kind", .str "init"), ("shorthand", .bool true)]
  | .shorthandDefault n v => make "Property"
      [("key", identifier (.str n)),
        ("value", make "AssignmentPattern" [("left", identifier (.str n)), ("right", v.tree)]), ("kind", .str "init"),
        ("shorthand", .bool true)]
def Term.trees : List Term → List Json
  | [] => []
  | a :: as => a.tree :: trees as
end

theorem Term.encodes_tree (a : Term) : Encodes a a.tree := by
  have all : ∀ as : List Term, (∀ a ∈ as, Encodes a a.tree) → EncodeAll as (trees as) := by
    intro as h
    induction as with
    | nil => rfl
    | cons a as ih =>
      rw [forall_mem_cons] at h
      exact ⟨_, _, rfl, h.1, ih h.2⟩
  induction a using Term.induct with
  | name n => exact ⟨rfl, rfl⟩
  | literal v => exact ⟨rfl, rfl, rfl, rfl, rfl⟩
  | list x as ih => cases x <;> exact ⟨rfl, _, _, rfl, all as ih⟩
  | record x as ih => cases x <;> exact ⟨rfl, _, _, rfl, all as ih⟩
  | function async generator n as ih =>
    refine ⟨rfl, rfl, rfl, ?_, ⟨_, _, rfl, all as ih⟩, _, rfl, rfl, _, _, rfl, rfl⟩
    cases n with
    | none => rfl
    | some n => exact ⟨_, rfl, rfl, rfl⟩
  | hole => rfl
  | spread x a ih => cases x <;> exact ⟨rfl, _, rfl, ih⟩
  | defaulted l r ihl ihr => exact ⟨rfl, ⟨_, rfl, ihl⟩, _, rfl, ihr⟩
  | property access method computed k v ihk ihv =>
    exact ⟨⟨rfl, rfl, rfl, rfl, rfl⟩, ⟨_, rfl, ihk⟩, _, rfl, ihv⟩
  | shorthand n => exact ⟨⟨rfl, rfl, rfl, rfl, rfl⟩, ⟨_, rfl, rfl, rfl⟩, _, rfl, rfl, rfl⟩
  | shorthandDefault n v ih =>
    exact ⟨⟨rfl, rfl, rfl, rfl, rfl⟩, ⟨_, rfl, rfl, rfl⟩, _, rfl, rfl, ⟨_, rfl, rfl, rfl⟩, _, rfl, ih⟩

/-- A function of a pattern with a default, whose default holds a literal. -/
def nested (v : Literal) : Term :=
  .record false
    [.shorthand "a", .property .init false true (.list false [.hole, .name "b"]) (.literal .null),
      .property .init false false (.literal (.text "c d"))
        (.function true false (some "f")
          [.defaulted (.record true
              [.shorthand "e",
                .property .init false false (.name "g") (.defaulted (.list true [.hole, .hole]) (.literal v)),
                .spread true (.name "h")]) (.record false []),
            .spread true (.record true [])]),
      .spread false (.name "i")]

theorem expressionSource_eq_iff_encode_nested :
    ((nested (.text "1")).fits .expression = true ∧ (nested (.number 1)).fits .expression = true ∧
      (nested (.text "1")).plain = true ∧ (nested (.number 1)).plain = true) ∧
    ∃ x y, expressionSource (nested (.text "1")).tree 0 = .ok (.str x) ∧
      expressionSource (nested (.number 1)).tree 0 = .ok (.str y) ∧ (x = y ↔ nested (.text "1") = nested (.number 1)) :=
  have h : (nested (.text "1")).fits .expression = true ∧ (nested (.number 1)).fits .expression = true ∧
      (nested (.text "1")).plain = true ∧ (nested (.number 1)).plain = true := by decide
  ⟨h, expressionSource_eq_iff_encode (.inl rfl) (Term.encodes_tree _) (Term.encodes_tree _) h.1 h.2.1 h.2.2.1 h.2.2.2⟩

/-- For each of the four forms, a term of that form and another one, and the place of both. -/
def underprinted : List (Place × Term × Term) :=
  let member (access : Access) (method : Bool) :=
    Term.record false [.property access method false (.name "x") (.function false false none [])]
  [(.expression, member .get false, member .init false), (.expression, member .init true, member .init false),
    (.element, .record true [.shorthandDefault "a" (.literal (.number 1))], .record true [.shorthand "a"]),
    (.expression, .list false [.hole], .list false [])]

/-- In each of the four forms different terms print the same text. -/
theorem expressionSource_drops : underprinted.Forall fun q => q.2.1 ≠ q.2.2 ∧ q.2.1.fits q.1 = true ∧
    q.2.2.fits q.1 = true ∧ Encodes q.2.1 q.2.1.tree ∧ Encodes q.2.2 q.2.2.tree ∧
      ∃ text, expressionSource q.2.1.tree 0 = .ok (.str text) ∧ expressionSource q.2.2.tree 0 = .ok (.str text) := by
  have hall : underprinted.all (fun q => (q.1 == .expression || q.1 == .element) && q.2.1.fits q.1 && q.2.2.fits q.1 &&
      q.2.1.text == q.2.2.text) = true := by decide +kernel
  refine forall_iff_forall_mem.mpr fun q hq => ?_
  have h := all_eq_true.mp hall q hq
  simp only [Bool.and_eq_true, Bool.or_eq_true, beq_iff_eq] at h
  obtain ⟨⟨⟨hp, ha⟩, hb⟩, htext⟩ := h
  have hne : q.2.1 ≠ q.2.2 := by
    simp only [underprinted, mem_cons, not_mem_nil, or_false] at hq
    rcases hq with rfl | rfl | rfl | rfl <;> simp
  refine ⟨hne, ha, hb, q.2.1.encodes_tree, q.2.2.encodes_tree, q.2.1.text,
    expressionSource_encodes hp ha q.2.1.encodes_tree, ?_⟩
  rw [htext]
  exact expressionSource_encodes hp hb q.2.2.encodes_tree

end Instances

end DebugGuards.Printing
