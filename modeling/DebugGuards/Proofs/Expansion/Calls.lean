import DebugGuards.Proofs.Expansion.Atomicity

/-! Statements without a verdict. What stops a statement of a well-formed module is read
off it: the name it calls, the name that this is bound to, and for a deprecation the
arguments one after the other. The reader of deprecations, which checks as it goes,
stops for just these reasons. -/

namespace DebugGuards.Expansion

open DebugGuards.Tree Node List

section Rules
variable {α : Type}

/-- The name that a statement calls. -/
def calledName? (x : Tree α) : Option String :=
  if isCall (expressionOf x) then
    (field? (expressionOf x) "callee").bind fun c => if isIdentifier c then some (textAt c "name") else none
  else none

/-- The name that a module imports from the tools module under a bound name. -/
def importedAs? (o : Options) (ys : List (Tree α)) (n : String) : Option String :=
  ((toolsOf o ys).filter fun s => s.2 == n).getLast?.map Prod.fst

/-- The name that a key stands for: that of an identifier, or the text of a literal. -/
def keyText? (key : Tree α) : Option String :=
  if isIdentifier key then some (textAt key "name")
  else if ((kind? key).map literalKinds.contains).getD false then
    match (field? key "value").getD .null with
    | .null => none
    | v => some v.text
  else none

/-- The name of a property, if it is not computed. -/
def keyOf? (p : Tree α) : Option String :=
  if ((field? p "computed").getD .null).truth then none else (field? p "key").bind keyText?

def isStaticProperty (p : Tree α) : Bool := ((kind? p).map propertyKinds.contains).getD false

/-- The value of a literal, null if it is none. -/
def valueOf (t : Tree α) : Tree α :=
  if ((kind? t).map literalKinds.contains).getD false then (field? t "value").getD .null else .null

/-- The value of a property of an object literal: that of the last property of the name,
null if there is none or its value is no literal. -/
def propertyOf (t : Tree α) (key : String) : Tree α :=
  (((listAt t "properties").filter fun p => isStaticProperty p && keyOf? p == some key).getLast?.map fun p =>
    valueOf ((field? p "value").getD .null)).getD .null

/-- The line on which a call starts, null if unknown. -/
def lineOf (call : Tree Mark) : Tree Mark :=
  match Node.line call with
  | .ok line => line
  | .error _ => .null

/-- What is wrong with the arguments of a deprecation. -/
def deprecationFailure? (call : Tree Mark) : Option Failure :=
  match listAt call "arguments" with
  | message :: _ :: details :: _ =>
    if !isObjectLiteral details then
      some (badDeprecation (lineOf call) "meta information must be an object literal")
    else if !(propertyOf details "id").truth then some (.incompleteMeta "id")
    else if !(propertyOf details "until").truth then some (.incompleteMeta "until")
    else if !isStringLiteral message then some (badDeprecation (lineOf call) "message must be a string literal")
    else none
  | arguments =>
    let count := arguments.length
    some (badDeprecation (lineOf call) s!"expected (message, predicate, meta), got {count} argument(s)")

/-- Why a statement of a module cannot be expanded: in strict mode, the helper it calls is
no diagnostic; or it is a deprecation with bad arguments. -/
def statementFailure? (o : Options) (t x : Tree Mark) : Option Failure :=
  match (calledName? x).bind (importedAs? o (bodyOf t)) with
  | none => none
  | some imported =>
    match Diagnostic.ofName? (.str imported) with
    | some .deprecation => deprecationFailure? (expressionOf x)
    | some _ => none
    | none => if o.strict then some (.unknownHelper imported o.toolsSource) else none

end Rules

section Helpers

theorem get?_foldl_enterHelper (ss : List (String × String)) (table : Table Scalar Helper) (n : String) :
    Table.get? (ss.foldl enterHelper table) (.str n) =
      (((ss.filter fun s => s.2 == n).getLast?).map fun s => ⟨.str n, .str s.1⟩).or (Table.get? table (.str n)) := by
  induction ss using List.reverseRecOn with
  | nil => rfl
  | append_singleton ss s ih =>
    rw [foldl_append, foldl_cons, foldl_nil, enterHelper, Table.get?_set, filter_append, ih]
    by_cases hn : s.2 = n
    · subst hn
      simp
    · simp [hn]

/-- What a name is bound to. -/
theorem get?_helpersOf {α : Type} (o : Options) (ys : List (Tree α)) (n : String) :
    Table.get? (helpersOf o ys) (.str n) = (importedAs? o ys n).map fun i => ⟨.str n, .str i⟩ := by
  rw [helpersOf, get?_foldl_enterHelper, importedAs?]
  cases ((toolsOf o ys).filter fun s => s.2 == n).getLast? <;> rfl

end Helpers

section Reading

variable {x call details p : Tree Mark}

theorem expressionOf_eq (hx : isNode x = true) : x.get "expression" = .ok (expressionOf x) := by
  obtain ⟨m, fields, _, rfl, _⟩ := exists_of_isNode hx
  rfl

theorem get_eq (hx : isNode x = true) (key : String) : x.get key = .ok ((field? x key).getD .null) := by
  obtain ⟨m, fields, _, rfl, _⟩ := exists_of_isNode hx
  rfl

theorem legal_expression (hl : Legal x) (hx : isNode x = true) (hc : isCall (expressionOf x) = true) :
    Legal (expressionOf x) := by
  cases hf : field? x "expression" with
  | none =>
    have : expressionOf x = .null := by rw [expressionOf, show Table.get? x.fields "expression" = none from hf]; rfl
    rw [this] at hc
    cases hc
  | some e =>
    have : expressionOf x = e := by rw [expressionOf, show Table.get? x.fields "expression" = some e from hf]; rfl
    rw [this]
    exact hl.field hx hf (by decide)

theorem calleeName_eq (hl : Legal x) (hx : isNode x = true) :
    calleeName (expressionOf x) = .ok (((calledName? x).map Tree.str).getD .null) := by
  rw [calleeName, calledName?]
  split
  · next hc =>
    have hnode := isNode_of_hasKind hc
    rw [get_eq hnode]
    cases hf : field? (expressionOf x) "callee" with
    | none => rfl
    | some c =>
      show identifierName c = _
      by_cases hid : isIdentifier c = true
      · have hcl : Legal c := (legal_expression hl hx hc).field hnode hf (by decide)
        rw [identifierName_eq hcl hid, Option.bind_some, if_pos hid]
        rfl
      · rw [identifierName, if_neg hid, Option.bind_some, if_neg hid]
        rfl
  · rfl

theorem calledHelper_eq (o : Options) (t : Tree Mark) (hl : Legal x) (hx : isNode x = true) :
    calledHelper (helpersOf o (bodyOf t)) x = .ok ((calledName? x).bind fun n =>
      (importedAs? o (bodyOf t) n).map fun i => (.str n, ⟨.str n, .str i⟩)) := by
  rw [calledHelper, expressionOf_eq hx]
  simp only [bind, Except.bind, calleeName_eq hl hx]
  cases calledName? x with
  | none => rfl
  | some n =>
    show Except.ok ((Table.get? (helpersOf o (bodyOf t)) (.str n)).map fun helper => (Tree.str n, helper)) = _
    rw [get?_helpersOf, Option.map_map]
    rfl

end Reading

section Properties

variable {p details call message : Tree Mark}

theorem kindIn_eq (hp : isNode p = true) (names : List String) :
    kindIn p names = .ok (((kind? p).map names.contains).getD false) := by
  obtain ⟨m, fields, k, rfl, hk⟩ := exists_of_isNode hp
  rw [kindIn, kind_of_kind? hk, hk]
  refine congrArg Except.ok ?_
  show (names.map Scalar.str).contains (.str k) = names.contains k
  induction names with
  | nil => rfl
  | cons n names ih =>
    rw [map_cons, contains_cons, contains_cons, ih]
    congr 1
    simp [BEq.beq]

theorem literalValue_eq (hp : isNode p = true) : literalValue p = .ok (valueOf p) := by
  rw [literalValue, isLiteral, kindIn_eq hp, valueOf]
  show (if _ then _ else _) = _
  split
  · exact get_eq hp "value"
  · rfl

theorem property_parts (hl : Legal p) (hs : isStaticProperty p = true) :
    ∃ key value, field? p "key" = some key ∧ field? p "value" = some value ∧ isNode key = true ∧ Legal key ∧
      isNode value = true := by
  obtain ⟨k, hk⟩ : ∃ k, kind? p = some k := by
    cases hk : kind? p with
    | none => rw [isStaticProperty, hk] at hs; cases hs
    | some k => exact ⟨k, rfl⟩
  have hnode : isNode p = true := by rw [isNode, hk]; rfl
  have hsound := hl.sound hnode
  have hparts : holds p "key" isNode = true ∧ holds p "value" isNode = true := by
    rw [isStaticProperty, hk] at hs
    have hmem : k = "Property" ∨ k = "ObjectProperty" := by simpa [propertyKinds] using hs
    rcases hmem with rfl | rfl <;>
    · rw [sound, hk] at hsound
      exact (Bool.and_eq_true _ _).mp hsound
  rw [Node.holds, Node.holds] at hparts
  cases hkey : field? p "key" with
  | none => rw [hkey] at hparts; cases hparts.1
  | some key =>
    cases hvalue : field? p "value" with
    | none => rw [hvalue] at hparts; cases hparts.2
    | some value =>
      rw [hkey, hvalue] at hparts
      exact ⟨key, value, rfl, rfl, hparts.1, hl.field hnode hkey (by decide), hparts.2⟩

theorem propertyKey_eq (hl : Legal p) (hs : isStaticProperty p = true) :
    propertyKey p = .ok (((keyOf? p).map Tree.str).getD .null) := by
  obtain ⟨key, value, hkey, _, hkn, hkl, _⟩ := property_parts hl hs
  have hnode : isNode p = true := by
    cases hk : kind? p with
    | none => rw [isStaticProperty, hk] at hs; cases hs
    | some k => rw [isNode, hk]; rfl
  rw [propertyKey, get_eq hnode, get_eq hnode, keyOf?, hkey, Option.bind_some, keyText?]
  simp only [bind, Except.bind, Option.getD_some]
  split
  · rfl
  by_cases hid : isIdentifier key = true
  · rw [if_pos hid, if_pos hid, require_text (identifier_name hkl hid)]
    rfl
  rw [if_neg hid, if_neg hid, isLiteral, kindIn_eq hkn]
  dsimp only
  split
  · rw [get_eq hkn]
    generalize (field? key "value").getD .null = v
    cases v with
    | scalar s => cases s <;> rfl
    | arr | obj => rfl
  · rfl

/-- A property entered into a table of static properties. -/
def enterProperty (table : Table Scalar (Scalar × Tree Mark)) (p : Tree Mark) : Table Scalar (Scalar × Tree Mark) :=
  if isStaticProperty p then
    match keyOf? p with
    | none => table
    | some k => Table.set table (.str k)
        (((Table.get? table (.str k)).map Prod.fst).getD (.str k), valueOf ((field? p "value").getD .null))
  else table

/-- A table entered by key: each entry repeats its key. -/
def Repeats (table : Table Scalar (Scalar × Tree Mark)) : Prop := ∀ e ∈ table, e.2.1 = e.1

theorem Repeats.enter {table : Table Scalar (Scalar × Tree Mark)} (ht : Repeats table) (p : Tree Mark) :
    Repeats (enterProperty table p) := by
  rw [enterProperty]
  split
  · split
    · exact ht
    · next k _ =>
      intro e he
      rcases Table.mem_set he with he | rfl
      · exact ht e he
      · cases hg : Table.get? table (.str k) with
        | none => rfl
        | some v => exact ht (.str k, v) (Table.mem_of_get? hg)
  · exact ht

theorem Repeats.get? {table : Table Scalar (Scalar × Tree Mark)} (ht : Repeats table) (k : Scalar) :
    Table.get? (table.map Prod.snd) k = (Table.get? table k).map Prod.snd := by
  induction table with
  | nil => rfl
  | cons e table ih =>
    have he := ht e (mem_cons_self ..)
    rw [map_cons, Table.get?, Table.get?, he, ih fun e he => ht e (mem_cons_of_mem _ he)]
    split <;> rfl

theorem get?_foldl_enterProperty (ps : List (Tree Mark)) (key : String) :
    (Table.get? (ps.foldl enterProperty []) (.str key)).map Prod.snd =
      (ps.filter fun p => isStaticProperty p && keyOf? p == some key).getLast?.map fun p =>
        valueOf ((field? p "value").getD .null) := by
  induction ps using List.reverseRecOn with
  | nil => rfl
  | append_singleton ps p ih =>
    rw [foldl_append, foldl_cons, foldl_nil, enterProperty, filter_append]
    cases hs : isStaticProperty p with
    | false => simpa [hs] using ih
    | true =>
      cases hk : keyOf? p with
      | none => simpa [hs, hk] using ih
      | some k =>
        by_cases hkey : k = key
        · subst hkey
          simp [hs, hk, Table.get?_set]
        · simpa [hs, hk, hkey, Table.get?_set, Ne.symm hkey] using ih

/-- The static properties of an object literal. -/
theorem staticProperties_eq (hl : Legal details) (ho : isObjectLiteral details = true) :
    ∃ table, staticProperties details = .ok (some table) ∧
      ∀ key, (Table.get? table (.str key)).getD .null = propertyOf details key := by
  have hnode := isNode_of_hasKind ho
  have hsound := hl.sound hnode
  rw [sound, hasKind_iff.mp ho] at hsound
  obtain ⟨helems, hnodes⟩ := elementsOf_list hnode hsound
  refine ⟨((listAt details "properties").foldl enterProperty []).map Prod.snd, ?_, fun key => ?_⟩
  · rw [staticProperties, ho, helems]
    refine congrArg (fun r : Except Failure _ => r.map fun props => some (props.map Prod.snd))
      (Contents.foldlM_eq_foldl (g := enterProperty) (fun p hp table => ?_) [])
    have hpn := hnodes p hp
    have hpl := hl.listAt hnode (by decide) hp hpn
    rw [isProperty, kindIn_eq hpn, enterProperty]
    cases hs : isStaticProperty p with
    | false =>
      rw [isStaticProperty] at hs
      rw [hs]
      rfl
    | true =>
      obtain ⟨_, value, _, hvalue, _, _, hvn⟩ := property_parts hpl hs
      rw [propertyKey_eq hpl hs]
      rw [isStaticProperty] at hs
      rw [hs]
      cases hk : keyOf? p with
      | none => rfl
      | some k =>
        simp only [bind, Except.bind, get_eq hpn, hvalue, Option.getD_some, literalValue_eq hvn]
        rfl
  · have hrep : Repeats ((listAt details "properties").foldl enterProperty []) :=
      foldlRecOn _ _ (fun _ he => absurd he not_mem_nil) fun _ ht p _ => ht.enter p
    rw [hrep.get?, get?_foldl_enterProperty, propertyOf]

end Properties

section Deprecations

variable {call message : Tree Mark} {f : Failure}

theorem call_parts (hl : Legal call) (hc : isCall call = true) :
    call.elementsOf "arguments" = .ok (listAt call "arguments") ∧
      (∀ a ∈ listAt call "arguments", isArgument a = true) ∧
      ((Table.get? call.fields "arguments").map Tree.isObject).getD false = false ∧
      Node.line call = .ok (lineOf call) := by
  have hnode := isNode_of_hasKind hc
  have hsound := hl.sound hnode
  rw [sound, hasKind_iff.mp hc] at hsound
  obtain ⟨hargs, hloc⟩ := (Bool.and_eq_true _ _).mp hsound
  obtain ⟨helems, hall⟩ := elementsOf_list hnode hargs
  refine ⟨helems, hall, ?_, ?_⟩
  · rw [holdsIf, field?] at hargs
    cases hget : Table.get? call.fields "arguments" with
    | none => rfl
    | some v =>
      rw [hget] at hargs
      cases v with
      | scalar | obj => cases hargs
      | arr m items => rfl
  · have hline : ∃ l, Node.line call = .ok l := by
      rw [hasLocation, holdsIf, field?] at hloc
      rw [Node.line]
      cases hget : Table.get? call.fields "loc" with
      | none => exact ⟨_, rfl⟩
      | some loc =>
        rw [hget] at hloc
        cases loc with
        | scalar | arr => exact ⟨_, rfl⟩
        | obj m fs =>
          simp only [holdsIf, field?, Tree.fields] at hloc
          simp only [Tree.get?, bind, Except.bind]
          cases hstart : Table.get? fs "start" with
          | none => exact ⟨_, rfl⟩
          | some start =>
            rw [hstart] at hloc
            cases start with
            | scalar | arr => cases hloc
            | obj => exact ⟨_, rfl⟩
    obtain ⟨l, hl⟩ := hline
    rw [lineOf, hl]

theorem stringValue_eq (hl : Legal message) :
    if isStringLiteral message then ∃ text, stringValue message = .ok (.str text)
    else stringValue message = .ok .null := by
  rw [stringValue]
  split
  · next hs => exact ⟨_, require_text (stringLiteral_value hl hs)⟩
  · rfl

theorem readDeprecation_cases (hl : Legal call) (hc : isCall call = true) :
    (∃ f, deprecationFailure? call = some f ∧ readDeprecation call = .error f) ∨
    deprecationFailure? call = none ∧ ∃ r, readDeprecation call = .ok r := by
  obtain ⟨helems, hargs, hlist, hline⟩ := call_parts hl hc
  have hnode := isNode_of_hasKind hc
  rw [readDeprecation, helems, hline, deprecationFailure?]
  simp only [bind, Except.bind]
  generalize hl' : listAt call "arguments" = args at hargs
  rcases args with _ | ⟨message, _ | ⟨predicate, _ | ⟨details, rest⟩⟩⟩
  · exact .inl ⟨_, rfl, rfl⟩
  · exact .inl ⟨_, rfl, rfl⟩
  · exact .inl ⟨_, rfl, rfl⟩
  · have hlegal : ∀ a ∈ message :: predicate :: details :: rest, Legal a := fun a ha =>
      hl.listAt hnode (by decide) (hl' ▸ ha) ((Bool.and_eq_true _ _).mp (hargs a ha)).1
    have hdetails := hlegal details (by simp)
    have hmessage := stringValue_eq (hlegal message (by simp))
    simp only [hlist, Bool.false_eq_true, if_false]
    by_cases ho : isObjectLiteral details = true
    · obtain ⟨table, htable, hget⟩ := staticProperties_eq hdetails ho
      simp only [htable, ho, Deprecation.ofProperties, hget, Bool.not_true, Bool.false_eq_true, if_false]
      by_cases hid : (propertyOf details "id").truth = true
      · by_cases huntil : (propertyOf details "until").truth = true
        · by_cases hs : isStringLiteral message = true
          · rw [if_pos hs] at hmessage
            obtain ⟨text, htext⟩ := hmessage
            refine .inr ⟨by simp [hid, huntil, hs], ?_⟩
            simp only [hid, huntil, htext, Bool.not_true, Bool.false_eq_true, if_false]
            exact ⟨_, rfl⟩
          · rw [if_neg hs] at hmessage
            refine .inl ⟨badDeprecation (lineOf call) "message must be a string literal", by simp [hid, huntil, hs], ?_⟩
            simp only [hid, huntil, hmessage, Bool.not_true, Bool.false_eq_true, if_false]
            rfl
        · exact .inl ⟨.incompleteMeta "until", by simp [hid, huntil], by simp [hid, huntil]⟩
      · exact .inl ⟨.incompleteMeta "id", by simp [hid], by simp [hid]⟩
    · refine .inl ⟨badDeprecation (lineOf call) "meta information must be an object literal", by simp [ho], ?_⟩
      rw [staticProperties]
      simp only [ho, Bool.not_false, if_true]
      rfl

end Deprecations

section Verdicts

variable {o : Options} {t x : Tree Mark} {f : Failure}

/-- The version can be compared with the range of the deprecation that a statement calls. -/
def ComparableAt (o : Options) (t x : Tree Mark) : Prop :=
  (calledName? x).bind (importedAs? o (bodyOf t)) = some "deprecate" →
    ∀ r, readDeprecation (expressionOf x) = .ok r → ∃ b, isReached o r.2.1 = .ok b

/-- The version can be compared with the range of every deprecation that is judged. -/
def Comparable (o : Options) (t : Tree Mark) : Prop := ∀ x ∈ statementsOf o t, ComparableAt o t x

theorem eq_of_ofName? {i : String} (hi : Diagnostic.ofName? (.str i) = some .deprecation) : i = "deprecate" := by
  rw [Diagnostic.ofName?.eq_def] at hi
  split at hi <;> simp_all

/-- A statement has no verdict for just one of the reasons given. -/
theorem verdictOf_cases (hl : Legal x) (hx : isNode x = true) (hc : ComparableAt o t x) :
    (∃ f, statementFailure? o t x = some f ∧ verdictOf o t x = .error f) ∨
    statementFailure? o t x = none ∧ ∃ v, verdictOf o t x = .ok v := by
  rw [verdictOf, verdict, calledHelper_eq o t hl hx, statementFailure?]
  cases hname : calledName? x with
  | none => exact .inr ⟨rfl, _, rfl⟩
  | some n =>
    simp only [Option.bind_some]
    cases himp : importedAs? o (bodyOf t) n with
    | none => exact .inr ⟨rfl, _, rfl⟩
    | some i =>
      have hcall : isCall (expressionOf x) = true := by
        rw [calledName?] at hname
        split at hname
        · assumption
        · cases hname
      have hcl := legal_expression hl hx hcall
      simp only [Option.map_some, bind, Except.bind]
      cases hd : Diagnostic.ofName? (.str i) with
      | none =>
        simp only
        split
        · exact .inl ⟨_, rfl, rfl⟩
        · exact .inr ⟨rfl, _, rfl⟩
      | some d =>
        simp only
        cases d with
        | assertion | warning =>
          refine .inr ⟨rfl, ?_⟩
          rw [Diagnostic.verdict, (call_parts hcl hcall).1]
          exact ⟨_, rfl⟩
        | deprecation =>
          obtain ⟨f, hf, hread⟩ | ⟨hf, r, hread⟩ := readDeprecation_cases hcl hcall
          · exact .inl ⟨f, hf, by rw [deprecation_verdict, hread]⟩
          · obtain ⟨b, hb⟩ := hc (by rw [hname, Option.bind_some, himp, eq_of_ofName? hd]) r hread
            refine .inr ⟨hf, ?_⟩
            rw [Diagnostic.verdict, hread]
            simp only [bind, Except.bind, hb]
            exact ⟨_, rfl⟩

end Verdicts

end DebugGuards.Expansion
