import DebugGuards.Proofs.Printing.Lexemes

/-! Lists, objects, functions and binding patterns as terms, and the texts that they are
written as. Terms that differ have different texts, if four forms are left alone: accessors
and methods, of which the text does not show the kind, names bound with a default by a
shorthand, of which it does not show the default, and a list of one hole, which is written
as the empty list is. -/

namespace DebugGuards.Printing

open Node List

inductive Literal where
  | text (s : String)
  | number (i : Int)
  | truth (b : Bool)
  | null

namespace Literal

def value {α : Type} : Literal → Tree α
  | text s => .str s
  | number i => .int i
  | truth b => .bool b
  | null => .null

def lexeme : Literal → Lexeme
  | text s => .quoted s
  | number i => .number i
  | truth b => .word (if b then "true" else "false")
  | null => .word "null"

/-- The literals that may be the key of a property. -/
def isKey : Literal → Bool
  | text _ | number _ => true
  | truth _ | null => false

theorem rawLiteral_value {α : Type} (v : Literal) : rawLiteral (v.value : Tree α) = v.lexeme.text := by
  cases v with
  | text s => rw [value, rawLiteral, escapeText_eq]; rfl
  | number i => exact (String.ofList_toList).symm
  | truth b => cases b <;> exact (String.ofList_toList).symm
  | null => exact (String.ofList_toList).symm

theorem lexeme_inj {v w : Literal} (h : v.lexeme = w.lexeme) : v = w := by
  cases v <;> cases w <;> grind [lexeme]

end Literal

/-- What a property of an object is for. -/
inductive Access where
  | init
  | get
  | set
deriving DecidableEq

def Access.text : Access → String
  | init => "init"
  | get => "get"
  | set => "set"

/-- Expressions, binding patterns and what they consist of. Lists, records and spreads are
parts of a pattern if they bind names. A function has no statements. -/
inductive Term where
  | name (n : String)
  | literal (v : Literal)
  | list (binds : Bool) (items : List Term)
  | record (binds : Bool) (members : List Term)
  | function (async generator : Bool) (name : Option String) (params : List Term)
  | hole
  | spread (binds : Bool) (argument : Term)
  | defaulted (target value : Term)
  | property (access : Access) (method computed : Bool) (key value : Term)
  | shorthand (n : String)
  | shorthandDefault (n : String) (value : Term)

/-- Where a term can stand. -/
inductive Place where
  | expression
  | item
  | key
  | member
  | target
  | binding
  | element
  | slot
  | field
deriving DecidableEq

/-- The places of expressions, or those of the targets of bindings. -/
def Place.takes : Bool → Place → Bool
  | false, p => p = .expression || p = .item
  | true, p => p = .target || p = .binding || p = .element || p = .slot

namespace Term

section Syntax

/-- Induction over the parts of a term, those in lists by membership. -/
@[elab_as_elim]
theorem induct {P : Term → Prop} (name : ∀ n, P (.name n)) (literal : ∀ v, P (.literal v))
    (list : ∀ binds as, (∀ a ∈ as, P a) → P (.list binds as))
    (record : ∀ binds as, (∀ a ∈ as, P a) → P (.record binds as))
    (function : ∀ async generator n as, (∀ a ∈ as, P a) → P (.function async generator n as)) (hole : P .hole)
    (spread : ∀ binds a, P a → P (.spread binds a)) (defaulted : ∀ t v, P t → P v → P (.defaulted t v))
    (property : ∀ access method computed k v, P k → P v → P (.property access method computed k v))
    (shorthand : ∀ n, P (.shorthand n)) (shorthandDefault : ∀ n v, P v → P (.shorthandDefault n v))
    (a : Term) : P a := by
  refine @Term.rec P (fun as => ∀ a ∈ as, P a) name literal list record function hole spread defaulted
    property shorthand shorthandDefault ?_ ?_ a
  · simp
  · intro a as ha has
    exact forall_mem_cons.mpr ⟨ha, has⟩

def isFunction : Term → Bool
  | .function _ _ _ _ => true
  | _ => false

mutual
/-- Whether a term can stand in a place. A key that is not computed may be any word. -/
def fits : Term → Place → Bool
  | .name n, p => p = .key && (Lexeme.word n).isSound || (p.takes false || p.takes true) && isName n
  | .literal v, p => p.takes false || p = .key && v.isKey
  | .list binds as, p => p.takes binds && fitAll as (if binds then .slot else .item)
  | .record binds as, p => p.takes binds && fitAll as (if binds then .field else .member)
  | .function _ _ n as, p => p.takes false && n.all isName && fitAll as .element
  | .hole, p => p = .item || p = .slot
  | .spread false a, p => (p = .item || p = .member) && fits a .expression
  | .spread true a, p => (p = .element || p = .slot || p = .field) && fits a .target
  | .defaulted t v, p => (p = .binding || p = .element || p = .slot) && fits t .target && fits v .expression
  | .property access method computed k v, p => fits k (if computed then .expression else .key) &&
      (p = .member && fits v .expression && (access = .init && !method || v.isFunction) ||
        p = .field && fits v .binding && access = .init && !method)
  | .shorthand n, p => (p = .member || p = .field) && isName n
  | .shorthandDefault n v, p => p = .field && isName n && fits v .expression
def fitAll : List Term → Place → Bool
  | [], _ => true
  | a :: as, p => fits a p && fitAll as p
end

theorem fitAll_iff {as : List Term} {p : Place} : fitAll as p = true ↔ ∀ a ∈ as, a.fits p = true := by
  induction as with
  | nil => simp [fitAll]
  | cons a as ih => simp [fitAll, ih]

def isLoneHole : List Term → Bool
  | [.hole] => true
  | _ => false

mutual
/-- Nothing in a term is one of the four forms. -/
def plain : Term → Bool
  | .name _ | .literal _ | .hole | .shorthand _ => true
  | .list _ as => !isLoneHole as && plainAll as
  | .record _ as | .function _ _ _ as => plainAll as
  | .spread _ a => plain a
  | .defaulted t v => plain t && plain v
  | .property access method _ k v => access = .init && !method && plain k && plain v
  | .shorthandDefault _ _ => false
def plainAll : List Term → Bool
  | [] => true
  | a :: as => plain a && plainAll as
end

theorem plainAll_iff {as : List Term} : plainAll as = true ↔ ∀ a ∈ as, a.plain = true := by
  induction as with
  | nil => simp [plainAll]
  | cons a as ih => simp [plainAll, ih]

end Syntax

section Lexemes

/-- A function up to its parameters. -/
def functionHead (async generator : Bool) (name : Option String) : List Lexeme :=
  (if async then [.word "async", .mark .blank] else []) ++ .word "function" ::
    ((if generator then [.mark .star] else []) ++ name.elim [] fun n => [.mark .blank, .word n])

mutual
def lexemes : Term → List Lexeme
  | .name n => [.word n]
  | .literal v => [v.lexeme]
  | .list _ as => .mark .openBracket :: (lexemesOf as ++ [.mark .closeBracket])
  | .record binds as =>
    if as.isEmpty && !binds then [.mark .openBrace, .mark .closeBrace]
    else .mark .openBrace :: .mark .blank :: (lexemesOf as ++ [.mark .blank, .mark .closeBrace])
  | .function async generator n as => functionHead async generator n ++ .mark .openParen ::
      (lexemesOf as ++ [.mark .closeParen, .mark .blank, .mark .openBrace, .mark .closeBrace])
  | .hole => []
  | .spread _ a => .mark .dots :: lexemes a
  | .defaulted t v => lexemes t ++ .mark .blank :: .mark .equals :: .mark .blank :: lexemes v
  | .property _ _ computed k v =>
    (if computed then .mark .openBracket :: (lexemes k ++ [.mark .closeBracket]) else lexemes k) ++
      .mark .colon :: .mark .blank :: lexemes v
  | .shorthand n | .shorthandDefault n _ => [.word n]
/-- Terms with commas between them. -/
def lexemesOf : List Term → List Lexeme
  | [] => []
  | a :: as => lexemes a ++ further as
def further : List Term → List Lexeme
  | [] => []
  | a :: as => .mark .comma :: .mark .blank :: (lexemes a ++ further as)
end

def text (a : Term) : String := spell a.lexemes

end Lexemes

section Injective

/-- The end of a list, of the parameters of a function, or of an object. -/
inductive Closes : List Lexeme → Prop
  | bracket (r : List Lexeme) : Closes (.mark .closeBracket :: r)
  | paren (r : List Lexeme) : Closes (.mark .closeParen :: r)
  | brace (r : List Lexeme) : Closes (.mark .blank :: .mark .closeBrace :: r)

/-- What can come after a term in a place. A target may have a default. -/
inductive Follows : Place → List Lexeme → Prop
  | nil (p : Place) : Follows p []
  | comma (p : Place) (r : List Lexeme) : Follows p (.mark .comma :: r)
  | closes (p : Place) {r : List Lexeme} (h : Closes r) : Follows p r
  | equals (r : List Lexeme) : Follows .target (.mark .blank :: .mark .equals :: r)
  | colon (r : List Lexeme) : Follows .key (.mark .colon :: r)

variable {a b : Term} {as bs : List Term} {p : Place} {r s : List Lexeme}

theorem Follows.elsewhere {q : Place} (h : Follows p r) (hk : p ≠ .key) (ht : p ≠ .target) : Follows q r := by
  cases h with
  | nil => exact .nil q
  | comma _ r => exact .comma q r
  | closes _ h => exact .closes q h
  | equals r => exact absurd rfl ht
  | colon r => exact absurd rfl hk

/-- What the first lexemes of a term tell about it. -/
inductive Shape where
  | name
  | literal
  | list
  | record
  | function
  | spread

def startsFunction : List Lexeme → Bool
  | .mark .blank :: .word _ :: _ => true
  | _ => false

def shapeOf? : List Lexeme → Option Shape
  | .word w :: r =>
    if w = "function" ∨ w = "async" ∧ startsFunction r = true then some .function
    else if w ∈ ["true", "false", "null"] then some .literal
    else some .name
  | .number _ :: _ | .quoted _ :: _ => some .literal
  | .mark .openBracket :: _ => some .list
  | .mark .openBrace :: _ => some .record
  | .mark .dots :: _ => some .spread
  | _ => none

/-- The shape of a term, which is that of its target if it has a default. -/
def shape? : Term → Option Shape
  | .name _ => some .name
  | .literal _ => some .literal
  | .list _ _ => some .list
  | .record _ _ => some .record
  | .function _ _ _ _ => some .function
  | .spread _ _ => some .spread
  | .defaulted t _ => shape? t
  | .hole | .property _ _ _ _ _ | .shorthand _ | .shorthandDefault _ _ => none

theorem not_startsFunction (h : Follows p r) : startsFunction r = false := by
  rcases h with _ | _ | ⟨_, _ | _ | _⟩ | _ | _ <;> rfl

theorem shapeOf?_name {n : String} (hn : isName n = true) (hr : startsFunction r = false) :
    shapeOf? (.word n :: r) = some .name := by
  have hall : ∀ w ∈ ["function", "true", "false", "null"], isName w = false := by decide
  have hne : ∀ w ∈ ["function", "true", "false", "null"], n ≠ w := by
    rintro w hw rfl
    rw [hall n hw] at hn
    cases hn
  simp only [forall_mem_cons] at hne
  simp [shapeOf?, hr, hne]

/-- Outside objects the first lexemes show the shape. -/
theorem shapeOf?_lexemes (ha : a.fits p = true) (hp : p ≠ .key ∧ p ≠ .member ∧ p ≠ .field) (hr : Follows p r) :
    shapeOf? (a.lexemes ++ r) = a.shape? := by
  induction a using Term.induct generalizing p r with
  | name n =>
    simp only [fits, hp.1, decide_false, Bool.false_and, Bool.false_or, Bool.and_eq_true] at ha
    exact shapeOf?_name ha.2 (not_startsFunction hr)
  | literal v =>
    cases v with
    | text s | number i | null => rfl
    | truth b => cases b <;> rfl
  | list binds as => rfl
  | record binds as =>
    rw [lexemes]
    split <;> rfl
  | function async generator n as => cases async <;> rfl
  | hole => rcases hr with _ | _ | ⟨_, _ | _ | _⟩ | _ | _ <;> rfl
  | spread binds a => rfl
  | defaulted t v iht =>
    simp only [fits, Bool.and_eq_true] at ha
    rw [lexemes, append_assoc, shape?]
    exact iht ha.1.2 (by decide) (.equals _)
  | property access method computed k v => simp [fits, hp] at ha
  | shorthand n => simp [fits, hp] at ha
  | shorthandDefault n v => simp [fits, hp] at ha

theorem exists_key (h : a.fits .key = true) : (∃ n, a = .name n) ∨ ∃ v : Literal, a = .literal v ∧ v.isKey = true := by
  cases a with
  | name n => exact .inl ⟨n, rfl⟩
  | literal v => exact .inr ⟨v, rfl, by simpa [fits, Place.takes] using h⟩
  | list binds | record binds | spread binds => cases binds <;> simp [fits, Place.takes] at h
  | function | hole | defaulted | property | shorthand | shorthandDefault => simp [fits, Place.takes] at h

/-- A term that is no hole does not start with the end of a list. -/
theorem not_closes (ha : a.fits p = true) (hne : a ≠ .hole) : ¬Closes (a.lexemes ++ r) := by
  induction a using Term.induct generalizing p r with
  | name n => rintro ⟨⟩
  | literal v => cases v <;> rintro ⟨⟩
  | list binds as => rintro ⟨⟩
  | record binds as =>
    rw [lexemes]
    split <;> rintro ⟨⟩
  | function async generator n as => cases async <;> rintro ⟨⟩
  | hole => exact absurd rfl hne
  | spread binds a => rintro ⟨⟩
  | defaulted t v iht =>
    simp only [fits, Bool.and_eq_true] at ha
    rw [lexemes, append_assoc]
    refine iht ha.1.2 ?_
    rintro rfl
    exact absurd ha.1.2 (by decide)
  | property access method computed k v =>
    cases computed with
    | true => rintro ⟨⟩
    | false =>
      simp only [fits, Bool.and_eq_true] at ha
      rcases exists_key ha.1 with ⟨n, rfl⟩ | ⟨v, rfl, -⟩
      · rintro ⟨⟩
      · cases v <;> rintro ⟨⟩
  | shorthand n => rintro ⟨⟩
  | shorthandDefault n v => rintro ⟨⟩

/-- A term and what comes after it are determined by the lexemes. -/
def Unmistakable (a : Term) : Prop :=
  ∀ {p : Place} {b : Term} {r s : List Lexeme}, a.fits p = true → b.fits p = true → a.plain = true → b.plain = true →
    Follows p r → Follows p s → a.lexemes ++ r = b.lexemes ++ s → a = b ∧ r = s

section Series

variable (hall : ∀ a ∈ as, Unmistakable a) (ha : ∀ a ∈ as, a.fits p = true) (hb : ∀ b ∈ bs, b.fits p = true)
  (hpa : ∀ a ∈ as, a.plain = true) (hpb : ∀ b ∈ bs, b.plain = true) (hr : Closes r) (hs : Closes s)

theorem follows_further (as : List Term) (hr : Closes r) : Follows p (further as ++ r) := by
  cases as with
  | nil => exact .closes p hr
  | cons a as => exact .comma p _

include hall ha hb hpa hpb hr hs

theorem further_append_inj (h : further as ++ r = further bs ++ s) : as = bs ∧ r = s := by
  induction as generalizing bs with
  | nil =>
    cases bs with
    | nil => exact ⟨rfl, h⟩
    | cons b bs =>
      rw [further, further, nil_append] at h
      subst h
      cases hr
  | cons a as ih =>
    cases bs with
    | nil =>
      rw [further, further, nil_append] at h
      subst h
      cases hs
    | cons b bs =>
      simp only [forall_mem_cons] at hall ha hb hpa hpb
      simp only [further, cons_append, append_assoc, List.cons.injEq, true_and] at h
      obtain ⟨rfl, hrest⟩ := hall.1 ha.1 hb.1 hpa.1 hpb.1 (follows_further as hr) (follows_further bs hs) h
      obtain ⟨rfl, hrs⟩ := ih hall.2 ha.2 hb.2 hpa.2 hpb.2 hrest
      exact ⟨rfl, hrs⟩

/-- Terms in a row are determined by the lexemes, unless the row is a single hole. -/
theorem lexemesOf_append_inj (hla : isLoneHole as = false) (hlb : isLoneHole bs = false)
    (h : lexemesOf as ++ r = lexemesOf bs ++ s) : as = bs ∧ r = s := by
  -- a row that starts like the end of a list starts with a hole, and something comes after the hole
  have hempty : ∀ {cs : List Term} {u v : List Lexeme}, (∀ c ∈ cs, c.fits p = true) → isLoneHole cs = false → Closes u →
      u = lexemesOf cs ++ v → cs = [] := by
    intro cs u v hc hlone hu huv
    subst huv
    cases cs with
    | nil => rfl
    | cons c cs =>
      rw [lexemesOf, append_assoc] at hu
      by_cases hne : c = .hole
      · subst hne
        cases cs with
        | nil => cases hlone
        | cons d cs => cases hu
      · exact absurd hu (not_closes (hc c (by simp)) hne)
  cases as with
  | nil =>
    obtain rfl := hempty hb hlb hr h
    exact ⟨rfl, h⟩
  | cons a as =>
    cases bs with
    | nil => exact absurd (hempty ha hla hs h.symm) (by simp)
    | cons b bs =>
      simp only [forall_mem_cons] at hall ha hb hpa hpb
      simp only [lexemesOf, append_assoc] at h
      obtain ⟨rfl, hrest⟩ := hall.1 ha.1 hb.1 hpa.1 hpb.1 (follows_further as hr) (follows_further bs hs) h
      obtain ⟨rfl, hrs⟩ := further_append_inj hall.2 ha.2 hb.2 hpa.2 hpb.2 hr hs hrest
      exact ⟨rfl, hrs⟩

end Series

theorem takes_unique {x y : Bool} (hx : p.takes x = true) (hy : p.takes y = true) : x = y := by
  revert x y
  cases p <;> decide

theorem ne_hole (h : a.fits p = true) (hp : p ≠ .item ∧ p ≠ .slot) : a ≠ .hole := by
  rintro rfl
  simp [fits, hp] at h

theorem isLoneHole_eq_false (h : ∀ a ∈ as, a.fits p = true) (hp : p ≠ .item ∧ p ≠ .slot) : isLoneHole as = false := by
  unfold isLoneHole
  split
  · simp [fits, hp] at h
  · rfl

section Brackets

variable (hall : ∀ a ∈ as, Unmistakable a) {x y : Bool}
include hall

theorem list_append_inj (ha : (list x as).fits p = true) (hb : (list y bs).fits p = true)
    (hpa : (list x as).plain = true) (hpb : (list y bs).plain = true)
    (h : (list x as).lexemes ++ r = (list y bs).lexemes ++ s) :
    list x as = list y bs ∧ r = s := by
  simp only [fits, plain, Bool.and_eq_true, Bool.not_eq_true', fitAll_iff, plainAll_iff] at ha hb hpa hpb
  obtain rfl := takes_unique ha.1 hb.1
  simp only [lexemes, cons_append, append_assoc, List.cons.injEq, true_and] at h
  obtain ⟨rfl, hrs⟩ :=
    lexemesOf_append_inj hall ha.2 hb.2 hpa.2 hpb.2 (.bracket r) (.bracket s) hpa.1 hpb.1 h
  exact ⟨rfl, (List.cons.inj hrs).2⟩

theorem record_append_inj (ha : (record x as).fits p = true) (hb : (record y bs).fits p = true)
    (hpa : (record x as).plain = true) (hpb : (record y bs).plain = true)
    (h : (record x as).lexemes ++ r = (record y bs).lexemes ++ s) : record x as = record y bs ∧ r = s := by
  simp only [fits, plain, Bool.and_eq_true, fitAll_iff, plainAll_iff] at ha hb hpa hpb
  obtain rfl := takes_unique ha.1 hb.1
  have hlone : ∀ {cs : List Term}, (∀ c ∈ cs, c.fits (if x then .field else .member) = true) → isLoneHole cs = false :=
    fun hc => isLoneHole_eq_false hc (by cases x <;> decide)
  simp only [lexemes] at h
  split at h <;> rename_i hx <;> split at h <;> rename_i hy
  · simp only [Bool.and_eq_true, List.isEmpty_iff] at hx hy
    rw [hx.1, hy.1]
    exact ⟨rfl, by simpa using h⟩
  · simp at h
  · simp at h
  · simp only [cons_append, append_assoc, List.cons.injEq, true_and] at h
    obtain ⟨rfl, hrs⟩ := lexemesOf_append_inj hall ha.2 hb.2 hpa hpb (.brace r) (.brace s) (hlone ha.2) (hlone hb.2) h
    exact ⟨rfl, by simpa using hrs⟩

theorem function_append_inj {x' y' : Bool} {m n : Option String} (ha : (function x x' m as).fits p = true)
    (hb : (function y y' n bs).fits p = true) (hpa : (function x x' m as).plain = true)
    (hpb : (function y y' n bs).plain = true)
    (h : (function x x' m as).lexemes ++ r = (function y y' n bs).lexemes ++ s) :
    function x x' m as = function y y' n bs ∧ r = s := by
  simp only [fits, plain, Bool.and_eq_true, fitAll_iff, plainAll_iff] at ha hb hpa hpb
  have hlone : ∀ {cs : List Term}, (∀ c ∈ cs, c.fits .element = true) → isLoneHole cs = false :=
    fun hc => isLoneHole_eq_false hc (by decide)
  have hhead : ∀ {u v : List Lexeme}, functionHead x x' m ++ .mark .openParen :: u =
      functionHead y y' n ++ .mark .openParen :: v → x = y ∧ x' = y' ∧ m = n ∧ u = v := by
    intro u v
    cases x <;> cases y <;> cases x' <;> cases y' <;> cases m <;> cases n <;> simp [functionHead]
  simp only [lexemes, cons_append, append_assoc] at h
  obtain ⟨rfl, rfl, rfl, hin⟩ := hhead h
  obtain ⟨rfl, hrs⟩ := lexemesOf_append_inj hall ha.2 hb.2 hpa hpb (.paren _) (.paren _) (hlone ha.2) (hlone hb.2) hin
  exact ⟨rfl, by simpa using hrs⟩

end Brackets

section Cases

theorem ne_of_takes {x : Bool} (h : p.takes x = true) : p ≠ .key ∧ p ≠ .member ∧ p ≠ .field := by
  revert x
  cases p <;> decide

theorem shape?_eq (ha : a.fits p = true) (hb : b.fits p = true) (hp : p ≠ .key ∧ p ≠ .member ∧ p ≠ .field)
    (hr : Follows p r) (hs : Follows p s) (h : a.lexemes ++ r = b.lexemes ++ s) : a.shape? = b.shape? := by
  rw [← shapeOf?_lexemes ha hp hr, h, shapeOf?_lexemes hb hp hs]

theorem exists_target (ha : a.fits .target = true) :
    (∃ n, a = name n) ∨ (∃ as, a = list true as) ∨ ∃ as, a = record true as := by
  cases a with
  | name n => exact .inl ⟨n, rfl⟩
  | list x as =>
    cases x with
    | false => cases ha
    | true => exact .inr (.inl ⟨as, rfl⟩)
  | record x as =>
    cases x with
    | false => cases ha
    | true => exact .inr (.inr ⟨as, rfl⟩)
  | spread x => cases x <;> cases ha
  | literal | function | hole | defaulted | property | shorthand | shorthandDefault => simp [fits, Place.takes] at ha

theorem fits_target (ha : a.fits p = true) (hp : p.takes true = true)
    (hs : a.shape? = some .name ∨ a.shape? = some .list ∨ a.shape? = some .record) :
    a.fits .target = true ∨ ∃ t v, a = defaulted t v := by
  cases a with
  | name n =>
    simp only [fits, (ne_of_takes hp).1, decide_false, Bool.false_and, Bool.false_or, Bool.and_eq_true] at ha
    exact .inl (by simp [fits, Place.takes, ha.2])
  | list x as | record x as =>
    simp only [fits, Bool.and_eq_true] at ha
    obtain rfl := takes_unique ha.1 hp
    exact .inl (by simpa [fits, Place.takes] using ha.2)
  | defaulted t v => exact .inr ⟨t, v, rfl⟩
  | literal | function | hole | spread | property | shorthand | shorthandDefault => simp [shape?] at hs

theorem exists_member (ha : a.fits p = true) (hpa : a.plain = true) (hp : p = .member ∨ p = .field) :
    (∃ computed k v, a = property .init false computed k v) ∨ (∃ n, a = shorthand n) ∨ ∃ x c, a = spread x c := by
  cases a with
  | property access method computed k v =>
    simp only [plain, Bool.and_eq_true, decide_eq_true_eq, Bool.not_eq_true'] at hpa
    obtain ⟨⟨⟨rfl, rfl⟩, -⟩, -⟩ := hpa
    exact .inl ⟨computed, k, v, rfl⟩
  | shorthand n => exact .inr (.inl ⟨n, rfl⟩)
  | spread x c => exact .inr (.inr ⟨x, c, rfl⟩)
  | shorthandDefault n v => cases hpa
  | list x | record x => rcases hp with rfl | rfl <;> cases x <;> cases ha
  | name | literal | function | hole | defaulted => rcases hp with rfl | rfl <;> simp [fits, Place.takes] at ha

theorem place_of_defaulted {t v : Term} (ha : (defaulted t v).fits p = true) :
    p.takes true = true ∧ p ≠ .target ∧ t.fits .target = true ∧ v.fits .expression = true := by
  simp only [fits, Bool.and_eq_true] at ha
  refine ⟨?_, ?_, ha.1.2, ha.2⟩
  · have := ha.1.1
    cases p <;> simp_all [Place.takes]
  · rintro rfl
    exact absurd ha.1.1 (by decide)

section Properties

variable {access access' : Access} {method method' computed computed' : Bool} {k k' v v' : Term}

theorem place_of_property (ha : (property access method computed k v).fits p = true) :
    (p = .member ∨ p = .field) ∧ k.fits (if computed then .expression else .key) = true ∧
      v.fits (if p = .member then .expression else .binding) = true := by
  simp only [fits, Bool.and_eq_true, Bool.or_eq_true, decide_eq_true_eq] at ha
  obtain ⟨hk, ⟨⟨rfl, hv⟩, -⟩ | ⟨⟨⟨rfl, hv⟩, -⟩, -⟩⟩ := ha
  · exact ⟨.inl rfl, hk, hv⟩
  · exact ⟨.inr rfl, hk, hv⟩

theorem lexemes_property_append (r : List Lexeme) : (property access method computed k v).lexemes ++ r =
    if computed then .mark .openBracket ::
      (k.lexemes ++ .mark .closeBracket :: .mark .colon :: .mark .blank :: (v.lexemes ++ r))
    else k.lexemes ++ .mark .colon :: .mark .blank :: (v.lexemes ++ r) := by
  cases computed <;> simp [lexemes]

section

variable (ha : (property access method computed k v).fits p = true)
include ha

theorem property_ne_spread : (property access method computed k v).lexemes ++ r ≠ .mark .dots :: s := by
  rw [lexemes_property_append]
  cases computed with
  | true => nofun
  | false =>
    rcases exists_key (place_of_property ha).2.1 with ⟨m, rfl⟩ | ⟨v, rfl, -⟩
    · nofun
    · cases v <;> nofun

theorem property_ne_shorthand {n : String}
    (hs : Follows p s) : (property access method computed k v).lexemes ++ r ≠ .word n :: s := by
  obtain ⟨hp, hk, -⟩ := place_of_property ha
  have hcolon : ∀ u, ¬Follows p (.mark .colon :: u) := by
    intro u h
    rcases h with _ | _ | ⟨_, ⟨⟩⟩ | _ | _
    rcases hp with ⟨⟨⟩⟩ | ⟨⟨⟩⟩
  rw [lexemes_property_append]
  intro h
  cases computed with
  | true => cases h
  | false =>
    rcases exists_key hk with ⟨m, rfl⟩ | ⟨v, rfl, -⟩ <;>
    · simp only [lexemes] at h
      rw [← (List.cons.inj h).2] at hs
      exact hcolon _ hs

theorem computed_unique (hb : (property access' method' computed' k' v').fits p = true)
    (h : (property access method computed k v).lexemes ++ r = (property access' method' computed' k' v').lexemes ++ s) :
    computed = computed' := by
  have hbracket : ∀ {k : Term} {u w : List Lexeme}, k.fits .key = true → k.lexemes ++ u ≠ .mark .openBracket :: w := by
    intro k u w hk
    rcases exists_key hk with ⟨m, rfl⟩ | ⟨v, rfl, -⟩
    · nofun
    · cases v <;> nofun
  rw [lexemes_property_append, lexemes_property_append] at h
  cases computed <;> cases computed'
  · rfl
  · exact absurd h (hbracket (place_of_property ha).2.1)
  · exact absurd h.symm (hbracket (place_of_property hb).2.1)
  · rfl

end

end Properties

theorem lexemes_defaulted_append (t v : Term) (r : List Lexeme) : (defaulted t v).lexemes ++ r =
    t.lexemes ++ .mark .blank :: .mark .equals :: .mark .blank :: (v.lexemes ++ r) := by
  simp [lexemes]

theorem not_follows_equals {t v : Term} (h : (defaulted t v).fits p = true) (u : List Lexeme) :
    ¬Follows p (.mark .blank :: .mark .equals :: u) := by
  intro hr
  rcases hr with _ | _ | ⟨_, ⟨⟩⟩ | _ | _
  cases h

theorem ne_defaulted {t v : Term} (ha : a.fits p = true) (hb : (defaulted t v).fits p = true) (hr : Follows p r)
    (hshape : a.shape? = some .name ∨ a.shape? = some .list ∨ a.shape? = some .record) (hne : ∀ t v, a ≠ defaulted t v)
    (core : ∀ {u : List Lexeme}, a.fits .target = true → t.fits .target = true →
      a.lexemes ++ r = t.lexemes ++ u → r = u) :
    a.lexemes ++ r ≠ (defaulted t v).lexemes ++ s := by
  intro h
  obtain ⟨htakes, -, ht, -⟩ := place_of_defaulted hb
  have ha' := (fits_target ha htakes hshape).resolve_right fun ⟨t, v, h⟩ => hne t v h
  rw [lexemes_defaulted_append] at h
  rw [core ha' ht h] at hr
  exact not_follows_equals hb _ hr

end Cases

theorem unmistakable_name (n : String) : Unmistakable (name n) := by
  intro p b r s ha hb hpa hpb hr hs h
  by_cases hk : p = .key
  · subst hk
    rcases exists_key hb with ⟨m, rfl⟩ | ⟨v, rfl, hv⟩
    · simpa [lexemes] using h
    · cases v <;> cases hv <;> cases h
  · have hp : p ≠ .key ∧ p ≠ .member ∧ p ≠ .field := by
      simp only [fits, hk, decide_false, Bool.false_and, Bool.false_or, Bool.and_eq_true, Bool.or_eq_true] at ha
      exact ha.1.elim ne_of_takes ne_of_takes
    have hshape : some .name = b.shape? := shape?_eq ha hb hp hr hs h
    cases b with
    | name m => simpa [lexemes] using h
    | defaulted t v =>
      refine absurd h (ne_defaulted ha hb hr (.inl rfl) nofun fun _ ht h => ?_)
      rcases exists_target ht with ⟨m, rfl⟩ | ⟨bs, rfl⟩ | ⟨bs, rfl⟩
      · exact (List.cons.inj h).2
      · cases hshape
      · cases hshape
    | _ => cases hshape

theorem unmistakable_literal (v : Literal) : Unmistakable (literal v) := by
  intro p b r s ha hb hpa hpb hr hs h
  by_cases hk : p = .key
  · subst hk
    rcases exists_key hb with ⟨m, rfl⟩ | ⟨w, rfl, -⟩
    · cases v with
      | text s | number i => cases h
      | truth b | null => cases ha
    · obtain ⟨hvw, hrs⟩ := List.cons.inj h
      exact ⟨by rw [Literal.lexeme_inj hvw], hrs⟩
  · have hp : p.takes false = true := by simpa [fits, hk] using ha
    have hshape : some .literal = b.shape? := shape?_eq ha hb (ne_of_takes hp) hr hs h
    cases b with
    | literal w =>
      obtain ⟨hvw, hrs⟩ := List.cons.inj h
      exact ⟨by rw [Literal.lexeme_inj hvw], hrs⟩
    | defaulted t v => cases takes_unique hp (place_of_defaulted hb).1
    | _ => cases hshape

theorem unmistakable_list (x : Bool) (ih : ∀ a ∈ as, Unmistakable a) : Unmistakable (list x as) := by
  intro p b r s ha hb hpa hpb hr hs h
  have hp : p.takes x = true := by
    simp only [fits, Bool.and_eq_true] at ha
    exact ha.1
  have hshape : some .list = b.shape? := shape?_eq ha hb (ne_of_takes hp) hr hs h
  cases b with
  | list y bs => exact list_append_inj ih ha hb hpa hpb h
  | defaulted t v =>
    simp only [plain, Bool.and_eq_true] at hpb
    refine absurd h (ne_defaulted ha hb hr (.inr (.inl rfl)) nofun fun ha' ht h => ?_)
    rcases exists_target ht with ⟨m, rfl⟩ | ⟨bs, rfl⟩ | ⟨bs, rfl⟩
    · cases hshape
    · exact (list_append_inj ih ha' ht hpa hpb.1 h).2
    · cases hshape
  | _ => cases hshape

theorem unmistakable_record (x : Bool) (ih : ∀ a ∈ as, Unmistakable a) : Unmistakable (record x as) := by
  intro p b r s ha hb hpa hpb hr hs h
  have hp : p.takes x = true := by
    simp only [fits, Bool.and_eq_true] at ha
    exact ha.1
  have hshape : some .record = b.shape? := shape?_eq ha hb (ne_of_takes hp) hr hs h
  cases b with
  | record y bs => exact record_append_inj ih ha hb hpa hpb h
  | defaulted t v =>
    simp only [plain, Bool.and_eq_true] at hpb
    refine absurd h (ne_defaulted ha hb hr (.inr (.inr rfl)) nofun fun ha' ht h => ?_)
    rcases exists_target ht with ⟨m, rfl⟩ | ⟨bs, rfl⟩ | ⟨bs, rfl⟩
    · cases hshape
    · cases hshape
    · exact (record_append_inj ih ha' ht hpa hpb.1 h).2
  | _ => cases hshape

theorem unmistakable_function (x x' : Bool) (n : Option String) (ih : ∀ a ∈ as, Unmistakable a) :
    Unmistakable (function x x' n as) := by
  intro p b r s ha hb hpa hpb hr hs h
  have hp : p.takes false = true := by
    simp only [fits, Bool.and_eq_true] at ha
    exact ha.1.1
  have hshape : some .function = b.shape? := shape?_eq ha hb (ne_of_takes hp) hr hs h
  cases b with
  | function y y' m bs => exact function_append_inj ih ha hb hpa hpb h
  | defaulted t v =>
    obtain ⟨htakes, -⟩ := place_of_defaulted hb
    cases takes_unique hp htakes
  | _ => cases hshape

theorem unmistakable_hole : Unmistakable hole := by
  intro p b r s ha hb hpa hpb hr hs h
  have hp : p ≠ .key ∧ p ≠ .member ∧ p ≠ .field := by
    refine ⟨?_, ?_, ?_⟩ <;> rintro rfl <;> cases ha
  have hshape : none = b.shape? := shape?_eq ha hb hp hr hs h
  cases b with
  | hole => exact ⟨rfl, h⟩
  | defaulted t v =>
    rcases exists_target (place_of_defaulted hb).2.2.1 with ⟨m, rfl⟩ | ⟨bs, rfl⟩ | ⟨bs, rfl⟩ <;> cases hshape
  | property | shorthand | shorthandDefault => simp [fits, hp] at hb
  | _ => cases hshape

theorem unmistakable_spread (x : Bool) (ih : Unmistakable a) : Unmistakable (spread x a) := by
  intro p b r s ha hb hpa hpb hr hs h
  have hsame : ∀ {y c}, b = spread y c → spread x a = b ∧ r = s := by
    rintro y c rfl
    have hpk : p ≠ .key ∧ p ≠ .target := by
      refine ⟨?_, ?_⟩ <;> rintro rfl <;> cases x <;> cases ha
    have hin : a.lexemes ++ r = c.lexemes ++ s := (List.cons.inj h).2
    cases x <;> cases y <;>
      simp only [fits, plain, Bool.and_eq_true, Bool.or_eq_true, decide_eq_true_eq] at ha hb hpa hpb
    · obtain ⟨rfl, hrs⟩ := ih ha.2 hb.2 hpa hpb (hr.elsewhere hpk.1 hpk.2) (hs.elsewhere hpk.1 hpk.2) hin
      exact ⟨rfl, hrs⟩
    · rcases ha.1 with rfl | rfl <;> simp at hb
    · rcases hb.1 with rfl | rfl <;> simp at ha
    · obtain ⟨rfl, hrs⟩ := ih ha.2 hb.2 hpa hpb (hr.elsewhere hpk.1 hpk.2) (hs.elsewhere hpk.1 hpk.2) hin
      exact ⟨rfl, hrs⟩
  by_cases hp : p = .member ∨ p = .field
  · rcases exists_member hb hpb hp with ⟨computed, k, v, rfl⟩ | ⟨n, rfl⟩ | ⟨y, c, hy⟩
    · exact absurd h.symm (property_ne_spread hb)
    · cases h
    · exact hsame hy
  · have hk : p ≠ .key := by
      rintro rfl
      cases x <;> cases ha
    have hshape : some .spread = b.shape? := shape?_eq ha hb ⟨hk, not_or.mp hp⟩ hr hs h
    cases b with
    | spread y c => exact hsame rfl
    | defaulted t v =>
      rcases exists_target (place_of_defaulted hb).2.2.1 with ⟨m, rfl⟩ | ⟨bs, rfl⟩ | ⟨bs, rfl⟩ <;> cases hshape
    | _ => cases hshape

theorem unmistakable_defaulted {t v : Term} (iht : Unmistakable t) (ihv : Unmistakable v) :
    Unmistakable (defaulted t v) := by
  intro p b r s ha hb hpa hpb hr hs h
  obtain ⟨htakes, hne, ht, hv⟩ := place_of_defaulted ha
  have hshape : (defaulted t v).shape? = b.shape? := shape?_eq ha hb (ne_of_takes htakes) hr hs h
  have hkind : b.shape? = some .name ∨ b.shape? = some .list ∨ b.shape? = some .record := by
    rw [← hshape, shape?]
    rcases exists_target ht with ⟨m, rfl⟩ | ⟨bs, rfl⟩ | ⟨bs, rfl⟩ <;> simp [shape?]
  have helse : ∀ {q : Place} {u : List Lexeme}, Follows p u → Follows q u :=
    fun hu => hu.elsewhere (ne_of_takes htakes).1 hne
  simp only [plain, Bool.and_eq_true] at hpa
  rw [lexemes_defaulted_append] at h
  rcases fits_target hb htakes hkind with hb' | ⟨t', v', rfl⟩
  · obtain ⟨-, rfl⟩ := iht ht hb' hpa.1 hpb (.equals _) (helse hs) h
    exact absurd hs (not_follows_equals ha _)
  · obtain ⟨-, -, ht', hv'⟩ := place_of_defaulted hb
    simp only [plain, Bool.and_eq_true] at hpb
    rw [lexemes_defaulted_append] at h
    obtain ⟨rfl, hrest⟩ := iht ht ht' hpa.1 hpb.1 (.equals _) (.equals _) h
    simp only [List.cons.injEq, true_and] at hrest
    obtain ⟨rfl, hrs⟩ := ihv hv hv' hpa.2 hpb.2 (helse hr) (helse hs) hrest
    exact ⟨rfl, hrs⟩

theorem unmistakable_property {access : Access} {method computed : Bool} {k v : Term} (ihk : Unmistakable k)
    (ihv : Unmistakable v) : Unmistakable (property access method computed k v) := by
  intro p b r s ha hb hpa hpb hr hs h
  obtain ⟨hp, hk, hv⟩ := place_of_property ha
  rcases exists_member hb hpb hp with ⟨computed', k', v', rfl⟩ | ⟨n, rfl⟩ | ⟨y, c, rfl⟩
  · obtain ⟨-, hk', hv'⟩ := place_of_property hb
    obtain rfl := computed_unique ha hb h
    simp only [plain, Bool.and_eq_true, decide_eq_true_eq, Bool.not_eq_true'] at hpa hpb
    obtain ⟨⟨⟨rfl, rfl⟩, hpk⟩, hpv⟩ := hpa
    have helse : ∀ {q : Place} {u : List Lexeme}, Follows p u → Follows q u := by
      intro q u hu
      rcases hp with rfl | rfl <;> exact hu.elsewhere (by decide) (by decide)
    have hvalue : v.lexemes ++ r = v'.lexemes ++ s → v = v' ∧ r = s :=
      ihv hv hv' hpv hpb.2 (helse hr) (helse hs)
    rw [lexemes_property_append, lexemes_property_append] at h
    cases computed with
    | true =>
      obtain ⟨rfl, hrest⟩ := ihk hk hk' hpk hpb.1.2 (.closes _ (.bracket _)) (.closes _ (.bracket _))
        (List.cons.inj h).2
      obtain ⟨rfl, hrs⟩ := hvalue (by simpa using hrest)
      exact ⟨rfl, hrs⟩
    | false =>
      obtain ⟨rfl, hrest⟩ := ihk hk hk' hpk hpb.1.2 (.colon _) (.colon _) h
      obtain ⟨rfl, hrs⟩ := hvalue (by simpa using hrest)
      exact ⟨rfl, hrs⟩
  · exact absurd h (property_ne_shorthand ha hs)
  · exact absurd h (property_ne_spread ha)

theorem unmistakable_shorthand (n : String) : Unmistakable (shorthand n) := by
  intro p b r s ha hb hpa hpb hr hs h
  have hp : p = .member ∨ p = .field := by
    simp only [fits, Bool.and_eq_true, Bool.or_eq_true, decide_eq_true_eq] at ha
    exact ha.1
  rcases exists_member hb hpb hp with ⟨computed, k, v, rfl⟩ | ⟨m, rfl⟩ | ⟨y, c, rfl⟩
  · exact absurd h.symm (property_ne_shorthand hb hr)
  · simpa [lexemes] using h
  · cases h

theorem unmistakable (a : Term) : Unmistakable a := by
  induction a using Term.induct with
  | name n => exact unmistakable_name n
  | literal v => exact unmistakable_literal v
  | list x as ih => exact unmistakable_list x ih
  | record x as ih => exact unmistakable_record x ih
  | function x x' n as ih => exact unmistakable_function x x' n ih
  | hole => exact unmistakable_hole
  | spread x a ih => exact unmistakable_spread x ih
  | defaulted t v iht ihv => exact unmistakable_defaulted iht ihv
  | property access method computed k v ihk ihv => exact unmistakable_property ihk ihv
  | shorthand n => exact unmistakable_shorthand n
  | shorthandDefault n v ih =>
    intro p b r s ha hb hpa
    cases hpa

end Injective

section Text

variable {a b : Term} {as : List Term} {p : Place} {xs : List Lexeme}

theorem spelled_further (h : ∀ a ∈ as, Spelled a.lexemes) : Spelled xs → Spelled (xs ++ further as) := by
  intro hxs
  induction as generalizing xs with
  | nil => simpa [further] using hxs
  | cons a as ih =>
    rw [forall_mem_cons] at h
    exact hxs.append_mark (ih h.2 h.1).mark.mark

theorem spelled_lexemesOf (h : ∀ a ∈ as, Spelled a.lexemes) : Spelled (lexemesOf as) := by
  cases as with
  | nil => exact .nil
  | cons a as =>
    rw [forall_mem_cons] at h
    exact spelled_further h.2 h.1

theorem isSound_of_isName {n : String} (h : isName n = true) : (Lexeme.word n).isSound = true :=
  (Bool.and_eq_true_iff.mp h).1

theorem spelled_functionHead {async generator : Bool} {n : Option String} (hn : n.all isName = true)
    (h : Spelled (.mark .openParen :: xs)) : Spelled (functionHead async generator n ++ .mark .openParen :: xs) := by
  have hword : Spelled [Lexeme.word "function"] := .single (by decide)
  have hname : Spelled (n.elim [] (fun n => [.mark .blank, .word n]) ++ .mark .openParen :: xs) := by
    cases n with
    | none => exact h
    | some n => exact ((Spelled.single (isSound_of_isName hn)).append_mark h).mark
  have hrest : Spelled (functionHead false generator n ++ .mark .openParen :: xs) := by
    cases generator with
    | true => exact hword.append_mark hname.mark
    | false =>
      cases n with
      | none => exact hword.append_mark hname
      | some n => exact hword.append_mark hname
  cases async with
  | true => exact (Spelled.single (x := Lexeme.word "async") (by decide)).append_mark hrest.mark
  | false => exact hrest

theorem spelled_lexemes (ha : a.fits p = true) : Spelled a.lexemes := by
  induction a using Term.induct generalizing p with
  | name n =>
    simp only [fits, Bool.or_eq_true, Bool.and_eq_true] at ha
    exact .single (ha.elim And.right fun h => isSound_of_isName h.2)
  | literal v =>
    cases v with
    | truth b => cases b <;> exact .single (by decide)
    | text s | number i => exact .single rfl
    | null => exact .single (by decide)
  | list x as ih =>
    simp only [fits, Bool.and_eq_true, fitAll_iff] at ha
    exact ((spelled_lexemesOf fun a h => ih a h (ha.2 a h)).append_mark Spelled.nil.mark).mark
  | record x as ih =>
    simp only [fits, Bool.and_eq_true, fitAll_iff] at ha
    rw [lexemes]
    split
    · exact Spelled.nil.mark.mark
    · exact ((spelled_lexemesOf fun a h => ih a h (ha.2 a h)).append_mark Spelled.nil.mark.mark).mark.mark
  | function x x' n as ih =>
    simp only [fits, Bool.and_eq_true, fitAll_iff] at ha
    exact spelled_functionHead ha.1.2
      ((spelled_lexemesOf fun a h => ih a h (ha.2 a h)).append_mark Spelled.nil.mark.mark.mark.mark).mark
  | hole => exact .nil
  | spread x a ih =>
    cases x <;> simp only [fits, Bool.and_eq_true] at ha <;> exact (ih ha.2).mark
  | defaulted t v iht ihv =>
    simp only [fits, Bool.and_eq_true] at ha
    exact (iht ha.1.2).append_mark (ihv ha.2).mark.mark.mark
  | property access method computed k v ihk ihv =>
    obtain ⟨-, hk, hv⟩ := place_of_property ha
    rw [lexemes]
    refine Spelled.append_mark ?_ (ihv hv).mark.mark
    split
    · exact ((ihk hk).append_mark Spelled.nil.mark).mark
    · exact ihk hk
  | shorthand n =>
    simp only [fits, Bool.and_eq_true] at ha
    exact .single (isSound_of_isName ha.2)
  | shorthandDefault n v =>
    simp only [fits, Bool.and_eq_true] at ha
    exact .single (isSound_of_isName ha.1.2)

theorem toList_text (a : Term) : a.text.toList = a.lexemes.flatMap Lexeme.chars := by
  rw [text, spell, String.toList_join, flatMap_map]
  exact flatMap_congr fun x _ => String.toList_ofList

/-- Terms in the same place that differ have different texts. -/
theorem text_inj (ha : a.fits p = true) (hb : b.fits p = true) (hpa : a.plain = true) (hpb : b.plain = true)
    (h : a.text = b.text) : a = b := by
  rw [← String.toList_inj, toList_text, toList_text] at h
  have hlex := (spelled_lexemes ha).chars_inj (spelled_lexemes hb) h
  exact (unmistakable a ha hb hpa hpb (.nil p) (.nil p) (congrArg (· ++ []) hlex)).1

end Text

end Term

end DebugGuards.Printing
