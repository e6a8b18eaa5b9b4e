import DebugGuards.Printing.Precedence
import DebugGuards.Proofs.Printing.Grammar

/-! How expressions with calls are read. Reading goes through the tokens once, from left to
right. The first token tells what an expression starts with, and what has been read is gone
on with as long as the next token binds tightly enough for the place. Tokens are read in
one way only. -/

namespace DebugGuards.Printing

open List

/-- An expression made of names by operators, calls and accesses to members. -/
inductive Expression where
  | name (n : String)
  | unary (operator : String) (argument : Expression)
  | update (operator : String) (before : Bool) (argument : Expression)
  | binary (operator : String) (left right : Expression)
  | assignment (operator : String) (target value : Expression)
  | conditional (test consequent alternate : Expression)
  | call (callee : Expression) (arguments : List Expression)
  | new (callee : Expression) (arguments : List Expression)
  | dot (object : Expression) (property : String)
  | index (object property : Expression)

def unaryOperators : List String := ["-", "+", "!", "~", "typeof", "void", "delete"]

def updateOperators : List String := ["++", "--"]

def assignmentOperators : List String :=
  ["=", "+=", "-=", "*=", "/=", "%=", "**=", "<<=", ">>=", ">>>=", "&=", "|=", "^=", "&&=", "||=", "??="]

section Roles

/-- What an expression starts with. -/
inductive Lead where
  | name | parens | new | unary | update
deriving DecidableEq

def lead? (t : String) : Option Lead :=
  if t = "(" then some .parens
  else if t = "new" then some .new
  else if t ∈ unaryOperators then some .unary
  else if t ∈ updateOperators then some .update
  else if isName t then some .name
  else none

/-- How a token goes on with an expression that stands before it. -/
inductive Role where
  | dot | index | call | update | binary (power : Nat) | assignment | conditional
deriving DecidableEq

/-- The tightest place in which an expression is gone on with. -/
def Role.power : Role → Nat
  | dot | index => atomic
  | call => postfixed
  | update => unary
  | binary power => power
  | assignment | conditional => 1

def roleOf? (t : String) : Option Role :=
  if t = "." then some .dot
  else if t = "[" then some .index
  else if t = "(" then some .call
  else if t = "?" then some .conditional
  else if t ∈ updateOperators then some .update
  else if t ∈ assignmentOperators then some .assignment
  else (power? t).map .binary

/-- How a token goes on with an expression in a place of a given power. -/
def role? (p : Nat) (t : String) : Option Role := (roleOf? t).filter fun r => p ≤ r.power

theorem role?_of_le {p : Nat} {t : String} {r : Role} (h : roleOf? t = some r) (hp : p ≤ r.power) :
    role? p t = some r := by
  rw [role?, h, Option.filter_some, if_pos (decide_eq_true hp)]

theorem role?_of_lt {p : Nat} {t : String} {r : Role} (h : roleOf? t = some r) (hp : r.power < p) :
    role? p t = none := by
  rw [role?, h, Option.filter_some, if_neg (by simpa using hp)]

theorem role?_of_none {t : String} (h : roleOf? t = none) (p : Nat) : role? p t = none := by
  rw [role?, h]
  rfl

/-- The tokens do not go on with an expression in a place of a given power. -/
def Stops (p : Nat) (ts : List String) : Prop := ∀ t ∈ ts.head?, role? p t = none

theorem Stops.mono {p q : Nat} {ts : List String} (h : Stops p ts) (hpq : p ≤ q) : Stops q ts := by
  intro t ht
  have hp := h t ht
  rw [role?, Option.filter_eq_none_iff] at hp ⊢
  intro r hr hq
  exact hp r hr (by simp only [decide_eq_true_eq] at hq ⊢; omega)

end Roles

section Reads

/-- A call, or the making of a new object. -/
def invoke (fresh : Bool) (callee : Expression) (arguments : List Expression) : Expression :=
  if fresh then .new callee arguments else .call callee arguments

/-- What is being read: an expression in a place of a given power, what follows an
expression there, or the arguments of a call after some of them. -/
inductive Task where
  | expression (power : Nat)
  | rest (power : Nat) (left : Expression)
  | arguments (fresh : Bool) (callee : Expression) (before : List Expression)

/-- Tokens give an expression and leave others. -/
inductive Reads : Task → List String → Expression → List String → Prop
  | name {p : Nat} {t : String} {ts us : List String} {e : Expression} (lead : lead? t = some .name)
      (go : Reads (.rest p (.name t)) ts e us) : Reads (.expression p) (t :: ts) e us
  | parens {p : Nat} {t : String} {ts us vs : List String} {a e : Expression} (lead : lead? t = some .parens)
      (inner : Reads (.expression 0) ts a (")" :: us)) (go : Reads (.rest p a) us e vs) :
      Reads (.expression p) (t :: ts) e vs
  | new {p : Nat} {t : String} {ts us vs ws : List String} {c a e : Expression} (lead : lead? t = some .new)
      (callee : Reads (.expression atomic) ts c ("(" :: us)) (arguments : Reads (.arguments true c []) us a vs)
      (go : Reads (.rest p a) vs e ws) : Reads (.expression p) (t :: ts) e ws
  | unary {p : Nat} {t : String} {ts us vs : List String} {a e : Expression} (lead : lead? t = some .unary)
      (argument : Reads (.expression Printing.unary) ts a us) (go : Reads (.rest p (.unary t a)) us e vs) :
      Reads (.expression p) (t :: ts) e vs
  | update {p : Nat} {t : String} {ts us vs : List String} {a e : Expression} (lead : lead? t = some .update)
      (argument : Reads (.expression Printing.unary) ts a us) (go : Reads (.rest p (.update t true a)) us e vs) :
      Reads (.expression p) (t :: ts) e vs
  | dot {p : Nat} {t n : String} {ts us : List String} {l e : Expression} (role : role? p t = some .dot)
      (go : Reads (.rest p (.dot l n)) ts e us) : Reads (.rest p l) (t :: n :: ts) e us
  | index {p : Nat} {t : String} {ts us vs : List String} {l i e : Expression} (role : role? p t = some .index)
      (property : Reads (.expression 0) ts i ("]" :: us)) (go : Reads (.rest p (.index l i)) us e vs) :
      Reads (.rest p l) (t :: ts) e vs
  | call {p : Nat} {t : String} {ts us vs : List String} {l a e : Expression} (role : role? p t = some .call)
      (arguments : Reads (.arguments false l []) ts a us) (go : Reads (.rest p a) us e vs) :
      Reads (.rest p l) (t :: ts) e vs
  | updated {p : Nat} {t : String} {ts us : List String} {l e : Expression} (role : role? p t = some .update)
      (go : Reads (.rest p (.update t false l)) ts e us) : Reads (.rest p l) (t :: ts) e us
  | binary {p k : Nat} {t : String} {ts us vs : List String} {l r e : Expression} (role : role? p t = some (.binary k))
      (right : Reads (.expression (operandPowers t k).2) ts r us) (go : Reads (.rest p (.binary t l r)) us e vs) :
      Reads (.rest p l) (t :: ts) e vs
  | assignment {p : Nat} {t : String} {ts us vs : List String} {l r e : Expression}
      (role : role? p t = some .assignment)
      (value : Reads (.expression 1) ts r us) (go : Reads (.rest p (.assignment t l r)) us e vs) :
      Reads (.rest p l) (t :: ts) e vs
  | conditional {p : Nat} {t : String} {ts us vs ws : List String} {l c a e : Expression}
      (role : role? p t = some .conditional) (consequent : Reads (.expression 1) ts c (":" :: us))
      (alternate : Reads (.expression 1) us a vs) (go : Reads (.rest p (.conditional l c a)) vs e ws) :
      Reads (.rest p l) (t :: ts) e ws
  | stop {p : Nat} {ts : List String} {l : Expression} (stops : Stops p ts) : Reads (.rest p l) ts l ts
  | none {t : String} {ts : List String} {fresh : Bool} {c : Expression} (close : t = ")") :
      Reads (.arguments fresh c []) (t :: ts) (invoke fresh c []) ts
  | last {t : String} {ts us : List String} {fresh : Bool} {c a : Expression} {as : List Expression} (goes : t ≠ ")")
      (argument : Reads (.expression 1) (t :: ts) a (")" :: us)) :
      Reads (.arguments fresh c as) (t :: ts) (invoke fresh c (as ++ [a])) us
  | more {t : String} {ts us vs : List String} {fresh : Bool} {c a e : Expression} {as : List Expression}
      (goes : t ≠ ")") (argument : Reads (.expression 1) (t :: ts) a ("," :: us))
      (go : Reads (.arguments fresh c (as ++ [a])) us e vs) : Reads (.arguments fresh c as) (t :: ts) e vs

variable {p : Nat} {t : String} {ts us vs : List String} {l e f : Expression} {fresh : Bool} {c : Expression}
  {as : List Expression}

/-- How a reading goes on after its first token. -/
def Led (p : Nat) (t : String) (ts : List String) (e : Expression) (us : List String) : Option Lead → Prop
  | none => False
  | some .name => Reads (.rest p (.name t)) ts e us
  | some .parens => ∃ a vs, Reads (.expression 0) ts a (")" :: vs) ∧ Reads (.rest p a) vs e us
  | some .new => ∃ c vs a ws, Reads (.expression atomic) ts c ("(" :: vs) ∧
      Reads (.arguments true c []) vs a ws ∧ Reads (.rest p a) ws e us
  | some .unary => ∃ a vs, Reads (.expression unary) ts a vs ∧ Reads (.rest p (.unary t a)) vs e us
  | some .update => ∃ a vs, Reads (.expression unary) ts a vs ∧ Reads (.rest p (.update t true a)) vs e us

theorem Reads.led (h : Reads (.expression p) (t :: ts) e us) : Led p t ts e us (lead? t) := by
  cases h with
  | name lead go => rw [lead]; exact go
  | parens lead inner go => rw [lead]; exact ⟨_, _, inner, go⟩
  | new lead callee arguments go => rw [lead]; exact ⟨_, _, _, _, callee, arguments, go⟩
  | unary lead argument go => rw [lead]; exact ⟨_, _, argument, go⟩
  | update lead argument go => rw [lead]; exact ⟨_, _, argument, go⟩

/-- How a reading goes on after an expression and one more token. -/
def Followed (p : Nat) (l : Expression) (t : String) (ts : List String) (e : Expression) (us : List String) :
    Option Role → Prop
  | none => e = l ∧ us = t :: ts
  | some .dot => ∃ n vs, ts = n :: vs ∧ Reads (.rest p (.dot l n)) vs e us
  | some .index => ∃ i vs, Reads (.expression 0) ts i ("]" :: vs) ∧ Reads (.rest p (.index l i)) vs e us
  | some .call => ∃ a vs, Reads (.arguments false l []) ts a vs ∧ Reads (.rest p a) vs e us
  | some .update => Reads (.rest p (.update t false l)) ts e us
  | some (.binary k) => ∃ r vs, Reads (.expression (operandPowers t k).2) ts r vs ∧
      Reads (.rest p (.binary t l r)) vs e us
  | some .assignment => ∃ r vs, Reads (.expression 1) ts r vs ∧ Reads (.rest p (.assignment t l r)) vs e us
  | some .conditional => ∃ c vs a ws, Reads (.expression 1) ts c (":" :: vs) ∧ Reads (.expression 1) vs a ws ∧
      Reads (.rest p (.conditional l c a)) ws e us

theorem Reads.followed (h : Reads (.rest p l) (t :: ts) e us) : Followed p l t ts e us (role? p t) := by
  cases h with
  | dot role go => rw [role]; exact ⟨_, _, rfl, go⟩
  | index role property go => rw [role]; exact ⟨_, _, property, go⟩
  | call role arguments go => rw [role]; exact ⟨_, _, arguments, go⟩
  | updated role go => rw [role]; exact go
  | binary role right go => rw [role]; exact ⟨_, _, right, go⟩
  | assignment role value go => rw [role]; exact ⟨_, _, value, go⟩
  | conditional role consequent alternate go => rw [role]; exact ⟨_, _, _, _, consequent, alternate, go⟩
  | stop stops => rw [stops t rfl]; exact ⟨rfl, rfl⟩

theorem Reads.eq_of_stops (h : Reads (.rest p l) ts e us) (hs : Stops p ts) : e = l ∧ us = ts := by
  cases ts with
  | nil =>
    cases h with
    | stop => exact ⟨rfl, rfl⟩
  | cons t ts =>
    have := h.followed
    rwa [hs t rfl] at this

/-- How a reading of arguments goes on. -/
theorem Reads.listed (h : Reads (.arguments fresh c as) (t :: ts) e us) :
    t = ")" ∧ e = invoke fresh c [] ∧ us = ts ∨
    (t ≠ ")" ∧ ∃ a, Reads (.expression 1) (t :: ts) a (")" :: us) ∧ e = invoke fresh c (as ++ [a])) ∨
    t ≠ ")" ∧ ∃ a vs, Reads (.expression 1) (t :: ts) a ("," :: vs) ∧
      Reads (.arguments fresh c (as ++ [a])) vs e us := by
  cases h with
  | none close => exact .inl ⟨close, rfl, rfl⟩
  | last goes argument => exact .inr (.inl ⟨goes, _, argument, rfl⟩)
  | more goes argument go => exact .inr (.inr ⟨goes, _, _, argument, go⟩)

theorem Reads.unique {m : Task} (h : Reads m ts e us) (h' : Reads m ts f vs) : e = f ∧ us = vs := by
  induction h generalizing f vs with
  | name lead _ ih =>
    have h' := h'.led
    rw [lead] at h'
    exact ih h'
  | parens lead _ _ ihi ih =>
    have h' := h'.led
    rw [lead] at h'
    obtain ⟨b, ws, hi, hg⟩ := h'
    obtain ⟨rfl, hws⟩ := ihi hi
    obtain rfl := tail_eq_of_cons_eq hws
    exact ih hg
  | new lead _ _ _ ihc iha ih =>
    have h' := h'.led
    rw [lead] at h'
    obtain ⟨b, ws, a, xs, hc, ha, hg⟩ := h'
    obtain ⟨rfl, hws⟩ := ihc hc
    obtain rfl := tail_eq_of_cons_eq hws
    obtain ⟨rfl, rfl⟩ := iha ha
    exact ih hg
  | unary lead _ _ iha ih =>
    have h' := h'.led
    rw [lead] at h'
    obtain ⟨b, ws, ha, hg⟩ := h'
    obtain ⟨rfl, rfl⟩ := iha ha
    exact ih hg
  | update lead _ _ iha ih =>
    have h' := h'.led
    rw [lead] at h'
    obtain ⟨b, ws, ha, hg⟩ := h'
    obtain ⟨rfl, rfl⟩ := iha ha
    exact ih hg
  | dot role _ ih =>
    have h' := h'.followed
    rw [role] at h'
    obtain ⟨n, ws, hws, hg⟩ := h'
    obtain ⟨rfl, rfl⟩ := List.cons.inj hws
    exact ih hg
  | index role _ _ ihi ih =>
    have h' := h'.followed
    rw [role] at h'
    obtain ⟨j, ws, hi, hg⟩ := h'
    obtain ⟨rfl, hws⟩ := ihi hi
    obtain rfl := tail_eq_of_cons_eq hws
    exact ih hg
  | call role _ _ iha ih =>
    have h' := h'.followed
    rw [role] at h'
    obtain ⟨b, ws, ha, hg⟩ := h'
    obtain ⟨rfl, rfl⟩ := iha ha
    exact ih hg
  | updated role _ ih =>
    have h' := h'.followed
    rw [role] at h'
    exact ih h'
  | binary role _ _ ihr ih =>
    have h' := h'.followed
    rw [role] at h'
    obtain ⟨r, ws, hr, hg⟩ := h'
    obtain ⟨rfl, rfl⟩ := ihr hr
    exact ih hg
  | assignment role _ _ ihr ih =>
    have h' := h'.followed
    rw [role] at h'
    obtain ⟨r, ws, hr, hg⟩ := h'
    obtain ⟨rfl, rfl⟩ := ihr hr
    exact ih hg
  | conditional role _ _ _ ihc iha ih =>
    have h' := h'.followed
    rw [role] at h'
    obtain ⟨b, ws, a, xs, hc, ha, hg⟩ := h'
    obtain ⟨rfl, hws⟩ := ihc hc
    obtain rfl := tail_eq_of_cons_eq hws
    obtain ⟨rfl, rfl⟩ := iha ha
    exact ih hg
  | stop stops =>
    obtain ⟨rfl, rfl⟩ := h'.eq_of_stops stops
    exact ⟨rfl, rfl⟩
  | none close =>
    obtain ⟨_, rfl, rfl⟩ | ⟨hne, _⟩ | ⟨hne, _⟩ := h'.listed
    · exact ⟨rfl, rfl⟩
    · exact absurd close hne
    · exact absurd close hne
  | last goes _ ih =>
    obtain ⟨close, _⟩ | ⟨_, b, hb, rfl⟩ | ⟨_, b, ws, hb, _⟩ := h'.listed
    · exact absurd close goes
    · obtain ⟨rfl, hws⟩ := ih hb
      exact ⟨rfl, tail_eq_of_cons_eq hws⟩
    · exact absurd (head_eq_of_cons_eq (ih hb).2) (by decide)
  | more goes _ _ iha ih =>
    obtain ⟨close, _⟩ | ⟨_, b, hb, _⟩ | ⟨_, b, ws, hb, hg⟩ := h'.listed
    · exact absurd close goes
    · exact absurd (head_eq_of_cons_eq (iha hb).2) (by decide)
    · obtain ⟨rfl, hws⟩ := iha hb
      obtain rfl := tail_eq_of_cons_eq hws
      exact ih hg

end Reads

end DebugGuards.Printing
