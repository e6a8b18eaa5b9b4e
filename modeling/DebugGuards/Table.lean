/-! Tables in insertion order. A key that is assigned again keeps its place and takes
the new value; a new key goes last. -/

namespace DebugGuards

/-- Entries in order of first assignment. -/
abbrev Table (κ β : Type) := List (κ × β)

namespace Table

variable {κ β γ : Type} [DecidableEq κ]

def get? (t : Table κ β) (k : κ) : Option β :=
  match t with
  | [] => none
  | (k', v) :: rest => if k' = k then some v else get? rest k

def has (t : Table κ β) (k : κ) : Bool := (get? t k).isSome

def set (t : Table κ β) (k : κ) (v : β) : Table κ β :=
  match t with
  | [] => [(k, v)]
  | (k', v') :: rest => if k' = k then (k', v) :: rest else (k', v') :: set rest k v

def keys (t : Table κ β) : List κ := t.map Prod.fst

/-- The table with the values, not the keys, sent through a function. -/
def mapValues (f : β → γ) (t : Table κ β) : Table κ γ := t.map fun e => (e.1, f e.2)

/-- The entries assigned one after the other. -/
def ofList (entries : List (κ × β)) : Table κ β := entries.foldl (fun t e => set t e.1 e.2) []

theorem get?_set (t : Table κ β) (k k' : κ) (v : β) :
    get? (set t k v) k' = if k = k' then some v else get? t k' := by
  induction t with
  | nil => simp [set, get?]
  | cons e rest ih =>
    obtain ⟨a, b⟩ := e
    by_cases h : a = k
    · subst h; by_cases h' : a = k' <;> simp [set, get?, h']
    · by_cases h' : a = k'
      · subst h'; simp [set, get?, h, Ne.symm h]
      · simp [set, get?, h, h', ih]

theorem keys_set (t : Table κ β) (k : κ) (v : β) :
    keys (set t k v) = if k ∈ keys t then keys t else keys t ++ [k] := by
  induction t with
  | nil => simp [set, keys]
  | cons e rest ih =>
    obtain ⟨a, b⟩ := e
    by_cases h : a = k
    · subst h; simp [set, keys]
    · simp only [keys] at ih ⊢
      by_cases hk : k ∈ rest.map Prod.fst <;> simp_all [set, Ne.symm h]

theorem get?_mapValues (f : β → γ) (t : Table κ β) (k : κ) :
    get? (mapValues f t) k = (get? t k).map f := by
  induction t with
  | nil => rfl
  | cons e rest ih =>
    by_cases h : e.1 = k <;> simp_all [mapValues, get?]

end Table

end DebugGuards
