import DebugGuards.Expansion.State

/-! Running the steps of an expansion. A step takes a state to a result and a state;
the lemmas say what each way of making a step does to them. -/

namespace DebugGuards.Expansion

/-- What comes of a step, and the state after it. -/
def Work.result {α : Type} (x : Work α) (s : State) : Except Failure α × State := x.run.run s

open Work

variable {α β : Type} {x : Work α} {f : α → Work β} {s s' : State} {a : α} {e : Failure}

@[simp] theorem result_pure (a : α) (s : State) : (pure a : Work α).result s = (.ok a, s) := rfl

theorem result_bind (x : Work α) (f : α → Work β) (s : State) :
    (x >>= f).result s =
      match x.result s with
      | (.ok a, s') => (f a).result s'
      | (.error e, s') => (.error e, s') := by
  simp only [result, bind, ExceptT.bind, ExceptT.mk, ExceptT.run, StateT.run, StateT.bind]
  cases h : x s with
  | mk r s' => cases r <;> rfl

theorem result_bind_ok (h : x.result s = (.ok a, s')) : (x >>= f).result s = (f a).result s' := by
  rw [result_bind, h]

theorem result_bind_error (h : x.result s = (.error e, s')) : (x >>= f).result s = (.error e, s') := by
  rw [result_bind, h]

/-- A step after another fails with it, or starts where it ended. -/
theorem result_bind_inv {r : Except Failure β} (h : (x >>= f).result s = (r, s')) :
    (∃ e, x.result s = (.error e, s') ∧ r = .error e) ∨ ∃ a t, x.result s = (.ok a, t) ∧ (f a).result t = (r, s') := by
  rw [result_bind] at h
  cases hx : x.result s with
  | mk q t =>
    rw [hx] at h
    cases q with
    | ok a => exact .inr ⟨a, t, rfl, h⟩
    | error e =>
      cases h
      exact .inl ⟨e, rfl, rfl⟩

@[simp] theorem result_ofExcept (r : Except Failure α) (s : State) : (ofExcept r).result s = (r, s) := rfl

@[simp] theorem result_modify (g : State → State) (s : State) :
    (modify g : Work Unit).result s = (.ok (), g s) := rfl

@[simp] theorem result_look (g : Workspace → Except Failure α) (s : State) :
    (look g).result s = (g s.workspace, s) := rfl

@[simp] theorem result_make (g : Workspace → α × Workspace) (s : State) :
    (make g).result s = (.ok (g s.workspace).1, { s with workspace := (g s.workspace).2 }) := rfl

@[simp] theorem result_node (i : PathId) (s : State) : (node i).result s = (.ok (s.workspace.node i), s) := rfl

@[simp] theorem result_record (l : Level) (t : String) (s : State) :
    (record l t).result s = (.ok (), { s with log := s.log ++ [⟨l, t⟩] }) := rfl

theorem result_get_bind (f : State → Work β) (s : State) : (get >>= f).result s = (f s).result s := rfl

theorem result_look_bind {g : Workspace → Except Failure α} (h : g s.workspace = .ok a) :
    (look g >>= f).result s = (f a).result s := by
  rw [result_bind, result_look, h]

theorem result_look_bind_error {g : Workspace → Except Failure α} (h : g s.workspace = .error e) :
    (look g >>= f).result s = (.error e, s) := by
  rw [result_bind, result_look, h]

theorem result_act_ok {g : Workspace → Except Failure Workspace} {w : Workspace} (h : g s.workspace = .ok w) :
    (act g).result s = (.ok (), { s with workspace := w }) := by
  rw [act, result_look_bind h, result_modify]

theorem result_act_error {g : Workspace → Except Failure Workspace} (h : g s.workspace = .error e) :
    (act g).result s = (.error e, s) := by
  rw [act, result_look_bind_error h]

end DebugGuards.Expansion
