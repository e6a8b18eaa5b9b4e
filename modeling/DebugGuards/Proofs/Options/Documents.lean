import DebugGuards.Json.Reader
import DebugGuards.Proofs.Options.Merging
import DebugGuards.Toml.Reader

/-! Documents as they are read. Both readers fill their tables by assigning to keys, so no
table they give has a key twice. One step of each machine keeps that for the composites still
open, and a run is made of steps. -/

namespace DebugGuards

open List

theorem foldlM_option_invariant {σ τ : Type} {step : σ → τ → Option σ} {P : σ → Prop}
    (hstep : ∀ s t s', P s → step s t = some s' → P s') {ts : List τ} {s s' : σ} (hs : P s)
    (h : ts.foldlM step s = some s') : P s' := by
  induction ts generalizing s with
  | nil => exact Option.some.inj h ▸ hs
  | cons t rest ih =>
    rw [foldlM_cons] at h
    obtain ⟨u, hu, h⟩ := Option.bind_eq_some_iff.mp h
    exact ih (hstep s t u hs hu) h

theorem keyed_reverse {items : List Json} (h : ∀ x ∈ items, x.keyed = true) :
    (Tree.arr () items.reverse).keyed = true :=
  (Tree.keyed_arr () _).mpr fun x hx => h x (mem_reverse.mp hx)

namespace Json

def Frame.Keyed : Frame → Prop
  | .list items => ∀ x ∈ items, x.keyed = true
  | .object fields _ => (Tree.obj () fields).keyed = true

def Parsing.Keyed : Parsing → Prop
  | .done v => v.keyed = true
  | .within stack _ => ∀ f ∈ stack, f.Keyed

namespace Parsing

theorem keyed_close {v : Json} {stack : List Frame} (hv : v.keyed = true) (hs : ∀ f ∈ stack, f.Keyed) :
    (close v stack).Keyed := by
  cases stack with
  | nil => exact hv
  | cons f rest =>
    rw [forall_mem_cons] at hs
    cases f with
    | list items =>
      exact forall_mem_cons.mpr ⟨forall_mem_cons.mpr ⟨hv, hs.1⟩, hs.2⟩
    | object fields key =>
      exact forall_mem_cons.mpr ⟨Tree.keyed_set hs.1 key hv, hs.2⟩

theorem keyed_step (s : Parsing) (t : Token) (s' : Parsing) (hs : s.Keyed) (h : step s t = some s') :
    s'.Keyed := by
  unfold step at h
  split at h
  · cases h
  · split at h
    · exact Option.some.inj h ▸ keyed_close rfl hs
    · exact Option.some.inj h ▸ forall_mem_cons.mpr ⟨nofun, hs⟩
    · exact Option.some.inj h ▸ forall_mem_cons.mpr ⟨rfl, hs⟩
    · split at h
      · exact Option.some.inj h ▸ keyed_close rfl (forall_mem_cons.mp hs).2
      · cases h
    · cases h
  · split at h
    · rw [Parsing.Keyed, forall_mem_cons] at hs
      exact Option.some.inj h ▸ forall_mem_cons.mpr hs
    · split at h
      · rw [Parsing.Keyed, forall_mem_cons] at hs
        exact Option.some.inj h ▸ keyed_close hs.1 hs.2
      · cases h
    · cases h
  · split at h
    · exact Option.some.inj h ▸ hs
    · cases h
  · split at h
    · exact Option.some.inj h ▸ hs
    · exact Option.some.inj h ▸ hs
    · rw [Parsing.Keyed, forall_mem_cons] at hs
      exact Option.some.inj h ▸ keyed_close (keyed_reverse hs.1) hs.2
    · rw [Parsing.Keyed, forall_mem_cons] at hs
      exact Option.some.inj h ▸ keyed_close hs.1 hs.2
    · cases h

end Parsing

theorem keyed_document? {ts : List Token} {t : Json} (h : document? ts = some t) : t.keyed = true := by
  rw [document?] at h
  split at h
  · next v hv =>
    have hk := foldlM_option_invariant Parsing.keyed_step (by simp [Parsing.Keyed]) hv
    exact Option.some.inj h ▸ hk
  · cases h

/-- A document read from text has no key twice. -/
theorem keyed_of_read {s : String} {t : Json} (h : read s = .ok t) : t.keyed = true := by
  rw [read] at h
  split at h
  · cases h
  · split at h
    · cases h
    · next v hv =>
      split_ifs at h
      exact Except.ok.inj h ▸ keyed_document? hv

end Json

namespace Toml

/-- A change that leaves each key there once. -/
def KeepsKeyed (change : Table String Json → Option (Table String Json)) : Prop :=
  ∀ t u, (Tree.obj () t).keyed = true → change t = some u → (Tree.obj () u).keyed = true

theorem KeepsKeyed.within {change : Table String Json → Option (Table String Json)}
    (hc : KeepsKeyed change) (k : String) : KeepsKeyed fun t => Toml.within t k change := by
  intro t u ht h
  have hv := ((Tree.keyed_obj () t).mp ht).2
  simp only [Toml.within] at h
  split at h
  · obtain ⟨w, hw, rfl⟩ := Option.map_eq_some_iff.mp h
    exact Tree.keyed_set ht k (hc [] w rfl hw)
  · next m fields hg =>
    obtain ⟨w, hw, rfl⟩ := Option.map_eq_some_iff.mp h
    exact Tree.keyed_set ht k (hc fields w (hv _ (Table.mem_of_get? hg)) hw)
  · next m items hg =>
    have hi := (Tree.keyed_arr m items).mp (hv _ (Table.mem_of_get? hg))
    split at h
    · next m' fields hl =>
      obtain ⟨w, hw, rfl⟩ := Option.map_eq_some_iff.mp h
      refine Tree.keyed_set ht k ((Tree.keyed_arr () _).mpr fun x hx => ?_)
      rcases mem_append.mp hx with hx | hx
      · exact hi x ((dropLast_sublist items).subset hx)
      · rw [mem_singleton.mp hx]
        exact hc fields w (hi _ (mem_of_getLast? hl)) hw
    · cases h
  · cases h

theorem keepsKeyed_assign {v : Json} (hv : v.keyed = true) (ks : List String) : KeepsKeyed (assign v ks) := by
  induction ks with
  | nil => intro t u _ h; cases h
  | cons k rest ih =>
    cases rest with
    | nil =>
      intro t u ht h
      simp only [assign] at h
      split at h
      · cases h
      · exact Option.some.inj h ▸ Tree.keyed_set ht k hv
    | cons k' rest => exact ih.within k

theorem keepsKeyed_openTable (ks : List String) : KeepsKeyed (openTable ks) := by
  induction ks with
  | nil => intro t u _ h; cases h
  | cons k rest ih =>
    cases rest with
    | nil =>
      intro t u ht h
      simp only [openTable] at h
      split at h
      · exact Option.some.inj h ▸ Tree.keyed_set ht k rfl
      · exact Option.some.inj h ▸ ht
      · cases h
    | cons k' rest => exact ih.within k

theorem keepsKeyed_addTable (ks : List String) : KeepsKeyed (addTable ks) := by
  induction ks with
  | nil => intro t u _ h; cases h
  | cons k rest ih =>
    cases rest with
    | nil =>
      intro t u ht h
      simp only [addTable] at h
      split at h
      · exact Option.some.inj h ▸ Tree.keyed_set ht k rfl
      · next m items hg =>
        have hi := (Tree.keyed_arr m items).mp (((Tree.keyed_obj () t).mp ht).2 _ (Table.mem_of_get? hg))
        refine Option.some.inj h ▸ Tree.keyed_set ht k ((Tree.keyed_arr () _).mpr fun x hx => ?_)
        rcases mem_append.mp hx with hx | hx
        · exact hi x hx
        · rw [mem_singleton.mp hx]
          rfl
      · cases h
    | cons k' rest => exact ih.within k

def Frame.Keyed : Frame → Prop
  | .list items => ∀ x ∈ items, x.keyed = true
  | .table fields _ _ => (Tree.obj () fields).keyed = true

structure Parsing.Keyed (s : Parsing) : Prop where
  document : (Tree.obj () s.document).keyed = true
  stack : ∀ f ∈ s.stack, f.Keyed

namespace Parsing

variable {s s' : Parsing}

section

variable (hs : s.Keyed)
include hs

theorem keyed_close {v : Json} (hv : v.keyed = true) (h : s.close v = some s') : s'.Keyed := by
  have hst := hs.stack
  unfold close at h
  split at h
  · dsimp only at h
    split_ifs at h
    obtain ⟨d, hd, rfl⟩ := Option.map_eq_some_iff.mp h
    exact ⟨keepsKeyed_assign hv _ _ _ hs.document hd, hst⟩
  · next items rest heq =>
    rw [heq, forall_mem_cons] at hst
    exact Option.some.inj h ▸
      ⟨hs.document, forall_mem_cons.mpr ⟨forall_mem_cons.mpr ⟨hv, hst.1⟩, hst.2⟩⟩
  · next fields values key rest heq =>
    rw [heq, forall_mem_cons] at hst
    split_ifs at h
    obtain ⟨f, hf, rfl⟩ := Option.map_eq_some_iff.mp h
    exact ⟨hs.document, forall_mem_cons.mpr ⟨keepsKeyed_assign hv _ _ _ hst.1 hf, hst.2⟩⟩

theorem Keyed.popped {f : Frame} {rest : List Frame} (h : s.stack = f :: rest) :
    f.Keyed ∧ { s with stack := rest }.Keyed := by
  have hst := hs.stack
  rw [h, forall_mem_cons] at hst
  exact ⟨hst.1, hs.document, hst.2⟩

theorem keyed_enter {double : Bool} {ps : List Piece} (h : s.enter double ps = some s') : s'.Keyed := by
  rw [enter] at h
  obtain ⟨path, -, h⟩ := Option.bind_eq_some_iff.mp h
  simp only at h
  split_ifs at h
  · cases h
  · cases h
  · obtain ⟨d, hd, h⟩ := Option.bind_eq_some_iff.mp h
    exact Option.some.inj h ▸ ⟨keepsKeyed_addTable _ _ _ hs.document hd, hs.stack⟩
  · obtain ⟨d, hd, h⟩ := Option.bind_eq_some_iff.mp h
    exact Option.some.inj h ▸ ⟨keepsKeyed_openTable _ _ _ hs.document hd, hs.stack⟩

theorem keyed_assignTo {ps : List Piece} (h : s.assignTo ps = some s') : s'.Keyed := by
  rw [assignTo] at h
  obtain ⟨path, -, h⟩ := Option.bind_eq_some_iff.mp h
  split at h
  · next fields values key rest heq =>
    obtain ⟨hf, hp⟩ := hs.popped heq
    exact Option.some.inj h ▸ ⟨hs.document, forall_mem_cons.mpr ⟨hf, hp.stack⟩⟩
  · exact Option.some.inj h ▸ ⟨hs.document, hs.stack⟩

theorem keyed_stepLine {t : Token} (h : s.stepLine t = some s') : s'.Keyed := by
  unfold stepLine at h
  split at h
  · exact Option.some.inj h ▸ hs
  · exact Option.some.inj h ▸ ⟨hs.document, hs.stack⟩
  · obtain ⟨ps, -, rfl⟩ := Option.map_eq_some_iff.mp h
    exact ⟨hs.document, hs.stack⟩

theorem keyed_stepHeader {double : Bool} {ps : List Piece} {t : Token}
    (h : s.stepHeader double ps t = some s') : s'.Keyed := by
  unfold stepHeader at h
  split at h
  · split at h
    · cases h
    · exact Option.some.inj h ▸ ⟨hs.document, hs.stack⟩
  · split at h
    · exact Option.some.inj h ▸ ⟨hs.document, hs.stack⟩
    · exact keyed_enter hs h
  · obtain ⟨more, -, rfl⟩ := Option.map_eq_some_iff.mp h
    exact ⟨hs.document, hs.stack⟩

theorem keyed_stepKey {first : Bool} {ps : List Piece} {t : Token}
    (h : s.stepKey first ps t = some s') : s'.Keyed := by
  unfold stepKey at h
  split at h
  · exact keyed_assignTo hs h
  · next fields values key rest heq =>
    obtain ⟨hf, hp⟩ := hs.popped heq
    split at h
    · exact keyed_close hp hf h
    · cases h
  · obtain ⟨more, -, rfl⟩ := Option.map_eq_some_iff.mp h
    exact ⟨hs.document, hs.stack⟩

theorem keyed_stepValue {first : Bool} {t : Token} (h : s.stepValue first t = some s') : s'.Keyed := by
  unfold stepValue at h
  split at h
  · exact keyed_close hs rfl h
  · exact keyed_close hs rfl h
  · obtain ⟨v, -, h⟩ := Option.bind_eq_some_iff.mp h
    exact keyed_close hs rfl h
  · exact Option.some.inj h ▸ hs
  · exact Option.some.inj h ▸ ⟨hs.document, forall_mem_cons.mpr ⟨nofun, hs.stack⟩⟩
  · exact Option.some.inj h ▸ ⟨hs.document, forall_mem_cons.mpr ⟨rfl, hs.stack⟩⟩
  · next items rest heq =>
    obtain ⟨hf, hp⟩ := hs.popped heq
    split at h
    · exact keyed_close hp (keyed_reverse hf) h
    · cases h
  · cases h

theorem keyed_stepNext {t : Token} (h : s.stepNext t = some s') : s'.Keyed := by
  unfold stepNext at h
  split at h
  · exact Option.some.inj h ▸ hs
  · exact Option.some.inj h ▸ ⟨hs.document, hs.stack⟩
  · exact Option.some.inj h ▸ ⟨hs.document, hs.stack⟩
  · next items rest heq =>
    obtain ⟨hf, hp⟩ := hs.popped heq
    exact keyed_close hp (keyed_reverse hf) h
  · next fields values key rest heq =>
    obtain ⟨hf, hp⟩ := hs.popped heq
    exact keyed_close hp hf h
  · cases h

end

theorem keyed_step (s : Parsing) (t : Token) (s' : Parsing) (hs : s.Keyed) (h : s.step t = some s') :
    s'.Keyed := by
  unfold step at h
  split at h
  · exact keyed_stepLine hs h
  · exact keyed_stepHeader hs h
  · split at h
    · exact keyed_enter hs h
    · cases h
  · exact keyed_stepKey hs h
  · exact keyed_stepValue hs h
  · exact keyed_stepNext hs h
  · split at h
    · exact Option.some.inj h ▸ ⟨hs.document, hs.stack⟩
    · cases h

end Parsing

/-- A table read from text has no key twice, at any depth. -/
theorem keyed_of_parse {text : String} {t : Table String Json} (h : parse text = some t) :
    (Tree.obj () t).keyed = true := by
  rw [parse] at h
  obtain ⟨ts, -, h⟩ := Option.bind_eq_some_iff.mp h
  obtain ⟨p, hp, h⟩ := Option.bind_eq_some_iff.mp h
  have hk := foldlM_option_invariant Parsing.keyed_step ⟨rfl, by simp⟩ hp
  split at h
  · exact Option.some.inj h ▸ hk.document
  · cases h

end Toml

end DebugGuards
