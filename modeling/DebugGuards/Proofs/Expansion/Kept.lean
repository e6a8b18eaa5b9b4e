import DebugGuards.Proofs.Expansion.Entries
import DebugGuards.Proofs.Workspace.Sharing

/-! What is left of a module. A part of the module that is still there after statements
have gone and others were put under guard is reached from the outside without passing a
statement that has gone; and from a statement under guard it is reached through the
arguments of the call, or through a field other than the expression. -/

namespace DebugGuards

open DebugGuards.Tree Node Expansion List

theorem Table.mem_set_of_nodup {κ β : Type} [DecidableEq κ] {t : Table κ β} {k : κ} {v : β} {e : κ × β}
    (hd : (t.map Prod.fst).Nodup) (he : e ∈ Table.set t k v) : e ∈ t ∧ e.1 ≠ k ∨ e = (k, v) := by
  induction t with
  | nil => exact .inr (mem_singleton.mp he)
  | cons a t ih =>
    rw [map_cons, nodup_cons] at hd
    rw [Table.set] at he
    split at he
    · next ha =>
      rcases mem_cons.mp he with rfl | he
      · exact .inr (by rw [ha])
      · refine .inl ⟨mem_cons_of_mem _ he, fun hk => hd.1 ?_⟩
        rw [ha, ← hk]
        exact mem_map_of_mem he
    · next ha =>
      rcases mem_cons.mp he with rfl | he
      · exact .inl ⟨mem_cons_self .., ha⟩
      · exact (ih hd.2 he).imp_left fun h => ⟨mem_cons_of_mem _ h.1, h.2⟩

namespace Models

variable {w : Workspace} {h : Heap} {m n : Mark} {c : Cell} {k : ℕ} {d : Draft} {r : Ref}

/-- A mark inside a part is that of the part or inside something it refers to. -/
theorem mem_marks_deref (hw : Models w h) (hc : h m = some c) (hn : n ∈ (w.deref (.part m)).marks) :
    n = m ∨ ∃ r ∈ c.refs, n ∈ (w.deref r).marks := by
  obtain ⟨s, hs, e, hcell⟩ := hw.exists_shows hc
  have hs' : w.deref (.part m) = s := by rw [← e, hw.deref_eq hs]
  rw [hs', marks_eq, ref_eq_part_iff.mp e, mem_append, mem_flatMap] at hn
  rcases hn with hn | ⟨x, hx, hn⟩
  · exact .inl (mem_singleton.mp hn)
  · refine .inr ⟨x.ref, ?_, ?_⟩
    · rw [cell?_refs hcell]
      exact mem_map_of_mem hx
    · rwa [hw.deref_eq (hs.child hx)]

end Models

namespace Expansion

/-- A part of the module with a given mark is still there in what another has become. -/
inductive Keeps (p : Patch) : Tree Mark → Mark → Prop
  | self {x : Tree Mark} {n : Mark} (hx : x.ref = .part n) : Keeps p x n
  | item {m : Mark} {xs : List (Tree Mark)} {x : Tree Mark} {n : Mark} (hx : x ∈ xs) (hg : x.ref ∉ p.gone)
      (inside : Keeps p x n) : Keeps p (.arr m xs) n
  | field {m : Mark} {fs : List (String × Tree Mark)} {e : String × Tree Mark} {n : Mark} (he : e ∈ fs)
      (hg : e.2.ref ∉ p.gone) (hk : p.new m ≠ none → e.1 ≠ "expression") (inside : Keeps p e.2 n) :
      Keeps p (.obj m fs) n
  | argument {m : Mark} {fs : List (String × Tree Mark)} {a : Tree Mark} {n : Mark} (hm : p.new m ≠ none)
      (ha : a ∈ argumentsOf (expressionOf (.obj m fs))) (inside : Keeps p a n) : Keeps p (.obj m fs) n

variable {c : Scan} {fields : Fields Mark} {body : Mark} {items met : List (Tree Mark)} {guard : String}
  {p : Patch} {w : Workspace} {h : Heap} {rs : List Ref} {x : Tree Mark}

/-- The arguments of a statement under guard lie three steps inside it. -/
theorem Layout.argument_inside (hl : Layout c fields body items) (hx : x ∈ nodesFields fields) {drafts : List Draft}
    (hop : c.operands x = some drafts) {a : Tree Mark} (ha : a ∈ argumentsOf (expressionOf x)) :
    ∃ y ∈ x.children, ∃ z ∈ y.children, a ∈ z.children := by
  obtain ⟨k, fs, hcall, hk⟩ := exists_call hop
  have hexpr : expressionOf x = obj k fs := by rw [expressionOf, hcall]; rfl
  rw [hexpr] at ha
  obtain ⟨_, hnil⟩ | ⟨j, args, hargs, heq, _⟩ := hl.arguments (call_mem hx hcall hk) hk
  · rw [hnil] at ha; cases ha
  rw [heq] at ha
  refine ⟨obj k fs, ?_, arr j args, mem_map_of_mem (Table.mem_of_get? hargs), ha⟩
  cases x with
  | scalar | arr => cases hcall
  | obj m xs => exact mem_map_of_mem (Table.mem_of_get? hcall)

theorem keyed_child (hk : x.keyed = true) {y : Tree Mark} (hy : y ∈ x.children) : y.keyed = true := by
  cases x with
  | scalar => cases hy
  | arr m xs => exact (keyed_arr _ _).mp hk y hy
  | obj m fs =>
    obtain ⟨e, he, rfl⟩ := mem_map.mp hy
    exact ((keyed_obj _ _).mp hk).2 e he

theorem sublist_child {y : Tree Mark} (hy : y ∈ x.children) : y.marks.Sublist x.marks := by
  rw [marks_eq x]
  exact (sublist_flatten_of_mem (mem_map_of_mem hy)).trans (sublist_append_right ..)

theorem sublist_argumentsOf (e : Tree Mark) : ((argumentsOf e).flatMap marks).Sublist e.marks := by
  have hscalars : ∀ {l : List (Tree Mark)}, (∀ a ∈ l, a.marks = []) → (l.flatMap marks).Sublist e.marks := by
    intro l hl
    rw [flatMap_eq_nil_iff.mpr hl]
    exact nil_sublist _
  rw [argumentsOf]
  cases e with
  | scalar | arr => exact nil_sublist _
  | obj m fs =>
    rw [Tree.elementsOf, Tree.get?]
    simp only [bind, Except.bind]
    cases hget : Table.get? fs "arguments" with
    | none => exact nil_sublist _
    | some v =>
      have hv : v.marks.Sublist (obj m fs).marks := sublist_child (mem_map_of_mem (Table.mem_of_get? hget))
      cases v with
      | arr n items =>
        rw [marks_eq (arr n items)] at hv
        exact (sublist_append_right ..).trans hv
      | obj n gs =>
        refine hscalars fun a ha => ?_
        obtain ⟨f, _, rfl⟩ := mem_map.mp ha
        exact marks_scalar _
      | scalar s =>
        cases s with
        | str text =>
          refine hscalars fun a ha => ?_
          obtain ⟨f, _, rfl⟩ := mem_map.mp ha
          exact marks_scalar _
        | _ => exact nil_sublist _

namespace Stage

section

variable (hs : Stage c body p w h rs)
include hs

theorem cell (hl : Layout c fields body items) (hx : Shows c.heap x) {m : Mark}
    (hm : x.ref = .part m) (hb : m ≠ body) {y : Cell} (hy : x.cell? = some y) : h m = some (p.cell m y) := by
  have hheap := (hx.here hm).trans hy
  rw [hs.cells m (hl.ready.lt hheap) hb, hheap]
  rfl

/-- What an expression put in holds of the module, the arguments of the call hold. -/
theorem count_new_le (hg : Guarding c h guard met p) {m : Mark} {e : Ref}
    (he : p.new m = some e) {n : ℕ} (hn : n < c.base) :
    ∃ y ∈ met, y.ref = .part m ∧ (∃ drafts, c.operands y = some drafts) ∧ (w.deref e).marks.count n ≤
      ((argumentsOf (expressionOf y)).flatMap fun a => (w.deref a.ref).marks).count n := by
  obtain ⟨y, hy, drafts, hr, hop, ds, refs, hchain, hds, hdrafts⟩ := hg m e he
  refine ⟨y, hy, hr, ⟨drafts, hop⟩, ?_⟩
  obtain ⟨v, _, hv⟩ := Scan.exists_verdict hop
  have hargs : ∀ a : Tree Mark, (a.draft.olds.flatMap fun l => (w.deref (.part l)).marks) = (w.deref a.ref).marks := by
    intro a
    cases a with
    | scalar s => simp [draft, ref, Workspace.deref]
    | arr m items | obj m fields => simp [draft_arr, draft_obj, olds, ref]
  calc (w.deref e).marks.count n
      = (ds.flatMap fun d => d.olds.flatMap fun l => (w.deref (.part l)).marks).count n := by
        rw [hs.models.count_reflects hchain hn, olds_guardChain, flatMap_assoc]
    _ = (refs.flatMap fun r => (w.deref r).marks).count n :=
        count_flatMap_zip hds.1 fun q hq => (hs.models.count_reflects (hds.2 q hq) hn).symm
    _ = (drafts.flatMap fun d => d.olds.flatMap fun l => (w.deref (.part l)).marks).count n :=
        (count_flatMap_zip hdrafts.1 fun q hq => (hs.models.count_reflects (hdrafts.2 q hq) hn).symm).symm
    _ ≤ ((((argumentsOf (expressionOf y)).map draft).flatMap olds).flatMap fun l =>
        (w.deref (.part l)).marks).count n := by
        rw [← flatMap_assoc]
        exact ((olds_operands_sublist hv).flatMap _).count_le n
    _ = ((argumentsOf (expressionOf y)).flatMap fun a => (w.deref a.ref).marks).count n := by
        rw [flatMap_assoc, flatMap_map]
        exact congrArg (List.count n) (flatMap_congr fun a _ => hargs a)

theorem exists_argument (hg : Guarding c h guard met p) {m : Mark} {e : Ref}
    (he : p.new m = some e) {n : ℕ} (hn : n < c.base) (hmem : n ∈ (w.deref e).marks) :
    ∃ y ∈ met, y.ref = .part m ∧ (∃ drafts, c.operands y = some drafts) ∧
      ∃ a ∈ argumentsOf (expressionOf y), n ∈ (w.deref a.ref).marks := by
  obtain ⟨y, hy, hr, hop, hle⟩ := hs.count_new_le hg he hn
  exact ⟨y, hy, hr, hop, mem_flatMap.mp (count_pos_iff.mp
    (Nat.lt_of_lt_of_le (count_pos_iff.mpr hmem) hle))⟩

/-- A stand-in holds nothing of the module. -/
theorem not_mem_empty {m : Mark} {fs : Fields Mark}
    (hx : Shows c.heap (.obj m fs)) {e : String × Tree Mark} (he : e ∈ fs) (hg : e.2.ref ∈ p.gone) {n : ℕ}
    (hn : n < c.base) : n ∉ (w.deref (p.empty e.2.ref)).marks := by
  have hmem : e.2.ref ∈ (Table.mapValues ref fs).map Prod.snd := by
    rw [Table.mapValues, List.map_map]
    exact mem_map.mpr ⟨e, he, rfl⟩
  refine hs.models.not_mem_of_reflects (hs.empties m _ (hx.here rfl) _ hmem hg) hn fun l hl => ?_
  simp [Node.emptyStatement, Tree.olds_make] at hl

theorem keeps_of_mem (hl : Layout c fields body items) (hm : Met c fields met)
    (hg : Guarding c h guard met p) {n : ℕ} (hn : n < c.base) (hx : Shows c.heap x) (hk : x.keyed = true)
    (hb : body ∉ x.marks) (hmem : n ∈ (w.deref x.ref).marks) : Expansion.Keeps p x n := by
  induction x using inductSize with | step x ih =>
  have hchild : ∀ y ∈ x.children, Shows c.heap y ∧ y.keyed = true ∧ body ∉ y.marks := fun y hy =>
    ⟨hx.child hy, keyed_child hk hy, fun h => hb (marks_child hy h)⟩
  have hinside : ∀ y ∈ x.children, n ∈ (w.deref y.ref).marks → Expansion.Keeps p y n := fun y hy =>
    ih y (sizeOf_child hy) (hchild y hy).1 (hchild y hy).2.1 (hchild y hy).2.2
  cases x with
  | scalar s => simp [ref, Workspace.deref] at hmem
  | arr m xs =>
    have hne : m ≠ body := fun e => hb (e ▸ mem_marks_of_ref rfl)
    obtain rfl | ⟨r, hr, hn⟩ := hs.models.mem_marks_deref (hs.cell hl hx rfl hne rfl) hmem
    · exact .self rfl
    · obtain ⟨hr, hgone⟩ := mem_filter.mp hr
      obtain ⟨y, hy, rfl⟩ := mem_map.mp hr
      exact .item hy (of_decide_eq_true hgone) (hinside y hy hn)
  | obj m fs =>
    have hne : m ≠ body := fun e => hb (e ▸ mem_marks_of_ref rfl)
    have hcell := hs.cell hl hx rfl hne rfl
    -- a field that is still there
    have hfield : ∀ e ∈ fs, (p.new m ≠ none → e.1 ≠ "expression") →
        n ∈ (w.deref (standIn p.gone p.empty e.2.ref)).marks → Expansion.Keeps p (.obj m fs) n := by
      intro e he hkey hne
      by_cases hgone : e.2.ref ∈ p.gone
      · rw [standIn, if_pos hgone] at hne
        exact absurd hne (hs.not_mem_empty hx he hgone hn)
      · rw [standIn, if_neg hgone] at hne
        exact .field he hgone hkey (hinside e.2 (mem_map_of_mem he) hne)
    obtain rfl | ⟨r, hr, hnr⟩ := hs.models.mem_marks_deref hcell hmem
    · exact .self rfl
    rw [Patch.cell, Cell.prune, Table.mapValues_mapValues] at hr
    cases hnew : p.new m with
    | none =>
      rw [hnew, Cell.under_none, Cell.refs, Table.mapValues, List.map_map, mem_map] at hr
      obtain ⟨e, he, rfl⟩ := hr
      exact hfield e he (fun h => absurd hnew h) hnr
    | some e₀ =>
      have hnn : p.new m ≠ none := by simp [hnew]
      rw [hnew, Cell.under, Cell.refs, mem_map] at hr
      obtain ⟨f, hf, rfl⟩ := hr
      have hkeys : ((Table.mapValues (fun x => standIn p.gone p.empty (ref x)) fs).map Prod.fst).Nodup := by
        rw [Table.mapValues, List.map_map]
        exact ((keyed_obj _ _).mp hk).1
      rcases Table.mem_set_of_nodup hkeys hf with ⟨hf, hkey⟩ | rfl
      · obtain ⟨e, he, rfl⟩ := mem_map.mp hf
        exact hfield e he (fun _ => hkey) hnr
      · obtain ⟨y, hy, hyr, ⟨drafts, hop⟩, a, ha, hna⟩ := hs.exists_argument hg hnew hn hnr
        obtain rfl : y = .obj m fs := (hm.judged y hy).shows.unique hx hyr
        obtain ⟨y₁, hy₁, y₂, hy₂, hy₃⟩ := hl.argument_inside (hm.nodes hy) hop ha
        have hsize := Nat.lt_trans (sizeOf_child hy₃) (Nat.lt_trans (sizeOf_child hy₂) (sizeOf_child hy₁))
        refine .argument hnn ha (ih a hsize ((hx.child hy₁).child hy₂ |>.child hy₃)
          (keyed_child (keyed_child (keyed_child hk hy₁) hy₂) hy₃) (fun h => ?_) hna)
        exact hb (marks_child hy₁ (marks_child hy₂ (marks_child hy₃ h)))

end

end Stage

end Expansion

end DebugGuards
