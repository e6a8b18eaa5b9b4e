import DebugGuards.Proofs.Workspace.Distinct
import DebugGuards.Proofs.Workspace.Surgery

/-! Taking parts out of a heap. Parts that are gone leave the lists they were in, and a
field that held one refers to a stand-in. If each part is held only once, taking out
one more part changes a single cell. -/

namespace DebugGuards

open DebugGuards.Tree Node List

/-- What is found in the place of a part. -/
def standIn (gone : List Ref) (empty : Ref → Ref) (r : Ref) : Ref := if r ∈ gone then empty r else r

/-- The cell after some parts are gone. -/
def Cell.prune (gone : List Ref) (empty : Ref → Ref) : Cell → Cell
  | .list rs => .list (rs.filter (· ∉ gone))
  | .record fs => .record (Table.mapValues (standIn gone empty) fs)

section Lists
variable {r r' : Ref} {rs : List Ref}

theorem Cell.count_le {c : Cell} (hc : c.parts.Nodup) (m : Mark) : c.refs.count (.part m) ≤ 1 := by
  rw [parts] at hc
  revert hc
  generalize c.refs = rs
  intro hc
  induction rs with
  | nil => simp
  | cons r rs ih =>
    cases r with
    | scalar s =>
      rw [filterMap_cons_none rfl] at hc
      rw [count_cons_of_ne (by simp)]
      exact ih hc
    | part n =>
      rw [filterMap_cons_some (f := Ref.part?) (b := n) rfl, nodup_cons] at hc
      by_cases e : n = m
      · subst e
        have hn : Ref.part n ∉ rs := fun h => hc.1 (mem_filterMap.mpr ⟨_, h, rfl⟩)
        have hz := count_eq_zero_of_not_mem hn
        rw [count_cons_self]
        omega
      · rw [count_cons_of_ne (by simpa using e)]
        exact ih hc.2

/-- Cutting out the only occurrence of an item. -/
theorem spliced_nil (hr : rs.count r ≤ 1) : spliced r [] rs = rs.filter (· ≠ r) := by
  induction rs with
  | nil => rfl
  | cons x rs ih =>
    by_cases e : x = r
    · subst e
      have hx : x ∉ rs := by
        rw [count_cons_self] at hr
        exact count_eq_zero.mp (by omega)
      have hrest : rs.filter (· ≠ x) = rs := by
        rw [filter_eq_self]
        rintro y hy
        exact decide_eq_true fun e => hx (e ▸ hy)
      rw [filter_cons_of_neg (by simp), hrest]
      simp [spliced]
    · rw [count_cons_of_ne e] at hr
      rw [filter_cons_of_pos (by simpa using e), ← ih hr, spliced,
        takeWhile_cons_of_pos (by simpa using e), dropWhile_cons_of_pos (by simpa using e)]
      rfl

end Lists

namespace Cell

variable {c : Cell} {gone : List Ref} {empty empty' : Ref → Ref} {r r' : Ref}

theorem prune_of_disjoint (hc : ∀ x ∈ c.refs, x ∉ gone) : c.prune gone empty = c := by
  cases c with
  | list rs => rw [prune, filter_eq_self.mpr fun x hx => by simpa using hc x hx]
  | record fs =>
    have : Table.mapValues (standIn gone empty) fs = fs := by
      rw [Table.mapValues, map_congr_left (g := id), map_id]
      intro e he
      exact Prod.ext rfl (if_neg (hc e.2 (mem_map_of_mem he)))
    rw [prune, this]

/-- One part more is gone that the cell does not hold. -/
theorem prune_of_not_mem (hr : r ∉ c.refs) (he : ∀ x, x ≠ r → empty' x = empty x) :
    c.prune (gone ++ [r]) empty' = c.prune gone empty := by
  cases c with
  | list rs =>
    rw [prune, prune]
    congr 1
    refine filter_congr fun x hx => ?_
    have : x ≠ r := fun e => hr (e ▸ hx)
    simp [this]
  | record fs =>
    rw [prune, prune]
    congr 1
    refine map_congr_left fun e he' => Prod.ext rfl ?_
    have : e.2 ≠ r := fun h => hr (h ▸ mem_map_of_mem he')
    simp [standIn, this, he _ this]

theorem prune_list {rs : List Ref} (hone : rs.count r ≤ 1) :
    (list rs).prune (gone ++ [r]) empty = .list (spliced r [] (rs.filter (· ∉ gone))) := by
  rw [spliced_nil (Nat.le_trans (filter_sublist.count_le _) hone), filter_filter, prune]
  congr 1
  refine filter_congr fun x _ => ?_
  simp [and_comm]

theorem prune_record {fs : List (String × Ref)} {key : String} (hone : (fs.map Prod.snd).count r ≤ 1)
    (hkey : Table.get? fs key = some r) :
    (record fs).prune (gone ++ [r]) (Function.update empty r r') =
      .record (Table.set (Table.mapValues (standIn gone empty) fs) key r') := by
  have hother : ∀ x, x ≠ r → standIn (gone ++ [r]) (Function.update empty r r') x = standIn gone empty x := by
    intro x hx
    simp [standIn, hx]
  rw [prune]
  congr 1
  induction fs with
  | nil => cases hkey
  | cons e fs ih =>
    rw [Table.get?] at hkey
    rw [map_cons] at hone
    split at hkey
    · next hk =>
      cases hkey
      have hrest : ∀ x ∈ fs.map Prod.snd, x ≠ e.2 := by
        rw [count_cons_self] at hone
        rintro x hx rfl
        exact count_eq_zero.mp (by omega) hx
      have htail : Table.mapValues (standIn (gone ++ [e.2]) (Function.update empty e.2 r')) fs =
          Table.mapValues (standIn gone empty) fs :=
        map_congr_left fun x hx => Prod.ext rfl (hother _ (hrest _ (mem_map_of_mem hx)))
      simp only [Table.mapValues] at htail
      simp only [Table.mapValues, map_cons, Table.set, hk, if_true, htail]
      simp [standIn]
    · next hk =>
      have hne : e.2 ≠ r := by
        rintro rfl
        rw [count_cons_self] at hone
        have hmem : e.2 ∈ fs.map Prod.snd := mem_map.mpr ⟨_, Table.mem_of_get? hkey, rfl⟩
        exact count_eq_zero.mp (by omega) hmem
      have ih := ih (Nat.le_trans count_le_count_cons hone) hkey
      simp only [Table.mapValues] at ih
      simp only [Table.mapValues, map_cons, Table.set, hk, if_false, ih, hother _ hne]

end Cell

section Remnants

/-- What a field holds after a node of a type was removed from it. -/
def remnant {α : Type} [Inhabited α] (kind : String) : Tree α :=
  if kind.endsWith "Statement" then emptyStatement else .null

theorem remnant_cases {α : Type} [Inhabited α] (kind : String) :
    (remnant kind : Tree α) = emptyStatement ∨ (remnant kind : Tree α) = .null := by
  rw [remnant]
  split <;> simp

theorem leftover_eq_remnant {x : Tree Mark} {k : String} (hk : kind? x = some k) :
    Workspace.leftover x = .ok (remnant k) := by
  cases x with
  | scalar | arr => cases hk
  | obj m fields =>
    simp only [Workspace.leftover, Tree.get?, kind?_obj.mp hk]
    rfl

theorem remnant_grounded (h : Heap) (kind : String) : Grounded h (remnant kind) := by
  rcases remnant_cases (α := Option Mark) kind with e | e <;> rw [e]
  · exact .made _ nofun (by simpa [emptyStatement, make] using .made _ nofun (by simp))
  · exact .made _ nofun (by simp)

theorem olds_remnant (kind : String) : (remnant kind).olds = [] := by
  rcases remnant_cases (α := Option Mark) kind with e | e <;> rw [e]
  · rfl
  · rfl

theorem resolve_remnant (v : Mark → Json) (kind : String) : resolve v (remnant kind) = remnant kind := by
  rw [remnant, remnant]
  split <;> rfl

end Remnants

/-- The heap of a document some parts of which are gone, in the marks below a bound. -/
def Pruned (t : Tree Mark) (base : ℕ) (gone : List Ref) (empty : Ref → Ref) (h : Heap) : Prop :=
  ∀ m : ℕ, m < base → h m = (t.heap m).map (Cell.prune gone empty)

section Heaps

variable {t : Tree Mark} {w : Workspace} {h h' : Heap} {base k : ℕ} {gone : List Ref} {empty empty' : Ref → Ref}

/-- A part is held at one place. -/
theorem Tree.heap_owner (hd : t.marks.Nodup) {m₁ m₂ n : Mark} {x₁ x₂ : Cell} (h₁ : t.heap m₁ = some x₁)
    (h₂ : t.heap m₂ = some x₂) (hn₁ : .part n ∈ x₁.refs) (hn₂ : .part n ∈ x₂.refs) : m₁ = m₂ := by
  refine (shows_heap hd).owner_unique hd (n := n) (mem_marks_of_heap h₁) (mem_marks_of_heap h₂) ?_ ?_
  · rw [Heap.parts, h₁]; exact Cell.mem_parts.mpr hn₁
  · rw [Heap.parts, h₂]; exact Cell.mem_parts.mpr hn₂

theorem Tree.heap_count_le (hd : t.marks.Nodup) {m : Mark} {x : Cell} (hm : t.heap m = some x) (n : Mark) :
    x.refs.count (.part n) ≤ 1 := by
  have hp := (shows_heap hd).parts_of_nodup hd (mem_marks_of_heap hm)
  rw [Heap.parts, hm] at hp
  exact Cell.count_le hp n

theorem Pruned.write (hp : Pruned t base gone empty h) (hd : t.marks.Nodup) (hle : base ≤ w.fresh) {m n : ℕ} {x : Cell}
    (hx : t.heap m = some x) (hn : .part n ∈ x.refs) (he : ∀ r, r ≠ .part n → empty' r = empty r)
    (hw : h.Writes w.fresh m (x.prune (gone ++ [.part n]) empty') h' k) :
    Pruned t base (gone ++ [.part n]) empty' h' := by
  intro l hl
  by_cases e : l = m
  · subst e; rw [hw.here, hx]; rfl
  · rw [hw.old l (Nat.lt_of_lt_of_le hl hle) e, hp l hl]
    cases hc : t.heap l with
    | none => rfl
    | some y =>
      rw [Option.map_some, Option.map_some, Cell.prune_of_not_mem ?_ he]
      exact fun hy => e (heap_owner hd hc hx hy hn)

/-- The node of a path is taken out of a document that may have lost others before. -/
theorem Pruned.remove (hp : Pruned t base gone empty h) (hd : t.marks.Nodup) (hb : ∀ m ∈ t.marks, (m : ℕ) < base)
    (hw : Models w h) (hle : base ≤ w.fresh) {i : PathId} {n : ℕ} {kind : String} (hplaced : Placed t.heap (w.path i))
    (hnode : (w.path i).node = .part n) (hnew : .part n ∉ gone) (hkind : kind? (w.deref (.part n)) = some kind) :
    ∃ w' h' empty', w.remove i = .ok w' ∧ Models w' h' ∧ w.SameFrame w' ∧ (w.fresh : ℕ) ≤ w'.fresh ∧
      h.Charges w.fresh [] h' w'.fresh [] ∧ Pruned t base (gone ++ [.part n]) empty' h' ∧
      (∀ (m : ℕ) y, base ≤ m → h m = some y → h' m = some y) ∧ (∀ r, r ≠ .part n → empty' r = empty r) ∧
      ∀ m fs, t.heap m = some (.record fs) → .part n ∈ fs.map Prod.snd →
        Reflects h' base (remnant kind) (empty' (.part n)) := by
  have hlt {m : ℕ} {x : Cell} (hm : t.heap m = some x) : m < base := hb m (mem_marks_of_heap hm)
  rw [Placed, hnode] at hplaced
  split at hplaced
  · exact hplaced.elim
  · next parent key hslot =>
    obtain ⟨fs, hfs, hkey⟩ := hplaced
    have hcell := hp parent (hlt hfs)
    rw [hfs] at hcell
    obtain ⟨h', r, hmodels, hwrites, hrefl, hframe, hcharges⟩ :=
      hw.setPartField hcell key (remnant_grounded _ kind)
    rw [olds_remnant] at hcharges
    have hrm : w.remove i = .ok (w.setPartField parent key (remnant kind)) := by
      simp only [Workspace.remove, hslot, hnode, leftover_eq_remnant hkind]
      rfl
    have hother : ∀ r', r' ≠ .part n → Function.update empty (.part n) r r' = empty r' :=
      fun r' hr' => Function.update_of_ne hr' _ _
    rw [← Cell.prune_record (heap_count_le hd hfs n) hkey] at hwrites
    refine ⟨_, h', Function.update empty (.part n) r, hrm, hmodels, hframe, hwrites.le, hcharges,
      hp.write hd hle hfs (mem_map_of_mem (Table.mem_of_get? hkey)) hother hwrites, fun m y hm hy => ?_, hother,
      fun _ _ _ _ => ?_⟩
    · have := hlt hfs
      exact hwrites.cell hw.below (by omega) hy
    · rw [Function.update_self]
      exact hrefl.mono hle fun _ _ _ hy => hy
  · next parent list key hslot =>
    obtain ⟨rs, hrs, hmem⟩ := hplaced
    have hcell := hp list (hlt hrs)
    rw [hrs] at hcell
    have hin : w.inPlace (w.path i) = true := by
      rw [hw.inPlace_item hslot hcell, hnode, mem_filter]
      exact ⟨hmem, decide_eq_true hnew⟩
    obtain ⟨h', w', news, hw', hmodels, hwrites, hlen, _, hframe, hcharges⟩ :=
      hw.spliceAt hcell hin (show ∀ d ∈ ([] : List Draft), Grounded _ d by simp)
    obtain rfl : news = [] := length_eq_zero_iff.mp hlen.symm
    have hrm : w.remove i = .ok w' := by
      simp only [Workspace.remove, hslot, hw']
      rfl
    have hprune : (Cell.list rs).prune (gone ++ [.part n]) empty = _ := Cell.prune_list (heap_count_le hd hrs n)
    rw [hnode, ← hprune] at hwrites
    refine ⟨w', h', empty, hrm, hmodels, hframe, hwrites.le, hcharges,
      hp.write hd hle hrs hmem (fun _ _ => rfl) hwrites, fun m y hm hy => ?_, fun _ _ => rfl, fun m fs hfs hmem' => ?_⟩
    · have := hlt hrs
      exact hwrites.cell hw.below (by omega) hy
    · obtain rfl : m = list := heap_owner hd hfs hrs hmem' hmem
      rw [hfs] at hrs
      cases hrs

end Heaps

end DebugGuards
