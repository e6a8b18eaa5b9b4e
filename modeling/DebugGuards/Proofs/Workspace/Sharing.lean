import DebugGuards.Proofs.Workspace.Surgery
import Mathlib.Data.List.Flatten

/-! Documents in which no part is shared. If the old parts lie inside a document once
each, and no new part is referred to twice, each part has a place of its own: what holds
a part lies inside the document no more often than what holds that, up to an old part or
the document itself. -/

namespace DebugGuards

open List

section Distinct

variable {h : Heap} {t s : Tree Mark} {m₀ m n k : ℕ}

theorem Tree.length_marks_child {c : Tree Mark} (hm : t.ref = .part m) (hc : c ∈ t.children) :
    c.marks.length < t.marks.length := by
  have hsub : c.marks.Sublist (t.children.flatMap marks) := sublist_flatten_of_mem (mem_map_of_mem hc)
  rw [marks_eq t, ref_eq_part_iff.mp hm, length_append]
  exact Nat.lt_of_le_of_lt hsub.length_le (Nat.lt_add_of_pos_left Nat.zero_lt_one)

theorem Tree.count_marks (t : Tree Mark) (n : Mark) :
    t.marks.count n = (if t.ref = .part n then 1 else 0) + (t.children.flatMap marks).count n := by
  rw [marks_eq, count_append]
  congr 1
  split
  · next hr => rw [ref_eq_part_iff.mp hr]; simp
  · next hr =>
    rw [count_eq_zero, Option.mem_toList]
    exact fun hm => hr (ref_eq_part_iff.mpr hm)

/-- A part that one cell refers to, and that once, lies inside a document no more often
than that cell does. -/
theorem Shows.count_le (ht : Shows h t) (hother : ∀ m c, h m = some c → m ≠ m₀ → .part n ∉ c.refs)
    (hone : ∀ c, h m₀ = some c → c.refs.count (.part n) ≤ 1) :
    t.marks.count n ≤ (if t.ref = .part n then 1 else 0) + t.marks.count m₀ := by
  induction t using Tree.inductChildren with
  | step t ih =>
    have hchildren : ∀ cs : List (Tree Mark), cs ⊆ t.children →
        (cs.flatMap Tree.marks).count n ≤ (cs.map Tree.ref).count (.part n) + (cs.flatMap Tree.marks).count m₀ := by
      intro cs hcs
      induction cs with
      | nil => simp
      | cons x cs ihcs =>
        have hx := ih x (hcs (mem_cons_self ..)) (ht.child (hcs (mem_cons_self ..)))
        have hrest := ihcs fun y hy => hcs (mem_cons_of_mem _ hy)
        rw [flatMap_cons, count_append, count_append, map_cons, count_cons]
        simp only [beq_iff_eq]
        omega
    have hall := hchildren t.children (List.Subset.refl _)
    have hrefs : (t.children.map Tree.ref).count (.part n) ≤ if t.ref = .part m₀ then 1 else 0 := by
      cases hr : t.ref with
      | scalar s =>
        cases t with
        | scalar => simp [Tree.children]
        | arr | obj => cases hr
      | part m =>
        obtain ⟨c, hc⟩ := ht.some_of_mem (Tree.mem_marks_of_ref hr)
        have hcell := Tree.cell?_refs ((ht.here hr).symm.trans hc)
        rw [← hcell]
        split
        · next e => cases e; exact hone c hc
        · next e =>
          exact Nat.le_of_eq (count_eq_zero.mpr (hother m c hc fun eq => e (by rw [eq])))
    rw [Tree.count_marks t n, Tree.count_marks t m₀]
    omega

theorem Shows.length_marks_le (ht : Shows h t) (hm : m ∈ t.marks) (hs : Shows h s) (e : s.ref = .part m) :
    s.marks.length ≤ t.marks.length := by
  obtain ⟨s', hs'⟩ := Tree.find?_isSome hm
  obtain ⟨h1, _, h3⟩ := Tree.find?_spec hs'
  obtain rfl : s' = s := (ht.find? hs').unique hs (h1.trans e.symm)
  exact h3

/-- If every old part lies inside a document once at most, and every new part is referred
to once at most, no part is shared. -/
theorem Shows.nodup (ht : Shows h t) (hb : ∀ m c, h m = some c → m < k) {base : ℕ} (hs : h.Spare base k [])
    (hold : ∀ n < base, t.marks.count n ≤ 1) : t.marks.Nodup := by
  -- the induction is on how far a part is from the top
  have hdepth : ∀ (d : ℕ) (s : Tree Mark) (n : Mark), Shows h s → s.ref = .part n → n ∈ t.marks →
      t.marks.length - s.marks.length = d → t.marks.count n ≤ 1 := by
    intro d
    induction d using Nat.strongRecOn with
    | ind d ih =>
      intro s n hsn e hn hlen
      rcases Nat.lt_or_ge n base with hlt | hge
      · exact hold n hlt
      by_cases hr : t.ref = .part n
      · have hnone : n ∉ t.children.flatMap Tree.marks := by
          rw [mem_flatMap]
          rintro ⟨x, hx, hmem⟩
          exact ht.not_mem_child hr hx hmem
        have hcount := Tree.count_marks t n
        rw [if_pos hr, count_eq_zero.mpr hnone] at hcount
        exact Nat.le_of_eq hcount
      have hone : h.uses (.part n) k ≤ 1 := by
        have := hs n hge
        rw [count_nil] at this
        split_ifs at this <;> omega
      obtain ⟨m, hm, c, hc, hmem⟩ := ht.exists_holder hn hr
      obtain ⟨s', hs', e'⟩ := ht.exists_part hm
      have hchild := hmem
      rw [Tree.cell?_refs ((hs'.here e').symm.trans hc)] at hchild
      obtain ⟨x, hx, hxr⟩ := mem_map.mp hchild
      obtain rfl := (hs'.child hx).unique hsn (hxr.trans e.symm)
      have hlt := Tree.length_marks_child e' hx
      have hle := ht.length_marks_le hm hs' e'
      have hcount : t.marks.count n ≤ (if t.ref = .part n then 1 else 0) + t.marks.count m := ht.count_le
        (fun m' c' hc' hne hmem' => hne (Heap.holder_unique hb hone hc' hc hmem' hmem))
        fun c' hc' => Nat.le_trans (Nat.le_of_eq (Heap.usesAt_of_some hc').symm)
          (Nat.le_trans (Heap.usesAt_le (hb m c' hc')) hone)
      rw [if_neg hr, Nat.zero_add] at hcount
      exact Nat.le_trans hcount (ih _ (by omega) s' m hs' e' hm rfl)
  rw [nodup_iff_count_le_one]
  intro n
  by_cases hn : n ∈ t.marks
  · obtain ⟨s, hs, e⟩ := ht.exists_part hn
    exact hdepth _ s n hs e hn rfl
  · rw [count_eq_zero.mpr hn]
    exact Nat.zero_le 1

end Distinct

namespace Models

open DebugGuards.Tree

variable {w w' : Workspace} {h h' : Heap} {m : Mark} {c : Cell} {n k : ℕ} {d : Draft} {r : Ref} {t : Tree Mark}

/-- How often a part lies inside another, by the references of the latter. -/
theorem count_deref (hw : Models w h) (hc : h m = some c) (n : Mark) :
    (w.deref (.part m)).marks.count n =
      (if m = n then 1 else 0) + (c.refs.flatMap fun r => (w.deref r).marks).count n := by
  obtain ⟨s, hs, e, hcell⟩ := hw.exists_shows hc
  have hrefs : (c.refs.flatMap fun r => (w.deref r).marks) = s.children.flatMap marks := by
    rw [cell?_refs hcell, flatMap_map]
    exact flatMap_congr fun x hx => by rw [hw.deref_eq (hs.child hx)]
  rw [hrefs, ← e, hw.deref_eq hs, count_marks, e]
  simp only [Ref.part.injEq]

/-- An old part lies inside a settled draft as often as inside what the draft takes. -/
theorem count_reflects (hw : Models w h) (hr : Reflects h k d r) (hn : n < k) :
    (w.deref r).marks.count n = (d.olds.flatMap fun l => (w.deref (.part l)).marks).count n := by
  induction hr with
  | scalar s => simp [Workspace.deref]
  | old d l hl => rw [olds_old hl, flatMap_singleton]
  | new d l c hd hk hc fits _ ih =>
    rw [hw.count_deref hc, if_neg (Nat.ne_of_gt (Nat.lt_of_lt_of_le hn hk)), Nat.zero_add, olds_new hd,
      flatMap_assoc]
    exact (count_flatMap_zip fits.length_eq fun p hp => (ih p hp).symm).symm

theorem spare (hw : Models w h) : h.Spare w.fresh w.fresh [] := by
  refine Heap.spare_of_below (fun m c hc n hn => ?_) _
  obtain ⟨href, hshows⟩ := hw.shows_of_refs hc hn
  obtain ⟨x, hx⟩ := hshows.some_of_mem (mem_marks_of_ref href)
  exact hw.below n x hx

/-- A new value in a field takes no part to a second place. -/
theorem nodup_setPartField (hw : Models w h) {fs : List (String × Ref)} (hc : h m = some (.record fs)) {key : String}
    {v : Draft} (hv : Grounded (Function.update h m none) v) (hnone : v.olds = []) (hd : w.root.marks.Nodup) :
    (w.setPartField m key v).root.marks.Nodup := by
  obtain ⟨h', r, hw', hwr, hr, hf, hch⟩ := hw.setPartField hc key hv
  rw [hnone] at hch
  refine hw'.root.nodup hw'.below (hw.spare.write hch hwr.le) fun n hn => ?_
  have hle : ∀ t : Tree Mark, Shows h t → ((w.setPartField m key v).deref t.ref).marks.count n ≤ t.marks.count n := by
    intro t ht
    induction t using inductChildren with
    | step t ih =>
      cases ha : t.ref with
      | scalar s => simp [Workspace.deref]
      | part a =>
        obtain ⟨x, hx⟩ := ht.some_of_mem (mem_marks_of_ref ha)
        have hrefs := cell?_refs ((ht.here ha).symm.trans hx)
        have hchildren : (x.refs.flatMap fun r => ((w.setPartField m key v).deref r).marks).count n ≤
            (t.children.flatMap marks).count n := by
          rw [hrefs, flatMap_map]
          exact count_flatMap_le fun y hy => ih y hy (ht.child hy)
        rw [count_marks t, ha]
        simp only [Ref.part.injEq]
        by_cases hne : a = m
        · subst hne
          obtain rfl := Option.some.inj (hx.symm.trans hc)
          have hnew := hw'.count_reflects hr hn
          rw [hnone, flatMap_nil, count_nil] at hnew
          have hset := Table.count_flatMap_set fs key r (fun r => ((w.setPartField a key v).deref r).marks) n
          rw [hw'.count_deref hwr.here]
          simp only [Cell.refs] at hchildren ⊢
          omega
        · rw [hw'.count_deref (hwr.cell hw.below hne hx)]
          exact Nat.add_le_add_left hchildren _
  have hroot := hle w.root hw.root
  rw [← hf.root, hw'.deref_eq hw'.root] at hroot
  exact Nat.le_trans hroot (nodup_iff_count_le_one.mp hd n)

end Models

end DebugGuards
