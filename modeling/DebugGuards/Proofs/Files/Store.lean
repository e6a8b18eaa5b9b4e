import DebugGuards.Files.Store
import DebugGuards.Proofs.Table

/-! Trees of files. In a sound tree no name leads up and nothing lies below a file, so a
path that goes on from a directory by the names of a file below it leads to that file. A file
can be written where no directory is and no file is above, and writing it changes neither
where other paths lead nor what other files hold. -/

namespace DebugGuards.Files.Store

open List

variable {s : Store} {r : Route} {p q t u top : Place} {text : String}

/-- No name leads up, and nothing lies below a file. -/
structure Sound (s : Store) : Prop where
  plain : ∀ p ∈ Table.keys s.files ++ s.folders, ".." ∉ p
  leaf : ∀ p ∈ Table.keys s.files, ∀ q ∈ Table.keys s.files ++ s.folders, p <+: q → q = p

instance (s : Store) : Decidable s.Sound :=
  decidable_of_iff (_ ∧ _) ⟨fun h => ⟨h.1, h.2⟩, fun h => ⟨h.plain, h.leaf⟩⟩

/-- Nothing is in the way of a file. -/
structure Free (s : Store) (t : Place) : Prop where
  folder : s.isFolder t = false
  above : ∀ u ∈ upward t.dropLast, s.isFile u = false

instance (s : Store) (t : Place) : Decidable (s.Free t) :=
  decidable_of_iff (_ ∧ _) ⟨fun h => ⟨h.1, h.2⟩, fun h => ⟨h.folder, h.above⟩⟩

theorem mem_upward : u ∈ upward p ↔ u <+: p := by
  simp only [upward, mem_map, mem_reverse, mem_range]
  constructor
  · rintro ⟨n, -, rfl⟩
    exact take_prefix n p
  · intro h
    exact ⟨u.length, Nat.lt_succ_of_le h.length_le, (prefix_iff_eq_take.mp h).symm⟩

/-- The tree with a file set to a text. -/
def put (s : Store) (t : Place) (text : String) : Store := { s with files := Table.set s.files t text }

theorem isFile_iff : s.isFile p = true ↔ p ∈ Table.keys s.files := Table.mem_keys.symm

theorem isFolder_iff : s.isFolder p = true ↔
    p = [] ∨ (∃ q ∈ s.folders, p <+: q) ∨ ∃ q ∈ Table.keys s.files, p <+: q ∧ p ≠ q := by
  simp [isFolder, Table.keys, or_assoc]

section Putting

theorem get?_put (t u : Place) (text : String) :
    Table.get? (s.put t text).files u = if t = u then some text else Table.get? s.files u :=
  Table.get?_set s.files t u text

theorem isFile_put (t u : Place) (text : String) : (s.put t text).isFile u = (t == u || s.isFile u) := by
  rw [isFile, Table.has, get?_put]
  by_cases h : t = u <;> simp [h, isFile, Table.has]

theorem isFolder_put : (s.put t text).isFolder p = true ↔ s.isFolder p = true ∨ p <+: t ∧ p ≠ t := by
  have hk (q : Place) : q ∈ Table.keys (s.put t text).files ↔ q = t ∨ q ∈ Table.keys s.files := by
    rw [← isFile_iff, isFile_put, Bool.or_eq_true, beq_iff_eq, isFile_iff, eq_comm]
  rw [isFolder_iff, isFolder_iff]
  simp only [hk]
  change p = [] ∨ (∃ q ∈ s.folders, p <+: q) ∨ _ ↔ _
  constructor
  · rintro (h | h | ⟨q, rfl | hq, h⟩)
    · exact .inl (.inl h)
    · exact .inl (.inr (.inl h))
    · exact .inr h
    · exact .inl (.inr (.inr ⟨q, hq, h⟩))
  · rintro ((h | h | ⟨q, hq, h⟩) | h)
    · exact .inl h
    · exact .inr (.inl h)
    · exact .inr (.inr ⟨q, .inr hq, h⟩)
    · exact .inr (.inr ⟨t, .inl rfl, h⟩)

theorem Free.put (h : s.Free u) (hut : ¬ u <+: t) (htu : ¬ t <+: u) : (s.put t text).Free u where
  folder := by
    rw [Bool.eq_false_iff, ne_eq, isFolder_put, not_or]
    exact ⟨by simp [h.folder], fun h => hut h.1⟩
  above v hv := by
    rw [isFile_put, Bool.or_eq_false_iff]
    refine ⟨?_, h.above v hv⟩
    rw [beq_eq_false_iff_ne]
    rintro rfl
    exact htu ((mem_upward.mp hv).trans (List.dropLast_prefix u))

theorem write_eq (hr : r.resolve = some t) (h : s.Free t) (text : String) : s.write r text = .ok (s.put t text) := by
  have hup : (upward t.dropLast).any s.isFile = false := by
    rw [any_eq_false]
    intro u hu
    rw [h.above u hu]
    exact Bool.false_ne_true
  have hlast : s.isFile t.dropLast = false := h.above _ (mem_upward.mpr (prefix_refl _))
  rw [write, hr]
  simp only [hlast, hup, h.folder]
  rfl

end Putting

section Paths

theorem advance_eq_ok {path name : String} {here v : Place} : s.advance path here name = .ok v ↔
    s.isFile here = false ∧ s.isFolder here = true ∧
      (name ≠ ".." ∧ v = here ++ [name] ∨ name = ".." ∧ here ≠ [] ∧ v = here.dropLast) := by
  unfold advance
  cases s.isFile here <;> cases s.isFolder here <;> by_cases hn : name = ".." <;> cases here <;>
    simp [hn, eq_comm]

theorem foldlM_ok_of_imp {α β ε : Type} {f g : β → α → Except ε β}
    (hfg : ∀ b a c, f b a = .ok c → g b a = .ok c) {l : List α} {b c : β} (h : l.foldlM f b = .ok c) :
    l.foldlM g b = .ok c := by
  induction l generalizing b with
  | nil => exact h
  | cons a rest ih =>
    rw [foldlM_cons] at h ⊢
    cases hf : f b a with
    | error e => rw [hf] at h; cases h
    | ok d =>
      rw [hf] at h
      rw [hfg b a d hf]
      exact ih h

theorem locate_eq_ok : s.locate r = .ok u ↔ r.root = "" ∧ r.names.foldlM (s.advance r.text) [] = .ok u := by
  unfold locate
  by_cases h : r.root = "" <;> simp [h]

/-- Paths lead where they led: they only pass directories. -/
theorem locate_put (ht : s.isFolder t = false) (h : s.locate r = .ok u) (text : String) :
    (s.put t text).locate r = .ok u := by
  rw [locate_eq_ok] at h ⊢
  refine ⟨h.1, foldlM_ok_of_imp (fun here name v hv => ?_) h.2⟩
  rw [advance_eq_ok] at hv ⊢
  obtain ⟨hf, hd, hv⟩ := hv
  refine ⟨?_, isFolder_put.mpr (.inl hd), hv⟩
  rw [isFile_put, hf, Bool.or_false, beq_eq_false_iff_ne]
  rintro rfl
  rw [ht] at hd
  cases hd

theorem read_of_locate (h : s.locate r = .ok u) (hu : Table.get? s.files u = some text) : s.read r = .ok text := by
  simp only [read, h, bind, Except.bind, hu]
  rfl

/-- From a directory, the names of a file below it lead to that file. -/
theorem locate_enter (hs : s.Sound) (hr : s.locate r = .ok top) (hp : s.isFile (top ++ p) = true) :
    s.locate (r.enter p) = .ok (top ++ p) := by
  rw [locate_eq_ok] at hr ⊢
  refine ⟨hr.1, ?_⟩
  have hstart : r.names.foldlM (s.advance (r.enter p).text) [] = .ok top :=
    foldlM_ok_of_imp (fun here name v hv => by rw [advance_eq_ok] at hv ⊢; exact hv) hr.2
  change (r.names ++ p).foldlM _ [] = _
  rw [foldlM_append, hstart]
  change p.foldlM _ top = _
  generalize (r.enter p).text = path
  clear hr hstart
  induction p generalizing top with
  | nil => rw [append_nil]; rfl
  | cons name rest ih =>
    have hmem := isFile_iff.mp hp
    have hbelow : top <+: top ++ name :: rest := prefix_append _ _
    have hne : top ≠ top ++ name :: rest := by simp
    have hadvance : s.advance path top name = .ok (top ++ [name]) := by
      rw [advance_eq_ok]
      refine ⟨?_, isFolder_iff.mpr (.inr (.inr ⟨_, hmem, hbelow, hne⟩)), .inl ⟨?_, rfl⟩⟩
      · rw [Bool.eq_false_iff]
        intro hf
        exact hne (hs.leaf _ (isFile_iff.mp hf) _ (mem_append_left _ hmem) hbelow).symm
      · rintro rfl
        exact hs.plain _ (mem_append_left _ hmem) (by simp)
    rw [foldlM_cons, hadvance]
    have hassoc : top ++ name :: rest = top ++ [name] ++ rest := by simp
    rw [hassoc] at hp ⊢
    exact ih hp

theorem append_of_mem_below {ending : String} (h : p ∈ s.below top ending) :
    top ++ p ∈ s.places ∧ p ≠ [] := by
  simp only [below, mem_mergeSort, mem_map, mem_filter] at h
  obtain ⟨q, ⟨hq, hc⟩, rfl⟩ := h
  simp only [Bool.and_eq_true, isPrefixOf_iff_prefix] at hc
  obtain ⟨⟨⟨w, rfl⟩, hne⟩, -⟩ := hc
  rw [drop_left]
  refine ⟨hq, ?_⟩
  rintro rfl
  simp at hne

/-- Going on by plain names leads below. -/
theorem resolve_append {names : List String} (hr : r.resolve = some t) (hn : ".." ∉ names) :
    { r with names := r.names ++ names }.resolve = some (t ++ names) := by
  unfold Route.resolve at hr ⊢
  split_ifs at hr ⊢ with hroot
  rw [foldlM_append, hr]
  change names.foldlM _ t = _
  clear hr hroot
  induction names generalizing t with
  | nil => simp
  | cons name rest ih =>
    rw [mem_cons, not_or] at hn
    rw [foldlM_cons, if_neg (Ne.symm hn.1)]
    change rest.foldlM _ (t ++ [name]) = _
    rw [ih hn.2, append_assoc]
    rfl

end Paths

end DebugGuards.Files.Store
