import Mathlib.Algebra.Ring.Nat
import DebugGuards.Proofs.Expansion.Imports

/-! Inlining. An import from a flags module is replaced by its constants, or the
expansion stops at it; all imports are gone through in the order of the body. The
declaration of the debug flag is found by its name. -/

namespace DebugGuards.Expansion

open DebugGuards.Tree Node List

variable {c : Scan} {fields : Fields Mark} {body : Mark} {items met : List (Tree Mark)} {guard : String}
  {p : Patch} {es pre post : List Entry} {s : State} {h : Heap} {rs : List Ref} {x : Tree Mark} {i : PathId}

namespace Standing

section One

section

variable (hs : Standing c fields body items met guard p es s.workspace h rs) (hx : .old x ∈ es)
  (hi : isImport x = true) (hpath : s.workspace.path i = Contents.place s.workspace body x)
include hs hx hi hpath

theorem node_eq : s.workspace.node i = x := by
  rw [Workspace.node, hpath]
  exact hs.stage.models.deref_eq (hs.shows_import hx hi)

theorem result_inlineFlags (table : Json) : (Expansion.inlineFlags i table).result s =
    (placeConstants i (.str (sourceOf x)) ((named x).map fun s => ⟨.str s.1, .str s.2⟩) table).result s := by
  have hl := hs.legal_old hx
  rw [Expansion.inlineFlags, result_bind_ok (result_node i s), hs.node_eq hx hi hpath,
    result_bind_ok (by rw [importSource_erase hl hi, result_ofExcept]),
    result_bind_ok (by rw [specifiers_erase hl hi, result_ofExcept])]

theorem inlineFlags_error {flags : Table String Int} {f : String} (hm : missing? flags x = some f) :
    (Expansion.inlineFlags i (flagDocument flags)).result s = (.error (.unknownFlag f (sourceOf x)), s) := by
  rw [hs.result_inlineFlags hx hi hpath]
  refine result_look_bind_error ?_
  rw [flagConstants_eq, hm]

end

theorem inlineFlags_ok (hs : Standing c fields body items met guard p (pre ++ .old x :: post) s.workspace h rs)
    (hi : isImport x = true) (hpath : s.workspace.path i = Contents.place s.workspace body x)
    {flags : Table String Int} (hm : missing? flags x = none) :
    ∃ w h' rs' log, (Expansion.inlineFlags i (flagDocument flags)).result s =
        (.ok (named x).length, { s with workspace := w, log := log }) ∧
      s.workspace.SameFrame w ∧
      Standing c fields body items met guard p
        (pre ++ (constantsOf c.start.dialect flags x).map .new ++ post) w h' rs' ∧
      c.Outlives s.workspace h w h' := by
  have hx : Entry.old x ∈ pre ++ .old x :: post := by simp
  obtain ⟨w, h', rs', hok, hf, hs', hold⟩ := hs.replaceMany hpath
    fun v (hv : v ∈ constantsOf c.start.dialect flags x) => constant_of_mem hv
  have hconstants : flagConstants s.workspace.dialect ((named x).map fun s => ⟨.str s.1, .str s.2⟩)
      (flagDocument flags) (.str (sourceOf x)) = .ok (constantsOf c.start.dialect flags x) := by
    rw [flagConstants_eq, hm, hs.stage.keeps.dialect]
  rw [hs.result_inlineFlags hx hi hpath, placeConstants, result_look_bind hconstants,
    result_bind_ok (result_act_ok hok), result_bind_ok (result_record ..), constantsOf, length_map]
  exact ⟨w, h', rs', _, rfl, hf, hs', hold⟩

end One

end Standing

section Rules

/-- Why an import cannot be inlined. -/
def lacking? {α : Type} (o : Options) (y : Tree α) : Option Failure :=
  ((flagsFor? o y).bind fun flags => missing? flags y).map fun f => .unknownFlag f (sourceOf y)

/-- The number of constants that an import becomes. -/
def inlinedCount {α : Type} (o : Options) (y : Tree α) : Nat :=
  if (flagsFor? o y).isSome then (named y).length else 0

namespace Entry

def lacking? (o : Options) : Entry → Option Failure
  | old x => Expansion.lacking? o x
  | new _ => none

def inlinedCount (o : Options) : Entry → Nat
  | old x => Expansion.inlinedCount o x
  | new _ => 0

/-- What becomes of an entry when imports are inlined. -/
def inlined (o : Options) (dialect : Dialect) : Entry → List Entry
  | old x =>
    match flagsFor? o x with
    | some flags => (constantsOf dialect flags x).map new
    | none => [old x]
  | new v => [new v]

theorem eq_old_of_import {e : Entry} {x : Tree Mark} (he : e.import? = some x) : e = old x ∧ isImport x = true := by
  cases e with
  | new v => cases he
  | old y =>
    rw [import?] at he
    split at he
    · rename_i hi
      cases he
      exact ⟨rfl, hi⟩
    · cases he

theorem inlined_of_not_import {e : Entry} {o : Options} {d : Dialect} (he : e.import? = none) :
    e.lacking? o = none ∧ e.inlinedCount o = 0 ∧ e.inlined o d = [e] := by
  cases e with
  | new v => exact ⟨rfl, rfl, rfl⟩
  | old x =>
    have hi : isImport x = false := by
      rw [import?] at he
      split at he
      · cases he
      · simpa using ‹¬isImport x = true›
    have hflags : flagsFor? o x = none := by rw [flagsFor?, hi]; rfl
    rw [lacking?, Expansion.lacking?, inlinedCount, Expansion.inlinedCount, inlined, hflags]
    exact ⟨rfl, rfl, rfl⟩

end Entry

end Rules

section All

theorem result_inlineSite {o : Options} {x : Tree Mark} (hnode : s.workspace.node i = x) (hl : Legal x)
    (hi : isImport x = true) (n : Nat) :
    (inlineSite o n i).result s =
      match flagsFor? o x with
      | some flags => (do return n + (← inlineFlags i (flagDocument flags))).result s
      | none => (.ok n, s) := by
  rw [inlineSite, result_bind_ok (result_node i s), hnode,
    result_bind_ok (by rw [importSource_erase hl hi, result_ofExcept]), equal_str, flagsFor?, hi, if_pos rfl,
    flagsOf?]
  by_cases henv : sourceOf x = o.envFlags.source
  · rw [henv, if_pos rfl]
    simp
  · have hne : (sourceOf x == o.envFlags.source) = false := by simpa using henv
    rw [hne, if_neg henv, featureTable?_eq]
    cases o.features.find? fun f => sourceOf x == f.source <;> rfl

namespace Standing

variable {o : Options}

/-- One import. -/
theorem inlineSite (hs : Standing c fields body items met guard p (pre ++ .old x :: post) s.workspace h rs)
    (hi : isImport x = true) (hpath : s.workspace.path i = Contents.place s.workspace body x) (n : Nat) :
    (∃ f, lacking? o x = some f ∧ (Expansion.inlineSite o n i).result s = (.error f, s)) ∨
    lacking? o x = none ∧ ∃ w h' rs' log, (Expansion.inlineSite o n i).result s =
        (.ok (n + inlinedCount o x), { s with workspace := w, log := log }) ∧ s.workspace.SameFrame w ∧
      Standing c fields body items met guard p (pre ++ (Entry.old x).inlined o c.start.dialect ++ post) w h' rs' := by
  have hx : Entry.old x ∈ pre ++ .old x :: post := by simp
  rw [result_inlineSite (hs.node_eq hx hi hpath) (hs.legal_old hx) hi, lacking?, Entry.inlined, inlinedCount]
  cases hflags : flagsFor? o x with
  | none =>
    refine .inr ⟨rfl, s.workspace, h, rs, s.log, rfl, .refl _, ?_⟩
    rw [append_assoc]
    exact hs
  | some flags =>
    dsimp only
    cases hm : missing? flags x with
    | some f =>
      refine .inl ⟨_, by rw [Option.bind_some, hm]; rfl, ?_⟩
      rw [result_bind_error (hs.inlineFlags_error hx hi hpath hm)]
    | none =>
      obtain ⟨w, h', rs', log, hrun, hf, hs', _⟩ := hs.inlineFlags_ok hi hpath hm
      refine .inr ⟨by rw [Option.bind_some, hm]; rfl, w, h', rs', log, ?_, hf, hs'⟩
      rw [result_bind_ok hrun]
      rfl

theorem inlineSites {is : List PathId} (hs : Standing c fields body items met guard p (pre ++ es) s.workspace h rs)
    (hsites : List.Forall₂ (fun i y => s.workspace.path i = Contents.place s.workspace body y) is
      (es.filterMap Entry.import?)) (n : Nat) :
    ((∀ e ∈ es, e.lacking? o = none) ∧ ∃ w h' rs' log, (is.foldlM (Expansion.inlineSite o) n).result s =
        (.ok (n + (es.map (Entry.inlinedCount o)).sum), { s with workspace := w, log := log }) ∧
      Standing c fields body items met guard p (pre ++ es.flatMap (Entry.inlined o c.start.dialect)) w h' rs') ∨
    ∃ done x rest f w h' rs' log, es = done ++ .old x :: rest ∧ (∀ e ∈ done, e.lacking? o = none) ∧
      lacking? o x = some f ∧
      (is.foldlM (Expansion.inlineSite o) n).result s = (.error f, { s with workspace := w, log := log }) ∧
      Standing c fields body items met guard p
        (pre ++ done.flatMap (Entry.inlined o c.start.dialect) ++ .old x :: rest) w h' rs' := by
  induction es generalizing s h rs pre is n with
  | nil =>
    cases hsites
    exact .inl ⟨nofun, s.workspace, h, rs, s.log, rfl, by simpa using hs⟩
  | cons e es ih =>
    cases he : e.import? with
    | none =>
      obtain ⟨hlack, hcount, hself⟩ := Entry.inlined_of_not_import (o := o) (d := c.start.dialect) he
      rw [filterMap_cons_none he] at hsites
      have hs₁ : Standing c fields body items met guard p ((pre ++ [e]) ++ es) s.workspace h rs := by
        rw [append_assoc]
        exact hs
      obtain ⟨hall, w, h', rs', log, hrun, hs'⟩ | ⟨done, x, rest, f, w, h', rs', log, hes, hdone, hx, hrun, hs'⟩ :=
        ih hs₁ hsites n
      · refine .inl ⟨forall_mem_cons.mpr ⟨hlack, hall⟩, w, h', rs', log, ?_, ?_⟩
        · rw [map_cons, sum_cons, hcount, Nat.zero_add]
          exact hrun
        · rw [flatMap_cons, hself, ← append_assoc]
          exact hs'
      · refine .inr ⟨e :: done, x, rest, f, w, h', rs', log, by rw [hes]; rfl, forall_mem_cons.mpr ⟨hlack, hdone⟩,
          hx, hrun, ?_⟩
        rw [flatMap_cons, hself, ← append_assoc]
        exact hs'
    | some x =>
      obtain ⟨rfl, hi⟩ := Entry.eq_old_of_import he
      rw [filterMap_cons_some he] at hsites
      obtain ⟨i, is, hpath, hrest, rfl⟩ := forall₂_cons_right_iff.mp hsites
      rw [foldlM_cons]
      obtain ⟨f, hlack, hrun⟩ | ⟨hlack, w, h', rs', log, hrun, hf, hs'⟩ := hs.inlineSite (o := o) hi hpath n
      · refine .inr ⟨[], x, es, f, s.workspace, h, rs, s.log, rfl, nofun, hlack, ?_, by simpa using hs⟩
        rw [result_bind_error hrun]
      · have hsites' :
            List.Forall₂ (fun i y => w.path i = Contents.place w body y) is (es.filterMap Entry.import?) := by
          refine hrest.imp fun i y hiy => ?_
          rw [Workspace.path, hf.paths, Contents.place, hf.program]
          exact hiy
        obtain ⟨hall, w', h', rs', log', hrun', hs'⟩ | ⟨done, z, rest, f, w', h', rs', log', hes, hdone, hz,
            hrun', hs'⟩ :=
          ih (s := { s with workspace := w, log := log }) hs' hsites' (n + inlinedCount o x)
        · refine .inl ⟨forall_mem_cons.mpr ⟨hlack, hall⟩, w', h', rs', log', ?_, ?_⟩
          · rw [result_bind_ok hrun, hrun', map_cons, sum_cons, Nat.add_assoc]
            rfl
          · rw [flatMap_cons, ← append_assoc]
            exact hs'
        · refine .inr ⟨.old x :: done, z, rest, f, w', h', rs', log', by rw [hes]; rfl,
            forall_mem_cons.mpr ⟨hlack, hdone⟩, hz, ?_, ?_⟩
          · rw [result_bind_ok hrun, hrun']
          · rw [flatMap_cons, ← append_assoc]
            exact hs'

theorem withPaths (hs : Standing c fields body items met guard p es s.workspace h rs) (ps : List Path) :
    Standing c fields body items met guard p es (Expansion.withPaths s.workspace ps) h rs :=
  ⟨hs.layout, hs.judged, ⟨⟨hs.stage.models.root, hs.stage.models.loose, hs.stage.models.held, hs.stage.models.below⟩,
    hs.stage.keeps.trans (withPaths_keeps _ _), hs.stage.le, hs.stage.cells, hs.stage.list, hs.stage.empties,
    hs.stage.sole⟩, hs.patch, hs.guarding, hs.entries, hs.olds, hs.kept, hs.news⟩

theorem imports_eq {ys : List (Tree Mark)} (h : List.Forall₂ Entry.Stands es ys) :
    ys.filter isImport = es.filterMap Entry.import? := by
  induction h with
  | nil => rfl
  | @cons e y es ys hey _ ih =>
    rw [filter_cons, filterMap_cons, hey.imports, ih]
    cases he : e.import? with
    | none => rfl
    | some x => rw [hey.same x he]; rfl

theorem inlineImports (hs : Standing c fields body items met guard p es s.workspace h rs) :
    ((∀ e ∈ es, e.lacking? o = none) ∧ ∃ w h' rs' log, (Expansion.inlineImports o).result s =
        (.ok (es.map (Entry.inlinedCount o)).sum, { s with workspace := w, log := log }) ∧
      Standing c fields body items met guard p (es.flatMap (Entry.inlined o c.start.dialect)) w h' rs') ∨
    ∃ done x rest f w h' rs' log, es = done ++ .old x :: rest ∧ (∀ e ∈ done, e.lacking? o = none) ∧
      lacking? o x = some f ∧
      (Expansion.inlineImports o).result s = (.error f, { s with workspace := w, log := log }) ∧
      Standing c fields body items met guard p
        (done.flatMap (Entry.inlined o c.start.dialect) ++ .old x :: rest) w h' rs' := by
  obtain ⟨gs, hc⟩ := hs.contents
  obtain ⟨is, ps, hrun, hsites⟩ := result_importSites hc
  rw [imports_eq hs.stands] at hsites
  have hinline : (Expansion.inlineImports o).result s =
      (is.foldlM (Expansion.inlineSite o) 0).result { s with workspace := Expansion.withPaths s.workspace ps } := by
    rw [Expansion.inlineImports, result_bind_ok hrun]
  have hstart : Standing c fields body items met guard p ([] ++ es) (Expansion.withPaths s.workspace ps) h rs :=
    hs.withPaths ps
  have hall := hstart.inlineSites (s := { s with workspace := Expansion.withPaths s.workspace ps }) (o := o)
    (hsites.imp fun i y hiy => hiy.2) 0
  rw [← hinline, Nat.zero_add] at hall
  exact hall

end Standing

end All

end DebugGuards.Expansion
