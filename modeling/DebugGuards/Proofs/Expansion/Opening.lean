import DebugGuards.Proofs.Expansion.Clean

/-! Opening a module. The program of a well-formed module is found, bare or in a file,
and everything the phases of an expansion ask of the workspace holds of it. -/

namespace DebugGuards

open DebugGuards.Tree Node

/-- A well-formed module each part of which has a mark of its own, below the next one. -/
structure IsModule (t : Tree Mark) (fresh : Mark) : Prop where
  wellFormed : wellFormed t = true
  distinct : t.marks.Nodup
  below : ∀ m : ℕ, m ∈ t.marks → m < fresh

instance (t : Tree Mark) (fresh : Mark) : Decidable (IsModule t fresh) :=
  decidable_of_iff (wellFormed t = true ∧ t.marks.Nodup ∧ ∀ m : ℕ, m ∈ t.marks → m < fresh)
    ⟨fun ⟨hw, hd, hb⟩ => ⟨hw, hd, hb⟩, fun h => ⟨h.wellFormed, h.distinct, h.below⟩⟩

section Makers

/-- The import of names from a module, each with the name it is bound to. -/
def importing (specifiers : List (String × String)) (source : String) : Json :=
  make "ImportDeclaration"
    [("specifiers", listOf (specifiers.map fun s => make "ImportSpecifier"
      [("imported", identifier (.str s.1)), ("local", identifier (.str s.2))])),
      ("source", literal (.str source))]

/-- The statement that calls a name. -/
def calling (name : String) (arguments : List Json) : Json :=
  expressionStatement (call (identifier (.str name)) arguments)

def moduleOf (body : List Json) : Json := make "Program" [("body", listOf body)]

/-- A document with its parts marked in order, and the next mark. -/
def marked (t : Json) : Tree Mark × Mark := t.copy.settle 0

end Makers

namespace Expansion

/-- The workspace an expansion starts with. -/
def opened (t : Tree Mark) (fresh m : Mark) : Workspace :=
  { root := t, program := m, dialect := Workspace.dialectOf t, fresh := fresh }

/-- The program of a module and its list of statements. -/
structure Opening (t : Tree Mark) (m : Mark) (fields : List (String × Tree Mark)) (body : Mark)
    (items : List (Tree Mark)) : Prop where
  program : programOf t = obj m fields
  kind : hasKind (obj m fields) "Program" = true
  body : Table.get? fields "body" = some (.arr body items)
  sound : ∀ n ∈ nodesFields fields, sound n = true
  statements : ∀ x ∈ items, isNode x = true
  keyed : (obj m fields).keyed = true
  wraps : Wraps t (obj m fields)

namespace Opening

variable {t : Tree Mark} {m : Mark} {fields : Fields Mark} {body : Mark}
  {items : List (Tree Mark)} {fresh : Mark}

section

variable (ho : Opening t m fields body items)
include ho

theorem bodyOf_eq : bodyOf t = items := by
  rw [bodyOf, ho.program]
  simp only [field?, Tree.fields, ho.body]

theorem ofTree_eq (fresh : Mark) : Workspace.ofTree t fresh = .ok (opened t fresh m) := by
  rw [Workspace.ofTree]
  cases ho.wraps with
  | program hfile heq =>
    subst heq
    rw [if_neg (Bool.eq_false_iff.mp hfile)]
    simp only [bind, Except.bind, ho.kind, if_true]
    rfl
  | file k fs heq hfile _ hget =>
    subst heq
    rw [if_pos hfile, require, hget]
    simp only [bind, Except.bind, ho.kind, if_true]
    rfl

/-- The program is the document or right below it. -/
theorem mem_children : t = obj m fields ∨ obj m fields ∈ t.children := by
  cases ho.wraps with
  | program _ heq => exact .inl heq
  | file k fs heq _ _ hget =>
    subst heq
    exact .inr (List.mem_map_of_mem (Table.mem_of_get? hget))

theorem opened (hm : IsModule t fresh) : Opened (Expansion.opened t fresh m) fields := by
  refine ⟨hm.distinct, hm.below, rfl, ?_, ?_, ho.keyed⟩
  · have hshows : Shows t.heap t := shows_heap hm.distinct
    rcases ho.mem_children with h | h
    · exact h ▸ hshows
    · exact hshows.child h
  · rcases ho.mem_children with h | h
    · exact h ▸ hm.distinct
    · exact nodup_child hm.distinct h

theorem layout (hm : IsModule t fresh) (o : Options) (helpers : Table Scalar Helper) (paths : Array Path) :
    Layout (scanOf o helpers { Expansion.opened t fresh m with paths := paths } fields) fields body items := by
  have hw := (ho.opened hm).paths paths
  exact ⟨hw.ready o helpers, hw.shows, hw.distinct, isNode_of_hasKind ho.kind, ((keyed_obj _ _).mp ho.keyed).1,
    ho.body, ho.sound, ho.statements⟩

theorem contents (hm : IsModule t fresh) : Contents (Expansion.opened t fresh m) fields body items :=
  ⟨(ho.opened hm).programNode, ho.body, ho.statements, ho.sound⟩

end

end Opening

end Expansion

theorem IsModule.opens {t : Tree Mark} {fresh : Mark} (hm : IsModule t fresh) :
    ∃ m fields body items, Expansion.Opening t m fields body items := by
  have hw := hm.wellFormed
  simp only [Node.wellFormed, Bool.and_eq_true] at hw
  obtain ⟨⟨⟨hkeyed, hkind⟩, hbody⟩, hsound⟩ := hw
  obtain ⟨m, fields, _, hobj, _⟩ := exists_of_isNode (isNode_of_hasKind hkind)
  rw [hobj] at hkind hbody hsound
  simp only [Node.holds, field?, Tree.fields] at hbody hsound
  cases hget : Table.get? fields "body" with
  | none => rw [hget] at hbody; cases hbody
  | some v =>
    rw [hget] at hbody
    cases v with
    | scalar | obj => cases hbody
    | arr body items =>
      have hwraps : Expansion.Wraps t (obj m fields) ∧ (obj m fields).keyed = true := by
        rw [programOf] at hobj
        split at hobj
        · next hfile =>
          obtain ⟨k, fs, _, rfl, _⟩ := exists_of_isNode (isNode_of_hasKind hfile)
          have hkeys := (keyed_obj _ _).mp hkeyed
          simp only [field?, Tree.fields] at hobj
          cases hp : Table.get? fs "program" with
          | none => rw [hp] at hobj; cases hobj
          | some v =>
            rw [hp, Option.getD_some] at hobj
            subst hobj
            exact ⟨.file k fs rfl hfile hkeys.1 hp, hkeys.2 _ (Table.mem_of_get? hp)⟩
        · next hfile =>
          subst hobj
          exact ⟨.program (Bool.eq_false_iff.mpr hfile) rfl, hkeyed⟩
      exact ⟨m, fields, body, items, hobj, hkind, hget, List.all_eq_true.mp hsound, List.all_eq_true.mp hbody,
        hwraps.2, hwraps.1⟩

end DebugGuards
