import DebugGuards.Proofs.Expansion.Document
import DebugGuards.Proofs.Node.Scopes

/-! What a rewriting preserves. The reshaped document reads like the one it came from,
and its nodes are well formed again: those that were there before, and those of the
guarded expressions. -/

namespace DebugGuards.Expansion

open DebugGuards.Tree Node List

section Reshape

/-- Only statements are dropped or finished, and a finished statement is one. -/
structure Mild (h : Heap) (drops : Tree Mark → Bool) (finish : Tree Mark → List (String × Json) → Json) : Prop where
  drops : ∀ x, Shows h x → drops x = true → isStatement x = true
  other : ∀ x fs, isStatement x = false → finish x fs = .obj () fs
  kept : ∀ x fs, Table.get? fs "type" = some (.str "ExpressionStatement") → isStatement (finish x fs) = true

variable {h : Heap} {drops : Tree Mark → Bool} {finish : Tree Mark → List (String × Json) → Json} {t : Tree Mark}

theorem isPlain_emptyStatement {α : Type} [Inhabited α] : isPlain (emptyStatement : Tree α) = true := by
  rw [isPlain, Bool.or_eq_true]
  exact .inr (hasKind_iff.mpr rfl)

theorem Mild.not_drops_scalar (hm : Mild h drops finish) (s : Scalar) : drops (.scalar s) = false := by
  by_contra hd
  have hst := hm.drops (.scalar s) (.scalar h s) (by simpa using hd)
  cases hst

theorem get?_type {fs : Fields Mark} (hscalar : ∀ s, drops (.scalar s) = false) {k : String}
    (hk : Table.get? fs "type" = some (.str k)) :
    Table.get? (reshapeFields drops finish fs) "type" = some (.str k) := by
  rw [get?_reshapeFields, hk, Option.map_some, reshapeSlot, if_neg (by decide)]
  show some (if drops (.str k) then _ else _) = _
  rw [Tree.str, hscalar]
  rfl

/-- The reshaped document reads like the one it came from. -/
theorem Mild.alike (hm : Mild h drops finish) (ht : Shows h t) :
    Alike t (reshapeInside drops finish t) ∧ (drops t = false → Alike t (reshape drops finish t)) := by
  induction t using induct with
  | scalar s =>
    rw [reshapeInside, hm.not_drops_scalar, reshape]
    · exact ⟨.scalar s, fun _ => .scalar s⟩
    · simp
  | arr m items ih =>
    constructor
    · rw [reshapeInside, reshapeItems_eq]
      refine .arr m () items _ (fun x => !drops x) (fun x hx hd => ?_) (by simp) fun p hp => ?_
      · exact hm.drops x (ht.child (t := .arr m items) hx) (by simpa using hd)
      · obtain ⟨hmem, heq⟩ := mem_zip_map hp
        rw [mem_filter, Bool.not_eq_true'] at hmem
        rw [heq]
        exact (ih p.1 hmem.1 (ht.child (t := .arr m items) hmem.1)).2 hmem.2
    · intro _
      rw [reshape]
      exact (alike_map _ _).1
  | obj m fields ih =>
    have hreshape : Alike (.obj m fields) (reshape drops finish (.obj m fields)) := by
      rw [reshape]
      split
      case isFalse => exact (alike_map _ _).1
      case isTrue hn =>
        cases hs : isStatement (.obj m fields) with
        | true =>
          have hk := kind?_obj.mp (hasKind_iff.mp hs)
          exact .statement _ _ hs (isPlain_of_isStatement (hm.kept _ _ (get?_type hm.not_drops_scalar hk)))
        | false =>
          rw [hm.other _ _ hs, reshapeFields_eq]
          refine .obj m () fields _ hs (by simp) (fun p hp hk => ?_) fun p hp => ?_
          · rw [(mem_zip_map hp).2, reshapeSlot, if_pos hk]
            exact (erase_map _ _).symm
          · obtain ⟨hmem, heq⟩ := mem_zip_map hp
            rw [heq, reshapeSlot]
            split
            · exact (alike_map _ _).1
            · exact (ih p.1 hmem (ht.child (mem_map_of_mem hmem))).1
    refine ⟨?_, fun _ => hreshape⟩
    rw [reshapeInside]
    · split
      · rename_i hd
        exact .statement _ _ (hm.drops _ ht hd) isPlain_emptyStatement
      · exact hreshape
    · simp

theorem nodes_reshape_of_not_isNode (hn : isNode t = false) : nodes (reshape drops finish t) = [] := by
  cases t with
  | scalar | arr => rw [reshape]; rfl
  | obj m fields =>
    rw [reshape, if_neg (by simp [hn]), Alike.nodes_eq_nil, erase, isNode_map]
    exact hn

theorem isNode_bare {m : Mark} {fields : Fields Mark} (hscalar : ∀ s, drops (.scalar s) = false)
    (hn : isNode (.obj m fields) = true) : isNode (.obj () (reshapeFields drops finish fields) : Json) = true := by
  obtain ⟨k, hk⟩ := Option.isSome_iff_exists.mp hn
  rw [isNode, kind?_obj.mpr (get?_type hscalar (kind?_obj.mp hk))]
  rfl

theorem reshapeInside_obj {m : Mark} {fields : Fields Mark} (hd : drops (.obj m fields) = false) :
    reshapeInside drops finish (.obj m fields) = reshape drops finish (.obj m fields) := by
  rw [reshapeInside, hd]
  · rfl
  · simp

/-- What holds of the empty statement, and of the nodes made from a node that stays whenever
it holds of those inside, holds of all nodes of the reshaped document. -/
theorem forall_inside_reshape {Q : Json → Prop} (hscalar : ∀ s, drops (.scalar s) = false) (hempty : Q emptyStatement)
    (step : ∀ x ∈ inside t, drops x = false → (isStatement x = true → x ∈ liveInside drops t) →
      .obj () (reshapeFields drops bare x.fields) ∈ inside (reshapeInside drops bare t) →
      (∀ n ∈ nodesFields (reshapeFields drops finish x.fields), Q n) →
      ∀ n ∈ inside (finish x (reshapeFields drops finish x.fields)), Q n) :
    (∀ n ∈ inside (reshapeInside drops finish t), Q n) ∧
      (isNode t = true → drops t = false → ∀ n ∈ inside (reshape drops finish t), Q n) := by
  have hnode : ∀ n ∈ inside (emptyStatement : Json), Q n := by
    rw [Alike.inside_of_isNode (Alike.isNode_of_isPlain isPlain_emptyStatement)]
    intro n hn
    rw [mem_singleton.mp hn]
    exact hempty
  induction t using induct with
  | scalar s =>
    rw [reshapeInside, reshape]
    · refine ⟨fun n hn => ?_, fun h => by cases h⟩
      split at hn
      · exact hnode n hn
      · cases hn
    · simp
  | arr m items ih =>
    refine ⟨fun n hn => ?_, fun h => by cases h⟩
    rw [reshapeInside, inside, reshapeItems_eq, nodesItems_eq, mem_flatMap] at hn
    obtain ⟨y, hy, hn⟩ := hn
    obtain ⟨x, hx, rfl⟩ := mem_map.mp hy
    have hdrop : drops x = false := by simpa using (mem_filter.mp hx).2
    cases hxn : isNode x with
    | false =>
      rw [nodes_reshape_of_not_isNode hxn] at hn
      cases hn
    | true =>
      obtain ⟨k, fs, _, rfl, _⟩ := exists_of_isNode hxn
      have hmem := (mem_filter.mp hx).1
      refine (ih _ hmem fun z hz hdz hlz hbz => step z ?_ hdz (fun hst => ?_) ?_).2 hxn hdrop n
        (nodes_subset_inside _ hn)
      · rw [inside, nodesItems_eq, mem_flatMap]
        exact ⟨_, hmem, hz⟩
      · rw [liveInside, liveItems_eq, mem_flatMap]
        exact ⟨_, hmem, hlz hst⟩
      · rw [reshapeInside_obj hdrop, reshape, if_pos hxn] at hbz
        rw [reshapeInside, inside, reshapeItems_eq, nodesItems_eq, mem_flatMap]
        refine ⟨_, mem_map_of_mem hx, ?_⟩
        rw [reshape, if_pos hxn]
        exact hbz
  | obj m fields ih =>
    have hreshape : isNode (.obj m fields) = true → drops (.obj m fields) = false →
        ∀ n ∈ inside (reshape drops finish (.obj m fields)), Q n := by
      intro hobj hd n hn
      have hbare : inside (reshapeInside drops bare (.obj m fields)) =
          .obj () (reshapeFields drops bare fields) :: nodesFields (reshapeFields drops bare fields) := by
        rw [reshapeInside_obj hd, reshape, if_pos hobj]
        exact Alike.inside_of_isNode (isNode_bare hscalar hobj)
      rw [reshape, if_pos hobj] at hn
      refine step _ (mem_inside_self hobj) hd mem_live_self (by rw [hbare]; exact mem_cons_self ..)
        (fun z hz => ?_) n hn
      rw [reshapeFields_eq] at hz
      obtain ⟨_, hmem, hk, hz⟩ := mem_nodesFields hz
      obtain ⟨e, he, rfl⟩ := mem_map.mp hmem
      rw [reshapeSlot, if_neg (by simpa using hk)] at hz
      refine (ih e he fun y hy hdy hly hby => step y ?_ hdy (fun hst => ?_) ?_).1 z hz
      · rw [Alike.inside_of_isNode hobj]
        exact mem_cons_of_mem _ (mem_nodesFields_of he hk hy)
      · have hfields : y ∈ liveFields drops fields := by
          rw [liveFields_eq, mem_flatMap]
          exact ⟨e, he, by rw [if_neg (by simpa using hk)]; exact hly hst⟩
        rw [liveInside, live, if_pos hobj, hd]
        · split
          · exact mem_cons_of_mem _ hfields
          · exact hfields
        · simp
      · rw [hbare, reshapeFields_eq drops bare fields]
        refine mem_cons_of_mem _ (mem_nodesFields_of (mem_map_of_mem he) hk ?_)
        rw [reshapeSlot, if_neg (by simpa using hk)]
        exact hby
    refine ⟨fun n hn => ?_, hreshape⟩
    rw [reshapeInside] at hn
    · split at hn
      · exact hnode n hn
      · rename_i hd
        cases hobj : isNode (.obj m fields) with
        | true => exact hreshape hobj (by simpa using hd) n hn
        | false =>
          have hnil : nodes (reshape drops finish (.obj m fields)) = [] := nodes_reshape_of_not_isNode hobj
          rw [reshape, if_neg (by simp [hobj]), erase, map_obj] at hn hnil
          change n ∈ nodes _ at hn
          rw [hnil] at hn
          cases hn
    · simp

end Reshape

section Made

variable {Q : Json → Prop}

theorem kind?_make (kind : String) (fields : List (String × Json)) : kind? (make kind fields) = some kind := rfl

theorem inside_make (kind : String) (fields : List (String × Json)) :
    inside (make kind fields) = make kind fields :: nodesFields fields := by
  rw [Alike.inside_of_isNode (isNode_of_hasKind (hasKind_iff.mpr (kind?_make kind fields)))]
  rw [make, Tree.fields, nodesFields_cons]
  rfl

/-- A well-formed node that is no statement and declares nothing. -/
def Inert (n : Json) : Prop := sound n = true ∧ isStatement n = false ∧ declares n = []

theorem forall_inside_make {k : String} {fields : List (String × Json)} (hself : Q (make k fields))
    (hf : ∀ n ∈ nodesFields fields, Q n) : ∀ n ∈ inside (make k fields), Q n := by
  rw [inside_make, forall_mem_cons]
  exact ⟨hself, hf⟩

theorem forall_nodesFields {fields : List (String × Json)} (hf : ∀ e ∈ fields, ∀ n ∈ inside e.2, Q n) :
    ∀ n ∈ nodesFields fields, Q n := by
  intro n hn
  obtain ⟨e, he, _, hn⟩ := mem_nodesFields hn
  exact hf e he n hn

section

variable (hq : ∀ n, Inert n → Q n)
include hq

theorem forall_inside_identifier (name : String) : ∀ n ∈ inside (identifier (.str name) : Json), Q n :=
  forall_inside_make (hq _ ⟨rfl, rfl, rfl⟩) nofun

theorem forall_inside_literal (dialect : Dialect)
    (v : Scalar) : ∀ n ∈ inside (dialect.literal (.scalar v) : Json), Q n := by
  cases dialect with
  | uniform => exact forall_inside_make (hq _ ⟨rfl, rfl, rfl⟩) nofun
  | kinded =>
    cases v with
    | null => exact forall_inside_make (k := "NullLiteral") (hq _ ⟨rfl, rfl, rfl⟩) nofun
    | bool b => exact forall_inside_make (k := "BooleanLiteral") (hq _ ⟨rfl, rfl, rfl⟩) nofun
    | int i => exact forall_inside_make (k := "NumericLiteral") (hq _ ⟨rfl, rfl, rfl⟩) nofun
    | float x => exact forall_inside_make (k := "NumericLiteral") (hq _ ⟨rfl, rfl, rfl⟩) nofun
    | str s => exact forall_inside_make (k := "StringLiteral") (hq _ ⟨rfl, rfl, rfl⟩) nofun

theorem forall_inside_calleeNode (t : Target) (d : Diagnostic) : ∀ n ∈ inside (d.calleeNode t : Json), Q n := by
  have hmember : ∀ a b : String, ∀ n ∈ inside (member (identifier (.str a)) (identifier (.str b)) : Json), Q n := by
    intro a b
    refine forall_inside_make (hq _ ⟨rfl, rfl, rfl⟩) (forall_nodesFields ?_)
    simp only [forall_mem_cons]
    exact ⟨forall_inside_identifier hq a, forall_inside_identifier hq b, nofun, nofun, nofun⟩
  cases t with
  | global name => exact hmember name d.name
  | external => exact forall_inside_identifier hq d.name
  | console => exact hmember _ _

/-- The call of a helper on arguments that are such. -/
theorem forall_inside_call (t : Target) (d : Diagnostic)
    {args : List Json} (ha : ∀ a ∈ args, isArgument a = true) (hn : ∀ a ∈ args, ∀ n ∈ inside a, Q n) :
    ∀ n ∈ inside (call (d.calleeNode t) args), Q n := by
  have hs : sound (call (d.calleeNode t) args) = true := by
    rw [sound, show kind? (call (d.calleeNode t) args) = some "CallExpression" from rfl]
    exact (Bool.and_eq_true _ _).mpr ⟨all_eq_true.mpr ha, rfl⟩
  refine forall_inside_make (hq _ ⟨hs, rfl, rfl⟩) (forall_nodesFields ?_)
  simp only [forall_mem_cons]
  refine ⟨forall_inside_calleeNode hq t d, ?_, (fun _ h => by cases h), fun _ h => by cases h⟩
  intro n hmem
  rw [listOf, inside, nodesItems_eq, mem_flatMap] at hmem
  obtain ⟨a, hmem, hna⟩ := hmem
  exact hn a hmem n (nodes_subset_inside a hna)

theorem forall_inside_guardChain (guard : String) {operands : List Json} (ho : ∀ d ∈ operands, ∀ n ∈ inside d, Q n) :
    ∀ n ∈ inside (parenthesized (guardChain (.str guard) operands)), Q n := by
  have hchain : ∀ n ∈ inside (guardChain (.str guard) operands), Q n := by
    refine guardChain_induction (P := fun e => ∀ n ∈ inside e, Q n) (fun l r hl hr => ?_)
      (forall_inside_identifier hq guard) ho
    refine forall_inside_make (hq _ ⟨rfl, rfl, rfl⟩) (forall_nodesFields ?_)
    simp only [forall_mem_cons]
    exact ⟨nofun, hl, hr, nofun⟩
  refine forall_inside_make (hq _ ⟨rfl, rfl, rfl⟩) (forall_nodesFields ?_)
  simp only [forall_mem_cons]
  exact ⟨hchain, nofun⟩

end

end Made

section Operands

variable {Q : Json → Prop} {o : Options} {dialect : Dialect} {v : Verdict} {args operands : List Json}

/-- The operands of a guarded expression consist of the arguments of the call and new
nodes. -/
theorem forall_inside_operands (hq : ∀ n, Inert n → Q n)
    (hop : v.operands o dialect id args = some operands) (ha : ∀ a ∈ args, isArgument a = true)
    (hn : ∀ a ∈ args, ∀ n ∈ inside a, Q n) : ∀ d ∈ operands, ∀ n ∈ inside d, Q n := by
  refine Verdict.forall_operands (P := fun d => ∀ n ∈ inside d, Q n) hop hn nofun
    (fun d => forall_inside_call hq _ d ha hn) fun text => forall_inside_call hq _ _ ?_ ?_
  · refine forall_mem_singleton.mpr ?_
    cases dialect <;> rfl
  · exact forall_mem_singleton.mpr (forall_inside_literal hq dialect (.str text))

end Operands

section Rewriting

variable {Q : Json → Prop} {h : Heap} {drops : Tree Mark → Bool} {finish : Tree Mark → List (String × Json) → Json}
  {t x : Tree Mark} {c : Rewriting} {fs : List (String × Json)}

/-- A rewriting leaves a node bare or gives it a guarded expression. -/
theorem Rewriting.finish_cases (c : Rewriting) (x : Tree Mark) (fs : List (String × Json)) :
    c.finish x fs = .obj () fs ∨
    ∃ v operands, isStatement x = true ∧ verdict c.options c.helpers x = .ok v ∧
      v.operands c.options c.dialect id (argumentsOf (expressionOf (.obj () fs))) = some operands ∧
      c.finish x fs = .obj () (Table.set fs "expression" (parenthesized (guardChain (.str c.guard) operands))) := by
  rw [finish]
  cases hs : isStatement x with
  | false => exact .inl rfl
  | true =>
    simp only [if_true]
    cases hv : verdict c.options c.helpers x with
    | error f => exact .inl rfl
    | ok v =>
      dsimp only
      cases hop : v.operands c.options c.dialect id (argumentsOf (expressionOf (.obj () fs))) with
      | none => exact .inl rfl
      | some operands => exact .inr ⟨v, operands, trivial, rfl, hop, rfl⟩

/-- Some of the finishing of a rewriting. -/
def Follows (c : Rewriting) (finish : Tree Mark → List (String × Json) → Json) : Prop :=
  ∀ x fs, finish x fs = .obj () fs ∨ finish x fs = c.finish x fs

theorem Follows.mild (hf : Follows c finish) (hd : ∀ x, Shows h x → drops x = true → isStatement x = true) :
    Mild h drops finish := by
  refine ⟨hd, fun x fs hs => ?_, fun x fs hk => ?_⟩
  · rcases hf x fs with e | e
    · exact e
    · obtain e' | ⟨_, _, hst, _⟩ := c.finish_cases x fs
      · exact e.trans e'
      · rw [hs] at hst; cases hst
  · have hbare : isStatement (.obj () fs) = true := hasKind_iff.mpr (kind?_obj.mpr hk)
    rcases hf x fs with e | e
    · rw [e]; exact hbare
    · obtain e' | ⟨_, _, _, _, _, e'⟩ := c.finish_cases x fs
      · rw [e, e']; exact hbare
      · rw [e, e']
        refine hasKind_iff.mpr (kind?_obj.mpr ?_)
        rw [Table.get?_set, if_neg (by decide)]
        exact hk

theorem arguments_of_sound {e : Json} (hc : isCall e = true) (hs : sound e = true) :
    ∀ a ∈ argumentsOf e, isArgument a = true ∧ a ∈ listAt e "arguments" := by
  have hn := isNode_of_hasKind hc
  have hlist : holdsIf e "arguments" (isListOf isArgument) = true := by
    rw [sound, hasKind_iff.mp hc] at hs
    exact ((Bool.and_eq_true _ _).mp hs).1
  obtain ⟨heq, hall⟩ := elementsOf_list hn hlist
  intro a ha
  rw [argumentsOf, heq] at ha
  exact ⟨hall a ha, ha⟩

theorem inside_listAt {α : Type} {e a n : Tree α} {key : String} (he : isNode e = true) (hk : isMetadata key = false)
    (ha : a ∈ listAt e key) (hn : n ∈ nodes a) : n ∈ inside e := by
  obtain ⟨m, fields, _, rfl, _⟩ := exists_of_isNode he
  rw [listAt] at ha
  split at ha
  · rename_i k items hget
    refine inside_field he hget hk ?_
    rw [inside, nodesItems_eq, mem_flatMap]
    exact ⟨a, ha, hn⟩
  · cases ha

theorem inside_eq_nodes {α : Type} {t : Tree α} (hn : isNode t = true) : inside t = nodes t := by
  obtain ⟨m, fields, _, rfl, _⟩ := exists_of_isNode hn
  rfl

/-- The nodes of a new guarded expression. -/
theorem Mild.forall_inside_guarded (hm : Mild h drops finish) (hx : Shows h x) (hl : Legal x)
    (hq : ∀ n, Inert n → Q n) {v : Verdict} {operands : List Json}
    (hst : isStatement x = true) (hv : verdict c.options c.helpers x = .ok v)
    (hop : v.operands c.options c.dialect id
      (argumentsOf (expressionOf (.obj () (reshapeFields drops finish x.fields)))) = some operands)
    (hin : ∀ n ∈ nodesFields (reshapeFields drops finish x.fields), Q n) (guard : String) :
    ∀ n ∈ inside (parenthesized (guardChain (.str guard) operands)), Q n := by
  have hu : v ≠ .untouched := by
    rintro rfl
    cases hop
  obtain ⟨m, es, hget, hcall⟩ := call_of_verdict hv hu
  have hcalln := isNode_of_hasKind hcall
  have hnot : drops (.obj m es) = false := by
    by_contra hd
    have := hm.drops _ (hx.field hget) (by simpa using hd)
    rw [not_isStatement_of_isCall hcall] at this
    cases this
  -- The image of the call is a call, with the images of the arguments.
  have himage : Table.get? (reshapeFields drops finish x.fields) "expression" =
      some (reshape drops finish (.obj m es)) := by
    rw [get?_reshapeFields, hget, Option.map_some, reshapeSlot, if_neg (by decide), reshapeInside, hnot]
    · rfl
    · simp
  have halike := (hm.alike (hx.field hget)).2 hnot
  have hcall' : isCall (reshape drops finish (.obj m es)) = true :=
    (halike.hasKind_eq (not_isStatement_of_isCall hcall) _).trans hcall
  have hsound := halike.sound ((hl.field (isNode_of_hasKind hst) hget (by decide)).sound hcalln)
  have he : expressionOf (.obj () (reshapeFields drops finish x.fields)) = reshape drops finish (.obj m es) := by
    rw [expressionOf, Tree.fields, himage]
    rfl
  rw [he] at hop
  have hargs := arguments_of_sound hcall' hsound
  refine forall_inside_guardChain hq guard (forall_inside_operands hq hop (fun a ha => (hargs a ha).1) ?_)
  intro a ha n hn
  rw [inside_eq_nodes ((Bool.and_eq_true _ _).mp (hargs a ha).1).1] at hn
  have hmem := inside_listAt (isNode_of_hasKind hcall') (by decide) (hargs a ha).2 hn
  have hmeta : isMetadata "expression" = false := by decide
  exact hin n (mem_nodesFields_of (Table.mem_of_get? himage) hmeta hmem)

theorem mem_inside_obj {α : Type} {m : α} {fields : Fields α} {n : Tree α}
    (hn : n ∈ inside (.obj m fields)) : n = .obj m fields ∨ n ∈ nodesFields fields := by
  change n ∈ nodes _ at hn
  rw [nodes] at hn
  split at hn
  · exact mem_cons.mp hn
  · cases hn

section

variable (hf : Follows c finish) (hd : ∀ x, Shows h x → drops x = true → isStatement x = true) (ht : Shows h t)
  (hl : Legal t)
include hf hd ht hl

/-- What holds of the nodes that say nothing, and of each node that stays once it is
finished, holds of all nodes of the rewritten document. -/
theorem Follows.forall_inside (hq : ∀ n, Inert n → Q n)
    (hself : ∀ x ∈ inside t, drops x = false → (isStatement x = true → x ∈ liveInside drops t) →
      .obj () (reshapeFields drops bare x.fields) ∈ inside (reshapeInside drops bare t) →
      Q (finish x (reshapeFields drops finish x.fields))) :
    (∀ n ∈ inside (reshapeInside drops finish t), Q n) ∧
      (isNode t = true → drops t = false → ∀ n ∈ inside (reshape drops finish t), Q n) := by
  have hm : Mild h drops finish := hf.mild hd
  refine forall_inside_reshape hm.not_drops_scalar (hq _ ⟨rfl, rfl, rfl⟩) fun x hx hnot hlive hstays hin n hn => ?_
  have hshows : Shows h x := inside_induction (fun _ h _ hc => h.child hc) ht hx
  have hlegal : Legal x := fun y hy => hl y (inside_trans hx hy)
  have hbare : n ∈ inside (.obj () (reshapeFields drops finish x.fields)) →
      finish x (reshapeFields drops finish x.fields) = .obj () (reshapeFields drops finish x.fields) → Q n := by
    intro hn e
    rcases mem_inside_obj hn with rfl | hn
    · exact e ▸ hself x hx hnot hlive hstays
    · exact hin n hn
  rcases hf x (reshapeFields drops finish x.fields) with e | e
  · exact hbare (e ▸ hn) e
  obtain e' | ⟨v, operands, hst, hv, hop, e'⟩ := c.finish_cases x (reshapeFields drops finish x.fields)
  · exact hbare (e' ▸ e ▸ hn) (e.trans e')
  · have hnew := hm.forall_inside_guarded hshows hlegal hq hst hv hop hin c.guard
    rw [e, e'] at hn
    rcases mem_inside_obj hn with rfl | hn
    · rw [← e', ← e]
      exact hself x hx hnot hlive hstays
    · obtain ⟨d, hmem, hk, hn⟩ := mem_nodesFields hn
      rcases Table.mem_set hmem with hmem | rfl
      · exact hin n (mem_nodesFields_of hmem hk hn)
      · exact hnew n hn

/-- A rewritten document is well formed again. -/
theorem Follows.legal :
    Legal (reshapeInside drops finish t) ∧
      (isNode t = true → drops t = false → Legal (reshape drops finish t)) := by
  refine hf.forall_inside hd ht hl (fun n hn => hn.1) fun x hx hnot _ _ => ?_
  have hshows : Shows h x := inside_induction (fun _ h _ hc => h.child hc) ht hx
  have halike := ((hf.mild hd).alike hshows).2 hnot
  obtain ⟨m, fields, rfl, hn⟩ := exists_of_mem_inside hx
  rw [reshape, if_pos hn] at halike
  exact halike.sound (hl _ hx)

end

end Rewriting

end DebugGuards.Expansion
