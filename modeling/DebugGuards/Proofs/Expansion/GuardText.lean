import DebugGuards.Proofs.Expansion.Reordering
import DebugGuards.Proofs.Printing.Openings
import DebugGuards.Proofs.Workspace.Alteration
import DebugGuards.Proofs.Workspace.Framed

/-! The text of a guarded statement. The conjunctions that a guard makes of its operands lean
to the left, and a conjunction may stand to the left of another as it is. So the statement
prints as one line of operands, each in parentheses of its own if it binds looser than what
may stand to the right of a conjunction. -/

namespace DebugGuards

open Node Printing List

section Operands

variable {α : Type} {c e : Tree α} {k line text indent : String}

/-- What has parentheses among the operands of a conjunction: an operation with a logical
operator, and what binds looser than every operation. -/
def bindsLoosely (t : Tree α) : Bool :=
  match kind? t with
  | some "LogicalExpression" | some "BinaryExpression" => (operator? t).any ["??", "||", "&&"].contains
  | some k => ["AssignmentExpression", "ConditionalExpression", "ArrowFunctionExpression", "SpreadElement",
      "RestElement", "AssignmentPattern"].contains k
  | none => false

/-- The text of an operand, given the text it has by itself. -/
def operandText (t : Tree α) (text : String) : String := if bindsLoosely t then "(" ++ text ++ ")" else text

variable [Inhabited α]

/-- The text of an expression by itself. -/
def PrintsAs (indent : String) (t : Tree α) (text : String) : Prop :=
  ∃ u, (Part.of indent t).expression 0 = .ok u ∧ u.text = text

theorem PrintsAs.exists_kind (h : PrintsAs indent c text) : ∃ k, kind? c = some k := by
  obtain ⟨u, hu, _⟩ := h
  cases c with
  | scalar s => cases hu
  | arr m items => cases hu
  | obj m fields =>
    rw [expression_of] at hu
    obtain ⟨_, hkind, hu⟩ := exists_of_bind hu
    cases hkind
    obtain ⟨key, hkey, hu⟩ := exists_of_bind hu
    split at hu
    · next k => exact ⟨k, by rw [kind?, kind, asKey_eq_str hkey]⟩
    · cases hu

/-- A place that asks for more power puts parentheses around what has less. -/
theorem PrintsAs.raised (h : PrintsAs indent c text) (hk : kind? c = some k) {p : Nat} (hp : p ≤ atomic) :
    ∃ v, (Part.of indent c).expression p = .ok v ∧ v.text = if ownPower c < p then "(" ++ text ++ ")" else text := by
  obtain ⟨u, hu, rfl⟩ := h
  obtain ⟨m, fields, rfl, hk'⟩ := exists_of_kind? hk
  rw [expression_of] at hu ⊢
  cases hl : literalKinds.contains k && k != "TemplateLiteral" with
  | true =>
    have hown : ownPower (.obj m fields) = atomic := by
      have hmem : k ∈ literalKinds := contains_iff_mem.mp (Bool.and_eq_true_iff.mp hl).1
      simp only [ownPower, hk]
      split <;> simp_all [literalKinds]
    rw [printExpression_literal hk' hl] at hu ⊢
    exact ⟨u, hu, by rw [hown, if_neg (Nat.not_lt.mpr hp)]⟩
  | false =>
    obtain ⟨v, own, hv, rfl⟩ := exists_of_printExpression hk' hl hu
    obtain rfl : own = ownPower (.obj m fields) := power_bare hk _ hv
    refine ⟨_, printExpression_bare hk' hl hv p, ?_⟩
    split <;> rfl

theorem PrintsAs.exists_operator (h : PrintsAs indent c text) (hk : kind? c = some k)
    (hop : k = "LogicalExpression" ∨ k = "BinaryExpression") :
    ∃ op ∈ operators, field? c "operator" = some (.str op) := by
  obtain ⟨u, hu, _⟩ := h
  obtain ⟨m, fields, rfl, hk'⟩ := exists_of_kind? hk
  rw [expression_of] at hu
  have hbinary : ∃ v own, binary (Part.node indent m fields) = .ok (v, own) := by
    rcases hop with rfl | rfl <;> obtain ⟨v, own, hv, _⟩ := exists_of_printExpression hk' (by decide) hu <;>
      exact ⟨v, own, hv⟩
  obtain ⟨v, own, hv⟩ := hbinary
  obtain ⟨op, _, _, _, _, hfield, hpow, _⟩ := exists_of_binary hv
  exact ⟨op, mem_operators_of_power? (by rw [hpow]; rfl), hfield⟩

/-- The power asked to the right of a conjunction is more than a loose operand has, and no more
than any other has. -/
theorem PrintsAs.exists_asked (h : PrintsAs indent c text) (hk : kind? c = some k) :
    ∃ q ≤ atomic, operandPower "&&" (Part.of indent c) 4 = .ok q ∧ (ownPower c < q ↔ bindsLoosely c = true) := by
  have hall : ∀ op ∈ operators, ∀ q ∈ [4, if mixesNullish "&&" op then atomic else 4],
      q ≤ atomic ∧ ((power? op).getD 0 < q ↔ ["??", "||", "&&"].contains op = true) := by decide
  by_cases hop : k = "LogicalExpression" ∨ k = "BinaryExpression"
  · obtain ⟨op, hmem, hfield⟩ := h.exists_operator hk hop
    have hown : ownPower c = (power? op).getD 0 ∧ bindsLoosely c = ["??", "||", "&&"].contains op := by
      rcases hop with rfl | rfl <;> simp [ownPower, bindsLoosely, hk, operator?_eq hfield]
    rw [hown.1, hown.2]
    by_cases hl : k = "LogicalExpression"
    · obtain ⟨hle, hlt⟩ := hall op hmem _ (mem_cons_of_mem _ (mem_singleton.mpr rfl))
      exact ⟨_, hle, operandPower_logical (hl ▸ hk) hfield _ _, hlt⟩
    · exact ⟨4, by decide, operandPower_other hk hl _ _, (hall op hmem 4 (mem_cons_self ..)).2⟩
  · refine ⟨4, by decide, operandPower_other hk (not_or.mp hop).1 _ _, ?_⟩
    simp only [ownPower, bindsLoosely, hk]
    split <;> simp_all [postfixed, unary, atomic]

/-- An expression that prints as a line, also to the left of a conjunction. -/
structure Leads (indent : String) (t : Tree α) (line : String) : Prop where
  text : ∀ p ≤ 3, (Part.of indent t).expression p = .ok (.str line)
  power : operandPower "&&" (Part.of indent t) 3 = .ok 3

theorem leads_name (indent name : String) (m : α) :
    Leads indent (.obj m [("type", .str "Identifier"), ("name", .str name)]) name :=
  ⟨fun p hp => expression_identifier ⟨rfl, rfl⟩ (Nat.le_trans hp (by decide)), operandPower_other rfl (by decide) ..⟩

theorem Leads.conjunction (h : Leads indent e line) (hc : PrintsAs indent c text) (m : α) :
    Leads indent (.obj m [("type", .str "LogicalExpression"), ("operator", .str "&&"), ("left", e), ("right", c)])
      (line ++ " && " ++ operandText c text) := by
  obtain ⟨k, hk⟩ := hc.exists_kind
  obtain ⟨q, hle, hq, hiff⟩ := hc.exists_asked hk
  obtain ⟨v, hv, htext⟩ := hc.raised hk hle
  simp only [hiff] at htext
  refine ⟨fun p hp => ?_, (operandPower_logical rfl rfl ..).trans rfl⟩
  rw [expression_of, printExpression_node rfl (by decide) (show bare indent "LogicalExpression" _ = _ from
    binary_node rfl rfl rfl rfl h.power hq (h.text 3 (Nat.le_refl 3)) hv), if_neg (Nat.not_lt.mpr hp), htext]
  simp [Tree.text, operandText, String.append_assoc]

/-- A chain of conjunctions prints its operands one after the other. -/
theorem Leads.chain {e : Draft} {operands : List (Tree Mark)} {texts : List String} {line : String}
    (h : ∀ next, Leads indent (e.settle next).1 line) (hc : List.Forall₂ (PrintsAs indent) operands texts)
    (next : Mark) :
    Leads indent (((operands.map Tree.draft).foldl logicalAnd e).settle next).1
      (" && ".intercalate (line :: List.zipWith operandText operands texts)) := by
  induction hc generalizing e line with
  | nil => simpa using h next
  | @cons c text operands texts hc _ ih =>
    have hfirst (next : Mark) :
        Leads indent ((logicalAnd e c.draft).settle next).1 (line ++ " && " ++ operandText c text) := by
      simp only [logicalAnd, logical, make, Tree.settle, Tree.settleFields, Tree.takeMark, Tree.settle_draft]
      exact (h _).conjunction hc _
    rw [zipWith_cons_cons, String.intercalate_cons_cons, ← String.intercalate_cons_append]
    exact ih hfirst

/-- The same for a chain of documents. -/
theorem Leads.foldl {operands : List (Tree α)} {texts : List String} (h : Leads indent e line)
    (hc : List.Forall₂ (PrintsAs indent) operands texts) :
    Leads indent (operands.foldl logicalAnd e)
      (" && ".intercalate (line :: List.zipWith operandText operands texts)) := by
  induction hc generalizing e line with
  | nil => simpa using h
  | cons hc _ ih =>
    rw [zipWith_cons_cons, String.intercalate_cons_cons, ← String.intercalate_cons_append]
    exact ih (h.conjunction hc default)

theorem Leads.statement {m n : α} {fields : Fields α} (h : Leads indent e line)
    (hk : Table.get? fields "type" = some (.str "ExpressionStatement"))
    (he : Table.get? fields "expression" = some (.obj n [("type", .str "ParenthesizedExpression"), ("expression", e)]))
    (depth : Nat) : (Part.of indent (.obj m fields)).statement depth = .ok ("(" ++ line ++ ");") := by
  have hbare : bare indent "ParenthesizedExpression"
      (Part.node indent n [("type", .str "ParenthesizedExpression"), ("expression", e)]) =
      .ok (.str ("(" ++ line ++ ")"), atomic) := by
    show (do return bound ("(" ++ (← Part.textAt _ "expression") ++ ")") atomic) = _
    rw [textAt_node rfl (h.text 0 (Nat.zero_le 3))]
    rfl
  have hexpr := printExpression_node rfl (by decide) hbare 0
  rw [if_neg (by decide)] at hexpr
  rw [statement_expression hk, Printing.expressionStatement, require_node he]
  simp only [bind, Except.bind, expression_of, hexpr, hasKind_any]
  exact congrArg Except.ok (String.append_assoc ..)

end Operands

theorem Workspace.node_setPartField {w : Workspace} {i : PathId} {m : Mark} {fields : Fields Mark}
    (hnode : w.node i = .obj m fields) (key : String) (d : Draft) :
    (w.setPartField m key d).node i = .obj m (Table.set fields key (d.settle w.fresh).1) := by
  have hpath := deref_obj hnode
  have hsame : (w.setPartField m key d).path i = w.path i := congrArg (·.getD i default) (keep_paths ..)
  rw [node, hpath, deref] at hnode
  cases hpart : w.part? m with
  | none => simp [hpart] at hnode
  | some x =>
    rw [hpart, Option.getD_some] at hnode
    rw [node, hsame, hpath, deref, part?_setPartField hpart, hnode]
    rfl

namespace Expansion

variable {indent g text : String} {texts : List String}

theorem result_guardSite {s : State} {p : Pending}
    (hsite : kind? (s.workspace.node p.site) = some "ExpressionStatement")
    (hp : List.Forall₂ (PrintsAs indent) (p.operands.map s.workspace.deref) texts) :
    ∃ w, (guardSite (.str g) p).result s = (.ok (), { s with workspace := w }) ∧
      ∀ depth, (Part.of indent (w.node p.site)).statement depth =
        .ok ("(" ++
          " && ".intercalate (g :: List.zipWith operandText (p.operands.map s.workspace.deref) texts) ++ ");") := by
  obtain ⟨m, fields, hnode, hk⟩ := exists_of_kind? hsite
  refine ⟨_, result_act_ok (by rw [Workspace.setField, hnode]), fun depth => ?_⟩
  have hleads := Leads.chain (e := identifier (.str g)) (fun next => leads_name indent g next) hp
    (s.workspace.fresh + 1)
  rw [List.map_map] at hleads
  rw [Workspace.node_setPartField hnode]
  refine hleads.statement (n := s.workspace.fresh) ?_ ?_ depth
  · rw [Table.get?_set, if_neg (by decide), hk]
  · rw [Table.get?_set, if_pos rfl]
    rfl

/-- The sites of a module become lines whatever comes before or after them. Where there is a site
inside an operand of another one, the text of the operand is the one that it has in the end. -/
theorem registered_prints {o : Options} {t : Tree Mark} {fresh : Mark} {w : Workspace} {s : State} {handled : Nat}
    (hm : IsModule t fresh) (hw : Workspace.ofTree t fresh = .ok w)
    (hs : (survey o).result { workspace := w } = (.ok handled, s)) (indent g : String) :
    ∃ s', (finalize (.str g)).result s = (.ok s.pending.length, s') ∧
      ∀ q ∈ s.pending, ∀ texts, List.Forall₂ (PrintsAs indent) (q.operands.map s'.workspace.value) texts →
        ∀ depth, (Part.of indent (s'.workspace.node q.site).erase).statement depth =
          .ok ("(" ++ " && ".intercalate (g :: List.zipWith operandText (q.operands.map s'.workspace.value) texts) ++
            ");") := by
  obtain ⟨m, fields, body, items, ps, p, h, rs, _, hreg⟩ := exists_registered hm hw hs
  obtain ⟨s', hrun, _, honce, hkind⟩ := hreg.finalize_once g
  refine ⟨s', hrun, fun q hq texts hc depth => ?_⟩
  obtain ⟨_, fs, hnode, hk⟩ := exists_of_kind? (hkind q hq)
  have hafter := honce.after q hq
  rw [hnode] at hafter ⊢
  refine ((leads_name indent g default).foldl hc).statement (n := default) hk ?_ depth
  cases hget : Table.get? fs "expression" with
  | none => simp [expressionOf, Tree.fields, hget, parenthesized, make] at hafter
  | some e =>
    rw [expressionOf, Tree.fields, hget, Option.getD_some] at hafter
    exact congrArg some hafter

/-- Every site becomes one line: the guard, the texts of its conditions and the text of its call
with `&&` between them. Only conditions that bind loosely have parentheses. The sites before it
may have changed its operands, and those after it are to leave the line alone; for the sites of
a module `registered_prints` asks nothing of the others. -/
theorem finalize_prints (indent g : String) {s s₁ : State} {earlier later : List Pending} {site : PathId}
    {conditions : List Ref} {call : Ref}
    (hf : s.finalized = false) (hpending : s.pending = earlier ++ ⟨site, conditions ++ [call]⟩ :: later)
    (hearlier : (earlier.forM (guardSite (.str g))).result { s with finalized := true } = (.ok (), s₁))
    (hsite : kind? (s₁.workspace.node site) = some "ExpressionStatement")
    (hconditions : List.Forall₂ (PrintsAs indent) (conditions.map s₁.workspace.deref) texts)
    (hcall : kind? (s₁.workspace.deref call) = some "CallExpression")
    (htext : PrintsAs indent (s₁.workspace.deref call) text) :
    ∃ s₂, (guardSite (.str g) ⟨site, conditions ++ [call]⟩).result s₁ = (.ok (), s₂) ∧
      ∀ s₃, (later.forM (guardSite (.str g))).result s₂ = (.ok (), s₃) →
        s₃.workspace.node site = s₂.workspace.node site →
        ∃ s', (finalize (.str g)).result s = (.ok s.pending.length, s') ∧
          ∀ depth, (Part.of indent (s'.workspace.node site)).statement depth =
            .ok ("(" ++ " && ".intercalate (g :: List.zipWith operandText (conditions.map s₁.workspace.deref) texts ++
              [text]) ++ ");") := by
  have hoperands :
      List.Forall₂ (PrintsAs indent) ((conditions ++ [call]).map s₁.workspace.deref) (texts ++ [text]) := by
    rw [map_append]
    exact rel_append hconditions (.cons htext .nil)
  obtain ⟨w, hrun, hprint⟩ := result_guardSite (g := g) (p := ⟨site, conditions ++ [call]⟩) hsite hoperands
  refine ⟨_, hrun, fun s₃ hlater hsame => ?_⟩
  have hall : (s.pending.forM (guardSite (.str g))).result { s with finalized := true } = (.ok (), s₃) := by
    have happend := @List.forM_append _ _ _ _ earlier (⟨site, conditions ++ [call]⟩ :: later) (guardSite (.str g))
    rw [← hpending] at happend
    exact (congrArg (Work.result · _) happend).trans
      ((result_bind_ok hearlier).trans ((result_bind_ok hrun).trans hlater))
  obtain ⟨log, hfinal⟩ := result_finalize hf hall
  refine ⟨_, hfinal, fun depth => ?_⟩
  have htight : operandText (s₁.workspace.deref call) text = text := by simp [operandText, bindsLoosely, hcall]
  change (Part.of indent (s₃.workspace.node site)).statement depth = _
  rw [hsame, hprint, map_append, zipWith_append hconditions.length_eq, map_singleton,
    zipWith_cons_cons, zipWith_nil_left, htight, cons_append]

/-- The arguments of a call are its conditions, and there is a call on either side. -/
def mixedConditions : State :=
  let a : Draft := identifier (.str "a")
  let choice : Draft := make "ConditionalExpression" [("test", a), ("consequent", a), ("alternate", a)]
  let warn (arguments : List Draft) := expressionStatement (call (identifier (.str "warn")) arguments)
  let t := (program [warn [a, logical (.str "??") a a, choice], warn [], warn []]).settle 0
  let w : Workspace := { root := t.1, program := 0, dialect := .uniform, fresh := t.2 }
  { workspace := w.walk.2
    pending := [⟨11, [.part 15]⟩, ⟨0, [.part 6, .part 7, .part 10, .part 3]⟩, ⟨14, [.part 19]⟩] }

theorem finalize_prints_mixed :
    ∃ s', (finalize (.str "_DEBUG")).result mixedConditions = (.ok 3, s') ∧
      ∀ depth, (Part.of "" (s'.workspace.node 0)).statement depth =
        .ok "(_DEBUG && a && (a ?? a) && (a ? a : a) && warn(a, a ?? a, a ? a : a));" := by
  have hpending : mixedConditions.pending =
      [⟨11, [.part 15]⟩] ++ ⟨0, [.part 6, .part 7, .part 10] ++ [.part 3]⟩ :: [⟨14, [.part 19]⟩] := rfl
  obtain ⟨s₂, hrun, hall⟩ := finalize_prints "" "_DEBUG" rfl hpending (Prod.ext (by decide +kernel) rfl)
    (by decide +kernel)
    (.cons ⟨.str "a", by decide +kernel, rfl⟩ (.cons ⟨.str "a ?? a", by decide +kernel, rfl⟩
      (.cons ⟨.str "a ? a : a", by decide +kernel, rfl⟩ .nil))) (by decide +kernel)
    ⟨.str "warn(a, a ?? a, a ? a : a)", by decide +kernel, rfl⟩
  obtain rfl := congrArg Prod.snd hrun
  obtain ⟨s', hfinal, hprint⟩ := hall _ (Prod.ext (by decide +kernel) rfl) (by decide +kernel)
  exact ⟨s', hfinal, fun depth => (hprint depth).trans (by decide +kernel)⟩

end Expansion

end DebugGuards
