import DebugGuards.Proofs.Node.Names

/-! Documents that read alike. The second document has the marks of its own, may lack
expression statements in lists, and may have other statements in their place elsewhere.
None of this shows in the names that the document declares, nor in whether it is well
formed. -/

namespace DebugGuards.Node

open DebugGuards.Tree List

variable {α β : Type}

/-- What may stand in the place of an expression statement. -/
def isPlain (t : Tree α) : Bool := isStatement t || hasKind t "EmptyStatement"

inductive Alike : Tree α → Tree β → Prop
  | scalar (s : Scalar) : Alike (.scalar s) (.scalar s)
  | arr (m : α) (n : β) (items : List (Tree α)) (items' : List (Tree β)) (keep : Tree α → Bool)
      (drops : ∀ x ∈ items, keep x = false → isStatement x = true)
      (length : (items.filter keep).length = items'.length)
      (each : ∀ p ∈ (items.filter keep).zip items', Alike p.1 p.2) : Alike (.arr m items) (.arr n items')
  | obj (m : α) (n : β) (fs : List (String × Tree α)) (gs : List (String × Tree β))
      (other : isStatement (.obj m fs) = false) (keys : fs.map Prod.fst = gs.map Prod.fst)
      (same : ∀ p ∈ fs.zip gs, isMetadata p.1.1 = true → p.1.2.erase = p.2.2.erase)
      (each : ∀ p ∈ fs.zip gs, Alike p.1.2 p.2.2) : Alike (.obj m fs) (.obj n gs)
  | statement (t : Tree α) (u : Tree β) (ht : isStatement t = true) (hu : isPlain u = true) : Alike t u

section Marks

theorem mem_zip_map {γ δ : Type} {g : γ → δ} {l : List γ} {p : γ × δ} (hp : p ∈ l.zip (l.map g)) :
    p.1 ∈ l ∧ p.2 = g p.1 := by
  rw [zip_map_right, mem_map] at hp
  obtain ⟨⟨a, b⟩, hab, rfl⟩ := hp
  obtain ⟨i, hi⟩ := mem_iff_getElem?.mp hab
  rw [getElem?_zip_eq_some] at hi
  obtain rfl : a = b := Option.some.inj (hi.1.symm.trans hi.2)
  exact ⟨mem_of_getElem? hi.1, rfl⟩

theorem mem_map_zip {γ δ : Type} {g : γ → δ} {l : List γ} {p : δ × γ} (hp : p ∈ (l.map g).zip l) :
    p.2 ∈ l ∧ p.1 = g p.2 := by
  have hswap : (p.2, p.1) ∈ l.zip (l.map g) := by
    obtain ⟨i, hi⟩ := mem_iff_getElem?.mp hp
    rw [getElem?_zip_eq_some] at hi
    exact mem_iff_getElem?.mpr ⟨i, getElem?_zip_eq_some.mpr ⟨hi.2, hi.1⟩⟩
  exact mem_zip_map hswap

theorem isStatement_map (f : α → β) (t : Tree α) : isStatement (t.map f) = isStatement t := hasKind_map f t _

theorem isPlain_of_isStatement {t : Tree α} (ht : isStatement t = true) : isPlain t = true := by
  rw [isPlain, ht, Bool.true_or]

theorem erase_map (f : α → β) (t : Tree α) : (t.map f).erase = t.erase := map_map f _ t

/-- Marks do not show. -/
theorem alike_map (f : α → β) (t : Tree α) : Alike t (t.map f) ∧ Alike (t.map f) t := by
  induction t using induct with
  | scalar s =>
    rw [map_scalar]
    exact ⟨.scalar s, .scalar s⟩
  | arr m items ih =>
    rw [map_arr]
    constructor
    · refine .arr m _ items _ (fun _ => true) (by simp) (by simp) fun p hp => ?_
      rw [filter_true] at hp
      obtain ⟨h1, h2⟩ := mem_zip_map hp
      rw [h2]
      exact (ih p.1 h1).1
    · refine .arr _ m _ items (fun _ => true) (by simp) (by simp) fun p hp => ?_
      rw [filter_true] at hp
      obtain ⟨h1, h2⟩ := mem_map_zip hp
      rw [h2]
      exact (ih p.2 h1).2
  | obj m fields ih =>
    have hst := isStatement_map f (.obj m fields)
    cases hs : isStatement (.obj m fields) with
    | true =>
      rw [hs] at hst
      exact ⟨.statement _ _ hs (isPlain_of_isStatement hst), .statement _ _ hst (isPlain_of_isStatement hs)⟩
    | false =>
      rw [hs] at hst
      rw [map_obj] at hst ⊢
      constructor
      · refine .obj m _ fields _ hs (by simp [Table.mapValues]) (fun p hp _ => ?_) fun p hp => ?_
        · rw [(mem_zip_map hp).2, erase_map]
        · obtain ⟨h1, h2⟩ := mem_zip_map hp
          rw [h2]
          exact (ih p.1 h1).1
      · refine .obj _ m _ fields hst (by simp [Table.mapValues]) (fun p hp _ => ?_) fun p hp => ?_
        · rw [(mem_map_zip hp).2, erase_map]
        · obtain ⟨h1, h2⟩ := mem_map_zip hp
          rw [h2]
          exact (ih p.2 h1).2

end Marks

namespace Alike

section Parts
variable {t x : Tree α} {u y : Tree β} {key : String}

theorem isNode_of_isPlain (hu : isPlain u = true) : isNode u = true := by
  rw [isPlain, Bool.or_eq_true] at hu
  exact hu.elim isNode_of_hasKind isNode_of_hasKind

theorem scalar_left {s : Scalar} (h : Alike (.scalar s : Tree α) u) : u = .scalar s := by
  cases h with
  | scalar => rfl
  | statement _ _ ht => cases ht

theorem scalar_right {s : Scalar} (h : Alike t (.scalar s : Tree β)) : t = .scalar s := by
  cases h with
  | scalar => rfl
  | statement _ _ _ hu => cases hu

theorem field (h : Alike t u) (hs : isStatement t = false) (key : String) :
    (field? t key = none ∧ field? u key = none) ∨
      ∃ x y, field? t key = some x ∧ field? u key = some y ∧ Alike x y := by
  cases h with
  | scalar | arr => exact .inl ⟨rfl, rfl⟩
  | statement _ _ ht => rw [hs] at ht; cases ht
  | obj m n fs gs other keys same each =>
    clear hs other same
    simp only [field?, Tree.fields]
    induction fs generalizing gs with
    | nil => cases gs <;> simp_all [Table.get?]
    | cons e fs ih =>
      cases gs with
      | nil => cases keys
      | cons e' gs =>
        simp only [map_cons, List.cons.injEq] at keys
        rw [zip_cons_cons, forall_mem_cons] at each
        rw [Table.get?, Table.get?, ← keys.1]
        split
        · exact .inr ⟨_, _, rfl, rfl, each.1⟩
        · exact ih gs keys.2 each.2

theorem kind?_field {γ : Type} (t : Tree γ) :
    kind? t = match field? t "type" with
      | some (.str k) => some k
      | _ => none := by
  cases t with
  | scalar | arr => rfl
  | obj m fields =>
    rw [kind?, kind, field?, Tree.fields]
    cases Table.get? fields "type" with
    | none => rfl
    | some v =>
      rw [Option.getD_some]
      cases v with
      | scalar s => cases s <;> rfl
      | arr | obj => rfl

section

variable (h : Alike t u) (hs : isStatement t = false)
include h hs

theorem text_eq {γ : Type} {f : String → γ} {d : γ} (key : String) :
    (match field? u key with
      | some (.str s) => f s
      | _ => d) =
    match field? t key with
      | some (.str s) => f s
      | _ => d := by
  obtain ⟨h1, h2⟩ | ⟨x, y, h1, h2, h3⟩ := h.field hs key
  · rw [h1, h2]
  · rw [h1, h2]
    cases y with
    | scalar s => rw [h3.scalar_right]; cases s <;> rfl
    | arr | obj =>
      cases x with
      | scalar => cases h3.scalar_left
      | arr | obj => rfl

theorem textAt_eq (key : String) : textAt u key = textAt t key :=
  h.text_eq hs key

theorem kind?_eq : kind? u = kind? t := by
  rw [kind?_field, kind?_field]
  exact h.text_eq hs "type"

theorem hasKind_eq (name : String) : hasKind u name = hasKind t name := by
  rw [Bool.eq_iff_iff, hasKind_iff, hasKind_iff, h.kind?_eq hs]

end

theorem isNode_eq (h : Alike t u) : isNode u = isNode t := by
  cases hs : isStatement t with
  | false => rw [isNode, isNode, h.kind?_eq hs]
  | true =>
    rw [isNode_of_hasKind (t := t) hs]
    cases h with
    | scalar | arr => cases hs
    | obj m n fs gs other => rw [other] at hs; cases hs
    | statement _ _ _ hu => exact isNode_of_isPlain hu

section

variable (h : Alike t u) (hs : isStatement t = false)
include h hs

theorem listAt (key : String) :
    ∃ keep : Tree α → Bool, (∀ x ∈ listAt t key, keep x = false → isStatement x = true) ∧
      ((Node.listAt t key).filter keep).length = (Node.listAt u key).length ∧
      ∀ p ∈ ((Node.listAt t key).filter keep).zip (Node.listAt u key), Alike p.1 p.2 := by
  rw [Node.listAt, Node.listAt]
  obtain ⟨h1, h2⟩ | ⟨x, y, h1, h2, h3⟩ := h.field hs key
  · rw [h1, h2]
    exact ⟨fun _ => true, by simp⟩
  rw [h1, h2]
  cases h3 with
  | scalar | obj => exact ⟨fun _ => true, by simp⟩
  | arr m n items items' keep drops length each => exact ⟨keep, drops, length, each⟩
  | statement _ _ ht hu =>
    cases x with
    | scalar | arr => cases ht
    | obj =>
      cases y with
      | scalar | arr => cases hu
      | obj => exact ⟨fun _ => true, by simp⟩

theorem listAt_map {γ : Type} {g : Tree α → γ} {g' : Tree β → γ}
    (hitems : ∀ x ∈ Node.listAt t key, isStatement x = false)
    (hg : ∀ x ∈ Node.listAt t key, ∀ y, Alike x y → g' y = g x) :
    (Node.listAt u key).map g' = (Node.listAt t key).map g := by
  obtain ⟨keep, drops, length, each⟩ := h.listAt hs key
  have hkeep : (Node.listAt t key).filter keep = Node.listAt t key := by
    refine filter_eq_self.mpr fun x hx => ?_
    by_contra hk
    have hst := drops x hx (by simpa using hk)
    rw [hitems x hx] at hst
    cases hst
  rw [hkeep] at length each
  refine (map_eq_map_of_zip length fun p hp => ?_).symm
  exact (hg p.1 (of_mem_zip hp).1 p.2 (each p hp)).symm

/-- What statements do not contribute to is the same over the items of a list. -/
theorem listAt_flatMap {γ : Type} {g : Tree α → List γ} {g' : Tree β → List γ}
    (hst : ∀ x, isStatement x = true → g x = []) (hg : ∀ x ∈ Node.listAt t key, ∀ y, Alike x y → g' y = g x) :
    (Node.listAt u key).flatMap g' = (Node.listAt t key).flatMap g := by
  obtain ⟨keep, drops, length, each⟩ := h.listAt hs key
  have hkeep : ((Node.listAt t key).filter keep).flatMap g = (Node.listAt t key).flatMap g := by
    generalize Node.listAt t key = items at drops
    induction items with
    | nil => rfl
    | cons x items ih =>
      rw [forall_mem_cons] at drops
      rw [filter_cons, flatMap_cons, ← ih drops.2]
      cases hk : keep x with
      | true => rw [if_pos rfl, flatMap_cons]
      | false => rw [if_neg Bool.false_ne_true, hst x (drops.1 hk), nil_append]
  rw [← hkeep, flatMap_def, flatMap_def]
  refine congrArg List.flatten (map_eq_map_of_zip length fun p hp => ?_).symm
  exact (hg p.1 (mem_filter.mp (of_mem_zip hp).1).1 p.2 (each p hp)).symm

end

end Parts

section Names
variable {t x : Tree α} {u y : Tree β} {key : String}

theorem hasKind_of_isPlain {name : String} (hu : isPlain u = true) (h1 : name ≠ "ExpressionStatement")
    (h2 : name ≠ "EmptyStatement") : hasKind u name = false := by
  rw [isPlain, Bool.or_eq_true, isStatement, hasKind_iff, hasKind_iff] at hu
  rw [Bool.eq_false_iff, Ne, hasKind_iff]
  intro h
  rcases hu with hu | hu
  · exact h1 (Option.some.inj (h.symm.trans hu))
  · exact h2 (Option.some.inj (h.symm.trans hu))

theorem bound_of_isPlain (hu : isPlain u = true) : bound u = [] := by
  rw [isPlain, Bool.or_eq_true, isStatement, hasKind_iff, hasKind_iff] at hu
  rw [Node.bound_eq]
  rcases hu with hu | hu <;> (rw [hu]; rfl)

theorem names_of_isPlain (hu : isPlain u = true) : names u = [] := by
  rw [isPlain, Bool.or_eq_true, isStatement, hasKind_iff, hasKind_iff] at hu
  rw [names]
  rcases hu with hu | hu <;> (rw [hu]; rfl)

theorem bound_of_not_isNode (hn : isNode u = false) : bound u = [] := by
  have hk : kind? u = none := by simpa [isNode] using hn
  rw [Node.bound_eq, hk]

theorem not_isStatement {name : String} (hx : hasKind t name = true) (h1 : name ≠ "ExpressionStatement") :
    isStatement t = false := by
  rw [isStatement, Bool.eq_false_iff, Ne, hasKind_iff, hasKind_iff.mp hx]
  exact fun h => h1 (Option.some.inj h)

theorem isPlain_right (h : Alike t u) (hs : isStatement t = true) : isPlain u = true := by
  cases h with
  | scalar | arr => cases hs
  | obj m n fs gs other => rw [other] at hs; cases hs
  | statement _ _ _ hu => exact hu

theorem boundIn_eq (h : Alike t u) (hs : isStatement t = false)
    (hb : ∀ x, field? t key = some x → ∀ y : Tree β, Alike x y → bound y = bound x) :
    boundIn u key = boundIn t key := by
  rw [boundIn, boundIn]
  obtain ⟨h1, h2⟩ | ⟨x, y, h1, h2, h3⟩ := h.field hs key
  · rw [h1, h2]; rfl
  · rw [h1, h2]
    exact hb x h1 y h3

theorem not_isStatement_of_isPatternProperty (hx : isPatternProperty x = true) : isStatement x = false := by
  rw [isPatternProperty] at hx
  rw [isStatement, Bool.eq_false_iff, Ne, hasKind_iff]
  intro h
  rw [h] at hx
  cases hx

theorem bound_eq (h : Alike t u) (hl : isNode t = true → Legal t) : bound u = bound t := by
  induction t using inductSize generalizing u with
  | step t ih =>
    cases hs : isStatement t with
    | true => rw [bound_of_isPlain (h.isPlain_right hs), bound_of_isPlain (isPlain_of_isStatement hs)]
    | false =>
      cases hn : isNode t with
      | false => rw [bound_of_not_isNode hn, bound_of_not_isNode (h.isNode_eq.trans hn)]
      | true =>
        have hleg := hl hn
        have hfield : ∀ key, isMetadata key = false → boundIn u key = boundIn t key := fun key hk =>
          h.boundIn_eq hs fun x hx y hxy => ih x (sizeOf_field hx) hxy fun _ => hleg.field hn hx hk
        rw [Node.bound_eq u, Node.bound_eq t, h.kind?_eq hs]
        split
        · rw [h.textAt_eq hs]
        · rename_i hk
          have hsound := hleg.sound hn
          rw [sound, hk] at hsound
          have hprops := (elementsOf_list hn hsound).2
          rw [flatMap_def, flatMap_def, h.listAt_map hs fun x hx =>
            not_isStatement_of_isPatternProperty (hprops x hx)]
          intro x hx y hxy
          have hxs := not_isStatement_of_isPatternProperty (hprops x hx)
          have hxn := isNode_of_isPatternProperty (hprops x hx)
          have hxl := hleg.listAt hn (by decide) hx hxn
          rw [boundProperty, boundProperty, hxy.hasKind_eq hxs]
          refine hxy.boundIn_eq hxs fun z hz y' hzy => ?_
          refine ih z (Nat.lt_trans (sizeOf_field hz) (sizeOf_listAt hx)) hzy fun _ => hxl.field hxn hz ?_
          split <;> decide
        · refine h.listAt_flatMap hs (fun x hx => bound_of_isPlain (isPlain_of_isStatement hx)) ?_
          exact fun x hx y hxy => ih x (sizeOf_listAt hx) hxy fun hxn => hleg.listAt hn (by decide) hx hxn
        · exact hfield "argument" (by decide)
        · exact hfield "left" (by decide)
        · rfl

theorem not_isStatement_of_isSpecifier (hx : isSpecifier x = true) : isStatement x = false := by
  rw [isSpecifier] at hx
  rw [isStatement, Bool.eq_false_iff, Ne, hasKind_iff]
  intro h
  rw [h] at hx
  cases hx

/-- A text two fields down, where what is in between is no statement. -/
theorem textIn_eq {p : Tree α → Bool} {g : Tree α → String} {g' : Tree β → String} (h : Alike t u)
    (hs : isStatement t = false) (hp : Node.holds t key p = true) (hg : ∀ x y, p x = true → Alike x y → g' y = g x) :
    ((field? u key).map g').getD "" = ((field? t key).map g).getD "" := by
  rw [Node.holds] at hp
  obtain ⟨h1, h2⟩ | ⟨x, y, h1, h2, h3⟩ := h.field hs key
  · rw [h1] at hp; cases hp
  · rw [h1] at hp
    rw [h1, h2]
    exact hg x y hp h3

theorem not_isStatement_of_isStringLiteral (hx : isStringLiteral x = true) : isStatement x = false := by
  rw [isStringLiteral, Bool.or_eq_true, Bool.and_eq_true] at hx
  rcases hx with hx | hx
  · exact not_isStatement hx (by decide)
  · exact not_isStatement hx.1 (by decide)

theorem localOf_eq (h : Alike t u) (hx : isSpecifier t = true) : localOf u = localOf t := by
  have hs := not_isStatement_of_isSpecifier hx
  refine h.textIn_eq hs (specifier_local hx) fun x y hid hxy => ?_
  exact hxy.textAt_eq (not_isStatement hid (by decide)) "name"

theorem importedOf_eq (h : Alike t u) (hx : isSpecifier t = true) (hk : hasKind t "ImportSpecifier" = true) :
    importedOf u = importedOf t := by
  have hs := not_isStatement_of_isSpecifier hx
  have hi : Node.holds t "imported" (fun i => isIdentifier i || isStringLiteral i) = true := by
    rw [isSpecifier, hasKind_iff.mp hk] at hx
    exact (Bool.and_eq_true _ _ ▸ hx : _ ∧ _).2
  refine h.textIn_eq hs hi fun x y hp hxy => ?_
  have hxs : isStatement x = false := by
    rcases (Bool.or_eq_true _ _).mp hp with hp | hp
    · exact not_isStatement hp (by decide)
    · exact not_isStatement_of_isStringLiteral hp
  rw [show isIdentifier y = isIdentifier x from hxy.hasKind_eq hxs _, hxy.textAt_eq hxs]

theorem sourceOf_eq (h : Alike t u) (hl : Legal t) (hi : isImport t = true) : sourceOf u = sourceOf t :=
  h.textIn_eq (not_isStatement hi (by decide)) (import_parts hl hi).1 fun _ _ hp hxy =>
    hxy.textAt_eq (not_isStatement_of_isStringLiteral hp) "value"

/-- What a named specifier imports and binds. -/
def pairOf {γ : Type} (s : Tree γ) : String × String :=
  if hasKind s "ImportSpecifier" then (importedOf s, localOf s) else ("", "")

theorem named_eq_map {γ : Type} (t : Tree γ) :
    named t = ((Node.listAt t "specifiers").map pairOf).filter fun p => p.1 != "" && p.2 != "" := by
  rw [named]
  induction Node.listAt t "specifiers" with
  | nil => rfl
  | cons s rest ih =>
    rw [filter_cons, map_cons, filter_cons, ← ih, pairOf]
    cases hasKind s "ImportSpecifier" with
    | true => split <;> simp_all
    | false => simp

theorem named_eq (h : Alike t u) (hl : Legal t) (hi : isImport t = true) : named u = named t := by
  have hs := not_isStatement hi (by decide)
  have hspec := (elementsOf_list (isNode_of_hasKind hi) (import_parts hl hi).2).2
  rw [named_eq_map, named_eq_map,
    h.listAt_map hs (fun x hx => not_isStatement_of_isSpecifier (hspec x hx)) fun x hx y hxy => ?_]
  rw [pairOf, pairOf, hxy.hasKind_eq (not_isStatement_of_isSpecifier (hspec x hx))]
  split
  · rename_i hk
    rw [hxy.importedOf_eq (hspec x hx) hk, hxy.localOf_eq (hspec x hx)]
  · rfl

theorem isImport_eq (h : Alike t u) : isImport u = isImport t := by
  cases hs : isStatement t with
  | false => exact h.hasKind_eq hs _
  | true =>
    rw [isImport, isImport, hasKind_of_isPlain (h.isPlain_right hs) (by decide) (by decide),
      hasKind_of_isPlain (isPlain_of_isStatement hs) (by decide) (by decide)]

theorem ownName_eq (h : Alike t u) (hs : isStatement t = false) : ownName u = ownName t := by
  rw [ownName, ownName]
  obtain ⟨h1, h2⟩ | ⟨x, y, h1, h2, h3⟩ := h.field hs "id"
  · rw [h1, h2]; rfl
  rw [h1, h2]
  cases hx : isStatement x with
  | false =>
    rw [Option.map_some, Option.map_some, show isIdentifier y = isIdentifier x from h3.hasKind_eq hx _,
      h3.textAt_eq hx]
  | true =>
    have hx' : isIdentifier x = false := hasKind_of_isPlain (isPlain_of_isStatement hx) (by decide) (by decide)
    have hy' : isIdentifier y = false := hasKind_of_isPlain (h3.isPlain_right hx) (by decide) (by decide)
    rw [Option.map_some, Option.map_some, hx', hy']
    rfl

/-- Statements that are alike declare the same names. -/
theorem names_eq (h : Alike t u) (hn : isNode t = true) (hl : Legal t) : names u = names t := by
  cases hs : isStatement t with
  | true => rw [names_of_isPlain (h.isPlain_right hs), names_of_isPlain (isPlain_of_isStatement hs)]
  | false =>
    rw [names, names, h.kind?_eq hs]
    split
    · rename_i hk
      have hspec := (elementsOf_list hn (import_parts hl (hasKind_iff.mpr hk)).2).2
      rw [h.listAt_map hs (fun x hx => not_isStatement_of_isSpecifier (hspec x hx))
        fun x hx y hxy => hxy.localOf_eq (hspec x hx)]
    · rename_i hk
      have hsound := hl.sound hn
      rw [sound, hk] at hsound
      have hdecl := (elementsOf_list hn (Bool.and_eq_true _ _ ▸ hsound : _ ∧ _).1).2
      rw [flatMap_def, flatMap_def, h.listAt_map hs fun x hx => not_isStatement (hdecl x hx) (by decide)]
      intro x hx y hxy
      have hxn := isNode_of_hasKind (hdecl x hx)
      have hxl := hl.listAt hn (by decide) hx hxn
      refine hxy.boundIn_eq (not_isStatement (hdecl x hx) (by decide)) fun z hz y' hzy => hzy.bound_eq fun _ => ?_
      exact hxl.field hxn hz (by decide)
    · exact h.ownName_eq hs
    · exact h.ownName_eq hs
    · rfl

end Names

section Sound
variable {t x : Tree α} {u y : Tree β} {key : String} {p : Tree α → Bool} {q : Tree β → Bool}

/-- A test that alike documents pass together. -/
def Preserves (p : Tree α → Bool) (q : Tree β → Bool) : Prop := ∀ x y, Alike x y → p x = true → q y = true

theorem holds (h : Alike t u) (hs : isStatement t = false) (hp : Preserves p q) (ht : Node.holds t key p = true) :
    Node.holds u key q = true := by
  rw [Node.holds] at ht ⊢
  obtain ⟨h1, h2⟩ | ⟨x, y, h1, h2, h3⟩ := h.field hs key
  · rw [h1] at ht; cases ht
  · rw [h1] at ht
    rw [h2]
    exact hp x y h3 ht

theorem holdsIf (h : Alike t u) (hs : isStatement t = false) (hp : Preserves p q) (ht : Node.holdsIf t key p = true) :
    Node.holdsIf u key q = true := by
  rw [Node.holdsIf] at ht ⊢
  obtain ⟨h1, h2⟩ | ⟨x, y, h1, h2, h3⟩ := h.field hs key
  · rw [h2]
  · rw [h1] at ht
    rw [h2]
    exact hp x y h3 ht

theorem preserves_isText : Preserves (isText (α := α)) (isText (α := β)) := by
  intro x y h hx
  cases x with
  | scalar s =>
    rw [h.scalar_left]
    cases s <;> first | rfl | cases hx
  | arr | obj => cases hx

theorem preserves_hasKind {name : String} (hname : name ≠ "ExpressionStatement") :
    Preserves (fun x : Tree α => hasKind x name) fun y : Tree β => hasKind y name := fun _ _ h hx =>
  (h.hasKind_eq (not_isStatement hx hname) name).trans hx

theorem preserves_isNode : Preserves (isNode (α := α)) (isNode (α := β)) := fun _ _ h hx => h.isNode_eq.trans hx

theorem preserves_isSlot : Preserves (isSlot (α := α)) (isSlot (α := β)) := by
  intro x y h hx
  cases hn : isNode x with
  | true => exact isSlot_of_isNode (h.isNode_eq.trans hn)
  | false =>
    rw [eq_null_of_isSlot hx hn] at h
    rw [h.scalar_left]
    rfl

theorem preserves_isArgument : Preserves (isArgument (α := α)) (isArgument (α := β)) := by
  intro x y h hx
  rw [isArgument, Bool.and_eq_true, Bool.not_eq_true'] at hx ⊢
  exact ⟨h.isNode_eq.trans hx.1, (h.hasKind_eq hx.2 _).trans hx.2⟩

theorem isStringLiteral_eq {γ : Type} (t : Tree γ) :
    isStringLiteral t = (hasKind t "StringLiteral" || hasKind t "Literal" && Node.holds t "value" isText) := by
  rw [isStringLiteral, Node.holds, field?]
  cases Table.get? t.fields "value" with
  | none => rfl
  | some v =>
    cases v with
    | scalar s => cases s <;> rfl
    | arr | obj => rfl

theorem preserves_isStringLiteral : Preserves (isStringLiteral (α := α)) (isStringLiteral (α := β)) := by
  intro x y h hx
  have hs := not_isStatement_of_isStringLiteral hx
  rw [isStringLiteral_eq, Bool.or_eq_true, Bool.and_eq_true] at hx ⊢
  rw [h.hasKind_eq hs, h.hasKind_eq hs]
  exact hx.imp_right fun hx => ⟨hx.1, h.holds hs preserves_isText hx.2⟩

theorem preserves_isListOf (hp : Preserves p q) : Preserves (isListOf p) (isListOf q) := by
  intro x y h hx
  cases h with
  | scalar | obj => cases hx
  | statement _ _ ht =>
    cases x with
    | scalar | arr => cases ht
    | obj => cases hx
  | arr m n items items' keep drops length each =>
    rw [isListOf, all_eq_true] at hx ⊢
    intro y hy
    obtain ⟨x, hxm, hz⟩ := exists_mem_zip length hy
    exact hp x y (each _ hz) (hx x (mem_filter.mp hxm).1)

theorem preserves_isPatternProperty : Preserves (isPatternProperty (α := α)) (isPatternProperty (α := β)) := by
  intro x y h hx
  rw [isPatternProperty, h.kind?_eq (not_isStatement_of_isPatternProperty hx)]
  rw [isPatternProperty] at hx
  exact hx

theorem preserves_isSpecifier : Preserves (isSpecifier (α := α)) (isSpecifier (α := β)) := by
  intro x y h hx
  have hs := not_isStatement_of_isSpecifier hx
  have hlocal := h.holds hs (preserves_hasKind (by decide)) (specifier_local hx)
  rw [isSpecifier, h.kind?_eq hs]
  rw [isSpecifier] at hx
  split at hx
  · rw [Bool.and_eq_true] at hx ⊢
    refine ⟨hlocal, h.holds hs ?_ hx.2⟩
    intro i j hij hi
    rw [Bool.or_eq_true] at hi ⊢
    exact hi.imp (preserves_hasKind (by decide) i j hij) (preserves_isStringLiteral i j hij)
  · exact hlocal
  · exact hlocal
  · cases hx

/-- Positions and comments are the same. -/
theorem metadata_eq (h : Alike t u) (hs : isStatement t = false) (hk : isMetadata key = true) :
    (field? u key).map erase = (field? t key).map erase := by
  cases h with
  | scalar | arr => rfl
  | statement _ _ ht => rw [hs] at ht; cases ht
  | obj m n fs gs other keys same each =>
    clear hs other each
    simp only [field?, Tree.fields]
    induction fs generalizing gs with
    | nil => cases gs <;> simp_all [Table.get?]
    | cons e fs ih =>
      cases gs with
      | nil => cases keys
      | cons e' gs =>
        simp only [map_cons, List.cons.injEq] at keys
        rw [zip_cons_cons, forall_mem_cons] at same
        rw [Table.get?, Table.get?, ← keys.1]
        split
        · rename_i hkey
          rw [Option.map_some, Option.map_some, same.1 (hkey ▸ hk)]
        · exact ih gs keys.2 same.2

theorem isObject_erase {γ : Type} (t : Tree γ) : t.erase.isObject = t.isObject := by
  rw [erase]
  cases t <;> simp [isObject]

theorem hasLocation_eq (h : Alike t u) (hs : isStatement t = false) : hasLocation u = hasLocation t := by
  have hloc : ∀ {γ : Type} (t : Tree γ), hasLocation t = ((field? t "loc").map erase).all fun loc =>
      Node.holdsIf loc "start" isObject := by
    intro γ t
    rw [hasLocation, Node.holdsIf]
    cases field? t "loc" with
    | none => rfl
    | some loc =>
      show Node.holdsIf loc "start" isObject = Node.holdsIf loc.erase "start" isObject
      rw [Node.holdsIf, Node.holdsIf, field?, field?, erase, get?_fields_map]
      cases Table.get? loc.fields "start" with
      | none => rfl
      | some start => exact (isObject_erase start).symm
  rw [hloc u, hloc t, h.metadata_eq hs (by decide)]

theorem nodes_eq_nil {γ : Type} {t : Tree γ} : nodes t = [] ↔ isNode t = false := by
  cases t with
  | scalar | arr => simp [nodes, isNode, kind?, kind]
  | obj m fields =>
    rw [nodes]
    split <;> simp_all

/-- Where there were no nodes there are none. -/
theorem inside_eq_nil (h : Alike t u) (ht : inside t = []) : inside u = [] := by
  cases h with
  | scalar => rfl
  | arr m n items items' keep drops length each =>
    rw [inside, nodesItems_eq, flatMap_eq_nil_iff] at ht ⊢
    intro y hy
    obtain ⟨x, hx, hz⟩ := exists_mem_zip length hy
    have hxn := nodes_eq_nil.mp (ht x (mem_filter.mp hx).1)
    exact nodes_eq_nil.mpr ((each _ hz).isNode_eq.trans hxn)
  | obj m n fs gs other keys same each =>
    have hu := isNode_eq (.obj m n fs gs other keys same each)
    exact nodes_eq_nil.mpr (hu.trans (nodes_eq_nil.mp ht))
  | statement _ _ hst hu =>
    have hmem := mem_inside_self (isNode_of_hasKind (t := t) hst)
    rw [ht] at hmem
    cases hmem

theorem nodesFields_eq_nil (h : Alike t u) (hs : isStatement t = false) (ht : nodesFields t.fields = []) :
    nodesFields u.fields = [] := by
  cases u with
  | scalar | arr => rfl
  | obj n gs =>
    cases t with
    | scalar | arr =>
      cases h with
      | statement _ _ hst => rw [hs] at hst; cases hst
    | obj m fs =>
      cases h with
      | statement _ _ hst => rw [hs] at hst; cases hst
      | obj _ _ _ _ other keys same each =>
        refine eq_nil_iff_forall_not_mem.mpr fun y hy => ?_
        obtain ⟨e, he, hk, hye⟩ := mem_nodesFields hy
        obtain ⟨d, hd, hde, hz⟩ := Table.exists_mem_zip_key keys he
        have hnil : inside d.2 = [] := by
          refine eq_nil_iff_forall_not_mem.mpr fun z hz => ?_
          have hzm := mem_nodesFields_of hd (hde ▸ hk) hz
          rw [show nodesFields fs = [] from ht] at hzm
          cases hzm
        rw [(each _ hz).inside_eq_nil hnil] at hye
        cases hye

theorem no_statement (h : Alike t u) (ht : ∀ n ∈ inside t, isStatement n = false) :
    ∀ n ∈ inside u, isStatement n = false := by
  induction h with
  | scalar => exact nofun
  | statement t u hst hu =>
    have hself := ht t (mem_inside_self (isNode_of_hasKind hst))
    rw [hst] at hself
    cases hself
  | arr m n items items' keep drops length each ih =>
    intro z hz
    rw [inside, nodesItems_eq, mem_flatMap] at hz
    obtain ⟨y, hy, hzy⟩ := hz
    obtain ⟨x, hx, hxy⟩ := exists_mem_zip length hy
    refine ih (x, y) hxy (fun w hw => ht w ?_) z (nodes_subset_inside y hzy)
    have hxn : isNode x = true := by
      rw [← (each _ hxy).isNode_eq]
      by_contra hyn
      rw [nodes_eq_nil.mpr (by simpa using hyn)] at hzy
      cases hzy
    obtain ⟨m, fs, k, rfl, _⟩ := exists_of_isNode hxn
    rw [inside, nodesItems_eq, mem_flatMap]
    exact ⟨_, (mem_filter.mp hx).1, hw⟩
  | obj m n fs gs other keys same each ih =>
    have h : Alike (.obj m fs) (.obj n gs) := .obj m n fs gs other keys same each
    intro z hz
    change z ∈ nodes (.obj n gs) at hz
    rw [nodes] at hz
    split at hz
    case isFalse => cases hz
    case isTrue hn =>
      have hm : isNode (.obj m fs) = true := h.isNode_eq.symm.trans hn
      rcases mem_cons.mp hz with rfl | hz
      · exact (h.hasKind_eq other _).trans other
      · obtain ⟨e, he, hk, hze⟩ := mem_nodesFields hz
        obtain ⟨d, hd, hde, hz⟩ := Table.exists_mem_zip_key keys he
        refine ih (d, e) hz (fun w hw => ht w ?_) z hze
        change w ∈ nodes (.obj m fs)
        rw [nodes, if_pos hm]
        exact mem_cons_of_mem _ (mem_nodesFields_of hd (hde ▸ hk) hw)

theorem inside_of_isNode {γ : Type} {t : Tree γ} (hn : isNode t = true) : inside t = t :: nodesFields t.fields := by
  obtain ⟨m, fields, k, rfl, _⟩ := exists_of_isNode hn
  show nodes (.obj m fields) = _
  rw [nodes, if_pos hn]
  rfl

theorem nodesFields_no_statement (h : Alike t u) (hs : isStatement t = false) (hn : isNode t = true)
    (ht : ((nodesFields t.fields).all fun n => !isStatement n) = true) :
    ((nodesFields u.fields).all fun n => !isStatement n) = true := by
  have hun : isNode u = true := h.isNode_eq.trans hn
  have hin : ∀ n ∈ inside t, isStatement n = false := by
    rw [inside_of_isNode hn, forall_mem_cons]
    exact ⟨hs, by simpa using ht⟩
  rw [all_eq_true]
  intro n hn
  rw [h.no_statement hin n (by rw [inside_of_isNode hun]; exact mem_cons_of_mem _ hn), Bool.not_false]

/-- Well-formedness does not show the difference either. -/
theorem sound (h : Alike t u) (ht : Node.sound t = true) : Node.sound u = true := by
  cases hs : isStatement t with
  | true =>
    have hu := h.isPlain_right hs
    rw [isPlain, Bool.or_eq_true, isStatement, hasKind_iff, hasKind_iff] at hu
    rw [Node.sound]
    rcases hu with hu | hu <;> (rw [hu]; rfl)
  | false =>
    have hlist : ∀ {key p q}, Preserves p q → Node.holdsIf t key (isListOf p) = true →
        Node.holdsIf u key (isListOf q) = true := fun hpq => h.holdsIf hs (preserves_isListOf hpq)
    rw [Node.sound] at ht
    rw [Node.sound, h.kind?_eq hs]
    split at ht
    · rw [Bool.and_eq_true, List.isEmpty_iff] at ht ⊢
      exact ⟨h.holds hs preserves_isText ht.1, h.nodesFields_eq_nil hs ht.2⟩
    · exact h.holds hs preserves_isText ht
    · rw [Bool.and_eq_true] at ht ⊢
      exact ⟨hlist preserves_isArgument ht.1, (h.hasLocation_eq hs).trans ht.2⟩
    · exact hlist preserves_isNode ht
    · rw [Bool.and_eq_true] at ht ⊢
      exact ⟨h.holds hs preserves_isNode ht.1, h.holds hs preserves_isNode ht.2⟩
    · rw [Bool.and_eq_true] at ht ⊢
      exact ⟨h.holds hs preserves_isNode ht.1, h.holds hs preserves_isNode ht.2⟩
    · rename_i hk
      rw [Bool.and_eq_true, Bool.and_eq_true] at ht ⊢
      refine ⟨⟨h.holds hs preserves_isStringLiteral ht.1.1, hlist preserves_isSpecifier ht.1.2⟩, ?_⟩
      exact h.nodesFields_no_statement hs (isNode_of_hasKind (hasKind_iff.mpr hk)) ht.2
    · rw [Bool.and_eq_true] at ht ⊢
      refine ⟨hlist (preserves_hasKind (by decide)) ht.1, h.holdsIf hs ?_ ht.2⟩
      intro x y hxy hx
      cases y with
      | scalar s =>
        rw [hxy.scalar_right] at hx
        cases s <;> first | rfl | exact hx
      | arr | obj => rfl
    · exact h.holdsIf hs preserves_isSlot ht
    · exact hlist preserves_isPatternProperty ht
    · exact hlist preserves_isSlot ht
    · exact h.holdsIf hs preserves_isSlot ht
    · exact h.holdsIf hs preserves_isSlot ht
    · rfl

end Sound

end Alike

section Marks

variable (f : α → β)

theorem nodes_map (t : Tree α) :
    nodes (t.map f) = (nodes t).map (Tree.map f) ∧ inside (t.map f) = (inside t).map (Tree.map f) := by
  induction t using induct with
  | scalar s =>
    rw [map_scalar]
    simp [inside, nodes]
  | arr m items ih =>
    rw [map_arr]
    refine ⟨by simp [nodes], ?_⟩
    rw [inside, inside, nodesItems_eq, nodesItems_eq, flatMap_map, map_flatMap]
    exact flatMap_congr fun x hx => (ih x hx).1
  | obj m fields ih =>
    have hfields : nodesFields (Table.mapValues (Tree.map f) fields) = (nodesFields fields).map (Tree.map f) := by
      rw [nodesFields_eq, nodesFields_eq, Table.mapValues, flatMap_map, map_flatMap]
      refine flatMap_congr fun e he => ?_
      dsimp only
      split
      · rfl
      · exact (ih e he).2
    have hnodes : nodes ((obj m fields).map f) = (nodes (obj m fields)).map (Tree.map f) := by
      have hn := isNode_map f (.obj m fields)
      rw [map_obj] at hn ⊢
      rw [nodes, nodes, hn]
      split
      · rw [hfields, map_cons, map_obj]
      · rfl
    refine ⟨hnodes, ?_⟩
    rw [map_obj] at hnodes ⊢
    exact hnodes

theorem nodesFields_map (fields : Fields α) :
    nodesFields (Table.mapValues (Tree.map f) fields) = (nodesFields fields).map (Tree.map f) := by
  rw [nodesFields_eq, nodesFields_eq, Table.mapValues, flatMap_map, map_flatMap]
  refine flatMap_congr fun e he => ?_
  dsimp only
  split
  · rfl
  · exact (nodes_map f e.2).2

theorem sound_map (t : Tree α) : sound (t.map f) = sound t := by
  rw [Bool.eq_iff_iff]
  exact ⟨(alike_map f t).2.sound, (alike_map f t).1.sound⟩

theorem legal_map {t : Tree α} : Legal (t.map f) ↔ Legal t := by
  simp only [Legal, (nodes_map f t).2, forall_mem_map, sound_map]

end Marks

end DebugGuards.Node
