import DebugGuards.Proofs.Options.Merging

/-! The laws of merging. A document changes nothing when it is merged over itself or over what it
was merged into already. Along a path of keys the upper document decides wherever it holds
something other than an object; what it does not reach is left as the lower one has it; and
where both hold an object, the keys of the lower one come first. -/

namespace DebugGuards

open List

/-- What a document holds at the end of a path of keys. -/
def Tree.at? {α : Type} (t : Tree α) : List String → Option (Tree α)
  | [] => some t
  | k :: p => (Table.get? t.fields k).bind fun v => v.at? p

namespace Options

open DebugGuards.Tree

section Absorption

variable {base extra : Table String Json}

theorem mergeFields_eq_self
    (h : ∀ e ∈ extra, ∃ v, Table.get? base e.1 = some v ∧ mergeValue (some v) e.2 = v) :
    mergeFields base extra = base := by
  induction extra with
  | nil => rw [mergeFields]
  | cons e rest ih =>
    rw [forall_mem_cons] at h
    obtain ⟨⟨v, hv, he⟩, hrest⟩ := h
    rw [mergeFields, hv, he, Table.set_get? hv, ih hrest]

theorem mergeValue_self {v : Json} (hk : v.keyed = true) : mergeValue (some v) v = v := by
  induction v using induct with
  | scalar | arr => rw [mergeValue_of_not_object rfl]
  | obj m fields ih =>
    rw [keyed_obj] at hk
    rw [mergeValue]
    exact congrArg _ (mergeFields_eq_self fun e he => ⟨e.2, Table.get?_of_mem hk.1 he, ih e he (hk.2 e he)⟩)

/-- What was merged over something is absorbed when it is merged over the outcome. -/
theorem mergeValue_mergeValue (held : Option Json) {v : Json} (hk : v.keyed = true) :
    mergeValue (some (mergeValue held v)) v = mergeValue held v := by
  induction v using induct generalizing held with
  | scalar | arr => rw [mergeValue_of_not_object rfl, mergeValue_of_not_object rfl]
  | obj m fields ih =>
    rcases held with _ | _ | _ | ⟨_, base⟩
    -- only an object that is held has anything merged into it
    case some.obj =>
      rw [keyed_obj] at hk
      rw [mergeValue, mergeValue]
      refine congrArg _ (mergeFields_eq_self fun e he => ⟨_, ?_, ih e he (Table.get? base e.1) (hk.2 e he)⟩)
      rw [get?_mergeFields hk.1, Table.get?_of_mem hk.1 he]
      rfl
    all_goals exact mergeValue_self hk

theorem keys_mergeFields (hd : (extra.map Prod.fst).Nodup) :
    Table.keys (mergeFields base extra) = Table.keys base ++ (Table.keys extra).filter (· ∉ Table.keys base) := by
  induction extra generalizing base with
  | nil => simp [mergeFields, Table.keys]
  | cons e rest ih =>
    rw [map_cons, nodup_cons] at hd
    have hkeys : Table.keys (e :: rest) = e.1 :: Table.keys rest := rfl
    rw [mergeFields, ih hd.2, Table.keys_set, hkeys]
    split
    · next hk => rw [filter_cons_of_neg (by simpa using hk)]
    · next hk =>
      rw [filter_cons_of_pos (by simpa using hk), append_assoc, singleton_append]
      refine congrArg _ (congrArg _ (filter_congr fun k hmem => ?_))
      have hne : k ≠ e.1 := fun h => hd.1 (h ▸ hmem)
      simp [hne]

end Absorption

section Paths

variable {a b v : Json} {p : List String}

/-- One step down a path of an object merged over what is held. -/
theorem at?_mergeValue_cons {y : Table String Json} (hd : (y.map Prod.fst).Nodup) (held : Option Json) (k : String) :
    (mergeValue held (.obj () y)).at? (k :: p) =
      (((Table.get? y k).map (mergeValue (held.bind fun a => Table.get? a.fields k))).or
        (held.bind fun a => Table.get? a.fields k)).bind (·.at? p) := by
  rcases held with _ | _ | _ | ⟨_, x⟩
  case some.obj => rw [mergeValue, at?, fields, get?_mergeFields hd, Option.bind_some, fields]
  all_goals cases h : Table.get? y k <;> simp [mergeValue, at?, fields, h, mergeValue_none, Table.get?]

/-- What the upper document holds stays, unless it is an object. -/
theorem at?_mergeValue_upper (held : Option Json) (hk : b.keyed = true) (hv : b.at? p = some v)
    (hplain : v.isObject = false) : (mergeValue held b).at? p = some v := by
  induction p generalizing held b with
  | nil =>
    cases hv
    rw [mergeValue_of_not_object hplain, at?]
  | cons k p ih =>
    obtain ⟨w, hw, hrest⟩ := Option.bind_eq_some_iff.mp hv
    cases b with
    | scalar | arr => cases hw
    | obj m y =>
      rw [keyed_obj] at hk
      have hw' : Table.get? y k = some w := hw
      rw [at?_mergeValue_cons hk.1, hw']
      exact ih _ (hk.2 _ (Table.mem_of_get? hw)) hrest

theorem at?_mergeValue_lower (hk : b.keyed = true) (hnone : b.at? p = none)
    (hobj : ∀ q v, q <+: p → q ≠ p → b.at? q = some v → v.isObject = true) :
    (mergeValue (some a) b).at? p = a.at? p := by
  induction p generalizing a b with
  | nil => cases hnone
  | cons k p ih =>
    have hb := hobj [] b nil_prefix (by simp) rfl
    cases b with
    | scalar | arr => cases hb
    | obj m y =>
      rw [keyed_obj] at hk
      rw [at?_mergeValue_cons hk.1, Option.bind_some, at?]
      cases hw : Table.get? y k with
      | none => rfl
      | some w =>
        have hlook : ∀ q, (obj m y).at? (k :: q) = w.at? q := fun q => by rw [at?, fields, hw]; rfl
        rw [hlook] at hnone
        cases hu : Table.get? a.fields k with
        | none =>
          rw [Option.map_some, mergeValue_none]
          exact hnone
        | some u =>
          refine ih (hk.2 _ (Table.mem_of_get? hw)) hnone fun q v hq hne hv => ?_
          exact hobj (k :: q) v (cons_prefix_cons.mpr ⟨rfl, hq⟩) (by simpa using hne) ((hlook q).trans hv)

/-- Where both hold an object, so does the outcome, with the keys of the lower one first. -/
theorem at?_mergeValue_objects {m n : Unit} {x y : Table String Json} (hk : b.keyed = true)
    (ha : a.at? p = some (.obj m x)) (hb : b.at? p = some (.obj n y)) :
    ∃ z, (mergeValue (some a) b).at? p = some (.obj () z) ∧
      Table.keys z = Table.keys x ++ (Table.keys y).filter (· ∉ Table.keys x) := by
  induction p generalizing a b with
  | nil =>
    cases ha
    cases hb
    rw [mergeValue]
    exact ⟨_, rfl, keys_mergeFields ((keyed_obj n y).mp hk).1⟩
  | cons k p ih =>
    obtain ⟨u, hu, hx⟩ := Option.bind_eq_some_iff.mp ha
    obtain ⟨w, hw, hy⟩ := Option.bind_eq_some_iff.mp hb
    cases b with
    | scalar | arr => cases hw
    | obj =>
      rw [keyed_obj] at hk
      rw [fields] at hw
      rw [at?_mergeValue_cons hk.1, Option.bind_some, hu, hw]
      exact ih (hk.2 _ (Table.mem_of_get? hw)) hx hy

end Paths

/-- Merging objects: the laws of absorption, what the outcome holds at each path, and the order
of its keys. -/
theorem merge_overrides {a b : Json} (ha : a.isObject = true) (hb : b.isObject = true) (hka : a.keyed = true)
    (hkb : b.keyed = true) :
    merge a a = .ok a ∧ merge a (.obj () []) = .ok a ∧ ∃ c, merge a b = .ok c ∧ merge c b = .ok c ∧
      (∀ p v, b.at? p = some v → v.isObject = false → c.at? p = some v) ∧
      (∀ p, b.at? p = none → (∀ q v, q <+: p → q ≠ p → b.at? q = some v → v.isObject = true) →
        c.at? p = a.at? p) ∧
      ∀ p m n x y, a.at? p = some (.obj m x) → b.at? p = some (.obj n y) →
        ∃ z, c.at? p = some (.obj () z) ∧
          Table.keys z = Table.keys x ++ (Table.keys y).filter (· ∉ Table.keys x) := by
  have hmerge : ∀ {c d : Json}, c.isObject = true → d.isObject = true →
      merge c d = .ok (mergeValue (some c) d) := by
    intro c d hc hd
    cases c with
    | scalar | arr => cases hc
    | obj =>
      cases d with
      | scalar | arr => cases hd
      | obj => rw [mergeValue]; rfl
  refine ⟨?_, ?_, mergeValue (some a) b, hmerge ha hb, ?_, fun p v => at?_mergeValue_upper _ hkb,
    fun p => at?_mergeValue_lower hkb, fun p m n x y => at?_mergeValue_objects hkb⟩
  · rw [hmerge ha ha, mergeValue_self hka]
  · cases a with
    | scalar | arr => cases ha
    | obj => rfl
  · rw [hmerge (by rw [isObject_mergeValue, hb]) hb, mergeValue_mergeValue _ hkb]

def lowerLayer : Json := .obj () [("a", .obj () [("u", .obj () []), ("v", .int 1)]), ("b", .int 2), ("c", .int 3)]

def upperLayer : Json := .obj () [("b", .obj () [("w", .int 4)]), ("a", .obj () [("t", .int 5), ("u", .int 6)])]

/-- An object over a number, and a number over an object further down. -/
theorem merge_overrides_conflicts :
    ∃ c, merge lowerLayer upperLayer = .ok c ∧ c.at? ["b", "w"] = some (.int 4) ∧ c.at? ["a", "u"] = some (.int 6) ∧
      c.at? ["c"] = some (.int 3) ∧ ∃ z, c.at? ["a"] = some (.obj () z) ∧ Table.keys z = ["u", "v", "t"] := by
  obtain ⟨_, _, c, hc, _, hupper, hlower, hkeys⟩ :=
    merge_overrides (a := lowerLayer) (b := upperLayer) rfl rfl (by decide) (by decide)
  refine ⟨c, hc, hupper _ _ rfl rfl, hupper _ _ rfl rfl, hlower ["c"] rfl ?_, hkeys ["a"] _ _ _ _ rfl rfl⟩
  intro q v hq hne hv
  rcases prefix_cons_iff.mp hq with rfl | ⟨r, rfl, hr⟩
  · cases hv; rfl
  · exact absurd (prefix_nil.mp hr ▸ rfl) hne

end Options

end DebugGuards
