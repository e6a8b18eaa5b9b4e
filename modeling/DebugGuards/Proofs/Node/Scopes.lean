import DebugGuards.Proofs.Node.Alike

/-! The names that nodes declare: a function its own and those of its parameters, a catch
clause that of its parameter, a declaration those that it binds. Each is the name of an
identifier that lies inside the node. -/

namespace DebugGuards.Node

open DebugGuards.Tree List

variable {α β : Type} {t x : Tree α} {n key : String}

/-- The names that a node declares, for itself or for what stands around it. An expression
statement declares none. -/
def declares (t : Tree α) : List String :=
  if isStatement t then []
  else names t ++ (listAt t "params").flatMap bound ++ boundIn t "param" ++ boundIn t "id"

theorem declares_of_isStatement (ht : isStatement t = true) : declares t = [] := if_pos ht

theorem declares_of_not_isStatement (ht : isStatement t = false) :
    declares t = names t ++ (listAt t "params").flatMap bound ++ boundIn t "param" ++ boundIn t "id" :=
  if_neg (by rw [ht]; decide)

section Identifiers

/-- A name is that of an identifier inside. -/
def Occurs (n : String) (t : Tree α) : Prop := ∃ i ∈ inside t, isIdentifier i = true ∧ textAt i "name" = n

theorem Occurs.field (ht : isNode t = true) (hx : field? t key = some x) (hk : isMetadata key = false)
    (hn : Occurs n x) : Occurs n t := by
  obtain ⟨i, hi, hid⟩ := hn
  obtain ⟨m, fields, _, rfl, _⟩ := exists_of_isNode ht
  exact ⟨i, inside_field ht hx hk hi, hid⟩

theorem Occurs.listAt (ht : isNode t = true) (hx : x ∈ listAt t key) (hk : isMetadata key = false)
    (hxn : isNode x = true) (hn : Occurs n x) : Occurs n t := by
  rw [Node.listAt] at hx
  split at hx
  · next m items hf =>
    obtain ⟨i, hi, hid⟩ := hn
    refine Occurs.field ht hf hk ⟨i, ?_, hid⟩
    obtain ⟨_, _, _, rfl, _⟩ := exists_of_isNode hxn
    rw [inside, nodesItems_eq, mem_flatMap]
    exact ⟨_, hx, hi⟩
  · cases hx

theorem occurs_identifier (hid : isIdentifier t = true) : Occurs (textAt t "name") t :=
  ⟨t, mem_inside_self (isNode_of_hasKind hid), hid, rfl⟩

theorem exists_of_boundIn (hn : n ∈ boundIn t key) : ∃ x, field? t key = some x ∧ n ∈ bound x := by
  rw [boundIn] at hn
  cases hx : field? t key with
  | none => rw [hx] at hn; cases hn
  | some x => exact ⟨x, rfl, by rwa [hx] at hn⟩

theorem isNode_of_bound (hn : n ∈ bound t) : isNode t = true := by
  by_contra hnot
  rw [Alike.bound_of_not_isNode (by simpa using hnot)] at hn
  cases hn

/-- What a pattern binds occurs in it. -/
theorem occurs_of_bound (hl : Legal t) (hn : n ∈ bound t) : Occurs n t := by
  induction t using inductSize with
  | step t ih =>
    have hnode := isNode_of_bound hn
    have hfield : ∀ {key}, isMetadata key = false → n ∈ boundIn t key → Occurs n t := fun hk hn => by
      obtain ⟨x, hx, hn⟩ := exists_of_boundIn hn
      exact (ih x (sizeOf_field hx) (hl.field hnode hx hk) hn).field hnode hx hk
    rw [bound_eq] at hn
    split at hn
    · rename_i hk
      rw [mem_singleton.mp hn]
      exact occurs_identifier (hasKind_iff.mpr hk)
    · rename_i hk
      obtain ⟨p, hp, hn⟩ := mem_flatMap.mp hn
      have hsound := hl.sound hnode
      rw [sound, hk] at hsound
      have hpn := isNode_of_isPatternProperty ((elementsOf_list hnode hsound).2 p hp)
      obtain ⟨x, hx, hn⟩ := exists_of_boundIn hn
      have hmeta : isMetadata (if hasKind p "RestElement" then "argument" else "value") = false := by split <;> decide
      have hpl := hl.listAt hnode (by decide) hp hpn
      have hxn := ih x (Nat.lt_trans (sizeOf_field hx) (sizeOf_listAt hp)) (hpl.field hpn hx hmeta) hn
      exact (hxn.field hpn hx hmeta).listAt hnode hp (by decide) hpn
    · obtain ⟨x, hx, hn⟩ := mem_flatMap.mp hn
      have hxn := isNode_of_bound hn
      exact (ih x (sizeOf_listAt hx) (hl.listAt hnode (by decide) hx hxn) hn).listAt hnode hx (by decide) hxn
    · exact hfield (by decide) hn
    · exact hfield (by decide) hn
    · cases hn

theorem occurs_of_boundIn (hl : Legal t) (ht : isNode t = true) (hk : isMetadata key = false)
    (hn : n ∈ boundIn t key) : Occurs n t := by
  obtain ⟨x, hx, hn⟩ := exists_of_boundIn hn
  exact (occurs_of_bound (hl.field ht hx hk) hn).field ht hx hk

theorem occurs_of_ownName (ht : isNode t = true) (hn : n ∈ ownName t) : Occurs n t := by
  rw [ownName] at hn
  cases hx : field? t "id" with
  | none => rw [hx] at hn; cases hn
  | some x =>
    rw [hx, Option.map_some, Option.getD_some] at hn
    split at hn
    · next hid =>
      rw [mem_singleton.mp hn]
      exact (occurs_identifier hid).field ht hx (by decide)
    · cases hn

theorem occurs_of_localOf (hs : isSpecifier x = true) : Occurs (localOf x) x := by
  have hloc := specifier_local hs
  rw [holds] at hloc
  split at hloc
  · next i hi =>
    rw [localOf, hi]
    exact (occurs_identifier hloc).field (isNode_of_isSpecifier hs) hi (by decide)
  · cases hloc

theorem occurs_of_names (hl : Legal t) (ht : isNode t = true) (hn : n ∈ names t) : Occurs n t := by
  rw [names] at hn
  split at hn
  · rename_i hk
    have hspec := (elementsOf_list ht (import_parts hl (hasKind_iff.mpr hk)).2).2
    obtain ⟨s, hs, rfl⟩ := mem_map.mp (mem_filter.mp hn).1
    exact (occurs_of_localOf (hspec s hs)).listAt ht hs (by decide) (isNode_of_isSpecifier (hspec s hs))
  · rename_i hk
    have hsound := hl.sound ht
    rw [sound, hk] at hsound
    have hdecl := (elementsOf_list ht (Bool.and_eq_true _ _ ▸ hsound : _ ∧ _).1).2
    obtain ⟨d, hd, hn⟩ := mem_flatMap.mp hn
    have hdn := isNode_of_hasKind (hdecl d hd)
    exact (occurs_of_boundIn (hl.listAt ht (by decide) hd hdn) hdn (by decide) hn).listAt ht hd (by decide) hdn
  · exact occurs_of_ownName ht hn
  · exact occurs_of_ownName ht hn
  · cases hn

theorem occurs_of_declares (hl : Legal t) (ht : isNode t = true) (hn : n ∈ declares t) : Occurs n t := by
  cases hs : isStatement t with
  | true => rw [declares_of_isStatement hs] at hn; cases hn
  | false =>
  rw [declares_of_not_isStatement hs] at hn
  simp only [mem_append, or_assoc] at hn
  rcases hn with hn | hn | hn | hn
  · exact occurs_of_names hl ht hn
  · obtain ⟨x, hx, hn⟩ := mem_flatMap.mp hn
    have hxn := isNode_of_bound hn
    exact (occurs_of_bound (hl.listAt ht (by decide) hx hxn) hn).listAt ht hx (by decide) hxn
  · exact occurs_of_boundIn hl ht (by decide) hn
  · exact occurs_of_boundIn hl ht (by decide) hn

end Identifiers

section Alike

theorem Alike.declares_eq {u : Tree β} (h : Alike t u) (hs : isStatement t = false) (hn : isNode t = true)
    (hl : Legal t) : declares u = declares t := by
  have hbound : ∀ key, isMetadata key = false → boundIn u key = boundIn t key := fun key hk =>
    h.boundIn_eq hs fun _ hx _ hxy => hxy.bound_eq fun _ => hl.field hn hx hk
  have hparams : (Node.listAt u "params").flatMap bound = (Node.listAt t "params").flatMap bound :=
    h.listAt_flatMap hs (fun _ hx => bound_of_isPlain (isPlain_of_isStatement hx)) fun _ hx _ hxy =>
      hxy.bound_eq fun hxn => hl.listAt hn (by decide) hx hxn
  have hu : isStatement u = false := (h.hasKind_eq hs _).trans hs
  rw [declares_of_not_isStatement hs, declares_of_not_isStatement hu, h.names_eq hn hl, hparams,
    hbound "param" (by decide), hbound "id" (by decide)]

theorem declares_map (f : α → β) (hn : isNode t = true) (hl : Legal t) : declares (t.map f) = declares t := by
  cases hs : isStatement t with
  | true => rw [declares_of_isStatement hs, declares_of_isStatement ((isStatement_map f t).trans hs)]
  | false => exact (alike_map f t).1.declares_eq hs hn hl

end Alike

end DebugGuards.Node
