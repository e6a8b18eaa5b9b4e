import DebugGuards.Proofs.Expansion.Inlining

/-! Expansion as a rewriting. Scan, guard, inlining and cleaning all work on the document
in place; what they leave of the statements of a module is the image of these statements
under one recursion. Whatever else stands in the body is an import, or declares a name
that the module imports, or is the guard that was made. -/

namespace DebugGuards.Expansion

open DebugGuards.Tree Node List

variable {o : Options} {t : Tree Mark} {fresh m : Mark} {fields : Fields Mark} {body : Mark}
  {items : List (Tree Mark)} {guard n : String} {x : Tree Mark}

section Own

/-- The names that a module imports. -/
def importedNames (t : Tree Mark) : List String := ((bodyOf t).filter isImport).flatMap names

/-- A statement that imports nothing and declares none of some names. -/
def isOwn (strange : List String) (y : Json) : Bool := !isImport y && (names y).all fun n => !strange.contains n

variable {strange : List String} {y : Json}

theorem isOwn_of_isImport (hi : isImport y = true) : isOwn strange y = false := by simp [isOwn, hi]

theorem isOwn_of_mem (hy : n ∈ names y) (hn : n ∈ strange) : isOwn strange y = false := by
  rw [isOwn, Bool.and_eq_false_iff]
  exact .inr (all_eq_false.mpr ⟨n, hy, by simpa using hn⟩)

theorem isOwn_iff : isOwn strange y = true ↔ isImport y = false ∧ ∀ n ∈ names y, n ∉ strange := by
  simp [isOwn]

end Own

section Tidying

/-- Statements with the one that declares some name replaced by others that declare the
same names. -/
inductive Tidied (known : String → Prop) : List Json → List Json → Prop
  | same (ys : List Json) : Tidied known ys ys
  | one (pre : List Json) (y : Json) (post zs : List Json) (n : String) (hn : known n) (hy : n ∈ names y)
      (hzs : ∀ z ∈ zs, names z = names y) : Tidied known (pre ++ y :: post) (pre ++ zs ++ post)

theorem Tidied.filter_eq {known : String → Prop} {strange : List String} {ys zs : List Json} (ht : Tidied known ys zs)
    (hk : ∀ n, known n → n ∈ strange) : zs.filter (isOwn strange) = ys.filter (isOwn strange) := by
  cases ht with
  | same => rfl
  | one pre y post zs n hn hy hzs =>
    have hnone : zs.filter (isOwn strange) = [] := by
      refine filter_eq_nil_iff.mpr fun z hz => ?_
      rw [isOwn_of_mem (n := n) (by rw [hzs z hz]; exact hy) (hk n hn)]
      decide
    rw [filter_append, filter_append, hnone, append_nil, filter_append,
      filter_cons_of_neg (by rw [isOwn_of_mem hy (hk n hn)]; decide)]

theorem names_cleanedBlock {k : Mark} {fs : Fields Mark} {z : Json}
    (hz : z ∈ cleanedBlock o t (obj k fs)) : names z = names (obj k fs).erase := by
  rw [cleanedBlock] at hz
  split at hz
  · split at hz
    · cases hz
    · rw [mem_singleton.mp hz]
      exact names_redirectedTo ..
  · rw [mem_singleton.mp hz]
  · cases hz
  · cases hz

variable {ps : List Path} {p : Patch} {es : List Entry} {s s' : State} {h : Heap} {rs : List Ref}

/-- The last statement that declares a helper, with the entry it stands for. -/
structure Declarer (o : Options) (t : Tree Mark) (c : Scan) (h : Heap) (es : List Entry) (rs : List Ref)
    (pre : List Entry) (e : Entry) (post : List Entry) (k : Mark) (fs : List (String × Tree Mark))
    (rs₁ rs₂ : List Ref) : Prop where
  entries : es = pre ++ e :: post
  refs : rs = rs₁ ++ .part k :: rs₂
  before : List.Forall₂ (Entry.At h c.base) pre rs₁
  here : e.At h c.base (.part k)
  after : List.Forall₂ (Entry.At h c.base) post rs₂
  shows : Shows h (obj k fs)
  helper : ∃ q ∈ toolsOf o (bodyOf t), q.2 ∈ names (obj k fs)
  erase : names (obj k fs).erase = names (obj k fs)

variable {fate : Option ImportFate} (hc : Concluded o t fresh m fields body items ps guard p h rs s s' fate)
include hc

/-- How the cleaning ends: no helper is declared, or what declares the first one is taken
out, kept or redirected. -/
theorem Concluded.clean_cases :
    s' = s ∧ s'.workspace.root.erase = rewrittenWith o t guard (imagesOf o t guard (inlinedEntries o t guard)) ∨
    ∃ pre e post k fs rs₁ rs₂,
      Declarer o t (moduleScan o t fresh m fields ps) h (inlinedEntries o t guard) rs pre e post k fs rs₁ rs₂ ∧
      (obj k fs).erase = e.image (rewritingOf o t guard).rewrite ∧
      s'.workspace.root.erase = rewrittenWith o t guard
        (imagesOf o t guard pre ++ cleanedBlock o t (obj k fs) ++ imagesOf o t guard post) ∧
      ((∃ h' rs', Standing (moduleScan o t fresh m fields ps) fields body items (statementsOf o t) guard p
          (pre ++ post) s'.workspace h' rs') ∨
        (∃ q, s'.workspace = (s.workspace.addPath q).2) ∨
        ∃ h' cs, Models s'.workspace h' ∧ h.Writes s.workspace.fresh k (.record cs) h' s'.workspace.fresh ∧
          s'.workspace.root.ref = s.workspace.root.ref) := by
  obtain ⟨ho, hm, _, _, hh, hs, hcomplete, hclean, _⟩ := hc
  have hidle := erase_of_rewritten ho ⟨p, h, rs, hs, hcomplete⟩
  cases hhead : s.helpers.head? with
  | none =>
    rw [cleanImports, result_get_bind, hhead] at hclean
    cases hclean
    exact .inl ⟨rfl, hidle⟩
  | some e =>
    obtain ⟨q, hq, rfl⟩ : ∃ q ∈ toolsOf o (bodyOf t), e = (.str q.2, ⟨.str q.2, .str q.1⟩) := by
      rw [hh] at hhead
      exact mem_helpersOf (mem_of_mem_head? hhead)
    obtain ⟨gs, hcont⟩ := hs.contents
    rw [result_cleanImports hcont hhead rfl] at hclean
    cases hdecl : declarer? (rs.map s.workspace.deref) q.2 with
    | none =>
      rw [hdecl] at hclean
      cases hclean
      exact .inl ⟨rfl, hidle⟩
    | some y =>
      rw [hdecl] at hclean
      obtain ⟨hy, hqy⟩ := mem_filter.mp (mem_of_getLast? hdecl)
      obtain ⟨r, hr, rfl⟩ := mem_map.mp hy
      obtain ⟨href, hshows⟩ := hs.stage.models.shows_of_refs hs.stage.list hr
      obtain ⟨k, fs, _, heq, _⟩ := exists_of_isNode (hcont.nodes _ hy)
      rw [heq] at href hshows hqy hclean hy
      cases href
      obtain ⟨rs₁, rs₂, rfl⟩ := append_of_mem hr
      obtain ⟨pre, e, post, hpre, he, hpost, hes⟩ := forall₂_split hs.entries.flip
      have himage := hs.erase_eq ho hcomplete (by rw [hes]; simp) he hshows
      have hs' := hs
      rw [hes] at hs'
      obtain ⟨s'', hrun, herase, _, hends⟩ := Standing.cleanSite
        (s := { s with workspace := (s.workspace.addPath (Contents.place s.workspace body (obj k fs))).2 })
        ho hm (hs'.addPath _) hpre.flip he hpost.flip hcomplete hshows (s.workspace.addPath_path _)
      obtain ⟨_, rfl⟩ := Prod.mk.inj (hrun.symm.trans hclean)
      have hnames := (alike_map (fun _ => ()) (obj k fs)).1.names_eq (hcont.nodes _ hy) (hcont.legal hy)
      refine .inr ⟨pre, e, post, k, fs, rs₁, rs₂, ⟨hes, rfl, hpre.flip, he, hpost.flip, hshows,
        ⟨q, hq, by simpa using hqy⟩, hnames⟩, himage, herase, ?_⟩
      rcases hends with ⟨_, hs'⟩ | ⟨_, rfl⟩ | ⟨_, h', cs, hw', hwr, hf⟩
      · exact .inl hs'
      · exact .inr (.inl ⟨_, rfl⟩)
      · exact .inr (.inr ⟨h', cs, hw', hwr, hf.root⟩)

theorem Concluded.tidied :
    ∃ ys, (expand o t fresh).tree.erase = rewrittenWith o t guard ys ∧
      Tidied (fun n => ∃ q ∈ toolsOf o (bodyOf t), q.2 = n) (imagesOf o t guard (inlinedEntries o t guard)) ys := by
  rw [hc.tree]
  obtain ⟨_, herase⟩ | ⟨pre, e, post, k, fs, rs₁, rs₂, hd, himage, herase, _⟩ := hc.clean_cases
  · exact ⟨_, herase, .same _⟩
  · obtain ⟨q, hq, hqy⟩ := hd.helper
    refine ⟨_, herase, ?_⟩
    rw [hd.entries, imagesOf_append]
    refine .one _ _ _ _ q.2 ⟨q, hq, rfl⟩ ?_ fun z hz => ?_
    · rw [← himage, hd.erase]
      exact hqy
    · rw [← himage]
      exact names_cleanedBlock hz

end Tidying

section Images

/-- If no name is declared twice, what declares a name is one statement. -/
theorem eq_of_names (hd : Distinct t) {y : Tree Mark} (hx : x ∈ bodyOf t) (hy : y ∈ bodyOf t) (hnx : n ∈ names x)
    (hny : n ∈ names y) : x = y := by
  obtain ⟨pre, post, hsplit⟩ := append_of_mem hy
  have hmem : x ∈ (bodyOf t).filter fun b => (names b).contains n := mem_filter.mpr ⟨hx, by simpa using hnx⟩
  rw [filter_of_nodup hd hsplit hny] at hmem
  exact mem_singleton.mp hmem

theorem mem_importedNames : n ∈ importedNames t ↔ ∃ x ∈ bodyOf t, isImport x = true ∧ n ∈ names x := by
  simp only [importedNames, mem_flatMap, mem_filter, and_assoc]

/-- The names that do not come from the statements of a module. -/
def strangersOf (o : Options) (t : Tree Mark) (guard : String) : List String :=
  importedNames t ++ if makesGuard o t then [guard] else []

theorem filter_guardConstants : (guardConstants o t guard).filter (isOwn (strangersOf o t guard)) = [] := by
  rw [guardConstants]
  split
  · next hmake =>
    refine filter_eq_nil_iff.mpr fun y hy => ?_
    rw [mem_singleton.mp hy, isOwn_of_mem (n := guard) (mem_singleton.mpr rfl) (by simp [strangersOf, hmake])]
    decide
  · rfl

/-- An import leaves no statement of the module's own. -/
theorem filter_inlinedBlock_import (ho : Opening t m fields body items) (hx : x ∈ remainingOf o t)
    (hi : isImport x = true) : (inlinedBlock o t guard x).filter (isOwn (strangersOf o t guard)) = [] := by
  refine filter_eq_nil_iff.mpr fun y hy => ?_
  rw [Bool.not_eq_true]
  rw [inlinedBlock] at hy
  split at hy
  · obtain ⟨s, hs, rfl⟩ := mem_map.mp hy
    refine isOwn_of_mem (n := s.2) (mem_singleton.mpr rfl) (mem_append_left _ ?_)
    exact mem_importedNames.mpr ⟨x, (mem_filter.mp hx).1, hi,
      (named_sublist hi).subset (mem_map_of_mem hs)⟩
  · rw [mem_singleton.mp hy, ho.rewrite_import _ hx hi]
    exact isOwn_of_isImport ((alike_map _ x).1.isImport_eq.trans hi)

/-- Any other statement is there as its image. -/
theorem filter_inlinedBlock (ho : Opening t m fields body items) (hm : IsModule t fresh) (hd : Distinct t)
    (hg : IsGuard o t guard) (hx : x ∈ remainingOf o t) (hi : isImport x = false) :
    (inlinedBlock o t guard x).filter (isOwn (strangersOf o t guard)) = [(rewritingOf o t guard).rewrite x] := by
  have halike := ho.alike_rewrite hm hx guard
  have hitem := mem_items_of_remainingOf ho hx
  have hmem := (mem_filter.mp hx).1
  rw [inlinedBlock, flagsFor?, hi]
  refine filter_cons_of_pos (isOwn_iff.mpr ⟨halike.isImport_eq.trans hi, fun n hn hstrange => ?_⟩)
  rw [halike.names_eq (ho.statements x hitem) (ho.legal hitem)] at hn
  rcases mem_append.mp hstrange with himp | hguard
  · obtain ⟨y, hy, hyi, hny⟩ := mem_importedNames.mp himp
    rw [eq_of_names hd hmem hy hn hny, hyi] at hi
    cases hi
  · split at hguard
    · next hmake =>
      rw [mem_singleton.mp hguard] at hn
      exact hg.made hmake x hmem hn
    · cases hguard

theorem flatMap_filter_not {α β : Type} {q : α → Bool} {f : α → List β} {g : α → β} {l : List α}
    (hpos : ∀ x ∈ l, q x = true → f x = []) (hneg : ∀ x ∈ l, q x = false → f x = [g x]) :
    l.flatMap f = (l.filter fun x => !q x).map g := by
  induction l with
  | nil => rfl
  | cons x l ih =>
    have ih := ih (fun y hy => hpos y (mem_cons_of_mem _ hy)) (fun y hy => hneg y (mem_cons_of_mem _ hy))
    cases hx : q x with
    | true => rw [flatMap_cons, hpos x (mem_cons_self ..) hx, ih]; simp [hx]
    | false => rw [flatMap_cons, hneg x (mem_cons_self ..) hx, ih]; simp [hx]

/-- Of what stands in the body once imports are inlined, the statements of the module's own
are the images of those it had. -/
theorem filter_imagesOf (ho : Opening t m fields body items) (hm : IsModule t fresh) (hd : Distinct t)
    (hg : IsGuard o t guard) :
    (imagesOf o t guard (inlinedEntries o t guard)).filter (isOwn (strangersOf o t guard)) =
      reshapeItems (rewritingOf o t guard).drops (rewritingOf o t guard).finish
        ((bodyOf t).filter fun x => !isImport x) := by
  rw [imagesOf_inlinedEntries, filter_append, filter_guardConstants, nil_append, filter_flatMap,
    flatMap_filter_not (q := isImport) (fun x hx hi => filter_inlinedBlock_import ho hx hi)
      (fun x hx hi => filter_inlinedBlock ho hm hd hg hx hi),
    reshapeItems_eq, remainingOf, filter_filter, filter_filter]
  refine congrArg (List.map _) (filter_congr fun x _ => ?_)
  exact Bool.and_comm _ _

end Images

/-- What an expansion leaves of the statements of a module is their image under one
recursion, in order. -/
theorem expand_refines_rewrite (hm : IsModule t fresh) (hd : Distinct t) {summary : Summary}
    (hok : (expand o t fresh).result = .ok summary) :
    ∃ g, (∀ g', summary.guard = some g' → g' = g) ∧
      (bodyOf (expand o t fresh).tree.erase).filter
          (isOwn (importedNames t ++ if summary.synthesized then [g] else [])) =
        reshapeItems (rewritingOf o t g).drops (rewritingOf o t g).finish ((bodyOf t).filter fun x => !isImport x) := by
  obtain ⟨m, fields, body, items, ho⟩ := hm.opens
  obtain ⟨ps, g, p, h, rs, s, s', fate, hc, rfl⟩ := exists_concluded ho hm hok
  obtain ⟨ys, herase, htidied⟩ := hc.tidied
  refine ⟨g, fun g' hg' => guard_of_resolved (sitesOf o t).length (expiredCount o t) hg', ?_⟩
  rw [herase, bodyOf_rewrittenWith ho]
  refine (htidied.filter_eq fun n hn => ?_).trans (filter_imagesOf ho hm hd hc.isGuard)
  obtain ⟨q, hq, rfl⟩ := hn
  obtain ⟨x, hx, hi, _, hnamed⟩ := mem_toolsOf hq
  exact mem_append_left _
    (mem_importedNames.mpr ⟨x, hx, hi, (named_sublist hi).subset (mem_map_of_mem hnamed)⟩)

/-- What a deprecation says about itself. -/
def deprecating (range : String) : Json :=
  make "ObjectExpression" [("properties", listOf [property (.str "id") (literal (.str "x")),
    property (.str "until") (literal (.str range))])]

/-- A warning inside the predicate of a deprecation, and an expired deprecation under a
condition. -/
def nestedModule : Tree Mark × Mark :=
  marked (moduleOf [importing [("warn", "w"), ("deprecate", "d")] "@ember/debug-tools",
    calling "d" [literal (.str "m"), make "ArrowFunctionExpression" [("params", listOf []),
      ("body", make "BlockStatement" [("body", listOf [calling "w" [identifier (.str "x")]])])], deprecating ">=9.0.0"],
    make "IfStatement" [("test", identifier (.str "x")),
      ("consequent", calling "d" [literal (.str "m"), literal (.bool true), deprecating ">=1.0.0"])]])

/-- Options of a package that has a version. -/
def versioned : Options := { Options.usual with packageVersion := some "2.0.0" }

theorem expand_refines_rewrite_nested :
    (expand versioned nestedModule.1 nestedModule.2).result =
      .ok { guard := some "_DEBUG", synthesized := true, expanded := 2, removed := 1, helpersImport := some .removed } ∧
    ∃ g, (∀ g', some "_DEBUG" = some g' → g' = g) ∧
      (bodyOf (expand versioned nestedModule.1 nestedModule.2).tree.erase).filter
          (isOwn (importedNames nestedModule.1 ++ [g])) =
        reshapeItems (rewritingOf versioned nestedModule.1 g).drops (rewritingOf versioned nestedModule.1 g).finish
          ((bodyOf nestedModule.1).filter fun x => !isImport x) := by
  have hok : (expand versioned nestedModule.1 nestedModule.2).result =
      .ok
        { guard := some "_DEBUG", synthesized := true, expanded := 2, removed := 1,
          helpersImport := some .removed } := by
    decide +kernel
  exact ⟨hok, expand_refines_rewrite (by decide +kernel) (by decide +kernel) hok⟩

end DebugGuards.Expansion
