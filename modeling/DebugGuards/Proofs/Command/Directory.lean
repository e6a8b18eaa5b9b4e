import DebugGuards.Command.Expand
import DebugGuards.Proofs.Command.Markup
import DebugGuards.Proofs.Files.Store

/-! Expanding a directory. Reading a module, expanding it and writing the result touches
nothing but the module's destination, so the modules can be expanded one after the other as if
each were alone. A failure that is not the fault of a module ends the run, and so does a record
of an expansion that is no markup; what the command itself reports is escaped. -/

namespace DebugGuards.Command
open Files Expansion List

section Jobs

variable {α β : Type} {m : Job α} {k : α → Job β} {d d' : Desk} {r : Route}

theorem run_bind_ok {a : α} (h : m.run.run d = (.ok a, d')) : (m >>= k).run.run d = (k a).run.run d' := by
  rw [ExceptT.run_bind, StateT.run_bind, h]
  rfl

theorem run_bind_error {f : Failure} (h : m.run.run d = (.error f, d')) : (m >>= k).run.run d = (.error f, d') := by
  rw [ExceptT.run_bind, StateT.run_bind, h]
  rfl

theorem run_get (d : Desk) : (get : Job Desk).run.run d = (.ok d, d) := rfl

/-- A record does not pass, or it can be shown. -/
def IsShown (threshold : Level) (r : Record) : Prop :=
  threshold.passes r.level = true → isMarkup r.text = true

@[simp]
theorem threshold_put (c : Console) (r : Record) : (c.put r).threshold = c.threshold := by
  rw [Console.put]
  split_ifs <;> rfl

@[simp]
theorem threshold_putAll (c : Console) (rs : List Record) : (c.putAll rs).threshold = c.threshold := by
  induction rs generalizing c with
  | nil => rfl
  | cons r rest ih => exact (ih (c.put r)).trans (threshold_put c r)

theorem run_put {x : Record} (h : IsShown d.console.threshold x) :
    (Job.put x).run.run d = (.ok (), { d with console := d.console.put x }) := by
  have hshown : ¬ (d.console.threshold.passes x.level && !isMarkup x.text) = true := by
    simpa [IsShown] using h
  rw [Job.put, run_bind_ok (run_get d), if_neg hshown]
  rfl

theorem run_putAll {rs : List Record} (h : ∀ x ∈ rs, IsShown d.console.threshold x) :
    (rs.forM Job.put).run.run d = (.ok (), { d with console := d.console.putAll rs }) := by
  induction rs generalizing d with
  | nil => rfl
  | cons x rest ih =>
    obtain ⟨hx, hrest⟩ := forall_mem_cons.mp h
    rw [List.forM, run_bind_ok (run_put hx)]
    exact ih (by simpa using hrest)

theorem run_read {text : String} (h : d.store.read r = .ok text) : (Job.read r).run.run d = (.ok text, d) := by
  rw [Job.read, run_bind_ok (run_get d), h]
  rfl

theorem run_write {text : String} {s : Store} (h : d.store.write r text = .ok s) :
    (Job.write r text).run.run d = (.ok (), { d with store := s }) := by
  rw [Job.write, run_bind_ok (run_get d), h]
  rfl

end Jobs

section Module

variable {o : Options} {emitSource : Bool} {source target : Route} {text : String} {d : Desk}

/-- What a module's text becomes, if it can be expanded. -/
def outcome (o : Options) (emitSource : Bool) (text : String) : Option (Summary × String) :=
  (expandText o emitSource text).1.toOption

/-- The name of a file leaves no bracket open. -/
def IsTidy (r : Route) : Prop := isClosed r.name.toList = true

instance (r : Route) : Decidable (IsTidy r) := inferInstanceAs (Decidable (_ = true))

theorem isShown_faultRecord (h : IsTidy source) (threshold : Level) (f : Failure) :
    IsShown threshold (faultRecord source f) :=
  fun _ => isMarkup_pair "❌ " ": " f.report (by decide) (by decide) (by decide) (by decide) h

theorem isShown_successRecord (h : IsTidy source) (threshold : Level) (target : Route) :
    IsShown threshold (successRecord source target) := by
  have hm := isMarkup_pair ("✅ " ++ "Expanded ") " -> " target.text (by decide) (by decide)
    (by decide) (by decide) h
  simp only [IsShown, successRecord, Record.success, String.append_assoc] at hm ⊢
  exact fun _ => hm

/-- The record that a module's expansion ends with. -/
def lastRecord (o : Options) (emitSource : Bool) (source target : Route) (text : String) : Record :=
  match (expandText o emitSource text).1 with
  | .error f => faultRecord source f
  | .ok _ => successRecord source target

/-- The console after a module was expanded alone. -/
def announce (o : Options) (emitSource : Bool) (source target : Route) (text : String) (c : Console) : Console :=
  (c.putAll (expandText o emitSource text).2).put (lastRecord o emitSource source target text)

section Steps

variable (hr : d.store.read source = .ok text)
  (hl : ∀ x ∈ (expandText o emitSource text).2, IsShown d.console.threshold x)
include hr hl

theorem expandFile_ok {summary : Summary} {output : String} {s : Store} (hname : IsTidy source)
    (hx : (expandText o emitSource text).1 = .ok (summary, output)) (hw : d.store.write target output = .ok s) :
    (expandFile o emitSource source (some target)).run.run d =
      (.ok (some summary), { d with
        store := s, console := announce o emitSource source target text d.console }) := by
  rw [expandFile, run_bind_ok (run_read hr), announce, lastRecord]
  generalize expandText o emitSource text = x at hx hl ⊢
  change (x.2.forM Job.put >>= _).run.run d = _
  rw [run_bind_ok (run_putAll hl), hx]
  change (Job.write target output >>= _).run.run _ = _
  rw [run_bind_ok (run_write (d := ⟨d.store, d.console.putAll x.2, d.output⟩) hw),
    run_bind_ok (run_put (isShown_successRecord hname _ target))]
  rfl

theorem expandFile_blamed {f : Failure} (hname : IsTidy source)
    (hx : (expandText o emitSource text).1 = .error f) (hf : f.blamesModule = true) :
    (expandFile o emitSource source (some target)).run.run d =
      (.ok none, { d with console := announce o emitSource source target text d.console }) := by
  rw [expandFile, run_bind_ok (run_read hr), announce, lastRecord]
  generalize expandText o emitSource text = x at hx hl ⊢
  change (x.2.forM Job.put >>= _).run.run d = _
  rw [run_bind_ok (run_putAll hl), hx]
  simp only [hf, if_true]
  rw [run_bind_ok (run_put (isShown_faultRecord hname _ f))]
  rfl

/-- Any other failure leaves the files as they are and is passed on. -/
theorem expandFile_thrown {f : Failure} (hx : (expandText o emitSource text).1 = .error f)
    (hf : f.blamesModule = false) (target : Option Route) :
    (expandFile o emitSource source target).run.run d =
      (.error f, { d with console := d.console.putAll (expandText o emitSource text).2 }) := by
  rw [expandFile, run_bind_ok (run_read hr)]
  generalize expandText o emitSource text = x at hx hl ⊢
  change (x.2.forM Job.put >>= _).run.run d = _
  rw [run_bind_ok (run_putAll hl), hx]
  simp only [hf, Bool.false_eq_true, if_false]
  rfl

end Steps

/-- The files after a module was expanded: its text is at its destination, if there is one. -/
def deposit (s : Store) (t : Place) (x : Option (Summary × String)) : Store :=
  (x.map fun e => s.put t e.2).getD s

theorem get?_deposit (s : Store) (t u : Place) (x : Option (Summary × String)) :
    Table.get? (deposit s t x).files u =
      if t = u then (x.map Prod.snd).or (Table.get? s.files u) else Table.get? s.files u := by
  cases x with
  | none => simp [deposit]
  | some e => by_cases h : t = u <;> simp [deposit, Store.get?_put, h]

/-- A module does not end the run: if it fails it does so by its own fault, and the records of its
expansion can be shown. -/
structure Contained (o : Options) (emitSource : Bool) (threshold : Level) (text : String) : Prop where
  blamed : ∀ f, (expandText o emitSource text).1 = .error f → f.blamesModule = true
  shown : ∀ x ∈ (expandText o emitSource text).2, IsShown threshold x

/-- A module that does not end the run changes nothing but its destination. -/
theorem expandFile_run {t : Place} (hr : d.store.read source = .ok text) (hname : IsTidy source)
    (ht : target.resolve = some t) (hfree : d.store.Free t)
    (hc : Contained o emitSource d.console.threshold text) :
    (expandFile o emitSource source (some target)).run.run d =
      (.ok ((outcome o emitSource text).map Prod.fst), { d with
        store := deposit d.store t (outcome o emitSource text)
        console := announce o emitSource source target text d.console }) := by
  cases hx : (expandText o emitSource text).1 with
  | error f =>
    rw [expandFile_blamed hr hc.shown hname hx (hc.blamed f hx), outcome, hx]
    rfl
  | ok e =>
    rw [expandFile_ok hr hc.shown hname hx (Store.write_eq ht hfree e.2), outcome, hx]
    rfl

end Module

section Directory

/-- The place of a module's result below the output directory. -/
def destination (base : Place) (emitSource : Bool) (p : Place) : Place :=
  base ++ (p.dropLast ++ [stem (p.getLastD "") ++ suffixOf emitSource])

variable {o : Options} {emitSource : Bool} {input out : Route} {place base p : Place} {texts : Place → String}
  {ms : List Place} {s : Store} {d : Desk}

theorem resolve_targetOf (hb : out.resolve = some base) (hp : p ≠ []) (hn : ".." ∉ p) :
    (targetOf out emitSource p).resolve = some (destination base emitSource p) := by
  have hroute : targetOf out emitSource p =
      { out with names := out.names ++ (p.dropLast ++ [stem (p.getLastD "") ++ suffixOf emitSource]) } := by
    simp [targetOf, Route.withSuffix, Route.enter, Route.name, dropLast_append_of_ne_nil hp,
      getLastD_eq_getLast?, getLast?_append_of_ne_nil _ hp]
  rw [hroute]
  refine Store.resolve_append hb fun hmem => ?_
  rcases mem_append.mp hmem with h | h
  · exact hn ((dropLast_sublist p).subset h)
  · have hlen := congrArg String.length (mem_singleton.mp h)
    have hsuffix : 3 ≤ (suffixOf emitSource).length := by cases emitSource <;> decide
    have hup : "..".length = 2 := by decide
    rw [String.length_append] at hlen
    omega

/-- The files are laid out for the modules to be expanded: each can be read and written, and no
destination is in the way of another or of a module. -/
structure Ready (s : Store) (input out : Route) (emitSource : Bool) (place base : Place)
    (texts : Place → String) (ms : List Place) : Prop where
  located : ∀ p ∈ ms, s.locate (input.enter p) = .ok (place ++ p)
  tidy : ∀ p ∈ ms, IsTidy (input.enter p)
  held : ∀ p ∈ ms, Table.get? s.files (place ++ p) = some (texts p)
  target : ∀ p ∈ ms, (targetOf out emitSource p).resolve = some (destination base emitSource p)
  free : ∀ p ∈ ms, s.Free (destination base emitSource p)
  apart : ms.Pairwise fun p q => ¬ destination base emitSource p <+: destination base emitSource q ∧
    ¬ destination base emitSource q <+: destination base emitSource p
  clear : ∀ p ∈ ms, ∀ q ∈ ms, destination base emitSource p ≠ place ++ q

theorem Ready.read (h : Ready s input out emitSource place base texts ms) (hp : p ∈ ms) :
    s.read (input.enter p) = .ok (texts p) := Store.read_of_locate (h.located p hp) (h.held p hp)

/-- The first result leaves the files laid out for the rest. -/
theorem Ready.next (h : Ready s input out emitSource place base texts (p :: ms))
    (x : Option (Summary × String)) :
    Ready (deposit s (destination base emitSource p) x) input out emitSource place base texts ms := by
  have hrest (q : Place) (hq : q ∈ ms) : q ∈ p :: ms := mem_cons_of_mem p hq
  have hapart := pairwise_cons.mp h.apart
  cases x with
  | none =>
    exact ⟨fun q hq => h.located q (hrest q hq), fun q hq => h.tidy q (hrest q hq),
      fun q hq => h.held q (hrest q hq), fun q hq => h.target q (hrest q hq),
      fun q hq => h.free q (hrest q hq), hapart.2, fun q hq r hr => h.clear q (hrest q hq) r (hrest r hr)⟩
  | some e =>
    refine ⟨fun q hq => ?_, fun q hq => h.tidy q (hrest q hq), fun q hq => ?_,
      fun q hq => h.target q (hrest q hq), fun q hq => ?_, hapart.2,
      fun q hq r hr => h.clear q (hrest q hq) r (hrest r hr)⟩
    · exact Store.locate_put (h.free p mem_cons_self).folder (h.located q (hrest q hq)) e.2
    · change Table.get? (s.put _ e.2).files _ = _
      rw [Store.get?_put, if_neg (h.clear p mem_cons_self q (hrest q hq))]
      exact h.held q (hrest q hq)
    · exact (h.free q (hrest q hq)).put (hapart.1 q hq).2 (hapart.1 q hq).1

/-- The desk after a module was expanded. -/
def expanded (o : Options) (emitSource : Bool) (input out : Route) (base : Place) (texts : Place → String) (d : Desk)
    (p : Place) : Desk :=
  { d with
    store := deposit d.store (destination base emitSource p) (outcome o emitSource (texts p))
    console := announce o emitSource (input.enter p) (targetOf out emitSource p) (texts p) d.console }

@[simp]
theorem threshold_expanded : (expanded o emitSource input out base texts d p).console.threshold =
    d.console.threshold := by
  simp [expanded, announce]

/-- The modules are expanded one by one, each as if it were alone. -/
theorem expandModules_run (h : Ready d.store input out emitSource place base texts ms)
    (hc : ∀ p ∈ ms, Contained o emitSource d.console.threshold (texts p)) :
    (expandModules o emitSource input out ms).run.run d =
      (.ok (ms.map fun p => ({ names := p : Route }.text, (outcome o emitSource (texts p)).map Prod.fst)),
        ms.foldl (expanded o emitSource input out base texts) d) := by
  induction ms generalizing d with
  | nil => rfl
  | cons p rest ih =>
    have hp : p ∈ p :: rest := mem_cons_self
    have hstep := expandFile_run (h.read hp) (h.tidy p hp) (h.target p hp) (h.free p hp) (hc p hp)
    have hnext := ih (d := expanded o emitSource input out base texts d p) (h.next _) fun q hq =>
      (threshold_expanded (d := d)).symm ▸ hc q (mem_cons_of_mem p hq)
    rw [expandModules] at hnext ⊢
    rw [mapM_cons, bind_assoc, run_bind_ok hstep, pure_bind]
    exact run_bind_ok hnext

/-- A module that fails by no fault of its own keeps those after it from being expanded. -/
theorem expandModules_thrown {text : String} {f : Failure} (hr : d.store.read (input.enter p) = .ok text)
    (hl : ∀ x ∈ (expandText o emitSource text).2, IsShown d.console.threshold x)
    (hx : (expandText o emitSource text).1 = .error f) (hf : f.blamesModule = false) (rest : List Place) :
    (expandModules o emitSource input out (p :: rest)).run.run d =
      (.error f, { d with console := d.console.putAll (expandText o emitSource text).2 }) := by
  rw [expandModules, mapM_cons]
  exact run_bind_error (run_bind_error (expandFile_thrown hr hl hx hf _))

section Left

variable {t : Place}

theorem get?_foldl_of_ne (h : ∀ p ∈ ms, destination base emitSource p ≠ t) :
    Table.get? (ms.foldl (expanded o emitSource input out base texts) d).store.files t =
      Table.get? d.store.files t := by
  induction ms generalizing d with
  | nil => rfl
  | cons p rest ih =>
    rw [foldl_cons, ih fun q hq => h q (mem_cons_of_mem p hq), expanded, get?_deposit,
      if_neg (h p mem_cons_self)]

theorem get?_foldl
    (hd : ms.Pairwise fun p q => destination base emitSource p ≠ destination base emitSource q) (hp : p ∈ ms) :
    Table.get? (ms.foldl (expanded o emitSource input out base texts) d).store.files (destination base emitSource p) =
      ((outcome o emitSource (texts p)).map Prod.snd).or
        (Table.get? d.store.files (destination base emitSource p)) := by
  induction ms generalizing d with
  | nil => cases hp
  | cons q rest ih =>
    rw [pairwise_cons] at hd
    rw [foldl_cons]
    rcases mem_cons.mp hp with rfl | hp
    · rw [get?_foldl_of_ne fun q hq => Ne.symm (hd.1 q hq), expanded, get?_deposit, if_pos rfl]
    · rw [ih hd.2 hp, expanded, get?_deposit, if_neg (hd.1 p hp)]

end Left

section Reports

theorem mem_log_put {c : Console} {r x : Record} (h : r ∈ c.log) : r ∈ (c.put x).log := by
  rw [Console.put]
  split_ifs
  · exact mem_append_left _ h
  · exact h

theorem mem_log_putAll {c : Console} {r : Record} (h : r ∈ c.log) (rs : List Record) : r ∈ (c.putAll rs).log := by
  rw [Console.putAll_log]
  exact mem_append_left _ h

theorem mem_log_announce {source target : Route} {text : String} {c : Console} {r : Record} (h : r ∈ c.log) :
    r ∈ (announce o emitSource source target text c).log := mem_log_put (mem_log_putAll h _)

/-- Errors always pass the threshold. -/
theorem faultRecord_mem_announce {source target : Route} {text : String} {c : Console} {f : Failure}
    (h : (expandText o emitSource text).1 = .error f) :
    faultRecord source f ∈ (announce o emitSource source target text c).log := by
  rw [announce, lastRecord, h]
  have hpass (l : Level) : l.passes (faultRecord source f).level = true := by cases l <;> rfl
  rw [Console.put, if_pos (hpass _)]
  simp

theorem faultRecord_mem_foldl {f : Failure} (hp : p ∈ ms) (h : (expandText o emitSource (texts p)).1 = .error f)
    (d : Desk) :
    faultRecord (input.enter p) f ∈ (ms.foldl (expanded o emitSource input out base texts) d).console.log := by
  have hkeep (r : Record) (ms : List Place) (d : Desk) (hr : r ∈ d.console.log) :
      r ∈ (ms.foldl (expanded o emitSource input out base texts) d).console.log := by
    induction ms generalizing d with
    | nil => exact hr
    | cons q rest ih => exact ih _ (mem_log_announce hr)
  induction ms generalizing d with
  | nil => cases hp
  | cons q rest ih =>
    rcases mem_cons.mp hp with rfl | hp
    · exact hkeep _ rest _ (faultRecord_mem_announce h)
    · exact ih hp _

end Reports

end Directory

section Batch

/-- What a module of a directory holds. -/
def textAt (s : Store) (place p : Place) : String := (Table.get? s.files (place ++ p)).getD ""

/-- A directory is to be expanded into another one, disjoint from it, where nothing is in the way
of the results. -/
structure Batch (s : Store) (q : Request) (out : Route) (place base : Place) : Prop where
  sound : s.Sound
  found : s.find? q.input = some place
  folder : s.isFile place = false
  tidy : ∀ p ∈ s.below place ".json", IsTidy (q.input.enter p)
  target : q.out = some out
  resolved : out.resolve = some base
  files : ∀ p ∈ s.below place ".json", s.isFile (place ++ p) = true
  disjoint : ¬ place <+: base ∧ ¬ base <+: place
  free : ∀ p ∈ s.below place ".json", s.Free (destination base q.emitSource p)
  apart : (s.below place ".json").Pairwise fun p r =>
    ¬ destination base q.emitSource p <+: destination base q.emitSource r ∧
      ¬ destination base q.emitSource r <+: destination base q.emitSource p

/-- The request for one module of a directory alone. -/
def Request.alone (q : Request) (out : Route) (p : Place) : Request :=
  { q with input := q.input.enter p, out := some (targetOf out q.emitSource p) }

/-- The desk with the console as a request asks for it. -/
def Desk.start (d : Desk) (q : Request) : Desk := { d with console := d.console.setVerbosity q.verbose }

theorem Desk.store_start (d : Desk) (q : Request) : (d.start q).store = d.store := rfl

/-- What is left of a directory's expansion is what its modules leave, each on its own. -/
structure Product (q : Request) (o : Options) (out : Route) (place base : Place) (d d' : Desk) (v : Verdict) :
    Prop where
  /-- Every module has its row. -/
  table : v.table = summaryTable ((d.store.below place ".json").map fun p =>
    ({ names := p : Route }.text, (outcome o q.emitSource (textAt d.store place p)).map Prod.fst))
  code : v.code = 0 ↔
    ∀ p ∈ d.store.below place ".json", (outcome o q.emitSource (textAt d.store place p)).isSome = true
  /-- The destination holds the text a module becomes, and what it held if there is none. -/
  written : ∀ p ∈ d.store.below place ".json", Table.get? d'.store.files (destination base q.emitSource p) =
    ((outcome o q.emitSource (textAt d.store place p)).map Prod.snd).or
      (Table.get? d.store.files (destination base q.emitSource p))
  untouched : ∀ t, (∀ p ∈ d.store.below place ".json", destination base q.emitSource p ≠ t) →
    Table.get? d'.store.files t = Table.get? d.store.files t
  reported : ∀ p ∈ d.store.below place ".json", ∀ f,
    (expandText o q.emitSource (textAt d.store place p)).1 = .error f →
      faultRecord (q.input.enter p) f ∈ d'.console.log
  /-- Expanding a module alone comes to the same at its destination. -/
  alone : ∀ p ∈ d.store.below place ".json", ∃ v₁ d₁,
    (expandInput (q.alone out p) o (place ++ p) true).run.run (d.start q) = (.ok v₁, d₁) ∧
      (v₁.code = 0 ↔ (outcome o q.emitSource (textAt d.store place p)).isSome = true) ∧
      Table.get? d₁.store.files (destination base q.emitSource p) =
        Table.get? d'.store.files (destination base q.emitSource p)

variable {d : Desk} {q : Request} {o : Options} {out : Route} {place base : Place}

theorem locate_of_find? {s : Store} {r : Route} (h : s.find? r = some place) : s.locate r = .ok place := by
  unfold Store.find? at h
  split at h
  · next p hp =>
    split_ifs at h
    rw [hp, Option.some.inj h]
  · cases h

theorem Batch.ready (h : Batch d.store q out place base) :
    Ready d.store q.input out q.emitSource place base (textAt d.store place) (d.store.below place ".json") where
  located p hp := Store.locate_enter h.sound (locate_of_find? h.found) (h.files p hp)
  tidy := h.tidy
  held p hp := by
    obtain ⟨text, ht⟩ := Option.isSome_iff_exists.mp (h.files p hp)
    rw [textAt, ht]
    rfl
  target p hp := by
    refine resolve_targetOf h.resolved (Store.append_of_mem_below hp).2 fun hn => ?_
    exact h.sound.plain _ (mem_append_left _ (Store.isFile_iff.mp (h.files p hp)))
      (mem_append_right _ hn)
  free := h.free
  apart := h.apart
  clear p _ r _ heq := by
    have hb : base <+: place ++ r := heq ▸ prefix_append _ _
    exact (List.prefix_or_prefix_of_prefix hb (prefix_append place r)).elim h.disjoint.2 h.disjoint.1

/-- No module of a directory ends the run. -/
def AllContained (o : Options) (q : Request) (s : Store) (place : Place) : Prop :=
  ∀ p ∈ s.below place ".json",
    Contained o q.emitSource (Console.thresholdOf q.verbose) (textAt s place p)

theorem isShown_count (threshold : Level) (n : Nat) (path : String) :
    IsShown threshold (.info (s!"Processing {n} modules from " ++ escape path ++ "...")) := by
  have hdigits : IsBare (toString n).toList := by
    intro c hc
    rw [Nat.toString_eq_ofList_toDigits, String.toList_ofList] at hc
    have hd : c.isDigit = true := Nat.isDigit_of_mem_toDigits (by decide) (by decide) hc
    have hne (b : Char) (hb : b.isDigit = false) : c ≠ b := by rintro rfl; exact absurd hd (by simp [hb])
    exact ⟨by simp [isBracket, hne], hne _ rfl⟩
  have hlead : IsBare ("ℹ️  " ++ s!"Processing {n} modules from ").toList := by
    simp only [String.toList_append]
    exact .append (by decide) (.append (.append (by decide) hdigits) (by decide))
  have hm := isMarkup_single _ "..." path (by simp) hlead (by decide)
  rw [IsShown, Record.info, String.append_assoc, ← String.append_assoc]
  exact fun _ => hm

theorem isShown_none (threshold : Level) (path : String) :
    IsShown threshold (.warning ("No .json files found in " ++ escape path)) := by
  have hm := isMarkup_single ("⚠️  " ++ "No .json files found in ") "" path (by decide) (by decide)
    (by decide)
  rw [String.append_empty] at hm
  rw [IsShown, Record.warning, ← String.append_assoc]
  exact fun _ => hm

/-- Expanding a directory that holds modules is expanding these. -/
theorem expandInput_modules (ht : q.out = some out) (hne : d.store.below place ".json" ≠ []) :
    ∃ c : Console, c.threshold = d.console.threshold ∧ (expandInput q o place false).run.run d =
      (expandModules o q.emitSource q.input out (d.store.below place ".json") >>= fun results =>
        pure (verdictOf results)).run.run { d with console := c } := by
  have hempty : ¬ (d.store.below place ".json").isEmpty = true := by rwa [List.isEmpty_iff]
  rw [expandInput, ht]
  simp only [Bool.false_eq_true, if_false]
  rw [run_bind_ok (run_get d), if_neg hempty, run_bind_ok (run_put (isShown_count _ _ _))]
  exact ⟨_, threshold_put _ _, rfl⟩

theorem expandInput_run (h : Batch d.store q out place base) (hc : AllContained o q d.store place) :
    ∃ c, (expandInput q o place false).run.run (d.start q) =
      (.ok (verdictOf ((d.store.below place ".json").map fun p =>
        ({ names := p : Route }.text, (outcome o q.emitSource (textAt d.store place p)).map Prod.fst))),
        (d.store.below place ".json").foldl (expanded o q.emitSource q.input out base (textAt d.store place))
          { d with console := c }) := by
  by_cases hempty : d.store.below place ".json" = []
  · rw [expandInput, h.target]
    simp only [Bool.false_eq_true, if_false]
    rw [run_bind_ok (run_get _), Desk.store_start, if_pos (List.isEmpty_iff.mpr hempty),
      run_bind_ok (run_put (isShown_none _ _)), hempty]
    exact ⟨_, rfl⟩
  · obtain ⟨c, hlevel, hrun⟩ := expandInput_modules (d := d.start q) (o := o) h.target hempty
    refine ⟨c, hrun.trans (run_bind_ok (expandModules_run (d := ⟨d.store, c, d.output⟩) h.ready ?_))⟩
    exact hlevel ▸ hc

theorem expandInput_alone {p : Place} (h : Batch d.store q out place base) (hc : AllContained o q d.store place)
    (hp : p ∈ d.store.below place ".json") :
    (expandInput (q.alone out p) o (place ++ p) true).run.run (d.start q) =
      (.ok (verdictOf [((q.input.enter p).name, (outcome o q.emitSource (textAt d.store place p)).map Prod.fst)]),
        expanded o q.emitSource q.input out base (textAt d.store place) (d.start q) p) := by
  have hstep := expandFile_run (d := d.start q) (h.ready.read hp) (h.tidy p hp) (h.ready.target p hp)
    (h.free p hp) (hc p hp)
  rw [expandInput]
  simp only [if_true]
  exact run_bind_ok hstep

theorem code_verdictOf {results : List (String × Option Summary)} :
    (verdictOf results).code = 0 ↔ ∀ r ∈ results, r.2.isSome = true := by
  rw [verdictOf]
  by_cases h : results.all (·.2.isSome) = true
  · rw [if_pos h]
    simpa using h
  · rw [if_neg h]
    simpa using h

theorem Batch.distinct (h : Batch d.store q out place base) :
    (d.store.below place ".json").Pairwise fun p r =>
      destination base q.emitSource p ≠ destination base q.emitSource r := by
  refine h.apart.imp fun hpr heq => hpr.1 ?_
  exact heq ▸ prefix_refl _

theorem runExpand_eq (h : Batch d.store q out place base)
    (ho : Options.load d.store q.input q.config q.overrides = .ok o) :
    (runExpand q).run.run d = (expandInput q o place false).run.run (d.start q) := by
  have hstart : (Job.setVerbosity q.verbose).run.run d = (.ok (), d.start q) := rfl
  rw [runExpand, run_bind_ok hstart, run_bind_ok (run_get _), Desk.store_start]
  simp only [h.found, h.folder, Bool.false_eq_true, if_false, ho]

end Batch

section Samples

/-- A directory in which one module has no statements, one is no document and one is no program, and a
file that is there already. -/
def mixedFiles : Store where
  files := [
    (["in", "a.json"], "\x7b\"type\": \"Program\", \"body\": []\x7d"),
    (["in", "b.json"], "\x7b"),
    (["in", "sub", "c.json"], "[]"),
    (["out", "b.json"], "old")]

/-- A directory with a program that lacks its statements before one that has them. -/
def unshapedFiles : Store where
  files := [
    (["in", "a.json"], "\x7b\"type\": \"Program\"\x7d"),
    (["in", "b.json"], "\x7b\"type\": \"Program\", \"body\": []\x7d")]

def sampleRequest : Request := { input := ⟨"", ["in"]⟩, out := some ⟨"", ["out"]⟩ }

theorem below_mixedFiles : mixedFiles.below ["in"] ".json" = [["a.json"], ["b.json"], ["sub", "c.json"]] := by
  have hfound : mixedFiles.places.filter
      (fun p => ["in"].isPrefixOf p && p ≠ ["in"] && (p.getLastD "").endsWith ".json") =
      [["in", "a.json"], ["in", "b.json"], ["in", "sub", "c.json"]] := by decide +kernel
  rw [Store.below, hfound]
  exact mergeSort_of_pairwise (by decide)

theorem below_unshapedFiles : unshapedFiles.below ["in"] ".json" = [["a.json"], ["b.json"]] := by
  have hfound : unshapedFiles.places.filter
      (fun p => ["in"].isPrefixOf p && p ≠ ["in"] && (p.getLastD "").endsWith ".json") =
      [["in", "a.json"], ["in", "b.json"]] := by decide +kernel
  rw [Store.below, hfound]
  exact mergeSort_of_pairwise (by decide)

theorem batch_mixedFiles : Batch mixedFiles sampleRequest ⟨"", ["out"]⟩ ["in"] ["out"] := by
  refine ⟨by decide +kernel, by decide +kernel, by decide +kernel, ?_, rfl, by decide, ?_, by decide, ?_, ?_⟩ <;>
    rw [below_mixedFiles] <;> decide +kernel

theorem batch_unshapedFiles : Batch unshapedFiles sampleRequest ⟨"", ["out"]⟩ ["in"] ["out"] := by
  refine ⟨by decide +kernel, by decide +kernel, by decide +kernel, ?_, rfl, by decide, ?_, by decide, ?_, ?_⟩ <;>
    rw [below_unshapedFiles] <;> decide +kernel

end Samples

end DebugGuards.Command
