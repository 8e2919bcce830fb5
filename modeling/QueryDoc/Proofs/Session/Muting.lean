import QueryDoc.Proofs.Session.Warnings

/-!
# Muting

To switch the warnings on or off changes nothing but the warnings. A run with such calls and the run
without them go through the same states but for the flag: the state of the second is that of the
first with the warnings on (`Engine.loud_run`), and what a call does there is what it does with the
flag as it is, but for the warnings that are held back (`Session.parse_eq_muted`).
-/
namespace QueryDoc

/-! ## One call -/

/-- The reply with the warnings on or off, when it is given with the warnings on. -/
def Reply.muted (on : Bool) (r : Reply) : Reply :=
  { r with session := r.session.setWarnings on, warnings := if on then r.warnings else [] }

theorem Session.parse_eq_muted (s : Session) (next : Nat) (source : Source) :
    s.parse next source =
      ((s.setWarnings true).parse next source).map (.muted s.settings.fragmentWarnings) := by
  have hcache : (s.setWarnings true).cache = s.cache := rfl
  have hread : (s.setWarnings true).parsePrimary source = s.parsePrimary source := rfl
  cases hget : s.cache.get? (key source.assembled) with
  | some d =>
    rw [parse_of_some hget, parse_of_some (hcache ▸ hget)]
    simp [Except.map, Reply.muted, setWarnings]
  | none =>
    rw [parse_of_none hget, parse_of_none (hcache ▸ hget), hread]
    cases s.parsePrimary source with
    | error f => rfl
    | ok own => simp [Except.map, stored, Reply.muted, setWarnings]

theorem Session.parseFile_eq_muted (s : Session) (next : Nat) (v : Files.Volume) (path : String) :
    s.parseFile next v path =
      ((s.setWarnings true).parseFile next v path).map (.muted s.settings.fragmentWarnings) := by
  unfold parseFile
  cases Files.read v path with
  | error x => rfl
  | ok text =>
    change (s.parse next (.ofText text)).mapError Failure.parse =
      (((s.setWarnings true).parse next (.ofText text)).mapError Failure.parse).map _
    rw [parse_eq_muted]
    cases (s.setWarnings true).parse next (.ofText text) <;> rfl

/-- Does the call switch the warnings on or off? -/
def Call.setsWarnings : Call → Bool
  | setWarnings _ => true
  | _ => false

theorem Call.exists_of_setsWarnings {c : Call} (hc : c.setsWarnings = true) :
    ∃ on, c = .setWarnings on := by
  cases c with
  | setWarnings on => exact ⟨on, rfl⟩
  | source s | file v path | reset | setVariables on | elsewhere count => cases hc

/-- The calls but those that switch the warnings on or off. -/
def unmuted (calls : List Call) : List Call := calls.filter fun c => !c.setsWarnings

namespace Engine

variable {e : Engine} {c : Call}

/-- What a call that parses returns. -/
def answer? (e : Engine) : Call → Option (Except Failure Reply)
  | .source s => some ((e.session.parse e.next s).mapError .parse)
  | .file v path => some (e.session.parseFile e.next v path)
  | _ => none

/-- The document that a call returns, or its failure. -/
def result? (e : Engine) (c : Call) : Option (Except Failure (Instance Document)) :=
  (e.answer? c).map (Except.map Reply.document)

theorem reply?_eq (e : Engine) (c : Call) : e.reply? c = (e.answer? c).bind Except.toOption := by
  cases c with
  | source s =>
    simp only [reply?, answer?, Option.bind_some]
    cases e.session.parse e.next s <;> rfl
  | file v path => rfl
  | reset | setWarnings on | setVariables on | elsewhere count => rfl

/-- The engine with the warnings on. -/
def loud (e : Engine) : Engine := e.call (.setWarnings true)

theorem Warns.loud_eq (h : e.Warns) : e.loud = e := by
  obtain ⟨⟨⟨warns, takes⟩, cache, registry⟩, next⟩ := e
  cases h
  rfl

theorem answer?_eq_muted (e : Engine) (c : Call) :
    e.answer? c = (e.loud.answer? c).map
      (Except.map (.muted e.session.settings.fragmentWarnings)) := by
  cases c with
  | source s =>
    simp only [answer?, Option.map_some]
    rw [Session.parse_eq_muted]
    cases hr : (e.session.setWarnings true).parse e.next s <;> simp [loud, call, hr] <;> rfl
  | file v path => exact congrArg some (e.session.parseFile_eq_muted e.next v path)
  | reset | setWarnings on | setVariables on | elsewhere count => rfl

/-- The result of a call does not depend on the flag. -/
theorem result?_loud (e : Engine) (c : Call) : e.loud.result? c = e.result? c := by
  unfold result?
  rw [answer?_eq_muted e]
  cases e.loud.answer? c with
  | none => rfl
  | some a => cases a <;> rfl

/-- A call warns of what it would warn of with the warnings on, or of nothing. -/
theorem warned_eq (e : Engine) (c : Call) :
    e.warned c = if e.session.settings.fragmentWarnings then e.loud.warned c else [] := by
  unfold warned
  rw [reply?_eq, reply?_eq, answer?_eq_muted e]
  cases e.loud.answer? c with
  | none => simp
  | some a =>
    cases a with
    | error f => simp [Except.map, Except.toOption]
    | ok r => simp [Except.map, Except.toOption, Reply.muted]

theorem loud_after_muted {ε : Type} (e : Engine) (on : Bool) (x : Except ε Reply) :
    (e.after (x.map (.muted on))).loud = (e.loud.after x).loud := by
  cases x <;> rfl

/-- A call does the same whatever the flag is. -/
theorem loud_call (hc : c.setsWarnings = false) : (e.call c).loud = e.loud.call c := by
  have hloud : e.loud.Warns := rfl
  have hon : (e.loud.call c).Warns := by
    apply hloud.call
    rintro rfl
    cases hc
  rw [← hon.loud_eq]
  cases c with
  | source s =>
    refine Eq.trans ?_ (e.loud_after_muted e.session.settings.fragmentWarnings _)
    exact congrArg (fun x => (e.after x).loud) (e.session.parse_eq_muted e.next s)
  | file v path =>
    refine Eq.trans ?_ (e.loud_after_muted e.session.settings.fragmentWarnings _)
    exact congrArg (fun x => (e.after x).loud) (e.session.parseFile_eq_muted e.next v path)
  | reset | setVariables on | elsewhere count => rfl
  | setWarnings on => cases hc

/-! ## Runs -/

theorem unmuted_cons (hc : c.setsWarnings = false) (calls : List Call) :
    unmuted (c :: calls) = c :: unmuted calls := by
  simp [unmuted, hc]

/-- A run goes through the states that it goes through with the warnings on all the time. -/
theorem loud_run (e : Engine) (calls : List Call) :
    (e.run calls).loud = e.loud.run (unmuted calls) := by
  induction calls generalizing e with
  | nil => rfl
  | cons c calls ih =>
    refine (ih (e.call c)).trans ?_
    cases hc : c.setsWarnings with
    | true =>
      obtain ⟨on, rfl⟩ := Call.exists_of_setsWarnings hc
      rfl
    | false =>
      rw [loud_call hc, unmuted_cons hc]
      rfl

/-- The warnings of a run, but those of the calls that are made while they are off. -/
def heard (e : Engine) (on : Bool) : List Call → List Warning
  | [] => []
  | .setWarnings b :: cs => e.heard b cs
  | c :: cs => (if on then e.warned c else []) ++ (e.call c).heard on cs

theorem heard_cons (hc : c.setsWarnings = false) (on : Bool) (cs : List Call) :
    e.heard on (c :: cs) = (if on then e.warned c else []) ++ (e.call c).heard on cs := by
  cases c with
  | setWarnings b => cases hc
  | source s | file v path | reset | setVariables b | elsewhere count => rfl

theorem flag_call (hc : c.setsWarnings = false) :
    (e.call c).session.settings.fragmentWarnings = e.session.settings.fragmentWarnings := by
  rw [settings_call]
  cases c with
  | setWarnings b => cases hc
  | source s | file v path | reset | setVariables b | elsewhere count => rfl

/-- A run warns of what is heard of the run with the warnings on all the time. -/
theorem emitted_eq_heard (e : Engine) (calls : List Call) :
    e.emitted calls = e.loud.heard e.session.settings.fragmentWarnings calls := by
  induction calls generalizing e with
  | nil => rfl
  | cons c calls ih =>
    rw [emitted, ih]
    cases hc : c.setsWarnings with
    | false => rw [heard_cons hc, warned_eq, loud_call hc, flag_call hc]
    | true =>
      obtain ⟨on, rfl⟩ := Call.exists_of_setsWarnings hc
      rfl

/-- What is heard of a run is among its warnings, in their order. -/
theorem heard_sublist (e : Engine) (on : Bool) (calls : List Call) :
    (e.heard on calls).Sublist (e.emitted (unmuted calls)) := by
  induction calls generalizing e on with
  | nil => exact .slnil
  | cons c calls ih =>
    cases hc : c.setsWarnings with
    | false =>
      rw [heard_cons hc, unmuted_cons hc, emitted]
      refine List.Sublist.append ?_ (ih (e.call c) on)
      split
      · exact List.Sublist.refl _
      · exact List.nil_sublist _
    | true =>
      obtain ⟨b, rfl⟩ := Call.exists_of_setsWarnings hc
      exact ih e b

/-! ## Nothing is warned of later -/

theorem emitted_append (e : Engine) (cs ds : List Call) :
    e.emitted (cs ++ ds) = e.emitted cs ++ (e.run cs).emitted ds := by
  induction cs generalizing e with
  | nil => rfl
  | cons c cs ih =>
    rw [List.cons_append, emitted, emitted, ih, List.append_assoc]
    rfl

/-- What a call warns of is not warned of again before the session is reset. -/
theorem not_warned_again (h : e.session.Coherent) (hon : e.Warns) {between : List Call} {c' : Call}
    (hcalls : ∀ x ∈ c :: between ++ [c'], x ≠ .reset ∧ x ≠ .setWarnings false) {w w' : Warning}
    (hw : w ∈ e.warned c) (hw' : w' ∈ (e.run (c :: between)).warned c') :
    (w'.fragment, w'.newBody) ≠ (w.fragment, w.newBody) := by
  have hcollisions := collisions_run hon hcalls w.fragment
  have hcoherent : (e.run (c :: between ++ [c'])).session.Coherent :=
    run_induction (P := fun x => x.session.Coherent) h fun d _ x hx => coherent_call hx d
  have hdistinct : Distinct (e.run (c :: between ++ [c'])).session.registry.fragments := by
    rw [hcoherent.registry]
    exact Registry.distinct_registerAll .nil _
  -- the warnings of both calls are among the collisions of the name, which are told apart
  have hnodup := (Registry.nodup_collisions hdistinct w.fragment).1
  have hlast : (e.run (c :: between)).emitted [c'] = (e.run (c :: between)).warned c' := by
    rw [emitted, emitted, List.append_nil]
  rw [hcollisions, emitted_append, hlast, emitted] at hnodup
  simp only [warningsOf_append, List.map_append] at hnodup
  intro heq
  obtain ⟨hname, hbody⟩ := Prod.mk.inj heq
  have hfirst : w.newBody ∈ (warningsOf w.fragment (e.warned c)).map Warning.newBody :=
    List.mem_map_of_mem (List.mem_filter.mpr ⟨hw, by simp⟩)
  have hsecond : w.newBody ∈
      (warningsOf w.fragment ((e.run (c :: between)).warned c')).map Warning.newBody :=
    hbody ▸ List.mem_map_of_mem (List.mem_filter.mpr ⟨hw', by simp [hname]⟩)
  grind [List.nodup_append]

/-- A state that a new engine can get into. -/
def Reached (e : Engine) : Prop := ∃ settings next calls, e = (start settings next).run calls

theorem Reached.run (h : e.Reached) (calls : List Call) : (e.run calls).Reached := by
  obtain ⟨settings, next, earlier, rfl⟩ := h
  exact ⟨settings, next, earlier ++ calls, (run_append _ _ _).symm⟩

theorem Reached.coherent (h : e.Reached) : e.session.Coherent := by
  obtain ⟨settings, next, calls, rfl⟩ := h
  exact run_induction (P := fun x => x.session.Coherent) (Session.coherent_new settings)
    fun c _ x hx => coherent_call hx c

/-- A collision that was met, reported or not, is not reported later before a reset. -/
theorem not_reported_again (h : e.Reached) (hon : e.Warns) {before between : List Call}
    {c c' : Call} (hreset : .reset ∉ between) {w w' : Warning}
    (hw : w ∈ (e.run (unmuted before)).warned c)
    (hw' : w' ∈ (e.run (before ++ c :: between)).warned c') :
    (w'.fragment, w'.newBody) ≠ (w.fragment, w.newBody) := by
  have hquiet {x : Call} {f : Engine} {v : Warning} (hx : v ∈ f.warned x) :
      x ≠ .reset ∧ x.setsWarnings = false := by
    cases x with
    | source s | file v path => exact ⟨by simp, rfl⟩
    | reset | setWarnings on | setVariables on | elsewhere count => cases hx
  obtain ⟨hc, hsets⟩ := hquiet hw
  obtain ⟨hc', hsets'⟩ := hquiet hw'
  have hrun : (e.run (before ++ c :: between)).loud =
      (e.run (unmuted before)).run (c :: unmuted between) := by
    rw [loud_run, hon.loud_eq, ← run_append, unmuted, List.filter_append]
    exact congrArg (fun cs => e.run (unmuted before ++ cs)) (unmuted_cons hsets between)
  have hloud : w' ∈ ((e.run (unmuted before)).run (c :: unmuted between)).warned c' := by
    rw [warned_eq, hrun] at hw'
    split at hw'
    · exact hw'
    · cases hw'
  have hbefore : (e.run (unmuted before)).Warns := by
    have := loud_run e before
    rw [hon.loud_eq] at this
    rw [← this]
    rfl
  refine not_warned_again (h.run _).coherent hbefore ?_ hw hloud
  have hne {x : Call} (hx : x.setsWarnings = false) : x ≠ .setWarnings false := by
    rintro rfl
    cases hx
  simp only [List.cons_append, List.mem_cons, List.mem_append, List.not_mem_nil, or_false]
  rintro x (rfl | hx | rfl)
  · exact ⟨hc, hne hsets⟩
  · obtain ⟨hmem, hx⟩ := List.mem_filter.mp hx
    exact ⟨fun heq => hreset (heq ▸ hmem), hne (by simpa using hx)⟩
  · exact ⟨hc', hne hsets'⟩

end Engine

/-- A run with calls that switch the warnings on and off, beside the run without these calls and
with the warnings on all the time. Both end in one state, but for the flag. Each call returns the
same failure or the same document, with the same numbers. What the first run warns of is what the
second one warns of in the calls that are made with the flag on, and a collision that the flag has
kept silent is not reported later. -/
theorem muted_run {e : Engine} (he : e.Reached) (hon : e.Warns) (calls : List Call) :
    (e.run calls).loud = e.run (unmuted calls) ∧
    (∀ before c after, calls = before ++ c :: after → c.setsWarnings = false →
      (e.run before).result? c = (e.run (unmuted before)).result? c ∧
      (e.run before).warned c = if (e.run before).session.settings.fragmentWarnings then
        (e.run (unmuted before)).warned c else []) ∧
    e.emitted calls = e.heard true calls ∧
    (e.heard true calls).Sublist (e.emitted (unmuted calls)) ∧
    ∀ before c between c' after, calls = before ++ c :: (between ++ c' :: after) →
      .reset ∉ between → ∀ w ∈ (e.run (unmuted before)).warned c,
        ∀ w' ∈ (e.run (before ++ c :: between)).warned c',
          (w'.fragment, w'.newBody) ≠ (w.fragment, w.newBody) := by
  have hloud (cs : List Call) : (e.run cs).loud = e.run (unmuted cs) := by
    rw [Engine.loud_run, hon.loud_eq]
  refine ⟨hloud calls, ?_, ?_, e.heard_sublist true calls, ?_⟩
  · intro before c after hcalls hc
    rw [← hloud before]
    exact ⟨(Engine.result?_loud _ c).symm, Engine.warned_eq _ c⟩
  · rw [Engine.emitted_eq_heard, hon.loud_eq, hon]
  · intro before c between c' after hcalls hreset w hw w' hw'
    exact Engine.not_reported_again he hon hreset hw hw'

/-- A collision is met while the warnings are off, and another one when they are on again. -/
def mutedOnce : List Call :=
  [.text "fragment F on T \x7b x \x7d", .setWarnings false, .text "fragment F on T \x7b y \x7d",
    .setWarnings true, .text "fragment F on T \x7b y \x7d fragment F on T \x7b z \x7d"]

/-- Only the second of two collisions is reported if the warnings are off for the first one. -/
theorem muted_run_once : (Engine.start {} 0).Reached ∧ (Engine.start {} 0).Warns ∧
    (Engine.start {} 0).emitted mutedOnce =
      [⟨"F", "fragment F on T \x7b x \x7d", "fragment F on T \x7b z \x7d"⟩] ∧
    (Engine.start {} 0).emitted (unmuted mutedOnce) =
      [⟨"F", "fragment F on T \x7b x \x7d", "fragment F on T \x7b y \x7d"⟩,
        ⟨"F", "fragment F on T \x7b x \x7d", "fragment F on T \x7b z \x7d"⟩] := by
  have he : (Engine.start {} 0).Reached := ⟨{}, 0, [], rfl⟩
  have hon : (Engine.start {} 0).Warns := rfl
  refine ⟨he, hon, (muted_run he hon mutedOnce).2.2.1.trans ?_, ?_⟩ <;> decide +kernel

end QueryDoc
