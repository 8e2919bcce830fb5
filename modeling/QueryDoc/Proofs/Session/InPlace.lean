import QueryDoc.Proofs.Session.Muting
import QueryDoc.Proofs.Session.Toggles

/-!
# Calls in place

A call that parses, as a program that changes its engine step by step: fragments are registered and
warnings delivered one by one, and what was done before a failure stays done. Such programs do what
the calls do (`Program.exec_parse`), and since all that can fail stands in front of the first
change, a call that fails has changed nothing and delivered nothing (`failed_call_atomic`).
-/
namespace QueryDoc

/-- An engine and the warnings that it has delivered. -/
structure World where
  engine : Engine
  delivered : List Warning

/-- A program that changes a world and can fail. A failure does not undo what was changed before. -/
abbrev Program (α : Type) := ExceptT Failure (StateM World) α

namespace Program

/-! ## Steps -/

def session : Program Session := return (← get).engine.session

def modifySession (f : Session → Session) : Program Unit :=
  modify fun w => ⟨⟨f w.engine.session, w.engine.next⟩, w.delivered⟩

def deliver (v : Warning) : Program Unit :=
  modify fun w => { w with delivered := w.delivered ++ [v] }

def report (v : Warning) : Program Unit := do
  if (← session).settings.fragmentWarnings then deliver v

/-- Takes numbers from the counter, and gives the first of them. -/
def takeNumbers (count : Nat) : Program Nat :=
  modifyGet fun w => (w.engine.next, ⟨⟨w.engine.session, w.engine.next + count⟩, w.delivered⟩)

/-- Registers a fragment, and gives the instance that goes for it. -/
def register (f : Instance Fragment) : Program (Instance Fragment) := do
  let s ← session
  let (outcome, r) := s.registry.register f
  modifySession fun s => { s with registry := r }
  match outcome with
  | .registered => return f
  | .known earlier => return earlier
  | .collision first =>
    report ⟨f.value.name, first, f.value.body⟩
    return f

/-- Takes a definition in behind those that were kept before. -/
def visit (kept : List Node) : Node → Program (List Node)
  | .operation o => return kept ++ [.operation o]
  | .fragment f =>
    if (fragmentsIn kept).any fun g => g.value.alike f.value then return kept
    else return kept ++ [.fragment (← register f)]

def deduplicate (nodes : List Node) : Program (List Node) := nodes.foldlM visit []

/-- Makes a document of a source that is not in the cache. -/
def resolve (source : Source) : Program (Instance Document) := do
  let own ← MonadExcept.ofExcept (((← session).parsePrimary source).mapError .parse)
  let first ← takeNumbers (own.length + 1)
  let kept ← deduplicate (Session.combine first own source)
  return ⟨first + own.length, ⟨kept, source.assembled⟩⟩

def parse (source : Source) : Program (Instance Document) := do
  match (← session).cache.get? (key source.assembled) with
  | some d => return d
  | none =>
    let d ← resolve source
    modifySession fun s => { s with cache := s.cache.put (key source.assembled) d }
    return d

def parseFile (v : Files.Volume) (path : String) : Program (Instance Document) := do
  let text ← MonadExcept.ofExcept ((Files.read v path).mapError .content)
  parse (.ofText text)

/-! ## Running programs -/

variable {α β : Type} {w w' : World}

def exec (p : Program α) (w : World) : Except Failure α × World := p.run.run w

theorem exec_bind_of_ok {p : Program α} {a : α} (h : p.exec w = (.ok a, w')) (f : α → Program β) :
    (p >>= f).exec w = (f a).exec w' := by
  have hbind : (p >>= f).exec w = (ExceptT.bindCont f (p.exec w).1).run (p.exec w).2 := rfl
  rw [hbind, h]
  rfl

theorem exec_bind_of_error {p : Program α} {failure : Failure} (h : p.exec w = (.error failure, w'))
    (f : α → Program β) : (p >>= f).exec w = (.error failure, w') := by
  have hbind : (p >>= f).exec w = (ExceptT.bindCont f (p.exec w).1).run (p.exec w).2 := rfl
  rw [hbind, h]
  rfl

end Program

namespace World

/-- The world in the course of a merge. -/
def merging (w : World) (m : Merge) : World :=
  ⟨⟨{ w.engine.session with registry := m.registry }, w.engine.next⟩,
    w.delivered ++ if w.engine.session.settings.fragmentWarnings then m.warnings else []⟩

/-- The world behind an answer. A failure leaves it as it is. -/
def behind (w : World) : Except Failure Reply → World
  | .ok r => ⟨⟨r.session, r.next⟩, w.delivered ++ r.warnings⟩
  | .error _ => w

end World

namespace Program

variable {w : World}

theorem exec_report (w : World) (m : Merge) (v : Warning) :
    (report v).exec (w.merging m) = (.ok (), w.merging (m.warn v)) := by
  obtain ⟨⟨⟨⟨warns, takes⟩, cache, registry⟩, next⟩, delivered⟩ := w
  cases warns with
  | false => rfl
  | true =>
    have hdelivered : (delivered ++ m.warnings) ++ [v] = delivered ++ (m.warnings ++ [v]) :=
      List.append_assoc ..
    exact congrArg (fun vs => (Except.ok (), World.mk _ vs)) hdelivered

theorem exec_register (w : World) (m : Merge) (f : Instance Fragment) :
    ∃ g, (register f).exec (w.merging m) = (.ok g, w.merging (m.register f)) ∧
      (m.register f).kept = m.kept ++ [.fragment g] := by
  have hsession : session.exec (w.merging m) =
      (.ok (w.merging m).engine.session, w.merging m) := rfl
  have hregistry : (w.merging m).engine.session.registry = m.registry := rfl
  unfold register Merge.register
  rw [exec_bind_of_ok hsession, hregistry]
  cases m.registry.register f with
  | mk outcome r =>
    cases outcome with
    | registered => exact ⟨f, rfl, rfl⟩
    | known earlier => exact ⟨earlier, rfl, rfl⟩
    | collision first =>
      have hmodify : (modifySession fun s => { s with registry := r }).exec (w.merging m) =
          (.ok (), w.merging (m.keep r (.fragment f))) := rfl
      refine ⟨f, ?_, rfl⟩
      refine (exec_bind_of_ok hmodify _).trans ?_
      exact exec_bind_of_ok (exec_report w (m.keep r (.fragment f)) _) _

/-- A definition is taken in as in a merge. -/
theorem exec_visit (w : World) (m : Merge) (n : Node) :
    (visit m.kept n).exec (w.merging m) = (.ok (m.step n).kept, w.merging (m.step n)) := by
  cases n with
  | operation o => rfl
  | fragment f =>
    have hvisit : visit m.kept (.fragment f) = if m.keeps f.value then return m.kept
      else return m.kept ++ [.fragment (← register f)] := rfl
    rw [hvisit, Merge.step]
    cases m.keeps f.value with
    | true => rfl
    | false =>
      obtain ⟨g, hg, hkept⟩ := exec_register w m f
      rw [if_neg Bool.false_ne_true, if_neg Bool.false_ne_true, exec_bind_of_ok hg, hkept]
      rfl

theorem exec_foldlM_visit (w : World) (m : Merge) (nodes : List Node) :
    (nodes.foldlM visit m.kept).exec (w.merging m) =
      (.ok (nodes.foldl Merge.step m).kept, w.merging (nodes.foldl Merge.step m)) := by
  induction nodes generalizing m with
  | nil => rfl
  | cons n nodes ih =>
    rw [List.foldlM_cons, exec_bind_of_ok (exec_visit w m n), ih]
    rfl

/-- The definitions of a source are taken in one by one as they are merged. -/
theorem exec_deduplicate (w : World) (nodes : List Node) :
    (deduplicate nodes).exec w =
      (.ok (Merge.all w.engine.session.registry nodes).kept,
        w.merging (Merge.all w.engine.session.registry nodes)) := by
  have hstart : w.merging (.start w.engine.session.registry) = w := by
    simp [World.merging, Merge.start]
  have hfoldl := exec_foldlM_visit w (.start w.engine.session.registry) nodes
  rw [hstart] at hfoldl
  exact hfoldl

theorem exec_session (w : World) : session.exec w = (.ok w.engine.session, w) := rfl

theorem exec_resolve_of_error {source : Source} {f : ParseFailure}
    (h : w.engine.session.parsePrimary source = .error f) :
    (resolve source).exec w = (.error (.parse f), w) := by
  unfold resolve
  rw [exec_bind_of_ok (exec_session w), h]
  rfl

/-- The world in which a source's nodes have their numbers and are merged. -/
theorem exec_resolve_of_ok {source : Source} {own : List Definition}
    (h : w.engine.session.parsePrimary source = .ok own) :
    (resolve source).exec w =
      (.ok (w.engine.session.stored w.engine.next source own).document,
        World.merging ⟨⟨w.engine.session, w.engine.next + (own.length + 1)⟩, w.delivered⟩
          (.all w.engine.session.registry (Session.combine w.engine.next own source))) := by
  have hread : (MonadExcept.ofExcept ((Except.ok own).mapError Failure.parse) :
      Program (List Definition)).exec w = (.ok own, w) := rfl
  have hnumbers : (takeNumbers (own.length + 1)).exec w = (.ok w.engine.next,
      ⟨⟨w.engine.session, w.engine.next + (own.length + 1)⟩, w.delivered⟩) := rfl
  unfold resolve
  rw [exec_bind_of_ok (exec_session w), h, exec_bind_of_ok hread, exec_bind_of_ok hnumbers,
    exec_bind_of_ok (exec_deduplicate _ _)]
  rfl

/-- A source is parsed in place as the session parses it. -/
theorem exec_parse (w : World) (source : Source) :
    (parse source).exec w =
      (((w.engine.session.parse w.engine.next source).mapError .parse).map Reply.document,
        w.behind ((w.engine.session.parse w.engine.next source).mapError .parse)) := by
  unfold parse
  rw [exec_bind_of_ok (exec_session w)]
  cases hget : w.engine.session.cache.get? (key source.assembled) with
  | some d =>
    have hbehind : w.behind (.ok ⟨d, w.engine.session, w.engine.next, []⟩) = w := by
      simp [World.behind]
    rw [Session.parse_of_some hget]
    exact congrArg (Prod.mk _) hbehind.symm
  | none =>
    rw [Session.parse_of_none hget]
    cases hown : w.engine.session.parsePrimary source with
    | error f => exact exec_bind_of_error (exec_resolve_of_error hown) _
    | ok own =>
      refine (exec_bind_of_ok (exec_resolve_of_ok hown) _).trans ?_
      rfl

theorem exec_parseFile (w : World) (v : Files.Volume) (path : String) :
    (parseFile v path).exec w =
      ((w.engine.session.parseFile w.engine.next v path).map Reply.document,
        w.behind (w.engine.session.parseFile w.engine.next v path)) := by
  unfold parseFile Session.parseFile
  cases Files.read v path with
  | error x => rfl
  | ok text => exact exec_parse w (.ofText text)

end Program

/-! ## Failures -/

theorem Session.parsePrimary_eq_error_iff {s : Session} {source : Source} {f : ParseFailure} :
    s.parsePrimary source = .error f ↔
      (hasTokens source.primary = true ∨ source.embedded = []) ∧
        QueryDoc.parse s.settings.parseOptions source.primary = .error f := by
  unfold parsePrimary
  cases hasTokens source.primary <;> cases source.embedded <;> simp

/-- Parsing fails where the cache has no document and the source's own text is to be parsed and is
refused. -/
theorem Session.parse_eq_error_iff {s : Session} {next : Nat} {source : Source}
    {f : ParseFailure} :
    s.parse next source = .error f ↔ s.cache.get? (key source.assembled) = none ∧
      (hasTokens source.primary = true ∨ source.embedded = []) ∧
        QueryDoc.parse s.settings.parseOptions source.primary = .error f := by
  rw [← parsePrimary_eq_error_iff]
  cases hget : s.cache.get? (key source.assembled) with
  | some d => simp [parse_of_some hget]
  | none =>
    rw [parse_of_none hget]
    cases s.parsePrimary source <;> simp [Except.map]

namespace Engine

variable {e : Engine} {c : Call}

/-- Why a call fails: its file cannot be read, or its source is not in the cache and has a text of
its own to be parsed, which is refused under the settings. -/
inductive Refused (e : Engine) (c : Call) : Failure → Prop where
  | content (v : Files.Volume) (path : String) (x : Files.ContentError) (isFile : c = .file v path)
    (unread : Files.read v path = .error x) : Refused e c (.content x)
  | parse (source : Source) (f : ParseFailure) (called : c.source? = some source)
    (vacant : e.session.cache.get? (key source.assembled) = none)
    (toParse : hasTokens source.primary = true ∨ source.embedded = [])
    (refused : QueryDoc.parse e.session.settings.parseOptions source.primary = .error f) :
    Refused e c (.parse f)

theorem answer?_of_source? {source : Source} (h : c.source? = some source) :
    e.answer? c = some ((e.session.parse e.next source).mapError .parse) := by
  cases c with
  | source t => cases h; rfl
  | file v path =>
    obtain ⟨t, ht, rfl⟩ := Option.map_eq_some_iff.mp h
    rw [answer?, Session.parseFile, toOption_eq_some ht]
    rfl
  | reset | setWarnings on | setVariables on | elsewhere count => cases h

theorem answer?_of_source?_eq_none (h : c.source? = none) (e : Engine) :
    e.answer? c = none ∨ ∃ v path x, c = .file v path ∧ Files.read v path = .error x ∧
      e.answer? c = some (.error (.content x)) := by
  cases c with
  | source t => cases h
  | file v path =>
    simp only [Call.source?, Option.map_eq_none_iff] at h
    cases hread : Files.read v path with
    | error x => exact .inr ⟨v, path, x, rfl, hread, by rw [answer?, Session.parseFile, hread]; rfl⟩
    | ok t => rw [hread] at h; cases h
  | reset | setWarnings on | setVariables on | elsewhere count => exact .inl rfl

/-- A call fails for the reasons that it can fail for, and else it does not. -/
theorem answer?_eq_error_iff {failure : Failure} :
    e.answer? c = some (.error failure) ↔ e.Refused c failure := by
  constructor
  · intro h
    cases hs : c.source? with
    | none =>
      rcases answer?_of_source?_eq_none hs e with hnone | ⟨v, path, x, hfile, hread, hx⟩
      · rw [hnone] at h
        cases h
      · rw [hx] at h
        cases h
        exact .content v path x hfile hread
    | some source =>
      rw [answer?_of_source? hs] at h
      cases hparse : e.session.parse e.next source with
      | ok r => rw [hparse] at h; cases h
      | error f =>
        rw [hparse] at h
        cases h
        obtain ⟨hvacant, htoParse, hrefused⟩ := Session.parse_eq_error_iff.mp hparse
        exact .parse source f hs hvacant htoParse hrefused
  · intro h
    cases h with
    | content v path x isFile unread =>
      subst isFile
      rw [answer?, Session.parseFile, unread]
      rfl
    | parse source f called vacant toParse refused =>
      rw [answer?_of_source? called,
        Session.parse_eq_error_iff.mpr ⟨vacant, toParse, refused⟩]
      rfl

theorem call_of_answer? {a : Except Failure Reply} (h : e.answer? c = some a) :
    e.call c = e.after a := by
  cases c with
  | source s =>
    cases h
    change e.after (e.session.parse e.next s) = _
    cases e.session.parse e.next s <;> rfl
  | file v path => cases h; rfl
  | reset | setWarnings on | setVariables on | elsewhere count => cases h

end Engine

/-- The program of a call that parses. -/
def Call.program? : Call → Option (Program (Instance Document))
  | source s => some (.parse s)
  | file v path => some (.parseFile v path)
  | _ => none

theorem Program.exec_of_call {c : Call} {p : Program (Instance Document)}
    (hp : c.program? = some p) (w : World) :
    ∃ a, w.engine.answer? c = some a ∧ p.exec w = (a.map Reply.document, w.behind a) := by
  cases c with
  | source s =>
    cases hp
    exact ⟨_, rfl, exec_parse w s⟩
  | file v path =>
    cases hp
    exact ⟨_, rfl, exec_parseFile w v path⟩
  | reset | setWarnings on | setVariables on | elsewhere count => cases hp

/-- A call that parses does in place what it does. It fails exactly if its file cannot be read, or
its key is not in the cache and its own text is to be parsed and is refused; then the cache, the
registry, the settings, the counter and what was delivered are as they were. -/
theorem failed_call_atomic {c : Call} {p : Program (Instance Document)} (hp : c.program? = some p)
    (w : World) :
    w.engine.result? c = some (p.exec w).1 ∧
    (p.exec w).2 = ⟨w.engine.call c, w.delivered ++ w.engine.warned c⟩ ∧
    ∀ failure, ((p.exec w).1 = .error failure ↔ w.engine.Refused c failure) ∧
      ((p.exec w).1 = .error failure → (p.exec w).2 = w) := by
  obtain ⟨a, ha, hexec⟩ := Program.exec_of_call hp w
  rw [hexec]
  refine ⟨?_, ?_, ?_⟩
  · rw [Engine.result?, ha]
    rfl
  · rw [Engine.call_of_answer? ha, Engine.warned, Engine.reply?_eq, ha]
    cases a with
    | error failure => simp [World.behind, Engine.after, Except.toOption]
    | ok r => rfl
  · intro failure
    rw [← Engine.answer?_eq_error_iff, ha]
    cases a with
    | error f => simp [Except.map, World.behind]
    | ok r => simp [Except.map]

/-- A document with two fragments that was parsed elsewhere. -/
def parsedElsewhere : Except ParseFailure (Instance Document × Nat) :=
  parseAlone {} 100 "fragment F on T \x7b z \x7d fragment G on T \x7b z \x7d"

/-- A text that is refused behind a fragment, with the document behind it. -/
def refusedWith (d : Instance Document) : Source :=
  .followedBy "fragment F on T \x7b y \x7d \x7b " d

/-- An engine that knows another fragment of that name. -/
def worldWithFragment : World := ⟨(Engine.start {} 0).run [.text "fragment F on T \x7b x \x7d"], []⟩

/-- Nothing is registered or warned of, though the text has a colliding fragment in front of the
error, and the document another one and a new one. -/
theorem failed_call_of_collisions : ∃ d next p failure, parsedElsewhere = .ok (d, next) ∧
    (Call.source (refusedWith d)).program? = some p ∧
    p.exec worldWithFragment = (.error failure, worldWithFragment) := by
  have h : parsedElsewhere.toOption.any (fun x =>
      (worldWithFragment.engine.session.cache.get? (key (refusedWith x.1).assembled)).isNone &&
        hasTokens (refusedWith x.1).primary && (syntaxError? (QueryDoc.parse
          worldWithFragment.engine.session.settings.parseOptions
          (refusedWith x.1).primary)).isSome) = true := by
    decide +kernel
  simp only [Option.any_eq_true, Bool.and_eq_true, Option.isNone_iff_eq_none] at h
  obtain ⟨⟨d, next⟩, hd, ⟨hvacant, htokens⟩, herror⟩ := h
  obtain ⟨e, he⟩ := exists_syntaxError herror
  have hp : (Call.source (refusedWith d)).program? = some (.parse (refusedWith d)) := rfl
  have hatomic := (failed_call_atomic hp worldWithFragment).2.2 (.parse (.error e))
  have hfails := hatomic.1.mpr (.parse (refusedWith d) (.error e) rfl hvacant (.inl htokens) he)
  exact ⟨d, next, _, _, toOption_eq_some hd, hp, Prod.ext hfails (hatomic.2 hfails)⟩

end QueryDoc
