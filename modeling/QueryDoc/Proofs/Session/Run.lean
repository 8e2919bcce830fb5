import QueryDoc.Proofs.Session.Merge
import QueryDoc.Session.Basic

/-!
# Runs

An engine is a session with the counter that it shares with all others. A run is any sequence of
calls; those that fail change nothing. A call that parses stores one document at most, under a key
that was vacant (`Engine.call_cases`), and a document stays under its key until the session is
reset.
-/
namespace QueryDoc

/-! ## Caches -/

namespace Cache

variable {c : Cache} {k : String} {d : Instance Document}

theorem get?_eq_none_iff : c.get? k = none ↔ k ∉ c.keys := by
  unfold get? keys
  rw [List.lookup_eq_none_iff, List.mem_map]
  constructor
  · rintro h ⟨e, he, rfl⟩
    simpa using h e he
  · intro h e he
    simpa using fun hk : k = e.1 => h ⟨e, he, hk.symm⟩

theorem mem_of_get? (h : c.get? k = some d) : (k, d) ∈ c.entries := by
  obtain ⟨front, behind, he, -⟩ := List.lookup_eq_some_iff.mp h
  simp [he]

/-- A vacant key is listed behind all others. -/
theorem put_of_get?_none (h : c.get? k = none) (d : Instance Document) :
    c.put k d = ⟨c.entries ++ [(k, d)]⟩ := by
  have hinsert (es : List (String × Instance Document)) (hk : k ∉ es.map Prod.fst) :
      insert k d es = es ++ [(k, d)] := by
    induction es with
    | nil => rfl
    | cons e es ih =>
      simp only [List.map_cons, List.mem_cons, not_or] at hk
      rw [insert, if_neg (fun he => hk.1 he.symm), ih hk.2, List.cons_append]
  rw [put, hinsert _ (get?_eq_none_iff.mp h)]

end Cache

/-! ## Replies -/

namespace Session

/-- The reply to a source that is not in the cache, from the definitions of its own text. -/
def stored (s : Session) (next : Nat) (source : Source) (own : List Definition) : Reply :=
  let merged := Merge.all s.registry (combine next own source)
  let d : Instance Document := ⟨next + own.length, ⟨merged.kept, source.assembled⟩⟩
  { document := d
    session := { s with
      cache := s.cache.put (key source.assembled) d
      registry := merged.registry }
    next := next + own.length + 1
    warnings := if s.settings.fragmentWarnings then merged.warnings else [] }

theorem parse_of_some {s : Session} {source : Source} {d : Instance Document}
    (h : s.cache.get? (key source.assembled) = some d) (next : Nat) :
    s.parse next source = .ok ⟨d, s, next, []⟩ := by
  unfold parse
  rw [h]

/-- Nothing but the source's own text can fail. -/
theorem resolve_eq (s : Session) (next : Nat) (source : Source) :
    s.resolve next source = (s.parsePrimary source).map (s.stored next source) := by
  unfold resolve
  cases s.parsePrimary source <;> rfl

theorem parse_of_none {s : Session} {source : Source}
    (h : s.cache.get? (key source.assembled) = none) (next : Nat) :
    s.parse next source = (s.parsePrimary source).map (s.stored next source) := by
  unfold parse
  rw [h]
  exact s.resolve_eq next source

/-- A source either is in the cache, or is stored if its own text can be read. -/
theorem parse_cases {s : Session} {next : Nat} {source : Source} {r : Reply}
    (h : s.parse next source = .ok r) :
    s.cache.get? (key source.assembled) = some r.document ∧ r = ⟨r.document, s, next, []⟩ ∨
      ∃ own, s.cache.get? (key source.assembled) = none ∧ s.parsePrimary source = .ok own ∧
        r = s.stored next source own := by
  cases hget : s.cache.get? (key source.assembled) with
  | some d =>
    rw [parse_of_some hget] at h
    cases h
    exact .inl ⟨rfl, rfl⟩
  | none =>
    rw [parse_of_none hget] at h
    cases hown : s.parsePrimary source with
    | error f => rw [hown] at h; cases h
    | ok own =>
      rw [hown] at h
      cases h
      exact .inr ⟨own, rfl, rfl, rfl⟩

theorem cache_stored {s : Session} {source : Source}
    (h : s.cache.get? (key source.assembled) = none) (next : Nat) (own : List Definition) :
    (s.stored next source own).session.cache = ⟨s.cache.entries ++
      [(key source.assembled, (s.stored next source own).document)]⟩ :=
  Cache.put_of_get?_none h _

theorem mem_entries_stored {s : Session} {source : Source}
    (h : s.cache.get? (key source.assembled) = none) (next : Nat) (own : List Definition)
    {x : String × Instance Document} :
    x ∈ (s.stored next source own).session.cache.entries ↔
      x ∈ s.cache.entries ∨ x = (key source.assembled, (s.stored next source own).document) := by
  rw [cache_stored h, List.mem_append, List.mem_singleton]

/-- Only the key of the source gets a document. -/
theorem get?_stored {s : Session} {source : Source}
    (h : s.cache.get? (key source.assembled) = none) (next : Nat) (own : List Definition)
    (k : String) : (s.stored next source own).session.cache.get? k = (s.cache.get? k).or
      (if k = key source.assembled then some (s.stored next source own).document else none) := by
  rw [cache_stored h, Cache.get?, List.lookup_append, Cache.get?]
  by_cases hk : k = key source.assembled
  · rw [hk, List.lookup_cons_self, if_pos rfl]
  · rw [List.lookup_cons, beq_false_of_ne hk, if_neg hk]
    rfl

end Session

/-! ## Calls -/

/-- A call on an engine. Other sessions take numbers as well. -/
inductive Call where
  | source (s : Source)
  | file (v : Files.Volume) (path : String)
  | reset
  | setWarnings (on : Bool)
  | setVariables (on : Bool)
  | elsewhere (count : Nat)

namespace Call

/-- The call that parses a plain text. -/
def text (s : String) : Call := source (.ofText s)

/-- The source that a call parses, if there is one. -/
def source? : Call → Option Source
  | source s => some s
  | file v path => (Files.read v path).toOption.map .ofText
  | _ => none

/-- The settings behind a call. -/
def settings : Call → Settings → Settings
  | setWarnings on, s => { s with fragmentWarnings := on }
  | setVariables on, s => { s with fragmentVariables := on }
  | _, s => s

theorem settings_of_source? {c : Call} {source : Source} (h : c.source? = some source)
    (s : Settings) : c.settings s = s := by
  cases c with
  | source t | file v path => rfl
  | reset | setWarnings on | setVariables on | elsewhere count => cases h

end Call

theorem toOption_eq_some {ε α : Type} {x : Except ε α} {a : α} (h : x.toOption = some a) :
    x = .ok a := by
  cases x with
  | error e => cases h
  | ok b => exact congrArg Except.ok (Option.some.inj h)

structure Engine where
  session : Session
  next : Nat

namespace Engine

/-- A new engine. -/
def start (settings : Settings) (next : Nat) : Engine := ⟨.new settings, next⟩

/-- The engine behind a reply, or the same engine if there is none. -/
def after {ε : Type} (e : Engine) : Except ε Reply → Engine
  | .ok r => ⟨r.session, r.next⟩
  | .error _ => e

def call (e : Engine) : Call → Engine
  | .source s => e.after (e.session.parse e.next s)
  | .file v path => e.after (e.session.parseFile e.next v path)
  | .reset => { e with session := e.session.reset }
  | .setWarnings on => { e with session := e.session.setWarnings on }
  | .setVariables on => { e with session := e.session.setVariables on }
  | .elsewhere count => { e with next := e.next + count }

def run (e : Engine) (calls : List Call) : Engine := calls.foldl call e

theorem run_append (e : Engine) (cs ds : List Call) : e.run (cs ++ ds) = (e.run cs).run ds :=
  List.foldl_append

theorem run_concat (e : Engine) (cs : List Call) (c : Call) :
    e.run (cs ++ [c]) = (e.run cs).call c := run_append e cs [c]

/-- What holds at the start and is kept by every call of a run holds behind the run. -/
theorem run_induction {P : Engine → Prop} {calls : List Call} {e : Engine} (hstart : P e)
    (hcall : ∀ c ∈ calls, ∀ e, P e → P (e.call c)) : P (e.run calls) := by
  induction calls generalizing e with
  | nil => exact hstart
  | cons c calls ih =>
    obtain ⟨hfirst, hrest⟩ := List.forall_mem_cons.mp hcall
    exact ih (hfirst e hstart) hrest

theorem call_file (e : Engine) (v : Files.Volume) (path : String) :
    e.call (.file v path) = e.after (e.session.parseFile e.next v path) := rfl

/-- A file is parsed as its text. -/
theorem call_of_source? {e : Engine} {c : Call} {s : Source} (h : c.source? = some s) :
    e.call c = e.after (e.session.parse e.next s) := by
  cases c with
  | source t => cases h; rfl
  | file v path =>
    simp only [Call.source?] at h
    cases hread : Files.read v path with
    | error x => rw [hread] at h; cases h
    | ok t =>
      rw [hread] at h
      cases h
      rw [call_file, Session.parseFile, hread]
      change e.after ((e.session.parse e.next (.ofText t)).mapError Failure.parse) = _
      cases e.session.parse e.next (.ofText t) <;> rfl
  | reset | setWarnings on | setVariables on | elsewhere count => cases h

/-- A source whose key is vacant and whose own text can be read is stored. -/
theorem call_of_vacant {e : Engine} {c : Call} {source : Source} {own : List Definition}
    (hs : c.source? = some source) (hnone : e.session.cache.get? (key source.assembled) = none)
    (hown : e.session.parsePrimary source = .ok own) :
    e.call c = ⟨(e.session.stored e.next source own).session,
      (e.session.stored e.next source own).next⟩ := by
  rw [call_of_source? hs, Session.parse_of_none hnone, hown]
  rfl

/-- A call that parses nothing leaves what is stored as it is, unless it resets the session. -/
theorem call_of_source?_eq_none {c : Call} (hs : c.source? = none) (hc : c ≠ .reset) (e : Engine) :
    ∃ next, e.next ≤ next ∧ e.call c =
      ⟨⟨c.settings e.session.settings, e.session.cache, e.session.registry⟩, next⟩ := by
  cases c with
  | source s => cases hs
  | file v path =>
    refine ⟨e.next, Nat.le_refl _, ?_⟩
    simp only [Call.source?, Option.map_eq_none_iff] at hs
    cases hread : Files.read v path with
    | error x =>
      rw [call_file, Session.parseFile, hread]
      rfl
    | ok t => rw [hread] at hs; cases hs
  | reset => exact absurd rfl hc
  | setWarnings on | setVariables on => exact ⟨e.next, Nat.le_refl _, rfl⟩
  | elsewhere count => exact ⟨e.next + count, Nat.le_add_right _ _, rfl⟩

/-! ## Replies to calls -/

/-- The reply to a call that parses, if there is one. -/
def reply? (e : Engine) : Call → Option Reply
  | .source s => (e.session.parse e.next s).toOption
  | .file v path => (e.session.parseFile e.next v path).toOption
  | _ => none

/-- A file is answered as its text. -/
theorem reply?_of_source? {e : Engine} {c : Call} {s : Source} (h : c.source? = some s) :
    e.reply? c = (e.session.parse e.next s).toOption := by
  cases c with
  | source t => cases h; rfl
  | file v path =>
    obtain ⟨t, ht, rfl⟩ := Option.map_eq_some_iff.mp h
    rw [reply?, Session.parseFile, toOption_eq_some ht]
    change ((e.session.parse e.next (.ofText t)).mapError Failure.parse).toOption = _
    cases e.session.parse e.next (.ofText t) <;> rfl
  | reset | setWarnings on | setVariables on | elsewhere count => cases h

theorem reply?_of_source?_eq_none {c : Call} (h : c.source? = none) (e : Engine) :
    e.reply? c = none := by
  cases c with
  | source s => cases h
  | file v path =>
    simp only [Call.source?, Option.map_eq_none_iff] at h
    cases hread : Files.read v path with
    | error x => rw [reply?, Session.parseFile, hread]; rfl
    | ok t => rw [hread] at h; cases h
  | reset | setWarnings on | setVariables on | elsewhere count => rfl

/-- What a call does: it resets the session, it finds a document in the cache, it stores one, or it
leaves what is stored as it is and has no reply. -/
inductive Effect (e : Engine) (c : Call) : Prop where
  | reset (isReset : c = .reset) (call : e.call c = ⟨.new e.session.settings, e.next⟩)
    (reply : e.reply? c = none)
  | hit (source : Source) (d : Instance Document) (called : c.source? = some source)
    (cached : e.session.cache.get? (key source.assembled) = some d) (call : e.call c = e)
    (reply : e.reply? c = some ⟨d, e.session, e.next, []⟩)
  | stored (source : Source) (own : List Definition) (called : c.source? = some source)
    (vacant : e.session.cache.get? (key source.assembled) = none)
    (read : e.session.parsePrimary source = .ok own)
    (call : e.call c = ⟨(e.session.stored e.next source own).session,
      (e.session.stored e.next source own).next⟩)
    (reply : e.reply? c = some (e.session.stored e.next source own))
  | kept (next : Nat) (notReset : c ≠ .reset) (le : e.next ≤ next)
    (call : e.call c =
      ⟨⟨c.settings e.session.settings, e.session.cache, e.session.registry⟩, next⟩)
    (reply : e.reply? c = none)

theorem effect (e : Engine) (c : Call) : e.Effect c := by
  by_cases hreset : c = .reset
  · subst hreset
    exact .reset rfl rfl rfl
  cases hs : c.source? with
  | none =>
    obtain ⟨next, hle, he⟩ := call_of_source?_eq_none hs hreset e
    exact .kept next hreset hle he (reply?_of_source?_eq_none hs e)
  | some source =>
    have hcall := call_of_source? (e := e) hs
    have hreply := reply?_of_source? (e := e) hs
    cases hr : e.session.parse e.next source with
    | error f =>
      rw [hr] at hcall hreply
      refine .kept e.next hreset (Nat.le_refl _) ?_ hreply
      rw [hcall, Call.settings_of_source? hs]
      rfl
    | ok r =>
      rw [hr] at hcall hreply
      rcases Session.parse_cases hr with ⟨hget, hsame⟩ | ⟨own, hnone, hown, rfl⟩
      · rw [hsame] at hcall hreply
        exact .hit source r.document hs hget hcall hreply
      · exact .stored source own hs hnone hown hcall hreply

/-- A call resets the session, stores one document, or leaves what is stored as it is. -/
theorem call_cases (e : Engine) (c : Call) :
    (c = .reset ∧ e.call c = ⟨.new e.session.settings, e.next⟩) ∨
    (∃ source own, c.source? = some source ∧
      e.session.cache.get? (key source.assembled) = none ∧
      e.session.parsePrimary source = .ok own ∧
      e.call c = ⟨(e.session.stored e.next source own).session,
        (e.session.stored e.next source own).next⟩) ∨
    (c ≠ .reset ∧ ∃ settings next,
      e.call c = ⟨⟨settings, e.session.cache, e.session.registry⟩, next⟩) := by
  cases e.effect c with
  | reset isReset call reply => exact .inl ⟨isReset, call⟩
  | hit source d called cached call reply =>
    refine .inr (.inr ⟨?_, e.session.settings, e.next, call⟩)
    rintro rfl
    cases called
  | stored source own called vacant read call reply =>
    exact .inr (.inl ⟨source, own, called, vacant, read, call⟩)
  | kept next notReset le call reply => exact .inr (.inr ⟨notReset, _, next, call⟩)

theorem settings_call (e : Engine) (c : Call) :
    (e.call c).session.settings = c.settings e.session.settings := by
  cases e.effect c with
  | reset isReset call reply => rw [call, isReset]; rfl
  | hit source d called cached call reply => rw [call, Call.settings_of_source? called]
  | stored source own called vacant read call reply =>
    rw [call, Call.settings_of_source? called]
    rfl
  | kept next notReset le call reply => rw [call]

/-! ## Documents stay -/

/-- A document stays under its key. -/
theorem get?_call_of_some {e : Engine} {k : String} {d : Instance Document}
    (h : e.session.cache.get? k = some d) {c : Call} (hc : c ≠ .reset) :
    (e.call c).session.cache.get? k = some d := by
  cases e.effect c with
  | reset isReset call reply => exact absurd isReset hc
  | hit source d' called cached call reply => rw [call, h]
  | stored source own called vacant read call reply =>
    rw [call]
    dsimp only
    rw [Session.get?_stored vacant, h]
    rfl
  | kept next notReset le call reply => rw [call]; exact h

theorem get?_run_of_some {e : Engine} {k : String} {d : Instance Document}
    (h : e.session.cache.get? k = some d) {calls : List Call} (hc : ∀ c ∈ calls, c ≠ .reset) :
    (e.run calls).session.cache.get? k = some d := by
  induction calls generalizing e with
  | nil => exact h
  | cons c calls ih =>
    obtain ⟨hfirst, hrest⟩ := List.forall_mem_cons.mp hc
    exact ih (get?_call_of_some h hfirst) hrest

end Engine

end QueryDoc
