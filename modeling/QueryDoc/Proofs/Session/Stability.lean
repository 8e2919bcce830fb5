import QueryDoc.Proofs.Session.Run

/-!
# Stable documents

A run answers with one and the same document exactly when it is asked for one key and was not reset
in between. Documents are told apart by their numbers, so two things carry the proof: a document
stays under its key, and a number that the counter gives out is above all that were given out before
(`Engine.Numbered`). The keys in the cache are those that were answered since the last reset, each
once and in the order of their first answers (`keys_run`).
-/
namespace QueryDoc

/-! ## Documents stay -/

/-- A call parses the source, and the engine answers it. -/
structure Answers (e : Engine) (c : Call) (source : Source) (r : Reply) : Prop where
  called : c.source? = some source
  reply : e.reply? c = some r

namespace Engine

variable {e : Engine} {c : Call} {k : String} {d : Instance Document}

/-- An answer is in the cache behind the call. -/
theorem get?_of_answers {source : Source} {r : Reply} (h : Answers e c source r) :
    (e.call c).session.cache.get? (key source.assembled) = some r.document := by
  have hcalled {other : Source} (ho : c.source? = some other) : other = source :=
    Option.some.inj (ho.symm.trans h.called)
  have hreply {other : Reply} (ho : e.reply? c = some other) : other = r :=
    Option.some.inj (ho.symm.trans h.reply)
  cases e.effect c with
  | reset isReset call reply => cases reply.symm.trans h.reply
  | hit other d called cached call reply =>
    rw [call, ← hcalled called, ← hreply reply, cached]
  | stored other own called vacant read call reply =>
    rw [call, ← hcalled called, ← hreply reply]
    dsimp only
    rw [Session.get?_stored vacant, vacant, if_pos rfl]
    rfl
  | kept next notReset le call reply => cases reply.symm.trans h.reply

/-- An answer stays in the cache until the session is reset. -/
theorem get?_run_of_answers {source : Source} {r : Reply} (h : Answers e c source r)
    {between : List Call} (hreset : .reset ∉ between) :
    (e.run (c :: between)).session.cache.get? (key source.assembled) = some r.document :=
  get?_run_of_some (get?_of_answers h) fun _ hx he => hreset (he ▸ hx)

/-- A call whose key is in the cache changes nothing. -/
theorem call_of_cached {source : Source} (hs : c.source? = some source)
    (hd : e.session.cache.get? (key source.assembled) = some d) :
    e.call c = e ∧ e.reply? c = some ⟨d, e.session, e.next, []⟩ := by
  rw [call_of_source? hs, reply?_of_source? hs, Session.parse_of_some hd]
  exact ⟨rfl, rfl⟩

/-- A later answer to the same key is the same document, unless the session was reset. -/
theorem document_eq_of_key_eq {c' : Call} {between : List Call} {source source' : Source}
    {r r' : Reply} (hr : Answers e c source r) (hr' : Answers (e.run (c :: between)) c' source' r')
    (hkey : key source.assembled = key source'.assembled) (hreset : .reset ∉ between) :
    r.document = r'.document := by
  have hcached := get?_run_of_answers hr hreset
  rw [hkey] at hcached
  have hreply := Option.some.inj ((call_of_cached hr'.called hcached).2.symm.trans hr'.reply)
  rw [← hreply]

/-! ## Numbers -/

theorem next_le_call (e : Engine) (c : Call) : e.next ≤ (e.call c).next := by
  cases e.effect c with
  | reset isReset call reply => simp [call]
  | hit source d called cached call reply => simp [call]
  | stored source own called vacant read call reply =>
    rw [call]
    simp only [Session.stored]
    omega
  | kept next notReset le call reply => rw [call]; exact le

theorem next_le_run (e : Engine) (calls : List Call) : e.next ≤ (e.run calls).next :=
  run_induction (P := fun x => e.next ≤ x.next) (Nat.le_refl _)
    fun c _ x h => Nat.le_trans h (x.next_le_call c)

/-- The numbers of the cached documents lie between `low` and the counter, and no number stands
under two keys. -/
structure Numbered (low : Nat) (e : Engine) : Prop where
  low_le : low ≤ e.next
  bounds : ∀ x ∈ e.session.cache.entries, low ≤ x.2.id ∧ x.2.id < e.next
  distinct : ∀ x ∈ e.session.cache.entries, ∀ y ∈ e.session.cache.entries, x.2.id = y.2.id → x = y

variable {low : Nat}

theorem numbered_of_empty (h : e.session.cache = .empty) : e.Numbered e.next := by
  constructor <;> simp [h, Cache.empty]

theorem Numbered.call (h : e.Numbered low) (c : Call) : (e.call c).Numbered low := by
  cases e.effect c with
  | reset isReset call reply =>
    rw [call]
    exact ⟨h.low_le, by simp [Session.new, Cache.empty], by simp [Session.new, Cache.empty]⟩
  | hit source d called cached call reply => rw [call]; exact h
  | stored source own called vacant read call reply =>
    -- the new number is the counter's or above it, and so above all that are cached
    have hnew : (e.session.stored e.next source own).document.id = e.next + own.length := rfl
    have hnext : (e.session.stored e.next source own).next = e.next + own.length + 1 := rfl
    have hmem {x : String × Instance Document} :=
      Session.mem_entries_stored vacant e.next own (x := x)
    have hlow := h.low_le
    rw [call]
    refine ⟨by simp only [hnext]; omega, ?_, ?_⟩
    · intro x hx
      rcases hmem.mp hx with hx | rfl
      · have := h.bounds x hx
        simp only [hnext]
        omega
      · simp only [hnew, hnext]
        omega
    · intro x hx y hy hid
      rcases hmem.mp hx with hx | rfl <;> rcases hmem.mp hy with hy | rfl
      · exact h.distinct x hx y hy hid
      · have := (h.bounds x hx).2
        simp only [hnew] at hid
        omega
      · have := (h.bounds y hy).2
        simp only [hnew] at hid
        omega
      · rfl
  | kept next notReset le call reply =>
    rw [call]
    refine ⟨Nat.le_trans h.low_le le, ?_, h.distinct⟩
    intro x hx
    have := h.bounds x hx
    exact ⟨this.1, Nat.lt_of_lt_of_le this.2 le⟩

theorem Numbered.run (h : e.Numbered low) (calls : List Call) : (e.run calls).Numbered low :=
  run_induction (P := Numbered low) h fun c _ _ hx => hx.call c

/-- The number of an answer lies between `low` and the counter behind the call. -/
theorem Numbered.bounds_of_answers (h : e.Numbered low) {source : Source} {r : Reply}
    (hr : Answers e c source r) : low ≤ r.document.id ∧ r.document.id < (e.call c).next :=
  (h.call c).bounds _ (Cache.mem_of_get? (get?_of_answers hr))

/-- A cached document is answered exactly for its own key. -/
theorem Numbered.id_eq_iff_of_cached (h : e.Numbered low) (hd : e.session.cache.get? k = some d)
    {source : Source} {r : Reply} (hr : Answers e c source r) :
    d.id = r.document.id ↔ k = key source.assembled := by
  have hc : c ≠ .reset := by
    rintro rfl
    cases hr.called
  have hbefore := get?_call_of_some hd hc
  have hafter := get?_of_answers hr
  constructor
  · intro hid
    have he := (h.call c).distinct _ (Cache.mem_of_get? hbefore) _ (Cache.mem_of_get? hafter) hid
    exact congrArg Prod.fst he
  · rintro rfl
    rw [Option.some.inj (hbefore.symm.trans hafter)]

/-- A later answer is the same document exactly if it is asked for under the same key and the
session was not reset in between. -/
theorem Numbered.id_eq_iff (h : e.Numbered low) {c' : Call} {between : List Call}
    {source source' : Source} {r r' : Reply} (hr : Answers e c source r)
    (hr' : Answers (e.run (c :: between)) c' source' r') :
    r.document.id = r'.document.id ↔
      key source.assembled = key source'.assembled ∧ .reset ∉ between := by
  by_cases hreset : .reset ∈ between
  · -- what is answered behind the reset has a number above all that were given out before it
    obtain ⟨front, behind, rfl⟩ := List.append_of_mem hreset
    have hsplit : e.run (c :: (front ++ .reset :: behind)) =
        (((e.call c).run front).call .reset).run behind := run_append (e.call c) front _
    rw [hsplit] at hr'
    have hfirst := (h.bounds_of_answers hr).2
    have hcounter : (e.call c).next ≤ (((e.call c).run front).call .reset).next :=
      next_le_run (e.call c) front
    have hempty : (((e.call c).run front).call .reset).session.cache = .empty := rfl
    have hsecond := (((numbered_of_empty hempty).run behind).bounds_of_answers hr').1
    have hne : r.document.id ≠ r'.document.id := by omega
    simp [hne]
  · have hcached := get?_run_of_answers hr hreset
    have hiff := ((h.call c).run between).id_eq_iff_of_cached hcached hr'
    simp [hiff, hreset]

/-! ## Keys -/

/-- The key that is answered by a call. -/
def key? (e : Engine) (c : Call) : Option String :=
  if (e.reply? c).isSome then c.source?.map fun s => key s.assembled else none

/-- The keys that were answered since the last reset, when a call is made behind `keys`. -/
def keysBehind (e : Engine) (keys : List String) : Call → List String
  | .reset => []
  | c => keys ++ (e.key? c).toList

/-- The keys that were answered since the last reset, in order, when a run is made behind `keys`. -/
def answeredKeys (e : Engine) (keys : List String) : List Call → List String
  | [] => keys
  | c :: cs => (e.call c).answeredKeys (e.keysBehind keys c) cs

theorem keysBehind_of_ne {keys : List String} (h : c ≠ .reset) :
    e.keysBehind keys c = keys ++ (e.key? c).toList := by
  cases c <;> first | rfl | exact absurd rfl h

theorem keysBehind_of_reply {keys : List String} {source : Source} (hs : c.source? = some source)
    (hr : (e.reply? c).isSome = true) : e.keysBehind keys c = keys ++ [key source.assembled] := by
  have hc : c ≠ .reset := by
    rintro rfl
    cases hs
  simp [keysBehind_of_ne hc, key?, hr, hs]

/-- An element that is added behind a list counts if it is new. -/
theorem eraseDups_concat (keys : List String) (k : String) :
    (keys ++ [k]).eraseDups = if k ∈ keys then keys.eraseDups else keys.eraseDups ++ [k] := by
  split <;> simp_all [List.eraseDups_append, List.eraseDups_cons, List.removeAll]

/-- A call keeps the cache to the keys that were answered, each listed once. -/
theorem keys_call {keys : List String} (h : e.session.cache.keys = keys.eraseDups) (c : Call) :
    (e.call c).session.cache.keys = (e.keysBehind keys c).eraseDups := by
  have hmem (k : String) : k ∈ keys ↔ k ∈ e.session.cache.keys := by simp [h]
  cases e.effect c with
  | reset isReset call reply => rw [call, isReset]; rfl
  | hit source d called cached call reply =>
    have hk : key source.assembled ∈ keys :=
      (hmem _).mpr (List.mem_map_of_mem (Cache.mem_of_get? cached))
    rw [call, keysBehind_of_reply called (by simp [reply]), eraseDups_concat, if_pos hk, h]
  | stored source own called vacant read call reply =>
    have hk : key source.assembled ∉ keys := by
      rwa [hmem, ← Cache.get?_eq_none_iff]
    rw [call, keysBehind_of_reply called (by simp [reply]), eraseDups_concat, if_neg hk, ← h]
    simp [Session.cache_stored vacant, Cache.keys]
  | kept next notReset le call reply =>
    rw [call, keysBehind_of_ne notReset]
    simp [key?, reply, h]

/-- The cache holds the keys that were answered since the last reset, in the order of their first
answers. -/
theorem keys_run {keys : List String} (h : e.session.cache.keys = keys.eraseDups)
    (calls : List Call) :
    (e.run calls).session.cache.keys = (e.answeredKeys keys calls).eraseDups := by
  induction calls generalizing e keys with
  | nil => exact h
  | cons c calls ih => exact ih (keys_call h c)

end Engine

/-! ## Runs -/

open Engine in
/-- Two answers of a run are one document exactly if they are answers to one key without a reset in
between, a call whose key is in the cache leaves the engine as it is and warns of nothing, and as
many documents are in the cache as keys were answered since the last reset. -/
theorem stable_run (settings : Settings) (next : Nat) (calls : List Call) :
    (∀ before c between c' source source' r r',
      Answers ((start settings next).run before) c source r →
      Answers ((start settings next).run (before ++ c :: between)) c' source' r' →
      (r.document.id = r'.document.id ↔
        key source.assembled = key source'.assembled ∧ .reset ∉ between) ∧
      (r.document.id = r'.document.id → r.document = r'.document)) ∧
    (∀ c source d, c.source? = some source →
      ((start settings next).run calls).session.cache.get? (key source.assembled) = some d →
      ((start settings next).run calls).call c = (start settings next).run calls ∧
      ∃ r, Answers ((start settings next).run calls) c source r ∧ r.document = d ∧
        r.warnings = []) ∧
    ((start settings next).run calls).session.cache.size =
      ((start settings next).answeredKeys [] calls).eraseDups.length := by
  have hnumbered (cs : List Call) : ((start settings next).run cs).Numbered next :=
    (numbered_of_empty (e := start settings next) rfl).run cs
  refine ⟨?_, ?_, ?_⟩
  · intro before c between c' source source' r r' hr hr'
    rw [run_append] at hr'
    have hid := (hnumbered before).id_eq_iff hr hr'
    refine ⟨hid, ?_⟩
    intro h
    obtain ⟨hkey, hreset⟩ := hid.mp h
    exact document_eq_of_key_eq hr hr' hkey hreset
  · intro c source d hs hd
    obtain ⟨hsame, hreply⟩ := call_of_cached hs hd
    exact ⟨hsame, _, ⟨hs, hreply⟩, rfl, rfl⟩
  · have hkeys : ((start settings next).run calls).session.cache.keys =
        ((start settings next).answeredKeys [] calls).eraseDups := keys_run rfl calls
    rw [← hkeys, Cache.keys, List.length_map]
    rfl

/-- Texts that differ in their spaces share a document until the session is reset, and the second of
them leaves the engine as it is. -/
theorem document_of_spacing : ∃ r r' r'',
    Answers (.start {} 0) (.text "\x7b a \x7d") (.ofText "\x7b a \x7d") r ∧
    Answers ((Engine.start {} 0).run [.text "\x7b a \x7d"])
      (.text "\x7ba\x7d") (.ofText "\x7ba\x7d") r' ∧
    Answers ((Engine.start {} 0).run [.text "\x7b a \x7d", .text "\x7ba\x7d", .reset])
      (.text "\x7ba\x7d") (.ofText "\x7ba\x7d") r'' ∧
    r.document = r'.document ∧ r.document.id ≠ r''.document.id ∧
    ((Engine.start {} 0).run [.text "\x7b a \x7d"]).call (.text "\x7ba\x7d") =
      (Engine.start {} 0).run [.text "\x7b a \x7d"] := by
  have h : ((Engine.start {} 0).reply? (.text "\x7b a \x7d")).isSome = true ∧
      (((Engine.start {} 0).run [.text "\x7b a \x7d"]).reply? (.text "\x7ba\x7d")).isSome = true ∧
      (((Engine.start {} 0).run [.text "\x7b a \x7d", .text "\x7ba\x7d", .reset]).reply?
        (.text "\x7ba\x7d")).isSome = true ∧
      key (Source.ofText "\x7b a \x7d").assembled = key (Source.ofText "\x7ba\x7d").assembled := by
    decide +kernel
  obtain ⟨h, h', h'', hkey⟩ := h
  obtain ⟨r, hr⟩ := Option.isSome_iff_exists.mp h
  obtain ⟨r', hr'⟩ := Option.isSome_iff_exists.mp h'
  obtain ⟨r'', hr''⟩ := Option.isSome_iff_exists.mp h''
  have hpairs := (stable_run {} 0 []).1 []
  obtain ⟨hid, hsame⟩ := hpairs _ [] _ _ _ r r' ⟨rfl, hr⟩ ⟨rfl, hr'⟩
  obtain ⟨hid', -⟩ := hpairs _ [.text "\x7ba\x7d", .reset] _ _ _ r r'' ⟨rfl, hr⟩ ⟨rfl, hr''⟩
  have hfirst : Answers (.start {} 0) (.text "\x7b a \x7d") (.ofText "\x7b a \x7d") r := ⟨rfl, hr⟩
  have hcached := Engine.get?_of_answers hfirst
  rw [hkey] at hcached
  have hhit := ((stable_run {} 0 [.text "\x7b a \x7d"]).2.1 (.text "\x7ba\x7d") _ _ rfl hcached).1
  refine ⟨r, r', r'', hfirst, ⟨rfl, hr'⟩, ⟨rfl, hr''⟩, hsame (hid.mpr ⟨hkey, by simp⟩), ?_, hhit⟩
  intro he
  simpa using (hid'.mp he).2

end QueryDoc
