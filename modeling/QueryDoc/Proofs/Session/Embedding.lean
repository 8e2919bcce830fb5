import Mathlib.Data.List.Induction
import QueryDoc.Proofs.Session.Run

/-!
# Embedded fragments

A document that is in the cache was stored by one call (`get?_run_iff`), and holds the fragments of
the source of that call. Another source with the same key may embed other documents: their fragments
are kept if the source is stored itself, or if the source that was stored has fragments like them.
-/
namespace QueryDoc

open Merge (Has)

/-- The call that stored the document under the key, with the source and the definitions of its own
text. The session was not reset since. -/
structure StoredBy (e : Engine) (calls : List Call) (k : String) (d : Instance Document)
    (source : Source) (own : List Definition) (before after : List Call) (c : Call) : Prop where
  split : calls = before ++ c :: after
  called : c.source? = some source
  kept : ∀ x ∈ after, x ≠ .reset
  key : key source.assembled = k
  vacant : (e.run before).session.cache.get? k = none
  read : (e.run before).session.parsePrimary source = .ok own
  document : d = ((e.run before).session.stored (e.run before).next source own).document

namespace Engine

/-- What is in the cache behind a call was there, or the call has stored it. -/
theorem get?_call_cases {e : Engine} {k : String} {d : Instance Document} {c : Call}
    (h : (e.call c).session.cache.get? k = some d) :
    c ≠ .reset ∧ (e.session.cache.get? k = some d ∨
      ∃ source own, StoredBy e [c] k d source own [] [] c) := by
  rcases e.call_cases c with ⟨-, he⟩ | ⟨source, own, hs, hnone, hown, he⟩ | ⟨hc, settings, next, he⟩
  · rw [he] at h
    cases h
  · have hc : c ≠ .reset := by
      rintro rfl
      cases hs
    refine ⟨hc, ?_⟩
    rw [he] at h
    dsimp only at h
    rw [Session.get?_stored hnone, Option.or_eq_some_iff] at h
    rcases h with h | ⟨-, h⟩
    · exact .inl h
    · split at h
      · subst k
        exact .inr ⟨source, own, rfl, hs, by simp, rfl, hnone, hown, (Option.some.inj h).symm⟩
      · cases h
  · rw [he] at h
    exact ⟨hc, .inl h⟩

end Engine

/-- A document is in the cache exactly if a call stored it and the session was not reset since. -/
theorem get?_run_iff {settings : Settings} {next : Nat} {calls : List Call} {k : String}
    {d : Instance Document} :
    ((Engine.start settings next).run calls).session.cache.get? k = some d ↔
      ∃ source own before after c,
        StoredBy (.start settings next) calls k d source own before after c := by
  constructor
  · intro h
    induction calls using List.reverseRecOn with
    | nil => cases h
    | append_singleton calls c ih =>
      rw [Engine.run_concat] at h
      obtain ⟨hc, h | ⟨source, own, hs⟩⟩ := Engine.get?_call_cases h
      · obtain ⟨source, own, before, after, c', hstored⟩ := ih h
        refine ⟨source, own, before, after ++ [c], c', ⟨?_, hstored.called, ?_, hstored.key,
          hstored.vacant, hstored.read, hstored.document⟩⟩
        · rw [hstored.split, List.append_assoc]
          rfl
        · rw [List.forall_mem_append]
          exact ⟨hstored.kept, by simpa using hc⟩
      · exact ⟨source, own, calls, [], c, rfl, hs.called, by simp, hs.key, hs.vacant, hs.read,
          hs.document⟩
  · rintro ⟨source, own, before, after, c, h⟩
    rw [h.split, Engine.run_append]
    refine Engine.get?_run_of_some (e := ((Engine.start settings next).run before).call c) ?_ h.kept
    have hvacant := h.vacant
    rw [← h.key] at hvacant
    rw [Engine.call_of_vacant h.called hvacant h.read]
    dsimp only
    rw [Session.get?_stored hvacant, h.vacant, if_pos h.key.symm, h.document]
    rfl

/-! ## Fragments of a source -/

/-- A source has a fragment like the given one, in its own text or in a document that it embeds. -/
def Source.Contributes (source : Source) (own : List Definition) (f : Fragment) : Prop :=
  (∃ g, .fragment g ∈ own ∧ g.alike f = true) ∨
    ∃ d ∈ source.embedded, ∃ g ∈ d.value.fragments, g.value.alike f = true

/-- No fragment of the documents that a source embeds is lost among the given fragments. -/
def Source.EmbedsInto (source : Source) (fs : List (Instance Fragment)) : Prop :=
  ∀ d ∈ source.embedded, ∀ f ∈ d.value.fragments, Has fs f.value

theorem has_instances {next : Nat} {own : List Definition} {f : Fragment} :
    Has (fragmentsIn (instances next own)) f ↔ ∃ g, .fragment g ∈ own ∧ g.alike f = true := by
  constructor
  · rintro ⟨g, hg, halike⟩
    obtain ⟨n, hn, hgn⟩ := List.mem_filterMap.mp hg
    obtain ⟨i, hi, rfl⟩ := List.mem_mapIdx.mp hn
    cases hown : own[i] with
    | operation o => rw [hown] at hgn; cases hgn
    | fragment x =>
      rw [hown] at hgn
      cases hgn
      exact ⟨x, hown ▸ List.getElem_mem hi, halike⟩
  · rintro ⟨g, hg, halike⟩
    obtain ⟨i, hi, hown⟩ := List.getElem_of_mem hg
    refine ⟨⟨next + i, g⟩, List.mem_filterMap.mpr ⟨_, List.mem_mapIdx.mpr ⟨i, hi, rfl⟩, ?_⟩, halike⟩
    rw [hown]
    rfl

theorem has_combine {next : Nat} {own : List Definition} {source : Source} {f : Fragment} :
    Has (fragmentsIn (Session.combine next own source)) f ↔ source.Contributes own f := by
  unfold Session.combine
  rw [fragmentsIn, List.filterMap_append, Merge.has_append]
  refine or_congr has_instances ?_
  unfold Has
  simp only [List.filterMap_flatMap, List.mem_flatMap]
  constructor
  · rintro ⟨g, ⟨d, hd, hg⟩, halike⟩
    exact ⟨d, hd, g, hg, halike⟩
  · rintro ⟨d, hd, g, hg, halike⟩
    exact ⟨g, ⟨d, hd, hg⟩, halike⟩

/-- A stored document has the fragments that its source contributes. -/
theorem has_stored {s : Session} {next : Nat} {source : Source} {own : List Definition}
    {f : Fragment} : Has (s.stored next source own).document.value.fragments f ↔
      source.Contributes own f :=
  (Merge.has_all s.registry _ f).trans has_combine

theorem embedsInto_stored (s : Session) (next : Nat) (source : Source) (own : List Definition) :
    source.EmbedsInto (s.stored next source own).document.value.fragments :=
  fun d hd f hf => has_stored.mpr (.inr ⟨d, hd, f, hf, f.value.alike_refl⟩)

/-- No embedded fragment is lost exactly if the source is stored by this very call, or the source
that was stored under its key contributes a fragment like each of them. -/
theorem keeps_embedded_iff {settings : Settings} {next : Nat} {calls : List Call} {source : Source}
    {r : Reply} (h : ((Engine.start settings next).run calls).session.parse
      ((Engine.start settings next).run calls).next source = .ok r) :
    source.EmbedsInto r.document.value.fragments ↔
      ((Engine.start settings next).run calls).session.cache.get? (key source.assembled) = none ∨
      ∃ stored own before after c, StoredBy (.start settings next) calls (key source.assembled)
        r.document stored own before after c ∧
        ∀ d ∈ source.embedded, ∀ f ∈ d.value.fragments, stored.Contributes own f.value := by
  rcases Session.parse_cases h with ⟨hget, -⟩ | ⟨own, hnone, -, hr⟩
  · have hstored {stored own before after c} (hs : StoredBy (.start settings next) calls
        (key source.assembled) r.document stored own before after c) (f : Fragment) :
        Has r.document.value.fragments f ↔ stored.Contributes own f := by
      rw [hs.document]
      exact has_stored
    rw [hget]
    constructor
    · intro hkeeps
      obtain ⟨stored, own, before, after, c, hs⟩ := get?_run_iff.mp hget
      exact .inr ⟨stored, own, before, after, c, hs, fun d hd f hf =>
        (hstored hs f.value).mp (hkeeps d hd f hf)⟩
    · rintro (hnone | ⟨stored, own, before, after, c, hs, hall⟩)
      · cases hnone
      · exact fun d hd f hf => (hstored hs f.value).mpr (hall d hd f hf)
  · rw [hr]
    exact ⟨fun _ => .inl hnone, fun _ => embedsInto_stored _ _ _ _⟩

/-- A text with a document behind it. -/
def Source.followedBy (text : String) (d : Instance Document) : Source :=
  ⟨[.literal text, .value (.document d)]⟩

/-- A document with a fragment is stored, and one without it. -/
def twoTexts : List Call := [.text "fragment F on T \x7b x \x7d", .text "\x7b a \x7d"]

/-- The reply to the first of them. -/
def fragmentReply : Except ParseFailure Reply :=
  (Engine.start {} 0).session.parse 0 (.ofText "fragment F on T \x7b x \x7d")

/-- The reply to a text with a document behind it, after both. -/
def replyAfter (text : String) (d : Instance Document) : Except ParseFailure Reply :=
  ((Engine.start {} 0).run twoTexts).session.parse ((Engine.start {} 0).run twoTexts).next
    (.followedBy text d)

/-- A fragment is kept where its document is embedded in a new source. -/
theorem exists_kept_fragment : ∃ f r, fragmentReply = .ok f ∧
    replyAfter "\x7b ...F \x7d " f.document = .ok r ∧
    (Source.followedBy "\x7b ...F \x7d " f.document).EmbedsInto r.document.value.fragments := by
  have h : fragmentReply.toOption.any (fun f =>
      (replyAfter "\x7b ...F \x7d " f.document).toOption.isSome &&
        (((Engine.start {} 0).run twoTexts).session.cache.get?
          (key (Source.followedBy "\x7b ...F \x7d " f.document).assembled)).isNone) = true := by
    decide +kernel
  simp only [Option.any_eq_true, Bool.and_eq_true, Option.isSome_iff_exists,
    Option.isNone_iff_eq_none] at h
  obtain ⟨f, hf, ⟨r, hr⟩, hnone⟩ := h
  exact ⟨f, r, toOption_eq_some hf, toOption_eq_some hr,
    (keeps_embedded_iff (toOption_eq_some hr)).mpr (.inl hnone)⟩

/-- A fragment is lost where its document is embedded in a comment: the source has the key of the
text in front, which was stored without the fragment. -/
theorem exists_lost_fragment : ∃ f r, fragmentReply = .ok f ∧
    replyAfter "\x7b a \x7d # " f.document = .ok r ∧
    ¬ (Source.followedBy "\x7b a \x7d # " f.document).EmbedsInto r.document.value.fragments := by
  have h : fragmentReply.toOption.any (fun f =>
      (replyAfter "\x7b a \x7d # " f.document).toOption.any fun r =>
        !f.document.value.fragments.isEmpty && r.document.value.fragments.isEmpty) = true := by
    decide +kernel
  simp only [Option.any_eq_true, Bool.and_eq_true, Bool.not_eq_true', List.isEmpty_iff,
    List.isEmpty_eq_false_iff_exists_mem] at h
  obtain ⟨f, hf, r, hr, ⟨g, hg⟩, hnone⟩ := h
  refine ⟨f, r, toOption_eq_some hf, toOption_eq_some hr, fun hkept => ?_⟩
  obtain ⟨x, hx, -⟩ := hkept f.document (List.mem_singleton_self _) g hg
  rw [hnone] at hx
  cases hx

end QueryDoc
