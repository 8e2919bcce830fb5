import QueryDoc.Proofs.Session.Embedding
import QueryDoc.Proofs.Session.Stability
import QueryDoc.Proofs.Session.Transparency

/-!
# Toggles

Of all calls that switch fragment variables on or off the last one counts (`variables_run`), and it
decides how a text is read that is not in the cache. The cache knows texts by their keys alone: what
was answered before stays the answer under any later setting, until the session is reset.
-/
namespace QueryDoc

/-- What a call sets fragment variables to. -/
def Call.variables? : Call → Option Bool
  | setVariables on => some on
  | _ => none

theorem Call.variables?_eq_some {c : Call} {on : Bool} (h : c.variables? = some on) :
    c = .setVariables on := by
  cases c with
  | setVariables b => cases h; rfl
  | source s | file v path | reset | setWarnings b | elsewhere count => cases h

theorem Call.variables_settings (c : Call) (s : Settings) :
    (c.settings s).fragmentVariables = c.variables?.getD s.fragmentVariables := by
  cases c <;> rfl

namespace Engine

/-- Are fragment variables on? -/
def TakesVariables (e : Engine) : Prop := e.session.settings.fragmentVariables = true

/-- The last call that switches fragment variables counts. -/
theorem variables_run (e : Engine) (calls : List Call) :
    (e.run calls).session.settings.fragmentVariables =
      (calls.reverse.findSome? Call.variables?).getD e.session.settings.fragmentVariables := by
  induction calls generalizing e with
  | nil => rfl
  | cons c calls ih =>
    have hrest := ih (e.call c)
    rw [settings_call, Call.variables_settings] at hrest
    rw [List.reverse_cons, List.findSome?_append, List.findSome?_singleton]
    refine hrest.trans ?_
    cases calls.reverse.findSome? Call.variables? <;> rfl

/-- Fragment variables that were on and are off were switched off. -/
theorem mem_of_takesVariables {e : Engine} {calls : List Call} (hon : e.TakesVariables)
    (hoff : ¬ (e.run calls).TakesVariables) : .setVariables false ∈ calls := by
  unfold TakesVariables at hon hoff
  rw [variables_run, hon] at hoff
  cases hlast : calls.reverse.findSome? Call.variables? with
  | none =>
    rw [hlast] at hoff
    exact absurd rfl hoff
  | some on =>
    rw [hlast] at hoff
    obtain ⟨c, hc, hon⟩ := List.exists_of_findSome?_eq_some hlast
    rw [Call.variables?_eq_some hon] at hc
    cases on with
    | true => exact absurd rfl hoff
    | false => exact List.mem_reverse.mp hc

end Engine

theorem Session.parse_ofText_of_none {s : Session} {text : String}
    (h : s.cache.get? (key text) = none) (next : Nat) :
    s.parse next (.ofText text) =
      (QueryDoc.parse s.settings.parseOptions text).map (s.stored next (.ofText text)) := by
  have hnone : s.cache.get? (key (Source.ofText text).assembled) = none := by
    rwa [Source.assembled_ofText]
  rw [parse_of_none hnone, parsePrimary_ofText]

theorem Session.parse_ofText_of_some {s : Session} {text : String} {d : Instance Document}
    (h : s.cache.get? (key text) = some d) (next : Nat) :
    s.parse next (.ofText text) = .ok ⟨d, s, next, []⟩ := by
  apply parse_of_some
  rwa [Source.assembled_ofText]

open Engine

variable {settings : Settings} {next : Nat} {calls : List Call} {text : String}

/-- A key is vacant exactly if it was not answered since the last reset. -/
theorem get?_run_eq_none_iff {k : String} :
    ((start settings next).run calls).session.cache.get? k = none ↔
      k ∉ (start settings next).answeredKeys [] calls := by
  have hkeys : ((start settings next).run calls).session.cache.keys =
      ((start settings next).answeredKeys [] calls).eraseDups := keys_run rfl calls
  rw [Cache.get?_eq_none_iff, hkeys, List.mem_eraseDups]

theorem parse_of_not_takesVariables {e : Engine} (h : ¬ e.TakesVariables) (text : String) :
    parse e.session.settings.parseOptions text = parse ⟨false⟩ text := by
  rw [Settings.parseOptions, Bool.eq_false_iff.mpr h]

/-- A text that is in the cache though it is refused without fragment variables was stored while
they were on, and they were switched off since. -/
theorem StoredBy.switched_off {failure : ParseFailure} {k : String} {d : Instance Document}
    {own : List Definition} {before after : List Call} {c : Call}
    (h : StoredBy (start settings next) calls k d (.ofText text) own before after c)
    (hrefused : parse ⟨false⟩ text = .error failure)
    (hoff : ¬ ((start settings next).run calls).TakesVariables) :
    ((start settings next).run before).TakesVariables ∧ .setVariables false ∈ after := by
  have hthen : ((start settings next).run before).TakesVariables := by
    by_contra hnot
    have hread := h.read
    rw [Session.parsePrimary_ofText, parse_of_not_takesVariables hnot, hrefused] at hread
    cases hread
  have hbehind : (((start settings next).run before).call c).TakesVariables := by
    unfold TakesVariables
    rw [settings_call, Call.settings_of_source? h.called]
    exact hthen
  rw [h.split, run_append] at hoff
  exact ⟨hthen, mem_of_takesVariables hbehind hoff⟩

/-- While fragment variables are off, a text that is refused without them is refused exactly if no
source with its key was answered since the last reset. What it is answered else is the document that
some call has stored since: if that call parsed this very text, fragment variables were on then and
were switched off after it. -/
theorem refused_iff_unanswered {failure : ParseFailure}
    (hoff : ¬ ((start settings next).run calls).TakesVariables)
    (hrefused : parse ⟨false⟩ text = .error failure) :
    (((start settings next).run calls).session.parse ((start settings next).run calls).next
      (.ofText text) = .error failure ↔ key text ∉ (start settings next).answeredKeys [] calls) ∧
    ∀ r, ((start settings next).run calls).session.parse ((start settings next).run calls).next
        (.ofText text) = .ok r →
      ∃ source own before after c,
        StoredBy (start settings next) calls (key text) r.document source own before after c ∧
        (source = .ofText text → ((start settings next).run before).TakesVariables ∧
          .setVariables false ∈ after) := by
  rw [← get?_run_eq_none_iff]
  cases hget : ((start settings next).run calls).session.cache.get? (key text) with
  | none =>
    rw [Session.parse_ofText_of_none hget, parse_of_not_takesVariables hoff, hrefused]
    refine ⟨iff_of_true rfl rfl, ?_⟩
    intro r hr
    cases hr
  | some d =>
    rw [Session.parse_ofText_of_some hget]
    refine ⟨iff_of_false (by simp) (by simp), ?_⟩
    intro r hr
    cases hr
    obtain ⟨source, own, before, after, c, hstored⟩ := get?_run_iff.mp hget
    refine ⟨source, own, before, after, c, hstored, ?_⟩
    rintro rfl
    exact hstored.switched_off hrefused hoff

/-- A fragment that declares a variable. -/
def declaring (name : String) : String :=
  "fragment " ++ name ++ "($arg: String!) on Type \x7b f \x7d"

/-- Fragment variables are switched on for one text. -/
def switchedOff : List Call := [.setVariables true, .text (declaring "A"), .setVariables false]

/-- The syntax error of a refusal. -/
def syntaxError? {α : Type} : Except ParseFailure α → Option SyntaxError
  | .error (.error e) => some e
  | _ => none

theorem exists_syntaxError {α : Type} {x : Except ParseFailure α}
    (h : (syntaxError? x).isSome = true) : ∃ e, x = .error (.error e) := by
  match x with
  | .error (.error e) => exact ⟨e, rfl⟩
  | .error .abort | .ok a => cases h

/-- A text that was not parsed before they were switched off is refused. -/
theorem refused_of_unanswered : ¬ ((start {} 0).run switchedOff).TakesVariables ∧
    ∃ e, parse ⟨false⟩ (declaring "B") = .error (.error e) ∧
      ((start {} 0).run switchedOff).session.parse ((start {} 0).run switchedOff).next
        (.ofText (declaring "B")) = .error (.error e) := by
  have hoff : ¬ ((start {} 0).run switchedOff).TakesVariables := by
    unfold TakesVariables
    decide +kernel
  obtain ⟨e, hrefused⟩ : ∃ e, parse ⟨false⟩ (declaring "B") = .error (.error e) :=
    exists_syntaxError (by decide +kernel)
  refine ⟨hoff, e, hrefused, (refused_iff_unanswered hoff hrefused).1.mpr ?_⟩
  decide +kernel

/-- A text that was parsed before they were switched off is still answered, though it is refused
without them. -/
theorem exists_answer_of_refused : ¬ ((start {} 0).run switchedOff).TakesVariables ∧
    (∃ e, parse ⟨false⟩ (declaring "A") = .error (.error e)) ∧
    ∃ r, ((start {} 0).run switchedOff).session.parse ((start {} 0).run switchedOff).next
      (.ofText (declaring "A")) = .ok r := by
  refine ⟨?_, exists_syntaxError (by decide +kernel), ?_⟩
  · unfold TakesVariables
    decide +kernel
  · have hanswered : (((start {} 0).run switchedOff).session.parse
        ((start {} 0).run switchedOff).next (.ofText (declaring "A"))).toOption.isSome = true := by
      decide +kernel
    obtain ⟨r, hr⟩ := Option.isSome_iff_exists.mp hanswered
    exact ⟨r, toOption_eq_some hr⟩

end QueryDoc
