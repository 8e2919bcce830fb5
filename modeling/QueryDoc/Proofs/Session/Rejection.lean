import QueryDoc.Proofs.Document.Rejection
import QueryDoc.Proofs.Session.Toggles

/-!
# Texts with error tokens

A text with an error token is refused, and a call that parses it stores nothing (`fault_rejected`).
This goes for the first error token of a text, and for all kinds of them but one: a string that is
cut at a carriage return, which the grammar reads on behind it.
-/
namespace QueryDoc

open QueryDoc.Lexis QueryDoc.Grammar

/-- The first error token of a text is its first faulty word. -/
theorem exists_firstFault {text : List Char} {t : Token}
    (h : (tokens text).find? (·.kind.isError) = some t) :
    ∃ w, firstFault? (words text) = some w ∧ w.bare = t.bare := by
  have hsignificant (t : Token) (ht : t.kind.isError = true) : t.isSignificant = true := by
    cases hk : t.kind with
    | eof => rw [hk] at ht; cases ht
    | _ => simp [Token.isSignificant, hk]
  have hfilter : (significant text).find? (·.kind.isError) = some t := by
    rw [significant, List.find?_filter, ← h]
    congr 1
    funext t
    by_cases ht : t.kind.isError = true <;> simp [ht, hsignificant]
  have hbares := congrArg (List.find? (·.1.isError)) (map_bare_significant text)
  rw [bares, List.find?_map, List.find?_map] at hbares
  obtain ⟨w, hw, hbare⟩ := Option.map_eq_some_iff.mp
    (hbares.symm.trans (congrArg (Option.map Token.bare) hfilter))
  exact ⟨w, hw, hbare⟩

/-- The text is refused with its first error token, unless this is a string that is cut at a
carriage return, and no call that parses the text stores anything. -/
theorem fault_rejected {text : String} {t : Token}
    (ht : (tokens text.toList).find? (·.kind.isError) = some t) (hcut : ¬ CutAtReturn t.bare) :
    (∀ o, ∃ failure, parse o text = .error failure) ∧
      ∀ (e : Engine) (c : Call), c.source? = some (.ofText text) →
        (e.call c).session.cache = e.session.cache := by
  obtain ⟨w, hw, hbare⟩ := exists_firstFault ht
  have hrefused := exists_failure_of_firstFault hw (hbare ▸ hcut)
  refine ⟨hrefused, ?_⟩
  intro e c hc
  cases e.effect c with
  | reset isReset call reply => rw [isReset] at hc; cases hc
  | hit source d called cached call reply => rw [call]
  | stored source own called vacant read call reply =>
    obtain rfl : source = .ofText text := Option.some.inj (called.symm.trans hc)
    obtain ⟨failure, hfailure⟩ := hrefused e.session.settings.parseOptions
    rw [Session.parsePrimary_ofText, hfailure] at read
    cases read
  | kept next notReset le call reply => rw [call]

/-- An exponent that is a sign alone, in a default value of a fragment's variable. -/
theorem fault_rejected_exponent :
    ∃ t, (tokens "fragment F($a: Float = 1e+) on T \x7b y \x7d".toList).find? (·.kind.isError) =
        some t ∧ t.bare = (.error .emptyExponent, "1e+".toList) ∧
      ∃ failure, parse ⟨true⟩ "fragment F($a: Float = 1e+) on T \x7b y \x7d" = .error failure := by
  have hfirst : ((tokens "fragment F($a: Float = 1e+) on T \x7b y \x7d".toList).find?
      (·.kind.isError)).map Token.bare = some (.error .emptyExponent, "1e+".toList) := by
    decide +kernel
  obtain ⟨t, ht, hbare⟩ := Option.map_eq_some_iff.mp hfirst
  have hcut : ¬ CutAtReturn t.bare := by
    rintro ⟨hkind, -⟩
    rw [hbare] at hkind
    cases hkind
  exact ⟨t, ht, hbare, (fault_rejected ht hcut).1 ⟨true⟩⟩

/-- A string that is cut at a carriage return is an error token, but its text is accepted. -/
theorem exists_parse_of_brokenString :
    (∃ t ∈ tokens "\x7b y(a: \"x\ry\") \x7d".toList, t.kind.isError = true) ∧
      ∀ o, ∃ ds, parse o "\x7b y(a: \"x\ry\") \x7d" = .ok ds := by
  refine ⟨?_, fun o => ?_⟩
  · have herror : (tokens "\x7b y(a: \"x\ry\") \x7d".toList).any (·.kind.isError) = true := by
      decide +kernel
    exact List.any_eq_true.mp herror
  · apply exists_parse_of_isSome
    obtain ⟨_ | _⟩ := o <;> decide +kernel

end QueryDoc
