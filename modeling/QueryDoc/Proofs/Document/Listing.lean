import QueryDoc.Proofs.Document.Declared
import QueryDoc.Proofs.Document.Standing

/-!
# Lists of variables

A text lists variables if it is what stands between the brackets of a query that declares them. Put
in brackets it is a group of its own if the brackets in it are nested (`ListsVariables.ignorable`).
Otherwise the query closes its brackets within the text, and something that is no name stands behind
them (`ListsVariables.exists_behind`).
-/
namespace QueryDoc

open QueryDoc.Lexis QueryDoc.Grammar

/-! ## Brackets behind a text -/

namespace Lexis

/-- The end of a text: ignored text behind its last word, which may end in a comment. In front of a
bracket, the words are the same as on their own. -/
structure Gap (s front gap : List Char) : Prop where
  text : s = front ++ gap
  cases : Ignorable gap ∨ ∀ y, dropIgnored false (gap ++ y) = dropIgnored true y
  takes : ∀ d, (Punctuator.ofChar? d).isSome = true → ∀ x,
    Takes (words s) (front ++ (gap ++ d :: x)) (gap ++ d :: x)

theorem exists_gap {s : List Char} (h : Faultless (words s)) : ∃ front gap, Gap s front gap := by
  obtain ⟨gap, htakes, hgap⟩ := exists_takes (List.append_nil (words s)).symm
  obtain ⟨front, rfl⟩ := htakes.exists_append
  have hnil : dropIgnored false gap = [] := by
    by_contra hne
    obtain ⟨c, t, hc⟩ := List.exists_cons_of_ne_nil hne
    rw [words_of_dropIgnored_cons hc] at hgap
    cases hgap
  refine ⟨front, gap, rfl, dropIgnored_append_of_nil hnil, fun d hd x => ?_⟩
  have hdigit : d.isDigit = false := extends_isDigit d (FrameText.mem_isolators_of_ofChar? hd)
  refine htakes.replace rfl ?_ fun w hw => ?_
  · cases gap with
    | nil => simp [hdigit]
    | cons a gap => exact fun h => h
  · cases gap with
    | nil =>
      have hkind : w.kind.isError = false := h w (List.mem_of_getLast? hw)
      refine ⟨.inl (ends_of_isError_eq_false hkind (by simp [isolates, hd]) x), fun _ => ?_⟩
      simp [runsOn, Grammar.isDelimiter, hd]
    | cons a gap =>
      refine ⟨.inr ?_, fun _ => rfl⟩
      have hlooks : Looks (a :: gap ++ []) (a :: gap ++ d :: x) :=
        looks_append (by simp) (by simp [hdigit])
      simpa using hlooks

theorem Gap.words_append {s front gap : List Char} (h : Gap s front gap) {d : Char}
    (hd : (Punctuator.ofChar? d).isSome = true) (x : List Char) :
    words (s ++ d :: x) = words s ++ words (gap ++ d :: x) := by
  have hwords := (h.takes d hd x).words_eq
  rwa [← List.append_assoc, ← h.text] at hwords

end Lexis

/-! ## Lists of variables -/

/-- The text between the brackets of a query that declares the variables. -/
def ListsVariables (text : List Char) (declared : List Ast.VariableDefinition) : Prop :=
  ∃ head selections, read ("query(".toList ++ text ++ ") \x7b __typename \x7d".toList) =
    .ok [.operation ⟨some head, selections⟩] ∧ head.type = .query ∧ head.declared = declared

/-- The variables that a text lists. -/
def listed? (text : List Char) : Option (List Ast.VariableDefinition) :=
  match read ("query(".toList ++ text ++ ") \x7b __typename \x7d".toList) with
  | .ok [.operation ⟨some ⟨_, .query, _, declared, _⟩, _⟩] => some declared
  | _ => none

theorem listsVariables_of_listed? {text : List Char} {declared : List Ast.VariableDefinition}
    (h : listed? text = some declared) : ListsVariables text declared := by
  unfold listed? at h
  split at h
  · exact ⟨_, _, ‹_›, rfl, Option.some.inj h⟩
  · cases h

/-- In the words of a query, what stands behind the variables is no name. -/
theorem exists_close {ws : List Word} {n : Nat} {head : Ast.OperationHead}
    {selections : Ast.SelectionSet}
    (h : Means n ((queryFront ++ ws).map Word.bare) (.operation ⟨some head, selections⟩)) :
    ∃ inner c x more, ws = inner ++ c :: x :: more ∧ sign Word.bare c = some .parenClose ∧
      Nested (sign Word.bare) inner ∧ category x.bare ≠ .name := by
  obtain ⟨_, _, _, _, hfaces, hoc, hinner, hx⟩ := words_behind_variables h rfl
  rw [List.map_map] at hfaces
  obtain ⟨inner, _, hws, rfl, htail⟩ := List.map_eq_append_iff.mp hfaces
  obtain ⟨c, _, rfl, rfl, hafter⟩ := List.map_eq_cons_iff.mp htail
  obtain ⟨x, more, rfl, rfl, -⟩ := List.map_eq_cons_iff.mp hafter
  obtain ⟨q, r, hq, hqr, hr⟩ := hoc
  cases hq
  cases hqr
  refine ⟨inner, c, x, more, hws, ?_, ?_, hx⟩
  · rw [← shown_comp_face]
    exact hr
  · rw [← shown_comp_face]
    exact hinner.of_map

namespace ListsVariables

variable {text front gap : List Char} {declared : List Ast.VariableDefinition}
  (h : ListsVariables text declared) (hf : Faultless (words text)) (hgap : Gap text front gap)

include h hf hgap

/-- The query of a text that lists variables has the words of the text and those behind it, unless
the text ends in a comment. -/
theorem exists_means : ∃ back n head selections,
    ((back = queryBack ∧ Ignorable gap) ∨ back = []) ∧ Unglued (words text) ∧
      Means n ((queryFront ++ (words text ++ back)).map Word.bare)
        (.operation ⟨some head, selections⟩) := by
  obtain ⟨head, selections, hread, -, -⟩ := h
  have hmid : words (text ++ ") \x7b __typename \x7d".toList) =
      words text ++ words (gap ++ ") \x7b __typename \x7d".toList) := hgap.words_append rfl _
  obtain ⟨back, hcases, hback⟩ : ∃ back, ((back = queryBack ∧ Ignorable gap) ∨ back = []) ∧
      words (gap ++ ") \x7b __typename \x7d".toList) = back := by
    rcases hgap.cases with hi | hc
    · exact ⟨queryBack, .inl ⟨rfl, hi⟩, by rw [words_append_of_ignorable hi, words_queryBack]⟩
    · exact ⟨[], .inr rfl, words_of_dropIgnored_nil (hc _)⟩
  have hwords : words ("query(".toList ++ text ++ ") \x7b __typename \x7d".toList) =
      queryFront ++ (words text ++ back) := by
    rw [List.append_assoc, words_queryFront, hmid, hback]
  have hfaultless : Faultless (queryFront ++ (words text ++ back)) := by
    have hfront : Faultless queryFront := by unfold Faultless; decide
    have hlast : Faultless back := by
      rcases hcases with ⟨rfl, -⟩ | rfl <;> unfold Faultless <;> decide
    exact List.forall_mem_append.mpr ⟨hfront, List.forall_mem_append.mpr ⟨hf, hlast⟩⟩
  obtain ⟨hu, hs⟩ := (exists_read_iff_spells (hwords ▸ hfaultless)).mp ⟨_, hread, rfl⟩
  rw [bares, hwords] at hs
  rw [hwords] at hu
  exact ⟨back, _, _, _, hcases, fun w hw => hu w (by simp [hw]), means_of_spells hs⟩

/-- If the brackets in the text are nested, it does not end in a comment. -/
theorem ignorable (hnested : Nested (sign Word.bare) (words text)) :
    Ignorable gap ∧ Unglued (words text) := by
  obtain ⟨back, n, head, selections, ⟨-, hi⟩ | rfl, hu, hmeans⟩ := h.exists_means hf hgap
  · exact ⟨hi, hu⟩
  · -- the bracket in front of the text would stay open
    have hlevel := (nested_of_means hmeans).level_eq
    rw [List.append_nil, level_append, hnested.level_eq] at hlevel
    exact absurd hlevel (by decide)

/-- If they are not, the query closes its brackets within the text or right behind it, and no name
stands behind them. Nor does one in any other text that goes on with a bracket. -/
theorem exists_behind (hnested : ¬ Nested (sign Word.bare) (words text)) (rest : List Char) :
    ∃ inner c x more, words (text ++ ')' :: rest) = inner ++ c :: x :: more ∧
      turn (sign Word.bare) c = -1 ∧ Nested (sign Word.bare) inner ∧ category x.bare ≠ .name := by
  obtain ⟨back, n, head, selections, hback, -, hmeans⟩ := h.exists_means hf hgap
  obtain ⟨inner, c, x, more, hsplit, hc, hinner, hx⟩ := exists_close hmeans
  have hturn : turn (sign Word.bare) c = -1 := by rw [turn, hc]; rfl
  obtain ⟨between, rfl, hbetween⟩ | ⟨between, htext, hbetween⟩ :=
    List.append_eq_append_iff.mp hsplit
  · -- behind the text, only the first word closes a parenthesis
    have hnone : ∀ w ∈ back.tail, sign Word.bare w ≠ some .parenClose := by
      obtain ⟨rfl, -⟩ | rfl := hback <;> decide
    rcases between with _ | ⟨a, between⟩
    · exact absurd (by simpa using hinner) hnested
    · exact absurd hc (hnone c (by rw [hbetween]; simp))
  · rw [hgap.words_append rfl, htext]
    rcases between with _ | ⟨a, _ | ⟨y, between⟩⟩
    · exact absurd (by rwa [htext, List.append_nil]) hnested
    · obtain ⟨rfl, hrest⟩ := List.cons.inj hbetween
      obtain ⟨rfl, hi⟩ | rfl := hback
      · rw [words_append_of_ignorable hi, words_of_ofChar? (c := ')') rfl, List.append_assoc]
        exact ⟨inner, c, _, _, rfl, hturn, hinner, by decide⟩
      · cases hrest
    · obtain ⟨rfl, hrest⟩ := List.cons.inj hbetween
      obtain ⟨rfl, -⟩ := List.cons.inj hrest
      rw [List.append_assoc]
      exact ⟨inner, c, x, _, rfl, hturn, hinner, hx⟩

end ListsVariables

end QueryDoc
