import QueryDoc.Proofs.Document.Groups
import QueryDoc.Proofs.Document.Standing

/-!
# Matching brackets of groups

A group ends where a count of all brackets says so, whatever their kinds. What it holds is read as
variables, so in an accepted text the brackets inside are nested by kind; and the brackets of the
group belong together exactly if it is closed by a parenthesis (`group_matched`).
-/
namespace QueryDoc

open QueryDoc.Lexis QueryDoc.Grammar

/-! ## Closing words -/

namespace Lexis

variable {α : Type} {b : α → Bare}

/-- The word that closes what one bracket opens moves the nesting down. -/
theorem nesting_of_closing? {depth : Int} (hd : 1 ≤ depth) {inner rest : List α} {c : α}
    (h : closing? b depth (inner ++ c :: rest) = some (inner, c, rest)) :
    (b c).1.nesting = -1 := by
  induction inner generalizing depth with
  | nil =>
    have hzero := closing?_nil_iff.mp h
    have hge := nesting_ge (b c).1
    omega
  | cons a inner ih =>
    obtain ⟨hne, h⟩ := closing?_cons_iff.mp h
    have hge := nesting_ge (b a).1
    exact ih (by omega) h

/-- Another word that moves the nesting alike closes as well. -/
theorem closing?_swap {depth : Int} {inner rest : List α} {c d : α}
    (h : closing? b depth (inner ++ c :: rest) = some (inner, c, rest))
    (hcd : (b d).1.nesting = (b c).1.nesting) (more : List α) :
    closing? b depth (inner ++ d :: more) = some (inner, d, more) := by
  induction inner generalizing depth with
  | nil => exact closing?_nil_iff.mpr (hcd ▸ closing?_nil_iff.mp h)
  | cons a inner ih =>
    obtain ⟨hne, h⟩ := closing?_cons_iff.mp h
    exact closing?_cons_iff.mpr ⟨hne, ih h⟩

/-- In nested brackets, the partner of the first one is the word that closes it. -/
theorem Nested.of_closing? {o c : α} {inner rest : List α}
    (h : Nested (sign b) (o :: (inner ++ c :: rest))) (ho : turn (sign b) o = 1)
    (hc : closing? b 1 (inner ++ c :: rest) = some (inner, c, rest)) :
    Partners (sign b) o c ∧ Nested (sign b) inner := by
  generalize has : inner ++ c :: rest = as at h
  cases h with
  | word hzero h => omega
  | @bracket _ d inner' as hod hinner h =>
    obtain ⟨-, hd⟩ := hod.turn_eq
    rw [turn_sign] at hd
    rw [has, hinner.closing?_append (Int.le_refl 1),
      closing?_cons_of_eq b hd (by decide)] at hc
    simp at hc
    obtain ⟨rfl, rfl, -⟩ := hc
    exact ⟨hod, hinner⟩

theorem Nested.of_cons {a : α} {as : List α} {p : α → Option Punctuator} (h : Nested p (a :: as))
    (ha : turn p a = 0) : Nested p as := by
  cases h with
  | word hzero h => exact h
  | bracket hoc hinner h =>
    have := hoc.turn_eq
    omega

end Lexis

/-! ## Groups that are read -/

/-- In an accepted text, every group is read. -/
theorem exists_groupRead_of_parse {text : String} {ds : List Definition}
    (h : parse ⟨true⟩ text = .ok ds) {g : VariableGroup}
    (hg : g ∈ VariableGroup.ofText text.toList) : ∃ v, g.read text.toList = .ok v := by
  obtain ⟨groups, -, hgroups, -⟩ := parse_eq_ok_iff.mp h
  have hread := mapM_eq_ok_iff.mp hgroups
  obtain ⟨i, hi, rfl⟩ := List.mem_iff_getElem.mp hg
  obtain ⟨v, hv, -⟩ := map_eq_ok_iff.mp (hread.get hi (hread.length_eq ▸ hi))
  exact ⟨v, hv⟩

/-- The brackets between the brackets of a group that declares variables are nested. -/
theorem Declares.nested_inner {f : Frame Bare} {v : FragmentVariables} (h : Declares f v)
    (hf : closing? id 1 (f.inner ++ [f.closing]) = some (f.inner, f.closing, [])) :
    Nested (sign id) f.inner := by
  obtain ⟨head, selections, -, -, hs⟩ := h.spells
  have hmeans := means_of_spells hs
  rw [← List.map_id (queryBares f.inner)] at hmeans
  have hnested := nested_of_means hmeans
  have hquery : queryBares f.inner = (.name, "query".toList) :: (.punctuator .parenOpen, ['(']) ::
      (f.inner ++ (.punctuator .parenClose, [')']) :: (queryBack.map Word.bare).tail) := by
    simp [queryBares, queryFront, queryBack, Word.bare]
  rw [hquery] at hnested
  have hnesting : f.closing.1.nesting = -1 := nesting_of_closing? (b := id) (Int.le_refl 1) hf
  have hclosing := @closing?_swap _ id _ _ _ _ (.punctuator .parenClose, [')']) hf hnesting.symm
    (queryBack.map Word.bare).tail
  exact ((hnested.of_cons rfl).of_closing? rfl hclosing).2

/-! ## Groups of a text -/

theorem Kind.punctuator?_eq_some {k : Kind} {p : Punctuator} (h : k.punctuator? = some p) :
    k = .punctuator p := by
  cases k <;> cases h
  rfl

/-- A group of an accepted text starts with a parenthesis and ends with a closing bracket. Unless
there are error tokens in it, the brackets between the two are nested by kind, and so are the
brackets of the group itself exactly if it ends with a parenthesis too. -/
theorem group_matched {text : String} {ds : List Definition} (h : parse ⟨true⟩ text = .ok ds)
    {g : VariableGroup} (hg : g ∈ VariableGroup.ofText text.toList) :
    ∃ pre inner post, tokens text.toList = pre ++ g.opening :: (inner ++ g.closing :: post) ∧
      g.opening.kind = .punctuator .parenOpen ∧ g.closing.kind.nesting = -1 ∧
      ((∀ t ∈ inner, t.kind.isError = false) →
        Nested (fun t => t.kind.punctuator?) inner ∧
          (Nested (fun t => t.kind.punctuator?) (g.opening :: (inner ++ [g.closing])) ↔
            g.closing.kind = .punctuator .parenClose)) := by
  obtain ⟨f, w, hf, hgf, hlocated, hbare⟩ := exists_frame_of_mem hg
  obtain ⟨hframe, pre, post, htokens⟩ := exists_tokens_eq_of_mem hf
  obtain ⟨v, hv⟩ := exists_groupRead_of_parse h hg
  rw [hgf]
  refine ⟨pre, f.inner, post, htokens, hframe.opening,
    nesting_of_closing? (Int.le_refl 1) (hframe.closing []), fun hsound => ?_⟩
  have hopening : sign Token.bare f.opening = some .parenOpen :=
    congrArg Kind.punctuator? hframe.opening
  have hnested : Nested (sign Token.bare) f.inner := by
    have hinner : w.inner.map Word.bare = f.inner.map Token.bare := congrArg Frame.inner hbare
    have hfaultless : Faultless w.inner := by
      have hkinds := congrArg (List.map Prod.fst) hinner
      simp only [List.map_map] at hkinds
      intro x hx
      obtain ⟨t, ht, hk⟩ := List.mem_map.mp (hkinds ▸ List.mem_map_of_mem hx)
      have hk : t.kind = x.kind := hk
      exact hk ▸ hsound t ht
    obtain ⟨-, hdeclares⟩ := (exists_groupRead_iff hlocated hfaultless).mp ⟨v, hv, rfl⟩
    rw [hbare] at hdeclares
    have hclosing := closing?_map id Token.bare 1 (f.inner ++ [f.closing])
    rw [Function.id_comp, hframe.closing []] at hclosing
    exact (hdeclares.nested_inner (by simpa [Frame.map] using hclosing)).of_map
  refine ⟨hnested, fun h => ?_, fun hkind => ?_⟩
  · have hturn : turn (sign Token.bare) f.opening = 1 := by rw [turn, hopening]; rfl
    obtain ⟨⟨q, r, hq, hqr, hr⟩, -⟩ := Nested.of_closing? h hturn (hframe.closing [])
    obtain rfl := Option.some.inj (hopening.symm.trans hq)
    cases hqr
    exact Kind.punctuator?_eq_some hr
  · exact .bracket ⟨.parenOpen, .parenClose, hopening, rfl, congrArg Kind.punctuator? hkind⟩
      hnested .nil

/-- Lists and objects in a group are nested in it. -/
theorem group_matched_defaults :
    ∃ g ∈ VariableGroup.ofText
      "fragment F($a: [Int] = [1], $b: B = \x7bx: []\x7d) on T \x7by\x7d".toList,
      ∃ pre inner post,
        tokens "fragment F($a: [Int] = [1], $b: B = \x7bx: []\x7d) on T \x7by\x7d".toList =
          pre ++ g.opening :: (inner ++ g.closing :: post) ∧
        Nested (fun t => t.kind.punctuator?) (g.opening :: (inner ++ [g.closing])) := by
  obtain ⟨ds, hds⟩ := @exists_parse_of_isSome ⟨true⟩
    "fragment F($a: [Int] = [1], $b: B = \x7bx: []\x7d) on T \x7by\x7d" (by decide +kernel)
  have hgroup : ∃ g ∈ VariableGroup.ofText
      "fragment F($a: [Int] = [1], $b: B = \x7bx: []\x7d) on T \x7by\x7d".toList,
      g.closing.kind = .punctuator .parenClose := by decide +kernel
  have hsound : ∀ t ∈ tokens
      "fragment F($a: [Int] = [1], $b: B = \x7bx: []\x7d) on T \x7by\x7d".toList,
      t.kind.isError = false := by decide +kernel
  obtain ⟨g, hg, hkind⟩ := hgroup
  obtain ⟨pre, inner, post, htokens, -, -, hnested⟩ := group_matched hds hg
  have hinner : ∀ t ∈ inner, t.kind.isError = false := fun t ht =>
    hsound t (by rw [htokens]; simp [ht])
  exact ⟨g, hg, pre, inner, post, htokens, (hnested hinner).2.mpr hkind⟩

/-- A group that is closed by a brace is read as well. -/
theorem exists_group_of_braceClose :
    (∃ ds, parse ⟨true⟩ "fragment F($a: Int\x7d on T \x7b y \x7d" = .ok ds) ∧
      ∃ g ∈ VariableGroup.ofText "fragment F($a: Int\x7d on T \x7b y \x7d".toList,
        g.closing.kind = .punctuator .braceClose :=
  ⟨exists_parse_of_isSome (by decide +kernel), by decide +kernel⟩

end QueryDoc
