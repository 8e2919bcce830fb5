import QueryDoc.Proofs.Lexis.Definitions
import QueryDoc.Proofs.Lexis.Nesting

/-!
# Texts on lines of their own

A line feed ends every token but a string that is not closed, and the comment in front of it. So
behind a text that does not end in an error another text is read as if it stood alone
(`bares_append_line`), and its definitions are cut as if it stood alone where the first text ends
with a whole definition (`cut_append`).
-/
namespace QueryDoc

open QueryDoc.Lexis

namespace Lexis

/-! ## Words of two lines -/

/-- Where only ignored text is left, a line feed ends it. -/
theorem words_append_line_of_dropIgnored_nil {s : List Char} (h : dropIgnored false s = [])
    (t : List Char) : words (s ++ '\n' :: t) = words t := by
  apply words_congr
  obtain hread | hread := dropIgnored_append_of_nil h
  · exact hread ('\n' :: t)
  · exact hread ('\n' :: t)

/-- The words of a text whose last word is no error, and then those of the next line. -/
theorem bares_append_line {s : List Char} (h : ∀ b ∈ (bares s).getLast?, b.1.isError = false)
    (t : List Char) : bares (s ++ '\n' :: t) = bares s ++ bares t := by
  induction s using splits_induction with
  | nil s hs =>
    rw [bares, words_append_line_of_dropIgnored_nil hs, bares_of_dropIgnored_nil hs]
    rfl
  | cons s front kind c u rest hs ih =>
    have hrest : ∀ b ∈ (bares rest).getLast?, b.1.isError = false := by
      intro b hb
      apply h
      rw [hs.bares_eq, List.getLast?_cons, Option.mem_def.mp hb]
      rfl
    have hfollows : Follows kind rest (rest ++ '\n' :: t) := by
      cases rest with
      | nil =>
        have hkind : kind.isError = false := by
          apply h (kind, c :: u)
          rw [hs.bares_eq, bares_of_dropIgnored_nil rfl]
          rfl
        exact .inl (ends_of_isError_eq_false hkind rfl t)
      | cons d rest =>
        have hlooks : Looks (d :: rest ++ []) (d :: rest ++ '\n' :: t) :=
          looks_append (by simp) (by simp)
        exact .inr (by simpa using hlooks)
    have hsplit : Splits (s ++ '\n' :: t) front kind c u (rest ++ '\n' :: t) := by
      simpa [hs.text] using hs.replace hfollows
    rw [hsplit.bares_eq, hs.bares_eq, ih hrest, List.cons_append]

/-! ## Parts behind parts -/

section

variable {α β : Type} {p : α → Option Punctuator}

/-- A closing brace at the end brings the nesting back to the ground. -/
def Closed (p : α → Option Punctuator) (part : List α) : Prop :=
  part.getLast?.bind p = some .braceClose ∧ level p part ≤ 0

instance (part : List α) : Decidable (Closed p part) :=
  inferInstanceAs (Decidable (_ ∧ _))

theorem level_map (f : β → α) (bs : List β) : level p (bs.map f) = level (p ∘ f) bs := by
  induction bs with
  | nil => rfl
  | cons b bs ih => rw [List.map_cons, level, level, ih]; rfl

theorem closed_map_iff {f : β → α} {part : List β} :
    Closed p (part.map f) ↔ Closed (p ∘ f) part := by
  rw [Closed, Closed, level_map, List.getLast?_map, Option.bind_map]

/-- Behind one part that ends with a closing brace a list is cut anew. -/
theorem cut_append_of_eq_singleton {depth : Int} {part : List α} (h : cut p depth part = [part])
    (hlast : part.getLast?.bind p = some .braceClose) (hlevel : depth + level p part ≤ 0)
    (bs : List α) : cut p depth (part ++ bs) = part :: cut p 0 bs := by
  induction part generalizing depth with
  | nil => cases h
  | cons a part ih =>
    by_cases hclose : p a = some .braceClose ∧ depth + (p a).elim 0 Punctuator.nesting ≤ 0
    · rw [cut, if_pos hclose] at h
      obtain rfl : [] = part := (List.cons.inj (List.cons.inj h).1).2
      rw [List.singleton_append, cut, if_pos hclose]
    · cases part with
      | nil => exact absurd ⟨hlast, by simpa [level, turn] using hlevel⟩ hclose
      | cons b part =>
        have hrest : cut p (depth + (p a).elim 0 Punctuator.nesting) (b :: part) = [b :: part] := by
          obtain ⟨q, qs, hq⟩ := exists_cut_cons (p := p)
            (depth + (p a).elim 0 Punctuator.nesting) b part
          rw [cut, if_neg hclose, hq] at h
          obtain ⟨hpart, hqs⟩ := List.cons.inj h
          rw [hq, (List.cons.inj hpart).2, hqs]
        have hlevel' : depth + (p a).elim 0 Punctuator.nesting + level p (b :: part) ≤ 0 := by
          rw [level] at hlevel
          unfold turn at hlevel
          omega
        rw [List.cons_append, cut, if_neg hclose, ih hrest (by simpa using hlast) hlevel']
        rfl

/-- Behind parts of which the last is closed a list is cut anew. -/
theorem cut_append {as : List α} (h : ∀ part ∈ (cut p 0 as).getLast?, Closed p part)
    (bs : List α) : cut p 0 (as ++ bs) = cut p 0 as ++ cut p 0 bs := by
  cases hlast : (cut p 0 as).getLast? with
  | none =>
    have hnil : cut p 0 as = [] := List.getLast?_eq_none_iff.mp hlast
    obtain rfl : as = [] := by rw [← flatten_cut (p := p) 0 as, hnil, List.flatten_nil]
    rfl
  | some part =>
    obtain ⟨front, hfront⟩ := List.getLast?_eq_some_iff.mp hlast
    obtain ⟨hbrace, hlevel⟩ := h part hlast
    have hmem : part ∈ cut p 0 as := by simp [hfront]
    have hlength : front.length < (cut p 0 as).length := by simp [hfront]
    have hflat : as = front.flatten ++ part := by
      rw [← flatten_cut (p := p) 0 as, hfront, List.flatten_concat]
    have htake := cut_take_append hlength (part ++ bs)
    rw [hfront, List.take_left, ite_self, ← List.append_assoc, ← hflat,
      cut_append_of_eq_singleton (cut_of_mem_cut hmem) hbrace (by simpa using hlevel)] at htake
    rw [htake, hfront, List.append_assoc, List.singleton_append]

end

end Lexis

/-! ## Keys of two lines -/

theorem textOf_append {bs cs : List Bare} (hbs : bs ≠ []) (hcs : cs ≠ []) :
    textOf (bs ++ cs) = textOf bs ++ " " ++ textOf cs := by
  rw [textOf_eq, textOf_eq, textOf_eq, List.map_append,
    String.intercalate_append_of_ne_nil (by simpa using hbs) (by simpa using hcs)]

/-- Keys are joined by a space, unless one of them is empty. -/
theorem textOf_bares_append (a b : String) : textOf (bares a.toList ++ bares b.toList) =
    " ".intercalate ([key a, key b].filter (· ≠ "")) := by
  by_cases ha : bares a.toList = []
  · rw [ha, List.nil_append, ← key_eq_textOf, bares_eq_nil_iff_key.mp ha]
    by_cases hb : key b = "" <;> simp [hb]
  · have hkey : key a ≠ "" := mt bares_eq_nil_iff_key.mpr ha
    by_cases hb : bares b.toList = []
    · rw [hb, List.append_nil, ← key_eq_textOf, bares_eq_nil_iff_key.mp hb]
      simp [hkey]
    · have hkey' : key b ≠ "" := mt bares_eq_nil_iff_key.mpr hb
      rw [textOf_append ha hb, ← key_eq_textOf, ← key_eq_textOf]
      simp [hkey, hkey']

theorem closed_of_significant {text : String}
    (h : ∀ part ∈ (cutDefinitions 0 (significant text.toList)).getLast?,
      Closed (fun t => t.kind.punctuator?) part) :
    ∀ part ∈ (cut (fun b : Bare => b.1.punctuator?) 0 (bares text.toList)).getLast?,
      Closed (fun b : Bare => b.1.punctuator?) part := by
  rw [← map_bare_significant, cut_map, List.getLast?_map]
  intro part hpart
  obtain ⟨ts, hts, rfl⟩ := Option.map_eq_some_iff.mp hpart
  rw [cutDefinitions_eq_cut] at h
  exact closed_map_iff.mpr (h ts hts)

/-- A text whose last token is no error and a text on the next line read as the two of them: their
tokens stand behind each other, a space joins their keys, and if the last definition of the first
text is closed, their definitions stand behind each other as well. -/
theorem key_of_lines {a : String}
    (ha : ∀ t ∈ (significant a.toList).getLast?, t.kind.isError = false) (b : String) :
    readings (a ++ "\n" ++ b) = readings a ++ readings b ∧
      key (a ++ "\n" ++ b) = " ".intercalate ([key a, key b].filter (· ≠ "")) ∧
      ((∀ part ∈ (cutDefinitions 0 (significant a.toList)).getLast?,
          Closed (fun t => t.kind.punctuator?) part) →
        definitionKeys (a ++ "\n" ++ b) = definitionKeys a ++ definitionKeys b) := by
  have hlast : ∀ w ∈ (bares a.toList).getLast?, w.1.isError = false := by
    rw [← map_bare_significant, List.getLast?_map]
    intro w hw
    obtain ⟨t, ht, rfl⟩ := Option.map_eq_some_iff.mp hw
    exact ha t ht
  have hbares : bares (a ++ "\n" ++ b).toList = bares a.toList ++ bares b.toList := by
    have htext : (a ++ "\n" ++ b).toList = a.toList ++ '\n' :: b.toList := by simp
    rw [htext, bares_append_line hlast]
  refine ⟨?_, ?_, ?_⟩
  · rw [readings_eq, readings_eq, readings_eq, hbares, List.map_append]
  · rw [key_eq_textOf, hbares, textOf_bares_append]
  · intro hclosed
    rw [definitionKeys_eq_map, definitionKeys_eq_map, definitionKeys_eq_map, hbares,
      cut_append (closed_of_significant hclosed), List.map_append]

/-- A surplus bracket in the first definition, a comment at the end of the line, and a second line
that starts with surplus brackets and ends in a string that is not closed. -/
theorem key_of_lines_surplus :
    definitionKeys ("]\x7d\x7ba\x7d#\x7b" ++ "\n" ++ ")\x7d..\"b") =
        ["] \x7d", "\x7b a \x7d", ") \x7d", ".. \"b"] ∧
      key ("]\x7d\x7ba\x7d#\x7b" ++ "\n" ++ ")\x7d..\"b") =
        "] \x7d \x7b a \x7d ) \x7d .. \"b" := by
  obtain ⟨-, hkey, hdefs⟩ := key_of_lines (a := "]\x7d\x7ba\x7d#\x7b") (by decide +kernel) ")\x7d..\"b"
  refine ⟨(hdefs ?_).trans ?_, hkey.trans ?_⟩
  all_goals decide +kernel

end QueryDoc
