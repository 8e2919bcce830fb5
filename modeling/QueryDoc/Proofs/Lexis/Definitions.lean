import QueryDoc.Proofs.Lexis.Normal

/-!
# Definitions on their own

Cutting a text loses nothing: the keys of its definitions, joined, are its key. What is cut out is
whole. On its own each part is read and cut as it was in the text, since every part starts on the
ground and no bracket before its end brings the nesting back there (`cut_of_mem_cut`).
-/
namespace QueryDoc

open QueryDoc.Lexis

namespace Lexis

/-! ## Parts -/

section

variable {α : Type} {p : α → Option Punctuator}

theorem forall_mem_of_head?_of_tail {as : List α} {P : α → Prop} (hhead : ∀ a ∈ as.head?, P a)
    (htail : ∀ a ∈ as.tail, P a) : ∀ a ∈ as, P a := by
  cases as with
  | nil => simp
  | cons a as => exact List.forall_mem_cons.mpr ⟨hhead a rfl, htail⟩

/-- A part is cut into itself alone, the first one from the nesting that the list starts at and the
others from the ground. -/
theorem cut_part (depth : Int) (as : List α) :
    (∀ part ∈ (cut p depth as).head?, cut p depth part = [part]) ∧
      ∀ part ∈ (cut p depth as).tail, cut p 0 part = [part] := by
  induction as generalizing depth with
  | nil => simp [cut]
  | cons a as ih =>
    by_cases hclose : p a = some .braceClose ∧ depth + (p a).elim 0 Punctuator.nesting ≤ 0
    · obtain ⟨hhead, htail⟩ := ih 0
      rw [cut, if_pos hclose]
      constructor
      · intro part hpart
        obtain rfl : [a] = part := Option.some.inj hpart
        rw [cut, if_pos hclose]
        rfl
      · exact forall_mem_of_head?_of_tail hhead htail
    · obtain ⟨hhead, htail⟩ := ih (depth + (p a).elim 0 Punctuator.nesting)
      rw [cut, if_neg hclose]
      cases hcut : cut p (depth + (p a).elim 0 Punctuator.nesting) as with
      | nil =>
        refine ⟨?_, by simp [Text.consFirst]⟩
        intro part hpart
        obtain rfl : [a] = part := Option.some.inj hpart
        rw [cut, if_neg hclose]
        rfl
      | cons q qs =>
        rw [hcut] at hhead htail
        refine ⟨?_, htail⟩
        intro part hpart
        obtain rfl : a :: q = part := Option.some.inj hpart
        rw [cut, if_neg hclose, hhead q rfl]
        rfl

theorem cut_of_mem_cut {part as : List α} (h : part ∈ cut p 0 as) : cut p 0 part = [part] := by
  obtain ⟨hhead, htail⟩ := cut_part (p := p) 0 as
  exact forall_mem_of_head?_of_tail hhead htail part h

theorem ne_nil_of_mem_cut {part as : List α} (h : part ∈ cut p 0 as) : part ≠ [] := by
  rintro rfl
  exact absurd (cut_of_mem_cut h) (by simp [cut])

end

/-! ## Joined texts -/

theorem ofList_intercalate (texts : List (List Char)) :
    String.ofList ([' '].intercalate texts) = " ".intercalate (texts.map String.ofList) := by
  refine String.toList_injective ?_
  rw [String.toList_intercalate, List.map_map, String.toList_ofList]
  simp [Function.comp_def]

/-- Joining what was joined in parts joins it all. -/
theorem intercalate_flatten (separator : String) {parts : List (List String)}
    (h : ∀ part ∈ parts, part ≠ []) :
    separator.intercalate (parts.map separator.intercalate) =
      separator.intercalate parts.flatten := by
  induction parts with
  | nil => rfl
  | cons part parts ih =>
    obtain ⟨hpart, hparts⟩ := List.forall_mem_cons.mp h
    cases parts with
    | nil => simp
    | cons q qs =>
      have hflat : (q :: qs).flatten ≠ [] := by simp [hparts q (by simp)]
      rw [List.map_cons, String.intercalate_cons_of_ne_nil (by simp), ih hparts,
        List.flatten_cons (l := part), String.intercalate_append_of_ne_nil hpart hflat]

end Lexis

/-- The text of joined words. -/
def textOf (bs : List Bare) : String := String.ofList ([' '].intercalate (bs.map Prod.snd))

theorem textOf_eq (bs : List Bare) :
    textOf bs = " ".intercalate (bs.map fun b => String.ofList b.2) := by
  rw [textOf, ofList_intercalate, List.map_map]
  rfl

theorem key_eq_textOf (text : String) : key text = textOf (bares text.toList) := by
  rw [key_eq, textOf, bares, List.map_map]
  rfl

theorem definitionKeys_eq_map (text : String) : definitionKeys text =
    (cut (fun b : Bare => b.1.punctuator?) 0 (bares text.toList)).map textOf := by
  rw [definitionKeys_eq, ← map_bare_parts, List.map_map]
  refine List.map_congr_left fun ws _ => ?_
  rw [Function.comp_apply, textOf, List.map_map]
  rfl

/-! ## Definitions of a text -/

/-- What is cut out of a text has the words that it was joined from. -/
theorem exists_of_mem_definitionKeys {text c : String} (h : c ∈ definitionKeys text) :
    bares c.toList ∈ cut (fun b : Bare => b.1.punctuator?) 0 (bares text.toList) ∧
      c = textOf (bares c.toList) := by
  rw [definitionKeys_eq] at h
  obtain ⟨ws, hws, rfl⟩ := List.mem_map.mp h
  rw [String.toList_ofList, bares_intercalate ((readable_words _).part (infix_of_mem_parts hws)),
    ← map_bare_parts, textOf, List.map_map]
  exact ⟨List.mem_map_of_mem hws, rfl⟩

theorem bares_eq_nil_iff_key {text : String} : bares text.toList = [] ↔ key text = "" := by
  constructor
  · intro h
    rw [key_eq_textOf, h]
    rfl
  · intro h
    rw [← bares_key, h]
    exact bares_of_dropIgnored_nil rfl

theorem bares_eq_nil_iff_definitionKeys {text : String} :
    bares text.toList = [] ↔ definitionKeys text = [] := by
  rw [definitionKeys_eq_map, List.map_eq_nil_iff]
  constructor
  · intro h
    rw [h]
    rfl
  · intro h
    have hflat := flatten_cut (p := fun b : Bare => b.1.punctuator?) 0 (bares text.toList)
    rw [← hflat, h]
    rfl

theorem bares_eq_nil_iff_hasTokens {text : String} :
    bares text.toList = [] ↔ hasTokens text = false := by
  rw [← map_bare_significant, List.map_eq_nil_iff, hasTokens]
  simp

/-- The first token tells whether there is anything in a text. -/
theorem hasTokens_eq_head (text : String) :
    hasTokens text = (tokens text.toList).head?.any Token.isSignificant := by
  obtain hnil | ⟨front, kind, c, u, rest, hs⟩ := splits_cases text.toList
  · obtain ⟨t, hk, -, -, hts⟩ := tokensFrom_of_dropIgnored_nil .start [] hnil
    simp [hasTokens, significant, tokens, hts, Token.isSignificant, hk]
  · obtain ⟨t, hk, -, -, hts⟩ := hs.exists_token .start []
    have hsig : t.isSignificant = true := by
      simpa [Token.isSignificant, hk] using hs.sound.kind_ne_eof
    simp [hasTokens, significant, tokens, hts, hsig]

/-- The definitions of a text make up its key, so there are none exactly if the key is empty, which
the first token tells. The key has the same definitions, and each of them is its own key and the
one definition in itself. -/
theorem definitionKeys_stable (s : String) :
    " ".intercalate (definitionKeys s) = key s ∧
      (definitionKeys s = [] ↔ key s = "") ∧
      (definitionKeys s = [] ↔ hasTokens s = false) ∧
      hasTokens s = (tokens s.toList).head?.any Token.isSignificant ∧
      definitionKeys (key s) = definitionKeys s ∧
      ∀ c ∈ definitionKeys s, key c = c ∧ definitionKeys c = [c] := by
  refine ⟨?_, ?_, ?_, hasTokens_eq_head s, ?_, ?_⟩
  · have hne : ∀ part ∈ (cut (fun b : Bare => b.1.punctuator?) 0 (bares s.toList)).map
        (List.map fun b => String.ofList b.2), part ≠ [] := by
      simpa using fun part hpart => ne_nil_of_mem_cut hpart
    have hjoin := intercalate_flatten " " hne
    rw [← List.map_flatten, flatten_cut, List.map_map] at hjoin
    rw [definitionKeys_eq_map, key_eq_textOf, textOf_eq, ← hjoin]
    exact congrArg _ (List.map_congr_left fun bs _ => textOf_eq bs)
  · rw [← bares_eq_nil_iff_definitionKeys, bares_eq_nil_iff_key]
  · rw [← bares_eq_nil_iff_definitionKeys, bares_eq_nil_iff_hasTokens]
  · rw [definitionKeys_eq_map, bares_key, ← definitionKeys_eq_map]
  · intro c hc
    obtain ⟨hmem, hjoin⟩ := exists_of_mem_definitionKeys hc
    refine ⟨(key_eq_textOf c).trans hjoin.symm, ?_⟩
    rw [definitionKeys_eq_map, cut_of_mem_cut hmem, List.map_singleton, ← hjoin]

/-- A part of surplus brackets around two dots, which are no token. -/
theorem definitionKeys_stable_surplus :
    "] ) \x7b .. \x7d" ∈ definitionKeys "\x7d(\x7d]),\x7b..\x7d\"b" ∧
      key "] ) \x7b .. \x7d" = "] ) \x7b .. \x7d" ∧
      definitionKeys "] ) \x7b .. \x7d" = ["] ) \x7b .. \x7d"] := by
  have hc : "] ) \x7b .. \x7d" ∈ definitionKeys "\x7d(\x7d]),\x7b..\x7d\"b" := by decide +kernel
  exact ⟨hc, (definitionKeys_stable _).2.2.2.2.2 _ hc⟩

end QueryDoc
