import QueryDoc.Proofs.Lexis.Word
import Mathlib.Data.List.Chain

/-!
# Keys and words

A key is read back as the words it was joined from: every word is followed by a space or by nothing,
and neither changes it. So texts have one key exactly when they have the same words, and so do the
parts that a text is cut into.
-/
namespace QueryDoc.Lexis

/-! ## Words that can be read back -/

/-- A word that was read from some text. -/
def Word.Readable (w : Word) : Prop :=
  ∃ c u rest, startsToken c = true ∧ w.text = c :: u ∧ scan c (u ++ rest) = ⟨w.kind, w.text, rest⟩

/-- Words that can stand in one text: only the last one may be open. -/
def Readable (ws : List Word) : Prop :=
  (∀ w ∈ ws, w.Readable) ∧ ws.IsChain fun w _ => w.kind.isOpen = false

/-- The word in front of a space. -/
def Word.apart (w : Word) : Word := { w with glued := false }

theorem readable_words (s : List Char) : Readable (words s) := by
  induction s using splits_induction with
  | nil s h => simp [words_of_dropIgnored_nil h, Readable]
  | cons s front kind c u rest h ih =>
    rw [h.words_eq]
    refine ⟨List.forall_mem_cons.mpr ⟨⟨c, u, rest, h.starts, rfl, h.scan⟩, ih.1⟩, ?_⟩
    refine List.isChain_cons.mpr ⟨fun w hw => ?_, ih.2⟩
    by_contra ho
    have hn := h.sound.rest_of_isOpen (by simpa using ho)
    obtain rfl : rest = [] := hn
    rw [words_of_dropIgnored_nil rfl] at hw
    cases hw

theorem Readable.part {ws part : List Word} (h : Readable ws) (hp : part <:+: ws) :
    Readable part :=
  ⟨fun w hw => h.1 w (hp.subset hw), List.IsChain.infix h.2 hp⟩

/-- A word that can be read is read in front of a space and in front of nothing. -/
theorem words_text_append {w : Word} (h : w.Readable) (other : List Char)
    (ho : Ends w.kind other) :
    words (w.text ++ other) = ⟨w.kind, w.text, w.kind.isNumber && runsOn other⟩ :: words other := by
  obtain ⟨c, u, rest, hc, ht, hs⟩ := h
  have hscan := scan_append (ht ▸ hs) (.inl ho)
  rw [ht, List.cons_append, words_of_dropIgnored_cons (dropIgnored_cons_of_startsToken hc _), hscan]
  rfl

/-- Joined words are read back. -/
theorem words_intercalate {ws : List Word} (h : Readable ws) :
    words ([' '].intercalate (ws.map Word.text)) = ws.map Word.apart := by
  induction ws with
  | nil => exact words_of_dropIgnored_nil rfl
  | cons w ws ih =>
    have hw := h.1 w (by simp)
    have ih := ih (h.part (List.infix_cons (List.infix_refl _)))
    cases ws with
    | nil =>
      have hread := words_text_append hw [] trivial
      rw [words_of_dropIgnored_nil (s := []) rfl] at hread
      simpa [Word.apart, runsOn] using hread
    | cons v ws =>
      have ho : w.kind.isOpen = false := (List.isChain_cons_cons.mp h.2).1
      have hread := words_text_append hw (' ' :: [' '].intercalate ((v :: ws).map Word.text))
        ⟨rfl, ho, fun _ => by decide⟩
      rw [words_congr (dropIgnored_cons_of_isSkipped rfl _), ih] at hread
      simpa [Word.apart, runsOn, Grammar.isDelimiter] using hread

theorem bares_intercalate {ws : List Word} (h : Readable ws) :
    bares ([' '].intercalate (ws.map Word.text)) = ws.map Word.bare := by
  rw [bares, words_intercalate h, List.map_map]
  rfl

/-- Parts of texts that are joined to one text have the same bare words. -/
theorem bare_eq_of_joined_eq {s t : List Char} {ws vs : List Word} (hs : ws <:+: words s)
    (ht : vs <:+: words t)
    (h : [' '].intercalate (ws.map Word.text) = [' '].intercalate (vs.map Word.text)) :
    ws.map Word.bare = vs.map Word.bare := by
  rw [← bares_intercalate ((readable_words s).part hs),
    ← bares_intercalate ((readable_words t).part ht), h]

/-! ## Cuts -/

/-- Cuts a list behind each closing brace that brings the nesting back to the ground; `depth` is the
nesting in front, and `punctuator` says which elements are punctuators. -/
def cut {α : Type} (punctuator : α → Option Punctuator) (depth : Int) : List α → List (List α)
  | [] => []
  | a :: as =>
    let depth := depth + (punctuator a).elim 0 Punctuator.nesting
    if punctuator a = some .braceClose ∧ depth ≤ 0 then [a] :: cut punctuator 0 as
    else Text.consFirst a (cut punctuator depth as)

variable {α β : Type} {p : α → Option Punctuator}

@[simp] theorem flatten_cut (depth : Int) (as : List α) : (cut p depth as).flatten = as := by
  fun_induction cut p depth as <;> simp_all

theorem infix_of_mem_cut {depth : Int} {part as : List α} (h : part ∈ cut p depth as) :
    part <:+: as := by
  have := List.infix_of_mem_flatten h
  rwa [flatten_cut] at this

theorem cut_cons_of_none {a : α} (h : p a = none) (depth : Int) (as : List α) :
    cut p depth (a :: as) = Text.consFirst a (cut p depth as) := by
  simp [cut, h]

/-- The first part starts where the list does. -/
theorem exists_cut_cons (depth : Int) (a : α) (as : List α) :
    ∃ part rest, cut p depth (a :: as) = (a :: part) :: rest := by
  rw [cut]
  split
  · exact ⟨[], _, rfl⟩
  · cases cut p (depth + (p a).elim 0 Punctuator.nesting) as with
    | nil => exact ⟨[], [], rfl⟩
    | cons part rest => exact ⟨part, rest, rfl⟩

/-- Behind whole parts, a list is cut anew. -/
theorem cut_take_append {depth : Int} {as : List α} {i : Nat} (hi : i < (cut p depth as).length)
    (rest : List α) : cut p depth (((cut p depth as).take i).flatten ++ rest) =
      (cut p depth as).take i ++ cut p (if i = 0 then depth else 0) rest := by
  induction as generalizing depth i with
  | nil => simp [cut] at hi
  | cons a as ih =>
    rcases i with _ | i
    · rfl
    simp only [cut] at hi ⊢
    split
    · rw [if_pos ‹_›, List.length_cons] at hi
      rw [List.take_succ_cons, List.flatten_cons, List.singleton_append, List.cons_append, cut,
        if_pos ‹_›, ih (Nat.lt_of_succ_lt_succ hi), if_neg (Nat.succ_ne_zero i), ite_self]
      rfl
    · rw [if_neg ‹_›] at hi
      generalize hcut : cut p (depth + (p a).elim 0 Punctuator.nesting) as = ps at hi ⊢
      rcases ps with _ | ⟨q, qs⟩
      · simp [Text.consFirst] at hi
      · have ih := @ih (depth + (p a).elim 0 Punctuator.nesting) (i + 1) (by rw [hcut]; exact hi)
        rw [hcut] at ih
        simp only [Text.consFirst, List.take_succ_cons, List.flatten_cons, List.cons_append] at ih ⊢
        rw [cut, if_neg ‹_›, ih]
        rfl

theorem map_consFirst (f : β → α) (b : β) (ps : List (List β)) :
    (Text.consFirst b ps).map (List.map f) = Text.consFirst (f b) (ps.map (List.map f)) := by
  cases ps <;> rfl

theorem foldr_consFirst_cons (taken part : List α) (ps : List (List α)) :
    taken.foldr Text.consFirst (part :: ps) = (taken ++ part) :: ps := by
  induction taken with
  | nil => rfl
  | cons a taken ih => rw [List.foldr_cons, ih]; rfl

theorem foldr_consFirst_nil {taken : List α} (h : taken ≠ []) :
    taken.foldr Text.consFirst [] = [taken] := by
  induction taken with
  | nil => exact absurd rfl h
  | cons a taken ih =>
    cases taken with
    | nil => rfl
    | cons c taken => rw [List.foldr_cons, ih (by simp)]; rfl

theorem cut_map (f : β → α) (depth : Int) (bs : List β) :
    cut p depth (bs.map f) = (cut (p ∘ f) depth bs).map (List.map f) := by
  induction bs generalizing depth with
  | nil => rfl
  | cons b bs ih =>
    simp only [cut, List.map_cons, Function.comp_apply]
    split
    · simp [ih]
    · rw [map_consFirst, ih]

def Kind.punctuator? : Kind → Option Punctuator
  | .punctuator p => some p
  | _ => none

theorem Kind.elim_punctuator? (k : Kind) : k.punctuator?.elim 0 Punctuator.nesting = k.nesting := by
  cases k <;> rfl

theorem cutDefinitions_eq_cut (depth : Int) (ts : List Token) :
    cutDefinitions depth ts = cut (fun t => t.kind.punctuator?) depth ts := by
  induction ts generalizing depth with
  | nil => rfl
  | cons t ts ih =>
    have hclose (d : Int) : closesDefinition t d = true ↔
        t.kind.punctuator? = some .braceClose ∧ d ≤ 0 := by
      unfold closesDefinition Kind.punctuator?
      cases t.kind <;> simp
    simp only [cutDefinitions, cut, hclose, Kind.elim_punctuator?, ih]

/-- The words of each definition. -/
def parts (s : List Char) : List (List Word) := cut (fun w => w.kind.punctuator?) 0 (words s)

theorem map_bare_parts (s : List Char) :
    (parts s).map (List.map Word.bare) = cut (fun b => b.1.punctuator?) 0 (bares s) :=
  (cut_map (p := fun b : Bare => b.1.punctuator?) Word.bare 0 (words s)).symm

theorem infix_of_mem_parts {s : List Char} {part : List Word} (h : part ∈ parts s) :
    part <:+: words s := infix_of_mem_cut h

end QueryDoc.Lexis

namespace QueryDoc

open QueryDoc.Lexis

theorem joined_eq {ts : List Token} {ws : List Word} (h : ts.map Token.bare = ws.map Word.bare) :
    joined ts = [' '].intercalate (ws.map Word.text) := by
  have := congrArg (List.map Prod.snd) h
  simp only [List.map_map] at this
  exact congrArg [' '].intercalate this

theorem key_eq (text : String) :
    key text = String.ofList ([' '].intercalate ((words text.toList).map Word.text)) :=
  congrArg String.ofList (joined_eq (map_bare_significant _))

theorem definitionKeys_eq (text : String) : definitionKeys text =
    (parts text.toList).map fun ws => String.ofList ([' '].intercalate (ws.map Word.text)) := by
  have hparts : (cutDefinitions 0 (significant text.toList)).map (List.map Token.bare) =
      (parts text.toList).map (List.map Word.bare) := by
    rw [map_bare_parts, cutDefinitions_eq_cut, ← map_bare_significant]
    exact (cut_map (p := fun b : Bare => b.1.punctuator?) Token.bare 0 _).symm
  have hjoined := congrArg (List.map fun bs : List Bare =>
    String.ofList ([' '].intercalate (bs.map Prod.snd))) hparts
  simpa [definitionKeys, joined, Function.comp_def, Token.bare, Word.bare] using hjoined

/-- Texts with one key have the same words. -/
theorem bares_eq_of_key_eq {s t : String} (h : key s = key t) :
    bares s.toList = bares t.toList := by
  rw [key_eq, key_eq] at h
  exact bare_eq_of_joined_eq (List.infix_refl _) (List.infix_refl _) (String.ofList_injective h)

end QueryDoc
