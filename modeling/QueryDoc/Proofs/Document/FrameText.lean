import QueryDoc.Document.VariableGroup
import QueryDoc.Grammar.Literal
import QueryDoc.Proofs.Document.Frame

/-!
# Frames in a text

Where the words of a text start with a frame, its tokens start with a group, and the text falls into
what stands in front of the group, between its brackets and behind it (`exists_frameText`). The
words of these parts stay the same when blanks take the place of the group, or other brackets stand
around what it holds.
-/
namespace QueryDoc.Lexis

open QueryDoc.Grammar (byteLength)

/-! ## Words that are taken off a text -/

/-- Reading the words off the text leaves the rest. -/
inductive Takes : List Word → List Char → List Char → Prop where
  | nil (s : List Char) : Takes [] s s
  | cons {s front u t rest : List Char} {kind : Kind} {c : Char} {ws : List Word}
    (h : Splits s front kind c u t) (hs : Takes ws t rest) :
    Takes (.ofScan ⟨kind, c :: u, t⟩ :: ws) s rest

theorem Takes.words_eq {ws : List Word} {s rest : List Char} (h : Takes ws s rest) :
    words s = ws ++ words rest := by
  induction h with
  | nil s => rfl
  | cons h hs ih => rw [h.words_eq, ih, List.cons_append]

theorem exists_takes {s : List Char} {ws vs : List Word} (h : words s = ws ++ vs) :
    ∃ rest, Takes ws s rest ∧ words rest = vs := by
  induction ws generalizing s with
  | nil => exact ⟨s, .nil s, h⟩
  | cons w ws ih =>
    obtain hd | ⟨front, kind, c, u, t, hs⟩ := splits_cases s
    · rw [words_of_dropIgnored_nil hd] at h
      cases h
    · rw [hs.words_eq, List.cons_append] at h
      obtain ⟨rfl, htail⟩ := List.cons.inj h
      obtain ⟨rest, hrest, hvs⟩ := ih htail
      exact ⟨rest, .cons hs hrest, hvs⟩

theorem Takes.exists_append {ws : List Word} {s rest : List Char} (h : Takes ws s rest) :
    ∃ u, s = u ++ rest := by
  induction h with
  | nil s => exact ⟨[], rfl⟩
  | @cons s front u t rest kind c ws h hs ih =>
    obtain ⟨v, rfl⟩ := ih
    exact ⟨front ++ c :: (u ++ v), by simp [h.text]⟩

/-- Each word takes a character at least. -/
theorem Takes.length_le {ws : List Word} {s rest : List Char} (h : Takes ws s rest) :
    ws.length + rest.length ≤ s.length := by
  induction h with
  | nil s => simp
  | cons h hs ih =>
    have hlt := h.length_lt
    rw [List.length_cons]
    omega

/-- Only no words at all take nothing. -/
theorem Takes.eq_nil {ws : List Word} {s : List Char} (h : Takes ws s s) : ws = [] := by
  have hle := h.length_le
  exact List.length_eq_zero_iff.mp (by omega)

/-- Words in front of some text are not open. -/
theorem Takes.isOpen_eq_false {ws : List Word} {s rest : List Char} (h : Takes ws s rest)
    (hne : rest ≠ []) : ∀ w ∈ ws, w.kind.isOpen = false := by
  induction h with
  | nil s => simp
  | @cons s front u t rest kind c ws h hs ih =>
    refine List.forall_mem_cons.mpr ⟨?_, ih hne⟩
    by_contra ho
    obtain rfl : t = [] := h.sound.rest_of_isOpen (by simpa using ho)
    obtain ⟨v, hv⟩ := hs.exists_append
    exact hne (List.append_eq_nil_iff.mp hv.symm).2

theorem runsOn_append {u : List Char} (hu : u ≠ []) (rest other : List Char) :
    runsOn (u ++ rest) = runsOn (u ++ other) := by
  rcases u with _ | ⟨a, u⟩
  · exact absurd rfl hu
  · rfl

/-- A word sees of the text behind it only whether a number goes on there. -/
theorem ofScan_congr {kind : Kind} {text rest other : List Char}
    (h : kind.isNumber = true → runsOn other = runsOn rest) :
    Word.ofScan ⟨kind, text, other⟩ = .ofScan ⟨kind, text, rest⟩ := by
  unfold Word.ofScan
  cases hk : kind.isNumber with
  | true => simp [h hk]
  | false => rfl

/-- Words can be taken off a text with another rest, if the last one can stand in front of it. -/
theorem Takes.replace {ws : List Word} {s rest : List Char} (h : Takes ws s rest)
    {u other : List Char} (hu : s = u ++ rest)
    (hd : other.head?.any Char.isDigit = true → rest.head?.any Char.isDigit = true)
    (hlast : ∀ w ∈ ws.getLast?, Follows w.kind rest other ∧
      (w.kind.isNumber = true → runsOn other = runsOn rest)) :
    Takes ws (u ++ other) other := by
  induction h generalizing u with
  | nil s =>
    obtain rfl : u = [] := by simpa using hu
    exact .nil other
  | @cons s front v t rest kind c ws h hs ih =>
    obtain ⟨gap, rfl⟩ := hs.exists_append
    obtain rfl : u = front ++ c :: (v ++ gap) :=
      List.append_cancel_right (hu.symm.trans (h.text.trans (by simp)))
    have hwords : ∀ w ∈ ws.getLast?, Follows w.kind rest other ∧
        (w.kind.isNumber = true → runsOn other = runsOn rest) := by
      intro w hw
      refine hlast w ?_
      rcases ws with _ | ⟨a, ws⟩
      · simp at hw
      · simpa using hw
    have hother : Follows kind (gap ++ rest) (gap ++ other) ∧
        (kind.isNumber = true → runsOn (gap ++ other) = runsOn (gap ++ rest)) := by
      by_cases hne : gap = []
      · subst hne
        obtain rfl : ws = [] := hs.eq_nil
        exact hlast (.ofScan ⟨kind, c :: v, rest⟩) (by simp)
      · exact ⟨.inr (looks_append hne hd), fun _ => runsOn_append hne _ _⟩
    have hcons := Takes.cons (h.replace hother.1) (ih rfl hd hwords)
    rw [ofScan_congr hother.2] at hcons
    simpa using hcons

/-! ## Closing words -/

/-- Only brackets move the nesting, and they are single characters. -/
theorem scan_of_nesting_ne_zero {c : Char} {t : List Char} (h : (scan c t).kind.nesting ≠ 0) :
    ∃ p, Punctuator.ofChar? c = some p ∧ scan c t = ⟨.punctuator p, [c], t⟩ := by
  cases start c with
  | punctuator p hp => exact ⟨p, hp, scan_punctuator hp t⟩
  | dot hc =>
    subst hc
    change (scanDots t).kind.nesting ≠ 0 at h
    rcases kind_scanDots t with hk | ⟨fault, hk⟩ <;> rw [hk] at h <;> exact absurd rfl h
  | quote hc =>
    subst hc
    change (scanQuote t).kind.nesting ≠ 0 at h
    rcases kind_scanQuote t with hk | ⟨fault, hk⟩ <;> rw [hk] at h <;> exact absurd rfl h
  | name hc =>
    rw [scan_name hc] at h
    rcases nameKind_cases (c :: t.takeWhile isNameContinue) with hk | hk | hk | hk <;>
      simp [scanName, hk, Kind.nesting] at h
  | minus hc => exact absurd (nesting_of_isNumeric (isNumeric_scan (.inl hc) t)) h
  | digit hc => exact absurd (nesting_of_isNumeric (isNumeric_scan (.inr hc) t)) h
  | stray hs => rw [hs] at h; exact absurd rfl h

theorem Splits.eq_of_nesting_ne_zero {s front u rest : List Char} {kind : Kind} {c : Char}
    (h : Splits s front kind c u rest) (hne : kind.nesting ≠ 0) :
    u = [] ∧ ∃ p, Punctuator.ofChar? c = some p ∧ kind = .punctuator p := by
  have hnesting : (Lexis.scan c (u ++ rest)).kind.nesting ≠ 0 := h.scan ▸ hne
  obtain ⟨p, hp, hscan⟩ := scan_of_nesting_ne_zero hnesting
  obtain ⟨hkind, hu, -⟩ := Scanned.mk.inj (h.scan.symm.trans hscan)
  exact ⟨(List.cons.inj hu).2, p, hp, hkind⟩

/-- What a closing word and the token there have in common. -/
structure ClosingText (depth : Int) (k : Cursor) (trivia : List Trivia) (s : List Char)
    (inner : List Word) (w : Word) (mid : List Char) (c : Char) (post : List Char) (t : Token) :
    Prop where
  split : s = mid ++ c :: post
  inner : ∃ u front, mid = u ++ front ∧ Ignorable front ∧
    Takes inner (u ++ (front ++ c :: post)) (front ++ c :: post)
  punctuator : ∃ p, Punctuator.ofChar? c = some p ∧ p.nesting = -1 ∧ w = ⟨.punctuator p, [c], false⟩
  kind : t.kind = w.kind
  span : t.span = ⟨(k.past mid).place, (k.past (mid ++ [c])).place⟩
  close : VariableGroup.close? depth (tokensFrom k trivia s) =
    some (t, tokensFrom (k.past (mid ++ [c])) [] post)

theorem close?_of_closing?_none {depth : Int} (hd : 1 ≤ depth) {s : List Char}
    (h : closing? Word.bare depth (words s) = none) (k : Cursor) (trivia : List Trivia) :
    VariableGroup.close? depth (tokensFrom k trivia s) = none := by
  induction s using splits_induction generalizing depth k trivia with
  | nil s hs =>
    obtain ⟨t, hk, -, -, he⟩ := tokensFrom_of_dropIgnored_nil k trivia hs
    have hne : depth ≠ 0 := by omega
    simp [he, VariableGroup.close?, hk, Kind.nesting, hne]
  | cons s front kind c u rest hs ih =>
    obtain ⟨tok, hk, -, -, he⟩ := hs.exists_token k trivia
    rw [hs.words_eq] at h
    have hge := nesting_ge kind
    by_cases hne : depth + kind.nesting = 0
    · rw [closing?_cons_of_eq (n := kind.nesting) _ rfl hne] at h
      cases h
    · rw [closing?_cons_of_ne (n := kind.nesting) _ rfl hne] at h
      have hrest := ih (by omega) (Option.map_eq_none_iff.mp h) (k.past (front ++ c :: u)) []
      simp only [he, VariableGroup.close?, hk, hne, hs.sound.kind_ne_eof, if_false, hrest]

namespace ClosingText

variable {depth : Int} {k : Cursor} {s front u rest : List Char} {kind : Kind} {c : Char}

/-- The first word closes. -/
theorem here (hd : 1 ≤ depth) (h : Splits s front kind c u rest) (hzero : depth + kind.nesting = 0)
    (k : Cursor) (trivia : List Trivia) :
    ∃ t, ClosingText depth k trivia s [] (.ofScan ⟨kind, c :: u, rest⟩) front c rest t := by
  obtain ⟨rfl, p, hp, rfl⟩ := h.eq_of_nesting_ne_zero (by omega)
  obtain ⟨t, hk, -, hspan, he⟩ := h.exists_token k trivia
  refine ⟨t, h.text, ⟨[], front, rfl, h.ignorable, .nil _⟩, ⟨p, hp, ?_, rfl⟩, hk, hspan, ?_⟩
  · have hge := nesting_ge (.punctuator p)
    simp only [Kind.nesting] at hge hzero
    omega
  · simp only [he, VariableGroup.close?, hk, hzero, if_true]

/-- A word behind the first one closes. -/
theorem behind (h : Splits s front kind c u rest) (hne : depth + kind.nesting ≠ 0)
    {inner : List Word} {w : Word} {mid post : List Char} {d : Char} {t : Token}
    (hclose : ClosingText (depth + kind.nesting) (k.past (front ++ c :: u)) [] rest inner w mid d
      post t) (trivia : List Trivia) :
    ClosingText depth k trivia s (.ofScan ⟨kind, c :: u, rest⟩ :: inner) w (front ++ c :: u ++ mid)
      d post t := by
  obtain ⟨first, hk, -, -, he⟩ := h.exists_token k trivia
  obtain ⟨v, gap, rfl, hgap, htakes⟩ := hclose.inner
  obtain rfl : rest = v ++ (gap ++ d :: post) := by simp [hclose.split]
  have hs : s = front ++ c :: u ++ v ++ (gap ++ d :: post) := by simp [h.text]
  refine ⟨by simp [h.text], ⟨front ++ c :: u ++ v, gap, by simp, hgap, .cons (hs ▸ h) htakes⟩,
    hclose.punctuator, hclose.kind, ?_, ?_⟩
  · simp only [hclose.span, ← Cursor.past_append, List.append_assoc]
  · simp only [he, VariableGroup.close?, hk, hne, h.sound.kind_ne_eof, if_false, hclose.close,
      ← Cursor.past_append, List.append_assoc]

end ClosingText

theorem exists_closingText {depth : Int} (hd : 1 ≤ depth) {s : List Char} {inner ws : List Word}
    {w : Word} (h : closing? Word.bare depth (words s) = some (inner, w, ws)) (k : Cursor)
    (trivia : List Trivia) : ∃ mid c post t, words post = ws ∧
      ClosingText depth k trivia s inner w mid c post t := by
  induction s using splits_induction generalizing depth k trivia inner with
  | nil s hs => rw [words_of_dropIgnored_nil hs] at h; cases h
  | cons s front kind c u rest hs ih =>
    rw [hs.words_eq] at h
    have hge := nesting_ge kind
    by_cases hzero : depth + kind.nesting = 0
    · rw [closing?_cons_of_eq (n := kind.nesting) _ rfl hzero] at h
      cases h
      obtain ⟨t, hclose⟩ := ClosingText.here hd hs hzero k trivia
      exact ⟨front, c, rest, t, rfl, hclose⟩
    · rw [closing?_cons_of_ne (n := kind.nesting) _ rfl hzero] at h
      obtain ⟨⟨inner', w', ws'⟩, hx, hxe⟩ := Option.map_eq_some_iff.mp h
      cases hxe
      obtain ⟨mid, d, post, t, hws, hclose⟩ := ih (by omega) hx (k.past (front ++ c :: u)) []
      exact ⟨front ++ c :: u ++ mid, d, post, t, hws, hclose.behind hs hzero trivia⟩

/-! ## Frames in a text -/

/-- The tokens of words that are taken off a text, and those of the rest. The last word ends where
the rest starts. -/
theorem Takes.exists_tokens {ws : List Word} {s rest : List Char} (h : Takes ws s rest) (k : Cursor)
    (trivia : List Trivia) : ∃ u ts more, s = u ++ rest ∧ ts.map Token.bare = ws.map Word.bare ∧
      tokensFrom k trivia s = ts ++ tokensFrom (k.past u) more rest ∧
      ∀ t ∈ ts.getLast?, t.span.last = (k.past u).place := by
  induction h generalizing k trivia with
  | nil s => exact ⟨[], [], trivia, rfl, rfl, rfl, by simp⟩
  | @cons s front v t rest kind c ws h hs ih =>
    obtain ⟨tok, hk, ht, hspan, he⟩ := h.exists_token k trivia
    obtain ⟨u, ts, more, hu, hts, hmore, hlast⟩ := ih (k.past (front ++ c :: v)) []
    refine ⟨front ++ c :: v ++ u, tok :: ts, more, ?_, ?_, ?_, ?_⟩
    · simp [h.text, hu]
    · simp [hts, Token.bare, Word.bare, hk, ht]
    · rw [he, hmore, ← Cursor.past_append, List.cons_append]
    · rw [Cursor.past_append]
      cases ts with
      | nil =>
        -- no word behind this one takes any text
        obtain rfl : ws = [] := by simpa using hts.symm
        cases hs
        obtain rfl : u = [] := by simpa using hu
        simp [hspan]
      | cons a ts => simpa using hlast

theorem isName_iff (t : Token) (name : String) :
    t.isName name = true ↔ t.bare = (.name, name.toList) := by
  simp [Token.isName, Token.bare]

/-- The first tokens of a text and its first words say alike whether a frame starts there. -/
theorem front?_cons {n : Nat} {word name opening : Token} {ts : List Token} {v w x : Word}
    (hv : word.bare = v.bare) (hw : name.bare = w.bare) (hx : opening.bare = x.bare) :
    VariableGroup.front? n (word :: name :: opening :: ts) =
      if v.bare = (.name, "fragment".toList) ∧ w.bare.1 = .name ∧
          x.bare.1 = .punctuator .parenOpen then
        (VariableGroup.close? 1 ts).map fun y =>
          (⟨n, String.ofList w.text, opening, y.1⟩, y.2)
      else none := by
  have hk : name.kind = w.bare.1 := congrArg Prod.fst hw
  have ht : name.text = w.text := congrArg Prod.snd hw
  have ho : opening.kind = x.bare.1 := congrArg Prod.fst hx
  simp only [VariableGroup.front?, Bool.and_eq_true, beq_iff_eq, isName_iff, hv, hk, ht, ho,
    and_assoc]

theorem Token.bare_eq_ofScan {t : Token} {kind : Kind} {text : List Char} (hk : t.kind = kind)
    (ht : t.text = text) (rest : List Char) : t.bare = (Word.ofScan ⟨kind, text, rest⟩).bare := by
  rw [bare, hk, ht]
  rfl

theorem front?_of_frame?_none {s : List Char} (h : frame? Word.bare (words s) = none) (n : Nat)
    (k : Cursor) (trivia : List Trivia) :
    VariableGroup.front? n (tokensFrom k trivia s) = none := by
  obtain hd | ⟨front₁, kind₁, c₁, u₁, s₁, h₁⟩ := splits_cases s
  · obtain ⟨t, -, -, -, he⟩ := tokensFrom_of_dropIgnored_nil k trivia hd
    rw [he]
    rfl
  obtain ⟨word, hk₁, ht₁, -, he₁⟩ := h₁.exists_token k trivia
  generalize k.past (front₁ ++ c₁ :: u₁) = k₁ at he₁
  rw [h₁.words_eq] at h
  rw [he₁]
  obtain hd | ⟨front₂, kind₂, c₂, u₂, s₂, h₂⟩ := splits_cases s₁
  · obtain ⟨t, -, -, -, he⟩ := tokensFrom_of_dropIgnored_nil k₁ [] hd
    rw [he]
    rfl
  obtain ⟨name, hk₂, ht₂, -, he₂⟩ := h₂.exists_token k₁ []
  generalize k₁.past (front₂ ++ c₂ :: u₂) = k₂ at he₂
  rw [h₂.words_eq] at h
  rw [he₂]
  obtain hd | ⟨front₃, kind₃, c₃, u₃, s₃, h₃⟩ := splits_cases s₂
  · obtain ⟨t, hk, -, -, he⟩ := tokensFrom_of_dropIgnored_nil k₂ [] hd
    simp [he, VariableGroup.front?, hk]
  obtain ⟨opening, hk₃, ht₃, -, he₃⟩ := h₃.exists_token k₂ []
  rw [h₃.words_eq] at h
  rw [he₃, front?_cons (Token.bare_eq_ofScan hk₁ ht₁ s₁) (Token.bare_eq_ofScan hk₂ ht₂ s₂)
    (Token.bare_eq_ofScan hk₃ ht₃ s₃)]
  simp only [frame?] at h
  split at h
  · rename_i hcond
    rw [if_pos hcond, close?_of_closing?_none (Int.le_refl 1) (Option.map_eq_none_iff.mp h)]
    rfl
  · rename_i hcond
    exact if_neg hcond

/-- How a frame lies in a text. -/
structure FrameText (s : List Char) (f : Frame Word) (pre mid : List Char) (c : Char)
    (post : List Char) : Prop where
  split : s = pre ++ '(' :: (mid ++ c :: post)
  front : ∃ u gap, pre = u ++ gap ∧ Ignorable gap ∧
    Takes [f.word, f.name] s (gap ++ '(' :: (mid ++ c :: post))
  name : f.name.kind = .name
  opening : f.opening = ⟨.punctuator .parenOpen, ['('], false⟩
  inner : ∃ u gap, mid = u ++ gap ∧ Ignorable gap ∧
    Takes f.inner (u ++ (gap ++ c :: post)) (gap ++ c :: post)
  closing : ∃ p, Punctuator.ofChar? c = some p ∧ p.nesting = -1 ∧
    f.closing = ⟨.punctuator p, [c], false⟩

/-- The group that is found where a frame lies in the text at a cursor. -/
structure GroupText (k : Cursor) (g : VariableGroup) (n : Nat) (f : Frame Word)
    (pre mid : List Char) (c : Char) : Prop where
  definition : g.definition = n
  fragment : g.fragment = String.ofList f.name.text
  kind : g.closing.kind = f.closing.kind
  opening : g.opening.span = ⟨(k.past pre).place, (k.past (pre ++ ['('])).place⟩
  closing : g.closing.span =
    ⟨(k.past (pre ++ '(' :: mid)).place, (k.past (pre ++ '(' :: (mid ++ [c]))).place⟩

theorem eq_of_ofChar?_parenOpen {c : Char} (h : Punctuator.ofChar? c = some .parenOpen) :
    c = '(' := by
  unfold Punctuator.ofChar? at h
  split at h <;> first | rfl | cases h

/-- A text whose first word opens a group starts with a bracket, behind ignored text. -/
theorem exists_opening {s : List Char} {x : Word} {ws : List Word} (h : words s = x :: ws)
    (hx : x.kind = .punctuator .parenOpen) (k : Cursor) (trivia : List Trivia) :
    ∃ gap t opening, Ignorable gap ∧ s = gap ++ '(' :: t ∧ words t = ws ∧
      x = ⟨.punctuator .parenOpen, ['('], false⟩ ∧ opening.bare = x.bare ∧
      opening.span = ⟨(k.past gap).place, (k.past (gap ++ ['('])).place⟩ ∧
      tokensFrom k trivia s = opening :: tokensFrom (k.past (gap ++ ['('])) [] t := by
  obtain hd | ⟨gap, kind, c, u, t, hs⟩ := splits_cases s
  · rw [words_of_dropIgnored_nil hd] at h
    cases h
  rw [hs.words_eq] at h
  obtain ⟨rfl, htail⟩ := List.cons.inj h
  obtain rfl : kind = .punctuator .parenOpen := hx
  obtain ⟨rfl, p, hp, hkind⟩ := hs.eq_of_nesting_ne_zero (by decide)
  cases hkind
  obtain rfl := eq_of_ofChar?_parenOpen hp
  obtain ⟨opening, hk, ht, hspan, he⟩ := hs.exists_token k trivia
  exact ⟨gap, t, opening, hs.ignorable, hs.text, htail, rfl, Token.bare_eq_ofScan hk ht t, hspan,
    he⟩

theorem exists_frameText {s : List Char} {f : Frame Word} {ws : List Word}
    (h : frame? Word.bare (words s) = some (f, ws)) (n : Nat) (k : Cursor) (trivia : List Trivia) :
    ∃ pre mid c post g, words post = ws ∧ FrameText s f pre mid c post ∧
      GroupText k g n f pre mid c ∧ VariableGroup.front? n (tokensFrom k trivia s) =
        some (g, tokensFrom (k.past (pre ++ '(' :: (mid ++ [c]))) [] post) := by
  obtain ⟨hwords, hframe⟩ := frame?_eq_some Word.bare h
  have hwords : words s = [f.word, f.name] ++ f.opening :: (f.inner ++ f.closing :: ws) := by
    rw [hwords]
    simp [Frame.source]
  obtain ⟨r, htakes, hr⟩ := exists_takes hwords
  obtain ⟨u, ts, more, rfl, hts, htokens, -⟩ := htakes.exists_tokens k trivia
  obtain ⟨word, name, rfl⟩ : ∃ a b, ts = [a, b] := by
    rcases ts with _ | ⟨a, _ | ⟨b, _ | _⟩⟩ <;> simp_all
  simp only [List.map_cons, List.map_nil, List.cons.injEq] at hts
  obtain ⟨gap, t, opening, hgap, rfl, ht, hx, hbare, hspan, he⟩ :=
    exists_opening hr hframe.opening (k.past u) more
  have hclosing : closing? Word.bare 1 (words t) = some (f.inner, f.closing, ws) :=
    ht ▸ hframe.closing ws
  obtain ⟨mid, c, post, closing, hpost, hc⟩ :=
    exists_closingText (Int.le_refl 1) hclosing ((k.past u).past (gap ++ ['('])) []
  obtain rfl : t = mid ++ c :: post := hc.split
  refine ⟨u ++ gap, mid, c, post, ⟨n, String.ofList f.name.text, opening, closing⟩, hpost,
    ⟨by simp, ⟨u, gap, rfl, hgap, htakes⟩, hframe.name, hx, hc.inner, hc.punctuator⟩,
    ⟨rfl, rfl, hc.kind, ?_, ?_⟩, ?_⟩
  · simp only [hspan, ← Cursor.past_append, List.append_assoc]
  · simp only [hc.span, ← Cursor.past_append, List.append_assoc, List.cons_append, List.nil_append]
  · rw [htokens, he]
    refine (front?_cons hts.1 hts.2.1 hbare).trans ?_
    rw [if_pos ⟨hframe.word, hframe.name, hframe.opening⟩, hc.close]
    simp only [← Cursor.past_append, List.append_assoc, List.cons_append, List.nil_append,
      Option.map_some]

namespace FrameText

variable {s pre mid post : List Char} {f : Frame Word} {c : Char}

theorem two_le_length (h : FrameText s f pre mid c post) : 2 ≤ pre.length := by
  obtain ⟨u, gap, rfl, -, htakes⟩ := h.front
  have hle := htakes.length_le
  have hlength := congrArg List.length h.split
  simp only [List.length_append, List.length_cons, List.length_nil] at hle hlength ⊢
  omega

/-- The first two words of a frame can be taken off in front of other text that may follow a name.
-/
theorem exists_takes (h : FrameText s f pre mid c post) : ∃ u gap, pre = u ++ gap ∧ Ignorable gap ∧
    Takes [f.word, f.name] s (gap ++ '(' :: (mid ++ c :: post)) ∧
    ∀ other, Follows .name (gap ++ '(' :: (mid ++ c :: post)) other →
      Takes [f.word, f.name] (u ++ other) other := by
  obtain ⟨u, gap, rfl, hgap, htakes⟩ := h.front
  refine ⟨u, gap, rfl, hgap, htakes, fun other hother => ?_⟩
  refine htakes.replace (by rw [h.split]; simp) (fun hd => ?_) fun w hw => ?_
  · by_contra hne
    have hnone := hother.any_head extends_isDigit (Bool.eq_false_iff.mpr hne)
    exact absurd hd (by simp [hnone])
  · obtain rfl : f.name = w := by simpa using hw
    exact ⟨h.name ▸ hother, by simp [h.name, Kind.isNumber]⟩

/-- Blanks may follow a name, with or without the gap in front of a bracket. -/
theorem follows_blank {gaps : List Char} (hgaps : ∀ d ∈ gaps, isSkipped d = true) (hne : gaps ≠ [])
    (gap rest x : List Char) : Follows .name (gap ++ rest) (gap ++ (gaps ++ x)) := by
  obtain ⟨d, gaps, rfl⟩ := List.exists_cons_of_ne_nil hne
  have hd : isolates d = true := by simp [isolates, hgaps d (by simp)]
  by_cases hgap : gap = []
  · subst hgap
    exact .inl (ends_of_isError_eq_false rfl hd _)
  · exact .inr (looks_append hgap (by simp [extends_isDigit d (mem_isolators hd)]))

/-- A frame that is blanked out leaves its first two words. -/
theorem words_blank (h : FrameText s f pre mid c post) {gaps : List Char}
    (hgaps : ∀ d ∈ gaps, isSkipped d = true) (hne : gaps ≠ []) (x : List Char) :
    words (pre ++ gaps ++ x) = f.word :: f.name :: words x := by
  obtain ⟨u, gap, rfl, hgap, -, htakes⟩ := h.exists_takes
  have hwords := (htakes _ (follows_blank hgaps hne gap _ x)).words_eq
  rw [← List.append_assoc gap,
    words_append_of_ignorable (hgap.append (ignorable_of_all_isSkipped hgaps))] at hwords
  simpa using hwords

theorem mem_isolators_of_ofChar? {d : Char} (h : (Punctuator.ofChar? d).isSome = true) :
    d ∈ isolators := mem_isolators (by simp [isolates, h])

/-- What stands between the brackets is taken off the text in front of any bracket. -/
theorem exists_takes_mid (h : FrameText s f pre mid c post) {d : Char}
    (hd : (Punctuator.ofChar? d).isSome = true) (x : List Char) : ∃ u gap, mid = u ++ gap ∧
      Ignorable gap ∧ Takes f.inner (mid ++ d :: x) (gap ++ d :: x) := by
  obtain ⟨u, gap, rfl, hgap, htakes⟩ := h.inner
  obtain ⟨p, hp, -, -⟩ := h.closing
  have hdigit : d.isDigit = false := extends_isDigit d (mem_isolators_of_ofChar? hd)
  refine ⟨u, gap, rfl, hgap, ?_⟩
  rw [List.append_assoc]
  refine htakes.replace rfl ?_ ?_
  · cases gap with
    | nil => simp [hdigit]
    | cons a gap => exact id
  · intro w hw
    cases gap with
    | nil =>
      have hopen := htakes.isOpen_eq_false (by simp) w (List.mem_of_getLast? hw)
      refine ⟨.inl ⟨by simp [isolates, hd], hopen, fun _ => ?_⟩, fun _ => ?_⟩
      · rintro rfl; exact absurd hd (by decide)
      · simp [runsOn, Grammar.isDelimiter, hd, hp]
    | cons a gap => exact ⟨.inr (looks_append (by simp) (by simp [hdigit])), fun _ => rfl⟩

/-- What stands between the brackets has the same words in front of any bracket. -/
theorem words_mid (h : FrameText s f pre mid c post) {d : Char}
    (hd : (Punctuator.ofChar? d).isSome = true) (x : List Char) :
    words (mid ++ d :: x) = f.inner ++ words (d :: x) := by
  obtain ⟨u, gap, -, hgap, htakes⟩ := h.exists_takes_mid hd x
  rw [htakes.words_eq, words_append_of_ignorable hgap]

end FrameText

end QueryDoc.Lexis
