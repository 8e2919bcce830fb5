import QueryDoc.Grammar.Lexer
import QueryDoc.Lexis.Key
import QueryDoc.Proofs.Lexis.Scan

/-!
# Words

A word is a token without its place and its trivia, together with the one thing the grammar can tell
about its surroundings: whether a number is glued to the text behind it. A text is split by its
first scan (`Splits`), and its words and its tokens both follow these splits.
-/
namespace QueryDoc.Lexis

/-! ## Ignored text -/

/-- The text behind the ignored text in front. -/
def dropIgnored (inComment : Bool) : List Char → List Char
  | [] => []
  | c :: rest =>
    if inComment then dropIgnored (!isLineEnd c) rest
    else if isSkipped c || c == ',' then dropIgnored false rest
    else if c == '#' then dropIgnored true rest
    else c :: rest

/-- Does the character start a token? -/
def startsToken (c : Char) : Bool := !(isSkipped c || c == ',' || c == '#')

theorem startsToken_of_ofChar? {c : Char} {p : Punctuator} (h : Punctuator.ofChar? c = some p) :
    startsToken c = true := by
  unfold Punctuator.ofChar? at h
  split at h <;> first | rfl | cases h

theorem dropIgnored_cons_of_startsToken {c : Char} (h : startsToken c = true) (rest : List Char) :
    dropIgnored false (c :: rest) = c :: rest := by
  simp_all [startsToken, dropIgnored]

theorem dropIgnored_cons_of_isSkipped {c : Char} (h : isSkipped c = true) (rest : List Char) :
    dropIgnored false (c :: rest) = dropIgnored false rest := by
  simp [dropIgnored, h]

theorem isSkipped_of_isLineEnd {c : Char} (h : isLineEnd c = true) : isSkipped c = true := by
  simp only [isLineEnd, Bool.or_eq_true, beq_iff_eq] at h
  rcases h with rfl | rfl <;> rfl

theorem length_dropIgnored_le (inComment : Bool) (s : List Char) :
    (dropIgnored inComment s).length ≤ s.length := by
  fun_induction dropIgnored inComment s <;> simp_all <;> omega

/-- A comment is over where its line is. -/
theorem dropIgnored_true (s : List Char) :
    dropIgnored true s = dropIgnored false (s.dropWhile (!isLineEnd ·)) := by
  induction s with
  | nil => rfl
  | cons c s ih =>
    cases h : isLineEnd c
    · simp [dropIgnored, h, ih]
    · simp [dropIgnored, h, isSkipped_of_isLineEnd h]

/-- Where nothing but ignored text is left, what follows is read from the start, or as a part of a
comment. -/
theorem dropIgnored_append_of_nil {inComment : Bool} {gap : List Char}
    (h : dropIgnored inComment gap = []) :
    (∀ y, dropIgnored inComment (gap ++ y) = dropIgnored false y) ∨
      ∀ y, dropIgnored inComment (gap ++ y) = dropIgnored true y := by
  fun_induction dropIgnored inComment gap with
  | case1 inComment =>
    cases inComment with
    | false => exact .inl fun _ => rfl
    | true => exact .inr fun _ => rfl
  | case2 c rest ih => simpa [dropIgnored] using ih h
  | case3 inComment c rest hc hskip ih => simpa [dropIgnored, hc, hskip] using ih h
  | case4 inComment c rest hc hskip hash ih => simpa [dropIgnored, hc, hskip, hash] using ih h
  | case5 => cases h

/-- Text that is ignored in front of anything. -/
def Ignorable (front : List Char) : Prop :=
  ∀ y, dropIgnored false (front ++ y) = dropIgnored false y

theorem Ignorable.append {a b : List Char} (ha : Ignorable a) (hb : Ignorable b) :
    Ignorable (a ++ b) := fun y => by rw [List.append_assoc, ha, hb]

theorem dropIgnored_of_ignorable {gap : List Char} (h : Ignorable gap) :
    dropIgnored false gap = [] := by
  have hgap := h []
  rwa [List.append_nil] at hgap

theorem ignorable_of_all_isSkipped {s : List Char} (h : ∀ c ∈ s, isSkipped c = true) :
    Ignorable s := by
  intro y
  induction s with
  | nil => rfl
  | cons c s ih =>
    rw [List.cons_append, dropIgnored_cons_of_isSkipped (h c (by simp))]
    exact ih fun d hd => h d (by simp [hd])

theorem exists_front_of_dropIgnored {inComment : Bool} {s rest : List Char} {c : Char}
    (h : dropIgnored inComment s = c :: rest) :
    startsToken c = true ∧ ∃ front, s = front ++ c :: rest ∧
      ∀ y, dropIgnored inComment (front ++ y) = dropIgnored false y := by
  induction s generalizing inComment with
  | nil => simp [dropIgnored] at h
  | cons d s ih =>
    -- a character that is dropped goes in front of what the rest drops
    have drop {b : Bool} (hd : ∀ y, dropIgnored inComment (d :: y) = dropIgnored b y) :
        startsToken c = true ∧ ∃ front, d :: s = front ++ c :: rest ∧
          ∀ y, dropIgnored inComment (front ++ y) = dropIgnored false y := by
      obtain ⟨hc, front, rfl, hf⟩ := ih ((hd s).symm.trans h)
      exact ⟨hc, d :: front, rfl, fun y => (hd _).trans (hf y)⟩
    cases inComment with
    | true => exact drop fun y => by simp [dropIgnored]; rfl
    | false =>
      by_cases skip : isSkipped d = true ∨ d = ','
      · exact drop fun y => by simp [dropIgnored, skip]; rfl
      · by_cases hash : d = '#'
        · exact drop fun y => by simp [dropIgnored, hash]; rfl
        · have hd : startsToken d = true := by simp_all [startsToken]
          rw [dropIgnored_cons_of_startsToken hd] at h
          obtain ⟨rfl, rfl⟩ := List.cons.inj h
          exact ⟨hd, [], rfl, fun y => rfl⟩

/-- What is in front of a token is ignorable. -/
theorem exists_ignorable {s rest : List Char} {c : Char}
    (h : dropIgnored false s = c :: rest) :
    startsToken c = true ∧ ∃ front, s = front ++ c :: rest ∧ Ignorable front :=
  exists_front_of_dropIgnored h

/-! ## Words -/

/-- Does a number go on in the text behind it, as the grammar sees it? -/
def runsOn (rest : List Char) : Bool := rest.head?.any (!Grammar.isDelimiter ·)

structure Word where
  kind : Kind
  text : List Char
  glued : Bool
  deriving DecidableEq, Repr

def Word.ofScan (s : Scanned Kind) : Word := ⟨s.kind, s.text, s.kind.isNumber && runsOn s.rest⟩

@[simp] theorem Word.kind_ofScan (s : Scanned Kind) : (ofScan s).kind = s.kind := rfl

@[simp] theorem Word.text_ofScan (s : Scanned Kind) : (ofScan s).text = s.text := rfl

abbrev Bare := Kind × List Char

/-- A word without its surroundings. -/
def Word.bare (w : Word) : Bare := (w.kind, w.text)

def Token.bare (t : Token) : Bare := (t.kind, t.text)

/-- The words of a text, in order. -/
def words (s : List Char) : List Word :=
  match _h : dropIgnored false s with
  | [] => []
  | c :: rest => .ofScan (scan c rest) :: words (scan c rest).rest
termination_by s.length
decreasing_by
  have hs := length_dropIgnored_le false s
  rw [_h] at hs
  exact Nat.lt_of_lt_of_le (Nat.lt_succ_of_le (length_rest_scan c rest)) hs

/-- The words of a text without their surroundings. -/
def bares (s : List Char) : List Bare := (words s).map Word.bare

theorem words_of_dropIgnored_nil {s : List Char} (h : dropIgnored false s = []) :
    words s = [] := by
  rw [words]; split <;> simp_all

theorem bares_of_dropIgnored_nil {s : List Char} (h : dropIgnored false s = []) :
    bares s = [] := by rw [bares, words_of_dropIgnored_nil h, List.map_nil]

theorem words_of_dropIgnored_cons {s rest : List Char} {c : Char}
    (h : dropIgnored false s = c :: rest) :
    words s = .ofScan (scan c rest) :: words (scan c rest).rest := by
  rw [words]
  split
  · simp_all
  · obtain ⟨rfl, rfl⟩ := List.cons.inj (h.symm.trans ‹_›)
    rfl

theorem words_congr {s s' : List Char} (h : dropIgnored false s = dropIgnored false s') :
    words s = words s' := by
  cases hs : dropIgnored false s with
  | nil => rw [words_of_dropIgnored_nil hs, words_of_dropIgnored_nil (h.symm.trans hs)]
  | cons c rest => rw [words_of_dropIgnored_cons hs, words_of_dropIgnored_cons (h.symm.trans hs)]

theorem words_append_of_ignorable {front : List Char} (h : Ignorable front) (s : List Char) :
    words (front ++ s) = words s := words_congr (h s)

/-- Words are read one by one: the induction follows the scans of a text. -/
theorem words_induction {P : List Char → Prop}
    (nil : ∀ s, dropIgnored false s = [] → P s)
    (cons : ∀ s c rest, dropIgnored false s = c :: rest → P (scan c rest).rest → P s)
    (s : List Char) : P s := by
  fun_induction words s with
  | case1 s h => exact nil s h
  | case2 s c rest h ih => exact cons s c rest h ih

/-! ## Splits -/

/-- How the first scan splits a text. -/
structure Splits (s front : List Char) (kind : Kind) (c : Char) (u rest : List Char) : Prop where
  text : s = front ++ c :: (u ++ rest)
  ignorable : Ignorable front
  starts : startsToken c = true
  scan : scan c (u ++ rest) = ⟨kind, c :: u, rest⟩

theorem exists_splits {s t : List Char} {c : Char} (h : dropIgnored false s = c :: t) :
    ∃ front u, t = u ++ (scan c t).rest ∧
      Splits s front (scan c t).kind c u (scan c t).rest := by
  obtain ⟨hc, front, hs, hf⟩ := exists_ignorable h
  obtain ⟨u, ht, hr⟩ := exists_scan_eq c t
  exact ⟨front, u, hr, by rw [← hr, hs], hf, hc, by rw [← hr, ← ht]⟩

/-- A text that starts with a token is split there. -/
theorem splits_of_startsToken {c : Char} (h : startsToken c = true) (t : List Char) :
    ∃ u, (scan c t).text = c :: u ∧ Splits (c :: t) [] (scan c t).kind c u (scan c t).rest := by
  obtain ⟨u, ht, hr⟩ := exists_scan_eq c t
  exact ⟨u, ht, by rw [← hr]; rfl, fun y => rfl, h, by rw [← hr, ← ht]⟩

/-- A text is split behind a punctuator. -/
theorem splits_punctuator {c : Char} {p : Punctuator} (hc : Punctuator.ofChar? c = some p)
    {gap : List Char} (hgap : Ignorable gap) (rest : List Char) :
    Splits (gap ++ c :: rest) gap (.punctuator p) c [] rest :=
  ⟨rfl, hgap, startsToken_of_ofChar? hc, scan_punctuator hc rest⟩

/-- A text is split as long as it holds a token. -/
theorem splits_cases (s : List Char) :
    dropIgnored false s = [] ∨ ∃ front kind c u rest, Splits s front kind c u rest := by
  cases h : dropIgnored false s with
  | nil => exact .inl rfl
  | cons c t =>
    obtain ⟨front, u, -, hs⟩ := exists_splits h
    exact .inr ⟨front, _, c, u, _, hs⟩

/-- A text is split again and again. -/
theorem splits_induction {P : List Char → Prop} (nil : ∀ s, dropIgnored false s = [] → P s)
    (cons : ∀ s front kind c u rest, Splits s front kind c u rest → P rest → P s)
    (s : List Char) : P s := by
  induction s using words_induction with
  | nil s h => exact nil s h
  | cons s c t h ih =>
    obtain ⟨front, u, -, hs⟩ := exists_splits h
    exact cons s front _ c u _ hs ih

namespace Splits

variable {s front u rest : List Char} {kind : Kind} {c : Char}

theorem text_eq (h : Splits s front kind c u rest) : s = front ++ c :: u ++ rest := by
  simp [h.text]

theorem dropIgnored_eq (h : Splits s front kind c u rest) :
    dropIgnored false s = c :: (u ++ rest) := by
  rw [h.text, h.ignorable, dropIgnored_cons_of_startsToken h.starts]

theorem words_eq (h : Splits s front kind c u rest) :
    words s = .ofScan ⟨kind, c :: u, rest⟩ :: words rest := by
  rw [words_of_dropIgnored_cons h.dropIgnored_eq, h.scan]

theorem bares_eq (h : Splits s front kind c u rest) :
    bares s = (kind, c :: u) :: bares rest := by
  rw [bares, h.words_eq]
  rfl

/-- There is one way to split a text. -/
theorem unique (h : Splits s front kind c u rest) {front' u' rest' : List Char} {kind' : Kind}
    {c' : Char} (h' : Splits s front' kind' c' u' rest') :
    kind = kind' ∧ front = front' ∧ c = c' ∧ u = u' ∧ rest = rest' := by
  obtain ⟨rfl, htail⟩ := List.cons.inj (h.dropIgnored_eq.symm.trans h'.dropIgnored_eq)
  have hscan := h'.scan
  rw [← htail, h.scan] at hscan
  obtain ⟨hkind, htext, rfl⟩ := Scanned.mk.inj hscan
  obtain ⟨-, rfl⟩ := List.cons.inj htext
  exact ⟨hkind, List.append_cancel_right (h.text.symm.trans h'.text), rfl, rfl, rfl⟩

theorem length_lt (h : Splits s front kind c u rest) : rest.length < s.length := by
  have hlength := congrArg List.length h.text
  simp only [List.length_append, List.length_cons] at hlength
  omega

/-- What is split off can stand in front of other text. -/
theorem replace (h : Splits s front kind c u rest) {other : List Char}
    (ho : Follows kind rest other) : Splits (front ++ c :: (u ++ other)) front kind c u other :=
  ⟨rfl, h.ignorable, h.starts, scan_append h.scan ho⟩

theorem sound (h : Splits s front kind c u rest) : Sound ⟨kind, c :: u, rest⟩ :=
  h.scan ▸ sound_scan c (u ++ rest)

end Splits

/-! ## Tokens and words -/

/-- Behind ignored text there is nothing but the end. -/
theorem tokensFrom_of_dropIgnored_nil (k : Cursor) (trivia : List Trivia) {s : List Char}
    (h : dropIgnored false s = []) :
    ∃ t : Token, t.kind = .eof ∧ t.text = [] ∧ t.span = ⟨(k.past s).place, (k.past s).place⟩ ∧
      tokensFrom k trivia s = [t] := by
  fun_induction tokensFrom k trivia s with
  | case1 k trivia => exact ⟨_, rfl, rfl, rfl, rfl⟩
  | case2 k trivia c rest after hc ih =>
    exact ih ((dropIgnored_cons_of_isSkipped hc rest).symm.trans h)
  | case3 k trivia c rest after hc comma ih =>
    exact ih (by simpa [dropIgnored, hc, comma] using h)
  | case4 k trivia c rest after hc comma hash text behind ih =>
    have hrest : dropIgnored true rest = [] := by simp_all [dropIgnored]
    obtain ⟨t, hk, ht, hs, he⟩ := ih ((dropIgnored_true rest).symm.trans hrest)
    refine ⟨t, hk, ht, ?_, he⟩
    have hp : k.past (c :: rest) = behind.past (rest.dropWhile (!isLineEnd ·)) := by
      simp only [behind, text, ← Cursor.past_append, List.takeWhile_append_dropWhile]
      rfl
    rw [hs, hp]
  | case5 => simp_all [dropIgnored]

/-- The first token is the first scan, and its span is where the scan stands in the text. -/
theorem tokensFrom_of_dropIgnored_cons (k : Cursor) (trivia : List Trivia) {s rest : List Char}
    {c : Char} (h : dropIgnored false s = c :: rest) :
    ∃ (front : List Char) (t : Token), s = front ++ c :: rest ∧ Ignorable front ∧
      t.kind = (scan c rest).kind ∧ t.text = (scan c rest).text ∧
      t.span = ⟨(k.past front).place, ((k.past front).past t.text).place⟩ ∧
      tokensFrom k trivia s =
        t :: tokensFrom ((k.past front).past t.text) [] (scan c rest).rest := by
  obtain ⟨-, front, hs, hf⟩ := exists_ignorable h
  suffices ∃ (other : List Char) (t : Token), s = other ++ c :: rest ∧
      t.kind = (scan c rest).kind ∧ t.text = (scan c rest).text ∧
      t.span = ⟨(k.past other).place, ((k.past other).past t.text).place⟩ ∧
      tokensFrom k trivia s = t :: tokensFrom ((k.past other).past t.text) [] (scan c rest).rest by
    obtain ⟨other, t, he, ht⟩ := this
    obtain rfl : other = front := List.append_cancel_right (he.symm.trans hs)
    exact ⟨other, t, hs, hf, ht⟩
  clear hs hf front
  fun_induction tokensFrom k trivia s with
  | case1 k trivia => simp [dropIgnored] at h
  | case2 k trivia d s after hd ih =>
    obtain ⟨front, t, hs, hk, ht, hp, he⟩ := ih ((dropIgnored_cons_of_isSkipped hd s).symm.trans h)
    exact ⟨d :: front, t, by rw [hs]; rfl, hk, ht, hp, he⟩
  | case3 k trivia d s after hd comma ih =>
    obtain ⟨front, t, hs, hk, ht, hp, he⟩ := ih (by simpa [dropIgnored, hd, comma] using h)
    exact ⟨d :: front, t, by rw [hs]; rfl, hk, ht, hp, he⟩
  | case4 k trivia d s after hd comma hash text behind ih =>
    have hrest : dropIgnored true s = c :: rest := by simp_all [dropIgnored]
    obtain ⟨front, t, hs, hk, ht, hp, he⟩ := ih ((dropIgnored_true s).symm.trans hrest)
    have split : s = text ++ (front ++ c :: rest) := by
      rw [← hs, List.takeWhile_append_dropWhile]
    refine ⟨d :: text ++ front, t, by rw [split]; simp, hk, ht, ?_, ?_⟩
    · simpa [behind, after] using hp
    · simpa [behind, after] using he
  | case5 k trivia d s after hd comma hash =>
    have hstart : startsToken d = true := by simp_all [startsToken]
    rw [dropIgnored_cons_of_startsToken hstart] at h
    obtain ⟨rfl, rfl⟩ := List.cons.inj h
    exact ⟨[], _, rfl, rfl, rfl, rfl, rfl⟩

/-- The first token is split off together with its word. -/
theorem Splits.exists_token {s front u rest : List Char} {kind : Kind} {c : Char}
    (h : Splits s front kind c u rest) (k : Cursor) (trivia : List Trivia) :
    ∃ t : Token, t.kind = kind ∧ t.text = c :: u ∧
      t.span = ⟨(k.past front).place, (k.past (front ++ c :: u)).place⟩ ∧
      tokensFrom k trivia s = t :: tokensFrom (k.past (front ++ c :: u)) [] rest := by
  obtain ⟨other, t, hs, -, hk, ht, hp, he⟩ :=
    tokensFrom_of_dropIgnored_cons k trivia h.dropIgnored_eq
  obtain rfl : other = front := List.append_cancel_right (hs.symm.trans h.text)
  rw [h.scan] at hk ht he
  rw [ht, ← Cursor.past_append] at hp he
  exact ⟨t, hk, ht, hp, he⟩

theorem map_bare_tokensFrom (k : Cursor) (s : List Char) :
    ((tokensFrom k [] s).filter Token.isSignificant).map Token.bare = bares s := by
  induction s using splits_induction generalizing k with
  | nil s h =>
    obtain ⟨t, hk, -, -, he⟩ := tokensFrom_of_dropIgnored_nil k [] h
    simp [bares_of_dropIgnored_nil h, he, Token.isSignificant, hk]
  | cons s front kind c u rest h ih =>
    obtain ⟨t, hk, ht, -, he⟩ := h.exists_token k []
    have hsig : t.isSignificant = true := by
      simpa [Token.isSignificant, hk] using h.sound.kind_ne_eof
    rw [he, List.filter_cons_of_pos hsig, List.map_cons, ih, h.bares_eq, Token.bare, hk, ht]

/-- The tokens that count are the words. -/
theorem map_bare_significant (s : List Char) :
    (significant s).map Token.bare = bares s := map_bare_tokensFrom .start s

end QueryDoc.Lexis
