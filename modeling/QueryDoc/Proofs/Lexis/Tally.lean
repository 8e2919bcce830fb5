import QueryDoc.Proofs.Lexis.Word

/-!
# Counting along a text

The scan and the grammar each keep count of where they are in a text. Both counts are tallies: they
move over ignored text and over tokens, one after the other, and `run` notes the count in front of
each word.
-/
namespace QueryDoc.Lexis

/-- The ignored text in front of the first token. -/
def ignoredFront (s : List Char) : List Char := s.take (s.length - (dropIgnored false s).length)

theorem Splits.ignoredFront_eq {s front u rest : List Char} {kind : Kind} {c : Char}
    (h : Splits s front kind c u rest) : ignoredFront s = front := by
  have hlength : s.length - (c :: (u ++ rest)).length = front.length := by
    rw [h.text, List.length_append, Nat.add_sub_cancel]
  rw [ignoredFront, h.dropIgnored_eq, hlength, h.text, List.take_left']
  rfl

/-- A way to keep count: what ignored text does to the count, and what a token does. -/
structure Tally (σ : Type) where
  skip : σ → List Char → σ
  pass : σ → List Char → σ
  skip_nil : ∀ k, skip k [] = k
  skip_append : ∀ {front}, Ignorable front → ∀ k s, skip k (front ++ s) = skip (skip k front) s

namespace Tally

variable {σ : Type} (τ : Tally σ)

/-- The words of a text, each with the count in front of it, and the count behind the text. -/
def run (k : σ) (s : List Char) : List (Bare × σ) × σ :=
  match _h : dropIgnored false s with
  | [] => ([], τ.skip k s)
  | c :: rest =>
    let k := τ.skip k (ignoredFront s)
    let behind := run (τ.pass k (scan c rest).text) (scan c rest).rest
    ((((scan c rest).kind, (scan c rest).text), k) :: behind.1, behind.2)
termination_by s.length
decreasing_by
  have hs := length_dropIgnored_le false s
  rw [_h] at hs
  exact Nat.lt_of_lt_of_le (Nat.lt_succ_of_le (length_rest_scan c rest)) hs

theorem run_of_dropIgnored_nil {s : List Char} (h : dropIgnored false s = []) (k : σ) :
    τ.run k s = ([], τ.skip k s) := by
  rw [run]
  split
  · rfl
  · rename_i hc
    rw [h] at hc
    cases hc

theorem run_nil (k : σ) : τ.run k [] = ([], k) := by
  rw [τ.run_of_dropIgnored_nil rfl, τ.skip_nil]

theorem run_of_splits {s front u rest : List Char} {kind : Kind} {c : Char}
    (h : Splits s front kind c u rest) (k : σ) : τ.run k s =
      (((kind, c :: u), τ.skip k front) :: (τ.run (τ.pass (τ.skip k front) (c :: u)) rest).1,
        (τ.run (τ.pass (τ.skip k front) (c :: u)) rest).2) := by
  have hfront := h.ignoredFront_eq
  have hscan := h.scan
  have hd := h.dropIgnored_eq
  rw [run]
  split
  · rename_i hnil
    rw [hd] at hnil
    cases hnil
  · rename_i hcons
    rw [hd] at hcons
    obtain ⟨rfl, rfl⟩ := List.cons.inj hcons
    simp only [hfront, hscan]

theorem run_append_of_ignorable {front : List Char} (h : Ignorable front) (k : σ) (s : List Char) :
    τ.run k (front ++ s) = τ.run (τ.skip k front) s := by
  obtain hd | ⟨gap, kind, c, u, rest, hs⟩ := splits_cases s
  · rw [τ.run_of_dropIgnored_nil hd, τ.run_of_dropIgnored_nil ((h s).trans hd), τ.skip_append h]
  · have hfront : Splits (front ++ s) (front ++ gap) kind c u rest :=
      ⟨by rw [hs.text, List.append_assoc], h.append hs.ignorable, hs.starts, hs.scan⟩
    rw [τ.run_of_splits hs, τ.run_of_splits hfront, τ.skip_append h]

/-- From two counts that agree in front of the first word, a tally goes on alike. -/
theorem run_fst_congr {k l : σ} {s : List Char}
    (h : (τ.run k s).1.head? = (τ.run l s).1.head?) : (τ.run k s).1 = (τ.run l s).1 := by
  obtain hd | ⟨front, kind, c, u, rest, hs⟩ := splits_cases s
  · rw [τ.run_of_dropIgnored_nil hd, τ.run_of_dropIgnored_nil hd]
  · rw [τ.run_of_splits hs, τ.run_of_splits hs] at h ⊢
    have hskip : τ.skip k front = τ.skip l front := congrArg Prod.snd (Option.some.inj h)
    rw [hskip]

/-- A tally sees all words of a text. -/
theorem map_fst_run (k : σ) (s : List Char) : (τ.run k s).1.map Prod.fst = bares s := by
  induction s using splits_induction generalizing k with
  | nil s h => rw [τ.run_of_dropIgnored_nil h, bares_of_dropIgnored_nil h, List.map_nil]
  | cons s front kind c u rest h ih => rw [τ.run_of_splits h, List.map_cons, ih, h.bares_eq]

theorem length_run (k : σ) (s : List Char) : (τ.run k s).1.length = (words s).length := by
  have hlength := congrArg List.length (τ.map_fst_run k s)
  rwa [List.length_map, bares, List.length_map] at hlength

end Tally

/-! ## Cursors -/

/-- The count of the scan. -/
def cursors : Tally Cursor := ⟨Cursor.past, Cursor.past, Cursor.past_nil,
  fun _ k s => Cursor.past_append k _ s⟩

/-- The count behind a text is the cursor behind it. -/
theorem cursors_run_snd (k : Cursor) (s : List Char) : (cursors.run k s).2 = k.past s := by
  induction s using splits_induction generalizing k with
  | nil s h => rw [cursors.run_of_dropIgnored_nil h]; rfl
  | cons s front kind c u rest h ih =>
    rw [cursors.run_of_splits h, ih, h.text_eq, Cursor.past_append, Cursor.past_append]
    rfl

/-- A token without its trivia. -/
def Token.untrivial (t : Token) : Bare × Span := (t.bare, t.span)

/-- A word that is read at a cursor, with its span. -/
def spanned (x : Bare × Cursor) : Bare × Span := (x.1, ⟨x.2.place, (x.2.past x.1.2).place⟩)

/-- The words of a text with the cursors in front of them are its tokens. -/
theorem map_untrivial_tokensFrom (k : Cursor) (trivia : List Trivia) (s : List Char) :
    ((tokensFrom k trivia s).filter Token.isSignificant).map Token.untrivial =
      (cursors.run k s).1.map spanned := by
  induction s using splits_induction generalizing k trivia with
  | nil s h =>
    obtain ⟨t, hk, -, -, he⟩ := tokensFrom_of_dropIgnored_nil k trivia h
    simp [cursors.run_of_dropIgnored_nil h, he, Token.isSignificant, hk]
  | cons s front kind c u rest h ih =>
    obtain ⟨t, hk, ht, hspan, he⟩ := h.exists_token k trivia
    have hsig : t.isSignificant = true := by
      simpa [Token.isSignificant, hk] using h.sound.kind_ne_eof
    rw [he, List.filter_cons_of_pos hsig, List.map_cons, ih, cursors.run_of_splits h, List.map_cons,
      Token.untrivial, hspan, Token.bare, hk, ht, Cursor.past_append]
    rfl

/-! ## Parts of a text -/

/-- A token may be followed by less of the text behind it. -/
theorem follows_left (kind : Kind) (gap rest : List Char) : Follows kind (gap ++ rest) gap := by
  by_cases hne : gap = []
  · exact .inl (hne ▸ trivial)
  · have hlooks : Looks (gap ++ rest) (gap ++ []) := looks_append hne (by simp)
    exact .inr (by rwa [List.append_nil] at hlooks)

/-- A split that does not reach as far as the text goes is one of the part in front. -/
theorem Splits.left {front u gap rest : List Char} {kind : Kind} {c : Char}
    (h : Splits (front ++ c :: (u ++ gap) ++ rest) front kind c u (gap ++ rest)) :
    Splits (front ++ c :: (u ++ gap)) front kind c u gap :=
  h.replace (follows_left kind gap rest)

end QueryDoc.Lexis
