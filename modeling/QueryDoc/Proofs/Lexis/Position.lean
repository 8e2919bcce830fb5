import Mathlib.Data.List.DropRight
import Mathlib.Data.List.Induction
import QueryDoc.Proofs.Lexis.Tiling

/-!
# Positions

A place is told by the text in front of it: by its line ends, by what stands behind the last of them
and by its bytes. The cursor counts these from one character to the next (`past_start`), so the
spans of tokens and trivia run from the place of the text in front of them to the place of that text
with their own behind it (`place_of_tiles`).
-/
namespace QueryDoc.Lexis

open QueryDoc.Grammar (byteLength)

/-- The number of line ends in a text: every LF, and every CR but one in front of an LF, since the
two are one line end. -/
def lineEnds : List Char → Nat
  | [] => 0
  | c :: s => lineEnds s + if c = '\n' ∨ c = '\r' ∧ s.head? ≠ some '\n' then 1 else 0

/-- What stands behind the last LF or CR of a text. -/
def lastLine (s : List Char) : List Char := s.rtakeWhile (!isLineEnd ·)

/-- The 16-bit units of a character: its number, or two surrogates. -/
def encode16 (c : Char) : List Nat :=
  if c.toNat < 0x10000 then [c.toNat]
  else [0xD800 + (c.toNat - 0x10000) / 0x400, 0xDC00 + (c.toNat - 0x10000) % 0x400]

/-- The place behind a text, counted over the whole of it. -/
def Place.behind (s : List Char) : Place :=
  ⟨lineEnds s, (lastLine s).length, ((lastLine s).flatMap encode16).length, byteLength s⟩

/-! ## One more character -/

theorem length_encode16 (c : Char) : (encode16 c).length = units16 c := by
  unfold encode16 units16
  split <;> rfl

/-- A CR ends a line, and so does an LF unless it stands behind a CR. -/
theorem lineEnds_concat (s : List Char) (c : Char) : lineEnds (s ++ [c]) = lineEnds s +
    if c = '\r' ∨ c = '\n' ∧ s.getLast? ≠ some '\r' then 1 else 0 := by
  induction s with
  | nil =>
    simp only [List.nil_append, lineEnds, List.getLast?_nil, List.head?_nil]
    grind
  | cons d s ih =>
    rw [List.cons_append, lineEnds, ih, lineEnds]
    cases s <;> grind

theorem lastLine_concat (s : List Char) (c : Char) :
    lastLine (s ++ [c]) = if isLineEnd c then [] else lastLine s ++ [c] := by
  rw [lastLine, List.rtakeWhile_concat]
  cases isLineEnd c <;> rfl

theorem lastLine_of_getLast? {s : List Char} {c : Char} (h : s.getLast? = some c)
    (hc : isLineEnd c = true) : lastLine s = [] := by
  obtain ⟨front, rfl⟩ := List.getLast?_eq_some_iff.mp h
  rw [lastLine_concat, if_pos hc]

/-! ## All of a text -/

/-- A cursor is at the place behind the text that it has passed, and knows whether that ends with
a CR. -/
theorem past_start (s : List Char) :
    Cursor.start.past s = ⟨.behind s, s.getLast? == some '\r'⟩ := by
  induction s using List.reverseRecOn with
  | nil => rfl
  | append_singleton s c ih =>
    rw [Cursor.past_append, Cursor.past_cons, Cursor.past_nil, ih, Cursor.advance]
    simp only [Place.behind, lineEnds_concat, lastLine_concat, List.getLast?_concat,
      byteLength_append, byteLength, Nat.add_zero]
    by_cases hn : c = '\n'
    · subst hn
      by_cases hs : s.getLast? = some '\r'
      · -- behind a CR the columns are zero already
        simp [hs, lastLine_of_getLast? hs rfl, isLineEnd]
      · simp [hs, isLineEnd]
    · by_cases hr : c = '\r'
      · subst hr
        simp [isLineEnd]
      · have hc : isLineEnd c = false := by simp [isLineEnd, hn, hr]
        simp [hn, hr, hc, length_encode16]

theorem spanBehind_eq (front text : List Char) :
    spanBehind front text = ⟨.behind front, .behind (front ++ text)⟩ := by
  rw [spanBehind, past_start, past_start]

/-- A place is the one behind the part of the text in front of it. -/
theorem behind_slice (front behind : List Char) :
    Place.behind (slice 0 (Place.behind front).offset (front ++ behind)) = .behind front :=
  congrArg Place.behind (slice_append [] front behind)

/-- Every place at which a token or trivia starts or ends is the place behind the text up to its
offset: its line is the number of line ends there, its columns count the characters and the 16-bit
units behind the last one. -/
theorem place_of_tiles (s : List Char) :
    ∀ t ∈ tiles s, ∀ p, p = t.span.first ∨ p = t.span.last → p = .behind (slice 0 p.offset s) := by
  intro t ht p hp
  obtain ⟨front, behind, hs, hspan⟩ := (laid_tiles s).exists_span ht
  rw [List.nil_append, spanBehind_eq] at hspan
  rw [hspan] at hp
  rcases hp with rfl | rfl
  · rw [hs, List.append_assoc, behind_slice]
  · rw [hs, behind_slice]

/-- A name behind a block string, in front of which a CRLF and a CR end a line each. -/
theorem place_behind_block :
    ⟨⟨⟨2, 4, 5, 14⟩, ⟨2, 5, 6, 15⟩⟩, ['x']⟩ ∈ tiles "#\r\n\"\"\"\r🎉\"\"\"x".toList ∧
      (⟨2, 4, 5, 14⟩ : Place) = .behind "#\r\n\"\"\"\r🎉\"\"\"".toList := by
  have hx : ⟨⟨⟨2, 4, 5, 14⟩, ⟨2, 5, 6, 15⟩⟩, ['x']⟩ ∈ tiles "#\r\n\"\"\"\r🎉\"\"\"x".toList := by
    decide +kernel
  exact ⟨hx, place_of_tiles _ _ hx _ (.inl rfl)⟩

end QueryDoc.Lexis
