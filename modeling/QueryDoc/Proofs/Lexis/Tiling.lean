import QueryDoc.Proofs.Lexis.Offset
import QueryDoc.Proofs.Lexis.Word

/-!
# Tilings

The trivia and the tokens of a text are laid side by side in it, with nothing but skipped characters
between them (`laid_tiles`). Each stands at the offsets of its span, so that the parts of the text
between the spans and the texts of the tiles make up the text again.
-/
namespace QueryDoc.Lexis

open QueryDoc.Grammar (byteLength)

/-- A part of a text that is kept, with the span that it was read from. -/
structure Tile where
  span : Span
  text : List Char
  deriving DecidableEq, Repr

namespace Tile

/-- The offsets of the first byte and of the one behind the last. -/
def first (t : Tile) : Nat := t.span.first.offset
def last (t : Tile) : Nat := t.span.last.offset

end Tile

def Trivia.tile : Trivia → Tile
  | .comment text span => ⟨span, '#' :: text⟩
  | .comma span => ⟨span, [',']⟩

def Token.tile (t : Token) : Tile := ⟨t.span, t.text⟩

/-- The trivia in front of a token, and the token. -/
def Token.tiles (t : Token) : List Tile := t.trivia.map Trivia.tile ++ [t.tile]

/-- The trivia and the tokens of a text, in the order they stand in. -/
def tiles (s : List Char) : List Tile := (tokens s).flatMap Token.tiles

/-! ## Laying tiles -/

/-- The span of a text that stands behind `front`. -/
def spanBehind (front text : List Char) : Span :=
  ⟨(Cursor.start.past front).place, (Cursor.start.past (front ++ text)).place⟩

/-- The tiles make up a text, which stands behind `front`, with skipped characters in front of each
and nothing behind the last. -/
inductive Laid : List Char → List Tile → List Char → Prop where
  | nil (front : List Char) : Laid front [] []
  | cons {front s : List Char} {t : Tile} {ts : List Tile} (gap behind : List Char)
    (text : s = gap ++ t.text ++ behind) (skipped : ∀ c ∈ gap, isSkipped c = true)
    (span : t.span = spanBehind (front ++ gap) t.text)
    (laid : Laid (front ++ gap ++ t.text) ts behind) : Laid front (t :: ts) s

namespace Laid

variable {front s : List Char} {t : Tile} {ts : List Tile}

/-- A tile without a gap in front. -/
theorem here {rest : List Char} (hs : s = t.text ++ rest) (hspan : t.span = spanBehind front t.text)
    (h : Laid (front ++ t.text) ts rest) : Laid front (t :: ts) s :=
  .cons [] rest (by simpa using hs) (by simp) (by simpa using hspan) (by simpa using h)

/-- A skipped character goes into the gap in front of the first tile. -/
theorem skip {c : Char} (hc : isSkipped c = true) (h : Laid (front ++ [c]) (t :: ts) s) :
    Laid front (t :: ts) (c :: s) := by
  cases h with
  | cons gap behind text skipped span laid =>
    refine .cons (c :: gap) behind (by simp [text]) ?_ (by simpa using span) (by simpa using laid)
    exact List.forall_mem_cons.mpr ⟨hc, skipped⟩

end Laid

theorem exists_laid (k : Cursor) (trivia : List Trivia) (s front : List Char)
    (hk : k = Cursor.start.past front) :
    ∃ t ts, (tokensFrom k trivia s).flatMap Token.tiles = trivia.map Trivia.tile ++ t :: ts ∧
      Laid front (t :: ts) s := by
  fun_induction tokensFrom k trivia s generalizing front with
  | case1 k trivia =>
    refine ⟨⟨⟨k.place, k.place⟩, []⟩, [], by simp [Token.tiles, Token.tile], ?_⟩
    exact .here rfl (by simp [spanBehind, hk]) (.nil _)
  | case2 k trivia c rest after hc ih =>
    obtain ⟨t, ts, hts, hlaid⟩ := ih (front ++ [c]) (by simp [after, hk])
    exact ⟨t, ts, hts, hlaid.skip hc⟩
  | case3 k trivia c rest after hc comma ih =>
    obtain ⟨t, ts, hts, hlaid⟩ := ih (front ++ [c]) (by simp [after, hk])
    obtain rfl : c = ',' := by simpa using comma
    refine ⟨⟨⟨k.place, after.place⟩, [',']⟩, t :: ts, by simp [hts, Trivia.tile], ?_⟩
    exact .here rfl (by simp [spanBehind, after, hk]) hlaid
  | case4 k trivia c rest after hc comma hash text behind ih =>
    obtain rfl : c = '#' := by simpa using hash
    obtain ⟨t, ts, hts, hlaid⟩ := ih (front ++ '#' :: text) (by simp [behind, after, hk])
    refine ⟨⟨⟨k.place, behind.place⟩, '#' :: text⟩, t :: ts, by simp [hts, Trivia.tile], ?_⟩
    refine .here ?_ (by simp [spanBehind, behind, after, hk]) hlaid
    rw [List.cons_append, List.takeWhile_append_dropWhile]
  | case5 k trivia c rest hc comma hash s behind ih =>
    obtain ⟨t, ts, hts, hlaid⟩ := ih (front ++ s.text) (by simp [behind, hk])
    refine ⟨⟨⟨k.place, behind.place⟩, s.text⟩, t :: ts, by simp [hts, Token.tiles, Token.tile], ?_⟩
    refine .here (source_scan c rest).symm (by simp [spanBehind, behind, hk]) hlaid

/-- The tiles of a text are laid in it from its start. -/
theorem laid_tiles (s : List Char) : Laid [] (tiles s) s := by
  obtain ⟨t, ts, hts, hlaid⟩ := exists_laid .start [] s [] rfl
  rwa [tiles, tokens, hts]

/-! ## Where the tiles stand -/

@[simp] theorem first_offset_spanBehind (front text : List Char) :
    (spanBehind front text).first.offset = byteLength front := by
  simp [spanBehind, Cursor.start]

@[simp] theorem last_offset_spanBehind (front text : List Char) :
    (spanBehind front text).last.offset = byteLength front + byteLength text := by
  simp [spanBehind, Cursor.start]

/-- Does an offset lie between two characters of the text, or at one of its ends? -/
def Boundary (s : List Char) (offset : Nat) : Prop :=
  ∃ front behind, s = front ++ behind ∧ offset = byteLength front

/-- The parts of the text in front of the tiles, each from the end of the tile before it. -/
def gaps (s : List Char) (offset : Nat) : List Tile → List (List Char)
  | [] => []
  | t :: ts => slice offset t.first s :: gaps s t.last ts

namespace Laid

variable {front s : List Char} {t : Tile} {ts : List Tile}

/-- A tile's span runs from the end of what stands in front of its text. -/
theorem exists_span (h : Laid front ts s) (ht : t ∈ ts) : ∃ pre post,
    s = pre ++ t.text ++ post ∧ t.span = spanBehind (front ++ pre) t.text := by
  induction h with
  | nil front => cases ht
  | @cons front s u us gap behind text skipped span laid ih =>
    rcases List.mem_cons.mp ht with rfl | ht
    · exact ⟨gap, behind, text, span⟩
    · obtain ⟨pre, post, hs, hspan⟩ := ih ht
      exact ⟨gap ++ u.text ++ pre, post, by simp [text, hs], by simpa using hspan⟩

/-- A tile stands at the offsets of its span. -/
theorem exists_split (h : Laid front ts s) (ht : t ∈ ts) : ∃ pre post,
    s = pre ++ t.text ++ post ∧ t.first = byteLength (front ++ pre) ∧
      t.last = byteLength (front ++ pre ++ t.text) := by
  obtain ⟨pre, post, hs, hspan⟩ := h.exists_span ht
  exact ⟨pre, post, hs, by simp [Tile.first, hspan], by simp [Tile.last, hspan, Nat.add_assoc]⟩

/-- No tile starts in front of the text. -/
theorem le_first (h : Laid front ts s) (ht : t ∈ ts) : byteLength front ≤ t.first := by
  obtain ⟨pre, post, -, hfirst, -⟩ := h.exists_split ht
  simp [hfirst]

/-- No tile starts in front of the end of an earlier one. -/
theorem ordered (h : Laid front ts s) : ts.Pairwise fun t u => t.last ≤ u.first := by
  induction h with
  | nil front => exact .nil
  | cons gap behind text skipped span laid ih =>
    refine List.pairwise_cons.mpr ⟨?_, ih⟩
    intro u hu
    have hlater := laid.le_first hu
    simp only [Tile.last, span, last_offset_spanBehind, byteLength_append] at hlater ⊢
    omega

theorem gaps_cons {gap behind : List Char} (span : t.span = spanBehind (front ++ gap) t.text)
    (ts : List Tile) :
    gaps (front ++ (gap ++ t.text ++ behind)) (byteLength front) (t :: ts) =
      gap :: gaps (front ++ gap ++ t.text ++ behind) (byteLength (front ++ gap ++ t.text)) ts := by
  have hfirst : t.first = byteLength (front ++ gap) := by simp [Tile.first, span]
  have hlast : t.last = byteLength (front ++ gap ++ t.text) := by
    simp [Tile.last, span, Nat.add_assoc]
  have hslice := slice_append front gap (t.text ++ behind)
  simp only [gaps, hfirst, hlast, List.append_assoc, hslice] at *

/-- Only skipped characters stand between the tiles. -/
theorem isSkipped_of_mem_gaps (h : Laid front ts s) :
    ∀ gap ∈ gaps (front ++ s) (byteLength front) ts, ∀ c ∈ gap, isSkipped c = true := by
  induction h with
  | nil front => simp [gaps]
  | cons gap behind text skipped span laid ih =>
    rw [text, gaps_cons span]
    exact List.forall_mem_cons.mpr ⟨skipped, ih⟩

/-- The gaps and the tiles make up the text. -/
theorem flatten_gaps (h : Laid front ts s) :
    (List.zipWith (· ++ ·) (gaps (front ++ s) (byteLength front) ts)
      (ts.map Tile.text)).flatten = s := by
  induction h with
  | nil front => rfl
  | cons gap behind text skipped span laid ih =>
    rw [text, gaps_cons span, List.map_cons, List.zipWith_cons_cons, List.flatten_cons, ih]

end Laid

/-- The tiles cover a text but for skipped characters: each one runs from one boundary between
characters to another and has the text that stands there, no two overlap, and with the gaps in front
of them they make up the text. -/
structure Tiled (s : List Char) (ts : List Tile) : Prop where
  boundaries : ∀ t ∈ ts, Boundary s t.first ∧ Boundary s t.last
  text : ∀ t ∈ ts, slice t.first t.last s = t.text
  ordered : ts.Pairwise fun t u => t.last ≤ u.first
  skipped : ∀ gap ∈ gaps s 0 ts, ∀ c ∈ gap, isSkipped c = true
  whole : (List.zipWith (· ++ ·) (gaps s 0 ts) (ts.map Tile.text)).flatten = s

theorem Laid.tiled {s : List Char} {ts : List Tile} (h : Laid [] ts s) : Tiled s ts := by
  refine ⟨?_, ?_, h.ordered, h.isSkipped_of_mem_gaps, h.flatten_gaps⟩
  · intro t ht
    obtain ⟨pre, post, hs, hfirst, hlast⟩ := h.exists_split ht
    exact ⟨⟨pre, t.text ++ post, by simp [hs], hfirst⟩, ⟨pre ++ t.text, post, hs, hlast⟩⟩
  · intro t ht
    obtain ⟨pre, post, hs, hfirst, hlast⟩ := h.exists_split ht
    rw [hfirst, hlast, hs, List.append_assoc pre t.text post]
    exact slice_append pre t.text post

/-- A tile with a text covers some bytes. -/
theorem Laid.first_lt_last {front s : List Char} {t : Tile} {ts : List Tile} (h : Laid front ts s)
    (ht : t ∈ ts) (hne : t.text ≠ []) : t.first < t.last := by
  obtain ⟨pre, post, -, hfirst, hlast⟩ := h.exists_split ht
  have := byteLength_pos hne
  simp only [hfirst, hlast, byteLength_append]
  omega

/-! ## The end -/

/-- The token is the end of a text, and stands at the given place. -/
structure Token.EndsAt (t : Token) (p : Place) : Prop where
  kind : t.kind = .eof
  text : t.text = []
  span : t.span = ⟨p, p⟩

/-- The end is the last token, and no other token is empty. -/
theorem exists_tokensFrom_eq (k : Cursor) (trivia : List Trivia) (s : List Char) :
    ∃ ts last, tokensFrom k trivia s = ts ++ [last] ∧ last.EndsAt (k.past s).place ∧
      ∀ t ∈ ts, t.kind ≠ .eof ∧ t.text ≠ [] := by
  induction s using splits_induction generalizing k trivia with
  | nil s h =>
    obtain ⟨t, hkind, htext, hspan, hts⟩ := tokensFrom_of_dropIgnored_nil k trivia h
    exact ⟨[], t, hts, ⟨hkind, htext, hspan⟩, by simp⟩
  | cons s front kind c u rest h ih =>
    obtain ⟨t, hkind, htext, -, hts⟩ := h.exists_token k trivia
    obtain ⟨ts, last, hrest, hlast, hall⟩ := ih (k.past (front ++ c :: u)) []
    refine ⟨t :: ts, last, by rw [hts, hrest]; rfl, ?_, ?_⟩
    · rwa [h.text_eq, Cursor.past_append]
    · refine List.forall_mem_cons.mpr ⟨⟨?_, by simp [htext]⟩, hall⟩
      rw [hkind]
      exact h.sound.kind_ne_eof

theorem tile_mem_tiles {s : List Char} {t : Token} (h : t ∈ tokens s) : t.tile ∈ tiles s :=
  List.mem_flatMap.mpr ⟨t, h, by simp [Token.tiles]⟩

theorem trivia_mem_tiles {s : List Char} {t : Token} (h : t ∈ tokens s) {v : Trivia}
    (hv : v ∈ t.trivia) : v.tile ∈ tiles s :=
  List.mem_flatMap.mpr ⟨t, h, by simp [Token.tiles, List.mem_map_of_mem hv]⟩

theorem Trivia.text_tile_ne_nil (v : Trivia) : v.tile.text ≠ [] := by
  cases v <;> simp [Trivia.tile]

/-- The tokens of a text are finitely many. The end is the last of them and only the last, and it
stands behind the text. Together with the trivia the tokens tile the text, and but for the end each
covers some bytes. -/
theorem tokens_tile (s : List Char) : ∃ ts last,
    tokens s = ts ++ [last] ∧ (∀ i, (tokens s)[i]? = none ↔ ts.length < i) ∧
    last.kind = .eof ∧ last.tile.first = byteLength s ∧ last.tile.last = byteLength s ∧
    (∀ t ∈ ts, t.kind ≠ .eof ∧ t.tile.first < t.tile.last) ∧
    (∀ t ∈ tokens s, ∀ v ∈ t.trivia, v.tile.first < v.tile.last) ∧
    Tiled s (tiles s) := by
  have hlaid := laid_tiles s
  obtain ⟨ts, last, hts, ⟨hkind, -, hspan⟩, hall⟩ := exists_tokensFrom_eq .start [] s
  have hmem {t : Token} (ht : t ∈ ts) : t ∈ tokens s := by
    rw [tokens, hts]
    exact List.mem_append_left _ ht
  refine ⟨ts, last, hts, ?_, hkind, ?_, ?_, ?_, ?_, hlaid.tiled⟩
  · intro i
    rw [tokens, hts, List.getElem?_eq_none_iff, List.length_append, List.length_singleton]
    omega
  · simp [Tile.first, Token.tile, hspan, Cursor.start]
  · simp [Tile.last, Token.tile, hspan, Cursor.start]
  · intro t ht
    obtain ⟨hne, htext⟩ := hall t ht
    exact ⟨hne, hlaid.first_lt_last (tile_mem_tiles (hmem ht)) htext⟩
  · intro t ht v hv
    exact hlaid.first_lt_last (trivia_mem_tiles ht hv) v.text_tile_ne_nil

end QueryDoc.Lexis
