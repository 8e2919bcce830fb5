import QueryDoc.Proofs.Lexis.Definitions
import QueryDoc.Proofs.Lexis.Tiling

/-!
# Ignored text

Ignored text can be put in anywhere but within a token or a comment, and but for the place where an
error ends, without any token being read in another way (`bares_insert`). At the end of a comment
it may become a part of it, up to its first line end.
-/
namespace QueryDoc

open QueryDoc.Lexis

namespace Lexis

open QueryDoc.Grammar (byteLength)

/-! ## Fillers -/

/-- Skipped characters, commas, and comments that are closed by the end of their line. -/
inductive Filler : List Char → Prop where
  | nil : Filler []
  | skipped {c : Char} {s : List Char} (hc : isSkipped c = true) (hs : Filler s) : Filler (c :: s)
  | comma {s : List Char} (hs : Filler s) : Filler (',' :: s)
  | comment {text s : List Char} {c : Char} (htext : ∀ d ∈ text, isLineEnd d = false)
    (hc : isLineEnd c = true) (hs : Filler s) : Filler ('#' :: (text ++ c :: s))

theorem dropIgnored_comma (s : List Char) :
    dropIgnored false (',' :: s) = dropIgnored false s := by
  simp [dropIgnored, isSkipped]

theorem dropIgnored_true_cons {c : Char} (hc : isLineEnd c = false) (s : List Char) :
    dropIgnored true (c :: s) = dropIgnored true s := by
  simp [dropIgnored, hc]

/-- A comment goes on behind characters that do not end its line. -/
theorem dropIgnored_comment {text : List Char} (h : ∀ d ∈ text, isLineEnd d = false)
    (s : List Char) : dropIgnored true (text ++ s) = dropIgnored true s := by
  induction text with
  | nil => rfl
  | cons d text ih =>
    obtain ⟨hd, htext⟩ := List.forall_mem_cons.mp h
    rw [List.cons_append, dropIgnored_true_cons hd, ih htext]

theorem dropIgnored_hash {text : List Char} (h : ∀ d ∈ text, isLineEnd d = false)
    (s : List Char) : dropIgnored false ('#' :: (text ++ s)) = dropIgnored true s := by
  rw [← dropIgnored_comment h]
  rfl

/-- A comment is over at a line end. -/
theorem dropIgnored_true_of_head {s : List Char} (h : s.head?.any (!isLineEnd ·) = false) :
    dropIgnored true s = dropIgnored false s := by
  rw [dropIgnored_true]
  cases s with
  | nil => rfl
  | cons c s => rw [List.dropWhile_cons_of_neg (by simpa using h)]

theorem dropIgnored_true_lineEnd {c : Char} (hc : isLineEnd c = true) (s : List Char) :
    dropIgnored true (c :: s) = dropIgnored false s := by
  rw [dropIgnored_true_of_head (by simp [hc]),
    dropIgnored_cons_of_isSkipped (isSkipped_of_isLineEnd hc)]

namespace Filler

variable {filler : List Char}

theorem ignorable (h : Filler filler) : Ignorable filler := by
  intro y
  induction h with
  | nil => rfl
  | skipped hc hs ih => rw [List.cons_append, dropIgnored_cons_of_isSkipped hc, ih]
  | comma hs ih => rw [List.cons_append, dropIgnored_comma, ih]
  | comment htext hc hs ih =>
    rw [List.cons_append, List.append_assoc, dropIgnored_hash htext, List.cons_append,
      dropIgnored_true_lineEnd hc, ih]

/-- In a comment, a filler becomes a part of it up to its first line end. -/
theorem dropIgnored_true (h : Filler filler) {y : List Char}
    (hy : y.head?.any (!isLineEnd ·) = false) :
    dropIgnored true (filler ++ y) = dropIgnored false y := by
  induction h with
  | nil => exact dropIgnored_true_of_head hy
  | @skipped c s hc hs ih =>
    cases hend : isLineEnd c with
    | true => rw [List.cons_append, dropIgnored_true_lineEnd hend, hs.ignorable]
    | false => rw [List.cons_append, dropIgnored_true_cons hend, ih]
  | comma hs ih => rw [List.cons_append, dropIgnored_true_cons (by decide), ih]
  | @comment text s c htext hc hs ih =>
    have hash : ∀ d ∈ '#' :: text, isLineEnd d = false := List.forall_mem_cons.mpr ⟨rfl, htext⟩
    rw [← List.cons_append, List.append_assoc, dropIgnored_comment hash, List.cons_append,
      dropIgnored_true_lineEnd hc, hs.ignorable]

/-- The first character of a filler ends every token. -/
theorem isolates_head {c : Char} (h : Filler (c :: filler)) : isolates c = true := by
  cases h with
  | skipped hc hs => simp [isolates, hc]
  | comma hs => rfl
  | comment htext hc hs => rfl

/-- A token in front of a text has the filler behind it instead, unless it is an error that ends
there. -/
theorem follows (h : Filler filler) {kind : Kind} {u rest : List Char}
    (hkind : u = [] → kind.isError = false) : Follows kind (u ++ rest) (u ++ (filler ++ rest)) := by
  cases filler with
  | nil => exact .inr (.refl _)
  | cons c filler =>
    have hc := h.isolates_head
    cases u with
    | nil => exact .inl (ends_of_isError_eq_false (hkind rfl) hc _)
    | cons d u =>
      have hdigit : c.isDigit = false := extends_isDigit c (mem_isolators hc)
      exact .inr (looks_append (by simp) (by simp [hdigit]))

end Filler

/-! ## Putting a filler in -/

theorem exists_append_of_byteLength_le {a b c d : List Char} (h : a ++ b = c ++ d)
    (hle : byteLength a ≤ byteLength c) : ∃ e, c = a ++ e ∧ b = e ++ d := by
  obtain he | ⟨e, rfl, rfl⟩ := List.append_eq_append_iff.mp h
  · exact he
  · have hnil : e = [] := by
      by_contra hne
      have hpos := byteLength_pos hne
      rw [byteLength_append] at hle
      omega
    exact ⟨[], by simp [hnil], by simp [hnil]⟩

theorem bares_congr {s s' : List Char} (h : dropIgnored false s = dropIgnored false s') :
    bares s = bares s' := congrArg (List.map Word.bare) (words_congr h)

/-- The trivia that have been read stand in front of the next token. -/
theorem exists_token_of_mem_trivia (k : Cursor) {trivia : List Trivia} {v : Trivia}
    (hv : v ∈ trivia) (s : List Char) : ∃ t ∈ tokensFrom k trivia s, v ∈ t.trivia := by
  fun_induction tokensFrom k trivia s with
  | case1 k trivia => exact ⟨_, List.mem_singleton_self _, hv⟩
  | case2 k trivia c rest after hc ih => exact ih hv
  | case3 k trivia c rest after hc comma ih => exact ih (List.mem_append_left _ hv)
  | case4 k trivia c rest after hc comma hash text behind ih => exact ih (List.mem_append_left _ hv)
  | case5 k trivia c rest hc comma hash s behind ih => exact ⟨_, List.mem_cons_self, hv⟩

/-- Behind a token, unless the token is an error that ends where the filler is put in. -/
theorem Splits.bares_insert {s front u more rest filler : List Char} {kind : Kind} {c : Char}
    (h : Splits s front kind c u (more ++ rest)) (hf : Filler filler)
    (hkind : more = [] → kind.isError = false)
    (hrest : bares (more ++ (filler ++ rest)) = bares (more ++ rest)) :
    bares (front ++ c :: (u ++ (more ++ (filler ++ rest)))) = bares s := by
  rw [(h.replace (hf.follows hkind)).bares_eq, h.bares_eq, hrest]

/-- Behind a comment, of which the filler may become a part. -/
theorem bares_insert_comment {text more rest filler : List Char} (hf : Filler filler)
    (htext : ∀ d ∈ text, isLineEnd d = false)
    (hend : (more ++ rest).head?.any (!isLineEnd ·) = false)
    (hrest : bares (more ++ (filler ++ rest)) = bares (more ++ rest)) :
    bares ('#' :: (text ++ (more ++ (filler ++ rest)))) =
      bares ('#' :: (text ++ (more ++ rest))) := by
  have hcomment : bares ('#' :: (text ++ (more ++ rest))) = bares (more ++ rest) :=
    bares_congr ((dropIgnored_hash htext _).trans (dropIgnored_true_of_head hend))
  rw [hcomment]
  cases more with
  | nil => exact bares_congr ((dropIgnored_hash htext _).trans (hf.dropIgnored_true hend))
  | cons d more =>
    rw [← hrest]
    exact bares_congr ((dropIgnored_hash htext _).trans (dropIgnored_true_of_head hend))

/-- No token goes over the offset and no trivia do, and no error ends there. -/
structure FreeAt (offset : Nat) (ts : List Token) : Prop where
  outside : ∀ t ∈ ts, ∀ u ∈ t.tiles, offset ≤ u.first ∨ u.last ≤ offset
  sound : ∀ t ∈ ts, t.tile.last = offset → t.kind.isError = false

namespace FreeAt

variable {offset : Nat} {t : Token} {ts : List Token} {u : Tile}

/-- What starts in front of the offset ends in front of it. -/
theorem last_le (h : FreeAt offset ts) (ht : t ∈ ts) (hu : u ∈ t.tiles) (hlt : u.first < offset) :
    u.last ≤ offset := by
  have hout := h.outside t ht u hu
  omega

theorem tail (h : FreeAt offset (t :: ts)) : FreeAt offset ts :=
  ⟨fun u hu => h.outside u (List.mem_cons_of_mem t hu),
    fun u hu => h.sound u (List.mem_cons_of_mem t hu)⟩

end FreeAt

/-- A filler is put in behind what stands in front of it, be it skipped, trivia or a token. -/
theorem bares_insert {filler : List Char} (hf : Filler filler) (k : Cursor) (trivia : List Trivia)
    (s : List Char) {front rest : List Char} (hs : s = front ++ rest)
    (h : FreeAt (k.place.offset + byteLength front) (tokensFrom k trivia s)) :
    bares (front ++ (filler ++ rest)) = bares s := by
  have start {s : List Char} (hs : s = [] ++ rest) : bares ([] ++ (filler ++ rest)) = bares s := by
    rw [hs]
    exact bares_congr (hf.ignorable rest)
  have advance (k : Cursor) (c : Char) (front : List Char) :
      k.place.offset + byteLength (c :: front) = (k.advance c).place.offset + byteLength front := by
    rw [Cursor.offset_advance, byteLength, Nat.add_assoc]
  fun_induction tokensFrom k trivia s generalizing front with
  | case1 k trivia =>
    obtain ⟨rfl, rfl⟩ := List.append_eq_nil_iff.mp hs.symm
    exact start rfl
  | case2 k trivia c s after hc =>
    rename_i ih
    cases front with
    | nil => exact start hs
    | cons d front =>
      obtain ⟨rfl, rfl⟩ := List.cons.inj hs
      rw [advance] at h
      have hskip (x : List Char) : bares (c :: x) = bares x :=
        bares_congr (dropIgnored_cons_of_isSkipped hc x)
      exact (hskip _).trans ((ih rfl h).trans (hskip _).symm)
  | case3 k trivia c s after hc comma =>
    rename_i ih
    cases front with
    | nil => exact start hs
    | cons d front =>
      obtain ⟨rfl, rfl⟩ := List.cons.inj hs
      obtain rfl : c = ',' := by simpa using comma
      rw [advance] at h
      have hskip (x : List Char) : bares (',' :: x) = bares x := bares_congr (dropIgnored_comma x)
      exact (hskip _).trans ((ih rfl h).trans (hskip _).symm)
  | case4 k trivia c s after hc comma hash text behind =>
    rename_i ih
    cases front with
    | nil => exact start hs
    | cons d front =>
      obtain ⟨rfl, htail⟩ := List.cons.inj hs
      obtain rfl : c = '#' := by simpa using hash
      have hbehind : behind.place.offset = after.place.offset + byteLength text := by simp [behind]
      have hlength : byteLength text ≤ byteLength front := by
        obtain ⟨t, ht, hv⟩ := exists_token_of_mem_trivia behind (v := .comment text _)
          (List.mem_append_right trivia (List.mem_singleton_self _))
          (s.dropWhile (!isLineEnd ·))
        have hpos := byteLength_pos (List.cons_ne_nil '#' front)
        have hle := h.last_le ht (List.mem_append_left _ (List.mem_map_of_mem hv))
          (Nat.lt_add_of_pos_right hpos)
        simp only [advance, Trivia.tile, Tile.last, hbehind] at hle
        exact Nat.le_of_add_le_add_left hle
      have hsplit : text ++ s.dropWhile (!isLineEnd ·) = front ++ rest :=
        List.takeWhile_append_dropWhile.trans htail
      obtain ⟨more, rfl, hmore⟩ := exists_append_of_byteLength_le hsplit hlength
      rw [advance, byteLength_append, ← Nat.add_assoc, ← hbehind] at h
      have hrest := ih hmore h
      rw [hmore] at hrest
      have hend := any_head_dropWhile (!isLineEnd ·) s
      rw [hmore] at hend
      have htext : ∀ d ∈ text, isLineEnd d = false := by
        intro d hd
        simpa using List.mem_takeWhile_imp hd
      rw [htail]
      simpa using bares_insert_comment hf htext hend hrest
  | case5 k trivia c s hc comma hash r behind =>
    rename_i ih
    cases front with
    | nil => exact start hs
    | cons d front =>
      have hbehind : behind.place.offset = k.place.offset + byteLength r.text := by simp [behind]
      have hlength : byteLength r.text ≤ byteLength (d :: front) := by
        have hpos := byteLength_pos (List.cons_ne_nil d front)
        have hle := h.last_le List.mem_cons_self
          (List.mem_append_right _ (List.mem_singleton_self _)) (Nat.lt_add_of_pos_right hpos)
        simp only [Token.tile, Tile.last, hbehind] at hle
        exact Nat.le_of_add_le_add_left hle
      have hsplit : r.text ++ r.rest = d :: front ++ rest := (source_scan c s).trans hs
      obtain ⟨more, hfront, hmore⟩ := exists_append_of_byteLength_le hsplit hlength
      have hstart : startsToken c = true := by simp_all [startsToken]
      obtain ⟨u, htext, hscan⟩ := splits_of_startsToken hstart s
      rw [show (scan c s).rest = more ++ rest from hmore] at hscan
      have hkind : more = [] → r.kind.isError = false := by
        rintro rfl
        apply h.sound _ List.mem_cons_self
        simp [Tile.last, Token.tile, hbehind, hfront]
      have hrest : bares (more ++ (filler ++ rest)) = bares (more ++ rest) := by
        rw [← hmore]
        apply ih hmore
        rw [hfront, byteLength_append, ← Nat.add_assoc, ← hbehind] at h
        exact h.tail
      rw [hfront, show r.text = c :: u from htext]
      simpa using hscan.bares_insert hf hkind hrest

end Lexis

open QueryDoc.Grammar (byteLength)

/-- A filler can be put in at every place that does not lie within a token or a comment, unless an
error ends there: the tokens of the text read as they did, and so its key and its definitions are
the same. -/
theorem key_of_insert {front rest filler : String} (hf : Filler filler.toList)
    (h : FreeAt (byteLength front.toList) (tokens (front ++ rest).toList)) :
    readings (front ++ filler ++ rest) = readings (front ++ rest) ∧
      key (front ++ filler ++ rest) = key (front ++ rest) ∧
      definitionKeys (front ++ filler ++ rest) = definitionKeys (front ++ rest) := by
  have hbares : bares (front ++ filler ++ rest).toList = bares (front ++ rest).toList := by
    have htext : (front ++ filler ++ rest).toList =
        front.toList ++ (filler.toList ++ rest.toList) := by simp
    rw [htext]
    apply bares_insert hf .start [] _ (by simp)
    rwa [← tokens, show Cursor.start.place.offset = 0 from rfl, Nat.zero_add]
  refine ⟨?_, ?_, ?_⟩
  · rw [readings_eq, hbares, ← readings_eq]
  · rw [key_eq_textOf, hbares, ← key_eq_textOf]
  · rw [definitionKeys_eq_map, hbares, ← definitionKeys_eq_map]

/-- At the end of a comment, the filler becomes a part of it up to the line feed. -/
theorem key_of_insert_comment :
    FreeAt (byteLength "1#c".toList) (tokens ("1#c" ++ "\r\n...5").toList) ∧
      key ("1#c" ++ ",#d\n\uFEFF#e\r" ++ "\r\n...5") = "1 ... 5" := by
  have h : FreeAt (byteLength "1#c".toList) (tokens ("1#c" ++ "\r\n...5").toList) :=
    ⟨by decide +kernel, by decide +kernel⟩
  have hcomment : Filler ('#' :: (['e'] ++ ['\r'])) :=
    .comment (List.forall_mem_singleton.mpr rfl) rfl .nil
  have hlist : Filler (',' :: '#' :: (['d'] ++ '\n' :: '\uFEFF' :: '#' :: (['e'] ++ ['\r']))) :=
    .comma (.comment (List.forall_mem_singleton.mpr rfl) rfl (.skipped rfl hcomment))
  have hf : Filler ",#d\n\uFEFF#e\r".toList := hlist
  refine ⟨h, (key_of_insert hf h).2.1.trans ?_⟩
  decide +kernel

end QueryDoc
