import Mathlib.Data.List.Induction
import QueryDoc.Proofs.Lexis.Offset
import QueryDoc.Proofs.Lexis.Tally

/-!
# Texts side by side

Where texts are put side by side, a token may go on from one text to the next, and so may a
comment. As long as no token does, the tokens of the whole are those of its parts, where a part
behind an open comment is read from the end of its first line on. Otherwise the whole goes ahead of
its parts: the first token that differs is longer there (`glued`).
-/
namespace QueryDoc.Lexis

open QueryDoc.Grammar (byteLength)

/-! ## Open comments -/

/-- Is a comment open behind a character of ignored text? -/
def stepComment (inComment : Bool) (c : Char) : Bool := if inComment then !isLineEnd c else c == '#'

/-- Whether a comment is open. -/
def comments : Tally Bool where
  skip inComment s := s.foldl stepComment inComment
  pass _ _ := false
  skip_nil _ := rfl
  skip_append _ _ _ := List.foldl_append

/-- Does a comment go on where the text ends? -/
def leavesComment (s : List Char) : Bool := (comments.run false s).2

/-- What is read of a text behind another one: a comment that goes on there takes its first line. -/
def readBehind (front s : List Char) : List Char :=
  if leavesComment front then s.dropWhile (!isLineEnd ·) else s

theorem dropIgnored_append_of_ignored {inComment : Bool} {gap : List Char}
    (h : dropIgnored inComment gap = []) (s : List Char) :
    dropIgnored inComment (gap ++ s) = dropIgnored (gap.foldl stepComment inComment) s := by
  fun_induction dropIgnored inComment gap with
  | case1 => rfl
  | case2 c rest ih => simpa [dropIgnored, stepComment] using ih h
  | case3 inComment c rest hc hskip ih =>
    have hash : (c == '#') = false := by
      by_contra hne
      obtain rfl : c = '#' := by simpa using hne
      exact absurd hskip (by decide)
    simpa [dropIgnored, stepComment, hc, hskip, hash] using ih h
  | case4 inComment c rest hc hskip hash ih =>
    simpa [dropIgnored, stepComment, hc, hskip, hash] using ih h
  | case5 => cases h

theorem leavesComment_of_splits {s front u rest : List Char} {kind : Kind} {c : Char}
    (h : Splits s front kind c u rest) : leavesComment s = leavesComment rest := by
  rw [leavesComment, comments.run_of_splits h]
  rfl

theorem readBehind_of_splits {s front u rest : List Char} {kind : Kind} {c : Char}
    (h : Splits s front kind c u rest) (x : List Char) : readBehind s x = readBehind rest x := by
  rw [readBehind, leavesComment_of_splits h, readBehind]

/-- Behind ignored text, a text is read as it is or behind an open comment. -/
theorem bares_append_of_ignored {gap : List Char} (h : dropIgnored false gap = []) (s : List Char) :
    bares (gap ++ s) = bares (readBehind gap s) := by
  refine congrArg (List.map Word.bare) (words_congr ?_)
  rw [dropIgnored_append_of_ignored h, readBehind, leavesComment, comments.run_of_dropIgnored_nil h]
  change _ = dropIgnored false (if gap.foldl stepComment false = true then _ else _)
  cases gap.foldl stepComment false with
  | false => rfl
  | true => exact dropIgnored_true s

/-! ## Words with their spans -/

/-- The words of a text from a cursor on, with their spans. -/
def placed (k : Cursor) (s : List Char) : List (Bare × Span) := (cursors.run k s).1.map spanned

theorem map_untrivial_significant (s : List Char) :
    (significant s).map Token.untrivial = placed .start s := map_untrivial_tokensFrom .start [] s

theorem map_fst_placed (k : Cursor) (s : List Char) : (placed k s).map Prod.fst = bares s := by
  rw [placed, List.map_map]
  exact cursors.map_fst_run k s

theorem placed_of_dropIgnored_nil {s : List Char} (h : dropIgnored false s = []) (k : Cursor) :
    placed k s = [] := by
  rw [placed, cursors.run_of_dropIgnored_nil h, List.map_nil]

theorem placed_of_splits {s front u rest : List Char} {kind : Kind} {c : Char}
    (h : Splits s front kind c u rest) (k : Cursor) : placed k s =
      ((kind, c :: u), ⟨(k.past front).place, (k.past (front ++ c :: u)).place⟩) ::
        placed (k.past (front ++ c :: u)) rest := by
  rw [placed, cursors.run_of_splits h, List.map_cons, Cursor.past_append]
  rfl

theorem offset_le_past (k : Cursor) (s : List Char) :
    k.place.offset ≤ (k.past s).place.offset := by
  rw [Cursor.offset_past]
  exact Nat.le_add_right _ _

/-- The words of a text lie in it. -/
theorem bounds_of_mem_placed {k : Cursor} {s : List Char} {x : Bare × Span} (hx : x ∈ placed k s) :
    k.place.offset ≤ x.2.first.offset ∧ x.2.last.offset ≤ (k.past s).place.offset := by
  induction s using splits_induction generalizing k with
  | nil s h => rw [placed_of_dropIgnored_nil h] at hx; cases hx
  | cons s front kind c u rest h ih =>
    rw [placed_of_splits h] at hx
    have hs : k.past s = (k.past (front ++ c :: u)).past rest := by
      rw [h.text_eq, Cursor.past_append]
    rw [hs]
    rcases List.mem_cons.mp hx with rfl | hx
    · exact ⟨offset_le_past k front, offset_le_past _ rest⟩
    · obtain ⟨hfirst, hlast⟩ := ih hx
      exact ⟨(offset_le_past k _).trans hfirst, hlast⟩

/-- Behind ignored text, words start where it ends or later. -/
theorem offset_le_of_mem_placed {gap s : List Char} (h : dropIgnored false gap = []) {k : Cursor}
    {x : Bare × Span} (hx : x ∈ placed k (gap ++ s)) :
    (k.past gap).place.offset ≤ x.2.first.offset := by
  obtain hd | ⟨front, kind, c, u, rest, hs⟩ := splits_cases (gap ++ s)
  · rw [placed_of_dropIgnored_nil hd] at hx
    cases hx
  · obtain ⟨more, rfl⟩ : ∃ more, front = gap ++ more := by
      obtain ⟨more, hmore, -⟩ | ⟨more, hmore, hcons⟩ := List.append_eq_append_iff.mp hs.text
      · exact ⟨more, hmore⟩
      · cases more with
        | nil => exact ⟨[], by simp [hmore]⟩
        | cons d more =>
          obtain ⟨rfl, -⟩ := List.cons.inj hcons
          rw [hmore, hs.ignorable, dropIgnored_cons_of_startsToken hs.starts] at h
          cases h
    rw [placed_of_splits hs] at hx
    rw [Cursor.past_append] at hx
    rcases List.mem_cons.mp hx with rfl | hx
    · exact offset_le_past _ more
    · have hle := (bounds_of_mem_placed hx).1
      rw [List.append_assoc, Cursor.past_append] at hle
      exact (offset_le_past _ _).trans hle

/-! ## The first difference -/

/-- The first word that differs is longer in the first list. -/
inductive Ahead : List Bare → List Bare → Prop where
  | here {b b' : Bare} (h : b'.2.length < b.2.length) (bs bs' : List Bare) :
    Ahead (b :: bs) (b' :: bs')
  | behind (b : Bare) {bs bs' : List Bare} (h : Ahead bs bs') : Ahead (b :: bs) (b :: bs')

namespace Ahead

variable {as bs cs : List Bare}

theorem ne (h : Ahead as bs) : as ≠ bs := by
  induction h with
  | here h bs bs' => rintro ⟨⟩; exact absurd h (Nat.lt_irrefl _)
  | behind b h ih => exact fun he => ih (List.cons.inj he).2

theorem append (h : Ahead as bs) (xs ys : List Bare) : Ahead (as ++ xs) (bs ++ ys) := by
  induction h with
  | here h bs bs' => exact .here h _ _
  | behind b h ih => exact .behind b ih

theorem trans (h : Ahead as bs) (h' : Ahead bs cs) : Ahead as cs := by
  induction h generalizing cs with
  | here h bs bs' =>
    cases h' with
    | here h' => exact .here (h'.trans h) _ _
    | behind b h' => exact .here h _ _
  | behind b h ih =>
    cases h' with
    | here h' => exact .here h' _ _
    | behind b h' => exact .behind b (ih h')

end Ahead

/-! ## Two texts -/

/-- The offset lies within the word. -/
def Across (offset : Nat) (x : Bare × Span) : Prop :=
  x.2.first.offset < offset ∧ offset < x.2.last.offset

/-- How a text goes on in the next one. -/
inductive Goes (k : Cursor) (s t : List Char) : Prop
  | apart (xs : List (Bare × Span)) (hrun : placed k (s ++ t) = placed k s ++ xs)
    (hbares : xs.map Prod.fst = bares (readBehind s t))
    (hfirst : ∀ x ∈ xs, (k.past s).place.offset ≤ x.2.first.offset)
  | across (x : Bare × Span) (hx : x ∈ placed k (s ++ t))
    (hacross : Across (k.past s).place.offset x) (hahead : Ahead (bares (s ++ t)) (bares s))

/-- Of two parts of a text, the first one is a part of the other or goes on in it. -/
theorem append_eq_append_cases {α : Type} {as bs cs ds : List α} (h : as ++ bs = cs ++ ds) :
    (∃ more, as = cs ++ more ∧ ds = more ++ bs) ∨ ∃ d more, cs = as ++ d :: more := by
  obtain ⟨_ | ⟨d, more⟩, hcs, hbs⟩ | hpart := List.append_eq_append_iff.mp h
  · exact .inl ⟨[], by simp [hcs], by simpa using hbs.symm⟩
  · exact .inr ⟨d, more, hcs⟩
  · exact .inl hpart

namespace Goes

variable {k : Cursor} {s t front u rest : List Char} {kind : Kind} {c : Char}
  (h : Splits s front kind c u rest)

include h

/-- Where the first word is the same in the whole, the rest decides. -/
theorem cons (hs : Splits (s ++ t) front kind c u (rest ++ t))
    (hrest : Goes (k.past (front ++ c :: u)) rest t) : Goes k s t := by
  have hpast : k.past s = (k.past (front ++ c :: u)).past rest := by
    rw [h.text_eq, Cursor.past_append]
  cases hrest with
  | apart xs hrun hbares hfirst =>
    refine .apart xs ?_ (by rw [readBehind_of_splits h, hbares]) (hpast ▸ hfirst)
    rw [placed_of_splits hs, placed_of_splits h, hrun, List.cons_append]
  | across x hx hacross hahead =>
    refine .across x ?_ (hpast ▸ hacross) ?_
    · rw [placed_of_splits hs]
      exact List.mem_cons_of_mem _ hx
    · rw [hs.bares_eq, h.bares_eq]
      exact .behind _ hahead

/-- The first word of the whole takes the text up and more. -/
theorem longer {kind' : Kind} {d : Char} {more rest' : List Char}
    (hs : Splits (s ++ t) front kind' c (u ++ rest ++ d :: more) rest') : Goes k s t := by
  refine .across _ (placed_of_splits hs k ▸ List.mem_cons_self) ⟨?_, ?_⟩ ?_
  · have hpos := byteLength_pos (List.cons_ne_nil c (u ++ rest))
    simp only [h.text, Cursor.offset_past, byteLength_append] at hpos ⊢
    omega
  · have hpos := byteLength_pos (List.cons_ne_nil d more)
    simp only [h.text, Cursor.offset_past, byteLength_append, byteLength] at hpos ⊢
    omega
  · rw [hs.bares_eq, h.bares_eq]
    refine .here ?_ _ _
    simp only [List.length_cons, List.length_append]
    omega

end Goes

theorem goes (k : Cursor) (s t : List Char) : Goes k s t := by
  induction s using splits_induction generalizing k with
  | nil s h =>
    refine .apart (placed k (s ++ t)) ?_ ?_ fun x hx => offset_le_of_mem_placed h hx
    · rw [placed_of_dropIgnored_nil h, List.nil_append]
    · rw [map_fst_placed, bares_append_of_ignored h]
  | cons s front kind c u rest h ih =>
    -- the scan of the whole starts where that of the text does
    have hwhole : dropIgnored false (s ++ t) = c :: (u ++ rest ++ t) := by
      rw [h.text, List.append_assoc, h.ignorable]
      exact dropIgnored_cons_of_startsToken h.starts _
    obtain ⟨front', v, hv, hs⟩ := exists_splits hwhole
    generalize scan c (u ++ rest ++ t) = r at hv hs
    obtain rfl : front' = front := by
      have htext := hs.text
      rw [← hv, h.text, List.append_assoc] at htext
      exact (List.append_cancel_right htext).symm
    obtain ⟨more, hmore, hrest⟩ | ⟨d, more, rfl⟩ := append_eq_append_cases hv
    · have hleft : Splits s front' r.kind c v more := by
        have htext : s = front' ++ c :: (v ++ more) := by rw [h.text, hmore]
        rw [hrest, htext] at hs
        exact htext ▸ hs.left
      obtain ⟨hkind, -, -, rfl, rfl⟩ := h.unique hleft
      rw [hrest, ← hkind] at hs
      exact .cons h hs (ih _)
    · exact .longer h hs

/-! ## Any number of texts -/

/-- What is read of each text behind those in front of it. -/
def readParts (front : List Char) : List (List Char) → List (List Char)
  | [] => []
  | s :: ss => readBehind front s :: readParts (front ++ s) ss

theorem readParts_concat (front : List Char) (ss : List (List Char)) (s : List Char) :
    readParts front (ss ++ [s]) = readParts front ss ++ [readBehind (front ++ ss.flatten) s] := by
  induction ss generalizing front with
  | nil => simp [readParts]
  | cons s' ss ih => simp [readParts, ih]

/-- Where no comment goes on behind a text, the texts are read as they are. -/
theorem readParts_eq_self {front : List Char} {ss : List (List Char)}
    (h : ∀ before behind, ss = before ++ behind → behind ≠ [] →
      leavesComment (front ++ before.flatten) = false) : readParts front ss = ss := by
  induction ss generalizing front with
  | nil => rfl
  | cons s ss ih =>
    have hfront := h [] (s :: ss) rfl (by simp)
    rw [List.flatten_nil, List.append_nil] at hfront
    have hs : readBehind front s = s := by simp [readBehind, hfront]
    rw [readParts, hs, ih fun before behind hss hne => ?_]
    have hcons := h (s :: before) behind (by rw [hss]; rfl) hne
    rwa [List.flatten_cons, ← List.append_assoc] at hcons

/-- No token goes on from one text to the next. -/
def Separate (ss : List (List Char)) : Prop :=
  ∀ before behind, ss = before ++ behind → ∀ t ∈ significant ss.flatten,
    t.span.last.offset ≤ byteLength before.flatten ∨
      byteLength before.flatten ≤ t.span.first.offset

theorem separate_iff {ss : List (List Char)} : Separate ss ↔
    ∀ before behind, ss = before ++ behind → ∀ x ∈ placed .start ss.flatten,
      ¬ Across (byteLength before.flatten) x := by
  refine forall₃_congr fun before behind _ => ?_
  rw [← map_untrivial_significant, List.forall_mem_map]
  refine forall₂_congr fun t _ => ?_
  rw [Across, not_and_or, not_lt, not_lt, or_comm]
  rfl

/-- Where a further text is read apart from those in front of it, nothing changes for these. -/
theorem separate_concat_iff {ss : List (List Char)} {s : List Char} {xs : List (Bare × Span)}
    (hrun : placed .start (ss.flatten ++ s) = placed .start ss.flatten ++ xs)
    (hfirst : ∀ x ∈ xs, byteLength ss.flatten ≤ x.2.first.offset) :
    Separate (ss ++ [s]) ↔ Separate ss := by
  rw [separate_iff, separate_iff, List.flatten_concat, hrun]
  constructor
  · rintro h before behind rfl x hx
    exact h before (behind ++ [s]) (by simp) x (List.mem_append_left _ hx)
  · intro h before behind hss x hx hacross
    obtain rfl | ⟨behind, s', rfl⟩ := behind.eq_nil_or_concat
    · -- the end of the whole lies in none of its words
      obtain rfl : ss ++ [s] = before := by simpa using hss
      rw [← hrun] at hx
      have hlast := (bounds_of_mem_placed hx).2
      rw [Cursor.offset_past, ← List.flatten_concat] at hlast
      simp only [Cursor.start, Nat.zero_add] at hlast
      exact absurd hacross.2 (Nat.not_lt.mpr hlast)
    · rw [List.concat_eq_append, ← List.append_assoc] at hss
      obtain ⟨rfl, -⟩ := List.append_inj' hss rfl
      rcases List.mem_append.mp hx with hx | hx
      · exact h before behind rfl x hx hacross
      · have hle := hfirst x hx
        rw [List.flatten_append, byteLength_append] at hle
        have hlt := hacross.1
        omega

/-- The words of texts side by side are those that are read of each, or else the whole goes ahead.
-/
theorem glued (ss : List (List Char)) :
    Separate ss ∧ bares ss.flatten = (readParts [] ss).flatMap bares ∨
      ¬ Separate ss ∧ Ahead (bares ss.flatten) ((readParts [] ss).flatMap bares) := by
  induction ss using List.reverseRecOn with
  | nil =>
    refine .inl ⟨separate_iff.mpr fun before behind _ x hx => ?_, bares_of_dropIgnored_nil rfl⟩
    rw [List.flatten_nil, placed_of_dropIgnored_nil rfl] at hx
    cases hx
  | append_singleton ss s ih =>
    have hoffset : (Cursor.start.past ss.flatten).place.offset = byteLength ss.flatten := by
      simp [Cursor.start]
    rw [readParts_concat, List.nil_append, List.flatMap_append, List.flatMap_singleton,
      List.flatten_concat]
    cases goes .start ss.flatten s with
    | apart xs hrun hbares hfirst =>
      rw [hoffset] at hfirst
      have hwords : bares (ss.flatten ++ s) =
          bares ss.flatten ++ bares (readBehind ss.flatten s) := by
        rw [← map_fst_placed .start, hrun, List.map_append, map_fst_placed, hbares]
      rw [separate_concat_iff hrun hfirst, hwords]
      exact ih.imp (fun h => ⟨h.1, by rw [h.2]⟩) fun h => ⟨h.1, h.2.append _ _⟩
    | across x hx hacross hahead =>
      refine .inr ⟨fun h => ?_, ?_⟩
      · rw [hoffset] at hacross
        refine separate_iff.mp h ss [s] rfl x ?_ hacross
        rwa [List.flatten_concat]
      · have hfront := ih.elim (fun h => h.2 ▸ hahead) fun h => hahead.trans h.2
        have happend := hfront.append [] (bares (readBehind ss.flatten s))
        rwa [List.append_nil] at happend

end QueryDoc.Lexis
