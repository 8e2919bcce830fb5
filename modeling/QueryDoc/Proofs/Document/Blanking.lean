import QueryDoc.Proofs.Document.Groups
import QueryDoc.Proofs.Document.Outside

/-!
# Blanked text

The text that the grammar reads is put together from slices of the text and blanks. The groups stand
one behind the other, and a line end stays where it is. Since a blank moves the cursor by as many
columns as the character in its place, the tokens of the text with blanks are those outside all
groups, with their lines and columns (`lifted_text`).
-/
namespace QueryDoc

open QueryDoc.Lexis QueryDoc.Grammar

namespace Lexis

/-! ## Masks -/

/-- The second text is the first one with blanks in place of some characters. -/
def Masked (s t : List Char) : Prop := List.Forall₂ (fun c d => d = c ∨ d = blank c) s t

theorem masked_self (s : List Char) : Masked s s := List.forall₂_same.mpr fun _ _ => .inl rfl

theorem masked_map_blank (s : List Char) : Masked s (s.map blank) :=
  List.forall₂_map_right_iff.mpr (List.forall₂_same.mpr fun _ _ => .inr rfl)

theorem masked_blankGroups (groups : List VariableGroup) (text : List Char) :
    Masked text (blankGroups groups text) := by
  rw [Masked, blankGroups, List.forall₂_map_right_iff]
  nth_rewrite 1 [← map_snd_withOffsets 0 text]
  rw [List.forall₂_map_left_iff]
  refine List.forall₂_same.mpr fun ⟨i, c⟩ _ => ?_
  dsimp only
  generalize groups.any (fun g => g.first ≤ i && i < g.last) = covered
  cases covered <;> cases hc : isLineEnd c <;> simp [blank, hc]

/-- A line end stays where it is, and there are no others. -/
theorem Masked.getElem?_eq_some_iff {s t : List Char} (h : Masked s t) {c : Char}
    (hc : isLineEnd c = true) (i : Nat) : t[i]? = some c ↔ s[i]? = some c := by
  induction h generalizing i with
  | nil => rfl
  | @cons a b s t hab h ih =>
    cases i with
    | succ i => simpa using ih i
    | zero =>
      have hb : blank a = c ↔ a = c := by
        unfold blank
        cases ha : isLineEnd a with
        | true => simp
        | false =>
          have hspace : ' ' ≠ c := by rintro rfl; exact absurd hc (by decide)
          have hne : a ≠ c := by rintro rfl; exact absurd hc (by simp [ha])
          simp [hspace, hne]
      rcases hab with rfl | rfl <;> simp [hb]

/-! ## Cursors on one column -/

/-- The cursors are on one line and in one column, whatever bytes and 16-bit units they count. -/
structure Cursor.Aligned (k k' : Cursor) : Prop where
  line : k.place.line = k'.place.line
  column : k.place.column = k'.place.column
  afterReturn : k.afterReturn = k'.afterReturn

namespace Cursor.Aligned

variable {k k' : Cursor}

theorem advance (h : k.Aligned k') {c d : Char} (hd : d = c ∨ d = blank c) :
    (k.advance c).Aligned (k'.advance d) := by
  obtain ⟨hline, hcolumn, hreturn⟩ := h
  by_cases hc : isLineEnd c = true
  · obtain rfl : d = c := by
      rcases hd with rfl | rfl
      · rfl
      · exact if_pos hc
    have hcases : d = '\n' ∨ d = '\r' := by simpa [isLineEnd] using hc
    rcases hcases with rfl | rfl
    · constructor <;> simp [Cursor.advance, hreturn, hline] <;> split <;> simp_all
    · constructor <;> simp [Cursor.advance, hline]
  -- neither the character nor its blank ends a line, so both are one column
  · have hc : isLineEnd c = false := Bool.eq_false_iff.mpr hc
    have hend : isLineEnd d = false := by
      rcases hd with rfl | rfl
      · exact hc
      · rw [blank, hc]; rfl
    simp only [isLineEnd, Bool.or_eq_false_iff, beq_eq_false_iff_ne] at hc hend
    constructor <;> simp [Cursor.advance, hc, hend, hline, hcolumn]

theorem past (h : k.Aligned k') {s t : List Char} (hm : Masked s t) :
    (k.past s).Aligned (k'.past t) := by
  induction hm generalizing k k' with
  | nil => exact h
  | cons hc _ ih => exact ih (h.advance hc)

theorem past_self (h : k.Aligned k') (s : List Char) : (k.past s).Aligned (k'.past s) :=
  h.past (masked_self s)

end Cursor.Aligned

/-- The words are the same, with cursors that are aligned. -/
def AlignedWords : List (Bare × Cursor) → List (Bare × Cursor) → Prop :=
  List.Forall₂ fun x y => x.1 = y.1 ∧ x.2.Aligned y.2

theorem alignedWords_run {k k' : Cursor} (hk : k.Aligned k') (s : List Char) :
    AlignedWords (cursors.run k s).1 (cursors.run k' s).1 := by
  induction s using splits_induction generalizing k k' with
  | nil s h =>
    rw [cursors.run_of_dropIgnored_nil h, cursors.run_of_dropIgnored_nil h]
    exact .nil
  | cons s front kind c u rest h ih =>
    rw [cursors.run_of_splits h, cursors.run_of_splits h]
    exact .cons ⟨rfl, hk.past_self front⟩ (ih ((hk.past_self front).past_self (c :: u)))

/-- The words of a text with blanks are those outside all groups, and stand where these stand. -/
theorem Layout.alignedWords {v s : List Char} {depth : Int} {n : Nat} {groups : List VariableGroup}
    (h : Layout v depth n s groups) {k k' : Cursor} (hk : k.Aligned k') :
    AlignedWords (cursors.outside depth k s) (cursors.run k' (blanked v groups s)).1 := by
  induction h generalizing k k' with
  | nil v depth n hd =>
    rw [cursors.outside_of_dropIgnored_nil hd, blanked, blankFrom_nil,
      cursors.run_of_dropIgnored_nil hd]
    exact .nil
  | @plain v s front u rest kind c depth n groups hs hf h ih =>
    rw [cursors.outside_plain hs hf, cursors.run_of_splits (h.splits_blanked hs)]
    exact .cons ⟨rfl, hk.past_self front⟩ (ih ((hk.past_self front).past_self (c :: u)))
  | @frame v s pre mid post c n f g groups ht hf hg h ih =>
    rw [cursors.outside_frame ht hf, h.blanked_frame ht hg,
      ht.run_blank cursors k' isSkipped_of_mem_map_blank (by simp)]
    refine List.rel_append (alignedWords_run hk pre) (ih ?_)
    rw [cursors_run_snd, cursors_run_snd, cursors_run_snd]
    exact (hk.past_self pre).past (masked_map_blank _)

/-! ## Tokens -/

/-- The line and the column of a place. -/
def Place.spot (p : Place) : Nat × Nat := (p.line, p.column)

/-- What a token says of itself but for its trivia, its bytes and its 16-bit columns. -/
structure Standing where
  kind : Kind
  text : List Char
  first : Nat × Nat
  last : Nat × Nat
  deriving DecidableEq, Repr

def Token.standing (t : Token) : Standing := ⟨t.kind, t.text, t.span.first.spot, t.span.last.spot⟩

theorem map_kepts_items {α β : Type} {b : α → Bare} {d : β → Bare} {f : α → β} (h : d ∘ f = b)
    (depth : Int) (as : List α) :
    (kepts (items b depth as)).map f = kepts (items d depth (as.map f)) := by
  subst h
  rw [items_map, kepts_map]

theorem map_untrivial_ungrouped (text : List Char) : (ungrouped text).map Token.untrivial =
    (cursors.outside 0 .start text).map spanned := by
  have htokens := map_untrivial_tokensFrom .start [] text
  have htoken : Prod.fst ∘ Token.untrivial = Token.bare := rfl
  have hspan : Prod.fst ∘ spanned = Prod.fst := rfl
  rw [ungrouped_eq, map_kepts_items htoken, Tally.outside, map_kepts_items hspan, ← htokens]
  rfl

/-- The standing of a word with its span. -/
def standingOf (x : Bare × Span) : Standing := ⟨x.1.1, x.1.2, x.2.first.spot, x.2.last.spot⟩

theorem standingOf_comp_untrivial : standingOf ∘ Token.untrivial = Token.standing := rfl

theorem standingOf_spanned_congr {x y : Bare × Cursor} (h : x.1 = y.1 ∧ x.2.Aligned y.2) :
    standingOf (spanned x) = standingOf (spanned y) := by
  obtain ⟨b, k⟩ := x
  obtain ⟨b', k'⟩ := y
  obtain ⟨rfl, hk : k.Aligned k'⟩ := h
  have hlast := hk.past_self b.2
  simp only [standingOf, spanned, Place.spot, hk.line, hk.column, hlast.line, hlast.column]

/-- The tokens of a text with blanks stand where those outside all groups do. -/
theorem map_standing_blankGroups (text : List Char) :
    (significant (blankGroups (VariableGroup.ofText text) text)).map Token.standing =
      (ungrouped text).map Token.standing := by
  have hstart : Cursor.start.Aligned Cursor.start := ⟨rfl, rfl, rfl⟩
  have haligned := (layout_ofText text).alignedWords hstart
  have hmap : (cursors.outside 0 .start text).map (standingOf ∘ spanned) =
      (cursors.run .start (blankGroups (VariableGroup.ofText text) text)).1.map
        (standingOf ∘ spanned) := by
    rw [← List.forall₂_eq_eq_eq, List.forall₂_map_left_iff, List.forall₂_map_right_iff]
    exact haligned.imp fun _ _ => standingOf_spanned_congr
  rw [← List.map_map, ← List.map_map, ← map_untrivial_ungrouped,
    ← map_untrivial_tokensFrom .start []] at hmap
  rw [← standingOf_comp_untrivial, ← List.map_map, ← List.map_map, hmap]
  rfl

/-! ## Slices -/

/-- A group lies in a text, which stands behind `v`, between these parts. -/
structure Between (v s : List Char) (g : VariableGroup) (pre mid : List Char) (c : Char)
    (post : List Char) : Prop where
  text : s = pre ++ '(' :: (mid ++ c :: post)
  first : g.first = byteLength (v ++ pre)
  opening : g.opening.span.last.offset = byteLength (v ++ (pre ++ ['(']))
  closing : g.closing.span.first.offset = byteLength (v ++ (pre ++ '(' :: mid))
  last : g.last = byteLength (v ++ (pre ++ '(' :: (mid ++ [c])))

theorem GroupText.between {v s pre mid post : List Char} {f : Frame Word} {c : Char}
    {g : VariableGroup} {n : Nat} (hg : GroupText (Cursor.start.past v) g n f pre mid c)
    (ht : FrameText s f pre mid c post) : Between v s g pre mid c post := by
  have hoffset (x : List Char) :
      ((Cursor.start.past v).past x).place.offset = byteLength (v ++ x) := by
    rw [Cursor.offset_past, Cursor.offset_past, byteLength_append]
    simp [Cursor.start]
  refine ⟨ht.split, ?_, ?_, ?_, ?_⟩
  · rw [VariableGroup.first, hg.opening, hoffset]
  · rw [hg.opening, hoffset]
  · rw [hg.closing, hoffset]
  · rw [VariableGroup.last, hg.closing, hoffset]

theorem Between.slice_group {v s pre mid post : List Char} {g : VariableGroup} {c : Char}
    (h : Between v s g pre mid c post) :
    slice g.first g.last (v ++ s) = '(' :: (mid ++ [c]) ∧
      slice g.last (byteLength (v ++ s)) (v ++ s) = post := by
  have hs : v ++ s = v ++ pre ++ ('(' :: (mid ++ [c]) ++ post) := by simp [h.text]
  have hgroup := slice_append (v ++ pre) ('(' :: (mid ++ [c])) post
  have hpost := slice_append (v ++ pre ++ '(' :: (mid ++ [c])) post []
  rw [h.first, h.last, hs]
  simp only [List.append_nil, List.append_assoc] at hgroup hpost ⊢
  exact ⟨hgroup, hpost⟩

theorem Between.prepend {v x s pre mid post : List Char} {g : VariableGroup} {c : Char}
    (h : Between (v ++ x) s g pre mid c post) : Between v (x ++ s) g (x ++ pre) mid c post := by
  obtain ⟨htext, hfirst, hopening, hclosing, hlast⟩ := h
  simp only [List.append_assoc] at hfirst hopening hclosing hlast
  refine ⟨by rw [htext, List.append_assoc], hfirst, ?_, ?_, ?_⟩
  all_goals rw [List.append_assoc x pre]; assumption

namespace Layout

variable {v s : List Char} {depth : Int} {n : Nat} {groups : List VariableGroup}

/-- Each group is one of a frame in the text, behind which the items go on. -/
theorem exists_frameText (h : Layout v depth n s groups) {g : VariableGroup} (hg : g ∈ groups) :
    ∃ y x m f pre mid c post, s = y ++ x ∧ FrameText x f pre mid c post ∧
      GroupText (Cursor.start.past (v ++ y)) g m f pre mid c ∧
      ∃ is, items Word.bare depth (words s) = is ++ .frame f :: items Word.bare 0 (words post) := by
  induction h with
  | nil v depth n hd => cases hg
  | @plain v s front u rest kind c depth n groups hs hf h ih =>
    obtain ⟨y, x, m, f, pre, mid, d, post, rfl, ht, hgroup, is, his⟩ := ih hg
    refine ⟨front ++ c :: u ++ y, x, m, f, pre, mid, d, post, ?_, ht, ?_,
      .plain (.ofScan ⟨kind, c :: u, y ++ x⟩) :: is, ?_⟩
    · rw [hs.text]
      simp
    · rwa [← List.append_assoc]
    · rw [hs.words_eq] at hf ⊢
      rw [items_cons Word.bare hf, his]
      rfl
  | @frame v s pre mid post c n f g' groups ht hf hg' h ih =>
    rcases List.mem_cons.mp hg with rfl | hg
    · exact ⟨[], s, n, f, pre, mid, c, post, rfl, ht, by rwa [List.append_nil], [],
        items_of_frame? Word.bare hf⟩
    · obtain ⟨y, x, m, f', pre', mid', d, post', rfl, ht', hgroup, is, his⟩ := ih hg
      refine ⟨pre ++ '(' :: (mid ++ [c]) ++ y, x, m, f', pre', mid', d, post', ?_, ht', ?_,
        .frame f :: is, ?_⟩
      · rw [ht.split]
        simp
      · rwa [← List.append_assoc]
      · rw [items_of_frame? Word.bare hf, his]
        rfl

theorem exists_between (h : Layout v depth n s groups) {g : VariableGroup} (hg : g ∈ groups) :
    ∃ pre mid c post, Between v s g pre mid c post := by
  obtain ⟨y, x, m, f, pre, mid, c, post, rfl, ht, hgroup, -⟩ := h.exists_frameText hg
  exact ⟨y ++ pre, mid, c, post, (hgroup.between ht).prepend⟩

/-- The groups stand one behind the other. -/
theorem pairwise (h : Layout v depth n s groups) :
    groups.Pairwise fun g g' => g.last ≤ g'.first := by
  induction h with
  | nil v depth n hd => exact .nil
  | plain hs hf h ih => exact ih
  | @frame v s pre mid post c n f g groups ht hf hg h ih =>
    refine List.pairwise_cons.mpr ⟨fun g' hg' => ?_, ih⟩
    obtain ⟨pre', mid', d, post', -, hfirst, -⟩ := h.exists_between hg'
    rw [(hg.between ht).last, hfirst, byteLength_append _ pre']
    exact Nat.le_add_right _ _

end Layout

end Lexis

/-- The part of a text from an offset on, put together from slices, with blanks in place of groups.
-/
def spliced (text : List Char) (offset : Nat) : List VariableGroup → List Char
  | [] => slice offset (byteLength text) text
  | g :: groups => slice offset g.first text ++ (slice g.first g.last text).map blank ++
      spliced text g.last groups

theorem Lexis.Layout.spliced_eq {v s : List Char} {depth : Int} {n : Nat}
    {groups : List VariableGroup} (h : Layout v depth n s groups) {w x : List Char}
    (hv : v = w ++ x) : spliced (v ++ s) (byteLength w) groups = x ++ blanked v groups s := by
  induction h generalizing w x with
  | @nil s v depth n hd =>
    have hslice := slice_append w (x ++ s) []
    simp only [List.append_nil] at hslice
    rw [spliced, hv, List.append_assoc, hslice, blanked, blankFrom_nil]
  | @plain v s front u rest kind c depth n groups hs hf h ih =>
    have hsplice := ih (w := w) (x := x ++ (front ++ c :: u)) (by rw [hv, List.append_assoc])
    rw [List.append_assoc v, ← hs.text_eq] at hsplice
    rw [hsplice, (h.splits_blanked hs).text_eq, List.append_assoc]
  | @frame v s pre mid post c n f g groups ht hf hg h ih =>
    have hbetween := hg.between ht
    have hsplice := ih (w := v ++ (pre ++ '(' :: (mid ++ [c]))) (x := []) (by rw [List.append_nil])
    have hs : s = pre ++ '(' :: (mid ++ [c]) ++ post := by simp [ht.split]
    have hfront := slice_append w (x ++ pre) ('(' :: (mid ++ [c]) ++ post)
    have hgroup := slice_append (v ++ pre) ('(' :: (mid ++ [c])) post
    rw [List.append_assoc v, ← hs, List.nil_append] at hsplice
    rw [spliced, h.blanked_frame ht hg, hbetween.last, hsplice, hbetween.first]
    simp only [hv, hs, List.append_assoc, List.cons_append, List.nil_append] at hfront hgroup ⊢
    rw [hfront, hgroup]
    simp

theorem spliced_ofText (text : List Char) : spliced text 0 (VariableGroup.ofText text) =
    blankGroups (VariableGroup.ofText text) text :=
  (layout_ofText text).spliced_eq (w := []) (x := []) rfl

namespace VariableGroup

/-- The offsets of a group lie between characters of the text and follow one another. -/
structure InRange (g : VariableGroup) (text : List Char) : Prop where
  boundary : ∀ offset ∈ [g.first, g.opening.span.last.offset, g.closing.span.first.offset, g.last],
    Boundary text offset
  opening : g.first < g.opening.span.last.offset
  inner : g.opening.span.last.offset ≤ g.closing.span.first.offset
  closing : g.closing.span.first.offset < g.last
  last : g.last ≤ byteLength text

theorem inRange_of_between {text pre mid post : List Char} {g : VariableGroup} {c : Char}
    (h : Between [] text g pre mid c post) : g.InRange text := by
  obtain ⟨htext, hfirst, hopening, hclosing, hlast⟩ := h
  have hpos := c.utf8Size_pos
  have hbracket := '('.utf8Size_pos
  simp only [List.nil_append] at hfirst hopening hclosing hlast
  refine ⟨?_, ?_, ?_, ?_, ?_⟩
  · simp only [List.forall_mem_cons, hfirst, hopening, hclosing, hlast, htext]
    exact ⟨⟨pre, _, rfl, rfl⟩, ⟨pre ++ ['('], mid ++ c :: post, by simp, rfl⟩,
      ⟨pre ++ '(' :: mid, c :: post, by simp, rfl⟩,
      ⟨pre ++ '(' :: (mid ++ [c]), post, by simp, rfl⟩, by simp⟩
  all_goals
    simp only [hfirst, hopening, hclosing, hlast, htext, byteLength_append, byteLength]
    omega

/-- Does the token stand in front of the group or behind it? -/
def excludes (g : VariableGroup) (t : Token) : Bool :=
  t.span.last.offset ≤ g.first || g.last ≤ t.span.first.offset

end VariableGroup

theorem excludes_ofFrame_iff {n : Nat} {f : Frame Token} {t : Token} :
    (VariableGroup.ofFrame n f).excludes t = true ↔
      t.span.last.offset ≤ f.opening.span.first.offset ∨
        f.closing.span.last.offset ≤ t.span.first.offset := by
  rw [VariableGroup.excludes, Bool.or_eq_true, decide_eq_true_iff, decide_eq_true_iff]
  rfl

/-- No token is partly in a group. -/
theorem Ordered.excludes_eq {front behind : List Token} {f : Frame Token} {n : Nat} {t : Token}
    (h : Ordered (front ++ (f.group ++ behind))) (ht : t ∈ front ++ (f.group ++ behind)) :
    (VariableGroup.ofFrame n f).excludes t = !(VariableGroup.ofFrame n f).covers t := by
  obtain ⟨hpairwise, hwide⟩ := h
  obtain ⟨-, hrest, hfront⟩ := List.pairwise_append.mp hpairwise
  obtain ⟨hgroup, -, hbehind⟩ := List.pairwise_append.mp hrest
  obtain ⟨hfirst, hinner⟩ := List.pairwise_cons.mp hgroup
  have hopening := hwide f.opening (by simp [Frame.group])
  have hclosing := hwide f.closing (by simp [Frame.group])
  have hbrackets := hfirst f.closing (by simp)
  have ht' := hwide t ht
  have hcases : t.span.last.offset ≤ f.opening.span.first.offset ∨
      f.closing.span.last.offset ≤ t.span.first.offset ∨
        f.opening.span.first.offset ≤ t.span.first.offset ∧
          t.span.last.offset ≤ f.closing.span.last.offset := by
    rcases List.mem_append.mp ht with ht | ht
    · exact .inl (hfront t ht f.opening (by simp [Frame.group]))
    rcases List.mem_append.mp ht with ht | ht
    · refine .inr (.inr ?_)
      rcases List.mem_cons.mp ht with rfl | ht
      · omega
      have hle := hfirst t ht
      rcases List.mem_append.mp ht with ht | ht
      · have hlast := (List.pairwise_append.mp hinner).2.2 t ht f.closing (by simp)
        omega
      · obtain rfl := List.mem_singleton.mp ht
        omega
    · exact .inr (.inl (hbehind f.closing (by simp [Frame.group]) t ht))
  rw [Bool.eq_iff_iff, Bool.not_eq_true', ← Bool.not_eq_true, covers_ofFrame_iff,
    excludes_ofFrame_iff]
  omega

theorem excludes_eq_not_covers {text : List Char} {g : VariableGroup}
    (hg : g ∈ VariableGroup.ofText text) {t : Token} (ht : t ∈ significant text) :
    g.excludes t = !g.covers t := by
  have hordered := ordered_significant text
  obtain ⟨-, hsources⟩ := itemized_items Token.bare 0 (significant text)
  rw [ofText_eq] at hg
  obtain ⟨⟨n, f⟩, hmem, rfl⟩ := List.mem_map.mp hg
  have hf : f ∈ frames (items Token.bare 0 (significant text)) := by
    rw [← map_snd_numbered Token.bare 0 0]
    exact List.mem_map_of_mem hmem
  obtain ⟨before, after, hitems⟩ := List.append_of_mem (mem_frames.mp hf)
  have hsplit : sources (items Token.bare 0 (significant text)) =
      (sources before ++ [f.word, f.name]) ++ (f.group ++ sources after) := by
    rw [hitems]
    simp [sources, Item.source, Frame.source, Frame.group]
  rw [← hsources, hsplit] at hordered ht
  exact hordered.excludes_eq ht

/-- The tokens outside all groups, and the end. -/
theorem filter_excludes_tokens {text : List Char} {last : Token}
    (hlast : last.EndsAt (Cursor.start.past text).place)
    (htokens : tokens text = significant text ++ [last]) :
    ((tokens text).filter fun t => (VariableGroup.ofText text).all (·.excludes t)) =
      ungrouped text ++ [last] := by
  have hsignificant : (significant text).filter
      (fun t => (VariableGroup.ofText text).all (·.excludes t)) = ungrouped text := by
    refine List.filter_congr fun t ht => ?_
    rw [Bool.eq_iff_iff, List.all_eq_true, List.all_eq_true]
    exact forall₂_congr fun g hg => by rw [excludes_eq_not_covers hg ht]
  have hend : (VariableGroup.ofText text).all (·.excludes last) = true := by
    refine List.all_eq_true.mpr fun g hg => ?_
    obtain ⟨pre, mid, c, post, hbetween⟩ := (layout_ofText text).exists_between hg
    have hle := (VariableGroup.inRange_of_between hbetween).last
    rw [VariableGroup.excludes, Bool.or_eq_true, decide_eq_true_iff, decide_eq_true_iff]
    refine .inr ?_
    rw [hlast.span, Cursor.offset_past]
    simpa [Cursor.start] using hle
  rw [htokens, List.filter_append, hsignificant]
  exact congrArg _ (List.filter_cons_of_pos hend)

theorem Lexis.Token.EndsAt.standing_congr {t t' : Token} {k k' : Cursor} (h : t.EndsAt k.place)
    (h' : t'.EndsAt k'.place) (hk : k.Aligned k') : t.standing = t'.standing := by
  simp only [Token.standing, Place.spot, h.kind, h.text, h.span, h'.kind, h'.text, h'.span, hk.line,
    hk.column]

/-- Where the variables of a text are lifted, its groups stand one behind the other and all slices
are in range. The text for the grammar is put together from them. It has as many characters, and its
line ends are those of the text. Its tokens are those of the text that stand outside all groups,
with the same kinds, texts, lines and columns. -/
theorem liftGroups_blanks {text grammarText : List Char}
    {declared : List (Nat × FragmentVariables)}
    (h : liftGroups text = .ok (grammarText, declared)) :
    (VariableGroup.ofText text).Pairwise (fun g g' => g.last ≤ g'.first) ∧
    (∀ g ∈ VariableGroup.ofText text, g.InRange text) ∧
    grammarText = spliced text 0 (VariableGroup.ofText text) ∧
    grammarText.length = text.length ∧
    (∀ (i : Nat) (c : Char), isLineEnd c = true → (grammarText[i]? = some c ↔ text[i]? = some c)) ∧
    (tokens grammarText).map Token.standing =
      ((tokens text).filter fun t => (VariableGroup.ofText text).all (·.excludes t)).map
        Token.standing := by
  obtain ⟨declared', -, hdeclared⟩ := bind_eq_ok_iff.mp h
  obtain rfl : blankGroups (VariableGroup.ofText text) text = grammarText :=
    congrArg Prod.fst (Except.ok.inj hdeclared)
  have hlayout := layout_ofText text
  have hmasked := masked_blankGroups (VariableGroup.ofText text) text
  refine ⟨hlayout.pairwise, fun g hg => ?_, (spliced_ofText text).symm, hmasked.length_eq.symm,
    fun i _ hc => hmasked.getElem?_eq_some_iff hc i, ?_⟩
  · obtain ⟨pre, mid, c, post, hbetween⟩ := hlayout.exists_between hg
    exact VariableGroup.inRange_of_between hbetween
  · obtain ⟨last, hlast, htokens, -⟩ := exists_tokens_eq text
    obtain ⟨last', hlast', htokens', -⟩ :=
      exists_tokens_eq (blankGroups (VariableGroup.ofText text) text)
    have hstart : Cursor.start.Aligned Cursor.start := ⟨rfl, rfl, rfl⟩
    rw [filter_excludes_tokens hlast htokens, htokens', List.map_append, List.map_append,
      map_standing_blankGroups, List.map_singleton, List.map_singleton,
      hlast.standing_congr hlast' (hstart.past hmasked)]

/-- Behind a group with a block string, a comment and three line ends, and in front of an error. -/
theorem liftGroups_blanks_block : ∃ grammarText declared,
    liftGroups "fragment F($a: S = \"\"\"\r🎉\r\n\"\"\" #)\n\t) on T \x7b .5 \x7d".toList =
      .ok (grammarText, declared) ∧
    grammarText[22]? = some '\r' ∧
    (tokens grammarText).map (fun t => (String.ofList t.text, t.span.first.spot)) =
      [("fragment", 0, 0), ("F", 0, 9), ("on", 3, 3), ("T", 3, 6), ("\x7b", 3, 8), (".", 3, 10),
        ("5", 3, 11), ("\x7d", 3, 13), ("", 3, 14)] := by
  have hok : (liftGroups "fragment F($a: S = \"\"\"\r🎉\r\n\"\"\" #)\n\t) on T \x7b .5 \x7d".toList
      ).toOption.isSome = true := by decide +kernel
  cases h : liftGroups
      "fragment F($a: S = \"\"\"\r🎉\r\n\"\"\" #)\n\t) on T \x7b .5 \x7d".toList with
  | error e => rw [h] at hok; cases hok
  | ok lifted =>
    obtain ⟨-, -, -, -, hends, htokens⟩ := liftGroups_blanks h
    refine ⟨_, _, rfl, (hends 22 '\r' rfl).mpr (by decide +kernel), ?_⟩
    have hspots := congrArg (List.map fun x => (String.ofList x.text, x.first)) htokens
    rw [List.map_map, List.map_map] at hspots
    exact hspots.trans (by decide +kernel)

end QueryDoc
