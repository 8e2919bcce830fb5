import QueryDoc.Proofs.Document.FrameText
import QueryDoc.Proofs.Lexis.Offset

/-!
# Groups and frames

The groups that are found among the tokens of a text are the frames among its words, and the text
whose groups are blanked out has the words that are kept (`Layout.found`).
-/
namespace QueryDoc.Lexis

open QueryDoc.Grammar (byteLength)

/-! ## Blanks in place of groups -/

/-- The character in place of one that is blanked out. -/
def blank (c : Char) : Char := if isLineEnd c then c else ' '

theorem isSkipped_blank (c : Char) : isSkipped (blank c) = true := by
  unfold blank
  split
  · exact isSkipped_of_isLineEnd ‹_›
  · rfl

/-- A text with its groups blanked out; the text itself starts at `offset`. -/
def blankFrom (offset : Nat) (groups : List VariableGroup) (text : List Char) : List Char :=
  (withOffsets offset text).map fun x =>
    if groups.any (fun g => g.first ≤ x.1 && x.1 < g.last) && !isLineEnd x.2 then ' ' else x.2

theorem blankFrom_nil (offset : Nat) (text : List Char) : blankFrom offset [] text = text :=
  map_snd_withOffsets offset text

/-- In front of all groups the text stays as it is. -/
theorem blankFrom_append {offset : Nat} {groups : List VariableGroup} {s : List Char}
    (h : ∀ g ∈ groups, offset + byteLength s ≤ g.first) (t : List Char) :
    blankFrom offset groups (s ++ t) = s ++ blankFrom (offset + byteLength s) groups t := by
  unfold blankFrom
  rw [withOffsets_append, List.map_append]
  refine congrArg (· ++ _) ?_
  refine Eq.trans (List.map_congr_left fun x hx => ?_) (map_snd_withOffsets offset s)
  have hbounds := bounds_of_mem_withOffsets hx
  have hnone : groups.any (fun g => g.first ≤ x.1 && x.1 < g.last) = false := by
    simp only [List.any_eq_false, Bool.and_eq_true, decide_eq_true_eq]
    intro g hg
    have := h g hg
    omega
  rw [hnone]
  rfl

/-- What a group covers is blank, and behind a group it does not count. -/
theorem blankFrom_group {offset : Nat} {g : VariableGroup} {groups : List VariableGroup}
    {s : List Char} (hfirst : g.first = offset) (hlast : g.last = offset + byteLength s)
    (t : List Char) : blankFrom offset (g :: groups) (s ++ t) =
      s.map blank ++ blankFrom (offset + byteLength s) groups t := by
  unfold blankFrom
  rw [withOffsets_append, List.map_append]
  refine congrArg₂ (· ++ ·) ?_ (List.map_congr_left fun x hx => ?_)
  · rw [← map_snd_withOffsets offset s, List.map_map, map_snd_withOffsets]
    refine List.map_congr_left fun x hx => ?_
    have hbounds := bounds_of_mem_withOffsets hx
    have hin : (decide (g.first ≤ x.1) && decide (x.1 < g.last)) = true := by
      simp
      omega
    simp only [List.any_cons, hin, Bool.true_or, Bool.true_and, Function.comp_apply, blank]
    cases isLineEnd x.2 <;> rfl
  · have hbounds := bounds_of_mem_withOffsets hx
    have hout : (decide (g.first ≤ x.1) && decide (x.1 < g.last)) = false := by
      simp
      omega
    simp only [List.any_cons, hout, Bool.false_or]

/-! ## Groups of a text -/

/-- The group of a frame in a text, and what the text says between its brackets and with them. -/
structure Located (text : List Char) (x : Nat × Frame Word) (g : VariableGroup) : Prop where
  definition : g.definition = x.1
  fragment : g.fragment = String.ofList x.2.name.text
  kind : g.closing.kind = x.2.closing.kind
  opening : x.2.opening = ⟨.punctuator .parenOpen, ['('], false⟩
  slices : ∃ (mid : List Char) (c : Char) (p : Punctuator), Punctuator.ofChar? c = some p ∧
    x.2.closing = ⟨.punctuator p, [c], false⟩ ∧
    slice g.opening.span.last.offset g.closing.span.first.offset text = mid ∧
    slice g.first g.last text = '(' :: (mid ++ [c]) ∧
    ∀ d, (Punctuator.ofChar? d).isSome = true → ∀ post,
      words (mid ++ d :: post) = x.2.inner ++ words (d :: post)

theorem Located.unglued {text : List Char} {x : Nat × Frame Word} {g : VariableGroup}
    (h : Located text x g) : x.2.opening.glued = false ∧ x.2.closing.glued = false := by
  obtain ⟨mid, c, p, -, hclosing, -⟩ := h.slices
  rw [h.opening, hclosing]
  exact ⟨rfl, rfl⟩

theorem GroupText.first {k : Cursor} {g : VariableGroup} {n : Nat} {f : Frame Word}
    {pre mid : List Char} {c : Char} (h : GroupText k g n f pre mid c) :
    g.first = k.place.offset + byteLength pre := by
  rw [VariableGroup.first, h.opening, Cursor.offset_past]

theorem GroupText.last {k : Cursor} {g : VariableGroup} {n : Nat} {f : Frame Word}
    {pre mid : List Char} {c : Char} (h : GroupText k g n f pre mid c) :
    g.last = k.place.offset + byteLength (pre ++ '(' :: (mid ++ [c])) := by
  rw [VariableGroup.last, h.closing, Cursor.offset_past]

theorem FrameText.located {s pre mid post : List Char} {f : Frame Word} {c : Char}
    (h : FrameText s f pre mid c post) {k : Cursor} {g : VariableGroup} {n : Nat}
    (hg : GroupText k g n f pre mid c) {u : List Char} (hk : k.place.offset = byteLength u) :
    Located (u ++ s) (n, f) g := by
  obtain ⟨p, hp, -, hclosing⟩ := h.closing
  have hfirst : g.first = byteLength (u ++ pre) := by rw [hg.first, hk, byteLength_append]
  have hlast : g.last = byteLength (u ++ pre ++ '(' :: (mid ++ [c])) := by
    rw [hg.last, hk, List.append_assoc, byteLength_append u]
  have hinnerFirst : g.opening.span.last.offset = byteLength (u ++ pre ++ ['(']) := by
    rw [hg.opening, Cursor.offset_past, hk, List.append_assoc, byteLength_append u]
  have hinnerLast : g.closing.span.first.offset = byteLength (u ++ pre ++ ['('] ++ mid) := by
    rw [hg.closing, Cursor.offset_past, hk]
    simp [byteLength]
  refine ⟨hg.definition, hg.fragment, hg.kind, h.opening, mid, c, p, hp, hclosing, ?_, ?_,
    fun d hd post => h.words_mid hd post⟩
  · rw [hinnerFirst, hinnerLast, h.split]
    simpa using slice_append (u ++ pre ++ ['(']) mid (c :: post)
  · rw [hfirst, hlast, h.split]
    simpa using slice_append (u ++ pre) ('(' :: (mid ++ [c])) post

theorem find_of_front? {n : Nat} {ts rest : List Token} {g : VariableGroup}
    (h : VariableGroup.front? n ts = some (g, rest)) :
    VariableGroup.find 0 n ts = g :: VariableGroup.find 0 n rest := by
  rw [VariableGroup.find]
  split
  · rename_i hg
    rw [if_pos rfl, h] at hg
    cases hg
    rfl
  · rename_i hg
    rw [if_pos rfl, h] at hg
    cases hg

theorem closesDefinition_iff {t : Token} {w : Word} (h : t.kind = w.kind) (depth : Int) :
    closesDefinition t depth = true ↔ Closes Word.bare w depth := by
  unfold closesDefinition Closes Word.bare Kind.punctuator?
  rw [h]
  cases w.kind <;> simp

theorem find_cons {depth : Int} {n : Nat} {t : Token} {w : Word} {ts : List Token}
    (hw : t.kind = w.kind) (h : depth = 0 → VariableGroup.front? n (t :: ts) = none) :
    VariableGroup.find depth n (t :: ts) = VariableGroup.find (behind Word.bare depth w)
      (if Closes Word.bare w (depth + w.kind.nesting) then n + 1 else n) ts := by
  rw [VariableGroup.find]
  split
  · rename_i hg
    split at hg
    · rw [h ‹_›] at hg; cases hg
    · cases hg
  · have hnesting : w.bare.1.nesting = w.kind.nesting := rfl
    simp only [closesDefinition_iff hw, hw, behind, hnesting]
    split <;> rfl

theorem find_nil (depth : Int) (n : Nat) : VariableGroup.find depth n [] = [] := by
  rw [VariableGroup.find]
  split
  · rename_i hg
    split at hg <;> cases hg
  · rfl

theorem find_of_dropIgnored_nil (depth : Int) (n : Nat) (k : Cursor) (trivia : List Trivia)
    {s : List Char} (h : dropIgnored false s = []) :
    VariableGroup.find depth n (tokensFrom k trivia s) = [] := by
  obtain ⟨t, hk, -, -, he⟩ := tokensFrom_of_dropIgnored_nil k trivia h
  rw [he, find_cons (w := ⟨.eof, [], false⟩) hk fun _ => rfl]
  exact find_nil _ _

/-- The groups that are found in a text from a cursor on. -/
structure Found (text s : List Char) (k : Cursor) (depth : Int) (n : Nat)
    (groups : List VariableGroup) : Prop where
  words : words (blankFrom k.place.offset groups s) = kepts (items Word.bare depth (words s))
  take : (blankFrom k.place.offset groups s).take 2 = s.take 2
  first : ∀ g ∈ groups, k.place.offset ≤ g.first
  located : List.Forall₂ (Located text)
    (numbered Word.bare depth n (items Word.bare depth (Lexis.words s))) groups

theorem isSkipped_of_mem_map_blank {s : List Char} : ∀ d ∈ s.map blank, isSkipped d = true := by
  intro d hd
  obtain ⟨e, -, rfl⟩ := List.mem_map.mp hd
  exact isSkipped_blank e

section

variable {text s pre mid post : List Char} {f : Frame Word} {c : Char} {k : Cursor}
  {g : VariableGroup} {n : Nat} {groups : List VariableGroup} (ht : FrameText s f pre mid c post)
  (hg : GroupText k g n f pre mid c) (h : Found text post (k.past (pre ++ '(' :: (mid ++ [c]))) 0 n
    groups)

include hg h

/-- Neither the group of a frame nor any later one starts in front of it. -/
theorem Found.le_first_frame : ∀ x ∈ g :: groups, k.place.offset + byteLength pre ≤ x.first := by
  intro x hx
  rcases List.mem_cons.mp hx with rfl | hx
  · exact hg.first.ge
  · have hle := h.first x hx
    rw [Cursor.offset_past, byteLength_append] at hle
    omega

include ht

/-- Blanks take the place of a frame's group, and what follows is blanked out on its own. -/
theorem Found.blankFrom_frame : blankFrom k.place.offset (g :: groups) s =
    pre ++ (('(' :: (mid ++ [c])).map blank ++
      blankFrom (k.past (pre ++ '(' :: (mid ++ [c]))).place.offset groups post) := by
  have hoffset : (k.past (pre ++ '(' :: (mid ++ [c]))).place.offset =
      k.place.offset + byteLength pre + byteLength ('(' :: (mid ++ [c])) := by
    rw [Cursor.offset_past, byteLength_append, Nat.add_assoc]
  have hlast : g.last = k.place.offset + byteLength pre + byteLength ('(' :: (mid ++ [c])) := by
    rw [hg.last, byteLength_append, Nat.add_assoc]
  have hsplit : s = pre ++ ('(' :: (mid ++ [c]) ++ post) := by rw [ht.split]; simp
  rw [hsplit, blankFrom_append (h.le_first_frame hg), blankFrom_group hg.first hlast, hoffset]

theorem Found.frame (hf : frame? Word.bare (Lexis.words s) = some (f, Lexis.words post))
    (hl : Located text (n, f) g) : Found text s k 0 n (g :: groups) := by
  have hblank := h.blankFrom_frame ht hg
  refine ⟨?_, ?_, fun x hx => Nat.le_of_add_right_le (h.le_first_frame hg x hx), ?_⟩
  · rw [hblank, ← List.append_assoc, ht.words_blank isSkipped_of_mem_map_blank (by simp), h.words,
      items_of_frame? Word.bare hf]
    rfl
  · have hlength := ht.two_le_length
    rw [hblank, ht.split, List.take_append_of_le_length hlength,
      List.take_append_of_le_length hlength]
  · rw [items_of_frame? Word.bare hf]
    exact .cons hl h.located

end

/-- Texts that start with the same two characters look alike. -/
theorem looks_of_take_eq {s t : List Char} (h : t.take 2 = s.take 2) : Looks s t := by
  rcases s with _ | ⟨a, _ | ⟨b, s⟩⟩ <;> rcases t with _ | ⟨c, _ | ⟨d, t⟩⟩ <;>
    simp_all [Looks]

theorem take_append_eq {s t : List Char} (h : t.take 2 = s.take 2) (front : List Char) :
    (front ++ t).take 2 = (front ++ s).take 2 := by
  have h := congrArg (List.take (2 - front.length)) h
  rw [List.take_take, List.take_take, Nat.min_eq_left (Nat.sub_le _ _)] at h
  rw [List.take_append, List.take_append, h]

section

variable {text s front u rest : List Char} {kind : Kind} {c : Char} {k : Cursor} {depth : Int}
  {n : Nat} {groups : List VariableGroup} (hs : Splits s front kind c u rest)
  (h : Found text rest (k.past (front ++ c :: u)) depth n groups)

include hs h

/-- A word in front of the groups stays as it is. -/
theorem Found.blankFrom_plain : blankFrom k.place.offset groups s = front ++ c :: u ++
    blankFrom (k.past (front ++ c :: u)).place.offset groups rest := by
  have hfirst : ∀ g ∈ groups, k.place.offset + byteLength (front ++ c :: u) ≤ g.first :=
    fun g hg => Cursor.offset_past k _ ▸ h.first g hg
  rw [Cursor.offset_past, hs.text_eq, blankFrom_append hfirst]

/-- The text with blanks is split where the text itself is. -/
theorem Found.splits : Splits (blankFrom k.place.offset groups s) front kind c u
    (blankFrom (k.past (front ++ c :: u)).place.offset groups rest) := by
  have hother := hs.replace (.inr (looks_of_take_eq h.take))
  rwa [← List.cons_append, ← List.append_assoc, ← h.blankFrom_plain hs] at hother

end

theorem Found.plain {text s front u rest : List Char} {kind : Kind} {c : Char} {k : Cursor}
    {depth : Int} {n : Nat} {groups : List VariableGroup} (hs : Splits s front kind c u rest)
    (hf : depth = 0 → frame? Word.bare (Lexis.words s) = none)
    (h : Found text rest (k.past (front ++ c :: u))
      (behind Word.bare depth (.ofScan ⟨kind, c :: u, rest⟩))
      (if Closes Word.bare (.ofScan ⟨kind, c :: u, rest⟩) (depth + kind.nesting) then n + 1 else n)
      groups) :
    Found text s k depth n groups := by
  have hitems : items Word.bare depth (Lexis.words s) = .plain (.ofScan ⟨kind, c :: u, rest⟩) ::
      items Word.bare (behind Word.bare depth (.ofScan ⟨kind, c :: u, rest⟩))
        (Lexis.words rest) := by
    rw [hs.words_eq] at hf ⊢
    exact items_cons Word.bare hf
  refine ⟨?_, ?_, fun g hg => ?_, ?_⟩
  · have hruns : runsOn (blankFrom (k.past (front ++ c :: u)).place.offset groups rest) =
        runsOn rest := by
      unfold runsOn
      rw [(looks_of_take_eq h.take).1]
    rw [(h.splits hs).words_eq, ofScan_congr fun _ => hruns, hitems, h.words]
    rfl
  · rw [h.blankFrom_plain hs, hs.text_eq]
    exact take_append_eq h.take _
  · exact Nat.le_of_add_right_le (Cursor.offset_past k (front ++ c :: u) ▸ h.first g hg)
  · rw [hitems, numbered_plain]
    exact h.located

/-- Where nothing is left but ignored text, no group is found. -/
theorem Found.nil (text : List Char) {s : List Char} (hd : dropIgnored false s = []) (k : Cursor)
    (depth : Int) (n : Nat) : Found text s k depth n [] := by
  have hitems : items Word.bare depth (Lexis.words s) = [] := by
    rw [words_of_dropIgnored_nil hd, items_nil]
  refine ⟨?_, by rw [blankFrom_nil], by simp, ?_⟩
  · rw [blankFrom_nil, hitems, words_of_dropIgnored_nil hd]
    rfl
  · rw [hitems]
    exact .nil

/-! ## How groups lie in a text -/

/-- The groups lie in a text in the order they are found in: the text is split off word by word, and
where a frame starts, the whole of it. The text stands behind `v`, with the nesting `depth` and
behind `n` definitions. -/
inductive Layout : List Char → Int → Nat → List Char → List VariableGroup → Prop where
  | nil {s : List Char} (v : List Char) (depth : Int) (n : Nat) (hd : dropIgnored false s = []) :
    Layout v depth n s []
  | plain {v s front u rest : List Char} {kind : Kind} {c : Char} {depth : Int} {n : Nat}
    {groups : List VariableGroup} (hs : Splits s front kind c u rest)
    (hf : depth = 0 → frame? Word.bare (words s) = none)
    (h : Layout (v ++ (front ++ c :: u)) (behind Word.bare depth (.ofScan ⟨kind, c :: u, rest⟩))
      (if Closes Word.bare (.ofScan ⟨kind, c :: u, rest⟩) (depth + kind.nesting) then n + 1 else n)
      rest groups) : Layout v depth n s groups
  | frame {v s pre mid post : List Char} {c : Char} {n : Nat} {f : Frame Word} {g : VariableGroup}
    {groups : List VariableGroup} (ht : FrameText s f pre mid c post)
    (hf : frame? Word.bare (words s) = some (f, words post))
    (hg : GroupText (Cursor.start.past v) g n f pre mid c)
    (h : Layout (v ++ (pre ++ '(' :: (mid ++ [c]))) 0 n post groups) : Layout v 0 n s (g :: groups)

theorem layout_find (v s : List Char) (trivia : List Trivia) (depth : Int) (n : Nat) :
    Layout v depth n s
      (VariableGroup.find depth n (tokensFrom (Cursor.start.past v) trivia s)) := by
  induction hlength : s.length using Nat.strong_induction_on generalizing v s trivia depth n with
  | _ length ih =>
    cases hf : (if depth = 0 then frame? Word.bare (words s) else none) with
    | some x =>
      obtain ⟨f, ws⟩ := x
      obtain rfl : depth = 0 := by
        by_contra hne
        rw [if_neg hne] at hf
        cases hf
      rw [if_pos rfl] at hf
      obtain ⟨pre, mid, c, post, g, hpost, ht, hg, hfront⟩ :=
        exists_frameText hf n (Cursor.start.past v) trivia
      rw [find_of_front? hfront, ← Cursor.past_append]
      refine .frame ht (hpost.symm ▸ hf) hg (ih post.length ?_ _ post [] 0 n rfl)
      rw [← hlength, ht.split]
      simp
      omega
    | none =>
      have hf : depth = 0 → frame? Word.bare (words s) = none := fun h0 => by simpa [h0] using hf
      obtain hd | ⟨front, kind, c, u, rest, hs⟩ := splits_cases s
      · rw [find_of_dropIgnored_nil depth n _ trivia hd]
        exact .nil v depth n hd
      · obtain ⟨tok, hkind, -, -, htokens⟩ := hs.exists_token (Cursor.start.past v) trivia
        have hnone := fun h0 => front?_of_frame?_none (hf h0) n (Cursor.start.past v) trivia
        rw [htokens] at hnone ⊢
        rw [find_cons (w := .ofScan ⟨kind, c :: u, rest⟩) hkind hnone, ← Cursor.past_append]
        exact .plain hs hf (ih rest.length (hlength ▸ hs.length_lt) _ rest [] _ _ rfl)

theorem layout_ofText (text : List Char) : Layout [] 0 0 text (VariableGroup.ofText text) :=
  layout_find [] text [] 0 0

theorem Layout.found {v s : List Char} {depth : Int} {n : Nat} {groups : List VariableGroup}
    (h : Layout v depth n s groups) : Found (v ++ s) s (Cursor.start.past v) depth n groups := by
  induction h with
  | nil v depth n hd => exact .nil _ hd _ depth n
  | @plain v s front u rest kind c depth n groups hs hf h ih =>
    refine .plain hs hf ?_
    rwa [Cursor.past_append, List.append_assoc, ← hs.text_eq] at ih
  | @frame v s pre mid post c n f g groups ht hf hg h ih =>
    have hk : (Cursor.start.past v).place.offset = byteLength v := by simp [Cursor.start]
    have hs : pre ++ '(' :: (mid ++ [c]) ++ post = s := by simp [ht.split]
    rw [Cursor.past_append, List.append_assoc, hs] at ih
    exact ih.frame ht hg hf (ht.located hg hk)

/-- The text that the grammar reads in place of one with groups. -/
theorem words_blankGroups (text : List Char) :
    words (blankGroups (VariableGroup.ofText text) text) = kepts (items Word.bare 0 (words text)) :=
  (layout_ofText text).found.words

theorem located_ofText (text : List Char) : List.Forall₂ (Located text)
    (numbered Word.bare 0 0 (items Word.bare 0 (words text))) (VariableGroup.ofText text) :=
  (layout_ofText text).found.located

end QueryDoc.Lexis
