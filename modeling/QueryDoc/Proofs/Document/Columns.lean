import QueryDoc.Proofs.Document.Belonging
import QueryDoc.Proofs.Document.Blanking
import QueryDoc.Proofs.Document.Budget

/-!
# Positions of the grammar

The positions of definitions are counted in the text with blanks, where a group takes as many
columns as it has characters on its last line. The grammar's count over the group itself comes out
elsewhere if a tab, a carriage return or U+FEFF stands in it. So the lexemes outside all groups are
where they are in the text itself exactly if no group changes the count (`positions_kept`).
-/
namespace QueryDoc

open QueryDoc.Lexis QueryDoc.Grammar
open QueryDoc.Ast (Position)

/-! ## Characters that count as a blank does -/

namespace Grammar

/-- The grammar counts the character, wherever it stands, as a blank in its place. -/
def isEven (c : Char) : Bool := c != '\t' && c != '\r' && c != '\uFEFF'

theorem isEven_iff {c : Char} : isEven c = true ↔ c ≠ '\t' ∧ c ≠ '\r' ∧ c ≠ '\uFEFF' := by
  simp [isEven, and_assoc]

theorem skipIgnored_blank {c : Char} (hc : c ≠ '\r') (p : Position) (s : List Char) :
    skipIgnored p false (blank c :: s) =
      skipIgnored (if c = '\n' then nextLine p else right 1 p) false s := by
  by_cases hn : c = '\n'
  · simp [hn, blank, isLineEnd, skipIgnored]
  · simp [hn, hc, blank, isLineEnd, skipIgnored]

/-- Blanks in place of a lexeme are as wide as it is. -/
theorem past_eq_skipIgnored {text : List Char} (h : ∀ c ∈ text, isEven c = true) (p : Position) :
    past p text = (skipIgnored p false (text.map blank)).1 := by
  induction text generalizing p with
  | nil => rfl
  | cons c text ih =>
    obtain ⟨hc, htext⟩ := List.forall_mem_cons.mp h
    rw [List.map_cons, skipIgnored_blank (isEven_iff.mp hc).2.1, ← ih htext]
    simp [past]

/-- Blanks in place of ignored text are as wide as it is. In a comment they may be in another
column, since the line end behind the comment makes up for it. -/
theorem skipIgnored_map_blank {inComment : Bool} {front : List Char}
    (heven : ∀ c ∈ front, isEven c = true)
    (h : ∀ y, dropIgnored inComment (front ++ y) = dropIgnored false y) {p q : Position}
    (hline : p.line = q.line) (hcolumn : inComment = false → p = q) :
    (skipIgnored p inComment front).1 = (skipIgnored q false (front.map blank)).1 := by
  induction front generalizing inComment p q with
  | nil =>
    cases inComment with
    | false => exact hcolumn rfl
    | true => exact absurd (h ['a']) (by decide)
  | cons c front ih =>
    obtain ⟨hc, hfront⟩ := List.forall_mem_cons.mp heven
    obtain ⟨htab, hreturn, hmark⟩ := isEven_iff.mp hc
    rw [List.map_cons, skipIgnored_blank hreturn]
    obtain ⟨f, behind, hskips⟩ | ⟨rfl, hstarts⟩ := skips_or_starts inComment c
    · have hrest : ∀ y, dropIgnored behind (front ++ y) = dropIgnored false y := fun y => by
        rw [← h y, List.cons_append, hskips.dropIgnored_cons]
      rw [hskips.skipIgnored_cons]
      cases hskips with
      | lineFeed =>
        have hnext : nextLine p = nextLine q := by simp [nextLine, hline]
        exact ih hfront hrest (congrArg Position.line hnext) fun _ => hnext
      | commentReturn => exact absurd rfl hreturn
      | comment hend =>
        have hn : c ≠ '\n' := by rintro rfl; cases hend
        rw [if_neg hn]
        exact ih hfront hrest hline (by simp)
      | space hspace =>
        obtain rfl := hcolumn rfl
        have hn : c ≠ '\n' := by rcases hspace with rfl | rfl <;> decide
        rw [if_neg hn]
        exact ih hfront hrest rfl fun _ => rfl
      | tab => exact absurd rfl htab
      | unseen hunseen => exact absurd hunseen (by simp [hreturn, hmark])
      | hash => exact ih hfront hrest hline (by simp)
    · have hnil := h []
      rw [List.cons_append, dropIgnored_cons_of_startsToken hstarts] at hnil
      cases hnil

end Grammar

/-- The grammar's count over a text is that over blanks in its place, if the text ends with its last
word. -/
theorem Lexis.Takes.run_positions {ws : List Word} {s rest : List Char} (h : Takes ws s rest)
    (hrest : rest = []) (heven : ∀ c ∈ s, isEven c = true) (p : Position) :
    (positions.run p s).2 = positions.skip p (s.map blank) := by
  induction h generalizing p with
  | nil s =>
    subst hrest
    rw [positions.run_nil]
    rfl
  | @cons s front u t rest kind c ws hs h ih =>
    have hparts := hs.text_eq ▸ heven
    simp only [List.forall_mem_append] at hparts
    obtain ⟨⟨hfront, hword⟩, ht⟩ := hparts
    have hblank (x : List Char) : Ignorable (x.map blank) :=
      ignorable_of_all_isSkipped isSkipped_of_mem_map_blank
    rw [positions.run_of_splits hs, ih hrest ht, hs.text_eq, List.map_append, List.map_append,
      positions.skip_append ((hblank front).append (hblank (c :: u))),
      positions.skip_append (hblank front)]
    have hskip : positions.skip p front = positions.skip p (front.map blank) :=
      skipIgnored_map_blank hfront hs.ignorable rfl fun _ => rfl
    have hpass := past_eq_skipIgnored hword (positions.skip p (front.map blank))
    rw [← hskip] at hpass ⊢
    exact congrArg (positions.skip · (t.map blank)) hpass

/-! ## Groups that do not change the count -/

/-- Where the grammar's count is behind a text. -/
def reach (s : List Char) : Position := (lexemes s).2.position

namespace VariableGroup

/-- The ignored text behind a group. -/
def gap (g : VariableGroup) (text : List Char) : List Char :=
  ignoredFront (slice g.last (byteLength text) text)

/-- In front of the token behind the group, the grammar's count is the same over the group and over
blanks in its place. -/
def KeepsCount (g : VariableGroup) (text : List Char) : Prop :=
  reach (slice g.first g.last text ++ g.gap text) =
    reach ((slice g.first g.last text).map blank ++ g.gap text)

instance (g : VariableGroup) (text : List Char) : Decidable (g.KeepsCount text) :=
  inferInstanceAs (Decidable (_ = _))

/-- As `KeepsCount`, by the tally. -/
def KeepsTally (g : VariableGroup) (text : List Char) : Prop :=
  (positions.run Grammar.start (slice g.first g.last text ++ g.gap text)).2 =
    (positions.run Grammar.start ((slice g.first g.last text).map blank ++ g.gap text)).2

end VariableGroup

namespace Lexis

variable {v s : List Char} {depth : Int} {n : Nat} {groups : List VariableGroup}

/-- The grammar's count in front of the token behind a group, and in front of the one behind blanks
in its place. -/
theorem FrameText.keepsTally_iff {pre mid post front u rest : List Char} {kind : Kind} {c d : Char}
    {f : Frame Word} {g : VariableGroup} (ht : FrameText s f pre mid c post)
    (hg : GroupText (Cursor.start.past v) g n f pre mid c)
    (hs : Splits post front kind d u rest) (p : Position) : g.KeepsTally (v ++ s) ↔
      (positions.run (positions.skip p (('(' :: (mid ++ [c])).map blank)) post).1.head? =
        (positions.run (positions.run p ('(' :: (mid ++ [c]))).2 post).1.head? := by
  obtain ⟨hgroup, hpost⟩ := (hg.between ht).slice_group
  have hfront : dropIgnored false front = [] := dropIgnored_of_ignorable hs.ignorable
  have hrun (q : Position) : (positions.run q ('(' :: (mid ++ [c]) ++ front)).2 =
      positions.skip (positions.run q ('(' :: (mid ++ [c]))).2 front := by
    rw [(ht.takes_group front).run_append positions rfl, positions.run_of_dropIgnored_nil hfront]
  have hblank (q : Position) :
      (positions.run q (('(' :: (mid ++ [c])).map blank ++ front)).2 =
        positions.skip (positions.skip q (('(' :: (mid ++ [c])).map blank)) front := by
    rw [positions.run_append_of_ignorable (ignorable_of_all_isSkipped isSkipped_of_mem_map_blank),
      positions.run_of_dropIgnored_nil hfront]
  rw [VariableGroup.KeepsTally, VariableGroup.gap, hgroup, hpost, hs.ignoredFront_eq,
    Moves.eq_iff (moves_run _) (moves_run _) Grammar.start p, hrun, hblank,
    positions.run_of_splits hs, positions.run_of_splits hs]
  simp [eq_comm]

/-- What the grammar counts in a text with blanks is what it counts outside all groups, exactly if
no group changes the count. -/
theorem Layout.run_blanked_iff (h : Layout v depth n s groups)
    (hlast : ∀ is f, items Word.bare depth (words s) ≠ is ++ [.frame f]) (p : Position) :
    (positions.run p (blanked v groups s)).1 = positions.outside depth p s ↔
      ∀ g ∈ groups, g.KeepsTally (v ++ s) := by
  induction h generalizing p with
  | nil v depth n hd =>
    rw [positions.outside_of_dropIgnored_nil hd, blanked, blankFrom_nil,
      positions.run_of_dropIgnored_nil hd]
    simp
  | @plain v s front u rest kind c depth n groups hs hf h ih =>
    have hitems : items Word.bare depth (words s) = .plain (.ofScan ⟨kind, c :: u, rest⟩) ::
        items Word.bare (behind Word.bare depth (.ofScan ⟨kind, c :: u, rest⟩)) (words rest) := by
      rw [hs.words_eq] at hf ⊢
      exact items_cons Word.bare hf
    rw [positions.outside_plain hs hf, positions.run_of_splits (h.splits_blanked hs),
      List.cons_inj_right, ih, List.append_assoc, ← hs.text_eq]
    exact fun is f he =>
      hlast (.plain (.ofScan ⟨kind, c :: u, rest⟩) :: is) f (by rw [hitems, he]; rfl)
  | @frame v s pre mid post c n f g groups ht hf hg h ih =>
    rw [items_of_frame? Word.bare hf] at hlast
    obtain hd | ⟨front, kind, d, u, rest, hs⟩ := splits_cases post
    · refine absurd ?_ (hlast [] f)
      rw [words_of_dropIgnored_nil hd, items_nil]
      rfl
    have ih := ih fun is f' he => hlast (.frame f :: is) f' (by rw [he]; rfl)
    rw [positions.outside_frame ht hf, h.blanked_frame ht hg,
      ht.run_blank positions p isSkipped_of_mem_map_blank (by simp), List.append_right_inj,
      List.forall_mem_cons, ht.keepsTally_iff hg hs (positions.run p pre).2]
    generalize (positions.run p pre).2 = p at *
    generalize positions.skip p (('(' :: (mid ++ [c])).map blank) = k
    generalize (positions.run p ('(' :: (mid ++ [c]))).2 = l
    have htext : v ++ (pre ++ '(' :: (mid ++ [c])) ++ post = v ++ s := by simp [ht.split]
    rw [← htext, ← ih l]
    have hblanked (q : Position) := h.head?_blanked positions q
    constructor
    · intro he
      have hhead : (positions.run k post).1.head? = (positions.run l post).1.head? := by
        rw [← hblanked, he, positions.head?_outside]
      refine ⟨hhead, (positions.run_fst_congr ?_).trans he⟩
      rw [hblanked, hblanked, hhead]
    · rintro ⟨hhead, he⟩
      refine (positions.run_fst_congr ?_).trans he
      rw [hblanked, hblanked, hhead]

end Lexis

/-! ## Lexemes outside groups -/

/-- The lexemes of a text whose tokens are outside all groups. -/
def ungroupedLexemes (text : List Char) : List Lexeme :=
  (((significant text).zip (lexemes text).1).filter fun x =>
    (VariableGroup.ofText text).all (!·.covers x.1)).map Prod.snd

/-- The tokens of a text stand at different places. -/
theorem nodup_significant (text : List Char) : (significant text).Nodup := by
  obtain ⟨hpairwise, hwide⟩ := ordered_significant text
  refine hpairwise.imp_of_mem fun {t u} ht hu hle he => ?_
  have hlt := hwide t ht
  rw [← he] at hle
  omega

theorem eq_of_map_eq {α β : Type} {f : α → β} {as bs : List α} (h : as.map f = bs.map f)
    (hf : ∀ a ∈ as, ∀ b ∈ bs, f a = f b → a = b) : as = bs := by
  induction as generalizing bs with
  | nil => exact (List.map_eq_nil_iff.mp h.symm).symm
  | cons a as ih =>
    obtain ⟨b, bs, rfl, hb, hbs⟩ := List.map_eq_cons_iff.mp h.symm
    rw [hf a (by simp) b (by simp) hb.symm,
      ih hbs.symm fun x hx y hy => hf x (by simp [hx]) y (by simp [hy])]

/-- Tokens are outside all groups where the items say so, whatever is noted along with them. -/
theorem filter_eq_kepts {α : Type} {text : List Char} {xs : List (Token × α)}
    (h : xs.map Prod.fst = significant text) :
    xs.filter (fun x => (VariableGroup.ofText text).all (!·.covers x.1)) =
      kepts (items (Token.bare ∘ Prod.fst) 0 xs) := by
  have hnodup : (xs.map Prod.fst).Nodup := h ▸ nodup_significant text
  refine eq_of_map_eq (f := Prod.fst) ?_ fun x hx y hy => ?_
  · rw [map_kepts_items rfl, h, ← ungrouped_eq, ungrouped, ← h, List.filter_map]
    rfl
  · refine List.inj_on_of_nodup_map hnodup (List.mem_filter.mp hx).1 ?_
    rw [← (itemized_items (Token.bare ∘ Prod.fst) 0 xs).2]
    exact kepts_subset _ hy

/-- The lexemes outside all groups are the words outside all groups, with the grammar's count. -/
theorem ungroupedLexemes_eq {text : List Char}
    (h : (lexemes text).1 = (positions.run Grammar.start text).1.map lexemeAt) :
    ungroupedLexemes text = (positions.outside 0 Grammar.start text).map lexemeAt := by
  generalize hxs : (significant text).zip ((positions.run Grammar.start text).1.map Prod.snd) = xs
  have hbares : (positions.run Grammar.start text).1.map Prod.fst =
      (significant text).map Token.bare := by rw [positions.map_fst_run, map_bare_significant]
  have hlength := congrArg List.length hbares
  simp only [List.length_map] at hlength
  have htokens : xs.map Prod.fst = significant text := by
    rw [← hxs, List.map_fst_zip (by simp [hlength])]
  have hrun : (positions.run Grammar.start text).1 = xs.map (Prod.map Token.bare id) := by
    rw [List.zip_of_prod hbares rfl, List.zip_map_left, hxs]
  have hbare : Prod.fst ∘ Prod.map Token.bare id = Token.bare ∘ (Prod.fst : Token × Position → _) :=
    rfl
  rw [ungroupedLexemes, Tally.outside, h, hrun, ← map_kepts_items hbare, ← filter_eq_kepts htokens,
    List.map_map, List.map_map]
  nth_rewrite 1 [← htokens]
  rw [List.zip_map', List.filter_map, List.map_map]
  rfl

theorem Grammar.face_comp_lexemeAt : Lexeme.face ∘ lexemeAt = face ∘ Prod.fst := rfl

/-- Words with positions can be told from their lexemes if the words are known. -/
theorem Grammar.map_lexemeAt_inj {xs ys : List (Bare × Position)}
    (h : xs.map Prod.fst = ys.map Prod.fst) : xs.map lexemeAt = ys.map lexemeAt ↔ xs = ys := by
  refine ⟨fun he => ?_, congrArg _⟩
  have hpositions := congrArg (List.map Lexeme.position) he
  rw [List.map_map, List.map_map] at hpositions
  exact (List.zip_of_prod h hpositions).trans (List.zip_of_prod rfl rfl).symm

/-- The grammar's text has the words that stand outside all groups. -/
theorem map_fst_run_grammarText (text : List Char) :
    (positions.run Grammar.start (grammarText ⟨true⟩ text)).1.map Prod.fst =
      (positions.outside 0 Grammar.start text).map Prod.fst := by
  rw [positions.map_fst_run, bares_grammarText, Tally.outside,
    map_kepts_items (Function.id_comp Prod.fst), positions.map_fst_run]
  rfl

/-! ## Accepted texts -/

/-- Definitions do not end with a name. -/
theorem Grammar.Spells.last_ne_name {bs : List Bare} {shapes : List Ast.Definition}
    (h : Spells bs shapes) {front : List Bare} {b : Bare} (hbs : bs = front ++ [b]) :
    b.1 ≠ .name := by
  have hflat : (chunks bs).flatten = bs := flatten_cut (p := fun b : Bare => b.1.punctuator?) 0 bs
  obtain hnil | ⟨parts, part, hparts⟩ := (chunks bs).eq_nil_or_concat
  · rw [hnil] at hflat
    exact absurd hflat.symm h.ne_nil
  · rw [List.concat_eq_append] at hparts
    have hpart : part ∈ chunks bs := by simp [hparts]
    obtain ⟨i, hi⟩ := List.getElem?_of_mem hpart
    obtain ⟨shape, -, hmeans⟩ := exists_of_forall₂ h.means hi
    rw [← List.map_id part] at hmeans
    obtain ⟨faces, last, hfaces, -⟩ := (outline_of_words hmeans).exists_last
    obtain ⟨us, vs, rfl, -, hvs⟩ := List.map_eq_append_iff.mp hfaces
    obtain ⟨c, rfl, -⟩ := List.map_eq_singleton_iff.mp hvs
    rw [hparts, hbs, List.flatten_append, List.flatten_singleton, ← List.append_assoc] at hflat
    obtain ⟨-, hc⟩ := List.append_inj' hflat rfl
    obtain rfl := List.cons.inj hc |>.1
    exact Lexis.last_ne_name hmeans rfl

/-- The grammar reads lexemes alike if no fault ends them. -/
theorem Grammar.ofLexemes_congr {ls : List Lexeme} {e e' : Ending} {ds : List Ast.Definition}
    (h : ofLexemes ls e = .ok ds) (he : e'.fault = none) : ofLexemes ls e' = .ok ds := by
  unfold ofLexemes at h ⊢
  split
  · rename_i hread
    rw [hread] at h
    cases h
  · rename_i hread
    rw [hread] at h
    simp only [he, Option.isNone_none, if_true]
    dsimp only at h
    split at h
    · exact h
    · cases h

section

variable {text : String} {ds : List Definition} (h : parse ⟨true⟩ text = .ok ds)
  (hsound : ∀ t ∈ tokens text.toList, t.kind.isError = false)

include h

/-- In an accepted text, more words follow each frame. -/
theorem items_ne_of_parse (hfaultless : Faultless (words text.toList)) (is : List (Item Word))
    (f : Frame Word) : items Word.bare 0 (words text.toList) ≠ is ++ [.frame f] := by
  intro hitems
  obtain ⟨groups, asts, -, hread, -⟩ := parse_eq_ok_iff.mp h
  obtain ⟨-, hspells⟩ := spells_of_read hfaultless hread
  have hwords : bares (grammarText ⟨true⟩ text.toList) =
      ((kepts is).map Word.bare ++ [f.word.bare]) ++ [f.name.bare] := by
    have hkepts : bares (grammarText ⟨true⟩ text.toList) =
        (kepts (items Word.bare 0 (words text.toList))).map Word.bare :=
      congrArg (List.map Word.bare) (words_blankGroups text.toList)
    rw [hkepts, hitems, kepts_append]
    simp [kepts, Item.kept]
  have hframe : f.IsFrame Word.bare :=
    (itemized_items Word.bare 0 (words text.toList)).1.isFrame (by simp [hitems])
  exact hspells.last_ne_name hwords hframe.name

include hsound

/-- How a group lies in an accepted text: the gap behind it is ignored text. -/
theorem exists_frameText_of_mem {g : VariableGroup} (hg : g ∈ VariableGroup.ofText text.toList) :
    Ignorable (g.gap text.toList) ∧ ∃ ws,
      ∀ x, Takes ws (slice g.first g.last text.toList ++ x) x := by
  obtain ⟨y, x, n, f, pre, mid, c, post, htext, ht, hgroup, is, his⟩ :=
    (layout_ofText text.toList).exists_frameText hg
  obtain ⟨hslice, hpost⟩ := (hgroup.between ht).slice_group
  rw [List.nil_append, ← htext] at hslice hpost
  refine ⟨?_, f.group, fun x => hslice ▸ ht.takes_group x⟩
  obtain hd | ⟨front, kind, d, u, rest, hs⟩ := splits_cases post
  · rw [words_of_dropIgnored_nil hd, items_nil] at his
    exact absurd his (items_ne_of_parse h (faultless_of_sound hsound) is f)
  · rw [VariableGroup.gap, hpost, hs.ignoredFront_eq]
    exact hs.ignorable

/-- The lexer of the grammar goes over a group as the tally does. -/
theorem keepsCount_iff {g : VariableGroup} (hg : g ∈ VariableGroup.ofText text.toList) :
    g.KeepsCount text.toList ↔ g.KeepsTally text.toList := by
  obtain ⟨hgap, -⟩ := exists_frameText_of_mem h hsound hg
  obtain ⟨hfaultless, hnone⟩ := fault_lexemes_group h hsound hg (dropIgnored_of_ignorable hgap)
  have hblank : dropIgnored false
      ((slice g.first g.last text.toList).map blank ++ g.gap text.toList) = [] :=
    dropIgnored_of_ignorable ((ignorable_of_all_isSkipped isSkipped_of_mem_map_blank).append hgap)
  rw [VariableGroup.KeepsCount, VariableGroup.KeepsTally, reach, reach, lexemes,
    lexemesFrom_eq_run hfaultless hnone, lexemes, lexemesFrom_of_dropIgnored_nil hblank,
    positions.run_of_dropIgnored_nil hblank]
  rfl

/-- A group of characters that all count as blanks do keeps the count. -/
theorem keepsTally_of_isEven {g : VariableGroup} (hg : g ∈ VariableGroup.ofText text.toList)
    (heven : ∀ c ∈ slice g.first g.last text.toList, isEven c = true) :
    g.KeepsTally text.toList := by
  obtain ⟨hgap, ws, htakes⟩ := exists_frameText_of_mem h hsound hg
  have hskipped := ignorable_of_all_isSkipped
    (@isSkipped_of_mem_map_blank (slice g.first g.last text.toList))
  have hgroup := htakes []
  rw [List.append_nil] at hgroup
  rw [VariableGroup.KeepsTally, (htakes _).run_append positions rfl,
    hgroup.run_positions rfl heven, positions.run_append_of_ignorable hskipped]

/-- What the grammar finds in its text. -/
theorem lexemes_grammarText_eq :
    (lexemes (grammarText ⟨true⟩ text.toList)).1 =
      (positions.run Grammar.start (grammarText ⟨true⟩ text.toList)).1.map lexemeAt := by
  obtain ⟨groups, asts, -, hread, -⟩ := parse_eq_ok_iff.mp h
  have hnone : (lexemes (grammarText ⟨true⟩ text.toList)).2.fault = none :=
    (exists_read_iff.mp ⟨asts, hread, rfl⟩).1
  have hfaultless := faultless_grammarText ⟨true⟩ (faultless_of_sound hsound)
  exact congrArg Prod.fst (lexemesFrom_eq_run hfaultless hnone)

theorem ungroupedLexemes_eq_of_parse :
    ungroupedLexemes text.toList = (positions.outside 0 Grammar.start text.toList).map lexemeAt := by
  obtain ⟨hnone, -⟩ := fault_lexemes_eq_none h hsound
  exact ungroupedLexemes_eq
    (congrArg Prod.fst (lexemesFrom_eq_run (faultless_of_sound hsound) hnone))

/-- The grammar finds the lexemes where they are in the text, exactly if no group moves those behind
it. -/
theorem lexemes_grammarText_eq_iff :
    (lexemes (grammarText ⟨true⟩ text.toList)).1 = ungroupedLexemes text.toList ↔
      ∀ g ∈ VariableGroup.ofText text.toList, g.KeepsCount text.toList := by
  have hlayout : (positions.run Grammar.start (grammarText ⟨true⟩ text.toList)).1 =
      positions.outside 0 Grammar.start text.toList ↔
        ∀ g ∈ VariableGroup.ofText text.toList, g.KeepsTally text.toList :=
    (layout_ofText text.toList).run_blanked_iff
      (items_ne_of_parse h (faultless_of_sound hsound)) Grammar.start
  rw [lexemes_grammarText_eq h hsound, ungroupedLexemes_eq_of_parse h hsound,
    map_lexemeAt_inj (map_fst_run_grammarText text.toList), hlayout]
  exact forall₂_congr fun g hg => (keepsCount_iff h hsound hg).symm

end

/-- The grammar's view of an accepted text without error tokens. Its lexer goes over the whole text
without a fault and finds the tokens. In the text that the grammar reads it finds those outside all
groups. It finds them where they are in the text exactly if no group changes the count, and then all
positions in the definitions are those in the text. A group without tabs, carriage returns and
U+FEFF does not change the count. -/
theorem positions_kept {text : String} (hsound : ∀ t ∈ tokens text.toList, t.kind.isError = false)
    {ds : List Definition} (h : parse ⟨true⟩ text = .ok ds) :
    (lexemes text.toList).2.fault = none ∧
    (lexemes text.toList).1.map Lexeme.face =
      (significant text.toList).map (fun t => face t.bare) ∧
    (lexemes (grammarText ⟨true⟩ text.toList)).1.map Lexeme.face =
      (ungroupedLexemes text.toList).map Lexeme.face ∧
    ((lexemes (grammarText ⟨true⟩ text.toList)).1 = ungroupedLexemes text.toList ↔
      ∀ g ∈ VariableGroup.ofText text.toList, g.KeepsCount text.toList) ∧
    ((∀ g ∈ VariableGroup.ofText text.toList, g.KeepsCount text.toList) →
      ofLexemes (ungroupedLexemes text.toList) (lexemes text.toList).2 =
        .ok (ds.map Definition.ast)) ∧
    ∀ g ∈ VariableGroup.ofText text.toList,
      (∀ c ∈ slice g.first g.last text.toList, c ≠ '\t' ∧ c ≠ '\r' ∧ c ≠ '\uFEFF') →
        g.KeepsCount text.toList := by
  obtain ⟨groups, asts, -, hread, hds⟩ := parse_eq_ok_iff.mp h
  obtain ⟨hnone, hfaces⟩ := fault_lexemes_eq_none h hsound
  have hkept := lexemes_grammarText_eq_iff h hsound
  refine ⟨hnone, ?_, ?_, hkept, fun hkeeps => ?_, fun g hg heven => ?_⟩
  · rw [hfaces, ← map_bare_significant, List.map_map]
    rfl
  · rw [lexemes_grammarText_eq h hsound, ungroupedLexemes_eq_of_parse h hsound, List.map_map,
      List.map_map, face_comp_lexemeAt, ← List.map_map, map_fst_run_grammarText, List.map_map]
  · have hasts : ds.map Definition.ast = asts := hds ▸ map_ast_assemble ⟨true⟩ text asts groups
    rw [hasts, ← hkept.mpr hkeeps]
    exact ofLexemes_congr hread hnone
  · exact (keepsCount_iff h hsound hg).mpr
      (keepsTally_of_isEven h hsound hg fun c hc => isEven_iff.mpr (heven c hc))

/-- A comment and a line end in a group move nothing behind it. -/
theorem positions_kept_comment : ∃ ds,
    parse ⟨true⟩ "fragment F($a: Int # (\n = 1) on T \x7b y \x7d" = .ok ds ∧
    (lexemes "fragment F($a: Int # (\n = 1) on T \x7b y \x7d".toList).2.fault = none ∧
    ofLexemes (ungroupedLexemes "fragment F($a: Int # (\n = 1) on T \x7b y \x7d".toList)
      (lexemes "fragment F($a: Int # (\n = 1) on T \x7b y \x7d".toList).2 =
        .ok (ds.map Definition.ast) := by
  obtain ⟨ds, hds⟩ := @exists_parse_of_isSome ⟨true⟩
    "fragment F($a: Int # (\n = 1) on T \x7b y \x7d" (by decide +kernel)
  obtain ⟨hnone, -, -, -, hkept, heven⟩ := positions_kept (by decide +kernel) hds
  have hgroups : (VariableGroup.ofText
      "fragment F($a: Int # (\n = 1) on T \x7b y \x7d".toList).all (fun g =>
        (slice g.first g.last "fragment F($a: Int # (\n = 1) on T \x7b y \x7d".toList).all
          isEven) = true := by decide +kernel
  simp only [List.all_eq_true] at hgroups
  exact ⟨ds, hds, hnone, hkept fun g hg =>
    heven g hg fun c hc => isEven_iff.mp (hgroups g hg c hc)⟩

/-- A tab in a group is eight columns wide, and the blank in its place is one. -/
theorem exists_moved_of_tab :
    (∃ ds, parse ⟨true⟩ "fragment F(\t$a: Int) on T \x7b y \x7d" = .ok ds) ∧
    (ungroupedLexemes "fragment F(\t$a: Int) on T \x7b y \x7d".toList)[2]? =
      some ⟨.name, "on".toList, ⟨1, 29⟩⟩ ∧
    (lexemes (grammarText ⟨true⟩ "fragment F(\t$a: Int) on T \x7b y \x7d".toList)).1[2]? =
      some ⟨.name, "on".toList, ⟨1, 22⟩⟩ :=
  ⟨exists_parse_of_isSome (by decide +kernel), by decide +kernel, by decide +kernel⟩

end QueryDoc
