import QueryDoc.Proofs.Grammar.Alignment
import QueryDoc.Proofs.Lexis.Nesting
import QueryDoc.Proofs.Lexis.Tally

/-!
# How the grammar counts

The grammar's count over a text without faults is a tally of its words (`lexemesFrom_eq_run`). A
text moves every position alike, by lines or by columns, so whether two texts lead to one position
does not depend on where they start (`Moves.eq_iff`). The budget of nesting that words use up is
what their brackets say (`Spends.level_eq`).
-/
namespace QueryDoc.Grammar

open QueryDoc.Ast (Position)
open QueryDoc.Lexis

/-! ## Moves -/

/-- Behind some text: as many columns further, or as many lines further down in a column. -/
def shift (lines columns : Nat) (p : Position) : Position :=
  if lines = 0 then right columns p else ⟨p.line + lines, columns⟩

/-- The function moves every position alike. -/
def Moves (f : Position → Position) : Prop := ∃ lines columns, ∀ p, f p = shift lines columns p

theorem moves_right (columns : Nat) : Moves (right columns) := ⟨0, columns, fun _ => rfl⟩

theorem moves_id : Moves id := moves_right 0

theorem moves_nextLine : Moves nextLine := ⟨1, 1, fun _ => rfl⟩

theorem Moves.comp {f g : Position → Position} (hg : Moves g) (hf : Moves f) :
    Moves fun p => g (f p) := by
  obtain ⟨n, c, hf⟩ := hf
  obtain ⟨m, d, hg⟩ := hg
  refine ⟨n + m, if m = 0 then c + d else d, fun p => ?_⟩
  simp only [hf, hg]
  by_cases hm : m = 0
  · by_cases hn : n = 0 <;> simp [shift, right, hm, hn, Nat.add_assoc]
  · by_cases hn : n = 0 <;> simp [shift, right, hm, hn, Nat.add_assoc]

/-- Whether two texts lead to one position does not depend on where they start. -/
theorem Moves.eq_iff {f g : Position → Position} (hf : Moves f) (hg : Moves g) (p q : Position) :
    f p = g p ↔ f q = g q := by
  obtain ⟨n, c, hf⟩ := hf
  obtain ⟨m, d, hg⟩ := hg
  rw [hf, hg, hf, hg]
  by_cases hn : n = 0 <;> by_cases hm : m = 0 <;> simp [shift, right, hn, hm]

/-! ## Ignored text -/

/-- The character is ignored: how the count moves over it, in a comment or not, and whether a
comment goes on behind it. -/
inductive Skips : Bool → Char → (Position → Position) → Bool → Prop
  | lineFeed (inComment : Bool) : Skips inComment '\n' nextLine false
  | commentReturn : Skips true '\r' nextLine false
  | comment {c : Char} (h : isLineEnd c = false) : Skips true c id true
  | space {c : Char} (h : c = ' ' ∨ c = ',') : Skips false c (right 1) false
  | tab : Skips false '\t' (right 8) false
  | unseen {c : Char} (h : c = '\r' ∨ c = '\uFEFF') : Skips false c id false
  | hash : Skips false '#' id true

namespace Skips

variable {inComment behind : Bool} {c : Char} {f : Position → Position}

theorem skipIgnored_cons (h : Skips inComment c f behind) (p : Position) (s : List Char) :
    skipIgnored p inComment (c :: s) = skipIgnored (f p) behind s := by
  cases h with
  | lineFeed => cases inComment <;> rfl
  | commentReturn => rfl
  | comment h =>
    simp only [isLineEnd, Bool.or_eq_false_iff, beq_eq_false_iff_ne] at h
    simp [skipIgnored, h]
  | space h => rcases h with rfl | rfl <;> rfl
  | tab => rfl
  | unseen h => rcases h with rfl | rfl <;> rfl
  | hash => rfl

theorem dropIgnored_cons (h : Skips inComment c f behind) (s : List Char) :
    dropIgnored inComment (c :: s) = dropIgnored behind s := by
  cases h with
  | lineFeed => cases inComment <;> rfl
  | commentReturn => rfl
  | comment h => simp [dropIgnored, h]
  | space h => rcases h with rfl | rfl <;> rfl
  | tab => rfl
  | unseen h => rcases h with rfl | rfl <;> rfl
  | hash => rfl

theorem moves (h : Skips inComment c f behind) : Moves f := by
  cases h with
  | lineFeed | commentReturn => exact moves_nextLine
  | comment | unseen | hash => exact moves_id
  | space => exact moves_right 1
  | tab => exact moves_right 8

end Skips

/-- Only outside comments, and only characters that start tokens, are not ignored. -/
theorem skips_or_starts (inComment : Bool) (c : Char) :
    (∃ f behind, Skips inComment c f behind) ∨ inComment = false ∧ startsToken c = true := by
  cases inComment with
  | true =>
    by_cases hn : c = '\n'
    · subst hn
      exact .inl ⟨_, _, .lineFeed true⟩
    by_cases hr : c = '\r'
    · subst hr
      exact .inl ⟨_, _, .commentReturn⟩
    · exact .inl ⟨_, _, .comment (by simp [isLineEnd, hn, hr])⟩
  | false =>
    by_cases hn : c = '\n'
    · subst hn
      exact .inl ⟨_, _, .lineFeed false⟩
    by_cases hspace : c = ' ' ∨ c = ','
    · exact .inl ⟨_, _, .space hspace⟩
    by_cases htab : c = '\t'
    · subst htab
      exact .inl ⟨_, _, .tab⟩
    by_cases hnone : c = '\r' ∨ c = '\uFEFF'
    · exact .inl ⟨_, _, .unseen hnone⟩
    by_cases hash : c = '#'
    · subst hash
      exact .inl ⟨_, _, .hash⟩
    · exact .inr ⟨rfl, by simp_all [startsToken, isSkipped]⟩

theorem skipIgnored_cons_of_startsToken {c : Char} (h : startsToken c = true) (p : Position)
    (s : List Char) : skipIgnored p false (c :: s) = (p, c :: s) := by
  simp only [startsToken, isSkipped, Bool.not_eq_true', Bool.or_eq_false_iff,
    beq_eq_false_iff_ne] at h
  simp [skipIgnored, h]

theorem moves_skipIgnored (inComment : Bool) (s : List Char) :
    Moves fun p => (skipIgnored p inComment s).1 := by
  induction s generalizing inComment with
  | nil => exact moves_id
  | cons c s ih =>
    obtain ⟨f, behind, h⟩ | ⟨rfl, h⟩ := skips_or_starts inComment c
    · simp only [h.skipIgnored_cons]
      exact (ih behind).comp h.moves
    · simp only [skipIgnored_cons_of_startsToken h]
      exact moves_id

theorem moves_past (text : List Char) : Moves fun p => past p text := by
  induction text with
  | nil => exact moves_id
  | cons c text ih =>
    by_cases hc : c = '\n'
    · simpa [past, hc] using ih.comp moves_nextLine
    · simpa [past, hc] using ih.comp (moves_right 1)

/-! ## The grammar's tally -/

/-- Ignored text is skipped in two parts. -/
theorem skipIgnored_append {inComment : Bool} {front : List Char}
    (h : ∀ y, dropIgnored inComment (front ++ y) = dropIgnored false y) (p : Position)
    (s : List Char) : skipIgnored p inComment (front ++ s) =
      skipIgnored (skipIgnored p inComment front).1 false s := by
  induction front generalizing inComment p with
  | nil =>
    cases inComment with
    | false => rfl
    -- a comment that is still open would go on
    | true => exact absurd (h ['a']) (by decide)
  | cons c front ih =>
    obtain ⟨f, behind, hskips⟩ | ⟨rfl, hstarts⟩ := skips_or_starts inComment c
    · simp only [List.cons_append, hskips.dropIgnored_cons] at h
      rw [List.cons_append, hskips.skipIgnored_cons, hskips.skipIgnored_cons, ih h]
    · have hnil := h []
      rw [List.cons_append, dropIgnored_cons_of_startsToken hstarts] at hnil
      cases hnil

/-- The count of the grammar. -/
def positions : Tally Position where
  skip p s := (skipIgnored p false s).1
  pass := past
  skip_nil _ := rfl
  skip_append h p s := congrArg Prod.fst (skipIgnored_append h p s)

theorem positions_skip_of_splits {s front u rest : List Char} {kind : Kind} {c : Char}
    (h : Splits s front kind c u rest) (p : Position) :
    (skipIgnored p false s).1 = positions.skip p front := by
  rw [h.text, skipIgnored_append h.ignorable, skipIgnored_cons_of_startsToken h.starts]
  rfl

theorem moves_run (s : List Char) : Moves fun p => (positions.run p s).2 := by
  induction s using splits_induction with
  | nil s h =>
    simp only [positions.run_of_dropIgnored_nil h]
    exact moves_skipIgnored false s
  | cons s front kind c u rest h ih =>
    simp only [positions.run_of_splits h]
    exact ih.comp ((moves_past (c :: u)).comp (moves_skipIgnored false front))

/-- The lexeme of a word that is read at a position. -/
def lexemeAt (x : Bare × Position) : Lexeme := ⟨category x.1, x.1.2, x.2⟩

/-- In words without faults, the grammar sees one lexeme each. -/
theorem lexemesFrom_eq_run {s : List Char} (hs : Faultless (words s)) {budget : Nat} {p : Position}
    (hnone : (lexemesFrom budget p s).2.fault = none) : lexemesFrom budget p s =
      ((positions.run p s).1.map lexemeAt, ⟨(positions.run p s).2, none⟩) := by
  induction s using splits_induction generalizing budget p with
  | nil s h =>
    rw [lexemesFrom_of_dropIgnored_nil h, positions.run_of_dropIgnored_nil h]
    rfl
  | cons s front kind c u rest h ih =>
    rw [h.words_eq] at hs
    have he : (scan c (u ++ rest)).kind.isError = false := by
      rw [h.scan]
      exact hs _ List.mem_cons_self
    have hrest : Faultless (words rest) := fun w hw => hs w (List.mem_cons_of_mem _ hw)
    cases hread : scan? c (u ++ rest) with
    | error reason =>
      rw [lexemesFrom_of_error h.dropIgnored_eq hread] at hnone
      cases hnone
    | ok r =>
      have hglued : (scan c (u ++ rest)).kind.isNumber = true →
          runsOn (scan c (u ++ rest)).rest = false := fun hk => by
        by_contra hr
        obtain ⟨reason, hreason⟩ := scan?_of_glued hk (by simpa using hr)
        rw [hread] at hreason
        cases hreason
      have hreading := scan?_of_scan he hglued
      rw [hread, h.scan, reading] at hreading
      cases hrefusal : refusal? (kind, c :: u) with
      | some reason => rw [hrefusal] at hreading; cases hreading
      | none =>
        rw [hrefusal] at hreading
        obtain rfl := Except.ok.inj hreading
        rw [lexemesFrom_of_ok h.dropIgnored_eq hread] at hnone ⊢
        cases hspend : spend? budget (category (kind, c :: u)) with
        | none => rw [hspend] at hnone; cases hnone
        | some left =>
          simp only [hspend] at hnone ⊢
          rw [ih hrest hnone, positions.run_of_splits h, positions_skip_of_splits h]
          rfl

/-! ## The budget -/

/-- The words use up the budget to what is left, and none of them is refused. -/
inductive Spends : Nat → List Bare → Nat → Prop where
  | nil (budget : Nat) : Spends budget [] budget
  | cons {budget left rest : Nat} {b : Bare} {bs : List Bare} (hr : refusal? b = none)
    (hs : spend? budget (category b) = some left) (h : Spends left bs rest) :
    Spends budget (b :: bs) rest

theorem Spends.append {n m l : Nat} {bs cs : List Bare} (h : Spends n bs m) (h' : Spends m cs l) :
    Spends n (bs ++ cs) l := by
  induction h with
  | nil n => exact h'
  | cons hr hs _ ih => exact .cons hr hs (ih h')

theorem Spends.fault?_append {budget left : Nat} {bs : List Bare} (h : Spends budget bs left)
    (more : List Bare) : fault? budget (bs ++ more) = fault? left more := by
  induction h with
  | nil n => rfl
  | cons hr hs _ ih => simp only [List.cons_append, fault?, hr, hs, ih]

theorem exists_spends {budget : Nat} {bs more : List Bare}
    (h : fault? budget (bs ++ more) = none) :
    ∃ left, Spends budget bs left ∧ fault? left more = none := by
  induction bs generalizing budget with
  | nil => exact ⟨budget, .nil budget, h⟩
  | cons b bs ih =>
    rw [List.cons_append, fault?] at h
    cases hr : refusal? b with
    | some reason => rw [hr] at h; cases h
    | none =>
      cases hs : spend? budget (category b) with
      | none => rw [hr, hs] at h; cases h
      | some left =>
        rw [hr, hs] at h
        obtain ⟨rest, hrest, hmore⟩ := ih h
        exact ⟨rest, .cons hr hs hrest, hmore⟩

/-- The budget of a bracket that closes. -/
theorem spend?_of_nesting {budget left : Nat} {b : Bare}
    (h : spend? budget (category b) = some left) : (left : Int) = budget - b.1.nesting := by
  obtain ⟨kind, text⟩ := b
  cases kind with
  | punctuator p =>
    cases p <;> simp only [category, spend?, Kind.nesting, Punctuator.nesting] at h ⊢ <;>
      first
        | (split at h <;> cases h <;> omega)
        | (cases h; omega)
  | string =>
    simp only [category] at h
    split at h <;> cases h <;> simp [Kind.nesting]
  | _ => cases h; simp [Kind.nesting]

theorem Spends.level_eq {budget left : Nat} {bs : List Bare} (h : Spends budget bs left) :
    (left : Int) = budget - level (fun b : Bare => b.1.punctuator?) bs := by
  induction h with
  | nil n => simp [level]
  | @cons n m l b bs hr hs _ ih =>
    have hn := spend?_of_nesting hs
    have hturn : turn (fun b : Bare => b.1.punctuator?) b = b.1.nesting := Kind.elim_punctuator? _
    rw [level, hturn]
    omega

/-- With more in the budget, more is left. -/
theorem spend?_add {budget left : Nat} {c : Category} (h : spend? budget c = some left)
    (more : Nat) : spend? (budget + more) c = some (left + more) := by
  unfold spend? at h ⊢
  grind

theorem Spends.add {budget left : Nat} {bs : List Bare} (h : Spends budget bs left) (more : Nat) :
    Spends (budget + more) bs (left + more) := by
  induction h with
  | nil n => exact .nil _
  | cons hr hs _ ih => exact .cons hr (spend?_add hs more) ih

end QueryDoc.Grammar
