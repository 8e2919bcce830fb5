import QueryDoc.Proofs.Grammar.Literals

/-!
# Faults

Where the scan finds a fault, the grammar takes no lexeme, or a float that ends with the sign of its
exponent and has no value (`not_valued_of_fault`). The one exception is a string that the scan cuts
at a carriage return. So the grammar refuses a text for its first fault (`exists_failure_of_fault`).
-/
namespace QueryDoc.Grammar

open QueryDoc.Lexis

/-! ## Floats without a value -/

section Signed

variable {s : List Char}

theorem EndsInSign.of_suffix (h : EndsInSign s) {t : List Char} (ht : t <:+ s) (hne : t ≠ []) :
    EndsInSign t := by
  obtain ⟨front, rfl⟩ := ht
  exact (endsInSign_append hne).mp h

theorem EndsInSign.dropWhile (h : EndsInSign s) : EndsInSign (s.dropWhile Char.isDigit) := by
  refine h.of_suffix (List.dropWhile_suffix _) fun hnil => ?_
  obtain ⟨c, hc, hd⟩ := h.exists_not_isDigit
  simp [List.dropWhile_eq_nil_iff.mp hnil c hc] at hd

theorem splitSign_suffix (s : List Char) : (Decimal.splitSign s).2 <:+ s := by
  unfold Decimal.splitSign
  split
  · exact List.suffix_cons _ _
  · exact List.suffix_cons _ _
  · exact List.suffix_rfl

theorem EndsInSign.splitFraction (h : EndsInSign s) :
    EndsInSign (Decimal.splitFraction s).2 := by
  unfold Decimal.splitFraction
  split
  · rename_i t
    have hne : t ≠ [] := by rintro rfl; exact absurd h (by decide)
    exact (h.of_suffix (List.suffix_cons _ _) hne).dropWhile
  · exact h

theorem EndsInSign.exponent? (h : EndsInSign s) : Decimal.exponent? s = none := by
  cases s with
  | nil => cases h
  | cons c t =>
    unfold Decimal.exponent?
    simp only
    refine if_neg fun hdigits => ?_
    simp only [Bool.and_eq_true, List.all_eq_true, Bool.not_eq_true', List.isEmpty_eq_false_iff]
      at hdigits
    obtain ⟨⟨-, hne⟩, hall⟩ := hdigits
    have hsuffix := (splitSign_suffix t).trans (List.suffix_cons c t)
    obtain ⟨d, hd, hn⟩ := (h.of_suffix hsuffix hne).exists_not_isDigit
    simp [hall d hd] at hn

theorem EndsInSign.ne_word (h : EndsInSign s) {w : String} (hw : ¬ EndsInSign w.toList) :
    String.ofList (s.map Char.toLower) ≠ w := by
  rintro rfl
  apply hw
  obtain ⟨c, hc, hsign⟩ := h.exists_sign
  rw [String.toList_ofList, EndsInSign, List.getLast?_map, hc]
  rcases hsign with rfl | rfl <;> decide

theorem EndsInSign.readUnsigned? (h : EndsInSign s) (negative : Bool) :
    Binary64.readUnsigned? negative s = none := by
  have hinf := h.ne_word (w := "inf") (by decide)
  have hinfinity := h.ne_word (w := "infinity") (by decide)
  have hnan := h.ne_word (w := "nan") (by decide)
  unfold Binary64.readUnsigned?
  simp [hinf, hinfinity, hnan, h.dropWhile.splitFraction.exponent?]

/-- Nothing that ends with a sign is a number. -/
theorem EndsInSign.read? (h : EndsInSign s) : Binary64.read? s = none := by
  unfold Binary64.read?
  by_cases hne : (Decimal.splitSign s).2 = []
  · simp only [hne]
    rfl
  · exact (h.of_suffix (splitSign_suffix s) hne).readUnsigned? _

end Signed

theorem not_valued_of_endsInSign {text : List Char} (h : EndsInSign text) :
    ¬ Valued (.float, text) := by
  rintro ⟨x, hx⟩
  rw [floatValue, h.read?] at hx
  cases hx

/-! ## Words with a fault -/

theorem scanNumber?_of_fault {c : Char} (hc : c = '-' ∨ c.isDigit = true) {s : List Char}
    (he : (scan c s).kind.isError = true) {r : Scanned Category} (hr : scanNumber? c s = .ok r) :
    ¬ Valued (r.kind, r.text) := by
  obtain ⟨-, kind, hs, ⟨-, rfl⟩ | ⟨hk, rfl⟩⟩ := scan_of_scanNumber? hc hr
  · simp [hs, Kind.isError] at he
  · rw [hk]
    apply not_valued_of_endsInSign
    by_contra hsign
    simp [hs, floatKind, hsign, Kind.isError] at he

theorem scanQuote?_of_fault {s : List Char} (he : (scanQuote s).kind.isError = true)
    (hcut : ¬ CutAtReturn ((scanQuote s).kind, (scanQuote s).text)) :
    ∃ reason, scanQuote? s = .error reason := by
  by_cases hquotes : ∃ rest, s = '"' :: '"' :: rest
  · obtain ⟨rest, rfl⟩ := hquotes
    have hk : (scanBlock rest).kind ≠ .string := fun hk => by
      simp [scanQuote, Scanned.behind, hk, Kind.isError] at he
    have hs : scanBlock? false rest = _ := scanBlock?_eq (by simp)
    rw [if_neg hk] at hs
    exact ⟨.openBlock, by rw [scanQuote?, hs]⟩
  · have hne (rest : List Char) : s ≠ '"' :: '"' :: rest := fun hs => hquotes ⟨rest, hs⟩
    rw [scanQuote_of_ne hne] at he hcut
    have hk : (scanString s).kind ≠ .string := fun hk => by
      simp [Scanned.behind, hk, Kind.isError] at he
    have hs : scanString? false s = _ := scanString?_eq fun h => hcut (h.append ['"'])
    rw [if_neg hk] at hs
    refine ⟨.openString, ?_⟩
    rw [scanQuote?, hs]
    exact hne

/-- What the grammar takes in place of a fault, if anything, has no value. -/
theorem not_valued_of_fault {c : Char} {s : List Char} (he : (scan c s).kind.isError = true)
    (hcut : ¬ CutAtReturn ((scan c s).kind, (scan c s).text)) {r : Scanned Category}
    (hr : scan? c s = .ok r) : ¬ Valued (r.kind, r.text) := by
  -- by the first character, as the grammar tells it: a punctuator, a dot, a quote, a name, a number
  unfold scan? at hr
  split at hr
  · rename_i p hp
    simp [scan_punctuator hp, Kind.isError] at he
  · simp only [beq_iff_eq, Bool.or_eq_true] at hr
    split at hr
    · rename_i hc
      subst hc
      change (scanDots s).kind.isError = true at he
      unfold scanDots? at hr
      split at hr
      · cases he
      · cases hr
    split at hr
    · rename_i hc
      subst hc
      obtain ⟨reason, hs⟩ := scanQuote?_of_fault he hcut
      cases hs.symm.trans hr
    split at hr
    · rename_i hc
      rw [scan_name hc] at he
      rcases nameKind_cases (c :: s.takeWhile isNameContinue) with hk | hk | hk | hk <;>
        simp [scanName, hk, Kind.isError] at he
    split at hr
    · exact scanNumber?_of_fault ‹_› he hr
    · cases hr

/-! ## Texts with a fault -/

/-- The first word that is none. -/
def firstFault? (ws : List Word) : Option Word := ws.find? (·.kind.isError)

theorem firstFault?_cons_of_fault {w : Word} (h : w.kind.isError = true) (ws : List Word) :
    firstFault? (w :: ws) = some w := List.find?_cons_of_pos h

theorem firstFault?_cons_of_sound {w : Word} (h : w.kind.isError = false) (ws : List Word) :
    firstFault? (w :: ws) = firstFault? ws := List.find?_cons_of_neg (by simp [h])

/-- In place of a word without fault the grammar takes as much of the text, if anything. -/
theorem rest_eq_of_scan? {c : Char} {s : List Char} (he : (scan c s).kind.isError = false)
    {r : Scanned Category} (hr : scan? c s = .ok r) : r.rest = (scan c s).rest := by
  by_cases hg : (scan c s).kind.isNumber = true ∧ runsOn (scan c s).rest = true
  · obtain ⟨reason, hs⟩ := scan?_of_glued hg.1 hg.2
    cases hs.symm.trans hr
  · rw [scan?_of_scan he fun hk => by simpa [hk] using hg] at hr
    unfold reading at hr
    split at hr
    · cases hr
    · cases hr
      rfl

/-- Where the lexemes of a text go on to its end, the first one is in place of the first word. -/
theorem exists_lexeme {s rest : List Char} {c : Char} (hs : dropIgnored false s = c :: rest)
    {budget : Nat} {p : Ast.Position} (hend : (lexemesFrom budget p s).2.fault = none) :
    ∃ r left q q', scan? c rest = .ok r ∧ (lexemesFrom left q' r.rest).2.fault = none ∧
      (lexemesFrom budget p s).1 = ⟨r.kind, r.text, q⟩ :: (lexemesFrom left q' r.rest).1 := by
  cases hr : scan? c rest with
  | error reason =>
    rw [lexemesFrom_of_error hs hr] at hend
    cases hend
  | ok r =>
    rw [lexemesFrom_of_ok hs hr] at hend ⊢
    cases hl : spend? budget r.kind with
    | none =>
      rw [hl] at hend
      cases hend
    | some left =>
      rw [hl] at hend
      exact ⟨r, left, _, _, rfl, hend, rfl⟩

/-- Where the lexemes of a text get past its first fault, one of them has no value. -/
theorem exists_not_valued {s : List Char} {w : Word} (h : firstFault? (words s) = some w)
    (hcut : ¬ CutAtReturn w.bare) {budget : Nat} {p : Ast.Position}
    (hend : (lexemesFrom budget p s).2.fault = none) :
    ∃ l ∈ (lexemesFrom budget p s).1, ¬ Valued l.face := by
  induction s using words_induction generalizing budget p with
  | nil s hs => simp [words_of_dropIgnored_nil hs, firstFault?] at h
  | cons s c rest hs ih =>
    rw [words_of_dropIgnored_cons hs] at h
    obtain ⟨r, left, q, q', hr, hend', hls⟩ := exists_lexeme hs hend
    rw [hls]
    cases he : (scan c rest).kind.isError with
    | true =>
      rw [firstFault?_cons_of_fault he] at h
      cases h
      exact ⟨_, List.mem_cons_self, not_valued_of_fault he hcut hr⟩
    | false =>
      rw [firstFault?_cons_of_sound he] at h
      rw [rest_eq_of_scan? he hr] at hend' ⊢
      obtain ⟨l, hl, hnone⟩ := ih h hend'
      exact ⟨l, List.mem_cons_of_mem _ hl, hnone⟩

/-- The grammar refuses a text for its first fault, unless that is a string which is cut at a
carriage return. -/
theorem exists_failure_of_fault {text : List Char} {w : Word}
    (h : firstFault? (words text) = some w) (hcut : ¬ CutAtReturn w.bare) :
    ∃ failure, read text = .error failure := by
  cases hr : read text with
  | error failure => exact ⟨failure, rfl⟩
  | ok ds =>
    obtain ⟨hend, hvalued⟩ := valued_of_read hr
    obtain ⟨l, hl, hnone⟩ := exists_not_valued h hcut hend
    exact absurd (hvalued l hl) hnone

end QueryDoc.Grammar
