import QueryDoc.Proofs.Lexis.Word

/-!
# Words and lexemes

The grammar reads texts on its own, and where the words of a text are without faults it sees the
same pieces (`lexemesFrom_of_faultless`). The two differ in what they take a number to be: the
grammar refuses a number that is glued to the text behind it, an exponent that starts with 0 or 9,
and a string with a line feed behind a backslash. Of what is a fault to the scan it takes two
things, an exponent that is a sign alone (`floatKind`) and a string with a carriage return
(`CutAtReturn`).
-/
namespace QueryDoc.Grammar

open QueryDoc.Lexis

/-! ## Ignored text -/

theorem skipIgnored_snd (p : Ast.Position) (inComment : Bool) (s : List Char) :
    (skipIgnored p inComment s).2 = dropIgnored inComment s := by
  induction s generalizing p inComment with
  | nil => rfl
  | cons c s ih =>
    cases inComment with
    | true =>
      by_cases h : c = '\n' ∨ c = '\r'
      · have hend : isLineEnd c = true := by simpa [isLineEnd] using h
        simp [skipIgnored, dropIgnored, h, hend, ih]
      · have hend : isLineEnd c = false := by simpa [isLineEnd] using h
        simp [skipIgnored, dropIgnored, h, hend, ih]
    | false =>
      simp only [skipIgnored, dropIgnored, isSkipped, Bool.false_eq_true, if_false]
      grind

/-! ## What becomes of a word -/

def startsBlock (text : List Char) : Bool := text.take 3 == ['"', '"', '"']

/-- The category of the lexeme that a word without faults becomes. -/
def category : Bare → Category
  | (.punctuator p, _) => .punctuator p
  | (.int, _) => .int
  | (.float, _) => .float
  | (.string, text) => if startsBlock text then .block else .string
  | _ => .name

/-- Why the grammar refuses a word without faults. -/
def refusal? : Bare → Option Reason
  | (.float, text) => if isFloatText text then none else some (.badFloat text)
  | (.string, text) => if !startsBlock text && text.contains '\n' then some .openString else none
  | _ => none

/-- The scan of the grammar that starts with a word in front of `rest`. -/
def reading (b : Bare) (rest : List Char) : Except Reason (Scanned Category) :=
  match refusal? b with
  | some reason => .error reason
  | none => .ok ⟨category b, b.2, rest⟩

/-! ### Strings -/

/-- The grammar closes a block string where the scan does. -/
theorem scanBlock?_eq {afterBackslash : Bool} {s : List Char}
    (hs : afterBackslash = true → ∀ r, s ≠ '"' :: '"' :: '"' :: r) :
    scanBlock? afterBackslash s = if (scanBlock s).kind = .string
      then some ⟨.block, (scanBlock s).text, (scanBlock s).rest⟩ else none := by
  fun_induction scanBlock s generalizing afterBackslash with
  | case1 => rfl
  | case2 s ih =>
    have ih : scanBlock? false s = _ := ih (by simp)
    by_cases h : (scanBlock s).kind = .string <;> simp [scanBlock?, ih, h, Scanned.behind]
  | case3 s =>
    obtain rfl : afterBackslash = false := by
      by_contra hb
      exact hs (by simpa using hb) s rfl
    rfl
  | case4 c s hback hquotes ih =>
    have ih : scanBlock? (c == '\\') s = _ := ih fun hc r hr => hback r (by simpa using hc) hr
    rw [scanBlock?]
    · by_cases h : (scanBlock s).kind = .string <;> simp [ih, h, Scanned.behind]
    · exact hquotes

/-- The string that ends in front of `rest`, unless there is a line feed in it. -/
def unbroken (text rest : List Char) : Option (Scanned Category) :=
  if '\n' ∈ text then none else some ⟨.string, text, rest⟩

theorem map_behind_unbroken {front : List Char} (h : '\n' ∉ front) (text rest : List Char) :
    (unbroken text rest).map (Scanned.behind front) = unbroken (front ++ text) rest := by
  by_cases hn : '\n' ∈ text <;> simp [unbroken, hn, h, Scanned.behind]

theorem scanString?_escape {c : Char} (h : c ≠ '\n') (s : List Char) :
    scanString? false ('\\' :: c :: s) =
      (scanString? false s).map (Scanned.behind ['\\', c]) := by
  simp [scanString?, h]
  rfl

theorem scanString?_plain {c : Char} (hquote : c ≠ '"') (hn : c ≠ '\n') {s : List Char}
    (hs : c = '\\' → s = []) :
    scanString? false (c :: s) = (scanString? false s).map (Scanned.behind [c]) := by
  by_cases hc : c = '\\'
  · simp [scanString?, hs hc, hquote]
  · have hb : (c == '\\') = false := by simpa using hc
    simp [scanString?, hquote, hn, hb]

/-- The word is a string that ends at a carriage return, which is no end for the grammar. -/
def CutAtReturn (b : Bare) : Prop := b.1 = .error .brokenString ∧ b.2.getLast? = some '\r'

theorem CutAtReturn.append {kind : Kind} {text : List Char} (h : CutAtReturn (kind, text))
    (front : List Char) : CutAtReturn (kind, front ++ text) :=
  ⟨h.1, by rw [List.getLast?_append, h.2]; rfl⟩

/-- The grammar ends a string where the scan does, unless a carriage return cuts it. -/
theorem scanString?_eq {s : List Char}
    (h : ¬ CutAtReturn ((scanString s).kind, (scanString s).text)) :
    scanString? false s = if (scanString s).kind = .string
      then unbroken (scanString s).text (scanString s).rest else none := by
  fun_induction scanString s with
  | case1 | case2 | case3 | case5 => rfl
  | case4 => exact absurd ⟨rfl, rfl⟩ h
  | case6 c s ih =>
    by_cases hc : c = '\n'
    · simp [scanString?, unbroken, hc]
    · have ih := ih fun hcut => h (hcut.append ['\\', c])
      rw [scanString?_escape hc, ih, apply_ite (Option.map _),
        map_behind_unbroken (by simp [Ne.symm hc])]
      rfl
  | case7 c s hquote hcrlf hcr hlf hback ih =>
    have hs : c = '\\' → s = [] := by
      intro hc
      rcases s with _ | ⟨d, s⟩
      · rfl
      · exact absurd rfl (hback d s hc)
    have ih := ih fun hcut => h (hcut.append [c])
    rw [scanString?_plain hquote hlf hs, ih, apply_ite (Option.map _),
      map_behind_unbroken (by simp [Ne.symm hlf])]
    rfl

theorem startsBlock_scanString (s : List Char) :
    startsBlock ('"' :: (scanString s).text) = false := by
  unfold scanString
  split <;> simp_all [startsBlock, Scanned.behind]

theorem scanQuote?_of_scanQuote {s : List Char} (h : (scanQuote s).kind = .string) :
    scanQuote? s = reading (.string, (scanQuote s).text) (scanQuote s).rest := by
  unfold scanQuote at h ⊢
  split
  · rename_i s
    have hk : (scanBlock s).kind = .string := h
    have hs : scanBlock? false s = _ := scanBlock?_eq (by simp)
    simp [scanQuote?, hs, hk, reading, refusal?, category, startsBlock, Scanned.behind]
  · rename_i hne
    have hk : (scanString s).kind = .string := by
      split at h
      · exact absurd rfl (hne _)
      · exact h
    have hs : scanString? false s = _ := scanString?_eq fun hcut => by cases hk.symm.trans hcut.1
    rw [if_pos hk] at hs
    rw [scanQuote?]
    · by_cases hn : '\n' ∈ (scanString s).text <;>
        simp [hs, unbroken, hn, reading, refusal?, category, startsBlock_scanString, Scanned.behind]
    · exact fun r hr => hne r hr

/-! ### Numbers -/

theorem looksFloat_of_prefix {text more : List Char} {c : Char} (h : text ++ [c] <+: more)
    (hc : (c == '.' || isExponentMark c) = true) : looksFloat more = true := by
  obtain ⟨rest, rfl⟩ := h
  simp [looksFloat, hc]

theorem kind_scanExponentSign_ne_int (text rest : List Char) :
    (scanExponentSign text rest).kind ≠ .int := by
  have digits (text rest : List Char) : (scanExponentDigits text rest).kind ≠ .int := by
    unfold scanExponentDigits
    split
    · split <;> simp [numberFault, Scanned.extend]
    · simp [numberFault, Scanned.extend]
  unfold scanExponentSign
  split <;> exact digits _ _

/-- A scan takes no exponent, or a text with one in it. -/
theorem scanExponent_cases (kind : Kind) (text rest : List Char) :
    scanExponent kind text rest = ⟨kind, text, rest⟩ ∨
      (scanExponent kind text rest).kind ≠ .int ∧
        looksFloat (scanExponent kind text rest).text = true := by
  unfold scanExponent
  split
  · exact .inr ⟨kind_scanExponentSign_ne_int _ _,
      looksFloat_of_prefix (prefix_text_scanExponentSign _ _) (by decide)⟩
  · exact .inr ⟨kind_scanExponentSign_ne_int _ _,
      looksFloat_of_prefix (prefix_text_scanExponentSign _ _) (by decide)⟩
  · exact .inl rfl

/-- A scan takes the integer alone, or a text that looks like a float. -/
theorem scanFraction_cases (text rest : List Char) :
    scanFraction text rest = ⟨.int, text, rest⟩ ∨
      (scanFraction text rest).kind ≠ .int ∧
        looksFloat (scanFraction text rest).text = true := by
  unfold scanFraction
  split
  · rename_i d rest
    split
    · have hpoint : text ++ ['.'] <+: text ++ '.' :: d :: rest.takeWhile Char.isDigit :=
        ⟨d :: rest.takeWhile Char.isDigit, by simp⟩
      refine .inr ⟨?_, looksFloat_of_prefix (hpoint.trans (prefix_text_scanExponent _ _ _)) rfl⟩
      · rcases scanExponent_cases .float (text ++ '.' :: d :: rest.takeWhile Char.isDigit)
          (rest.dropWhile Char.isDigit) with h | h
        · simp [h]
        · exact h.1
    · exact .inl rfl
  · exact scanExponent_cases _ _ _

/-- An integer and nothing else. -/
def Whole (text : List Char) : Prop := isIntText text = true ∧ looksFloat text = false

theorem looksFloat_eq_false {text : List Char} (h : ∀ c ∈ text, c = '-' ∨ c.isDigit = true) :
    looksFloat text = false := by
  simp only [looksFloat, List.any_eq_false, Bool.not_eq_true]
  intro c hc
  rcases h c hc with rfl | hd
  · rfl
  · by_contra hp
    have hc : c = '.' ∨ c = 'e' ∨ c = 'E' := by
      simpa [isExponentMark] using Bool.of_not_eq_false hp
    rcases hc with rfl | rfl | rfl <;> exact absurd hd (by decide)

theorem isIntText_digits {c : Char} {digits : List Char} (hc : c ≠ '0') (hd : c.isDigit = true)
    (h : ∀ d ∈ digits, d.isDigit = true) :
    isIntText (c :: digits) = true ∧ isIntText ('-' :: c :: digits) = true := by
  have hm : c ≠ '-' := by rintro rfl; exact absurd hd (by decide)
  refine ⟨?_, ?_⟩
  · unfold isIntText
    split <;> simp_all
  · rw [isIntText]
    · simp_all
    · rintro rfl; exact absurd rfl hc

theorem scanInteger_cases {sign rest : List Char} (hs : sign = [] ∨ sign = ['-']) :
    ((scanInteger sign rest).kind = .int → Whole (scanInteger sign rest).text) ∧
      ((scanInteger sign rest).kind = .float → looksFloat (scanInteger sign rest).text = true) := by
  have fraction (text rest : List Char) (ht : Whole text) :
      ((scanFraction text rest).kind = .int → Whole (scanFraction text rest).text) ∧
        ((scanFraction text rest).kind = .float →
          looksFloat (scanFraction text rest).text = true) := by
    rcases scanFraction_cases text rest with h | ⟨hk, hl⟩
    · simp [h, ht]
    · exact ⟨fun h => absurd h hk, fun _ => hl⟩
  unfold scanInteger
  split
  · split
    · simp [numberFault, Scanned.extend]
    · exact fraction _ _ (by rcases hs with rfl | rfl <;> exact ⟨rfl, rfl⟩)
  · rename_i c rest hzero
    split
    · rename_i hd
      have hdigits : ∀ d ∈ rest.takeWhile Char.isDigit, d.isDigit = true :=
        fun d hd => List.mem_takeWhile_imp hd
      apply fraction
      by_cases hc : c = '0'
      · obtain rfl : rest = [] := by
          rcases rest with _ | ⟨d, rest⟩
          · rfl
          · exact absurd rfl (hzero d rest hc)
        subst hc
        rcases hs with rfl | rfl <;> exact ⟨rfl, rfl⟩
      · obtain ⟨hpos, hneg⟩ := isIntText_digits hc hd hdigits
        refine ⟨by rcases hs with rfl | rfl <;> assumption, looksFloat_eq_false fun d hd => ?_⟩
        rcases hs with rfl | rfl <;> simp at hd <;> grind
    · simp
  · simp

theorem isolates_of_isDelimiter {c : Char} (h : isDelimiter c = true) : isolates c = true := by
  simp only [isDelimiter, Bool.or_eq_true, beq_iff_eq] at h
  simp only [isolates, isSkipped, Bool.or_eq_true, beq_iff_eq]
  tauto

theorem not_isDelimiter_of_isNumberPart {c : Char} (h : isNumberPart c = true) :
    (!isDelimiter c) = true := by
  by_contra hc
  have hi := mem_isolators (isolates_of_isDelimiter (by simpa using hc))
  exact absurd h (by simp [extends_isNumberPart c hi])

/-- The scan of a number that is not glued to the text behind it. -/
theorem scanNumber?_of_scan {c : Char} {s : List Char} (hk : (scan c s).kind.isNumber = true)
    (hr : runsOn (scan c s).rest = false) :
    scanNumber? c s = if looksFloat (scan c s).text
      then if isFloatText (scan c s).text then .ok ⟨.float, (scan c s).text, (scan c s).rest⟩
        else .error (.badFloat (scan c s).text)
      else if isIntText (scan c s).text then .ok ⟨.int, (scan c s).text, (scan c s).rest⟩
        else .error (.badInt (scan c s).text) := by
  obtain ⟨u, ht, hs⟩ := exists_scan_eq c s
  have hp := (sound_scan c s).text_of_isNumber hk
  rw [ht] at hp ⊢
  generalize (scan c s).rest = rest at *
  subst hs
  have hall : ∀ d ∈ u, (!isDelimiter d) = true := fun d hd =>
    not_isDelimiter_of_isNumberPart (hp d (by simp [hd]))
  have htake := takeWhile_append_of_all hall hr
  have hdrop := dropWhile_append_of_all hall hr
  simp only [scanNumber?, htake, hdrop]

/-! ### Numbers that are glued -/

/-- The scan of a number with its sign. -/
def scanSigned : List Char → Scanned Kind
  | '-' :: s => scanInteger ['-'] s
  | s => scanInteger [] s

theorem scan_eq_scanSigned {c : Char} (h : c = '-' ∨ c.isDigit = true) (s : List Char) :
    scan c s = scanSigned (c :: s) := by
  by_cases hc : c = '-'
  · subst hc; rfl
  · rw [scan_digit (h.resolve_left hc)]
    unfold scanSigned
    split <;> simp_all

/-- In front of a text that starts with no digit an integer is read as such. -/
theorem scanSigned_append {whole : List Char} (h : isIntText whole = true) (tail : List Char)
    (ht : tail.head?.any Char.isDigit = false) :
    scanSigned (whole ++ tail) = scanFraction whole tail := by
  have digits {sign : List Char} {d : Char} {ds : List Char} (hd : d ≠ '0')
      (hds : ∀ c ∈ d :: ds, c.isDigit = true) :
      scanInteger sign (d :: ds ++ tail) = scanFraction (sign ++ d :: ds) tail := by
    have hall : ∀ c ∈ ds, c.isDigit = true := fun c hc => hds c (by simp [hc])
    rw [List.cons_append, scanInteger_digit sign hd (hds d (by simp)),
      takeWhile_append_of_all hall ht, dropWhile_append_of_all hall ht]
    simp
  unfold isIntText at h
  split at h
  · exact (scanInteger_zero [] tail).trans (by simp [ht])
  · exact (scanInteger_zero ['-'] tail).trans (by simp [ht])
  · simp only [Bool.and_eq_true, bne_iff_ne, ne_eq, List.all_eq_true] at h
    exact digits h.1 h.2
  · simp at h
  · simp only [Bool.and_eq_true, bne_iff_ne, ne_eq, List.all_eq_true] at h
    unfold scanSigned
    split
    · simp_all
    · exact digits h.1 h.2
  · simp at h

theorem scanFraction_append (whole : List Char) {fraction : List Char}
    (h : isFractionText fraction = true) (tail : List Char)
    (ht : tail.head?.any Char.isDigit = false) :
    scanFraction whole ('.' :: fraction ++ tail) =
      scanExponent .float (whole ++ '.' :: fraction) tail := by
  rcases fraction with _ | ⟨d, ds⟩
  · simp [isFractionText] at h
  · have h : d.isDigit = true ∧ ∀ c ∈ ds, c.isDigit = true := by
      simpa [isFractionText] using h
    simp [scanFraction, h.1, takeWhile_append_of_all h.2 ht, dropWhile_append_of_all h.2 ht]

/-- The last character is a sign. -/
def EndsInSign (text : List Char) : Prop := text.getLast?.any isSign = true

instance (text : List Char) : Decidable (EndsInSign text) := inferInstanceAs (Decidable (_ = true))

theorem endsInSign_append {front back : List Char} (h : back ≠ []) :
    EndsInSign (front ++ back) ↔ EndsInSign back := by
  unfold EndsInSign
  rw [List.getLast?_append, List.getLast?_eq_some_getLast h]
  rfl

theorem EndsInSign.exists_sign {text : List Char} (h : EndsInSign text) :
    ∃ c, text.getLast? = some c ∧ (c = '+' ∨ c = '-') := by
  obtain ⟨c, hc, hs⟩ := (Option.any_eq_true _ _).mp h
  exact ⟨c, hc, by simpa [isSign] using hs⟩

theorem EndsInSign.exists_not_isDigit {text : List Char} (h : EndsInSign text) :
    ∃ c ∈ text, c.isDigit = false := by
  obtain ⟨c, hc, rfl | rfl⟩ := h.exists_sign
  · exact ⟨_, List.mem_of_getLast? hc, rfl⟩
  · exact ⟨_, List.mem_of_getLast? hc, rfl⟩

/-- The kind of the token that a float is: an exponent may end with its sign, which is a fault. -/
def floatKind (text : List Char) : Kind :=
  if EndsInSign text then .error .emptyExponent else .float

theorem floatKind_append (front : List Char) {back : List Char} (h : back ≠ []) :
    floatKind (front ++ back) = floatKind back := by
  simp only [floatKind, endsInSign_append h]

theorem floatKind_of_all {digits : List Char} (h : ∀ c ∈ digits, c.isDigit = true) :
    floatKind digits = .float := by
  refine if_neg fun hsign => ?_
  obtain ⟨c, hc, hd⟩ := hsign.exists_not_isDigit
  simp [h c hc] at hd

theorem scanExponentDigits_of_all {digits : List Char} (h : ∀ c ∈ digits, c.isDigit = true)
    (text : List Char) : scanExponentDigits text digits =
      ⟨if digits = [] then .error .emptyExponent else .float, text ++ digits, []⟩ := by
  rcases digits with _ | ⟨d, ds⟩
  · simp [scanExponentDigits, numberFault, Scanned.extend]
  · obtain ⟨hd, hds⟩ := List.forall_mem_cons.mp h
    simp [scanExponentDigits, hd, Scanned.extend, List.takeWhile_eq_self_iff.mpr hds,
      List.dropWhile_eq_nil_iff.mpr hds]

theorem scanExponentSign_of_isExponentText {exponent : List Char}
    (h : isExponentText exponent = true) (text : List Char) :
    scanExponentSign text exponent = ⟨floatKind exponent, text ++ exponent, []⟩ := by
  rcases exponent with _ | ⟨c, digits⟩
  · simp [isExponentText] at h
  · have h : (c = '+' ∨ c = '-' ∨ ('1' ≤ c ∧ c ≤ '8')) ∧ ∀ d ∈ digits, d.isDigit = true := by
      simpa [isExponentText, or_assoc] using h
    obtain ⟨hc, hd⟩ := h
    have signed (hs : isSign c = true) :
        floatKind (c :: digits) = if digits = [] then .error .emptyExponent else .float := by
      by_cases hn : digits = []
      · subst hn
        exact if_pos hs
      · rw [if_neg hn]
        exact (floatKind_append [c] hn).trans (floatKind_of_all hd)
    rcases hc with rfl | rfl | hc
    · rw [signed rfl, scanExponentSign, scanExponentDigits_of_all hd]
      simp
    · rw [signed rfl, scanExponentSign, scanExponentDigits_of_all hd]
      simp
    · have hdigit : c.isDigit = true := by
        have hlow : '0' ≤ c := Char.le_trans (by decide : '0' ≤ '1') hc.1
        have hhigh : c ≤ '9' := Char.le_trans hc.2 (by decide : '8' ≤ '9')
        simp only [Char.isDigit, Bool.and_eq_true, decide_eq_true_eq]
        exact ⟨hlow, hhigh⟩
      have hall : ∀ d ∈ c :: digits, d.isDigit = true := List.forall_mem_cons.mpr ⟨hdigit, hd⟩
      rw [scanExponentSign, scanExponentDigits_of_all hall, floatKind_of_all hall]
      · rfl
      · rintro rest h; obtain ⟨rfl, -⟩ := List.cons.inj h; exact absurd hdigit (by decide)
      · rintro rest h; obtain ⟨rfl, -⟩ := List.cons.inj h; exact absurd hdigit (by decide)

theorem scanExponent_of_isExponentText {m : Char} (hm : isExponentMark m = true)
    {exponent : List Char} (h : isExponentText exponent = true) (kind : Kind) (text : List Char) :
    scanExponent kind text (m :: exponent) =
      ⟨floatKind (text ++ m :: exponent), text ++ m :: exponent, []⟩ := by
  have hne : exponent ≠ [] := by rintro rfl; cases h
  have hkind : floatKind (text ++ m :: exponent) = floatKind exponent := by
    rw [List.append_cons, floatKind_append _ hne]
  have hm : m = 'e' ∨ m = 'E' := by simpa [isExponentMark] using hm
  rw [hkind]
  rcases hm with rfl | rfl
  · simp [scanExponent, scanExponentSign_of_isExponentText h]
  · simp [scanExponent, scanExponentSign_of_isExponentText h]

theorem splitLast?_eq_some {p : Char → Bool} {s front back : List Char}
    (h : splitLast? p s = some (front, back)) : ∃ c, p c = true ∧ s = front ++ c :: back := by
  unfold splitLast? at h
  simp only at h
  split at h
  · cases h
  · rename_i c rest hdrop
    cases h
    have hc := any_head_dropWhile (!p ·) s.reverse
    have hs := congrArg List.reverse
      (List.takeWhile_append_dropWhile (p := (!p ·)) (l := s.reverse))
    rw [hdrop] at hc hs
    exact ⟨c, by simpa using hc, by simpa using hs.symm⟩

theorem scanSigned_of_isIntText {text : List Char} (h : isIntText text = true) :
    scanSigned text = ⟨.int, text, []⟩ := by
  have hs := scanSigned_append h [] rfl
  rwa [List.append_nil] at hs

/-- A float is the text of one token. -/
theorem scanSigned_of_isFloatText {text : List Char} (h : isFloatText text = true) :
    scanSigned text = ⟨floatKind text, text, []⟩ := by
  unfold isFloatText at h
  split at h
  · rename_i front exponent hsplit
    obtain ⟨m, hm, rfl⟩ := splitLast?_eq_some hsplit
    have hd : (m :: exponent).head?.any Char.isDigit = false := by
      have hm : m = 'e' ∨ m = 'E' := by simpa [isExponentMark] using hm
      rcases hm with rfl | rfl <;> rfl
    simp only [Bool.and_eq_true] at h
    obtain ⟨hexponent, h⟩ := h
    split at h
    · rename_i whole fraction hpoint
      obtain ⟨c, hc, rfl⟩ := splitLast?_eq_some hpoint
      obtain rfl : c = '.' := by simpa using hc
      simp only [Bool.and_eq_true] at h
      rw [List.append_assoc, scanSigned_append h.1 _ rfl, scanFraction_append _ h.2 _ hd,
        scanExponent_of_isExponentText hm hexponent, List.append_assoc]
    · rw [scanSigned_append h _ hd, scanFraction_of_not_digit,
        scanExponent_of_isExponentText hm hexponent]
      rintro hp
      obtain rfl : m = '.' := by simpa using hp
      exact absurd hm (by decide)
  · split at h
    · rename_i whole fraction hpoint
      obtain ⟨c, hc, rfl⟩ := splitLast?_eq_some hpoint
      obtain rfl : c = '.' := by simpa using hc
      simp only [Bool.and_eq_true] at h
      have hfraction : fraction ≠ [] ∧ ∀ d ∈ fraction, d.isDigit = true := by
        simpa [isFractionText] using h.2
      have hkind : floatKind (whole ++ '.' :: fraction) = .float := by
        rw [List.append_cons, floatKind_append _ hfraction.1, floatKind_of_all hfraction.2]
      have hf := scanFraction_append whole h.2 [] rfl
      rw [List.append_nil] at hf
      rw [scanSigned_append h.1 _ rfl, hf, hkind]
      rfl
    · simp at h

theorem scan?_number {c : Char} (h : c = '-' ∨ c.isDigit = true) (s : List Char) :
    scan? c s = scanNumber? c s := by
  rcases h with rfl | hd
  · rfl
  · have hp := ofChar?_eq_none extends_isDigit hd
    have dot : c ≠ '.' := by rintro rfl; exact absurd hd (by decide)
    have quote : c ≠ '"' := by rintro rfl; exact absurd hd (by decide)
    simp [scan?, hp, dot, quote, isNameStart_of_isDigit hd, hd]

/-- A token that goes as far as a delimiter is taken in front of it. -/
theorem scan_of_scanSigned {c : Char} (hc : c = '-' ∨ c.isDigit = true) {kind : Kind}
    (ho : kind.isOpen = false) (hb : kind ≠ .error .brokenString) {s : List Char}
    (h : scanSigned (c :: s.takeWhile (!isDelimiter ·)) =
      ⟨kind, c :: s.takeWhile (!isDelimiter ·), []⟩) :
    scan c s = ⟨kind, c :: s.takeWhile (!isDelimiter ·), s.dropWhile (!isDelimiter ·)⟩ := by
  rw [← scan_eq_scanSigned hc] at h
  have hhead := any_head_dropWhile (!isDelimiter ·) s
  have hfollows : Follows kind [] (s.dropWhile (!isDelimiter ·)) := by
    refine .inl ?_
    cases hd : s.dropWhile (!isDelimiter ·) with
    | nil => trivial
    | cons d t =>
      exact ⟨isolates_of_isDelimiter (by simpa [hd] using hhead), ho, fun h => absurd h hb⟩
  have hfull := scan_append (u := s.takeWhile (!isDelimiter ·)) (by simpa using h) hfollows
  rwa [List.takeWhile_append_dropWhile] at hfull

/-- A number of the grammar is the text of one token, and a delimiter or nothing follows it. -/
theorem scan_of_scanNumber? {c : Char} (hc : c = '-' ∨ c.isDigit = true) {s : List Char}
    {r : Scanned Category} (h : scanNumber? c s = .ok r) :
    runsOn r.rest = false ∧ ∃ kind, scan c s = ⟨kind, r.text, r.rest⟩ ∧
      (r.kind = .int ∧ kind = .int ∨ r.kind = .float ∧ kind = floatKind r.text) := by
  have hend : runsOn (s.dropWhile (!isDelimiter ·)) = false :=
    any_head_dropWhile (!isDelimiter ·) s
  unfold scanNumber? at h
  simp only at h
  split at h
  · split at h
    · cases h
      refine ⟨hend, _, scan_of_scanSigned hc ?_ ?_ (scanSigned_of_isFloatText ‹_›), .inr ⟨rfl, rfl⟩⟩
      · unfold floatKind; split <;> rfl
      · unfold floatKind; split <;> simp
    · cases h
  · split at h
    · cases h
      exact ⟨hend, _, scan_of_scanSigned hc rfl (by simp) (scanSigned_of_isIntText ‹_›),
        .inl ⟨rfl, rfl⟩⟩
    · cases h

/-- A number that goes on behind what the scan took is none for the grammar. -/
theorem scan?_of_glued {c : Char} {s : List Char} (hk : (scan c s).kind.isNumber = true)
    (hr : runsOn (scan c s).rest = true) : ∃ reason, scan? c s = .error reason := by
  have hc := (begins_scan c s).number hk
  rw [scan?_number hc]
  cases h : scanNumber? c s with
  | error reason => exact ⟨reason, rfl⟩
  | ok r =>
    obtain ⟨hend, kind, hs, -⟩ := scan_of_scanNumber? hc h
    rw [hs, hend] at hr
    cases hr

/-! ### Any word -/

theorem scanNumber?_of_isNumber {c : Char} {s : List Char} (hk : (scan c s).kind.isNumber = true)
    (hr : runsOn (scan c s).rest = false) :
    scanNumber? c s = reading ((scan c s).kind, (scan c s).text) (scan c s).rest := by
  have hc := (begins_scan c s).number hk
  have hcases : ((scan c s).kind = .int → Whole (scan c s).text) ∧
      ((scan c s).kind = .float → looksFloat (scan c s).text = true) := by
    rcases hc with rfl | hd
    · exact scanInteger_cases (.inr rfl)
    · rw [scan_digit hd]
      exact scanInteger_cases (.inl rfl)
  rw [scanNumber?_of_scan hk hr]
  generalize scan c s = r at *
  cases h : r.kind with
  | int => simp only [(hcases.1 h).1, (hcases.1 h).2, reading, refusal?, category]; rfl
  | float =>
    simp only [hcases.2 h, if_true, reading, refusal?, category]
    split <;> rfl
  | _ => simp [h, Kind.isNumber] at hk

/-- The grammar sees what the scan sees, in words without faults that are not glued. -/
theorem scan?_of_scan {c : Char} {s : List Char} (he : (scan c s).kind.isError = false)
    (hr : (scan c s).kind.isNumber = true → runsOn (scan c s).rest = false) :
    scan? c s = reading ((scan c s).kind, (scan c s).text) (scan c s).rest := by
  have number (hc : c = '-' ∨ c.isDigit = true) : (scan c s).kind.isNumber = true := by
    have hn := isNumeric_scan hc s
    generalize (scan c s).kind = k at *
    unfold Kind.isNumeric at hn
    split at hn <;> simp_all [Kind.isNumber, Kind.isError]
  cases Lexis.start c with
  | punctuator p hp => simp [scan_punctuator hp, scan?, hp, reading, refusal?, category]
  | dot hc =>
    subst hc
    change (scanDots s).kind.isError = false at he
    change scanDots? s = reading ((scanDots s).kind, (scanDots s).text) (scanDots s).rest
    unfold scanDots at he ⊢
    split at he
    · rfl
    · simp [Kind.isError] at he
    · simp [Kind.isError] at he
  | quote hc =>
    subst hc
    change (scanQuote s).kind.isError = false at he
    change scanQuote? s = reading ((scanQuote s).kind, (scanQuote s).text) (scanQuote s).rest
    have hk : (scanQuote s).kind = .string := by
      rcases kind_scanQuote s with hk | ⟨fault, hk⟩
      · exact hk
      · simp [hk, Kind.isError] at he
    rw [scanQuote?_of_scanQuote hk, hk]
  | name hc =>
    have hp := ofChar?_eq_none extends_isNameContinue (isNameContinue_of_isNameStart hc)
    have dot : c ≠ '.' := by rintro rfl; exact absurd hc (by decide)
    have quote : c ≠ '"' := by rintro rfl; exact absurd hc (by decide)
    rw [scan_name hc]
    rcases nameKind_cases (c :: s.takeWhile isNameContinue) with hk | hk | hk | hk <;>
      simp [scan?, hp, dot, quote, hc, scanName, hk, reading, refusal?, category, Scanned.extend]
  | minus hc =>
    have hk := number (.inl hc)
    exact (scan?_number (.inl hc) s).trans (scanNumber?_of_isNumber hk (hr hk))
  | digit hc =>
    have hk := number (.inr hc)
    exact (scan?_number (.inr hc) s).trans (scanNumber?_of_isNumber hk (hr hk))
  | stray hs => simp [hs, Kind.isError] at he

/-! ## Lexemes -/

abbrev Face := Category × List Char

/-- A lexeme without its position. -/
def Lexeme.face (l : Lexeme) : Face := (l.category, l.text)

/-- The lexeme that a word without faults becomes. -/
def face (b : Bare) : Face := (category b, b.2)

/-- The first reason for which the grammar refuses words without faults. -/
def fault? (budget : Nat) : List Bare → Option Reason
  | [] => none
  | b :: bs =>
    match refusal? b, spend? budget (category b) with
    | some reason, _ => some reason
    | none, none => some .nestingLimit
    | none, some left => fault? left bs

def Faultless (ws : List Word) : Prop := ∀ w ∈ ws, w.kind.isError = false

/-- No number is glued to the text behind it. -/
def Unglued (ws : List Word) : Prop := ∀ w ∈ ws, w.glued = false

theorem skipIgnored_eq (p : Ast.Position) (s : List Char) :
    skipIgnored p false s = ((skipIgnored p false s).1, dropIgnored false s) :=
  Prod.ext rfl (skipIgnored_snd p false s)

theorem lexemesFrom_of_dropIgnored_nil {s : List Char} (h : dropIgnored false s = [])
    (budget : Nat) (p : Ast.Position) :
    lexemesFrom budget p s = ([], ⟨(skipIgnored p false s).1, none⟩) := by
  have hs := skipIgnored_eq p s
  rw [lexemesFrom]
  split <;> simp_all

theorem lexemesFrom_of_error {s rest : List Char} {c : Char} {reason : Reason}
    (h : dropIgnored false s = c :: rest) (hs : scan? c rest = .error reason)
    (budget : Nat) (p : Ast.Position) :
    lexemesFrom budget p s = ([], ⟨(skipIgnored p false s).1, some reason⟩) := by
  have hd := skipIgnored_eq p s
  rw [lexemesFrom]
  split
  · simp_all
  · split <;> simp_all

theorem lexemesFrom_of_ok {s rest : List Char} {c : Char} {r : Scanned Category}
    (h : dropIgnored false s = c :: rest) (hs : scan? c rest = .ok r)
    (budget : Nat) (p : Ast.Position) :
    lexemesFrom budget p s =
      match spend? budget r.kind with
      | none => ([], ⟨(skipIgnored p false s).1, some .nestingLimit⟩)
      | some left =>
        let q := (skipIgnored p false s).1
        let (ls, ending) := lexemesFrom left (past q r.text) r.rest
        (⟨r.kind, r.text, q⟩ :: ls, ending) := by
  have hd := skipIgnored_eq p s
  rw [lexemesFrom]
  split
  · simp_all
  · split
    · simp_all
    · rename_i q d u hq _ hr
      obtain ⟨rfl, hu⟩ := Prod.mk.inj (hd.symm.trans hq)
      obtain ⟨rfl, rfl⟩ := List.cons.inj (h.symm.trans hu)
      obtain rfl := Except.ok.inj (hs.symm.trans hr)
      rfl

/-- How the lexemes of a text follow from its words, if these are without faults. -/
theorem lexemesFrom_of_faultless {s : List Char} (budget : Nat) (p : Ast.Position)
    (h : Faultless (words s)) :
    (Unglued (words s) → (lexemesFrom budget p s).2.fault = fault? budget (bares s)) ∧
      ((lexemesFrom budget p s).2.fault = none →
        Unglued (words s) ∧ (lexemesFrom budget p s).1.map Lexeme.face = (bares s).map face) := by
  induction s using words_induction generalizing budget p with
  | nil s hs =>
    simp [lexemesFrom_of_dropIgnored_nil hs, bares, words_of_dropIgnored_nil hs, fault?, Unglued]
  | cons s c rest hs ih =>
    have hw := words_of_dropIgnored_cons hs
    have hb : bares s = ((scan c rest).kind, (scan c rest).text) :: bares (scan c rest).rest := by
      rw [bares, hw]; rfl
    rw [hw] at h ⊢
    have he : (scan c rest).kind.isError = false := h (.ofScan (scan c rest)) (by simp)
    have hrest : Faultless (words (scan c rest).rest) := fun w hw => h w (by simp [hw])
    by_cases hg : (Word.ofScan (scan c rest)).glued = true
    · have hg' : (scan c rest).kind.isNumber = true ∧ runsOn (scan c rest).rest = true := by
        simpa [Word.ofScan] using hg
      obtain ⟨reason, hr⟩ := scan?_of_glued hg'.1 hg'.2
      rw [lexemesFrom_of_error hs hr]
      exact ⟨fun hu => absurd hg (by simp [hu (.ofScan (scan c rest)) (by simp)]),
        fun hf => by simp at hf⟩
    · have hread := scan?_of_scan he fun hk => by simpa [Word.ofScan, hk] using hg
      have hcons : Unglued (.ofScan (scan c rest) :: words (scan c rest).rest) ↔
          Unglued (words (scan c rest).rest) := by
        simp [Unglued, hg]
      rw [hcons, hb]
      unfold reading at hread
      cases hf : refusal? ((scan c rest).kind, (scan c rest).text) with
      | some reason =>
        rw [hf] at hread
        rw [lexemesFrom_of_error hs hread]
        simp [fault?, hf]
      | none =>
        rw [hf] at hread
        rw [lexemesFrom_of_ok hs hread]
        cases hl : spend? budget (category ((scan c rest).kind, (scan c rest).text)) with
        | none => simp [fault?, hf, hl]
        | some left =>
          obtain ⟨ihf, ihl⟩ := ih left (past (skipIgnored p false s).1 (scan c rest).text) hrest
          refine ⟨fun hu => ?_, fun hn => ?_⟩
          · simpa [fault?, hf, hl] using ihf hu
          · obtain ⟨hu, hm⟩ := ihl hn
            exact ⟨hu, by simpa [Lexeme.face, face] using hm⟩

end QueryDoc.Grammar
