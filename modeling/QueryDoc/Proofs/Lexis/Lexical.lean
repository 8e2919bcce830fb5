import Mathlib.Logic.Function.Iterate
import QueryDoc.Proofs.Lexis.Numeral
import QueryDoc.Proofs.Lexis.Tiling

/-!
# Tokens and the texts they are read from

What a token is depends on the text from its start on alone: names, numbers and strings take the
longest text of their kind that stands there (`tokens_lexical`).
-/
namespace QueryDoc.Lexis

open QueryDoc.Grammar (byteLength isExponentMark scanSigned scan_eq_scanSigned)
open scoped Computability

/-! ## Strings -/

/-- A backslash and the character behind it, whatever it is. -/
def escape : Language Char := single (· == '\\') * single fun _ => true

/-- Not a quote, a backslash or a line end. -/
def isPlain (c : Char) : Bool := !(c == '"' || c == '\\' || isLineEnd c)

/-- What stands between the quotes of a string on one line. -/
def quotable : Language Char := (escape + single isPlain)∗

/-- Strings on one line. -/
def quoted : Language Char := single (· == '"') * (quotable * single (· == '"'))

variable {s b rest : List Char}

theorem scanString_plain {c : Char} (hc : isPlain c = true) (s : List Char) :
    scanString (c :: s) = (scanString s).behind [c] := by
  simp only [isPlain, isLineEnd, Bool.not_eq_true', Bool.or_eq_false_iff, beq_eq_false_iff_ne] at hc
  rw [scanString] <;> simp_all

theorem scanString_of_mem_quotable (hb : b ∈ quotable) (rest : List Char) :
    scanString (b ++ '"' :: rest) = ⟨.string, b ++ ['"'], rest⟩ := by
  obtain ⟨units, rfl, hunits⟩ := Language.mem_kstar.mp hb
  clear hb
  induction units with
  | nil => rfl
  | cons u units ih =>
    obtain ⟨hu, hrest⟩ := List.forall_mem_cons.mp hunits
    have ih := ih hrest
    rcases hu with hescape | ⟨c, rfl, hc⟩
    · obtain ⟨a, y, rfl, ha, d, rfl, -⟩ := mem_single_mul.mp hescape
      obtain rfl : a = '\\' := beq_iff_eq.mp ha
      simp [scanString, ih, Scanned.behind]
    · simp [scanString_plain hc, ih, Scanned.behind]

theorem exists_quotable (h : (scanString s).kind = .string) :
    ∃ b rest, s = b ++ '"' :: rest ∧ b ∈ quotable := by
  fun_induction scanString s with
  | case1 | case3 | case4 | case5 => cases h
  | case2 s => exact ⟨[], s, rfl, Language.nil_mem_kstar _⟩
  | case6 c s ih =>
    obtain ⟨b, rest, rfl, hb⟩ := ih h
    have hescape : ['\\', c] ∈ escape + single isPlain :=
      .inl (mem_single_mul.mpr ⟨'\\', [c], rfl, rfl, c, rfl, rfl⟩)
    exact ⟨['\\', c] ++ b, rest, rfl, append_mem_star hescape hb⟩
  | case7 c s hquote hcrlf hcr hlf hback ih =>
    obtain ⟨b, rest, rfl, hb⟩ := ih h
    have hback : c ≠ '\\' := by
      rintro rfl
      cases b with
      | nil => exact hback _ _ rfl rfl
      | cons d b => exact hback _ _ rfl rfl
    have hplain : [c] ∈ escape + single isPlain := by
      refine .inr ⟨c, rfl, ?_⟩
      have hquote : c ≠ '"' := hquote
      have hreturn : c ≠ '\r' := hcr
      have hfeed : c ≠ '\n' := hlf
      simp [isPlain, isLineEnd, hquote, hback, hreturn, hfeed]
    exact ⟨[c] ++ b, rest, rfl, append_mem_star hplain hb⟩

/-! ## Block strings -/

def quotes : List Char := ['"', '"', '"']

/-- The text behind the next unit of a block string. Three quotes with a backslash in front are one
unit, and so is any other character. -/
def skipUnit (s : List Char) : List Char :=
  if '\\' :: quotes <+: s then s.drop 4 else s.tail

/-- Three quotes stand behind `n` units of a block string, and behind no fewer. -/
structure ClosesBehind (n : Nat) (s : List Char) : Prop where
  closes : quotes <+: skipUnit^[n] s
  first : ∀ m < n, ¬ quotes <+: skipUnit^[m] s

theorem skipUnit_escaped (s : List Char) : skipUnit ('\\' :: quotes ++ s) = s :=
  if_pos (List.prefix_append _ s)

theorem skipUnit_other {c : Char} (h : ∀ r, c = '\\' → s = '"' :: '"' :: '"' :: r → False) :
    skipUnit (c :: s) = s := by
  refine if_neg ?_
  rintro ⟨y, hy⟩
  obtain ⟨rfl, rfl⟩ := List.cons.inj hy
  exact h y rfl rfl

theorem scanBlock_of_quotes (h : quotes <+: s) : scanBlock s = ⟨.string, quotes, s.drop 3⟩ := by
  obtain ⟨s, rfl⟩ := h
  rfl

theorem scanBlock_skip (h : ¬ quotes <+: s) : ∃ u, s = u ++ skipUnit s ∧
    scanBlock s = (scanBlock (skipUnit s)).behind u := by
  fun_cases scanBlock s with
  | case1 => exact ⟨[], rfl, rfl⟩
  | case2 s =>
    have hskip : skipUnit ('\\' :: '"' :: '"' :: '"' :: s) = s := skipUnit_escaped s
    exact ⟨'\\' :: quotes, by rw [hskip]; rfl, by rw [hskip]; rfl⟩
  | case3 s => exact absurd (List.prefix_append quotes s) h
  | case4 c s hback =>
    have hskip : skipUnit (c :: s) = s := skipUnit_other hback
    exact ⟨[c], by rw [hskip]; rfl, by rw [hskip]⟩

/-- A block string is closed iff three quotes stand behind some of its units. -/
theorem kind_scanBlock_iff : (scanBlock s).kind = .string ↔ ∃ n, quotes <+: skipUnit^[n] s := by
  constructor
  · intro h
    fun_induction scanBlock s with
    | case1 => cases h
    | case2 s ih =>
      obtain ⟨n, hn⟩ := ih h
      have hskip : skipUnit ('\\' :: '"' :: '"' :: '"' :: s) = s := skipUnit_escaped s
      exact ⟨n + 1, by rwa [Function.iterate_succ_apply, hskip]⟩
    | case3 s => exact ⟨0, List.prefix_append quotes s⟩
    | case4 c s hback hquotes ih =>
      obtain ⟨n, hn⟩ := ih h
      exact ⟨n + 1, by rwa [Function.iterate_succ_apply, skipUnit_other hback]⟩
  · rintro ⟨n, h⟩
    induction n generalizing s with
    | zero =>
      have hs : quotes <+: s := h
      rw [scanBlock_of_quotes hs]
    | succ n ih =>
      by_cases hs : quotes <+: s
      · rw [scanBlock_of_quotes hs]
      · obtain ⟨u, -, hscan⟩ := scanBlock_skip hs
        rw [hscan]
        exact ih h

/-- A block string ends with the first quotes that close it. -/
theorem text_scanBlock {n : Nat} (h : ClosesBehind n s) :
    ∃ b, s = b ++ skipUnit^[n] s ∧ (scanBlock s).text = b ++ quotes := by
  induction n generalizing s with
  | zero =>
    have hs : quotes <+: s := h.closes
    exact ⟨[], rfl, by rw [scanBlock_of_quotes hs]; rfl⟩
  | succ n ih =>
    have hs : ¬ quotes <+: s := h.first 0 n.succ_pos
    have hbehind : ClosesBehind n (skipUnit s) :=
      ⟨h.closes, fun m hm => h.first (m + 1) (Nat.succ_lt_succ hm)⟩
    obtain ⟨u, hu, hscan⟩ := scanBlock_skip hs
    obtain ⟨b, hb, htext⟩ := ih hbehind
    refine ⟨u ++ b, ?_, ?_⟩
    · rw [List.append_assoc, Function.iterate_succ_apply, ← hb]
      exact hu
    · rw [hscan, Scanned.text_behind, htext, List.append_assoc]

/-! ## Names -/

theorem longest_scanName {c : Char} (hc : isNameStart c = true) (rest : List Char) :
    Longest names (scanName c rest).text (c :: rest) := by
  have hmem : (scanName c rest).text ∈ names :=
    mem_single_mul_star.mpr ⟨c, _, rfl, hc, fun d hd => List.mem_takeWhile_imp hd⟩
  have hsource : (scanName c rest).text ++ (scanName c rest).rest = c :: rest :=
    source_scanName c rest
  rw [← hsource]
  refine longest_append hmem ?_
  rintro d x ⟨y, hy⟩ hlonger
  obtain ⟨e, z, hez, -, hall⟩ := mem_single_mul_star.mp hlonger
  obtain ⟨-, rfl⟩ := List.cons.inj hez
  have hstops := any_head_dropWhile isNameContinue rest
  have hd : (rest.dropWhile isNameContinue).head? = some d := congrArg List.head? hy.symm
  simp [hd, hall d (by simp)] at hstops

/-- The words that stand for values are the three keywords. -/
theorem nameKind_eq_iff (text : List Char) :
    (nameKind text = .boolean true ↔ text = "true".toList) ∧
      (nameKind text = .boolean false ↔ text = "false".toList) ∧
      (nameKind text = .null ↔ text = "null".toList) := by
  unfold nameKind
  simp only [beq_iff_eq]
  split
  · simp_all
  · split
    · simp_all
    · split <;> simp_all

/-! ## Numbers -/

/-- The longest number at the start of `r`, with no digit behind it and, unless it has an exponent,
no mark of one. -/
structure NumberAt (w r : List Char) : Prop where
  longest : Longest numeral w r
  digit : (r.drop w.length).head?.any Char.isDigit = false
  mark : w ∈ decimal → (r.drop w.length).head?.any isExponentMark = false

theorem numberAt_append_iff {w : List Char} : NumberAt w (w ++ rest) ↔ NumberEnds w rest := by
  have hrest : (w ++ rest).drop w.length = rest := List.drop_left
  rw [numberEnds_iff]
  constructor
  · rintro ⟨hlong, hdigit, hmark⟩
    rw [hrest] at hdigit hmark
    exact ⟨hlong, hdigit, hmark⟩
  · rintro ⟨hlong, hdigit, hmark⟩
    rw [← hrest] at hdigit hmark
    exact ⟨hlong, hdigit, hmark⟩

/-- A number starts with a minus or a digit. -/
theorem first_of_mem_numeral {c : Char} {x : List Char} (h : c :: x ∈ numeral) :
    c = '-' ∨ c.isDigit = true := by
  obtain ⟨d, ⟨i, hi, f, -, rfl⟩, e, -, hw⟩ := Language.mem_mul.mp h
  cases i with
  | nil => exact absurd rfl (ne_nil_of_endsIn endsIn_integer hi)
  | cons a i =>
    obtain rfl : a = c := (List.cons.inj hw).1
    have ha := over_integer _ hi a List.mem_cons_self
    simpa [isIntegerPart] using ha

variable {c : Char}

theorem scan_of_numberAt {w : List Char} (h : NumberAt w (c :: s)) :
    ((scan c s).kind.isNumber = true ∧ (scan c s).text = w) ∧
      ((scan c s).kind = .int ↔ w ∈ integer) := by
  obtain ⟨rest, hrest⟩ := h.longest.front
  cases w with
  | nil => exact absurd rfl (ne_nil_of_endsIn endsIn_numeral h.longest.mem)
  | cons d x =>
    obtain rfl : d = c := (List.cons.inj hrest).1
    rw [← hrest, numberAt_append_iff] at h
    obtain ⟨kind, hscan, hk, hint⟩ := scanSigned_of_numberEnds h
    rw [hrest, ← scan_eq_scanSigned (first_of_mem_numeral h.mem)] at hscan
    rw [hscan]
    exact ⟨⟨hk, rfl⟩, hint⟩

theorem isNumber_scan_iff : (scan c s).kind.isNumber = true ↔ ∃ w, NumberAt w (c :: s) := by
  constructor
  · intro h
    rw [scan_eq_scanSigned ((begins_scan c s).number h)] at h
    obtain ⟨w, rest, hsource, hw⟩ := exists_numberEnds h
    exact ⟨w, by rw [hsource]; exact numberAt_append_iff.mpr hw⟩
  · rintro ⟨w, h⟩
    exact (scan_of_numberAt h).1.1

/-! ## Any token -/

/-- What the text `r` from the start of a token on has to do with the kind and the text of the
token. -/
structure Lexical (r : List Char) (kind : Kind) (text : List Char) : Prop where
  word : kind.isWord = true ↔ r.head?.any isNameStart = true
  word_text : kind.isWord = true → Longest names text r
  keyword : kind.isWord = true → (kind = .boolean true ↔ text = "true".toList) ∧
    (kind = .boolean false ↔ text = "false".toList) ∧ (kind = .null ↔ text = "null".toList)
  number : kind.isNumber = true ↔ ∃ w, NumberAt w r
  number_text : ∀ w, NumberAt w r → text = w ∧ (kind = .int ↔ w ∈ integer)
  block : ∀ s, r = quotes ++ s → (kind = .string ↔ ∃ n, quotes <+: skipUnit^[n] s)
  block_text : ∀ s n, r = quotes ++ s → ClosesBehind n s →
    ∃ b, s = b ++ skipUnit^[n] s ∧ text = quotes ++ b ++ quotes
  line : ¬ quotes <+: r → (kind = .string ↔ ∃ w ∈ quoted, w <+: r)
  line_text : ¬ quotes <+: r → ∀ w ∈ quoted, w <+: r → text = w

theorem isWord_scan_iff : (scan c s).kind.isWord = true ↔ isNameStart c = true := by
  constructor
  · exact (begins_scan c s).word
  · intro hc
    rw [scan_name hc]
    exact isWord_nameKind _

theorem exists_body_of_mem_quoted {w : List Char} (h : w ∈ quoted) :
    ∃ b ∈ quotable, w = '"' :: (b ++ ['"']) := by
  obtain ⟨a, x, rfl, ha, b, hb, y, ⟨z, rfl, hz⟩, rfl⟩ := mem_single_mul.mp h
  exact ⟨b, hb, by rw [beq_iff_eq.mp ha, beq_iff_eq.mp hz]⟩

theorem mem_quoted (hb : b ∈ quotable) : '"' :: (b ++ ['"']) ∈ quoted :=
  mem_single_mul.mpr ⟨'"', _, rfl, rfl, Language.append_mem_mul hb ⟨'"', rfl, rfl⟩⟩

theorem scan_of_mem_quotable (hb : b ∈ quotable) (hq : ¬ quotes <+: '"' :: (b ++ '"' :: rest)) :
    scan '"' (b ++ '"' :: rest) = ⟨.string, '"' :: (b ++ ['"']), rest⟩ := by
  have hne : ∀ r, b ++ '"' :: rest ≠ '"' :: '"' :: r := by
    intro r hr
    exact hq ⟨r, by rw [hr]; rfl⟩
  change scanQuote _ = _
  rw [scanQuote_of_ne hne, scanString_of_mem_quotable hb]
  rfl

theorem scan_of_mem_quoted (hq : ¬ quotes <+: c :: s) {w : List Char} (hw : w ∈ quoted)
    (hr : w <+: c :: s) : (scan c s).kind = .string ∧ (scan c s).text = w := by
  obtain ⟨b, hb, rfl⟩ := exists_body_of_mem_quoted hw
  obtain ⟨rest, hrest⟩ := hr
  obtain ⟨rfl, hs⟩ := List.cons.inj hrest
  obtain rfl : s = b ++ '"' :: rest := by simpa using hs.symm
  rw [scan_of_mem_quotable hb hq]
  exact ⟨rfl, rfl⟩

theorem kind_scan_eq_string_iff (hq : ¬ quotes <+: c :: s) :
    (scan c s).kind = .string ↔ ∃ w ∈ quoted, w <+: c :: s := by
  constructor
  · intro h
    obtain rfl := (begins_scan c s).string h
    have hne : ∀ r, s ≠ '"' :: '"' :: r := by
      rintro r rfl
      exact hq ⟨r, rfl⟩
    have hscan : scan '"' s = (scanString s).behind ['"'] := scanQuote_of_ne hne
    rw [hscan] at h
    obtain ⟨b, rest, rfl, hb⟩ := exists_quotable h
    exact ⟨_, mem_quoted hb, ⟨rest, by simp⟩⟩
  · rintro ⟨w, hw, hr⟩
    exact (scan_of_mem_quoted hq hw hr).1

theorem lexical_scan (c : Char) (s : List Char) :
    Lexical (c :: s) (scan c s).kind (scan c s).text where
  word := by simpa using isWord_scan_iff
  word_text h := by
    have hc := isWord_scan_iff.mp h
    rw [scan_name hc]
    exact longest_scanName hc s
  keyword h := by
    rw [scan_name (isWord_scan_iff.mp h)]
    exact nameKind_eq_iff _
  number := isNumber_scan_iff
  number_text w h := ⟨(scan_of_numberAt h).1.2, (scan_of_numberAt h).2⟩
  block r h := by
    obtain ⟨rfl, rfl⟩ := List.cons.inj h
    exact kind_scanBlock_iff
  block_text r n h hn := by
    obtain ⟨rfl, rfl⟩ := List.cons.inj h
    obtain ⟨b, hb, htext⟩ := text_scanBlock hn
    refine ⟨b, hb, ?_⟩
    change quotes ++ (scanBlock r).text = _
    rw [htext, List.append_assoc]
  line hq := kind_scan_eq_string_iff hq
  line_text hq w hw hr := (scan_of_mem_quoted hq hw hr).2

theorem not_numberAt_nil (w : List Char) : ¬ NumberAt w [] := by
  intro h
  obtain rfl := List.prefix_nil.mp h.longest.front
  exact ne_nil_of_endsIn endsIn_numeral h.longest.mem rfl

theorem not_prefix_nil_of_mem_quoted {w : List Char} (hw : w ∈ quoted) : ¬ w <+: [] := by
  intro h
  obtain rfl := List.prefix_nil.mp h
  obtain ⟨b, -, hb⟩ := exists_body_of_mem_quoted hw
  cases hb

/-- Nothing starts at the end. -/
theorem lexical_eof : Lexical [] .eof [] where
  word := by simp [Kind.isWord]
  word_text h := by cases h
  keyword h := by cases h
  number := ⟨fun h => (by cases h), fun ⟨w, h⟩ => absurd h (not_numberAt_nil w)⟩
  number_text w h := absurd h (not_numberAt_nil w)
  block s h := by cases h
  block_text s n h := by cases h
  line _ := ⟨fun h => (by cases h), fun ⟨_, hw, h⟩ => absurd h (not_prefix_nil_of_mem_quoted hw)⟩
  line_text _ _ hw h := absurd h (not_prefix_nil_of_mem_quoted hw)

/-! ## All tokens -/

/-- The text from the first byte of a token on. -/
def Token.textFrom (t : Token) (s : List Char) : List Char := slice t.tile.first (byteLength s) s

theorem slice_to_end (pre r : List Char) :
    slice (byteLength pre) (byteLength (pre ++ r)) (pre ++ r) = r := by
  simpa using slice_append pre r []

/-- What is read from the start of a text: the scan of it, or the end. -/
inductive ReadFrom : List Char → Kind → List Char → Prop where
  | eof : ReadFrom [] .eof []
  | scan (c : Char) (s : List Char) : ReadFrom (c :: s) (scan c s).kind (scan c s).text

theorem ReadFrom.lexical {r text : List Char} {kind : Kind} (h : ReadFrom r kind text) :
    Lexical r kind text := by
  cases h with
  | eof => exact lexical_eof
  | scan c s => exact lexical_scan c s

/-- A token is read from the text at its first byte on. -/
theorem exists_readFrom (k : Cursor) (trivia : List Trivia) (s : List Char) :
    ∀ t ∈ tokensFrom k trivia s, ∃ pre r, s = pre ++ r ∧
      t.tile.first = k.place.offset + byteLength pre ∧ ReadFrom r t.kind t.text := by
  induction s using splits_induction generalizing k trivia with
  | nil s h =>
    obtain ⟨t, hkind, htext, hspan, hts⟩ := tokensFrom_of_dropIgnored_nil k trivia h
    rw [hts, List.forall_mem_singleton, hkind, htext]
    exact ⟨s, [], by simp, by simp [Tile.first, Token.tile, hspan], .eof⟩
  | cons s front kind c u rest h ih =>
    obtain ⟨t, hkind, htext, hspan, hts⟩ := h.exists_token k trivia
    rw [hts, List.forall_mem_cons]
    constructor
    · have hread := ReadFrom.scan c (u ++ rest)
      rw [h.scan] at hread
      rw [hkind, htext]
      exact ⟨front, c :: (u ++ rest), h.text, by simp [Tile.first, Token.tile, hspan], hread⟩
    · intro t ht
      obtain ⟨pre, r, rfl, hfirst, hread⟩ := ih _ _ t ht
      refine ⟨front ++ c :: u ++ pre, r, by simp [h.text], ?_, hread⟩
      simp only [hfirst, Cursor.offset_past, byteLength_append, Nat.add_assoc]

/-- Every token is the longest one that can be read from its start on. -/
theorem tokens_lexical (s : List Char) : ∀ t ∈ tokens s, Lexical (t.textFrom s) t.kind t.text := by
  intro t ht
  obtain ⟨pre, r, rfl, hfirst, hread⟩ := exists_readFrom .start [] s t ht
  have hfirst : t.tile.first = byteLength pre := by simpa [Cursor.start] using hfirst
  rw [Token.textFrom, hfirst, slice_to_end]
  exact hread.lexical

/-- Behind a comma, a float with an exponent ends in front of a point. -/
theorem tokens_lexical_float :
    ⟨.float, "-0.50E+7".toList, [.comma ⟨⟨0, 0, 0, 0⟩, ⟨0, 1, 1, 1⟩⟩],
        ⟨⟨0, 1, 1, 1⟩, ⟨0, 9, 9, 9⟩⟩⟩ ∈ tokens ",-0.50E+7.1".toList ∧
      Lexical "-0.50E+7.1".toList .float "-0.50E+7".toList := by
  have hmem : ⟨.float, "-0.50E+7".toList, [.comma ⟨⟨0, 0, 0, 0⟩, ⟨0, 1, 1, 1⟩⟩],
      ⟨⟨0, 1, 1, 1⟩, ⟨0, 9, 9, 9⟩⟩⟩ ∈ tokens ",-0.50E+7.1".toList := by decide +kernel
  exact ⟨hmem, tokens_lexical ",-0.50E+7.1".toList _ hmem⟩

end QueryDoc.Lexis
