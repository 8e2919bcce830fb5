import QueryDoc.Proofs.Lexis.Lexical
import QueryDoc.Proofs.Lexis.Position

/-!
# Strings and lines

A string on one line ends in front of the first line end, or takes it along and is at fault, unless
a backslash stands in front of it: a backslash takes the character behind it along, be it a quote or
a line end. So a string runs over no more lines than line ends are escaped in it
(`strings_on_their_lines`).
-/
namespace QueryDoc.Lexis

/-! ## Escaped characters -/

/-- A text without its escapes: each backslash takes the character behind it along. -/
def unescaped : List Char → List Char
  | [] => []
  | '\\' :: _ :: s => unescaped s
  | c :: s => c :: unescaped s

/-- The characters that stand behind the backslashes of escapes. -/
def escaped : List Char → List Char
  | [] => []
  | '\\' :: c :: s => c :: escaped s
  | _ :: s => escaped s

variable {c : Char} {s : List Char}

/-- A backslash escapes nothing only at the end of a text. -/
theorem eq_nil_of_not_escape (h : ∀ d r, c = '\\' → s = d :: r → False) : c = '\\' → s = [] := by
  intro hc
  cases s with
  | nil => rfl
  | cons d r => exact absurd rfl (h d r hc)

theorem unescaped_cons (h : c = '\\' → s = []) : unescaped (c :: s) = c :: unescaped s := by
  rw [unescaped]
  rintro d r rfl rfl
  cases h rfl

theorem escaped_cons (h : c = '\\' → s = []) : escaped (c :: s) = escaped s := by
  rw [escaped]
  rintro d r rfl rfl
  cases h rfl

theorem unescaped_sublist (s : List Char) : (unescaped s).Sublist s := by
  fun_induction unescaped s with
  | case1 => exact List.Sublist.refl []
  | case2 c s ih => exact (ih.cons c).cons _
  | case3 c s hback ih => exact ih.cons_cons c

theorem mem_unescaped_append {a b : List Char} (h : c ∈ unescaped (a ++ b)) :
    c ∈ unescaped a ∨ c ∈ b := by
  fun_induction unescaped a with
  | case1 => exact .inr ((unescaped_sublist b).subset h)
  | case2 d a ih => exact ih h
  | case3 d a hback ih =>
    by_cases hd : d = '\\' → a ++ b = []
    · rw [List.cons_append, unescaped_cons hd] at h
      rcases List.mem_cons.mp h with rfl | h
      · exact .inl List.mem_cons_self
      · exact (ih h).imp_left (List.mem_cons_of_mem d)
    · -- the text ends with a backslash, which escapes what stands behind it
      obtain ⟨rfl, -⟩ := Classical.not_imp.mp hd
      obtain rfl := eq_nil_of_not_escape hback rfl
      rcases List.mem_cons.mp ((unescaped_sublist _).subset h) with rfl | h
      · exact .inl List.mem_cons_self
      · exact .inr h

/-- What a text escapes, it escapes in front of any other text. -/
theorem escaped_append (a b : List Char) : escaped a <+: escaped (a ++ b) := by
  fun_induction escaped a with
  | case1 => exact List.nil_prefix
  | case2 c s ih => exact (List.prefix_cons_inj c).mpr ih
  | case3 c a hback ih =>
    by_cases hc : c = '\\' → a ++ b = []
    · rwa [List.cons_append, escaped_cons hc]
    · obtain ⟨rfl, -⟩ := Classical.not_imp.mp hc
      obtain rfl := eq_nil_of_not_escape hback rfl
      exact List.nil_prefix

/-- Every line end of a text stands in an escape or outside. -/
theorem countP_isLineEnd (s : List Char) : s.countP isLineEnd =
    (unescaped s).countP isLineEnd + (escaped s).countP isLineEnd := by
  fun_induction unescaped s with
  | case1 => rfl
  | case2 c s ih =>
    rw [escaped, List.countP_cons_of_neg (by decide), List.countP_cons, List.countP_cons, ih]
    exact Nat.add_assoc _ _ _
  | case3 c s hback ih =>
    rw [escaped_cons (eq_nil_of_not_escape hback), List.countP_cons, List.countP_cons, ih]
    exact Nat.add_right_comm _ _ _

/-! ## Scans -/

/-- Is it the kind of a string on one line that is not closed? -/
def Kind.isUnclosed : Kind → Bool
  | .error .openString | .error .brokenString => true
  | _ => false

/-- What a string ends with: a quote, the end of the text or a line end. -/
inductive Ending : Kind → List Char → Prop where
  | quote : Ending .string ['"']
  | text : Ending (.error .openString) []
  | cr : Ending (.error .brokenString) ['\r']
  | lf : Ending (.error .brokenString) ['\n']
  | crlf : Ending (.error .brokenString) ['\r', '\n']

/-- Only a quote or a line end that is not escaped ends a string in front of the end of the text. -/
theorem exists_ending (s : List Char) : ∃ body ending,
    (scanString s).text = body ++ ending ∧ Ending (scanString s).kind ending ∧
      ∀ c ∈ unescaped body, c ≠ '"' ∧ isLineEnd c = false := by
  fun_induction scanString s with
  | case1 => exact ⟨[], [], rfl, .text, by simp [unescaped]⟩
  | case2 s => exact ⟨[], _, rfl, .quote, by simp [unescaped]⟩
  | case3 s => exact ⟨[], _, rfl, .crlf, by simp [unescaped]⟩
  | case4 s => exact ⟨[], _, rfl, .cr, by simp [unescaped]⟩
  | case5 s => exact ⟨[], _, rfl, .lf, by simp [unescaped]⟩
  | case6 c s ih =>
    obtain ⟨body, ending, htext, hending, hbody⟩ := ih
    exact ⟨'\\' :: c :: body, ending, by simp [Scanned.behind, htext], hending, hbody⟩
  | case7 c s hquote hcrlf hreturn hfeed hback ih =>
    obtain ⟨body, ending, htext, hending, hbody⟩ := ih
    refine ⟨c :: body, ending, by simp [Scanned.behind, htext], hending, ?_⟩
    have hlast : c = '\\' → body = [] := by
      intro hc
      obtain rfl := eq_nil_of_not_escape hback hc
      exact (List.append_eq_nil_iff.mp htext.symm).1
    rw [unescaped_cons hlast, List.forall_mem_cons]
    have hquote : c ≠ '"' := hquote
    have hreturn : c ≠ '\r' := hreturn
    have hfeed : c ≠ '\n' := hfeed
    exact ⟨⟨hquote, by simp [isLineEnd, hreturn, hfeed]⟩, hbody⟩

/-! ## Tokens -/

/-- Is it a string on one line, closed or not? -/
def IsLineString (kind : Kind) (text : List Char) : Prop :=
  kind = .string ∧ ¬ quotes <+: text ∨ kind.isUnclosed = true

theorem isUnclosed_of_isNumeric {kind : Kind} (h : kind.isNumeric = true) :
    kind.isUnclosed = false := by
  unfold Kind.isNumeric at h
  split at h <;> first | rfl | cases h

theorem quote_of_isUnclosed (h : (scan c s).kind.isUnclosed = true) : c = '"' := by
  cases start c with
  | punctuator p hc => rw [scan_punctuator hc] at h; cases h
  | dot hc =>
    subst hc
    have h : (scanDots s).kind.isUnclosed = true := h
    unfold scanDots at h
    split at h <;> cases h
  | quote hc => exact hc
  | name hc =>
    have hk := nameKind_cases (c :: s.takeWhile isNameContinue)
    rw [scan_name hc] at h
    rcases hk with hk | hk | hk | hk <;> simp [scanName, hk, Kind.isUnclosed] at h
  | minus hc => simp [isUnclosed_of_isNumeric (isNumeric_scan (.inl hc) s)] at h
  | digit hc => simp [isUnclosed_of_isNumeric (isNumeric_scan (.inr hc) s)] at h
  | stray hc => rw [hc] at h; cases h

theorem exists_body {text : List Char} {kind : Kind} {r : List Char} (h : ReadFrom r kind text)
    (hline : IsLineString kind text) : ∃ body ending, text = '"' :: (body ++ ending) ∧
      Ending kind ending ∧ ∀ c ∈ unescaped body, c ≠ '"' ∧ isLineEnd c = false := by
  cases h with
  | eof => rcases hline with ⟨h, -⟩ | h <;> cases h
  | scan c s =>
    have hc : c = '"' := hline.elim (fun h => (begins_scan c s).string h.1) quote_of_isUnclosed
    subst hc
    have hscan : scan '"' s = scanQuote s := rfl
    rw [hscan] at hline ⊢
    have hne : ∀ r, s ≠ '"' :: '"' :: r := by
      rintro r rfl
      rcases hline with ⟨-, h⟩ | h
      · exact h (List.prefix_append quotes _)
      · rcases scanBlock_cases r with ⟨hk, -⟩ | ⟨hk, -⟩
        · simp [scanQuote, Scanned.behind, hk, Kind.isUnclosed] at h
        · simp [scanQuote, Scanned.behind, hk, Kind.isUnclosed] at h
    rw [scanQuote_of_ne hne]
    obtain ⟨body, ending, htext, hending, hbody⟩ := exists_ending s
    exact ⟨body, ending, by simp [Scanned.behind, htext], hending, hbody⟩

/-! ## Lines -/

theorem lineEnds_append_le (a b : List Char) : lineEnds (a ++ b) ≤ lineEnds a + lineEnds b := by
  induction a with
  | nil => simp
  | cons c a ih =>
    have hhead : (a ++ b).head? ≠ some '\n' → a.head? ≠ some '\n' := by
      cases a with
      | nil => exact fun _ h => by cases h
      | cons d a => exact id
    rw [List.cons_append, lineEnds, lineEnds]
    split
    · rename_i h
      rw [if_pos (h.imp_right (And.imp_right hhead))]
      omega
    · omega

theorem lineEnds_le_countP (s : List Char) : lineEnds s ≤ s.countP isLineEnd := by
  induction s with
  | nil => rfl
  | cons c s ih =>
    rw [lineEnds, List.countP_cons]
    split
    · rename_i h
      have hc : isLineEnd c = true := by
        rcases h with rfl | ⟨rfl, -⟩ <;> rfl
      rw [if_pos hc]
      exact Nat.add_le_add_right ih 1
    · omega

/-- Where the line ends of a string's token stand: none in `view` of its text, but an unclosed one
may end with one. -/
structure OnLine (view : List Char → List Char) (t : Token) : Prop where
  closed : t.kind = .string → ¬ quotes <+: t.text → ∀ c ∈ view t.text, isLineEnd c = false
  unclosed : t.kind.isUnclosed = true → ∃ body ending, t.text = body ++ ending ∧
    ending ∈ [[], ['\n'], ['\r'], ['\r', '\n']] ∧ ∀ c ∈ view body, isLineEnd c = false

/-- A string's token runs over no more lines than line ends are escaped in it; an unclosed one may
go on to the start of the next line. -/
structure EndsOnLine (t : Token) : Prop where
  closed : t.kind = .string → ¬ quotes <+: t.text →
    t.span.last.line ≤ t.span.first.line + (escaped t.text).countP isLineEnd
  unclosed : t.kind.isUnclosed = true →
    t.span.last.line ≤ t.span.first.line + (escaped t.text).countP isLineEnd ∨
      t.span.last.line ≤ t.span.first.line + (escaped t.text).countP isLineEnd + 1 ∧
        t.span.last.column = 0

theorem Ending.of_string {ending : List Char} (h : Ending .string ending) : ending = ['"'] := by
  cases h
  rfl

theorem Ending.mem_of_isUnclosed {kind : Kind} {ending : List Char} (h : Ending kind ending)
    (hk : kind.isUnclosed = true) : ending ∈ [[], ['\n'], ['\r'], ['\r', '\n']] := by
  cases h with
  | quote => cases hk
  | text | cr | lf | crlf => simp

theorem unescaped_quote_cons (s : List Char) : unescaped ('"' :: s) = '"' :: unescaped s :=
  unescaped_cons (fun h => absurd h (by decide))

theorem onLine {t : Token} {r : List Char} (h : ReadFrom r t.kind t.text) : OnLine unescaped t where
  closed hk hq := by
    obtain ⟨body, ending, htext, hending, hbody⟩ := exists_body h (.inl ⟨hk, hq⟩)
    rw [hk] at hending
    obtain rfl := hending.of_string
    rw [htext, unescaped_quote_cons, List.forall_mem_cons]
    refine ⟨rfl, fun c hc => ?_⟩
    rcases mem_unescaped_append hc with hc | hc
    · exact (hbody c hc).2
    · rw [List.mem_singleton.mp hc]
      rfl
  unclosed hk := by
    obtain ⟨body, ending, htext, hending, hbody⟩ := exists_body h (.inr hk)
    refine ⟨'"' :: body, ending, htext, hending.mem_of_isUnclosed hk, ?_⟩
    rw [unescaped_quote_cons, List.forall_mem_cons]
    exact ⟨rfl, fun c hc => (hbody c hc).2⟩

theorem lineEnds_le_escaped (h : ∀ c ∈ unescaped s, isLineEnd c = false) :
    lineEnds s ≤ (escaped s).countP isLineEnd := by
  have hnone : (unescaped s).countP isLineEnd = 0 := by
    rw [List.countP_eq_zero]
    intro c hc
    simp [h c hc]
  have hle := lineEnds_le_countP s
  rw [countP_isLineEnd, hnone, Nat.zero_add] at hle
  exact hle

/-- Behind a text that ends with one line end, its next line starts. -/
theorem behind_of_ending (front body : List Char) {ending : List Char}
    (h : ending ∈ [['\n'], ['\r'], ['\r', '\n']]) :
    lineEnds ending = 1 ∧ (Place.behind (front ++ (body ++ ending))).column = 0 := by
  have hlast : ∃ c, ending.getLast? = some c ∧ isLineEnd c = true ∧ lineEnds ending = 1 := by
    simp only [List.mem_cons, List.not_mem_nil, or_false] at h
    rcases h with rfl | rfl | rfl
    · exact ⟨'\n', rfl, rfl, rfl⟩
    · exact ⟨'\r', rfl, rfl, rfl⟩
    · exact ⟨'\n', rfl, rfl, rfl⟩
  obtain ⟨c, hc, hend, hone⟩ := hlast
  refine ⟨hone, ?_⟩
  have hall : (front ++ (body ++ ending)).getLast? = some c := by
    rw [← List.append_assoc, List.getLast?_append, hc]
    rfl
  rw [Place.behind, lastLine_of_getLast? hall hend]
  rfl

theorem line_behind (s : List Char) : (Place.behind s).line = lineEnds s := rfl

theorem OnLine.endsOnLine {t : Token} {front : List Char} (h : OnLine unescaped t)
    (hspan : t.span = ⟨.behind front, .behind (front ++ t.text)⟩) : EndsOnLine t where
  closed hk hq := by
    have hle := lineEnds_append_le front t.text
    have hescaped := lineEnds_le_escaped (h.closed hk hq)
    simp only [hspan, line_behind]
    exact hle.trans (Nat.add_le_add_left hescaped _)
  unclosed hk := by
    obtain ⟨body, ending, htext, hending, hbody⟩ := h.unclosed hk
    have hescaped : lineEnds body ≤ (escaped t.text).countP isLineEnd := by
      rw [htext]
      exact (lineEnds_le_escaped hbody).trans (escaped_append body ending).sublist.countP_le
    have hfront := lineEnds_append_le front t.text
    have hparts : lineEnds t.text ≤ lineEnds body + lineEnds ending := by
      rw [htext]
      exact lineEnds_append_le body ending
    simp only [hspan, line_behind]
    rcases List.mem_cons.mp hending with rfl | hending
    · have hnone : lineEnds [] = 0 := rfl
      exact .inl (by omega)
    · right
      obtain ⟨hone, hcolumn⟩ := behind_of_ending front body hending
      rw [← htext] at hcolumn
      exact ⟨by omega, hcolumn⟩

/-- A string on one line has LF and CR only behind the backslashes of escapes; one that is not
closed may also end with one line end. So it goes on over a line end only if a backslash takes that
along. -/
theorem strings_on_their_lines (s : List Char) :
    ∀ t ∈ tokens s, OnLine unescaped t ∧ EndsOnLine t := by
  intro t ht
  obtain ⟨-, r, -, -, hread⟩ := exists_readFrom .start [] s t ht
  obtain ⟨front, -, -, hspan⟩ := (laid_tiles s).exists_span (tile_mem_tiles ht)
  rw [List.nil_append, spanBehind_eq] at hspan
  exact ⟨onLine hread, (onLine hread).endsOnLine hspan⟩

/-- A string that goes on behind an escaped LF and is broken by a CRLF ends on the third line. -/
theorem string_on_its_lines_escaped :
    ∃ t ∈ tokens "\"a\\\nb\r\nc".toList, t.text = "\"a\\\nb\r\n".toList ∧
      t.span.last = ⟨2, 0, 0, 7⟩ ∧ OnLine unescaped t ∧ EndsOnLine t := by
  have hmem : ⟨.error .brokenString, "\"a\\\nb\r\n".toList, [], ⟨⟨0, 0, 0, 0⟩, ⟨2, 0, 0, 7⟩⟩⟩ ∈
      tokens "\"a\\\nb\r\nc".toList := by decide +kernel
  exact ⟨_, hmem, rfl, rfl, strings_on_their_lines _ _ hmem⟩

/-- Not all of a string's text is on one line: an escaped LF stands in it. -/
theorem not_onLine_escaped : ¬ ∀ s, ∀ t ∈ tokens s, OnLine id t := by
  intro h
  have hmem : ⟨.string, "\"a\\\nb\"".toList, [], ⟨⟨0, 0, 0, 0⟩, ⟨1, 2, 2, 6⟩⟩⟩ ∈
      tokens "\"a\\\nb\"".toList := by decide +kernel
  have hfeed := (h _ _ hmem).closed rfl (by decide) '\n' (by decide)
  exact absurd hfeed (by decide)

end QueryDoc.Lexis
