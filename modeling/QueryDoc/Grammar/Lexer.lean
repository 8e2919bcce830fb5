import QueryDoc.Grammar.Lexeme
import QueryDoc.Text.Scanned

/-!
# Reading lexemes

Ignored text is skipped in front of the first lexeme and right behind each, so the end of the text
lies behind all of it. Opening brackets use up a budget of nesting, and closing ones give back to it
without an upper bound. `source_scan?` says that scanning a lexeme loses nothing.
-/
namespace QueryDoc.Grammar

open QueryDoc.Ast (Position)

/-! ## Positions -/

def start : Position := ⟨1, 1⟩

def nextLine (p : Position) : Position := ⟨p.line + 1, 1⟩

def right (columns : Nat) (p : Position) : Position := ⟨p.line, p.column + columns⟩

/-- The position behind the text of a lexeme: a line feed ends a line, and any other character is
one column. -/
def past (p : Position) (text : List Char) : Position :=
  text.foldl (fun p c => if c == '\n' then nextLine p else right 1 p) p

/-! ## Ignored text -/

/-- The first lexeme's position, and the text from there on. A tab is eight columns wide, and CR and
U+FEFF none. A comment ends at the first CR or LF, which starts a line; one that does not end moves
nothing. -/
def skipIgnored (p : Position) (inComment : Bool) : List Char → Position × List Char
  | [] => (p, [])
  | c :: rest =>
    if inComment then
      if c == '\n' || c == '\r' then skipIgnored (nextLine p) false rest
      else skipIgnored p true rest
    else if c == '\n' then skipIgnored (nextLine p) false rest
    else if c == ' ' || c == ',' then skipIgnored (right 1 p) false rest
    else if c == '\t' then skipIgnored (right 8 p) false rest
    else if c == '\r' || c == '\uFEFF' then skipIgnored p false rest
    else if c == '#' then skipIgnored p true rest
    else (p, c :: rest)

theorem length_skipIgnored (p : Position) (inComment : Bool) (s : List Char) :
    (skipIgnored p inComment s).2.length ≤ s.length := by
  fun_induction skipIgnored p inComment s <;> simp_all <;> omega

/-! ## Numbers -/

/-- Does the character end a number? -/
def isDelimiter (c : Char) : Bool :=
  c == ' ' || c == '\n' || c == '\r' || c == '\t' || c == ',' || c == '#' ||
    (Punctuator.ofChar? c).isSome

/-- Zero alone or digits that start with another one, either behind a minus or not. -/
def isIntText : List Char → Bool
  | ['0'] => true
  | ['-', '0'] => true
  | '-' :: d :: rest => d != '0' && (d :: rest).all Char.isDigit
  | ['-'] => false
  | c :: rest => c != '0' && (c :: rest).all Char.isDigit
  | [] => false

def isFractionText (s : List Char) : Bool := !s.isEmpty && s.all Char.isDigit

/-- What follows the mark of an exponent: a sign or a digit from 1 to 8, and then any digits. -/
def isExponentText : List Char → Bool
  | [] => false
  | c :: rest => (c == '+' || c == '-' || ('1' ≤ c && c ≤ '8')) && rest.all Char.isDigit

/-- Splits a text at the last character that satisfies `p`, which is dropped. -/
def splitLast? (p : Char → Bool) (s : List Char) : Option (List Char × List Char) :=
  let back := s.reverse
  match back.dropWhile (!p ·) with
  | [] => none
  | _ :: front => some (front.reverse, (back.takeWhile (!p ·)).reverse)

def isExponentMark (c : Char) : Bool := c == 'e' || c == 'E'

/-- An integer part with a fraction, an exponent or both. The parts are found at the last point and
the last mark, of which the mark comes second. -/
def isFloatText (s : List Char) : Bool :=
  match splitLast? isExponentMark s with
  | some (front, exponent) =>
    isExponentText exponent &&
      match splitLast? (· == '.') front with
      | some (whole, fraction) => isIntText whole && isFractionText fraction
      | none => isIntText front
  | none =>
    match splitLast? (· == '.') s with
    | some (whole, fraction) => isIntText whole && isFractionText fraction
    | none => false

/-- A text with a point or the mark of an exponent is meant as a float. -/
def looksFloat (s : List Char) : Bool := s.any fun c => c == '.' || isExponentMark c

def scanNumber? (c : Char) (rest : List Char) : Except Reason (Scanned Category) :=
  let text := c :: rest.takeWhile (!isDelimiter ·)
  let behind := rest.dropWhile (!isDelimiter ·)
  if looksFloat text then
    if isFloatText text then .ok ⟨.float, text, behind⟩ else .error (.badFloat text)
  else if isIntText text then .ok ⟨.int, text, behind⟩
  else .error (.badInt text)

/-! ## Strings -/

/-- Behind the opening quote of a string. A backslash escapes the character behind it, but a line
feed ends the attempt even so. -/
def scanString? (escaped : Bool) : List Char → Option (Scanned Category)
  | [] => none
  | c :: rest =>
    if c == '"' && !escaped then some ⟨.string, [c], rest⟩
    else if c == '\n' then none
    else (scanString? (!escaped && c == '\\') rest).map (Scanned.behind [c])

/-- Behind the opening quotes of a block string. Three quotes close it unless the character in front
of them is a backslash. -/
def scanBlock? (afterBackslash : Bool) : List Char → Option (Scanned Category)
  | [] => none
  | '"' :: '"' :: '"' :: rest =>
    if afterBackslash then (scanBlock? false rest).map (Scanned.behind ['"', '"', '"'])
    else some ⟨.block, ['"', '"', '"'], rest⟩
  | c :: rest => (scanBlock? (c == '\\') rest).map (Scanned.behind [c])

/-- Behind the first quote of a string of either form. -/
def scanQuote? : List Char → Except Reason (Scanned Category)
  | '"' :: '"' :: rest =>
    match scanBlock? false rest with
    | some s => .ok (s.behind ['"', '"', '"'])
    | none => .error .openBlock
  | rest =>
    match scanString? false rest with
    | some s => .ok (s.behind ['"'])
    | none => .error .openString

/-! ## Any lexeme -/

def scanDots? : List Char → Except Reason (Scanned Category)
  | '.' :: '.' :: rest => .ok ⟨.punctuator .spread, ['.', '.', '.'], rest⟩
  | _ => .error .bareDot

/-- The lexeme that starts with `c`, a character that is not ignored. -/
def scan? (c : Char) (rest : List Char) : Except Reason (Scanned Category) :=
  match Punctuator.ofChar? c with
  | some p => .ok ⟨.punctuator p, [c], rest⟩
  | none =>
    if c == '.' then scanDots? rest
    else if c == '"' then scanQuote? rest
    else if isNameStart c then .ok (.extend .name [c] isNameContinue rest)
    else if c == '-' || c.isDigit then scanNumber? c rest
    else .error (.strayCharacter c)

theorem source_scanString? {escaped : Bool} {rest : List Char} {s : Scanned Category}
    (h : scanString? escaped rest = some s) : s.source = rest := by
  induction rest generalizing escaped s with
  | nil => simp [scanString?] at h
  | cons c rest ih =>
    unfold scanString? at h
    split at h
    · cases h; simp
    · split at h
      · cases h
      · obtain ⟨t, ht, rfl⟩ := Option.map_eq_some_iff.mp h
        simp [ih ht]

theorem source_scanBlock? {afterBackslash : Bool} {rest : List Char} {s : Scanned Category}
    (h : scanBlock? afterBackslash rest = some s) : s.source = rest := by
  fun_induction scanBlock? afterBackslash rest generalizing s with
  | case1 => cases h
  | case2 rest ih =>
    obtain ⟨t, ht, rfl⟩ := Option.map_eq_some_iff.mp h
    simp [ih ht]
  | case3 => cases h; simp
  | case4 c rest _ _ ih =>
    obtain ⟨t, ht, rfl⟩ := Option.map_eq_some_iff.mp h
    simp [ih ht]

theorem source_scanQuote? {rest : List Char} {s : Scanned Category}
    (h : scanQuote? rest = .ok s) : s.source = '"' :: rest := by
  unfold scanQuote? at h
  split at h
  · split at h
    · cases h; simp [source_scanBlock? (by assumption)]
    · cases h
  · split at h
    · cases h; simp [source_scanString? (by assumption)]
    · cases h

/-- Scanning loses nothing. -/
theorem source_scan? {c : Char} {rest : List Char} {s : Scanned Category}
    (h : scan? c rest = .ok s) : s.source = c :: rest := by
  unfold scan? at h
  split at h
  · cases h; simp
  · simp only [beq_iff_eq] at h
    split at h
    · unfold scanDots? at h
      split at h
      · cases h; simp_all
      · cases h
    · split at h
      · rw [source_scanQuote? h]; simp_all
      · split at h
        · cases h; simp
        · split at h
          · unfold scanNumber? at h
            simp only at h
            repeat' split at h
            all_goals cases h
            all_goals simp
          · cases h

/-- No lexeme is empty. -/
theorem text_scan?_ne_nil {c : Char} {rest : List Char} {s : Scanned Category}
    (h : scan? c rest = .ok s) : s.text ≠ [] := by
  unfold scan? at h
  split at h
  · cases h; simp
  · split at h
    · unfold scanDots? at h
      split at h
      · cases h; simp
      · cases h
    · split at h
      · unfold scanQuote? at h
        repeat' split at h
        all_goals cases h
        all_goals simp
      · split at h
        · cases h; simp [Scanned.extend]
        · split at h
          · unfold scanNumber? at h
            simp only at h
            repeat' split at h
            all_goals cases h
            all_goals simp
          · cases h

theorem length_rest_scan? {c : Char} {rest : List Char} {s : Scanned Category}
    (h : scan? c rest = .ok s) : s.rest.length < (c :: rest).length := by
  rw [← source_scan? h]
  exact Scanned.length_rest_lt (text_scan?_ne_nil h)

/-! ## All lexemes -/

/-- How many brackets may be open at once. -/
def nestingBudget : Nat := 50

/-- What is left of the budget behind a lexeme, if it suffices. -/
def spend? (budget : Nat) : Category → Option Nat
  | .punctuator .parenOpen | .punctuator .squareOpen | .punctuator .braceOpen =>
    if budget = 0 then none else some (budget - 1)
  | .punctuator .parenClose | .punctuator .squareClose | .punctuator .braceClose =>
    some (budget + 1)
  | _ => some budget

/-- The lexemes of a text from a position on, and where they end. -/
def lexemesFrom (budget : Nat) (p : Position) (s : List Char) : List Lexeme × Ending :=
  match _h : skipIgnored p false s with
  | (q, []) => ([], ⟨q, none⟩)
  | (q, c :: rest) =>
    match _hs : scan? c rest with
    | .error reason => ([], ⟨q, some reason⟩)
    | .ok scanned =>
      match spend? budget scanned.kind with
      | none => ([], ⟨q, some .nestingLimit⟩)
      | some left =>
        let (ls, ending) := lexemesFrom left (past q scanned.text) scanned.rest
        (⟨scanned.kind, scanned.text, q⟩ :: ls, ending)
termination_by s.length
decreasing_by
  have h := length_skipIgnored p false s
  rw [_h] at h
  exact Nat.lt_of_lt_of_le (length_rest_scan? _hs) h

def lexemes (s : List Char) : List Lexeme × Ending := lexemesFrom nestingBudget start s

end QueryDoc.Grammar
