import QueryDoc.Lexis.Token
import QueryDoc.Text.Scanned

/-!
# Reading tokens

Space, tab, LF, CR and U+FEFF are skipped; commas and comments are kept as trivia. Everything else
starts a token: the scanners below split a text into the token's text and the rest, and
`source_scan` says that nothing is lost between the two. Since no token is empty, the rest gets
shorter and reading ends.
-/
namespace QueryDoc.Lexis

def isSkipped (c : Char) : Bool :=
  c == ' ' || c == '\t' || c == '\n' || c == '\r' || c == '\uFEFF'

def isLineEnd (c : Char) : Bool := c == '\n' || c == '\r'

/-! ## Dots and names -/

/-- Three dots are a spread; a shorter run is a fault. The first dot has been read. -/
def scanDots : List Char → Scanned Kind
  | '.' :: '.' :: rest => ⟨.punctuator .spread, ['.', '.', '.'], rest⟩
  | '.' :: rest => ⟨.error (.dots 2), ['.', '.'], rest⟩
  | rest => ⟨.error (.dots 1), ['.'], rest⟩

def nameKind (text : List Char) : Kind :=
  if text == "true".toList then .boolean true
  else if text == "false".toList then .boolean false
  else if text == "null".toList then .null
  else .name

def scanName (c : Char) (rest : List Char) : Scanned Kind :=
  let text := c :: rest.takeWhile isNameContinue
  ⟨nameKind text, text, rest.dropWhile isNameContinue⟩

/-! ## Numbers -/

def isNumberPart (c : Char) : Bool :=
  c.isDigit || c == '.' || c == 'e' || c == 'E' || c == '+' || c == '-'

/-- A faulty number takes everything that looks like part of a number. -/
def numberFault (fault : Fault) (text rest : List Char) : Scanned Kind :=
  .extend (.error fault) text isNumberPart rest

/-- Behind the mark of an exponent and its sign: one digit at least. -/
def scanExponentDigits (text : List Char) : List Char → Scanned Kind
  | d :: rest =>
    if d.isDigit then .extend .float (text ++ [d]) Char.isDigit rest
    else numberFault .emptyExponent text (d :: rest)
  | [] => numberFault .emptyExponent text []

/-- Behind the mark of an exponent: a sign, if any, and digits. -/
def scanExponentSign (text : List Char) : List Char → Scanned Kind
  | '+' :: rest => scanExponentDigits (text ++ ['+']) rest
  | '-' :: rest => scanExponentDigits (text ++ ['-']) rest
  | rest => scanExponentDigits text rest

/-- Behind the digits of a number, which is of the given kind if no exponent follows. -/
def scanExponent (kind : Kind) (text : List Char) : List Char → Scanned Kind
  | 'e' :: rest => scanExponentSign (text ++ ['e']) rest
  | 'E' :: rest => scanExponentSign (text ++ ['E']) rest
  | rest => ⟨kind, text, rest⟩

/-- Behind the integer part: a point counts only if a digit follows it. -/
def scanFraction (text : List Char) : List Char → Scanned Kind
  | '.' :: d :: rest =>
    if d.isDigit then
      scanExponent .float (text ++ '.' :: d :: rest.takeWhile Char.isDigit)
        (rest.dropWhile Char.isDigit)
    else ⟨.int, text, '.' :: d :: rest⟩
  | rest => scanExponent .int text rest

/-- Behind the sign, if any: zero alone, or digits that start with another one. -/
def scanInteger (sign : List Char) : List Char → Scanned Kind
  | '0' :: d :: rest =>
    if d.isDigit then numberFault .leadingZero (sign ++ ['0']) (d :: rest)
    else scanFraction (sign ++ ['0']) (d :: rest)
  | c :: rest =>
    if c.isDigit then
      scanFraction (sign ++ c :: rest.takeWhile Char.isDigit) (rest.dropWhile Char.isDigit)
    else ⟨.error .loneMinus, sign, c :: rest⟩
  | [] => ⟨.error .loneMinus, sign, []⟩

/-! ## Strings -/

/-- Behind the opening quote of a string: the kind of the token, its text and the rest. A backslash
takes the character behind it along, whatever it is. -/
def scanString : List Char → Scanned Kind
  | [] => ⟨.error .openString, [], []⟩
  | '"' :: rest => ⟨.string, ['"'], rest⟩
  | '\r' :: '\n' :: rest => ⟨.error .brokenString, ['\r', '\n'], rest⟩
  | '\r' :: rest => ⟨.error .brokenString, ['\r'], rest⟩
  | '\n' :: rest => ⟨.error .brokenString, ['\n'], rest⟩
  | '\\' :: c :: rest => (scanString rest).behind ['\\', c]
  | c :: rest => (scanString rest).behind [c]

/-- Behind the opening quotes of a block string. Three quotes behind a backslash do not close it. -/
def scanBlock : List Char → Scanned Kind
  | [] => ⟨.error .openBlock, [], []⟩
  | '\\' :: '"' :: '"' :: '"' :: rest => (scanBlock rest).behind ['\\', '"', '"', '"']
  | '"' :: '"' :: '"' :: rest => ⟨.string, ['"', '"', '"'], rest⟩
  | c :: rest => (scanBlock rest).behind [c]

/-- Behind the first quote of a string of either form. -/
def scanQuote : List Char → Scanned Kind
  | '"' :: '"' :: rest => (scanBlock rest).behind ['"', '"', '"']
  | rest => (scanString rest).behind ['"']

/-! ## Any token -/

/-- The token that starts with `c`, a character that is neither skipped nor trivia. -/
def scan (c : Char) (rest : List Char) : Scanned Kind :=
  match Punctuator.ofChar? c with
  | some p => ⟨.punctuator p, [c], rest⟩
  | none =>
    if c == '.' then scanDots rest
    else if c == '"' then scanQuote rest
    else if isNameStart c then scanName c rest
    else if c == '-' then scanInteger ['-'] rest
    else if c.isDigit then scanInteger [] (c :: rest)
    else ⟨.error (.stray c), [c], rest⟩

@[simp] theorem source_numberFault (fault : Fault) (text rest : List Char) :
    (numberFault fault text rest).source = text ++ rest := by simp [numberFault]

@[simp] theorem source_scanDots (rest : List Char) : (scanDots rest).source = '.' :: rest := by
  unfold scanDots; split <;> simp

@[simp] theorem source_scanName (c : Char) (rest : List Char) :
    (scanName c rest).source = c :: rest := by simp [scanName]

@[simp] theorem source_scanExponentDigits (text rest : List Char) :
    (scanExponentDigits text rest).source = text ++ rest := by
  unfold scanExponentDigits; split
  · split <;> simp
  · simp

@[simp] theorem source_scanExponentSign (text rest : List Char) :
    (scanExponentSign text rest).source = text ++ rest := by
  unfold scanExponentSign; split <;> simp

@[simp] theorem source_scanExponent (kind : Kind) (text rest : List Char) :
    (scanExponent kind text rest).source = text ++ rest := by
  unfold scanExponent; split <;> simp

@[simp] theorem source_scanFraction (text rest : List Char) :
    (scanFraction text rest).source = text ++ rest := by
  unfold scanFraction; split
  · split <;> simp
  · simp

@[simp] theorem source_scanInteger (sign rest : List Char) :
    (scanInteger sign rest).source = sign ++ rest := by
  unfold scanInteger; split
  · split <;> simp
  · split <;> simp
  · simp

@[simp] theorem source_scanString (rest : List Char) : (scanString rest).source = rest := by
  fun_induction scanString rest <;> simp_all

@[simp] theorem source_scanBlock (rest : List Char) : (scanBlock rest).source = rest := by
  fun_induction scanBlock rest <;> simp_all

@[simp] theorem source_scanQuote (rest : List Char) : (scanQuote rest).source = '"' :: rest := by
  unfold scanQuote; split <;> simp

/-- Scanning loses nothing. -/
@[simp] theorem source_scan (c : Char) (rest : List Char) : (scan c rest).source = c :: rest := by
  unfold scan
  split
  · simp
  · simp only [beq_iff_eq]
    repeat' split
    all_goals simp_all

/-! ## Progress -/

theorem prefix_text_scanExponentDigits (text rest : List Char) :
    text <+: (scanExponentDigits text rest).text := by
  unfold scanExponentDigits
  split
  · split
    · exact (List.prefix_append _ _).trans (Scanned.prefix_text_extend _ _ _ _)
    · exact Scanned.prefix_text_extend _ _ _ _
  · exact Scanned.prefix_text_extend _ _ _ _

theorem prefix_text_scanExponentSign (text rest : List Char) :
    text <+: (scanExponentSign text rest).text := by
  unfold scanExponentSign
  split
  · exact (List.prefix_append _ _).trans (prefix_text_scanExponentDigits _ _)
  · exact (List.prefix_append _ _).trans (prefix_text_scanExponentDigits _ _)
  · exact prefix_text_scanExponentDigits _ _

theorem prefix_text_scanExponent (kind : Kind) (text rest : List Char) :
    text <+: (scanExponent kind text rest).text := by
  unfold scanExponent
  split
  · exact (List.prefix_append _ _).trans (prefix_text_scanExponentSign _ _)
  · exact (List.prefix_append _ _).trans (prefix_text_scanExponentSign _ _)
  · exact List.prefix_rfl

theorem prefix_text_scanFraction (text rest : List Char) :
    text <+: (scanFraction text rest).text := by
  unfold scanFraction
  split
  · split
    · exact (List.prefix_append _ _).trans (prefix_text_scanExponent _ _ _)
    · exact List.prefix_rfl
  · exact prefix_text_scanExponent _ _ _

theorem prefix_text_scanInteger (sign rest : List Char) :
    sign <+: (scanInteger sign rest).text := by
  unfold scanInteger
  split
  · split
    · exact (List.prefix_append _ _).trans (Scanned.prefix_text_extend _ _ _ _)
    · exact (List.prefix_append _ _).trans (prefix_text_scanFraction _ _)
  · split
    · exact (List.prefix_append _ _).trans (prefix_text_scanFraction _ _)
    · exact List.prefix_rfl
  · exact List.prefix_rfl

theorem text_scanInteger_ne_nil {d : Char} (h : d.isDigit = true) (rest : List Char) :
    (scanInteger [] (d :: rest)).text ≠ [] := by
  unfold scanInteger
  split
  · split
    · simp [numberFault, Scanned.extend]
    · exact List.IsPrefix.ne_nil (prefix_text_scanFraction _ _) (by simp)
  · simp_all
    exact List.IsPrefix.ne_nil (prefix_text_scanFraction _ _) (by simp)
  · simp_all

/-- No token is empty. -/
theorem text_scan_ne_nil (c : Char) (rest : List Char) : (scan c rest).text ≠ [] := by
  unfold scan
  split
  · simp
  · split
    · unfold scanDots; split <;> simp
    · split
      · unfold scanQuote; split <;> simp [Scanned.behind]
      · split
        · simp [scanName]
        · split
          · exact List.IsPrefix.ne_nil (prefix_text_scanInteger _ _) (by simp)
          · split
            · exact text_scanInteger_ne_nil (by assumption) _
            · simp

theorem length_rest_scan (c : Char) (rest : List Char) :
    (scan c rest).rest.length ≤ rest.length := by
  have h := Scanned.length_rest_lt (text_scan_ne_nil c rest)
  rw [source_scan, List.length_cons] at h
  exact Nat.le_of_lt_succ h

/-! ## All tokens -/

/-- The tokens of the text at a cursor; `trivia` has been read since the last token. -/
def tokensFrom (k : Cursor) (trivia : List Trivia) : List Char → List Token
  | [] => [⟨.eof, [], trivia, ⟨k.place, k.place⟩⟩]
  | c :: rest =>
    let after := k.advance c
    if isSkipped c then tokensFrom after trivia rest
    else if c == ',' then tokensFrom after (trivia ++ [.comma ⟨k.place, after.place⟩]) rest
    else if c == '#' then
      let text := rest.takeWhile (!isLineEnd ·)
      let behind := after.past text
      tokensFrom behind (trivia ++ [.comment text ⟨k.place, behind.place⟩])
        (rest.dropWhile (!isLineEnd ·))
    else
      let s := scan c rest
      let behind := k.past s.text
      ⟨s.kind, s.text, trivia, ⟨k.place, behind.place⟩⟩ :: tokensFrom behind [] s.rest
termination_by s => s.length
decreasing_by
  · simp
  · simp
  · exact Nat.lt_succ_of_le (List.dropWhile_sublist _).length_le
  · exact Nat.lt_succ_of_le (length_rest_scan c rest)

/-- All tokens of a text, the end last. -/
def tokens (s : List Char) : List Token := tokensFrom .start [] s

end QueryDoc.Lexis
