import QueryDoc.Decimal.Notation
import QueryDoc.Grammar.Lexeme
import QueryDoc.Text.Blank
import QueryDoc.Text.Lines

/-!
# Values of literals

Integers fit 64 signed bits and floats are binary64. A string stands for its text with the escapes
replaced, and a block string for its lines without their common indent.
-/
namespace QueryDoc.Grammar

/-- Why a literal has no value. The common indent of a block string is counted in bytes, and it can
end inside a character of a line; such a literal stops the whole program. -/
inductive LiteralFault where
  | reason (r : Reason)
  | splitCharacter
  deriving DecidableEq, Repr

/-! ## Numbers -/

/-- Integers lie below this, and are at least its negative. -/
def intLimit : Nat := 0x8000000000000000

def intValue (text : List Char) : Except Reason Int :=
  let (negative, digits) := Decimal.splitSign text
  let magnitude := Decimal.ofDigits digits
  if negative then
    if magnitude ≤ intLimit then .ok (-(magnitude : Int)) else .error .intTooSmall
  else if magnitude < intLimit then .ok magnitude
  else .error .intTooLarge

def floatValue (text : List Char) : Except Reason Binary64 :=
  match Binary64.read? text with
  | some x => .ok x
  | none => .error .invalidFloat

/-! ## Strings -/

def hexDigit? (c : Char) : Option Nat :=
  if c.isDigit then some (c.toNat - '0'.toNat)
  else if 'a' ≤ c && c ≤ 'f' then some (c.toNat - 'a'.toNat + 10)
  else if 'A' ≤ c && c ≤ 'F' then some (c.toNat - 'A'.toNat + 10)
  else none

def hexNumber? (digits : List Char) : Option Nat :=
  digits.foldlM (fun n c => (hexDigit? c).map (16 * n + ·)) 0

/-- The character that four characters behind `\u` stand for. A plus may stand in front. -/
def codePoint? (text : List Char) : Option Char :=
  let digits := match text with
    | '+' :: digits => digits
    | digits => digits
  (hexNumber? digits).bind fun n => if n.isValidChar then some (Char.ofNat n) else none

/-- What a letter behind a backslash stands for, `\u` apart. -/
def unescapeLetter? : Char → Option Char
  | '"' => some '"'
  | '\\' => some '\\'
  | '/' => some '/'
  | 'b' => some '\u0010'
  | 'f' => some '\u000c'
  | 'n' => some '\n'
  | 'r' => some '\r'
  | 't' => some '\t'
  | _ => none

/-- The text that a string holds, from what stands between its quotes. -/
def unescape : List Char → Except Reason (List Char)
  | [] => .ok []
  | '\\' :: 'u' :: a :: b :: c :: d :: rest =>
    match codePoint? [a, b, c, d] with
    | some x => (unescape rest).map (x :: ·)
    | none => .error (.notCodePoint [a, b, c, d])
  | '\\' :: 'u' :: rest => .error (.shortEscape rest)
  | '\\' :: c :: rest =>
    match unescapeLetter? c with
    | some x => (unescape rest).map (x :: ·)
    | none => .error (.badEscape c)
  | c :: rest => (unescape rest).map (c :: ·)

/-- What stands between `n` quotes at either end. -/
def inner (n : Nat) (text : List Char) : List Char := (text.drop n).take (text.length - 2 * n)

def stringValue (text : List Char) : Except Reason String :=
  (unescape (inner 1 text)).map String.ofList

/-! ## Block strings -/

def byteLength : List Char → Nat
  | [] => 0
  | c :: s => c.utf8Size + byteLength s

/-- The bytes of the blank characters in front of a line, unless the line is blank. -/
def indent? (line : List Char) : Option Nat :=
  if Text.isBlankText line then none else some (byteLength (line.takeWhile Text.isBlank))

/-- Drops the first `n` bytes, if they are whole characters. -/
def dropBytes? : Nat → List Char → Option (List Char)
  | 0, s => some s
  | _ + 1, [] => none
  | n + 1, c :: s => if c.utf8Size ≤ n + 1 then dropBytes? (n + 1 - c.utf8Size) s else none

/-- Takes the indent off a line that is long enough. -/
def cutIndent? (indent : Option Nat) (line : List Char) : Option (List Char) :=
  match indent with
  | none => some line
  | some n => if n ≤ byteLength line then dropBytes? n line else some line

/-- Three quotes behind a backslash stand for three quotes. -/
def unescapeQuotes : List Char → List Char
  | '\\' :: '"' :: '"' :: '"' :: rest => '"' :: '"' :: '"' :: unescapeQuotes rest
  | c :: rest => c :: unescapeQuotes rest
  | [] => []

/-- Drops blank lines at both ends. -/
def trimLines (lines : List (List Char)) : List (List Char) :=
  ((lines.dropWhile Text.isBlankText).reverse.dropWhile Text.isBlankText).reverse

/-- The lines of a block string without their common indent. The first line has no indent of its own
and keeps all its characters. -/
def blockLines? : List (List Char) → Option (List (List Char))
  | [] => some []
  | first :: others =>
    let cut := cutIndent? (others.filterMap indent?).min?
    if Text.isBlankText first then (trimLines others).mapM cut
    else
      let kept := (others.reverse.dropWhile Text.isBlankText).reverse
      (kept.mapM cut).map (first :: ·)

def blockValue (text : List Char) : Except LiteralFault String :=
  match blockLines? (Text.lines (inner 3 text)) with
  | some lines => .ok (String.ofList (['\n'].intercalate (lines.map unescapeQuotes)))
  | none => .error .splitCharacter

end QueryDoc.Grammar
