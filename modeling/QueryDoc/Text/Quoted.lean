import QueryDoc.Text.Hidden

/-!
# Quoted text

A quoted text stands between two quotes; the quote, the backslash and every hidden character
inside are written as escapes. A hidden character without a letter of its own is written with its
code point in hexadecimal between braces.
-/
namespace QueryDoc.Text

/-- The letter that stands for a character behind a backslash. -/
def escapeLetter? : Char → Option Char
  | '\x00' => some '0'
  | '\t' => some 't'
  | '\n' => some 'n'
  | '\r' => some 'r'
  | '\\' => some '\\'
  | _ => none

/-- A code point between braces, as in `\u{a0}`. -/
def bracedEscape (c : Char) : List Char :=
  ['\\', 'u', '\x7b'] ++ Nat.toDigits 16 c.toNat ++ ['\x7d']

/-- One character of a text that stands between two `quote`s. -/
def escaped (quote c : Char) : List Char :=
  match escapeLetter? c with
  | some l => ['\\', l]
  | none => if c == quote then ['\\', c] else if isHidden c then bracedEscape c else [c]

def quotedWith (quote : Char) (s : List Char) : String :=
  String.ofList (quote :: s.flatMap (escaped quote) ++ [quote])

def quoted (s : String) : String := quotedWith '"' s.toList

def quotedChar (c : Char) : String := quotedWith '\'' [c]

end QueryDoc.Text
