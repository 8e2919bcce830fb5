import QueryDoc.Lexis.Place
import QueryDoc.Punctuator
import QueryDoc.Text.Quoted

/-!
# Tokens

A token keeps the text it was read from, the span of that text, and the ignored comments and commas
in front of it. Text that is no token becomes an error token with the reason as its fault, and the
last token of every text is the end.
-/
namespace QueryDoc.Lexis

/-- Why a piece of text is no token. -/
inductive Fault where
  | dots (count : Nat)
  | loneMinus
  | leadingZero
  | emptyExponent
  | openString
  | brokenString
  | openBlock
  | stray (c : Char)
  deriving DecidableEq, Repr

inductive Kind where
  | punctuator (p : Punctuator)
  | name
  | int
  | float
  | string
  | boolean (value : Bool)
  | null
  | error (fault : Fault)
  | eof
  deriving DecidableEq, Repr

namespace Kind

def isPunctuator : Kind → Bool
  | punctuator _ => true
  | _ => false

def isValue : Kind → Bool
  | int | float | string | boolean _ | null => true
  | _ => false

def isError : Kind → Bool
  | error _ => true
  | _ => false

def nesting : Kind → Int
  | punctuator p => p.nesting
  | _ => 0

end Kind

/-- Ignored text that is kept with the token behind it. A comment's text starts behind its `#`. -/
inductive Trivia where
  | comment (text : List Char) (span : Span)
  | comma (span : Span)
  deriving DecidableEq, Repr

structure Token where
  kind : Kind
  text : List Char
  trivia : List Trivia
  span : Span
  deriving DecidableEq, Repr

/-- Is the token the given name? -/
def Token.isName (t : Token) (name : String) : Bool := t.kind == .name && t.text == name.toList

/-- Does the token count, or is it the end of the text? -/
def Token.isSignificant (t : Token) : Bool := t.kind != .eof

/-- A code point in hexadecimal, in capitals and with four digits at least. -/
def codePoint (c : Char) : String :=
  let digits := (Nat.toDigits 16 c.toNat).map Char.toUpper
  "U+" ++ String.ofList (List.replicate (4 - digits.length) '0' ++ digits)

/-- A character in a message: invisible ones are escaped and followed by their code point. -/
def describe (c : Char) : String :=
  if Text.isControl c || (Text.isBlank c && c != ' ') then
    "`" ++ String.ofList (Text.escaped '"' c) ++ "` (" ++ codePoint c ++ ")"
  else "`" ++ String.ofList [c] ++ "`"

/-- The message of a fault that covers `text`. -/
def Fault.message (text : List Char) : Fault → String
  | dots 2 => "Unexpected `..` (use `...` for spread operator)"
  | dots _ => "Unexpected `.`"
  | loneMinus => "Unexpected `-`"
  | leadingZero =>
    "Invalid number: leading zeros are not allowed: `" ++ String.ofList text ++ "`"
  | emptyExponent =>
    "Invalid number: exponent must have at least one digit: `" ++ String.ofList text ++ "`"
  | openString => "Unterminated string literal"
  | brokenString =>
    "Unterminated string literal (single-line strings cannot contain unescaped newlines)"
  | openBlock => "Unterminated block string"
  | stray c => "Unexpected character " ++ describe c

end QueryDoc.Lexis
