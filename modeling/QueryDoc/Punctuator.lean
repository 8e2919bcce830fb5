/-!
# Punctuators

The punctuators of executable documents. Three pairs of them are brackets, which open and close a
level of nesting.
-/
namespace QueryDoc

inductive Punctuator where
  | bang | dollar | ampersand | parenOpen | parenClose | spread | colon | equals | atSign
  | squareOpen | squareClose | braceOpen | pipe | braceClose
  deriving DecidableEq, Repr

namespace Punctuator

def text : Punctuator → String
  | bang => "!"
  | dollar => "$"
  | ampersand => "&"
  | parenOpen => "("
  | parenClose => ")"
  | spread => "..."
  | colon => ":"
  | equals => "="
  | atSign => "@"
  | squareOpen => "["
  | squareClose => "]"
  | braceOpen => "\x7b"
  | pipe => "|"
  | braceClose => "\x7d"

/-- The punctuator that is this one character. -/
def ofChar? : Char → Option Punctuator
  | '!' => some bang
  | '$' => some dollar
  | '&' => some ampersand
  | '(' => some parenOpen
  | ')' => some parenClose
  | ':' => some colon
  | '=' => some equals
  | '@' => some atSign
  | '[' => some squareOpen
  | ']' => some squareClose
  | '{' => some braceOpen
  | '|' => some pipe
  | '}' => some braceClose
  | _ => none

/-- How the nesting changes: an opening bracket adds a level, a closing one takes one away. -/
def nesting : Punctuator → Int
  | parenOpen | squareOpen | braceOpen => 1
  | parenClose | squareClose | braceClose => -1
  | _ => 0

end Punctuator

/-- May the character stand first in a name? ASCII letters and the underscore may. -/
def isNameStart (c : Char) : Bool := c == '_' || c.isAlpha

/-- May the character stand in a name behind the first? ASCII digits may as well. -/
def isNameContinue (c : Char) : Bool := isNameStart c || c.isDigit

end QueryDoc
