import QueryDoc.Text.Quoted

/-!
# Logged text

A text is logged with escapes for the characters that steer a terminal, so that what it quotes
cannot. Line ends and the other controls stand for themselves.
-/
namespace QueryDoc.Command

/-- The bell, the backspace, the form feed, the escape and the delete. -/
def steeringCharacters : List Char := ['\x07', '\x08', '\x0c', '\x1b', '\x7f']

/-- The controls above those of ASCII. -/
def isHighControl (c : Char) : Bool := 0x80 ≤ c.toNat && c.toNat < 0xA0

/-- A character of ASCII as two hexadecimal digits, as in `\x07`. -/
def digitEscape (c : Char) : List Char :=
  ['\\', 'x', Nat.digitChar (c.toNat / 16), Nat.digitChar (c.toNat % 16)]

def logged (c : Char) : List Char :=
  if steeringCharacters.contains c then digitEscape c
  else if isHighControl c then Text.bracedEscape c
  else [c]

def loggedText (s : String) : String := String.ofList (s.toList.flatMap logged)

end QueryDoc.Command
