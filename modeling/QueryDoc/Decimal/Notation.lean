import QueryDoc.Decimal.Shortest

/-!
# Decimal notation

Numbers are written positionally with the fewest digits that read back, never with an exponent, and
a whole number without a point. Reading takes an optional sign, digits with an optional point, and
an optional exponent, or one of the words for infinity and for no number.
-/
namespace QueryDoc

/-- All digits of a decimal, the fraction without trailing zeros. -/
def Decimal.positional (d : Decimal) : List Char :=
  let digits := Nat.toDigits 10 d.digits
  if 0 ≤ d.exponent then digits ++ List.replicate d.exponent.toNat '0'
  else
    let places := d.exponent.natAbs
    let padded := List.replicate (places + 1 - digits.length) '0' ++ digits
    let whole := padded.take (padded.length - places)
    let fraction := ((padded.drop (padded.length - places)).reverse.dropWhile (· == '0')).reverse
    if fraction.isEmpty then whole else whole ++ '.' :: fraction

namespace Binary64

def signText (negative : Bool) : String := if negative then "-" else ""

def text : Binary64 → String
  | nan => "NaN"
  | infinite negative => signText negative ++ "inf"
  | finite negative m e =>
    signText negative ++ if m == 0 then "0" else String.ofList (shortest m e).positional

end Binary64

/-- The number that a run of digits stands for. -/
def Decimal.ofDigits (digits : List Char) : Nat :=
  digits.foldl (fun n c => 10 * n + (c.toNat - '0'.toNat)) 0

/-- A sign in front, if any: is it a minus, and what follows. -/
def Decimal.splitSign : List Char → Bool × List Char
  | '-' :: s => (true, s)
  | '+' :: s => (false, s)
  | s => (false, s)

/-- The exponent part, which may be absent. -/
def Decimal.exponent? : List Char → Option Int
  | [] => some 0
  | c :: s =>
    let (negative, digits) := splitSign s
    if (c == 'e' || c == 'E') && !digits.isEmpty && digits.all Char.isDigit then
      some (if negative then -(ofDigits digits : Int) else ofDigits digits)
    else none

/-- The fraction behind the point, if there is one, and what follows. -/
def Decimal.splitFraction : List Char → List Char × List Char
  | '.' :: s => (s.takeWhile Char.isDigit, s.dropWhile Char.isDigit)
  | s => ([], s)

/-- Reads a number without its sign. -/
def Binary64.readUnsigned? (negative : Bool) (s : List Char) : Option Binary64 :=
  let word := String.ofList (s.map Char.toLower)
  if word == "inf" || word == "infinity" then some (infinite negative)
  else if word == "nan" then some nan
  else
    let whole := s.takeWhile Char.isDigit
    let (fraction, rest) := Decimal.splitFraction (s.dropWhile Char.isDigit)
    if whole.isEmpty && fraction.isEmpty then none
    else (Decimal.exponent? rest).map fun e =>
      ofDecimal negative (Decimal.ofDigits (whole ++ fraction)) (e - fraction.length)

def Binary64.read? (s : List Char) : Option Binary64 :=
  let (negative, rest) := Decimal.splitSign s
  readUnsigned? negative rest

end QueryDoc
