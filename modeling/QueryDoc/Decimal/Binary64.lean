/-!
# Binary64 numbers

A finite number is a sign, a significand of 53 bits and a power of two of at least `2 ^ (-1074)`;
the significand uses all its bits unless the exponent is the least one, so a number has one form.
`Binary64.ofMagnitude` rounds a rational to the nearest number, on a tie to the even significand.
-/
namespace QueryDoc

inductive Binary64 where
  | finite (negative : Bool) (significand : Nat) (exponent : Int)
  | infinite (negative : Bool)
  | nan
  deriving DecidableEq, Repr

namespace Binary64

/-- The highest bit of a significand. -/
def topBit : Nat := 0x10000000000000

def minExponent : Int := -1074
def maxExponent : Int := 971

/-- The value of a significand and an exponent. -/
def magnitude (significand : Nat) (exponent : Int) : Rat := (significand : Rat) * 2 ^ exponent

/-- The nearest natural number, and of two the even one. -/
def roundEven (x : Rat) : Nat :=
  let n := x.floor.toNat
  let gap := x - n
  if gap < 1 / 2 || (gap == 1 / 2 && n % 2 == 0) then n else n + 1

/-- The greatest `e` with `2 ^ e ≤ x`, for a positive `x`. -/
def binaryOrder (x : Rat) : Int :=
  let e := (Nat.log2 x.num.toNat : Int) - Nat.log2 x.den
  if (2 : Rat) ^ e ≤ x then e else e - 1

/-- The number nearest to a rational that is not negative, with the given sign. -/
def ofMagnitude (negative : Bool) (x : Rat) : Binary64 :=
  if x == 0 then finite negative 0 minExponent
  else
    let e := max minExponent (binaryOrder x - 52)
    let m := roundEven (x / 2 ^ e)
    let (m, e) := if m == 2 * topBit then (topBit, e + 1) else (m, e)
    if maxExponent < e then infinite negative else finite negative m e

/-- The number nearest to `digits * 10 ^ scale`. Magnitudes of `10 ^ 310` and more overflow, and
those below `10 ^ (-325)` vanish, so no power beyond these is ever computed. -/
def ofDecimal (negative : Bool) (digits : Nat) (scale : Int) : Binary64 :=
  let order := (Nat.toDigits 10 digits).length + scale
  if digits == 0 || order < -325 then finite negative 0 minExponent
  else if 310 < order then infinite negative
  else ofMagnitude negative (digits * 10 ^ scale)

end Binary64

end QueryDoc
