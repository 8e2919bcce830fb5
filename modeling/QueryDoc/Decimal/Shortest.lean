import QueryDoc.Decimal.Binary64

/-!
# Shortest decimals

The decimals that read back to a binary64 number form an interval around it. The shortest of them
lies on the coarsest grid of powers of ten that meets the interval; of two on that grid the nearer
one is taken, and the greater one on a tie.
-/
namespace QueryDoc

/-- The number `digits * 10 ^ exponent`. -/
structure Decimal where
  digits : Nat
  exponent : Int
  deriving DecidableEq, Repr

def Decimal.value (d : Decimal) : Rat := (d.digits : Rat) * 10 ^ d.exponent

namespace Binary64

/-- The least rational that rounds up to the number or is a tie with its neighbour below. Below a
power of two the neighbour is half as far away as above. -/
def lowerEnd (m : Nat) (e : Int) : Rat :=
  magnitude (if m == topBit && minExponent < e then 4 * m - 1 else 4 * m - 2) (e - 2)

def upperEnd (m : Nat) (e : Int) : Rat := magnitude (4 * m + 2) (e - 2)

/-- Does `x` round to the number? The ends of the interval do if the significand is even. -/
def readsBack (m : Nat) (e : Int) (x : Rat) : Bool :=
  if m % 2 == 0 then lowerEnd m e ≤ x && x ≤ upperEnd m e
  else lowerEnd m e < x && x < upperEnd m e

/-- The decimal that stands for the number on the grid of multiples of `10 ^ g`, if one reads
back. -/
def onGrid? (m : Nat) (e g : Int) : Option Decimal :=
  let x := magnitude m e
  let below : Decimal := ⟨(x / 10 ^ g).floor.toNat, g⟩
  let above : Decimal := ⟨below.digits + 1, g⟩
  match readsBack m e below.value, readsBack m e above.value with
  | true, true => some (if x - below.value < above.value - x then below else above)
  | true, false => some below
  | false, true => some above
  | false, false => none

/-- The least `k` with `x < 10 ^ k`, for a positive `x`; the first guess takes the common logarithm
of the greatest power of two up to `x`, and misses by at most two. -/
def decimalOrder (x : Rat) : Int :=
  let guess := (binaryOrder x * 30103).fdiv 100000
  if x < 10 ^ guess then guess
  else if x < 10 ^ (guess + 1) then guess + 1
  else guess + 2

/-- The shortest decimal that reads back to a positive number. Seventeen digits always suffice. -/
def shortest (m : Nat) (e : Int) : Decimal :=
  let k := decimalOrder (magnitude m e)
  let found := (List.range 17).findSome? fun (i : Nat) => onGrid? m e (k - 1 - i)
  found.getD ⟨(magnitude m e / 10 ^ (k - 17)).floor.toNat, k - 17⟩

end Binary64

end QueryDoc
