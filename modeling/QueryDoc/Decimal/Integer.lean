import QueryDoc.Decimal.Notation

/-!
# Integers of fixed width

The integers of a fixed width lie in a range. They are read from digits behind an optional sign; a
minus is read only where there are negative numbers.
-/
namespace QueryDoc

structure IntegerRange where
  least : Int
  greatest : Int
  deriving DecidableEq, Repr

namespace IntegerRange

def signed32 : IntegerRange := ⟨-0x80000000, 0x7FFFFFFF⟩
def signed64 : IntegerRange := ⟨-0x8000000000000000, 0x7FFFFFFFFFFFFFFF⟩
def unsigned32 : IntegerRange := ⟨0, 0xFFFFFFFF⟩
def unsigned64 : IntegerRange := ⟨0, 0xFFFFFFFFFFFFFFFF⟩

def contains (r : IntegerRange) (n : Int) : Bool := r.least ≤ n && n ≤ r.greatest

def read? (r : IntegerRange) (s : List Char) : Option Int :=
  let (negative, digits) := Decimal.splitSign s
  if digits.isEmpty || !digits.all Char.isDigit || (negative && 0 ≤ r.least) then none
  else
    let magnitude : Int := Decimal.ofDigits digits
    let n := if negative then -magnitude else magnitude
    if r.contains n then some n else none

end IntegerRange

end QueryDoc
