import ChartParsing.Binary64

/-!
# Decimals

A decimal is a whole number times a power of ten. Each stands for the double nearest to it.
-/

namespace ChartParsing

/-- The number `digits * 10 ^ exponent`. -/
structure Decimal where
  digits : Nat
  exponent : Int
deriving DecidableEq, Repr

namespace Decimal

/-- The digits as characters, without leading zeros. -/
def digitChars (d : Decimal) : List Char :=
  Nat.toDigits 10 d.digits

/-- The power of ten at which the first digit stands. -/
def leadingPower (d : Decimal) : Int :=
  d.exponent + (d.digitChars.length - 1 : Nat)

/-- The bits of the double nearest to the decimal. Beyond the range of doubles, which spans the
powers of ten from -324 to 308, the answer needs no division. -/
def toBits (d : Decimal) : Nat :=
  if d.digits = 0 ∨ d.leadingPower < -330 then 0
  else if 310 < d.leadingPower then Binary64.infinityBits
  else if d.exponent < 0 then Binary64.nearestBits d.digits (Nat.pow 10 d.exponent.natAbs)
  else Binary64.nearestBits (d.digits * Nat.pow 10 d.exponent.natAbs) 1

end Decimal

end ChartParsing
