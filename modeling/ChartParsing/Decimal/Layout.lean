import ChartParsing.Decimal.Shortest

/-!
# How doubles are written

A double is written with the digits of its shortest decimal, either positionally or with an
exponent. Which of the two, and whether whole numbers keep a point, is the choice of a
`FloatStyle`.

* `FloatStyle.plain`: always positional, whole numbers without a point. Rules, charts and messages
  use it.
* `FloatStyle.report`: very large and very small numbers get an exponent, whole numbers end in
  `.0`. Error reports use it.
-/

namespace ChartParsing

namespace Decimal

/-- The decimal without exponent; `point` follows a whole number. -/
def positional (point : String) (d : Decimal) : String :=
  let digits := d.digitChars
  if 0 ≤ d.exponent then
    String.ofList (digits ++ List.replicate d.exponent.natAbs '0') ++ point
  else
    let padded := List.replicate (d.exponent.natAbs + 1 - digits.length) '0' ++ digits
    let whole := padded.length - d.exponent.natAbs
    String.ofList (padded.take whole ++ '.' :: padded.drop whole)

/-- The decimal with one digit before the point and an exponent. -/
def scientific (d : Decimal) : String :=
  let mantissa :=
    match d.digitChars with
    | first :: second :: more => String.ofList (first :: '.' :: second :: more)
    | digits => String.ofList digits
  mantissa ++ "e" ++ toString d.leadingPower

end Decimal

/-- The choices in writing a double. -/
structure FloatStyle where
  /-- Whether a number whose first digit stands at this power of ten is written positionally. -/
  positional : Int → Bool
  /-- What follows a whole number. -/
  point : String

namespace FloatStyle

/-- Always positional, whole numbers without a point. -/
def plain : FloatStyle := ⟨fun _ => true, ""⟩

/-- Positional from `0.0001` up to sixteen digits, whole numbers with `.0`. -/
def report : FloatStyle := ⟨fun power => -5 < power && power < 16, ".0"⟩

/-- The text of the double with these magnitude bits. -/
def renderMagnitude (style : FloatStyle) (bits : Nat) : String :=
  if bits = 0 then "0" ++ style.point
  else if bits < Binary64.infinityBits then
    let d := Decimal.shortest bits
    if style.positional d.leadingPower then d.positional style.point else d.scientific
  else if bits = Binary64.infinityBits then "inf"
  else "NaN"

/-- The text of the double with these bits. The sign is written for every number that has one, zero
included; a NaN is no number. -/
def renderBits (style : FloatStyle) (bits : UInt64) : String :=
  let magnitude := Binary64.magnitudeBits bits
  if Binary64.isNegative bits && magnitude ≤ Binary64.infinityBits then
    "-" ++ style.renderMagnitude magnitude
  else style.renderMagnitude magnitude

/-- The text of a double. -/
def render (style : FloatStyle) (x : Float) : String :=
  style.renderBits x.toBits

end FloatStyle

end ChartParsing
