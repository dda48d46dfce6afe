import ChartParsing.Decimal.Basic

/-!
# Numerals

A numeral has digits, at most one point before, among or after them, and possibly an exponent: an
`e` or `E`, an optional sign and digits.
-/

namespace ChartParsing.Decimal

/-- The number written by decimal digits. -/
def digitsValue (digits : List Char) : Nat :=
  digits.foldl (fun n c => 10 * n + (c.toNat - '0'.toNat)) 0

/-- The number written by digits, at least one. -/
def natural? (s : List Char) : Option Nat :=
  if !s.isEmpty && s.all Char.isDigit then some (digitsValue s) else none

/-- The digits of a numeral before its exponent, with as many places after the point as given. -/
def mantissa? (s : List Char) : Option Decimal :=
  let whole := s.takeWhile Char.isDigit
  match s.dropWhile Char.isDigit with
  | [] => (natural? whole).map fun n => ⟨n, 0⟩
  | c :: fraction =>
    if c = '.' then (natural? (whole ++ fraction)).map fun n => ⟨n, -fraction.length⟩ else none

/-- An exponent takes no more digits from here on. -/
def exponentLimit : Nat := 65536

/-- The magnitude of an exponent written by digits. Digits after it has reached the limit are
dropped: the number is infinite or zero by then, unless tens of thousands of digits stand before
the exponent. -/
def exponentValue (digits : List Char) : Nat :=
  digits.foldl (fun n c => if n < exponentLimit then 10 * n + (c.toNat - '0'.toNat) else n) 0

/-- The magnitude of an exponent written by digits, at least one. -/
def magnitude? (s : List Char) : Option Nat :=
  if !s.isEmpty && s.all Char.isDigit then some (exponentValue s) else none

/-- The exponent of a numeral, which may have a sign. -/
def exponent? : List Char → Option Int
  | '+' :: s => (magnitude? s).map Int.ofNat
  | '-' :: s => (magnitude? s).map fun n => -(n : Int)
  | s => (magnitude? s).map Int.ofNat

/-- Whether `c` introduces the exponent of a numeral. -/
def isExponentMark (c : Char) : Bool :=
  c == 'e' || c == 'E'

/-- The decimal that a numeral writes. -/
def read? (s : List Char) : Option Decimal := do
  let d ← mantissa? (s.takeWhile fun c => !isExponentMark c)
  match s.dropWhile fun c => !isExponentMark c with
  | [] => return d
  | _ :: power =>
    let e ← exponent? power
    return ⟨d.digits, d.exponent + e⟩

end ChartParsing.Decimal
