import ChartParsing.Decimal.Layout

/-!
# Probabilities

The probability of a rule is kept as it is given, by the 64 bits of a double. So a NaN stays the
one it is, although no arithmetic tells it from another. Nothing is demanded of the number here:
that it lies in the range of probabilities is a condition on grammars.
-/

namespace ChartParsing

/-- A double given as a probability, by its bits. -/
structure Probability where
  bits : UInt64
deriving Repr

namespace Probability

/-- The number itself. -/
def value (p : Probability) : Float :=
  Float.ofBits p.bits

/-- Probabilities are compared as numbers: the two zeros are equal, and a NaN differs from
itself. -/
instance : BEq Probability where
  beq p q := p.value == q.value

/-- The double nearest to a decimal. -/
def ofDecimal (d : Decimal) : Probability :=
  ⟨d.toBits.toUInt64⟩

/-- The probability as a rule file has it. -/
def render (p : Probability) : String :=
  FloatStyle.plain.renderBits p.bits

/-- Whether the number is positive and at most one; so it is finite and not a NaN. -/
def isInRange (p : Probability) : Bool :=
  0 < p.value && p.value ≤ 1

end Probability

end ChartParsing
