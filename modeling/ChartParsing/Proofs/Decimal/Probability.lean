import ChartParsing.Proofs.Binary64.Range
import ChartParsing.Proofs.Decimal.Shortest
import ChartParsing.Proofs.Decimal.Text

/-!
# Texts of probabilities

A probability in range is written with digits and at most one point, and the text is read back as
the same double, bit for bit.
-/

namespace ChartParsing.Probability

open Binary64

theorem render_eq_positional {p : Probability} (hpos : 0 < p.bits.toNat)
    (hlt : p.bits.toNat < infinityBits) :
    p.render = (Decimal.shortest p.bits.toNat).positional "" := by
  have hsign : p.bits.toNat < signBit := Nat.lt_trans hlt (by decide)
  have hmagnitude : magnitudeBits p.bits = p.bits.toNat := Nat.mod_eq_of_lt hsign
  have hpositive : isNegative p.bits = false := decide_eq_false (Nat.not_le.mpr hsign)
  rw [render, FloatStyle.renderBits]
  simp only [hmagnitude, hpositive, Bool.false_and, Bool.false_eq_true, if_false]
  rw [FloatStyle.renderMagnitude, if_neg (Nat.ne_of_gt hpos), if_pos hlt]
  simp only [FloatStyle.plain, if_true]

/-- **A probability in range is read back from its text.** -/
theorem read?_render {p : Probability} (h : p.isInRange = true) :
    ∃ d, Decimal.read? p.render.toList = some d ∧ ofDecimal d = p := by
  obtain ⟨hpos, hle⟩ := bits_of_isInRange h
  have hlt : p.bits.toNat < infinityBits := Nat.lt_of_le_of_lt hle (by decide)
  obtain ⟨d, hread, hbits⟩ := Decimal.read?_positional (Decimal.shortest p.bits.toNat)
  refine ⟨d, by rw [render_eq_positional hpos hlt, hread], ?_⟩
  rw [ofDecimal, hbits, Decimal.toBits_shortest hpos hlt]
  show (⟨UInt64.ofNat p.bits.toNat⟩ : Probability) = p
  rw [UInt64.ofNat_toNat]

theorem mem_render {p : Probability} (h : p.isInRange = true) {c : Char}
    (hc : c ∈ p.render.toList) : c.isDigit = true ∨ c = '.' := by
  obtain ⟨hpos, hle⟩ := bits_of_isInRange h
  rw [render_eq_positional hpos (Nat.lt_of_le_of_lt hle (by decide))] at hc
  exact Decimal.mem_positional hc

theorem render_ne_nil {p : Probability} (h : p.isInRange = true) : p.render.toList ≠ [] := by
  obtain ⟨hpos, hle⟩ := bits_of_isInRange h
  rw [render_eq_positional hpos (Nat.lt_of_le_of_lt hle (by decide))]
  exact Decimal.positional_ne_nil _

end ChartParsing.Probability
