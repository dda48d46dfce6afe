import ChartParsing.Proofs.Derivation
import ChartParsing.Proofs.Viterbi.Cells

/-!
# Grammars with better rules

A grammar is below another one if the other has all of its rules, with weights that are not smaller.
The numbers of the names may differ.  The grammar above derives whatever the grammar below derives,
and its scores are at least as great: the entries of the two parts of a split are at least as good,
and a product grows with its factors.

* `Derives.of_below`: derivations.
* `Below.exists_entry`: entries, by induction on the entries below.
* `score_eq_of_below`: grammars below each other have the same scores.
-/

namespace ChartParsing.Grammar

open Binary64

variable {g h : Grammar} {words : List String}

/-- Every rule of the first grammar is in the second one, with a weight that is not smaller. -/
def Below (g h : Grammar) : Prop :=
  ∀ r ∈ g.rules, ∃ p, { r with prob := p } ∈ h.rules ∧ Rule.weightOf r.prob ≤ Rule.weightOf p

/-- What the grammar below derives, the grammar above derives. -/
theorem Derives.of_below (hbelow : g.Below h) {x : String} {ws : List String}
    (hd : g.Derives x ws) : h.Derives x ws := by
  induction hd with
  | word hrule =>
    obtain ⟨p, hrule', -⟩ := hbelow _ hrule
    exact .word hrule'
  | split hrule hu hv _ _ ihu ihv =>
    obtain ⟨p, hrule', -⟩ := hbelow _ hrule
    exact .split hrule' hu hv ihu ihv

theorem Consistent.weight_le (hg : g.Consistent) (hh : h.Consistent) {r s : Rule} (hr : r ∈ g.rules)
    (hs : s ∈ h.rules) (hle : Rule.weightOf r.prob ≤ Rule.weightOf s.prob) :
    (Rule.weightOf r.prob).toBits.toNat ≤ (Rule.weightOf s.prob).toBits.toNat :=
  (le_iff (hg.inUnit_weightOf hr).lt_infinityBits (hh.inUnit_weightOf hs).lt_infinityBits).mp hle

/-- **An entry of the grammar below** has an entry of the same name above that is at least as
good. -/
theorem Below.exists_entry (hbelow : g.Below h) (hg : g.Consistent) (hh : h.Consistent) {i j : Nat}
    (hij : i < j) (hj : j ≤ words.length) {s : Symbol} {e : Entry}
    (he : (g.viterbiCell words ⟨i, j⟩).find? s = some e) :
    ∃ x s' e', g.symbol? x = some s ∧ h.symbol? x = some s' ∧
      (h.viterbiCell words ⟨i, j⟩).find? s' = some e' ∧ InUnit e'.score ∧
        e.score.toBits.toNat ≤ e'.score.toBits.toNat := by
  refine hg.entry_induction ?_ ?_ hij hj he
  · intro i x p s hi hrule hx _
    obtain ⟨q, hrule', hle⟩ := hbelow _ hrule
    obtain ⟨s', hs'⟩ := hh.known _ hrule' x List.mem_cons_self
    obtain ⟨e', he', hunit, hbest⟩ :=
      exists_entry_of_offered hh (Nat.lt_succ_self i) hi (.word hi hrule' hs')
    exact ⟨x, s', e', hx, hs', he', hunit, Nat.le_trans (hg.weight_le hh hrule hrule' hle) hbest⟩
  · intro i k j x y z p s b c l r hik hkj hj hrule hx hy hz _ hleft hright
    obtain ⟨y', b', l', hy', hb', hl', hleftUnit, hleft⟩ := hleft
    obtain ⟨z', c', r', hz', hc', hr', hrightUnit, hright⟩ := hright
    obtain rfl := symbol?_injective hy hy'
    obtain rfl := symbol?_injective hz hz'
    obtain ⟨q, hrule', hle⟩ := hbelow _ hrule
    obtain ⟨s', hs'⟩ := hh.known _ hrule' x List.mem_cons_self
    obtain ⟨e', he', hunit, hbest⟩ := exists_entry_of_offered hh (Nat.lt_trans hik hkj) hj
      (.split hik hkj hrule' hs' hb' hc' hl' hr')
    have hweightUnit : InUnit (Rule.weightOf q) := hh.inUnit_weightOf hrule'
    have hweight := hg.weight_le hh hrule hrule' hle
    have hproduct := toNat_mul_mono (hweightUnit.mul hleftUnit) hrightUnit
      (toNat_mul_mono hweightUnit hleftUnit hweight hleft) hright
    exact ⟨x, s', e', hx, hs', he', hunit, Nat.le_trans hproduct hbest⟩

theorem Below.exists_entry_of_name (hbelow : g.Below h) (hg : g.Consistent) (hh : h.Consistent)
    {i j : Nat} (hij : i < j) (hj : j ≤ words.length) {x : String} {s s' : Symbol} {e : Entry}
    (hx : g.symbol? x = some s) (hx' : h.symbol? x = some s')
    (he : (g.viterbiCell words ⟨i, j⟩).find? s = some e) :
    ∃ e', (h.viterbiCell words ⟨i, j⟩).find? s' = some e' ∧
      e.score.toBits.toNat ≤ e'.score.toBits.toNat := by
  obtain ⟨y, t, e', hy, ht, he', -, hle⟩ := hbelow.exists_entry hg hh hij hj he
  obtain rfl := symbol?_injective hx hy
  obtain rfl : s' = t := Option.some.inj (hx'.symm.trans ht)
  exact ⟨e', he', hle⟩

variable (words) in
/-- Grammars that are below each other have the same scores. -/
theorem score_eq_of_below (hgh : g.Below h) (hhg : h.Below g) (hg : g.Consistent)
    (hh : h.Consistent) {i j : Nat} (hij : i < j) (hj : j ≤ words.length) {x : String}
    {s s' : Symbol} (hx : g.symbol? x = some s) (hx' : h.symbol? x = some s') :
    ((g.viterbiCell words ⟨i, j⟩).find? s).map Entry.score =
      ((h.viterbiCell words ⟨i, j⟩).find? s').map Entry.score := by
  cases he : (g.viterbiCell words ⟨i, j⟩).find? s with
  | some e =>
    obtain ⟨e', he', hle⟩ := hgh.exists_entry_of_name hg hh hij hj hx hx' he
    obtain ⟨b, hb, hge⟩ := hhg.exists_entry_of_name hh hg hij hj hx' hx he'
    obtain rfl : e = b := Option.some.inj (he.symm.trans hb)
    rw [he']
    exact congrArg some (eq_of_toNat_toBits_eq (Nat.le_antisymm hle hge))
  | none =>
    cases he' : (h.viterbiCell words ⟨i, j⟩).find? s' with
    | none => rfl
    | some e' =>
      obtain ⟨b, hb, -⟩ := hhg.exists_entry_of_name hh hg hij hj hx' hx he'
      rw [he] at hb
      exact absurd hb (by simp)

end ChartParsing.Grammar
