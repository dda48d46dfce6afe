import ChartParsing.Proofs.Binary64.Range
import ChartParsing.Proofs.Grammar.Built

/-!
# Lists of rules with a rule out of order

A list of rules makes a grammar if there is a rule in it and each rule is in order: it has one of
the two forms, and its probability is proper, or else no rule of the list has one.  Every rule of
the list counts, also one that is redefined later on.  If some rule is not in order, then the first
such rule is reported.

* `Probability.isInRange_iff`: which doubles are proper probabilities.
* `Rule.Fits`: a rule is in order among the rules of a list.
* `Rule.Offends`: what is reported of a rule that is not in order.
* `Rule.offence?_eq_none_iff_fits`, `Rule.offence?_eq_some_iff`: the check of one rule.
* `Grammar.ofRules_eq_ok_or_error`: **which lists make a grammar, and what is reported of the
  others**.
-/

namespace ChartParsing

namespace Probability

/-- The number is finite, positive and at most one. -/
def IsProper (p : Probability) : Prop :=
  p.value.isFinite = true ∧ 0 < p.value ∧ p.value ≤ 1

theorem isFinite_of_isInRange {p : Probability} (h : p.isInRange = true) :
    p.value.isFinite = true := by
  obtain ⟨hpos, hle⟩ := Binary64.bits_of_isInRange h
  have hlt : p.bits.toNat < Binary64.infinityBits := Nat.lt_of_le_of_lt hle (by decide)
  have hbits : p.value.toBits = p.bits := Binary64.toBits_value hlt
  rw [← hbits] at hpos hlt
  show p.value.toModel.unpack.isFinite = true
  rw [Binary64.unpack_eq hlt hpos]
  rfl

/-- **The test for the range finds the proper probabilities.**  No infinity passes it, nor does a
NaN. -/
theorem isInRange_iff {p : Probability} : p.isInRange = true ↔ p.IsProper := by
  constructor
  · intro h
    have hfinite := isFinite_of_isInRange h
    rw [isInRange, Bool.and_eq_true, decide_eq_true_iff, decide_eq_true_iff] at h
    exact ⟨hfinite, h.1, h.2⟩
  · rintro ⟨-, hpos, hle⟩
    rw [isInRange, decide_eq_true hpos, decide_eq_true hle]
    rfl

end Probability

namespace Rule

/-! ## Rules in order -/

/-- The parent has a name, and the right-hand side is one word or two non-terminals. -/
def HasForm (r : Rule) : Prop :=
  r.parent ≠ "" ∧
    ((∃ w, r.items = [.word w]) ∨ ∃ y z, r.items = [.nonterminal y, .nonterminal z])

/-- The probability of the rule is proper, or it has none and no rule of the list has one. -/
def WeightFits (rules : List Rule) (r : Rule) : Prop :=
  match r.prob with
  | none => ∀ q ∈ rules, q.prob = none
  | some p => p.IsProper

/-- The rule is in order among the rules of a list. -/
structure Fits (rules : List Rule) (r : Rule) : Prop where
  form : r.HasForm
  weight : r.WeightFits rules

/-- What is reported of a rule that is not in order among the rules of a list.  The form counts only
if the probability is in order. -/
inductive Offends (rules : List Rule) (r : Rule) : GrammarError → Prop
  | missing {q : Rule} : r.prob = none → q ∈ rules → q.prob ≠ none →
      Offends rules r (.mixedWeights r)
  | improper {p : Probability} : r.prob = some p → ¬ p.IsProper →
      Offends rules r (.probability r p)
  | form : r.WeightFits rules → ¬ r.HasForm → Offends rules r (.arity r)

variable {rules : List Rule} {r : Rule} {e : GrammarError}

theorem isWellFormed_iff : r.isWellFormed = true ↔ r.HasForm := by
  constructor
  · intro h
    obtain ⟨hparent, hlexical | hbinary⟩ := eq_lexical_or_binary h
    · obtain ⟨w, heq⟩ := hlexical
      exact ⟨hparent, .inl ⟨w, by rw [heq, lexical]⟩⟩
    · obtain ⟨y, z, heq⟩ := hbinary
      exact ⟨hparent, .inr ⟨y, z, by rw [heq, binary]⟩⟩
  · rintro ⟨hparent, hitems⟩
    rw [isWellFormed, decide_eq_true hparent]
    rcases hitems with ⟨w, hw⟩ | ⟨y, z, hyz⟩
    · rw [hw]
      rfl
    · rw [hyz]
      rfl

theorem any_isSome_prob_iff : (rules.any fun q => q.prob.isSome) = true ↔
    ∃ q ∈ rules, q.prob ≠ none := by
  simp only [List.any_eq_true, Option.isSome_iff_ne_none]

theorem weightFits_iff : r.WeightFits rules ↔
    ((rules.any fun q => q.prob.isSome) = true → r.prob.isSome = true) ∧
      ∀ p, r.prob = some p → p.isInRange = true := by
  rw [any_isSome_prob_iff, WeightFits]
  cases r.prob with
  | none => simp
  | some p => simp [Probability.isInRange_iff]

/-- A probability is in order, or it is missing, or it is not proper. -/
theorem weight_cases (rules : List Rule) (r : Rule) : r.WeightFits rules ∨
    (r.prob = none ∧ ∃ q ∈ rules, q.prob ≠ none) ∨ ∃ p, r.prob = some p ∧ ¬ p.IsProper := by
  rw [WeightFits]
  cases r.prob with
  | none =>
    by_cases h : ∀ q ∈ rules, q.prob = none
    · exact .inl h
    · exact .inr (.inl ⟨rfl, by simpa using h⟩)
  | some p =>
    by_cases h : p.IsProper
    · exact .inl h
    · exact .inr (.inr ⟨p, rfl, h⟩)

/-! ## The check of one rule -/

theorem checkProb_of_missing {q : Rule} (hr : r.prob = none) (hq : q ∈ rules)
    (hprob : q.prob ≠ none) :
    r.checkProb (rules.any fun q => q.prob.isSome) = .error (.mixedWeights r) := by
  rw [checkProb, hr]
  exact if_pos (any_isSome_prob_iff.mpr ⟨q, hq, hprob⟩)

theorem checkProb_of_improper {p : Probability} (hr : r.prob = some p) (hp : ¬ p.IsProper)
    (weighted : Bool) : r.checkProb weighted = .error (.probability r p) := by
  rw [checkProb, hr]
  exact if_neg (mt Probability.isInRange_iff.mp hp)

theorem checkProb_of_weightFits (h : r.WeightFits rules) :
    r.checkProb (rules.any fun q => q.prob.isSome) = .ok () := by
  obtain ⟨hweighted, hrange⟩ := weightFits_iff.mp h
  rw [checkProb]
  cases hr : r.prob with
  | none =>
    rw [hr] at hweighted
    exact if_neg fun hany => absurd (hweighted hany) (by decide)
  | some p => exact if_pos (hrange p hr)

theorem offence?_of_weightFits (h : r.WeightFits rules) :
    r.offence? (rules.any fun q => q.prob.isSome) =
      if r.isWellFormed then none else some (.arity r) := by
  rw [offence?, checkProb_of_weightFits h]

theorem offence?_of_checkProb {weighted : Bool} (h : r.checkProb weighted = .error e) :
    r.offence? weighted = some e := by
  rw [offence?, h]

/-- **The check finds what is to be reported.** -/
theorem offence?_eq_some_iff :
    r.offence? (rules.any fun q => q.prob.isSome) = some e ↔ r.Offends rules e := by
  constructor
  · intro h
    rcases r.weight_cases rules with hfits | ⟨hr, q, hq, hprob⟩ | ⟨p, hr, hp⟩
    · rw [offence?_of_weightFits hfits] at h
      split at h
      · exact absurd h (by simp)
      · rename_i hform
        cases h
        exact .form hfits fun hr => hform (isWellFormed_iff.mpr hr)
    · rw [offence?_of_checkProb (checkProb_of_missing hr hq hprob)] at h
      cases h
      exact .missing hr hq hprob
    · rw [offence?_of_checkProb (checkProb_of_improper hr hp _)] at h
      cases h
      exact .improper hr hp
  · intro h
    cases h with
    | missing hr hq hprob => exact offence?_of_checkProb (checkProb_of_missing hr hq hprob)
    | improper hr hp => exact offence?_of_checkProb (checkProb_of_improper hr hp _)
    | form hfits hform =>
      rw [offence?_of_weightFits hfits, if_neg fun hr => hform (isWellFormed_iff.mp hr)]

/-- **A rule passes the check if it is in order**, and not otherwise. -/
theorem offence?_eq_none_iff_fits :
    r.offence? (rules.any fun q => q.prob.isSome) = none ↔ r.Fits rules := by
  rw [offence?_eq_none_iff, isWellFormed_iff, ← weightFits_iff]
  exact ⟨fun h => ⟨h.1, h.2⟩, fun h => ⟨h.form, h.weight⟩⟩

/-- All rules of a list are in order if they have their forms and either none has a probability or
each has a proper one. -/
theorem forall_fits_iff : (∀ r ∈ rules, r.Fits rules) ↔ (∀ r ∈ rules, r.HasForm) ∧
    ((∀ r ∈ rules, r.prob = none) ∨ ∀ r ∈ rules, ∃ p, r.prob = some p ∧ p.IsProper) := by
  constructor
  · intro h
    refine ⟨fun r hr => (h r hr).form, ?_⟩
    by_cases hnone : ∀ r ∈ rules, r.prob = none
    · exact .inl hnone
    · refine .inr fun r hr => ?_
      have hweight := (h r hr).weight
      rw [WeightFits] at hweight
      cases hp : r.prob with
      | none =>
        rw [hp] at hweight
        exact absurd hweight hnone
      | some p =>
        rw [hp] at hweight
        exact ⟨p, rfl, hweight⟩
  · rintro ⟨hform, hweight⟩ r hr
    refine ⟨hform r hr, ?_⟩
    rw [WeightFits]
    rcases hweight with hnone | hproper
    · rw [hnone r hr]
      exact hnone
    · obtain ⟨p, hp, hp'⟩ := hproper r hr
      rw [hp]
      exact hp'

/-! ## The text of an error -/

/-- The error of a rule out of order begins with the text of this rule. -/
theorem Offends.message_eq (h : r.Offends rules e) :
    ∃ complaint, e.message = "rule `" ++ r.render ++ "`" ++ complaint := by
  cases h with
  | missing =>
    have hmessage : (GrammarError.mixedWeights r).message = "rule `" ++ r.render ++
      ("`" ++ " has no probability, but other rules in the grammar do") := rfl
    exact ⟨_, hmessage.trans (String.append_assoc).symm⟩
  | @improper p =>
    have hmessage : (GrammarError.probability r p).message = "rule `" ++ r.render ++
      ("`" ++ " has probability ") ++ p.render ++ ", expected a finite value in (0, 1]" := rfl
    refine ⟨" has probability " ++ p.render ++ ", expected a finite value in (0, 1]", ?_⟩
    rw [hmessage]
    simp only [String.append_assoc]
  | form =>
    have hmessage : (GrammarError.arity r).message = "rule `" ++ r.render ++
      ("`" ++ " is neither `X -> word` nor `X -> Y Z`") := rfl
    exact ⟨_, hmessage.trans (String.append_assoc).symm⟩

end Rule

namespace Grammar

variable {rules : List Rule}

/-! ## Lists of rules -/

theorem accepted_iff : Accepted rules ↔ ∀ r ∈ rules, r.Fits rules :=
  forall₂_congr fun _ _ => Rule.offence?_eq_none_iff.symm.trans Rule.offence?_eq_none_iff_fits

/-- A list of rules makes a grammar if there is a rule in it and all its rules are in order. -/
theorem exists_ofRules_eq_ok_iff :
    (∃ g, ofRules rules = .ok g) ↔ rules ≠ [] ∧ ∀ r ∈ rules, r.Fits rules := by
  rw [← accepted_iff]
  constructor
  · rintro ⟨g, hg⟩
    obtain ⟨first, rest, rfl, hacc, -⟩ := ofRules_eq_ok_iff.mp hg
    exact ⟨List.cons_ne_nil first rest, hacc⟩
  · rintro ⟨hne, hacc⟩
    obtain ⟨first, rest, rfl⟩ := List.exists_cons_of_ne_nil hne
    exact ⟨_, ofRules_eq_ok_iff.mpr ⟨first, rest, rfl, hacc, rfl⟩⟩

theorem ofRules_eq_error_iff {e : GrammarError} : ofRules rules = .error e ↔
    rules = [] ∧ e = .empty ∨
      rules.findSome? (Rule.offence? (rules.any fun q => q.prob.isSome)) = some e := by
  cases rules with
  | nil => simp [ofRules, eq_comm]
  | cons first rest =>
    rw [ofRules_cons]
    split
    · rename_i e' he
      rw [he]
      simp
    · rename_i he
      rw [he]
      simp

/-- A list of rules is refused because it is empty, or because of its first rule out of order. -/
theorem ofRules_eq_error_iff_offends {e : GrammarError} : ofRules rules = .error e ↔
    rules = [] ∧ e = .empty ∨ ∃ before r after, rules = before ++ r :: after ∧
      (∀ q ∈ before, q.Fits rules) ∧ r.Offends rules e := by
  rw [ofRules_eq_error_iff, List.findSome?_eq_some_iff]
  simp only [Rule.offence?_eq_none_iff_fits, Rule.offence?_eq_some_iff, and_comm]

/-- **A list of rules makes a grammar, or its first rule out of order is reported.**  It makes a
grammar just if it is not empty, each rule has a parent with a name and a word or two non-terminals
on the right-hand side, and either no rule has a probability or each has a proper one.  The error of
a list that is not empty is that of its first rule which is not in order; it shows that rule, and it
is about the probability rather than about the form. -/
theorem ofRules_eq_ok_or_error (rules : List Rule) :
    ((∃ g, ofRules rules = .ok g) ↔ rules ≠ [] ∧ (∀ r ∈ rules, r.HasForm) ∧
      ((∀ r ∈ rules, r.prob = none) ∨ ∀ r ∈ rules, ∃ p, r.prob = some p ∧ p.IsProper)) ∧
    (∀ e, ofRules rules = .error e ↔ rules = [] ∧ e = .empty ∨
      ∃ before r after, rules = before ++ r :: after ∧ (∀ q ∈ before, q.Fits rules) ∧
        r.Offends rules e) ∧
    ∀ (r : Rule) (e : GrammarError), r.Offends rules e →
      ∃ complaint, e.message = "rule `" ++ r.render ++ "`" ++ complaint := by
  refine ⟨?_, ?_, ?_⟩
  · rw [exists_ofRules_eq_ok_iff, Rule.forall_fits_iff]
  · intro e
    exact ofRules_eq_error_iff_offends
  · intro r e h
    exact h.message_eq

/-- A rule with neither a form nor a number for a probability. -/
def shapeless : Rule :=
  ⟨"S", [.nonterminal "S"], some ⟨0x7FF8000000000000⟩⟩

/-- Two rules out of order: after the one without a form, one has no probability. -/
def disordered : List Rule :=
  [Rule.lexical "S" "a" (some half), shapeless, Rule.lexical "S" "a" none]

/-- Of a rule with neither a form nor a number for a probability the latter is reported. -/
theorem disordered_reports_probability :
    (¬ ∃ g, ofRules disordered = .ok g) ∧ shapeless.Offends disordered
      (.probability shapeless ⟨0x7FF8000000000000⟩) ∧
    ofRules disordered = .error (.probability shapeless ⟨0x7FF8000000000000⟩) ∧
    ∃ complaint, (GrammarError.probability shapeless ⟨0x7FF8000000000000⟩).message =
      "rule `" ++ shapeless.render ++ "`" ++ complaint := by
  obtain ⟨hok, herror, hmessage⟩ := ofRules_eq_ok_or_error disordered
  have hoffends : shapeless.Offends disordered (.probability shapeless ⟨0x7FF8000000000000⟩) := by
    refine .improper rfl ?_
    rw [← Probability.isInRange_iff]
    decide
  have hfirst : (Rule.lexical "S" "a" (some half)).Fits disordered := by
    refine ⟨⟨by decide, .inl ⟨"a", rfl⟩⟩, ?_⟩
    exact Probability.isInRange_iff.mp (by decide)
  have hreport : ofRules disordered = .error (.probability shapeless ⟨0x7FF8000000000000⟩) := by
    refine (herror _).mpr (.inr ⟨[Rule.lexical "S" "a" (some half)], shapeless,
      [Rule.lexical "S" "a" none], rfl, ?_, hoffends⟩)
    intro q hq
    rw [List.mem_singleton.mp hq]
    exact hfirst
  refine ⟨?_, hoffends, hreport, hmessage _ _ hoffends⟩
  rintro ⟨g, hg⟩
  rw [hreport] at hg
  exact absurd hg (by simp)

end Grammar

end ChartParsing
