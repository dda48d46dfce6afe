import ChartParsing.Rule

/-!
# What can be wrong with a list of rules

The conditions on a list of rules, one error for each. A grammar has at least one rule; every rule
is well formed; either no rule has a probability or each has one, positive and at most one. The
start symbol has to be a non-terminal of the grammar.
-/

namespace ChartParsing

/-- Why a list of rules is no grammar, or a name no start symbol. -/
inductive GrammarError where
  /-- There are no rules. -/
  | empty
  /-- The rule is of neither form. -/
  | arity (rule : Rule)
  /-- The probability of the rule is out of range. -/
  | probability (rule : Rule) (prob : Probability)
  /-- The rule has no probability while another rule has one. -/
  | mixedWeights (rule : Rule)
  /-- The grammar has no non-terminal of this name. -/
  | unknownStart (name : String)

/-- What an error says of itself. -/
def GrammarError.message : GrammarError → String
  | empty => "empty ruleset"
  | arity rule => "rule `" ++ rule.render ++ "` is neither `X -> word` nor `X -> Y Z`"
  | probability rule prob =>
    "rule `" ++ rule.render ++ "` has probability " ++ prob.render ++
      ", expected a finite value in (0, 1]"
  | mixedWeights rule =>
    "rule `" ++ rule.render ++ "` has no probability, but other rules in the grammar do"
  | unknownStart name => "unknown start symbol " ++ name

/-- Looks at the probability of a rule, in a grammar that is weighted or not. -/
def Rule.checkProb (weighted : Bool) (r : Rule) : Except GrammarError Unit :=
  match r.prob with
  | none => if weighted then .error (.mixedWeights r) else .ok ()
  | some p => if p.isInRange then .ok () else .error (.probability r p)

end ChartParsing
