import ChartParsing.Proofs.Grammar.Built
import Mathlib.Data.List.Forall2
import Mathlib.Data.List.Nodup

/-!
# The lookups of a grammar and its rules

A grammar shows its rules in several ways: as a list, as two lists with symbols for names, and by
two indexes that lead from a right-hand side to the parents.  All of them show the same rules in the
same order.  Two rules with one right-hand side have different parents, so an index gives no parent
twice.

* `Grammar.IsParentOf`: a parent with its weight stands for a rule.
* `Grammar.Consistent.forall₂_lexicalRules`, `Grammar.Consistent.forall₂_binaryRules`: the numbered
  rules stand for the written ones.
* `Grammar.Consistent.forall₂_lexical`, `Grammar.Consistent.forall₂_binary`: so do the parents that
  the indexes give.
* `Grammar.indexed_of_built`: all the lookups of a grammar that can be built.
-/

namespace ChartParsing

/-- The values of a partial function stand, one by one, for the elements it is defined on. -/
theorem forall₂_filterMap {α β : Type} {f : α → Option β} {q : α → Bool} {l : List α}
    (h : ∀ a ∈ l, (f a).isSome = q a) :
    List.Forall₂ (fun b a => f a = some b) (l.filterMap f) (l.filter q) := by
  induction l with
  | nil => exact .nil
  | cons a l ih =>
    have hrest := ih fun a' ha' => h a' (List.mem_cons_of_mem a ha')
    have ha := h a List.mem_cons_self
    cases hf : f a with
    | none =>
      rw [List.filterMap_cons_none hf, List.filter_cons_of_neg (by simp [← ha, hf])]
      exact hrest
    | some b =>
      rw [List.filterMap_cons_some hf, List.filter_cons_of_pos (by simp [← ha, hf])]
      exact .cons hf hrest

/-- A second choice that implies the first one can be made at once. -/
theorem filter_filter_of_imp {α : Type} {p q : α → Bool} {l : List α}
    (h : ∀ a, p a = true → q a = true) : (l.filter q).filter p = l.filter p := by
  rw [List.filter_filter]
  refine List.filter_congr fun a _ => ?_
  cases hp : p a with
  | false => rfl
  | true => rw [h a hp]; rfl

namespace Rule

/-- Whether the right-hand side is a word. -/
def isLexical (r : Rule) : Bool :=
  match r.items with
  | [.word _] => true
  | _ => false

/-- Whether the right-hand side is this word. -/
def hasWord (word : String) (r : Rule) : Bool :=
  r.items = [.word word]

/-- Whether the right-hand side is the non-terminals of these two names.  A missing name is the name
of no non-terminal. -/
def hasPair (left right : Option String) (r : Rule) : Bool :=
  match r.items with
  | [.nonterminal y, .nonterminal z] => left = some y && right = some z
  | _ => false

theorem isLexical_of_hasWord {word : String} {r : Rule} (h : r.hasWord word = true) :
    r.isLexical = true := by
  rw [isLexical, of_decide_eq_true h]

theorem items_eq_of_hasWord {word : String} {r s : Rule} (hr : r.hasWord word = true)
    (hs : s.hasWord word = true) : r.items = s.items :=
  (of_decide_eq_true hr).trans (of_decide_eq_true hs).symm

theorem items_of_hasPair {left right : Option String} {r : Rule}
    (h : r.hasPair left right = true) :
    ∃ y z, left = some y ∧ right = some z ∧ r.items = [.nonterminal y, .nonterminal z] := by
  rw [hasPair] at h
  split at h
  · rename_i y z hitems
    rw [Bool.and_eq_true, decide_eq_true_eq, decide_eq_true_eq] at h
    exact ⟨y, z, h.1, h.2, hitems⟩
  · exact absurd h (by decide)

theorem isLexical_of_hasPair {left right : Option String} {r : Rule}
    (h : r.hasPair left right = true) : (!r.isLexical) = true := by
  obtain ⟨y, z, -, -, hitems⟩ := items_of_hasPair h
  rw [isLexical, hitems]
  rfl

theorem items_eq_of_hasPair {left right : Option String} {r s : Rule}
    (hr : r.hasPair left right = true) (hs : s.hasPair left right = true) :
    r.items = s.items := by
  obtain ⟨y, z, rfl, rfl, hitems⟩ := items_of_hasPair hr
  obtain ⟨_, _, ⟨⟩, ⟨⟩, hitems'⟩ := items_of_hasPair hs
  exact hitems.trans hitems'.symm

/-- Distinct rules with one right-hand side have distinct parents. -/
theorem Distinct.parents_ne {rules : List Rule} (h : Distinct rules) {q : Rule → Bool}
    (hq : ∀ r s, q r = true → q s = true → r.items = s.items) :
    (rules.filter q).Pairwise fun r s => r.parent ≠ s.parent := by
  refine (h.filter q).imp_of_mem ?_
  intro r s hr hs hne hparent
  have hitems : r.items = s.items :=
    hq r s (List.of_mem_filter hr) (List.of_mem_filter hs)
  rw [sameShape_iff.mpr ⟨hparent, hitems⟩] at hne
  exact absurd hne (by decide)

end Rule

namespace Grammar

variable {g : Grammar}

/-- The parent, as a symbol with a weight, is that of the rule. -/
def IsParentOf (g : Grammar) (p : WeightedParent) (r : Rule) : Prop :=
  g.symbol? r.parent = some p.1 ∧ p.2 = Rule.weightOf r.prob

/-- The lexical rule is the rule `r` with a symbol for the name of its parent. -/
def IsLexicalOf (g : Grammar) (l : LexicalRule) (r : Rule) : Prop :=
  r = Rule.lexical r.parent l.word l.prob ∧ g.symbol? r.parent = some l.parent

/-- The binary rule is the rule `r` with symbols for the names of its non-terminals. -/
def IsBinaryOf (g : Grammar) (b : BinaryRule) (r : Rule) : Prop :=
  ∃ y z, r = Rule.binary r.parent y z b.prob ∧
    g.symbol? r.parent = some b.parent ∧ g.symbol? y = some b.left ∧ g.symbol? z = some b.right

/-- The lookups of a grammar agree with the list of its rules. -/
structure Indexed (g : Grammar) : Prop where
  /-- Each name in a rule has a symbol. -/
  known : ∀ r ∈ g.rules, ∀ x ∈ r.names, ∃ s, g.symbol? x = some s
  /-- The parents of a word are those of its rules, in rule order. -/
  lexical : ∀ word, List.Forall₂ g.IsParentOf (g.lexical word) (g.rules.filter (Rule.hasWord word))
  /-- The parents of two symbols are those of the rules with their names, in rule order. -/
  binary : ∀ left right, List.Forall₂ g.IsParentOf (g.binary left right)
    (g.rules.filter (Rule.hasPair (g.name? left) (g.name? right)))
  /-- No parent of a word is given twice. -/
  lexical_nodup : ∀ word, ((g.lexical word).map Prod.fst).Nodup
  /-- No parent of two symbols is given twice. -/
  binary_nodup : ∀ left right, ((g.binary left right).map Prod.fst).Nodup
  hasLexical_iff : ∀ parent word, g.hasLexical parent word = true ↔
    ∃ r ∈ g.rules, r.hasWord word = true ∧ g.symbol? r.parent = some parent
  hasBinary_iff : ∀ parent left right, g.hasBinary parent left right = true ↔
    ∃ r ∈ g.rules, r.hasPair (g.name? left) (g.name? right) = true ∧
      g.symbol? r.parent = some parent
  /-- The rules with a word are listed, in rule order. -/
  lexicalRules : List.Forall₂ g.IsLexicalOf g.lexicalRules (g.rules.filter Rule.isLexical)
  /-- All the other rules are listed, in rule order. -/
  binaryRules : List.Forall₂ g.IsBinaryOf g.binaryRules
    (g.rules.filter fun r => !r.isLexical)

/-! ## The numbered rules -/

theorem Consistent.exists_symbol_parent (h : g.Consistent) {r : Rule} (hr : r ∈ g.rules) :
    ∃ s, g.symbol? r.parent = some s :=
  h.known r hr r.parent List.mem_cons_self

/-- A rule is numbered as a lexical rule just when it has a word. -/
theorem Consistent.isSome_lexical? (h : g.Consistent) {r : Rule} (hr : r ∈ g.rules) :
    (r.lexical? g.symbols).isSome = r.isLexical := by
  obtain ⟨-, ⟨w, heq⟩ | ⟨y, z, heq⟩⟩ := Rule.eq_lexical_or_binary (h.wellFormed r hr)
  · obtain ⟨s, hs⟩ := h.exists_symbol_parent hr
    have hsome : r.lexical? g.symbols = some ⟨s, w, r.prob⟩ :=
      Rule.lexical?_eq_some_iff.mpr ⟨heq, hs⟩
    rw [hsome, heq]
    rfl
  · rw [heq]
    rfl

/-- A rule is numbered as a binary rule just when it has no word. -/
theorem Consistent.isSome_binary? (h : g.Consistent) {r : Rule} (hr : r ∈ g.rules) :
    (r.binary? g.symbols).isSome = !r.isLexical := by
  obtain ⟨-, ⟨w, heq⟩ | ⟨y, z, heq⟩⟩ := Rule.eq_lexical_or_binary (h.wellFormed r hr)
  · rw [heq]
    rfl
  · obtain ⟨s, hs⟩ := h.exists_symbol_parent hr
    obtain ⟨l, hl⟩ := h.known r hr y (by rw [heq]; simp [Rule.binary, Rule.names])
    obtain ⟨c, hc⟩ := h.known r hr z (by rw [heq]; simp [Rule.binary, Rule.names])
    have hsome : r.binary? g.symbols = some ⟨s, l, c, r.prob⟩ :=
      Rule.binary?_eq_some_iff.mpr ⟨y, z, heq, hs, hl, hc⟩
    rw [hsome, heq]
    rfl

/-- **The lexical rules are the rules with a word.** -/
theorem Consistent.forall₂_lexicalRules (h : g.Consistent) :
    List.Forall₂ g.IsLexicalOf g.lexicalRules (g.rules.filter Rule.isLexical) :=
  (forall₂_filterMap fun _ hr => h.isSome_lexical? hr).imp
    fun _ _ heq => Rule.lexical?_eq_some_iff.mp heq

/-- **The binary rules are the other rules.** -/
theorem Consistent.forall₂_binaryRules (h : g.Consistent) :
    List.Forall₂ g.IsBinaryOf g.binaryRules (g.rules.filter fun r => !r.isLexical) :=
  (forall₂_filterMap fun _ hr => h.isSome_binary? hr).imp
    fun _ _ heq => Rule.binary?_eq_some_iff.mp heq

/-! ## The indexes -/

/-- A numbered rule has the word of the rule it stands for. -/
theorem IsLexicalOf.hasWord_iff {l : LexicalRule} {r : Rule} (h : g.IsLexicalOf l r)
    (word : String) : l.word = word ↔ r.hasWord word = true := by
  rw [h.1, Rule.hasWord, Rule.lexical, decide_eq_true_eq]
  simp

/-- A numbered rule has two symbols just when the rule it stands for has their names. -/
theorem IsBinaryOf.hasPair_iff {b : BinaryRule} {r : Rule} (h : g.IsBinaryOf b r)
    (left right : Symbol) : (b.left, b.right) = (left, right) ↔
      r.hasPair (g.name? left) (g.name? right) = true := by
  obtain ⟨y, z, heq, -, hy, hz⟩ := h
  have hiff : ∀ {x : String} {s : Symbol}, g.symbol? x = some s →
      ∀ t : Symbol, s = t ↔ g.name? t = some x := by
    intro x s hs t
    rw [← symbol?_eq_some_iff, hs, Option.some.injEq]
  rw [heq, Rule.hasPair, Rule.binary, Prod.mk.injEq, Bool.and_eq_true, decide_eq_true_eq,
    decide_eq_true_eq, hiff hy left, hiff hz right]

/-- **The parents of a word** are those of its rules. -/
theorem Consistent.forall₂_lexical (h : g.Consistent) (word : String) :
    List.Forall₂ g.IsParentOf (g.lexical word) (g.rules.filter (Rule.hasWord word)) := by
  rw [h.lexical_eq, ← filter_filter_of_imp fun _ => Rule.isLexical_of_hasWord,
    List.forall₂_map_left_iff]
  refine (List.rel_filter ?_ h.forall₂_lexicalRules).imp ?_
  · intro l r hlr
    exact decide_eq_true_iff.trans (hlr.hasWord_iff word)
  · rintro l r ⟨heq, hs⟩
    exact ⟨hs, by rw [heq, Rule.lexical]⟩

/-- **The parents of two symbols** are those of the rules with their names. -/
theorem Consistent.forall₂_binary (h : g.Consistent) (left right : Symbol) :
    List.Forall₂ g.IsParentOf (g.binary left right)
      (g.rules.filter (Rule.hasPair (g.name? left) (g.name? right))) := by
  rw [h.binary_eq, ← filter_filter_of_imp fun _ => Rule.isLexical_of_hasPair,
    List.forall₂_map_left_iff]
  refine (List.rel_filter ?_ h.forall₂_binaryRules).imp ?_
  · intro b r hbr
    exact decide_eq_true_iff.trans (hbr.hasPair_iff left right)
  · rintro b r ⟨y, z, heq, hs, -⟩
    exact ⟨hs, by rw [heq, Rule.binary]⟩

/-- The symbols of a list of parents are those of the rules they stand for. -/
theorem exists_mem_iff_of_forall₂ {ps : List WeightedParent} {rules : List Rule}
    (h : List.Forall₂ g.IsParentOf ps rules) (s : Symbol) :
    (∃ p ∈ ps, p.1 = s) ↔ ∃ r ∈ rules, g.symbol? r.parent = some s := by
  induction h with
  | nil => simp
  | cons hpr _ ih => simp [ih, hpr.1]

/-- Parents of rules that differ in their parents are distinct. -/
theorem nodup_of_forall₂ {ps : List WeightedParent} {rules : List Rule}
    (h : List.Forall₂ g.IsParentOf ps rules)
    (hne : rules.Pairwise fun r s => r.parent ≠ s.parent) : (ps.map Prod.fst).Nodup := by
  induction h with
  | nil => exact .nil
  | @cons p r ps rules hpr hrest ih =>
    obtain ⟨hfirst, hothers⟩ := List.pairwise_cons.mp hne
    rw [List.map_cons, List.nodup_cons]
    refine ⟨fun hmem => ?_, ih hothers⟩
    obtain ⟨s, hs, hparent⟩ :=
      (exists_mem_iff_of_forall₂ hrest p.1).mp (List.mem_map.mp hmem)
    exact hfirst s hs (symbol?_injective hpr.1 hparent)

/-- Some parent in an index is the symbol just when it is the parent of a rule. -/
theorem any_iff_of_forall₂ {ps : List WeightedParent} {q : Rule → Bool}
    (h : List.Forall₂ g.IsParentOf ps (g.rules.filter q)) (s : Symbol) :
    (ps.any fun p => p.1 = s) = true ↔
      ∃ r ∈ g.rules, q r = true ∧ g.symbol? r.parent = some s := by
  simp only [List.any_eq_true, decide_eq_true_eq, exists_mem_iff_of_forall₂ h, List.mem_filter,
    and_assoc]

/-- **All lookups show the same rules.**  In a grammar that can be built every name has a symbol.
The parents of a word, and those of two symbols, are the parents of the rules with that right-hand
side, each with the weight of its rule, in rule order and without repetition; symbols that the
grammar does not have are on no right-hand side.  Each rule stands in one of the two lists of
numbered rules, which keep the order of the rules. -/
theorem indexed_of_built (h : g.Built) : g.Indexed := by
  have hc := h.consistent
  refine ⟨hc.known, hc.forall₂_lexical, hc.forall₂_binary, ?nodupWord, ?nodupPair, ?hasWord,
    ?hasPair, hc.forall₂_lexicalRules, hc.forall₂_binaryRules⟩
  case nodupWord =>
    intro word
    exact nodup_of_forall₂ (hc.forall₂_lexical word)
      (hc.distinct.parents_ne fun _ _ => Rule.items_eq_of_hasWord)
  case nodupPair =>
    intro left right
    exact nodup_of_forall₂ (hc.forall₂_binary left right)
      (hc.distinct.parents_ne fun _ _ => Rule.items_eq_of_hasPair)
  case hasWord =>
    intro parent word
    exact any_iff_of_forall₂ (hc.forall₂_lexical word) parent
  case hasPair =>
    intro parent left right
    exact any_iff_of_forall₂ (hc.forall₂_binary left right) parent

/-- In the repeating grammar the one parent of two symbols `S` is that of the rule `S -> S S`, and
an unknown symbol has no parents. -/
theorem indexed_repeating : repeating.Built ∧ repeating.Indexed ∧
    List.Forall₂ repeating.IsParentOf (repeating.binary ⟨0⟩ ⟨0⟩)
      [Rule.binary "S" "S" "S" (some half)] ∧
    List.Forall₂ repeating.IsParentOf (repeating.binary ⟨0⟩ ⟨7⟩) [] := by
  have hindexed : repeating.Indexed := indexed_of_built built_repeating
  exact ⟨built_repeating, hindexed, hindexed.binary ⟨0⟩ ⟨0⟩, hindexed.binary ⟨0⟩ ⟨7⟩⟩

end Grammar

end ChartParsing
