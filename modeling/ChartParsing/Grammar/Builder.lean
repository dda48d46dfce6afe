import ChartParsing.Grammar.Error
import ChartParsing.Sequencing
import ChartParsing.Symbol
import Std.Data.HashMap.Lemmas

/-!
# Reading a list of rules

A list of rules is read in one pass. Each rule is checked, its names become symbols, and it is kept
with its key. A rule with a known key is a later definition of the rule that is kept with it, and
takes its place. The parents of a word and of two symbols are found by the keys.

* `Builder.add`: one rule of the list.
* `Indexes.ofKept`: the indexes of the rules that are kept.
-/

namespace ChartParsing

/-- What a rule defines, with symbols for names: its parent and its right-hand side. -/
inductive RuleKey where
  | lexical (parent : Symbol) (word : String)
  | binary (parent left right : Symbol)
deriving DecidableEq, Hashable

/-- The key of a rule, and the table with the names of the rule. -/
def RuleKey.ofRule (symbols : SymbolTable) (rule : Rule) :
    Except GrammarError (SymbolTable × RuleKey) :=
  if rule.parent = "" then .error (.arity rule)
  else
    let (symbols, parent) := symbols.intern rule.parent
    match rule.items with
    | [.word word] => .ok (symbols, .lexical parent word)
    | [.nonterminal left, .nonterminal right] =>
      let (symbols, left) := symbols.intern left
      let (symbols, right) := symbols.intern right
      .ok (symbols, .binary parent left right)
    | _ => .error (.arity rule)

/-- The rules of a list that are kept so far. -/
structure Builder where
  symbols : SymbolTable
  /-- One rule for each key, in the order in which the keys first appear. -/
  kept : Array (RuleKey × Rule)
  /-- The place of a key. -/
  seen : Std.HashMap RuleKey Nat
  seen_iff : ∀ (key : RuleKey) (i : Nat), seen[key]? = some i ↔ kept[i]?.map Prod.fst = some key

namespace Builder

/-- The builder before the first rule. -/
def empty : Builder where
  symbols := .empty
  kept := #[]
  seen := ∅
  seen_iff := by simp

/-- Keeps a rule, in the place of the one with its key if there is one. -/
def keep (b : Builder) (key : RuleKey) (rule : Rule) : Builder :=
  match h : b.seen[key]? with
  | some i =>
    { b with
      kept := b.kept.modify i fun e => (e.1, rule)
      seen_iff := by
        intro other j
        rw [b.seen_iff, Array.getElem?_modify]
        split
        · rw [Option.map_map]
          rfl
        · rfl }
  | none =>
    { b with
      kept := b.kept.push (key, rule)
      seen := b.seen.insert key b.kept.size
      seen_iff := by
        intro other j
        have hfresh : b.kept[j]?.map Prod.fst ≠ some key := fun hj => by
          rw [(b.seen_iff key j).mpr hj] at h
          exact absurd h (by simp)
        rw [Std.HashMap.getElem?_insert, Array.getElem?_push]
        by_cases hkey : key = other
        · subst hkey
          by_cases hj : j = b.kept.size
          · simp [hj]
          · simp [hj, hfresh, Ne.symm hj]
        · by_cases hj : j = b.kept.size
          · simp [hj, hkey, b.seen_iff]
          · simp [hj, hkey, b.seen_iff] }

/-- Reads a rule of a list in which some rule has a probability, or none has. -/
def add (weighted : Bool) (b : Builder) (rule : Rule) : Except GrammarError Builder := do
  rule.checkProb weighted
  let (symbols, key) ← RuleKey.ofRule b.symbols rule
  return { b with symbols }.keep key rule

theorem symbols_keep (b : Builder) (key : RuleKey) (rule : Rule) :
    (b.keep key rule).symbols = b.symbols := by
  unfold keep
  split <;> rfl

theorem size_pos_of_ofRule {symbols symbols' : SymbolTable} {rule : Rule} {key : RuleKey}
    (h : RuleKey.ofRule symbols rule = .ok (symbols', key)) : 0 < symbols'.size := by
  rw [RuleKey.ofRule] at h
  split at h
  · exact absurd h (by simp)
  · dsimp only at h
    split at h
    · rw [← (Prod.mk.inj (Except.ok.inj h)).1]
      exact SymbolTable.size_pos_insert _ _
    · rw [← (Prod.mk.inj (Except.ok.inj h)).1]
      exact SymbolTable.size_pos_insert _ _
    · exact absurd h (by simp)

theorem size_pos_of_add {weighted : Bool} {b b' : Builder} {rule : Rule}
    (h : b.add weighted rule = .ok b') : 0 < b'.symbols.size := by
  obtain ⟨-, -, h⟩ := bind_eq_ok.mp h
  obtain ⟨⟨symbols, key⟩, hkey, hb⟩ := bind_eq_ok.mp h
  rw [← Except.ok.inj hb, symbols_keep]
  exact size_pos_of_ofRule hkey

/-- A list with a rule in it has a symbol. -/
theorem size_pos_of_foldlM {weighted : Bool} {b b' : Builder} (first : Rule) (rest : List Rule)
    (h : (first :: rest).foldlM (add weighted) b = .ok b') : 0 < b'.symbols.size := by
  induction rest generalizing first b with
  | nil =>
    obtain ⟨b₁, hfirst, hb⟩ := bind_eq_ok.mp h
    rw [← Except.ok.inj hb]
    exact size_pos_of_add hfirst
  | cons second rest ih =>
    obtain ⟨b₁, -, hrest⟩ := bind_eq_ok.mp h
    exact ih second hrest

end Builder

/-! ## Indexes -/

/-- What a rule without probability weighs is one. -/
def Rule.weightOf : Option Probability → Float
  | none => 1
  | some p => p.value

/-- A parent that an index gives, with the weight of its rule. -/
abbrev WeightedParent := Symbol × Float

/-- The index with one more value of a key, behind the others. -/
def addToIndex {κ β : Type} {cmp : κ → κ → Ordering} (index : Std.TreeMap κ (List β) cmp) (key : κ)
    (value : β) : Std.TreeMap κ (List β) cmp :=
  index.insert key (index.getD key [] ++ [value])

/-- Where the parents of a word and of two symbols are found. -/
structure Indexes where
  words : Std.TreeMap String (List WeightedParent)
  pairs : Std.TreeMap (Symbol × Symbol) (List WeightedParent) Symbol.comparePairs

namespace Indexes

/-- The indexes with one more rule. -/
def add (indexes : Indexes) (e : RuleKey × Rule) : Indexes :=
  let weight := Rule.weightOf e.2.prob
  match e.1 with
  | .lexical parent word =>
    { indexes with words := addToIndex indexes.words word (parent, weight) }
  | .binary parent left right =>
    { indexes with pairs := addToIndex indexes.pairs (left, right) (parent, weight) }

/-- The indexes of the rules that are kept. -/
def ofKept (kept : Array (RuleKey × Rule)) : Indexes :=
  kept.foldl add ⟨∅, ∅⟩

end Indexes

end ChartParsing
