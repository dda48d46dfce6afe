import ChartParsing.Proofs.Grammar.Redefinition

/-!
# The numbers of the names

A grammar numbers its non-terminals without a gap, from zero on, and finds the number of a name and
the name of a number.  The names are numbered in the order in which the list of rules first brings
them: rule by rule, the parent before the right-hand side, and this from left to right.  Definitions
that are replaced later bring their names too.

* `name_eq_ok_iff`, `exists_name_eq_ok`: a symbol has a name if its number is small enough.
* `id_lt_of_mem_lexical`, `id_lt_of_mem_binary`, `id_lt_of_mem_lexicalRules`,
  `id_lt_of_mem_binaryRules`: no lookup gives another symbol.
* `numbered_of_ofRules`: **names and numbers correspond, in the order of first appearance**.
-/

namespace ChartParsing.Grammar

variable {g : Grammar}

/-! ## Names and symbols -/

theorem name_eq_ok_iff {s : Symbol} {x : String} : g.name s = .ok x ↔ g.name? s = some x := by
  rw [name]
  cases g.name? s with
  | none => simp
  | some y => simp

theorem name?_eq_none_iff {s : Symbol} : g.name? s = none ↔ g.symbolCount ≤ s.id :=
  Array.getElem?_eq_none_iff

theorem id_lt_of_symbol? {x : String} {s : Symbol} (h : g.symbol? x = some s) :
    s.id < g.symbolCount :=
  SymbolTable.id_lt_size_of_find? h

theorem exists_name?_eq_some {s : Symbol} (h : s.id < g.symbolCount) : ∃ x, g.name? s = some x :=
  ⟨_, Array.getElem?_eq_getElem h⟩

theorem exists_name_eq_ok {s : Symbol} (h : s.id < g.symbolCount) : ∃ x, g.name s = .ok x := by
  obtain ⟨x, hx⟩ := exists_name?_eq_some h
  exact ⟨x, name_eq_ok_iff.mpr hx⟩

/-! ## Symbols in the lookups -/

namespace Consistent

theorem id_lt_of_mem_lexical (h : g.Consistent) {word : String} {p : WeightedParent}
    (hp : p ∈ g.lexical word) : p.1.id < g.symbolCount := by
  obtain ⟨a, w⟩ := p
  obtain ⟨x, -, -, hx, -⟩ := h.mem_lexical_iff.mp hp
  exact id_lt_of_symbol? hx

theorem id_lt_of_mem_binary (h : g.Consistent) {left right : Symbol} {p : WeightedParent}
    (hp : p ∈ g.binary left right) : p.1.id < g.symbolCount := by
  obtain ⟨a, w⟩ := p
  obtain ⟨x, -, -, -, -, hx, -⟩ := h.mem_binary_iff.mp hp
  exact id_lt_of_symbol? hx

end Consistent

theorem id_lt_of_mem_lexicalRules {l : LexicalRule} (hl : l ∈ g.lexicalRules) :
    l.parent.id < g.symbolCount := by
  obtain ⟨r, -, hrule⟩ := List.mem_filterMap.mp hl
  exact id_lt_of_symbol? (Rule.lexical?_eq_some_iff.mp hrule).2

theorem id_lt_of_mem_binaryRules {b : BinaryRule} (hb : b ∈ g.binaryRules) :
    b.parent.id < g.symbolCount ∧ b.left.id < g.symbolCount ∧ b.right.id < g.symbolCount := by
  obtain ⟨r, -, hrule⟩ := List.mem_filterMap.mp hb
  obtain ⟨y, z, -, hx, hy, hz⟩ := Rule.binary?_eq_some_iff.mp hrule
  exact ⟨id_lt_of_symbol? hx, id_lt_of_symbol? hy, id_lt_of_symbol? hz⟩

/-! ## The order of the numbers -/

/-- **A name has the smaller number if it appears first.** -/
theorem id_lt_iff_of_ofRules {rules : List Rule} (h : ofRules rules = .ok g) {x y : String}
    {s t : Symbol} (hx : g.symbol? x = some s) (hy : g.symbol? y = some t) :
    s.id < t.id ↔ (rules.flatMap Rule.names).idxOf x < (rules.flatMap Rule.names).idxOf y := by
  have hfirst : FirstSeen (rules.flatMap Rule.names) g.symbols.names.toList := by
    rw [symbols_of_ofRules h]
    exact SymbolTable.firstSeen_ofNames _
  refine hfirst.lt_iff ?_ ?_
  · rw [Array.getElem?_toList]
    exact symbol?_eq_some_iff.mp hx
  · rw [Array.getElem?_toList]
    exact symbol?_eq_some_iff.mp hy

theorem exists_symbol?_iff_of_ofRules {rules : List Rule} (h : ofRules rules = .ok g) {x : String} :
    (∃ s, g.symbol? x = some s) ↔ ∃ r ∈ rules, x ∈ r.names := by
  rw [← List.mem_flatMap, ← (SymbolTable.firstSeen_ofNames _).mem_iff, SymbolTable.mem_names_iff,
    ← symbols_of_ofRules h]
  rfl

/-- The names in a list of rules correspond to the numbers of a grammar. -/
structure Numbered (rules : List Rule) (g : Grammar) : Prop where
  /-- There is no gap in the numbers. -/
  ids : ∀ s : Symbol, (∃ x, g.symbol? x = some s) ↔ s.id < g.symbolCount
  /-- A name that appears first has the smaller number. -/
  ordered : ∀ x y s t, g.symbol? x = some s → g.symbol? y = some t →
    (s.id < t.id ↔ (rules.flatMap Rule.names).idxOf x < (rules.flatMap Rule.names).idxOf y)
  /-- A symbol is that of its name. -/
  symbol?_name : ∀ s : Symbol, s.id < g.symbolCount → ∃ x, g.name s = .ok x ∧ g.symbol? x = some s
  /-- A name is that of its symbol. -/
  name_symbol? : ∀ x s, g.symbol? x = some s → g.name s = .ok x
  /-- Just the names that are in no rule have no symbol. -/
  symbol?_eq_none : ∀ x, g.symbol? x = none ↔ ∀ r ∈ rules, x ∉ r.names
  /-- Just the numbers that are too great have no name. -/
  name?_eq_none : ∀ s : Symbol, g.name? s = none ↔ g.symbolCount ≤ s.id
  start : g.start.id < g.symbolCount
  lexical : ∀ word, ∀ p ∈ g.lexical word, p.1.id < g.symbolCount
  binary : ∀ left right, ∀ p ∈ g.binary left right, p.1.id < g.symbolCount
  lexicalRules : ∀ l ∈ g.lexicalRules, l.parent.id < g.symbolCount
  binaryRules : ∀ b ∈ g.binaryRules, b.parent.id < g.symbolCount ∧ b.left.id < g.symbolCount ∧
    b.right.id < g.symbolCount

/-- **Names and numbers correspond, in the order of first appearance.**  The grammar of a list of
rules numbers the names in the list from zero on, without a gap, in the order in which they first
appear when the list is read rule by rule.  It finds the number of each of these names and the name
of each of these numbers, and none of any other.  The start symbol and all symbols that a lookup
gives have such a number. -/
theorem numbered_of_ofRules {rules : List Rule} (h : ofRules rules = .ok g) :
    Numbered rules g where
  ids := by
    intro s
    constructor
    · rintro ⟨x, hx⟩
      exact id_lt_of_symbol? hx
    · intro hs
      obtain ⟨x, hx⟩ := exists_name?_eq_some hs
      exact ⟨x, symbol?_eq_some_iff.mpr hx⟩
  ordered := fun _ _ _ _ => id_lt_iff_of_ofRules h
  symbol?_name := by
    intro s hs
    obtain ⟨x, hx⟩ := exists_name?_eq_some hs
    exact ⟨x, name_eq_ok_iff.mpr hx, symbol?_eq_some_iff.mpr hx⟩
  name_symbol? := fun _ _ hx => name_eq_ok_iff.mpr (symbol?_eq_some_iff.mp hx)
  symbol?_eq_none := by
    intro x
    rw [Option.eq_none_iff_forall_ne_some, ← not_exists, exists_symbol?_iff_of_ofRules h]
    simp
  name?_eq_none := fun _ => name?_eq_none_iff
  start := g.start_known
  lexical := fun _ _ hp => (Built.ofRules h).consistent.id_lt_of_mem_lexical hp
  binary := fun _ _ _ hp => (Built.ofRules h).consistent.id_lt_of_mem_binary hp
  lexicalRules := fun _ hl => id_lt_of_mem_lexicalRules hl
  binaryRules := fun _ hb => id_lt_of_mem_binaryRules hb

/-- Of the names of the redefining rules `C` appears before `X`, and no rule brings `D`. -/
theorem redefined_numbered : ofRules redefining = .ok redefined ∧ Numbered redefining redefined ∧
    redefined.symbol? "C" = some ⟨2⟩ ∧ redefined.symbol? "X" = some ⟨3⟩ ∧
    (redefining.flatMap Rule.names).idxOf "C" < (redefining.flatMap Rule.names).idxOf "X" ∧
    redefined.symbol? "D" = none ∧ redefined.name? ⟨4⟩ = none := by
  have hrules : ofRules redefining = .ok redefined := ofRules_of_offence?_eq_none rfl
  have hnumbered : Numbered redefining redefined := numbered_of_ofRules hrules
  have hc : redefined.symbol? "C" = some ⟨2⟩ := symbol?_eq_some_iff.mpr rfl
  have hx : redefined.symbol? "X" = some ⟨3⟩ := symbol?_eq_some_iff.mpr rfl
  refine ⟨hrules, hnumbered, hc, hx, ?_, ?_, ?_⟩
  · exact (hnumbered.ordered "C" "X" ⟨2⟩ ⟨3⟩ hc hx).mp (by decide)
  · exact (hnumbered.symbol?_eq_none "D").mpr (by decide)
  · exact (hnumbered.name?_eq_none ⟨4⟩).mpr (by decide)

end ChartParsing.Grammar
