import ChartParsing.Proofs.Grammar.Stages

/-!
# The grammars that can be built

A grammar is `Built` from a list of rules, possibly with another start symbol afterwards.  Every
built grammar is `Consistent`: its rules are well formed, distinct and in range, their names have
symbols, and the two indexes list exactly the rules of a word and of a pair of symbols.

* `ofRules_eq_ok_iff`: which lists of rules make a grammar.
* `Built.consistent`: the invariant.
* `Consistent.mem_lexical_iff`, `Consistent.mem_binary_iff`: what stands in an index is a rule with
  its names numbered.
-/

namespace ChartParsing

/-! ## Grouping by a key -/

section GroupByKey

variable {κ β : Type} {cmp : κ → κ → Ordering} [Std.TransCmp cmp] [Std.LawfulEqCmp cmp]
  [DecidableEq κ]

/-- **The index lists the values of a key in the order of the entries.** -/
theorem getD_groupByKey (entries : List (κ × β)) (k : κ) :
    (groupByKey cmp entries).getD k [] =
      (entries.filter fun e => e.1 = k).map Prod.snd := by
  have aux : ∀ (es : List (κ × β)) (index : Std.TreeMap κ (List β) cmp),
      (es.foldl (fun index e => addToIndex index e.1 e.2) index).getD k [] =
        index.getD k [] ++ (es.filter fun e => e.1 = k).map Prod.snd := by
    intro es
    induction es with
    | nil => intro index; simp
    | cons e es ih =>
      intro index
      rw [List.foldl_cons, ih, addToIndex, Std.TreeMap.getD_insert, List.filter_cons]
      by_cases he : e.1 = k
      · rw [if_pos (by rw [he]; exact Std.ReflCmp.compare_self), if_pos (by simpa using he), he]
        simp
      · rw [if_neg fun h => he (Std.LawfulEqCmp.eq_of_compare h), if_neg (by simpa using he)]
  rw [groupByKey, aux]
  simp

end GroupByKey

/-! ## Which lists make a grammar -/

namespace Rule

theorem offence?_eq_none_iff {weighted : Bool} {r : Rule} :
    r.offence? weighted = none ↔ r.isWellFormed = true ∧ (weighted = true → r.prob.isSome = true) ∧
      ∀ p, r.prob = some p → p.isInRange = true := by
  rw [offence?, checkProb]
  cases hp : r.prob with
  | none => cases weighted <;> cases r.isWellFormed <;> simp
  | some p => cases hr : p.isInRange <;> cases r.isWellFormed <;> simp [hr]

end Rule

namespace Grammar

/-- Every rule of the list is well formed; either none has a probability or each has one, and it is
in range. -/
def Accepted (rules : List Rule) : Prop :=
  ∀ r ∈ rules, r.isWellFormed = true ∧
    ((rules.any fun r => r.prob.isSome) = true → r.prob.isSome = true) ∧
      ∀ p, r.prob = some p → p.isInRange = true

theorem ofRules_eq_ok_iff {rules : List Rule} {g : Grammar} :
    ofRules rules = .ok g ↔
      ∃ first rest, rules = first :: rest ∧ Accepted rules ∧ g = assemble first rest := by
  have hnone : ∀ rs : List Rule,
      rs.findSome? (Rule.offence? (rs.any fun r => r.prob.isSome)) = none ↔ Accepted rs := by
    intro rs
    rw [List.findSome?_eq_none_iff]
    exact forall₂_congr fun r _ => Rule.offence?_eq_none_iff
  cases rules with
  | nil => exact ⟨fun h => absurd h (by simp [ofRules]), fun ⟨_, _, h, _⟩ => absurd h (by simp)⟩
  | cons first rest =>
    rw [ofRules_cons]
    split
    · rename_i e he
      refine ⟨fun h => absurd h (by simp), ?_⟩
      rintro ⟨f, r, heq, hacc, -⟩
      rw [(hnone _).mpr hacc] at he
      exact absurd he (by simp)
    · rename_i he
      refine ⟨fun h => ⟨first, rest, rfl, (hnone _).mp he, (Except.ok.inj h).symm⟩, ?_⟩
      rintro ⟨f, r, heq, -, rfl⟩
      cases heq
      rfl

theorem symbols_of_ofRules {rules : List Rule} {g : Grammar} (h : ofRules rules = .ok g) :
    g.symbols = SymbolTable.ofNames (rules.flatMap Rule.names) := by
  obtain ⟨first, rest, rfl, -, rfl⟩ := ofRules_eq_ok_iff.mp h
  rfl

theorem rules_of_ofRules {rules : List Rule} {g : Grammar} (h : ofRules rules = .ok g) :
    g.rules = Rule.lastDefinitions rules := by
  obtain ⟨first, rest, rfl, -, rfl⟩ := ofRules_eq_ok_iff.mp h
  rfl

/-- The grammars of lists of rules, and the same ones with other start symbols. -/
inductive Built : Grammar → Prop
  | ofRules {rules : List Rule} {g : Grammar} : ofRules rules = .ok g → Built g
  | withStart {g h : Grammar} {name : String} : Built g → g.withStart name = .ok h → Built h

theorem withStart_eq_ok_iff {g h : Grammar} {name : String} :
    g.withStart name = .ok h ↔
      ∃ s, ∃ hs : g.symbols.find? name = some s,
        h = { g with start := s, start_known := SymbolTable.id_lt_size_of_find? hs } := by
  rw [withStart]
  split
  · rename_i s hs
    constructor
    · intro h
      exact ⟨s, hs, (Except.ok.inj h).symm⟩
    · rintro ⟨s', hs', rfl⟩
      cases hs.symm.trans hs'
      rfl
  · rename_i hnone
    refine ⟨fun h => absurd h (by simp), ?_⟩
    rintro ⟨s, hs, -⟩
    rw [hnone] at hs
    exact absurd hs (by simp)

/-- What the rules, their symbols and the two indexes have to do with one another. -/
structure Consistent (g : Grammar) : Prop where
  known : ∀ r ∈ g.rules, ∀ x ∈ r.names, ∃ s, g.symbol? x = some s
  wellFormed : ∀ r ∈ g.rules, r.isWellFormed = true
  distinct : Rule.Distinct g.rules
  inRange : ∀ r ∈ g.rules, ∀ p, r.prob = some p → p.isInRange = true
  lexical_eq : ∀ word, g.lexical word =
    (g.lexicalRules.filter fun r => r.word = word).map fun r => (r.parent, Rule.weightOf r.prob)
  binary_eq : ∀ left right, g.binary left right =
    (g.binaryRules.filter fun r => (r.left, r.right) = (left, right)).map fun r =>
      (r.parent, Rule.weightOf r.prob)

theorem consistent_assemble {first : Rule} {rest : List Rule} (h : Accepted (first :: rest)) :
    (assemble first rest).Consistent where
  known := fun r hr x hx => SymbolTable.exists_find?_ofNames
    (List.mem_flatMap.mpr ⟨r, Rule.mem_of_mem_lastDefinitions hr, hx⟩)
  wellFormed := fun r hr => (h r (Rule.mem_of_mem_lastDefinitions hr)).1
  distinct := Rule.distinct_lastDefinitions _
  inRange := fun r hr => (h r (Rule.mem_of_mem_lastDefinitions hr)).2.2
  lexical_eq := by
    intro word
    rw [lexical, assemble, getD_groupByKey, List.filter_map, List.map_map]
    rfl
  binary_eq := by
    intro left right
    rw [binary, assemble, getD_groupByKey, List.filter_map, List.map_map]
    rfl

theorem Built.consistent {g : Grammar} (h : g.Built) : g.Consistent := by
  induction h with
  | ofRules hrules =>
    obtain ⟨first, rest, rfl, hacc, rfl⟩ := ofRules_eq_ok_iff.mp hrules
    exact consistent_assemble hacc
  | withStart _ hstart ih =>
    obtain ⟨s, hs, rfl⟩ := withStart_eq_ok_iff.mp hstart
    exact ⟨ih.known, ih.wellFormed, ih.distinct, ih.inRange, ih.lexical_eq, ih.binary_eq⟩

/-- **The names of a grammar** are those of its rules. -/
theorem Built.known_iff {g : Grammar} (h : g.Built) {x : String} :
    (∃ s, g.symbol? x = some s) ↔ ∃ r ∈ g.rules, x ∈ r.names := by
  constructor
  · rintro ⟨s, hs⟩
    induction h with
    | ofRules hrules =>
      rw [symbol?, symbols_of_ofRules hrules, ← ofNames_lastDefinitions] at hs
      rw [rules_of_ofRules hrules]
      exact List.mem_flatMap.mp
        (SymbolTable.mem_of_name?_ofNames (SymbolTable.find?_eq_some_iff.mp hs))
    | withStart _ hstart ih =>
      obtain ⟨t, ht, rfl⟩ := withStart_eq_ok_iff.mp hstart
      exact ih hs
  · rintro ⟨r, hr, hx⟩
    exact h.consistent.known r hr x hx

/-! ## The indexes -/

namespace Consistent

variable {g : Grammar}

/-- **The parents of a word** are those of its lexical rules. -/
theorem mem_lexical_iff (h : g.Consistent) {word : String} {a : Symbol} {w : Float} :
    (a, w) ∈ g.lexical word ↔ ∃ x p, Rule.lexical x word p ∈ g.rules ∧
      g.symbol? x = some a ∧ w = Rule.weightOf p := by
  rw [h.lexical_eq, List.mem_map]
  constructor
  · rintro ⟨l, hl, heq⟩
    obtain ⟨hmem, hword⟩ := List.mem_filter.mp hl
    obtain ⟨r, hr, hrule⟩ := List.mem_filterMap.mp hmem
    obtain ⟨hshape, hfind⟩ := Rule.lexical?_eq_some_iff.mp hrule
    cases heq
    refine ⟨r.parent, l.prob, ?_, hfind, rfl⟩
    rw [← of_decide_eq_true hword, ← hshape]
    exact hr
  · rintro ⟨x, p, hr, hx, rfl⟩
    refine ⟨⟨a, word, p⟩, List.mem_filter.mpr ⟨List.mem_filterMap.mpr ⟨_, hr, ?_⟩, by simp⟩, rfl⟩
    exact Rule.lexical?_eq_some_iff.mpr ⟨rfl, hx⟩

/-- **The parents of two symbols** are those of their binary rules. -/
theorem mem_binary_iff (h : g.Consistent) {left right a : Symbol} {w : Float} :
    (a, w) ∈ g.binary left right ↔ ∃ x y z p, Rule.binary x y z p ∈ g.rules ∧
      g.symbol? x = some a ∧ g.symbol? y = some left ∧ g.symbol? z = some right ∧
        w = Rule.weightOf p := by
  rw [h.binary_eq, List.mem_map]
  constructor
  · rintro ⟨b, hb, heq⟩
    obtain ⟨hmem, hpair⟩ := List.mem_filter.mp hb
    obtain ⟨r, hr, hrule⟩ := List.mem_filterMap.mp hmem
    obtain ⟨y, z, hshape, hx, hy, hz⟩ := Rule.binary?_eq_some_iff.mp hrule
    obtain ⟨rfl, rfl⟩ := Prod.mk.inj (of_decide_eq_true hpair)
    cases heq
    exact ⟨r.parent, y, z, b.prob, hshape ▸ hr, hx, hy, hz, rfl⟩
  · rintro ⟨x, y, z, p, hr, hx, hy, hz, rfl⟩
    refine ⟨⟨a, left, right, p⟩,
      List.mem_filter.mpr ⟨List.mem_filterMap.mpr ⟨_, hr, ?_⟩, by simp⟩, rfl⟩
    exact Rule.binary?_eq_some_iff.mpr ⟨y, z, rfl, hx, hy, hz⟩

end Consistent

theorem symbol?_eq_some_iff {g : Grammar} {x : String} {s : Symbol} :
    g.symbol? x = some s ↔ g.name? s = some x :=
  SymbolTable.find?_eq_some_iff

theorem symbol?_injective {g : Grammar} {x y : String} {s : Symbol} (hx : g.symbol? x = some s)
    (hy : g.symbol? y = some s) : x = y :=
  SymbolTable.find?_injective hx hy

theorem symbol?_startName {g : Grammar} : g.symbol? g.startName = some g.start :=
  symbol?_eq_some_iff.mpr (Array.getElem?_eq_getElem g.start_known)

/-! ## A small grammar -/

/-- One half. -/
def half : Probability := ⟨0x3FE0000000000000⟩

/-- The grammar `S -> S S | a`, each rule with probability one half.  A sentence of three words or
more has several derivations. -/
def repeating : Grammar :=
  assemble (Rule.binary "S" "S" "S" (some half)) [Rule.lexical "S" "a" (some half)]

theorem rules_repeating : repeating.rules =
    [Rule.binary "S" "S" "S" (some half), Rule.lexical "S" "a" (some half)] :=
  rfl

theorem ofRules_repeating : ofRules repeating.rules = .ok repeating :=
  ofRules_of_offence?_eq_none rfl

theorem built_repeating : repeating.Built :=
  .ofRules ofRules_repeating

end Grammar

end ChartParsing
