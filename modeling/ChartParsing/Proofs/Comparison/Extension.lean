import ChartParsing.Proofs.Comparison.Scores
import ChartParsing.Proofs.Recognition

/-!
# More rules

When rules are added to a list, a name keeps the number it has, since names are numbered in the
order of their first appearance.  A rule that is kept from the list stays, or a later definition
takes its place.  So if no definition lowers a probability, the grammar of the shorter list is below
that of the longer one, and all cells grow.

* `symbol?_of_append`: names keep their numbers.
* `exists_mem_foldl_define`: what becomes of a kept rule.
* `below_of_append`: the comparison of the two grammars.
* `charts_grow_with_rules`: the two charts.
-/

namespace ChartParsing

open Binary64

/-! ## Rules -/

namespace Rule

/-- A definition leaves a rule or takes its place. -/
theorem exists_mem_define {k : Rule} (rule : Rule) {kept : List Rule} (hk : k ∈ kept) :
    ∃ q ∈ define rule kept, q.sameShape k = true ∧ (q = k ∨ q = rule) := by
  have hself : k.sameShape k = true := sameShape_iff.mpr ⟨rfl, rfl⟩
  rcases known_or_new rule kept with hknown | hnew
  · obtain ⟨before, r, after, rfl, hr, hdefine⟩ := define_of_known hknown
    rw [hdefine]
    rcases List.mem_append.mp hk with hbefore | hrest
    · exact ⟨k, List.mem_append_left _ hbefore, hself, .inl rfl⟩
    · rcases List.mem_cons.mp hrest with rfl | hafter
      · exact ⟨rule, by simp, by rw [sameShape_comm, hr], .inr rfl⟩
      · exact ⟨k, List.mem_append_right _ (List.mem_cons_of_mem _ hafter), hself, .inl rfl⟩
  · rw [define_of_new hnew]
    exact ⟨k, List.mem_append_left _ hk, hself, .inl rfl⟩

/-- **Definitions leave a rule, or the last of its shape takes its place.** -/
theorem exists_mem_foldl_define (more : List Rule) {kept : List Rule} {k : Rule} (hk : k ∈ kept) :
    ∃ q ∈ more.foldl (fun kept rule => define rule kept) kept,
      q.sameShape k = true ∧ (q = k ∨ q ∈ more) := by
  induction more generalizing kept k with
  | nil => exact ⟨k, hk, sameShape_iff.mpr ⟨rfl, rfl⟩, .inl rfl⟩
  | cons rule rules ih =>
    obtain ⟨k', hk', hshape, hor⟩ := exists_mem_define rule hk
    obtain ⟨q, hq, hshape', hor'⟩ := ih hk'
    refine ⟨q, hq, (sameShape_congr_left hshape').trans hshape, ?_⟩
    rcases hor' with rfl | hmem
    · exact hor.imp id fun heq => List.mem_cons.mpr (.inl heq)
    · exact .inr (List.mem_cons_of_mem rule hmem)

theorem eq_of_sameShape {q r : Rule} (h : q.sameShape r = true) :
    { r with prob := q.prob } = q := by
  obtain ⟨hparent, hitems⟩ := sameShape_iff.mp h
  rw [← hparent, ← hitems]

end Rule

namespace Grammar

variable {rules more : List Rule} {g h : Grammar}

/-- **Names keep their numbers.** -/
theorem symbol?_of_append (hg : ofRules rules = .ok g) (hh : ofRules (rules ++ more) = .ok h)
    {x : String} {s : Symbol} (hx : g.symbol? x = some s) : h.symbol? x = some s := by
  rw [symbol?, symbols_of_ofRules hg] at hx
  rw [symbol?, symbols_of_ofRules hh, List.flatMap_append, SymbolTable.ofNames_append]
  exact SymbolTable.find?_foldl_of_find? _ hx

/-- **The longer list is above the shorter one** if no definition lowers a probability. -/
theorem below_of_append (hg : ofRules rules = .ok g) (hh : ofRules (rules ++ more) = .ok h)
    (hmore : ∀ e ∈ more, ∀ r ∈ g.rules, e.sameShape r = true →
      ¬ Rule.weightOf e.prob < Rule.weightOf r.prob) : g.Below h := by
  have hgUnit := fun r hr => (Built.ofRules hg).consistent.inUnit_weightOf (r := r) hr
  have hhUnit := fun r hr => (Built.ofRules hh).consistent.inUnit_weightOf (r := r) hr
  intro r hr
  have hkept : r ∈ Rule.lastDefinitions rules := rules_of_ofRules hg ▸ hr
  obtain ⟨q, hq, hshape, hor⟩ := Rule.exists_mem_foldl_define more hkept
  rw [← Rule.lastDefinitions_append, ← rules_of_ofRules hh] at hq
  refine ⟨q.prob, (Rule.eq_of_sameShape hshape).symm ▸ hq, ?_⟩
  have hrUnit := (hgUnit r hr).lt_infinityBits
  have hqUnit := (hhUnit q hq).lt_infinityBits
  rw [le_iff hrUnit hqUnit]
  rcases hor with rfl | hmem
  · exact Nat.le_refl _
  · exact Nat.le_of_not_lt fun hlt => hmore q hmem r hr hshape ((lt_iff hqUnit hrUnit).mpr hlt)

/-! ## Charts -/

/-- **Charts grow with the rules.**  Let a list of rules and a longer one both make grammars, where
no further rule gives a kept rule a lower probability.  Then every name keeps its number; for every
sentence whose chart has a size, the cells of the longer list have the symbols of the shorter one,
and their scores are at least as great. -/
theorem charts_grow_with_rules (hg : ofRules rules = .ok g) (hh : ofRules (rules ++ more) = .ok h)
    (hmore : ∀ e ∈ more, ∀ r ∈ g.rules, e.sameShape r = true →
      ¬ Rule.weightOf e.prob < Rule.weightOf r.prob) :
    (∀ s x, g.name? s = some x → h.name? s = some x ∧ h.symbol? x = some s) ∧
      ∀ words : List String, Table.Fits words.length → ∃ r r' v v',
        g.recognize words = .ok r ∧ h.recognize words = .ok r' ∧
        g.bestParse words = .ok v ∧ h.bestParse words = .ok v' ∧
        ∀ i j, i < j → j ≤ words.length →
          (∃ cell cell', r.cell ⟨i, j⟩ = .ok cell ∧ r'.cell ⟨i, j⟩ = .ok cell' ∧
            ∀ s ∈ cell, s ∈ cell') ∧
          ∀ s m, v.score ⟨i, j⟩ s = .ok (some m) →
            ∃ m', v'.score ⟨i, j⟩ s = .ok (some m') ∧ m ≤ m' := by
  have hbelow := below_of_append hg hh hmore
  have hgcons := (Built.ofRules hg).consistent
  have hhcons := (Built.ofRules hh).consistent
  refine ⟨?_, ?_⟩
  · intro s x hx
    have hs := symbol?_of_append hg hh (symbol?_eq_some_iff.mpr hx)
    exact ⟨symbol?_eq_some_iff.mp hs, hs⟩
  · intro words hn
    obtain ⟨r, hr, -, -, hcells⟩ := recognize_cells g hn
    obtain ⟨r', hr', -, -, hcells'⟩ := recognize_cells h hn
    obtain ⟨v, hv, hchart⟩ := bestParse_eq_ok g hn
    obtain ⟨v', hv', hchart'⟩ := bestParse_eq_ok h hn
    refine ⟨r, r', v, v', hr, hr', hv, hv', ?_⟩
    intro i j hij hj
    refine ⟨⟨_, _, hcells _ ⟨hij, hj⟩, hcells' _ ⟨hij, hj⟩, ?_⟩, ?_⟩
    · intro s hs
      obtain ⟨x, hx, hderives⟩ := (mem_byParts_iff hgcons s hij hj).mp hs
      exact (mem_byParts_iff hhcons s hij hj).mpr
        ⟨x, symbol?_of_append hg hh hx, hderives.of_below hbelow⟩
    · intro s m hm
      obtain ⟨e, he, rfl⟩ := (hchart.score_eq_some_iff ⟨hij, hj⟩).mp hm
      have hunit := inUnit_of_offered hgcons hj (offered_of_find? hgcons hij hj he)
      obtain ⟨x, s', e', hx, hs', he', hunit', hle⟩ := hbelow.exists_entry hgcons hhcons hij hj he
      obtain rfl : s = s' := Option.some.inj ((symbol?_of_append hg hh hx).symm.trans hs')
      exact ⟨e'.score, (hchart'.score_eq_some_iff ⟨hij, hj⟩).mpr ⟨e', he', rfl⟩,
        (le_iff hunit.lt_infinityBits hunit'.lt_infinityBits).mpr hle⟩

/-- Rules that raise the probability of `S -> a` and bring a new name. -/
def raising : List Rule :=
  [Rule.lexical "S" "a" (some ⟨0x3FF0000000000000⟩), Rule.lexical "T" "b" (some half)]

/-- The grammar `S -> S S | a` with the word at probability one, and `T -> b`. -/
def raised : Grammar :=
  assemble (Rule.binary "S" "S" "S" (some half)) (Rule.lexical "S" "a" (some half) :: raising)

/-- The score of `a a` is one eighth before, and at least as great with the further rules. -/
theorem repeating_grows : ofRules repeating.rules = .ok repeating ∧
    ofRules (repeating.rules ++ raising) = .ok raised ∧ Table.Fits 2 ∧
    (∀ e ∈ raising, ∀ r ∈ repeating.rules, e.sameShape r = true →
      ¬ Rule.weightOf e.prob < Rule.weightOf r.prob) ∧
    raised.name? ⟨0⟩ = some "S" ∧ ∃ v m, raised.bestParse ["a", "a"] = .ok v ∧
      v.score ⟨0, 2⟩ ⟨0⟩ = .ok (some m) ∧ 0.125 ≤ m := by
  have hraised : ofRules (repeating.rules ++ raising) = .ok raised :=
    ofRules_of_offence?_eq_none rfl
  have hfits : Table.Fits ["a", "a"].length := by decide
  have hnone : ∀ e ∈ raising, ∀ r ∈ repeating.rules, e.sameShape r = true →
      ¬ Rule.weightOf e.prob < Rule.weightOf r.prob := by
    rw [rules_repeating]
    decide
  obtain ⟨hnames, hcharts⟩ := charts_grow_with_rules ofRules_repeating hraised hnone
  obtain ⟨_, _, v, v', -, -, hv, hv', hspans⟩ := hcharts ["a", "a"] hfits
  have hscore : (repeating.bestParse ["a", "a"] >>= fun v => v.score ⟨0, 2⟩ ⟨0⟩).toOption =
      some (some 0.125) := by decide +kernel
  obtain ⟨w, hw, heighth⟩ := bind_eq_ok.mp (toOption_eq_some_iff.mp hscore)
  obtain rfl : v = w := Except.ok.inj (hv.symm.trans hw)
  obtain ⟨m, hm, hle⟩ := (hspans 0 2 (by decide) (by decide)).2 ⟨0⟩ 0.125 heighth
  exact ⟨ofRules_repeating, hraised, hfits, hnone, (hnames ⟨0⟩ "S" rfl).1, v', m, hv', hm, hle⟩

end Grammar

end ChartParsing
