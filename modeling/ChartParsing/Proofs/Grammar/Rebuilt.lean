import ChartParsing.Proofs.Grammar.Redefinition

/-!
# A grammar is built again from its rules

A grammar forgets the definitions that later ones replaced, and the start symbols it had before.
What it keeps is enough: its rules and the name of its start symbol give the whole grammar again,
with the same numbers, weights and indexes.

* `ofRules_rules_of_ofRules`: the kept rules make the grammar that the whole list makes.
* `ofRules_append_of_ofRules`: so does the whole list with kept rules after it.
* `rebuilt_of_ofRules`: both for all the rules of a grammar.
* `ofRules_rules`: a grammar with any start symbol.
-/

namespace ChartParsing

theorem Rule.lastDefinitions_ne_nil (first : Rule) (rest : List Rule) :
    lastDefinitions (first :: rest) ≠ [] := by
  have hstep : ∀ rule kept, kept ≠ [] → define rule kept ≠ [] := by
    intro rule kept _
    cases kept with
    | nil => simp [define]
    | cons k ks =>
      rw [define]
      split
      · simp
      · simp
  exact foldl_define_induction hstep rest [first] (by simp)

namespace Grammar

/-! ## The rules -/

variable {rules qs more : List Rule} {g : Grammar}

/-- Some rules of a list have probabilities if all have. -/
theorem Accepted.any_eq (h : Accepted rules) (hne : qs ≠ []) (hsub : ∀ r ∈ qs, r ∈ rules) :
    (qs.any fun r => r.prob.isSome) = rules.any fun r => r.prob.isSome := by
  rw [Bool.eq_iff_iff]
  constructor
  · intro hany
    obtain ⟨r, hr, hp⟩ := List.any_eq_true.mp hany
    exact List.any_eq_true.mpr ⟨r, hsub r hr, hp⟩
  · intro hany
    -- one rule with a probability means that every rule has one, so the first one of `qs` has
    obtain ⟨k, hk⟩ := List.exists_mem_of_ne_nil qs hne
    exact List.any_eq_true.mpr ⟨k, hk, (h k (hsub k hk)).2.1 hany⟩

theorem Accepted.of_subset (h : Accepted rules) (hne : qs ≠ []) (hsub : ∀ r ∈ qs, r ∈ rules) :
    Accepted qs := by
  intro r hr
  rw [h.any_eq hne hsub]
  exact h r (hsub r hr)

/-- **Rules of a list make the same grammar** if they number the same names in the same way and the
same definitions of them are kept. -/
theorem ofRules_of_subset (h : ofRules rules = .ok g) (hne : qs ≠ []) (hsub : ∀ r ∈ qs, r ∈ rules)
    (hsymbols : SymbolTable.ofNames (qs.flatMap Rule.names) =
      SymbolTable.ofNames (rules.flatMap Rule.names))
    (hrules : Rule.lastDefinitions qs = Rule.lastDefinitions rules) : ofRules qs = .ok g := by
  obtain ⟨first, rest, rfl, hacc, rfl⟩ := ofRules_eq_ok_iff.mp h
  obtain ⟨k, ks, rfl⟩ := List.exists_cons_of_ne_nil hne
  refine ofRules_eq_ok_iff.mpr ⟨k, ks, rfl, hacc.of_subset hne hsub, ?_⟩
  simp only [assemble, hsymbols, hrules, hacc.any_eq hne hsub]

/-- **The kept rules make the same grammar.** -/
theorem ofRules_rules_of_ofRules (h : ofRules rules = .ok g) : ofRules g.rules = .ok g := by
  obtain ⟨first, rest, rfl, -, -⟩ := ofRules_eq_ok_iff.mp h
  rw [rules_of_ofRules h]
  refine ofRules_of_subset h ?_ (fun _ hr => Rule.mem_of_mem_lastDefinitions hr) ?_ ?_
  · exact Rule.lastDefinitions_ne_nil first rest
  · exact ofNames_lastDefinitions _
  · exact Rule.lastDefinitions_of_distinct (Rule.distinct_lastDefinitions _)

/-- **Kept rules can be added again**, in any order, and the grammar stays the same. -/
theorem ofRules_append_of_ofRules (h : ofRules rules = .ok g) (hmore : ∀ r ∈ more, r ∈ g.rules) :
    ofRules (rules ++ more) = .ok g := by
  rw [rules_of_ofRules h] at hmore
  have hold : ∀ r ∈ more, r ∈ rules := fun r hr => Rule.mem_of_mem_lastDefinitions (hmore r hr)
  refine ofRules_of_subset h ?_ ?_ ?_ ?_
  · obtain ⟨first, rest, rfl, -, -⟩ := ofRules_eq_ok_iff.mp h
    exact List.cons_ne_nil first (rest ++ more)
  · intro r hr
    exact (List.mem_append.mp hr).elim id (hold r)
  · rw [List.flatMap_append, SymbolTable.ofNames_append]
    refine SymbolTable.foldl_insert_of_known fun x hx => ?_
    obtain ⟨r, hr, hname⟩ := List.mem_flatMap.mp hx
    exact SymbolTable.exists_find?_ofNames (List.mem_flatMap.mpr ⟨r, hold r hr, hname⟩)
  · rw [Rule.lastDefinitions_append]
    exact Rule.foldl_define_of_mem (Rule.distinct_lastDefinitions rules) more hmore

/-- **A grammar is built again from its own rules.**  Whatever list of rules a grammar comes from,
its rules alone make the same grammar, and so does the list with these rules after it: the same
rules in the same order, names and numbers, weights, indexes and start symbol. -/
theorem rebuilt_of_ofRules (h : ofRules rules = .ok g) :
    ofRules g.rules = .ok g ∧ ofRules (rules ++ g.rules) = .ok g :=
  ⟨ofRules_rules_of_ofRules h, ofRules_append_of_ofRules h fun _ hr => hr⟩

/-- The redefining rules are more than the kept ones, and give the same grammar with them. -/
theorem redefined_rebuilt : ofRules redefining = .ok redefined ∧
    redefined.rules.length < redefining.length ∧ ofRules redefined.rules = .ok redefined ∧
    ofRules (redefining ++ redefined.rules) = .ok redefined := by
  have hrules : ofRules redefining = .ok redefined := ofRules_of_offence?_eq_none rfl
  obtain ⟨halone, hadded⟩ := rebuilt_of_ofRules hrules
  exact ⟨hrules, by decide, halone, hadded⟩

/-! ## The start symbol -/

theorem withStart_startName (g : Grammar) : g.withStart g.startName = .ok g :=
  withStart_eq_ok_iff.mpr ⟨g.start, symbol?_startName, rfl⟩

theorem startName_withStart {g h : Grammar} {name : String} (hs : g.withStart name = .ok h) :
    h.startName = name := by
  obtain ⟨s, hfind, rfl⟩ := withStart_eq_ok_iff.mp hs
  exact symbol?_injective symbol?_startName hfind

/-- Of two changes of the start symbol the last one counts. -/
theorem withStart_withStart {g h k : Grammar} {name other : String}
    (hfirst : g.withStart name = .ok h) (hlast : h.withStart other = .ok k) :
    g.withStart other = .ok k := by
  obtain ⟨s, hs, rfl⟩ := withStart_eq_ok_iff.mp hfirst
  obtain ⟨t, ht, rfl⟩ := withStart_eq_ok_iff.mp hlast
  exact withStart_eq_ok_iff.mpr ⟨t, ht, rfl⟩

/-- **A grammar is built again from its rules and the name of its start symbol.** -/
theorem ofRules_rules {g : Grammar} (h : g.Built) :
    ∃ b, ofRules g.rules = .ok b ∧ b.withStart g.startName = .ok g := by
  induction h with
  | ofRules hrules =>
    exact ⟨_, ofRules_rules_of_ofRules hrules, withStart_startName _⟩
  | withStart _ hstart ih =>
    obtain ⟨b, hb, hold⟩ := ih
    refine ⟨b, ?_, ?_⟩
    · obtain ⟨s, hs, rfl⟩ := withStart_eq_ok_iff.mp hstart
      exact hb
    · rw [startName_withStart hstart]
      exact withStart_withStart hold hstart

end Grammar

end ChartParsing
