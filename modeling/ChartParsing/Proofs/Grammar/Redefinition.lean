import ChartParsing.Proofs.Grammar.Built
import Mathlib.Data.List.Nodup

/-!
# Which definitions a grammar keeps

A list may define a rule of one shape several times, with any other rules in between.  A grammar
keeps one rule for each shape.  The kept rules stand in the order in which their shapes first appear
in the list, and each is the last definition of its shape; so its probability is the one given last.

* `Rule.LastIn`: a rule is the last one of its shape in a list.
* `Rule.Keeps`: what the kept rules have to do with the definitions read so far.
* `Rule.Keeps.define`: one more definition; `Rule.keeps_lastDefinitions`: a whole list.
* `Grammar.rules_of_definitions`: the rules of a grammar.
-/

namespace ChartParsing

namespace Rule

/-- What two definitions of one rule have in common: the parent and the right-hand side. -/
def shape (r : Rule) : String × List Item :=
  (r.parent, r.items)

theorem sameShape_eq_true_iff {r s : Rule} : r.sameShape s = true ↔ r.shape = s.shape := by
  rw [sameShape_iff, shape, shape, Prod.mk.injEq]

theorem sameShape_eq_false_iff {r s : Rule} : r.sameShape s = false ↔ r.shape ≠ s.shape := by
  rw [ne_eq, ← sameShape_eq_true_iff, Bool.not_eq_true]

/-- The rule is in the list, and no rule of its shape comes after it. -/
def LastIn (k : Rule) (defs : List Rule) : Prop :=
  ∃ before after, defs = before ++ k :: after ∧ ∀ r ∈ after, r.shape ≠ k.shape

theorem lastIn_concat (rule : Rule) (defs : List Rule) : rule.LastIn (defs ++ [rule]) :=
  ⟨defs, [], rfl, fun _ h => absurd h List.not_mem_nil⟩

/-- A rule stays the last one of its shape when a rule of another shape is added. -/
theorem LastIn.concat {k rule : Rule} {defs : List Rule} (h : k.LastIn defs)
    (hne : rule.shape ≠ k.shape) : k.LastIn (defs ++ [rule]) := by
  obtain ⟨before, after, rfl, hafter⟩ := h
  refine ⟨before, after ++ [rule], by simp, ?_⟩
  intro r hr
  rcases List.mem_append.mp hr with hold | hnew
  · exact hafter r hold
  · rw [List.mem_singleton.mp hnew]
    exact hne

/-- The kept rules have the shapes of the definitions, by their first appearance, and each is the
last definition of its shape. -/
structure Keeps (defs kept : List Rule) : Prop where
  mem_iff : ∀ s, s ∈ kept.map shape ↔ s ∈ defs.map shape
  ordered : (kept.map shape).Pairwise fun s t =>
    (defs.map shape).idxOf s < (defs.map shape).idxOf t
  last : ∀ k ∈ kept, k.LastIn defs

theorem Keeps.firstSeen {defs kept : List Rule} (h : Keeps defs kept) :
    FirstSeen (defs.map shape) (kept.map shape) :=
  ⟨h.mem_iff, h.ordered⟩

theorem Keeps.nodup {defs kept : List Rule} (h : Keeps defs kept) : (kept.map shape).Nodup :=
  h.firstSeen.nodup

/-- The kept rules beside one of them have other shapes. -/
theorem Keeps.shape_ne {defs before after : List Rule} {r : Rule}
    (h : Keeps defs (before ++ r :: after)) {k : Rule} (hk : k ∈ before ++ after) :
    k.shape ≠ r.shape := by
  have hnodup := h.nodup
  rw [List.map_append, List.map_cons, List.nodup_middle, List.nodup_cons, ← List.map_append]
    at hnodup
  intro heq
  exact hnodup.1 (heq ▸ List.mem_map_of_mem hk)

/-! ## One more definition -/

/-- A redefinition takes the place of the rule that was kept. -/
theorem Keeps.define_known {defs kept : List Rule} (h : Keeps defs kept) {rule : Rule}
    (hknown : ∃ r ∈ kept, r.sameShape rule = true) : Keeps (defs ++ [rule]) (define rule kept) := by
  obtain ⟨before, r, after, rfl, hr, hdefine⟩ := define_of_known hknown
  have hshape : r.shape = rule.shape := sameShape_eq_true_iff.mp hr
  have hshapes : (define rule (before ++ r :: after)).map shape =
      (before ++ r :: after).map shape := by
    rw [hdefine, List.map_append, List.map_append, List.map_cons, List.map_cons, hshape]
  have hrule : rule.shape ∈ defs.map shape := by
    rw [← hshape, ← h.mem_iff]
    simp
  have hfirst := h.firstSeen.known hrule
  rw [← hshapes, ← List.map_singleton, ← List.map_append] at hfirst
  refine ⟨hfirst.mem_iff, hfirst.ordered, ?_⟩
  have hother : ∀ k ∈ before ++ after, k.LastIn (defs ++ [rule]) := by
    intro k hk
    have hkept : k ∈ before ++ r :: after :=
      List.perm_middle.mem_iff.mpr (List.mem_cons_of_mem r hk)
    exact (h.last k hkept).concat (hshape ▸ (h.shape_ne hk).symm)
  intro k hk
  rw [hdefine] at hk
  rcases List.mem_cons.mp (List.perm_middle.mem_iff.mp hk) with rfl | hmem
  · exact lastIn_concat k defs
  · exact hother k hmem

/-- A rule of a new shape is kept after the others. -/
theorem Keeps.define_new {defs kept : List Rule} (h : Keeps defs kept) {rule : Rule}
    (hnew : ∀ r ∈ kept, r.sameShape rule = false) : Keeps (defs ++ [rule]) (define rule kept) := by
  have hfresh : rule.shape ∉ defs.map shape := by
    rw [← h.mem_iff, List.mem_map]
    rintro ⟨r, hr, heq⟩
    exact sameShape_eq_false_iff.mp (hnew r hr) heq
  have hfirst := h.firstSeen.new hfresh
  rw [← List.map_singleton, ← List.map_append, ← List.map_append] at hfirst
  rw [define_of_new hnew]
  refine ⟨hfirst.mem_iff, hfirst.ordered, ?_⟩
  intro k hk
  rcases List.mem_append.mp hk with hold | hlast
  · exact (h.last k hold).concat (sameShape_eq_false_iff.mp (hnew k hold)).symm
  · obtain rfl : k = rule := List.mem_singleton.mp hlast
    exact lastIn_concat k defs

/-- **One more definition** replaces the rule of its shape, or comes last. -/
theorem Keeps.define {defs kept : List Rule} (h : Keeps defs kept) (rule : Rule) :
    Keeps (defs ++ [rule]) (define rule kept) := by
  rcases known_or_new rule kept with hknown | hnew
  · exact h.define_known hknown
  · exact h.define_new hnew

/-! ## Whole lists -/

/-- **More definitions** keep what one more keeps. -/
theorem Keeps.foldl_define {defs kept : List Rule} (h : Keeps defs kept) (more : List Rule) :
    Keeps (defs ++ more) (more.foldl (fun kept rule => Rule.define rule kept) kept) := by
  induction more generalizing defs kept with
  | nil => rwa [List.append_nil]
  | cons rule rules ih =>
    rw [List.append_cons]
    exact ih (h.define rule)

/-- **The last definitions are what is kept** of a list. -/
theorem keeps_lastDefinitions (defs : List Rule) : Keeps defs (lastDefinitions defs) :=
  Keeps.foldl_define ⟨fun _ => Iff.rfl, .nil, fun _ h => absurd h List.not_mem_nil⟩ defs

end Rule

namespace Grammar

/-- **Of several definitions the last one counts, in the place of the first.**  The grammar of a
list of rules has exactly one rule for each parent and right-hand side in the list.  Its rules are
in the order in which these first appear, and each is the last one of the list with its parent and
right-hand side, probability included. -/
theorem rules_of_definitions {rules : List Rule} {g : Grammar} (h : ofRules rules = .ok g) :
    (∀ r ∈ rules, ∃! k, k ∈ g.rules ∧ k.shape = r.shape) ∧
    (g.rules.map Rule.shape).Pairwise (fun s t =>
      (rules.map Rule.shape).idxOf s < (rules.map Rule.shape).idxOf t) ∧
    ∀ k ∈ g.rules, k.LastIn rules := by
  have hkeeps : Rule.Keeps rules g.rules := by
    rw [rules_of_ofRules h]
    exact Rule.keeps_lastDefinitions rules
  refine ⟨?_, hkeeps.ordered, hkeeps.last⟩
  intro r hr
  obtain ⟨k, hk, hshape⟩ := List.mem_map.mp ((hkeeps.mem_iff r.shape).mpr (List.mem_map_of_mem hr))
  refine ⟨k, ⟨hk, hshape⟩, ?_⟩
  rintro k' ⟨hk', hshape'⟩
  exact List.inj_on_of_nodup_map hkeeps.nodup hk' hk (hshape'.trans hshape.symm)

/-- Two definitions of `S -> B C`, with probabilities 0.2 and 0.7, and `X -> B C` between them. -/
def redefining : List Rule :=
  [Rule.binary "S" "B" "C" (some ⟨0x3FC999999999999A⟩), Rule.binary "X" "B" "C" (some half),
    Rule.binary "S" "B" "C" (some ⟨0x3FE6666666666666⟩), Rule.lexical "B" "b" (some half)]

/-- The grammar of these definitions. -/
def redefined : Grammar :=
  assemble (Rule.binary "S" "B" "C" (some ⟨0x3FC999999999999A⟩)) redefining.tail

/-- There is one rule `S -> B C`, the second one; it stays before `X -> B C`. -/
theorem redefined_keeps_last : ofRules redefining = .ok redefined ∧
    (∃! k, k ∈ redefined.rules ∧ k.shape = ("S", [.nonterminal "B", .nonterminal "C"])) ∧
    (Rule.binary "S" "B" "C" (some ⟨0x3FE6666666666666⟩)).LastIn redefining ∧
    redefined.rules.map Rule.parent = ["S", "X", "B"] := by
  have hrules : ofRules redefining = .ok redefined := ofRules_of_offence?_eq_none rfl
  obtain ⟨hunique, -, hlast⟩ := rules_of_definitions hrules
  refine ⟨hrules, ?_, ?_, rfl⟩
  · exact hunique (Rule.binary "S" "B" "C" (some ⟨0x3FC999999999999A⟩)) List.mem_cons_self
  · have hkept : redefined.rules.head? =
        some (Rule.binary "S" "B" "C" (some ⟨0x3FE6666666666666⟩)) := rfl
    exact hlast _ (List.mem_of_head? hkept)

end Grammar

end ChartParsing
