import ChartParsing.Grammar.Source
import ChartParsing.Proofs.Grammar.Rebuilt
import ChartParsing.Proofs.RuleFile.Accepted
import ChartParsing.Proofs.RuleFile.Written

/-!
# Grammars written and read again

The text of a grammar is a rule file that gives the same grammar: the same rules in the same order,
the same numbers for the same names, the same indexes and the same start symbol.  The first line is
a comment for the rules and the header for the start symbol.  Every grammar that is read from a rule
file can be written.

* `ofText_of_writable`: reading the text of a grammar.
* `writable_of_ofText`: the grammars that texts give.
-/

namespace ChartParsing.Grammar

open Text Item RuleFile

/-- The names are names of a rule file, and the words can stand between quotes. -/
structure Writable (g : Grammar) : Prop where
  names : ∀ s x, g.name? s = some x → IsName x
  words : ∀ r ∈ g.rules, ∀ w, .word w ∈ r.items → IsWord w

/-! ## Writing and reading -/

theorem isName_of_known {g : Grammar} (hw : g.Writable) {x : String}
    (h : ∃ s, g.symbol? x = some s) : IsName x := by
  obtain ⟨s, hs⟩ := h
  exact hw.names s x (symbol?_eq_some_iff.mp hs)

theorem writable_of_mem_rules {g : Grammar} (h : g.Consistent) (hw : g.Writable) {r : Rule}
    (hr : r ∈ g.rules) : r.Writable where
  parent := isName_of_known hw (h.known r hr r.parent List.mem_cons_self)
  items := by
    intro i hi
    cases i with
    | word w => exact hw.words r hr w hi
    | nonterminal x =>
      refine isName_of_known hw (h.known r hr x (List.mem_cons_of_mem _ ?_))
      exact List.mem_filterMap.mpr ⟨_, hi, rfl⟩
  nonempty := by
    rcases (Rule.eq_lexical_or_binary (h.wellFormed r hr)).2 with ⟨w, heq⟩ | ⟨y, z, heq⟩
    · rw [heq]
      exact List.cons_ne_nil _ _
    · rw [heq]
      exact List.cons_ne_nil _ _

theorem toList_render (g : Grammar) :
    g.render.toList = '/' :: '/' :: (headerText g.startName ++ '\n' :: rulesText g.rules) := by
  have hrules : (String.join (g.rules.map fun r => r.render ++ ";\n")).toList =
      rulesText g.rules := by
    simp [String.toList_join, rulesText, List.flatMap_map]
  rw [render, String.toList_append, hrules]
  simp [headerText]

theorem ofText_eq_ok_iff {text : String} {g : Grammar} :
    ofText text = .ok g ↔ ∃ rs b, readRules text = .ok rs ∧ ofRules rs = .ok b ∧
      match startHeader? text with
      | some name => b.withStart name = .ok g
      | none => b = g := by
  rw [ofText]
  cases startHeader? text with
  | some name => simp only [bind_eq_ok, mapError_eq_ok, exists_and_left]
  | none => simp only [bind_eq_ok, mapError_eq_ok, pure_eq_ok, exists_and_left]

theorem ofText_of_writable {g : Grammar} (h : g.Built) (hw : g.Writable) :
    ofText g.render = .ok g := by
  have hcons := h.consistent
  have hname := isName_of_known hw ⟨_, symbol?_startName⟩
  obtain ⟨b, hb, hstart⟩ := ofRules_rules h
  have hrules : readRules g.render = .ok g.rules := by
    rw [readRules, toList_render]
    exact rules_header hname (fun r hr => writable_of_mem_rules hcons hw hr) hcons.inRange
  refine ofText_eq_ok_iff.mpr ⟨g.rules, b, hrules, hb, ?_⟩
  rw [startHeader?_header hname (toList_render g)]
  exact hstart

/-! ## Reading any text -/

theorem Writable.withStart {g h : Grammar} {name : String} (hw : g.Writable)
    (hs : g.withStart name = .ok h) : h.Writable := by
  obtain ⟨s, hfind, rfl⟩ := withStart_eq_ok_iff.mp hs
  exact ⟨hw.names, hw.words⟩

theorem writable_of_ofRules {rs : List Rule} {g : Grammar} (h : ofRules rs = .ok g)
    (hrs : ∀ r ∈ rs, r.Writable) : g.Writable := by
  obtain ⟨first, rest, rfl, -, rfl⟩ := ofRules_eq_ok_iff.mp h
  constructor
  · intro s x hx
    obtain ⟨r, hr, hmem⟩ := List.mem_flatMap.mp (SymbolTable.mem_of_name?_ofNames hx)
    rcases List.mem_cons.mp hmem with rfl | hitem
    · exact (hrs r hr).parent
    · obtain ⟨i, hi, hname⟩ := List.mem_filterMap.mp hitem
      cases i with
      | word w => exact absurd hname (by simp)
      | nonterminal y =>
        cases hname
        exact (hrs r hr).items _ hi
  · intro r hr w hi
    exact (hrs r (Rule.mem_of_mem_lastDefinitions hr)).items _ hi

theorem writable_of_ofText {text : String} {g : Grammar} (h : ofText text = .ok g) :
    g.Built ∧ g.Writable := by
  obtain ⟨rs, b, hrs, hb, hstart⟩ := ofText_eq_ok_iff.mp h
  have hw : b.Writable := writable_of_ofRules hb (writable_of_rules hrs)
  split at hstart
  · exact ⟨.withStart (.ofRules hb) hstart, hw.withStart hstart⟩
  · cases hstart
    exact ⟨.ofRules hb, hw⟩

/-- **The text of a grammar gives the grammar back**, whole, and every grammar that a text gives has
such a text. -/
theorem ofText_render :
    (∀ g : Grammar, g.Built → g.Writable → ofText g.render = .ok g) ∧
      ∀ (text : String) (g : Grammar), ofText text = .ok g → g.Built ∧ g.Writable :=
  ⟨fun _ h hw => ofText_of_writable h hw, fun _ _ h => writable_of_ofText h⟩

theorem ofText_render_repeating :
    ofText repeating.render = .ok repeating ∧ repeating.Built ∧ repeating.Writable := by
  have hname : IsName "S" := ⟨'S', [], rfl, by decide, by simp⟩
  have hword : IsWord "a" := ⟨by decide, by decide, by decide⟩
  have hrules : ∀ r ∈ repeating.rules, r.Writable := by
    rw [rules_repeating, List.forall_mem_cons, List.forall_mem_singleton]
    refine ⟨⟨hname, ?_, List.cons_ne_nil _ _⟩, ⟨hname, ?_, List.cons_ne_nil _ _⟩⟩
    · exact List.forall_mem_cons.mpr ⟨hname, List.forall_mem_singleton.mpr hname⟩
    · exact List.forall_mem_singleton.mpr hword
  have hread := ofText_render.1 repeating built_repeating
    (writable_of_ofRules ofRules_repeating hrules)
  exact ⟨hread, ofText_render.2 repeating.render repeating hread⟩

end ChartParsing.Grammar
