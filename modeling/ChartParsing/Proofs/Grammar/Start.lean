import ChartParsing.Proofs.Grammar.RoundTrip
import ChartParsing.Proofs.RuleFile.Header

/-!
# The start symbol of a text

The line of a start header, if the text begins with one, says what the start symbol is.  Nothing
else in a text does: without this line the start symbol is the parent of the first rule, also where
a header is found that goes on in the rules, and whatever comments stand further down.

* `startName_of_ofRules`: a list of rules starts with the parent of the first one.
* `ofText_of_rules`: a text with rules that make a grammar.
* `ofText_of_headerLine`, `ofText_of_no_headerLine`: with the line of a header, and without.
* `only_headerLine_chooses_start`: both.
-/

namespace ChartParsing.Grammar

open Text Item RuleFile

variable {text : String} {rules : List Rule} {g : Grammar}

/-- **A list of rules starts with the parent of the first one.** -/
theorem startName_of_ofRules (h : ofRules rules = .ok g) :
    ∃ first rest, rules = first :: rest ∧ g.startName = first.parent := by
  obtain ⟨first, rest, rfl, -, rfl⟩ := ofRules_eq_ok_iff.mp h
  refine ⟨first, rest, rfl, symbol?_injective symbol?_startName ?_⟩
  have hnew : SymbolTable.empty.find? first.parent = none := Std.TreeMap.getElem?_emptyc
  have hfirst : (SymbolTable.empty.insert first.parent).find? first.parent = some ⟨0⟩ := by
    rw [SymbolTable.find?_eq_some_iff, SymbolTable.name?, SymbolTable.insert_of_new hnew]
    rfl
  obtain ⟨more, hmore⟩ : ∃ more, (first :: rest).flatMap Rule.names = first.parent :: more :=
    ⟨_, rfl⟩
  show (SymbolTable.ofNames ((first :: rest).flatMap Rule.names)).find? first.parent = some ⟨0⟩
  rw [hmore]
  exact SymbolTable.find?_foldl_of_find? more hfirst

/-- A text with rules that make a grammar gives it with the start symbol that is found. -/
theorem ofText_of_rules (hrules : readRules text = .ok rules) (hg : ofRules rules = .ok g) :
    ofText text = match startHeader? text with
      | some name => (g.withStart name).mapError .invalid
      | none => .ok g := by
  rw [ofText, hrules]
  show (do let g ← (ofRules rules).mapError SourceError.invalid; _) = _
  rw [hg]
  rfl

theorem withStart_of_unknown {x : String} (h : g.symbol? x = none) :
    g.withStart x = .error (.unknownStart x) := by
  rw [withStart]
  split
  · rename_i s hs
    exact absurd (h.symm.trans hs) (by simp)
  · rfl

/-- **The line of a start header says what the start symbol is**, which has to be a non-terminal of
the grammar. -/
theorem ofText_of_headerLine (hrules : readRules text = .ok rules) (hg : ofRules rules = .ok g)
    {x : String} (hline : HeaderLine text x) :
    (∀ s, g.symbol? x = some s → ∃ hs, ofText text = .ok { g with start := s, start_known := hs }) ∧
      (g.symbol? x = none → ofText text = .error (.invalid (.unknownStart x))) := by
  have htext := ofText_of_rules hrules hg
  rw [startHeader?_of_headerLine hline] at htext
  constructor
  · intro s hs
    refine ⟨SymbolTable.id_lt_size_of_find? hs, ?_⟩
    rw [htext]
    exact mapError_eq_ok.mpr (withStart_eq_ok_iff.mpr ⟨s, hs, rfl⟩)
  · intro hnone
    rw [htext]
    show (g.withStart x).mapError SourceError.invalid = _
    rw [withStart_of_unknown hnone]
    rfl

/-- **Without the line of a start header** the first rule says what the start symbol is. -/
theorem ofText_of_no_headerLine (hrules : readRules text = .ok rules) (hg : ofRules rules = .ok g)
    (hno : ∀ x, ¬ HeaderLine text x) : ofText text = .ok g := by
  rw [ofText_of_rules hrules hg]
  cases hfound : startHeader? text with
  | none => rfl
  | some x =>
    -- The name that is found is the parent of the first rule, so nothing changes.
    obtain ⟨r, more, rfl, rfl⟩ := (headerLine_or_parent hrules hfound).resolve_left (hno x)
    obtain ⟨first, rest, hcons, hstart⟩ := startName_of_ofRules hg
    obtain ⟨rfl, -⟩ := List.cons.inj hcons
    refine mapError_eq_ok.mpr ?_
    rw [← hstart]
    exact withStart_startName g

/-- **Only the line of a start header chooses the start symbol.**  If the rules of a text make a
grammar, then the text gives this grammar.  With the line of a header for a name the start symbol is
that of the name, or it is unknown; without such a line it is the parent of the first rule. -/
theorem only_headerLine_chooses_start (hrules : readRules text = .ok rules)
    (hg : ofRules rules = .ok g) :
    (∀ x, HeaderLine text x →
      (∀ s, g.symbol? x = some s →
        ∃ hs, ofText text = .ok { g with start := s, start_known := hs }) ∧
      (g.symbol? x = none → ofText text = .error (.invalid (.unknownStart x)))) ∧
    ((∀ x, ¬ HeaderLine text x) → ofText text = .ok g ∧
      ∃ first rest, rules = first :: rest ∧ g.startName = first.parent) :=
  ⟨fun _ hline => ofText_of_headerLine hrules hg hline,
    fun hno => ⟨ofText_of_no_headerLine hrules hg hno, startName_of_ofRules hg⟩⟩

/-- The rules `S -> T T` and `T -> a`. -/
def doubling : List Rule :=
  [Rule.binary "S" "T" "T" none, Rule.lexical "T" "a" none]

/-- The grammar of the doubling rules. -/
def doubled : Grammar :=
  assemble (Rule.binary "S" "T" "T" none) [Rule.lexical "T" "a" none]

/-- The doubling rules after a header for `T`. -/
def headedText : String :=
  "//** start: T\nS -> T T;\nT -> a;\n"

/-- The doubling rules after a header that has no name in its line. -/
def unnamedText : String :=
  "//** start:\nS -> T T;\nT -> a;\n"

theorem readRules_doubling (line : List Char) (hline : '\n' ∉ line)
    (htext : text.toList = '/' :: '/' :: (line ++ '\n' :: rulesText doubling)) :
    readRules text = .ok doubling := by
  have hs : IsName "S" := ⟨'S', [], rfl, by decide, by simp⟩
  have ht : IsName "T" := ⟨'T', [], rfl, by decide, by simp⟩
  have ha : IsWord "a" := ⟨by decide, by decide, by decide⟩
  have hwritable : ∀ r ∈ doubling, r.Writable := by
    rw [doubling, List.forall_mem_cons, List.forall_mem_singleton]
    exact ⟨Rule.writable_binary hs ht ht none, Rule.writable_lexical ht ha none⟩
  have hprob : ∀ r ∈ doubling, ∀ p, r.prob = some p → p.isInRange = true := by
    rw [doubling, List.forall_mem_cons, List.forall_mem_singleton]
    exact ⟨fun _ hp => absurd hp (by simp [Rule.binary]),
      fun _ hp => absurd hp (by simp [Rule.lexical])⟩
  rw [readRules, htext]
  apply rules_text doubling hwritable hprob
  rw [skipGap_comment hline (.cons (by decide)), skipGap_blank isBlank_newline]

/-- The header for `T` makes `T` the start symbol.  The header without a name in its line leaves it
`S`, although this name is found over the end of the line. -/
theorem doubling_starts :
    (readRules headedText = .ok doubling ∧ HeaderLine headedText "T" ∧
      ∃ hs, ofText headedText = .ok { doubled with start := ⟨1⟩, start_known := hs }) ∧
    (readRules unnamedText = .ok doubling ∧ startHeader? unnamedText = some "S" ∧
      (∀ x, ¬ HeaderLine unnamedText x) ∧
      ofText unnamedText = .ok doubled ∧ doubled.startName = "S") := by
  have hg : ofRules doubling = .ok doubled := ofRules_of_offence?_eq_none rfl
  constructor
  · have hrules : readRules headedText = .ok doubling :=
      readRules_doubling "** start: T".toList (by decide) (by cbv)
    have hline : HeaderLine headedText "T" := headerLine_iff.mpr (by cbv)
    have hsymbol : doubled.symbol? "T" = some ⟨1⟩ := symbol?_eq_some_iff.mpr rfl
    obtain ⟨hchosen, -⟩ := only_headerLine_chooses_start hrules hg
    exact ⟨hrules, hline, (hchosen "T" hline).1 ⟨1⟩ hsymbol⟩
  · have hrules : readRules unnamedText = .ok doubling :=
      readRules_doubling "** start:".toList (by decide) (by cbv)
    have hno : ∀ x, ¬ HeaderLine unnamedText x := by
      intro x hx
      have hnone : startHeader? (leadingLine unnamedText) = none := by cbv
      exact absurd (hnone.symm.trans (headerLine_iff.mp hx)) (by simp)
    obtain ⟨-, hfirst⟩ := only_headerLine_chooses_start hrules hg
    exact ⟨hrules, by cbv, hno, (hfirst hno).1, rfl⟩

end ChartParsing.Grammar
