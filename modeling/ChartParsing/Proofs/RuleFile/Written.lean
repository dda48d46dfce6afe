import ChartParsing.Proofs.RuleFile.Header

/-!
# Reading written rules

Each rule of a list is written on a line of its own, with a semicolon at its end.  Reading takes the
lines one by one and finds the rules again, in their order.

* `body_text`, `rule_render`: one right-hand side, and one rule.
* `rules_text`: a list of rules, whatever gap comes first.
-/

namespace ChartParsing

open Text Item RuleFile

namespace RuleFile

/-! ## The text of a rule -/

/-- The items of a right-hand side, each with a space before it. -/
def itemsText (items : List Item) : List Char :=
  items.flatMap fun i => ' ' :: i.render.toList

/-- The probability at the end of a rule, with a space before it. -/
def probText : Option Probability → List Char
  | none => []
  | some p => ' ' :: '[' :: (p.render.toList ++ [']'])

/-- The lines of a list of rules. -/
def rulesText (rs : List Rule) : List Char :=
  rs.flatMap fun r => r.render.toList ++ [';', '\n']

theorem toList_render (r : Rule) :
    r.render.toList =
      r.parent.toList ++ ' ' :: '-' :: '>' :: (itemsText r.items ++ probText r.prob) := by
  obtain ⟨x, items, prob⟩ := r
  have hitems : (String.join (items.map fun i => " " ++ i.render)).toList = itemsText items := by
    simp [String.toList_join, itemsText, List.flatMap_map]
  rw [Rule.render, String.toList_append, String.toList_append, String.toList_append, hitems]
  cases prob with
  | none => simp [probText]
  | some p => simp [probText]

/-! ## Right-hand sides -/

/-- Whatever comes after an item, no name goes on there. -/
theorem stops_text (items : List Item) (prob : Option Probability) (rest : List Char) :
    Stops isNameChar (itemsText items ++ (probText prob ++ ';' :: rest)) := by
  cases items with
  | cons i is => exact .cons (by decide)
  | nil =>
    cases prob with
    | none => exact .cons (by decide)
    | some p => exact .cons (by decide)

/-- **A right-hand side is read from its text**, up to the semicolon. -/
theorem body_text (x : String) {prob : Option Probability}
    (hprob : ∀ p, prob = some p → p.isInRange = true) (rest : List Char) :
    ∀ items : List Item, (∀ i ∈ items, i.Writable) →
      body x (itemsText items ++ (probText prob ++ ';' :: rest)) =
        .ok (⟨items, prob⟩, ';' :: rest) := by
  have hend : skipGap (';' :: rest) = ';' :: rest := skipGap_of_stop (by decide) (by decide)
  intro items
  induction items with
  | nil =>
    intro _
    cases prob with
    | none => exact body_end hend (.inl rfl)
    | some p =>
      have hgap : skipGap (probText (some p) ++ ';' :: rest) =
          '[' :: (p.render.toList ++ ']' :: ';' :: rest) := by
        rw [probText, List.cons_append, skipGap_blank (by decide), List.cons_append,
          skipGap_of_stop (by decide) (by decide), List.append_assoc]
        rfl
      have hread := body_probability (x := x) hgap (probability_render (hprob p rfl) (';' :: rest))
      rw [hend] at hread
      exact hread
  | cons i is ih =>
    intro h
    have hi := h i List.mem_cons_self
    have hread := item_render hi (stops_text is prob rest)
    obtain ⟨c, s, hrender, hopens⟩ := opens_of_render hi
    rw [hrender, List.cons_append] at hread
    have htext : itemsText (i :: is) ++ (probText prob ++ ';' :: rest) =
        ' ' :: c :: (s ++ (itemsText is ++ (probText prob ++ ';' :: rest))) := by
      simp [itemsText, hrender]
    have hgap : skipGap (' ' :: c :: (s ++ (itemsText is ++ (probText prob ++ ';' :: rest)))) =
        c :: (s ++ (itemsText is ++ (probText prob ++ ';' :: rest))) := by
      rw [skipGap_blank (by decide), skipGap_of_opens hopens]
    rw [htext, body_item hgap hopens hread, ih fun j hj => h j (List.mem_cons_of_mem i hj)]
    rfl

/-! ## Rules -/

/-- **A rule is read from its text** and the semicolon after it. -/
theorem rule_render {r : Rule} (h : r.Writable)
    (hprob : ∀ p, r.prob = some p → p.isInRange = true) (rest : List Char) :
    rule (r.render.toList ++ ';' :: rest) = .ok ([r], rest) := by
  have hbody := body_text r.parent hprob rest r.items h.items
  have htext : r.render.toList ++ ';' :: rest = r.parent.toList ++ ' ' :: '-' :: '>' ::
      (itemsText r.items ++ (probText r.prob ++ ';' :: rest)) := by
    simp [toList_render]
  rw [htext]
  generalize itemsText r.items ++ (probText r.prob ++ ';' :: rest) = side at hbody
  have hitem : item (r.parent.toList ++ ' ' :: '-' :: '>' :: side) =
      .ok (.nonterminal r.parent, ' ' :: '-' :: '>' :: side) :=
    item_render (i := .nonterminal r.parent) h.parent (.cons (by decide))
  have hparent : parent (r.parent.toList ++ ' ' :: '-' :: '>' :: side) =
      .ok (r.parent, ' ' :: '-' :: '>' :: side) :=
    bind_eq_ok.mpr ⟨_, hitem, rfl⟩
  have harrow : arrow (skipGap (' ' :: '-' :: '>' :: side)) = .ok side := by
    rw [skipGap_blank (by decide), skipGap_of_stop (by decide) (by decide)]
    rfl
  have hside : alternative r.parent side = .ok (r, ';' :: rest) := by
    have hne : r.items.isEmpty = false := by simpa using h.nonempty
    refine bind_eq_ok.mpr ⟨_, hbody, ?_⟩
    simp only [hne, Bool.false_eq_true, if_false]
    rfl
  exact bind_eq_ok.mpr ⟨_, hparent, bind_eq_ok.mpr ⟨_, harrow, alternatives_last hside⟩⟩

/-! ## Files -/

/-- **The rules of a list are read from its lines**, after any gap. -/
theorem rules_text : ∀ rs : List Rule, (∀ r ∈ rs, r.Writable) →
    (∀ r ∈ rs, ∀ p, r.prob = some p → p.isInRange = true) → ∀ s : List Char,
      skipGap s = skipGap (rulesText rs) → rules s = .ok rs := by
  intro rs
  induction rs with
  | nil =>
    intro _ _ s hs
    exact rules_nil (hs.trans (by rw [rulesText, List.flatMap_nil, skipGap]))
  | cons r rs ih =>
    intro h hprob s hs
    have hr := h r List.mem_cons_self
    have htext : rulesText (r :: rs) = r.render.toList ++ ';' :: '\n' :: rulesText rs := by
      simp [rulesText]
    have hmore : rules ('\n' :: rulesText rs) = .ok rs :=
      ih (fun q hq => h q (List.mem_cons_of_mem r hq))
        (fun q hq => hprob q (List.mem_cons_of_mem r hq)) _ (skipGap_blank isBlank_newline)
    have hrule := rule_render hr (hprob r List.mem_cons_self) ('\n' :: rulesText rs)
    obtain ⟨c, t, hparent, hupper, -⟩ := hr.parent
    have hrender : ∃ u, r.render.toList = c :: u := by
      rw [toList_render, hparent]
      exact ⟨_, rfl⟩
    obtain ⟨u, hu⟩ := hrender
    rw [hu] at hrule
    rw [htext, hu, List.cons_append, skipGap_of_opens (.inl (isNameChar_of_isUpper hupper))] at hs
    exact rules_cons hs hrule hmore

/-! ## The start header -/

/-- The start header, without the slashes that make it a comment. -/
def headerText (name : String) : List Char :=
  '*' :: '*' :: ' ' :: 's' :: 't' :: 'a' :: 'r' :: 't' :: ':' :: ' ' :: name.toList

/-- For the rules the header is a comment. -/
theorem rules_header {name : String} (hname : IsName name) {rs : List Rule}
    (h : ∀ r ∈ rs, r.Writable) (hprob : ∀ r ∈ rs, ∀ p, r.prob = some p → p.isInRange = true) :
    rules ('/' :: '/' :: (headerText name ++ '\n' :: rulesText rs)) = .ok rs := by
  have hline : '\n' ∉ headerText name := by
    intro hmem
    simp only [headerText, List.mem_cons] at hmem
    have hchar : isNameChar '\n' = true := hname.isNameChar (by simpa using hmem)
    exact absurd hchar (by decide)
  apply rules_text rs h hprob
  rw [skipGap_comment hline (.cons (by decide)), skipGap_blank isBlank_newline]

/-- The start symbol is read from the header. -/
theorem startHeader?_header {name text : String} (hname : IsName name) {rest : List Char}
    (htext : text.toList = '/' :: '/' :: (headerText name ++ '\n' :: rest)) :
    startHeader? text = some name := by
  have hspace : Blanks [' '] := List.forall_mem_singleton.mpr (by decide)
  have hne : name.toList ≠ [] := by
    obtain ⟨c, s, hx, -⟩ := hname
    rw [hx]
    exact List.cons_ne_nil c s
  refine startHeader?_eq_some_iff.mpr
    ⟨[], ' ' :: (headerLabel ++ ' ' :: (name.toList ++ '\n' :: rest)), ?_, ?_, ?_⟩
  · rw [htext]
    simp [headerText, headerMark, headerLabel]
  · exact List.forall_mem_nil _
  · exact ⟨[' '], [' '], _, '\n' :: rest, rfl, hspace, hspace, rfl,
      ⟨hne, fun c hc => hname.isNameChar hc⟩, .cons (by decide)⟩

end RuleFile

end ChartParsing
