import ChartParsing.Proofs.Decimal.Probability
import ChartParsing.Proofs.RuleFile.Numerals
import ChartParsing.RuleFile.Reader

/-!
# Reading the parts of a written rule

An item and a probability are read back from their texts, whatever stands after them.  A name or a
bare word ends where a character follows that no name has; a quoted word ends at its quote, so gaps,
brackets and semicolons may stand in it.

* `item_render`: an item that can be written is read from its text.
* `probability_render`: so is a probability in range, between its brackets.
-/

namespace ChartParsing

open Text

namespace Item

/-! ## What can be written -/

/-- An upper-case letter and then name characters. -/
def IsName (x : String) : Prop :=
  ∃ c s, x.toList = c :: s ∧ c.isUpper = true ∧ ∀ d ∈ s, isNameChar d = true

/-- A word that can stand between quotes. -/
def IsWord (w : String) : Prop :=
  w ≠ "" ∧ '"' ∉ w.toList ∧ '\n' ∉ w.toList

/-- An item that is read from its text. -/
def Writable : Item → Prop
  | word w => IsWord w
  | nonterminal x => IsName x

end Item

open Item in
/-- A rule that is read from its text, if its probability is in range. -/
structure Rule.Writable (r : Rule) : Prop where
  parent : IsName r.parent
  items : ∀ i ∈ r.items, i.Writable
  nonempty : r.items ≠ []

theorem Rule.writable_lexical {x w : String} (hx : Item.IsName x) (hw : Item.IsWord w)
    (prob : Option Probability) : (Rule.lexical x w prob).Writable :=
  ⟨hx, List.forall_mem_singleton.mpr hw, List.cons_ne_nil _ _⟩

theorem Rule.writable_binary {x y z : String} (hx : Item.IsName x) (hy : Item.IsName y)
    (hz : Item.IsName z) (prob : Option Probability) : (Rule.binary x y z prob).Writable :=
  ⟨hx, List.forall_mem_cons.mpr ⟨hy, List.forall_mem_singleton.mpr hz⟩, List.cons_ne_nil _ _⟩

namespace Item

/-! ## Characters -/

theorem isNameChar_of_isUpper {c : Char} (h : c.isUpper = true) : isNameChar c = true := by
  simp [isNameChar, Char.isAlphanum, Char.isAlpha, h]

theorem IsName.isNameChar {x : String} (h : IsName x) {c : Char} (hc : c ∈ x.toList) :
    isNameChar c = true := by
  obtain ⟨u, s, hx, hupper, hs⟩ := h
  rw [hx] at hc
  rcases List.mem_cons.mp hc with rfl | hmem
  · exact isNameChar_of_isUpper hupper
  · exact hs c hmem

theorem isBareWord_iff {s : List Char} :
    isBareWord s = true ↔
      (∃ c t, s = c :: t ∧ c.isUpper = false) ∧ ∀ d ∈ s, isNameChar d = true := by
  cases s with
  | nil => simp [isBareWord]
  | cons c t =>
    rw [isBareWord, Bool.and_eq_true, Bool.not_eq_true', List.all_eq_true]
    constructor
    · rintro ⟨hc, hall⟩
      exact ⟨⟨c, t, rfl, hc⟩, hall⟩
    · rintro ⟨⟨_, _, heq, hc⟩, hall⟩
      obtain ⟨rfl, rfl⟩ := List.cons.inj heq
      exact ⟨hc, hall⟩

/-! ## Where an item begins -/

/-- A character that the text of an item can begin with. -/
def Opens (c : Char) : Prop :=
  isNameChar c = true ∨ c = '"'

instance (c : Char) : Decidable (Opens c) :=
  inferInstanceAs (Decidable (_ ∨ _))

theorem toNat_of_opens {c : Char} (h : Opens c) :
    c.toNat = 34 ∨ c.toNat = 45 ∨ 48 ≤ c.toNat ∧ c.toNat ≤ 57 ∨ 65 ≤ c.toNat ∧ c.toNat ≤ 90 ∨
      95 ≤ c.toNat ∧ c.toNat ≤ 122 := by
  rcases h with h | rfl
  · simp only [isNameChar, Char.isAlphanum, Char.isAlpha, Char.isUpper, Char.isLower, Char.isDigit,
      Bool.or_eq_true, Bool.and_eq_true, decide_eq_true_eq, beq_iff_eq, ge_iff_le,
      UInt32.le_iff_toNat_le] at h
    change ((((65 ≤ c.toNat ∧ c.toNat ≤ 90) ∨ (97 ≤ c.toNat ∧ c.toNat ≤ 122)) ∨
      (48 ≤ c.toNat ∧ c.toNat ≤ 57)) ∨ c = '-') ∨ c = '_' at h
    rcases h with (h | rfl) | rfl
    · omega
    · decide
    · decide
  · decide

theorem Opens.not_isBlank {c : Char} (h : Opens c) : isBlank c = false := by
  have hc := toNat_of_opens h
  simp only [isBlank, inRanges, blankRanges, List.any_cons, List.any_nil, Bool.or_false,
    Bool.or_eq_false_iff, Bool.and_eq_false_iff, decide_eq_false_iff_not]
  omega

theorem Opens.ne {c d : Char} (h : Opens c) (hd : ¬ Opens d) : c ≠ d := by
  intro heq
  exact hd (heq ▸ h)

theorem opens_of_render {i : Item} (h : i.Writable) :
    ∃ c s, i.render.toList = c :: s ∧ Opens c := by
  cases i with
  | nonterminal x =>
    obtain ⟨c, s, hx, hupper, -⟩ := h
    exact ⟨c, s, hx, .inl (isNameChar_of_isUpper hupper)⟩
  | word w =>
    rw [render]
    split
    · rename_i hbare
      obtain ⟨⟨c, t, hw, -⟩, hall⟩ := isBareWord_iff.mp hbare
      exact ⟨c, t, hw, .inl (hall c (hw ▸ List.mem_cons_self))⟩
    · exact ⟨'"', w.toList ++ ['"'], by simp, .inr rfl⟩

end Item

namespace RuleFile

open Item

/-! ## Gaps -/

theorem skipGap_blank {c : Char} {s : List Char} (h : isBlank c = true) :
    skipGap (c :: s) = skipGap s := by
  rw [skipGap, if_pos h]
  rintro r rfl
  exact absurd h (by decide)

theorem skipGap_of_stop {c : Char} {s : List Char} (hblank : isBlank c = false) (hc : c ≠ '/') :
    skipGap (c :: s) = c :: s := by
  rw [skipGap, if_neg (by rw [hblank]; decide)]
  intro r hslash
  exact absurd hslash hc

theorem skipGap_of_opens {c : Char} {s : List Char} (h : Opens c) : skipGap (c :: s) = c :: s :=
  skipGap_of_stop h.not_isBlank (h.ne (by decide))

/-- A comment is skipped up to the end of its line or of the text. -/
theorem skipGap_comment {line s : List Char} (h : '\n' ∉ line) (hs : Stops (fun c => c != '\n') s) :
    skipGap ('/' :: '/' :: (line ++ s)) = skipGap s := by
  have hline : ∀ c ∈ line, (c != '\n') = true := fun c hc =>
    bne_iff_ne.mpr fun heq => h (heq ▸ hc)
  rw [skipGap, dropWhile_run hline hs]

/-- No gap begins with a character of a numeral. -/
theorem not_isBlank_of_isNumeralChar {c : Char} (h : isNumeralChar c = true) :
    isBlank c = false ∧ c ≠ '/' := by
  simp only [isNumeralChar, isMantissaChar, Decimal.isExponentMark, Bool.or_eq_true,
    beq_iff_eq] at h
  rcases h with (hdigit | rfl) | rfl | rfl
  · have hopens : Opens c := .inl (by simp [isNameChar, Char.isAlphanum, hdigit])
    exact ⟨hopens.not_isBlank, hopens.ne (by decide)⟩
  · decide
  · decide
  · decide

/-! ## Items -/

theorem name?_run {x rest : List Char} (hne : x ≠ []) (hx : ∀ c ∈ x, isNameChar c = true)
    (hrest : Stops isNameChar rest) : name? (x ++ rest) = some (x, rest) := by
  rw [name?, takeWhile_run hx hrest, dropWhile_run hx hrest]
  exact if_neg (by simpa using hne)

theorem quotedWord?_of_ne {c : Char} {s : List Char} (h : c ≠ '"') :
    quotedWord? (c :: s) = none := by
  rw [quotedWord?]
  intro t heq
  exact absurd (List.cons.inj heq).1 h

theorem quotedWord?_quoted {w : String} (h : IsWord w) (rest : List Char) :
    quotedWord? ('"' :: (w.toList ++ '"' :: rest)) = some (w.toList, rest) := by
  obtain ⟨hne, hquote, hline⟩ := h
  have hall : ∀ c ∈ w.toList, isQuotable c = true := by
    intro c hc
    rw [isQuotable, Bool.and_eq_true, bne_iff_ne, bne_iff_ne]
    exact ⟨fun heq => hquote (heq ▸ hc), fun heq => hline (heq ▸ hc)⟩
  have hstop : Stops isQuotable ('"' :: rest) := .cons (by decide)
  rw [quotedWord?, takeWhile_run hall hstop, dropWhile_run hall hstop]
  cases hw : w.toList with
  | nil => exact absurd (String.toList_eq_nil_iff.mp hw) hne
  | cons c t => rfl

theorem item_run {c : Char} {s rest : List Char} (hs : ∀ d ∈ c :: s, isNameChar d = true)
    (hrest : Stops isNameChar rest) : item (c :: s ++ rest) = .ok (itemOfName (c :: s), rest) := by
  have hquote : c ≠ '"' := by
    rintro rfl
    exact absurd (hs _ List.mem_cons_self) (by decide)
  rw [item, List.cons_append, quotedWord?_of_ne hquote, ← List.cons_append,
    name?_run (by simp) hs hrest]

theorem itemOfName_upper {x : String} (h : IsName x) : itemOfName x.toList = .nonterminal x := by
  obtain ⟨c, s, hx, hupper, -⟩ := h
  rw [itemOfName, if_pos (by rw [hx]; exact hupper), String.ofList_toList]

theorem itemOfName_bare {w : String} (h : isBareWord w.toList = true) :
    itemOfName w.toList = .word w := by
  obtain ⟨⟨c, t, hw, hlower⟩, -⟩ := isBareWord_iff.mp h
  rw [itemOfName, if_neg (by rw [hw]; simpa using hlower), String.ofList_toList]

/-- **An item is read from its text**, up to a character that no name has. -/
theorem item_render {i : Item} (h : i.Writable) {rest : List Char}
    (hrest : Stops isNameChar rest) : item (i.render.toList ++ rest) = .ok (i, rest) := by
  cases i with
  | nonterminal x =>
    have hall : ∀ c ∈ x.toList, isNameChar c = true := fun c hc => IsName.isNameChar h hc
    rw [render, ← itemOfName_upper h]
    obtain ⟨c, s, hx, -, -⟩ := h
    rw [hx] at hall ⊢
    exact item_run hall hrest
  | word w =>
    rw [render]
    split
    · rename_i hbare
      rw [← itemOfName_bare hbare]
      obtain ⟨⟨c, t, hw, -⟩, hall⟩ := isBareWord_iff.mp hbare
      rw [hw] at hall ⊢
      exact item_run hall hrest
    · have htext : ("\"" ++ w ++ "\"").toList ++ rest = '"' :: (w.toList ++ '"' :: rest) := by simp
      rw [htext, item, quotedWord?_quoted h]
      simp only [String.ofList_toList]

/-! ## Probabilities -/

theorem isMantissaChar_of_mem_render {p : Probability} (h : p.isInRange = true) {c : Char}
    (hc : c ∈ p.render.toList) : isMantissaChar c = true := by
  rw [isMantissaChar, Bool.or_eq_true, beq_iff_eq]
  exact Probability.mem_render h hc

theorem numeral?_render {p : Probability} (h : p.isInRange = true) (rest : List Char) :
    numeral? (p.render.toList ++ ']' :: rest) = some (p.render.toList, ']' :: rest) := by
  have hnumeral : IsNumeral p.render.toList :=
    ⟨_, [], (List.append_nil _).symm, Probability.render_ne_nil h,
      fun c hc => isMantissaChar_of_mem_render h hc, .inl rfl⟩
  exact numeral?_run hnumeral (.cons (by decide))

theorem skipGap_render {p : Probability} (h : p.isInRange = true) (rest : List Char) :
    skipGap (p.render.toList ++ rest) = p.render.toList ++ rest := by
  obtain ⟨c, s, htext⟩ := List.exists_cons_of_ne_nil (Probability.render_ne_nil h)
  have hc := isMantissaChar_of_mem_render h (htext ▸ List.mem_cons_self)
  obtain ⟨hblank, hslash⟩ :=
    not_isBlank_of_isNumeralChar (isNumeralChar_of_isMantissaChar hc)
  rw [htext]
  exact skipGap_of_stop hblank hslash

/-- **A probability in range is read from its text.** -/
theorem probability_render {p : Probability} (h : p.isInRange = true) (rest : List Char) :
    probability ('[' :: (p.render.toList ++ ']' :: rest)) = .ok (p, rest) := by
  obtain ⟨d, hread, hp⟩ := Probability.read?_render h
  have hnumber : number (p.render.toList ++ ']' :: rest) = .ok (p, ']' :: rest) := by
    rw [number, numeral?_render h]
    simp only [hread, hp]
  have hclose : skipGap (']' :: rest) = ']' :: rest := skipGap_of_stop (by decide) (by decide)
  refine bind_eq_ok.mpr ⟨_, rfl, bind_eq_ok.mpr ⟨(p, ']' :: rest), ?_, bind_eq_ok.mpr
    ⟨rest, ?_, rfl⟩⟩⟩
  · rw [skipGap_render h, hnumber]
  · rw [hclose]
    rfl

end RuleFile

end ChartParsing
