import ChartParsing.RuleFile.Error
import ChartParsing.Sequencing

/-!
# Reading a rule file

A rule file is a sequence of rules `Parent -> alternative | alternative ;`. An alternative is a
sequence of items, which a probability in brackets may end. Blanks and comments may stand between
any two parts.

* `readRules`: the rules of a text, one for each alternative, in the order of the text.
* `item_shorter`, `probability_shorter`, `alternative_shorter`, `rule_shorter`: what a reader leaves
  is an end of what it was given, and shorter; so every loop ends.
-/

-- Hypotheses that only a termination proof mentions count as unused.
set_option linter.unusedVariables false

namespace ChartParsing.RuleFile

/-- Reads the character `c`. -/
def char (c : Char) : List Char → Except SyntaxError (List Char)
  | [] => .error (.expectedChar c (excerpt []))
  | d :: s => if d = c then .ok s else .error (.expectedChar c (excerpt (d :: s)))

/-- The item of a bare name: a non-terminal if the first letter is upper-case, else a word. -/
def itemOfName (name : List Char) : Item :=
  if name.head?.any Char.isUpper then .nonterminal (String.ofList name)
  else .word (String.ofList name)

/-- Reads an item. A quoted item is a word in any case. -/
def item (s : List Char) : Except SyntaxError (Item × List Char) :=
  match quotedWord? s with
  | some (word, rest) => .ok (.word (String.ofList word), rest)
  | none =>
    match name? s with
    | some (name, rest) => .ok (itemOfName name, rest)
    | none => .error (.expectedName (excerpt s))

/-- Reads the parent of a rule, which cannot be a word. -/
def parent (s : List Char) : Except SyntaxError (String × List Char) := do
  let (i, rest) ← item s
  match i with
  | .nonterminal name => return (name, rest)
  | .word word => throw (.wordAsParent word (excerpt s))

/-- Reads the arrow after the parent. -/
def arrow : List Char → Except SyntaxError (List Char)
  | '-' :: '>' :: s => .ok s
  | s => .error (.expectedArrow (excerpt s))

/-- Reads the numeral of a probability. -/
def number (s : List Char) : Except SyntaxError (Probability × List Char) :=
  match numeral? s with
  | none => .error (.expectedNumeral (excerpt s))
  | some (numeral, rest) =>
    match Decimal.read? numeral with
    | some d => .ok (.ofDecimal d, rest)
    | none => .error (.badNumeral (String.ofList numeral))

/-- Reads a probability in brackets. -/
def probability (s : List Char) : Except SyntaxError (Probability × List Char) := do
  let s ← char '[' s
  let (p, s) ← number (skipGap s)
  let s ← char ']' (skipGap s)
  return (p, s)

/-! ## What is left is the end of the text -/

theorem char_shorter {c : Char} {s rest : List Char} (h : char c s = .ok rest) :
    ProperSuffix rest s := by
  cases s with
  | nil => simp [char] at h
  | cons d s =>
    simp only [char] at h
    split at h
    · simp only [Except.ok.injEq] at h
      subst h
      exact .cons d s
    · exact absurd h (by simp)

theorem item_shorter {s rest : List Char} {i : Item} (h : item s = .ok (i, rest)) :
    ProperSuffix rest s := by
  unfold item at h
  split at h
  · rename_i word r hq
    simp only [Except.ok.injEq, Prod.mk.injEq] at h
    obtain ⟨-, rfl⟩ := h
    have whole : ('"' :: (word ++ ['"'])) ++ r = s := by
      simpa using (append_of_quotedWord? hq).1
    exact .of_append whole (by simp)
  · split at h
    · rename_i name r hn
      simp only [Except.ok.injEq, Prod.mk.injEq] at h
      obtain ⟨-, rfl⟩ := h
      exact .of_append (append_of_name? hn).1 (append_of_name? hn).2
    · exact absurd h (by simp)

theorem item_of_parent {s rest : List Char} {name : String} (h : parent s = .ok (name, rest)) :
    item s = .ok (.nonterminal name, rest) := by
  obtain ⟨⟨i, t⟩, hi, h⟩ := bind_eq_ok.1 h
  cases i with
  | word w => exact absurd h throw_ne_ok
  | nonterminal n =>
    obtain ⟨rfl, rfl⟩ := Prod.mk.inj (pure_eq_ok.1 h)
    exact hi

theorem parent_shorter {s rest : List Char} {name : String} (h : parent s = .ok (name, rest)) :
    ProperSuffix rest s :=
  item_shorter (item_of_parent h)

theorem arrow_shorter {s rest : List Char} (h : arrow s = .ok rest) : ProperSuffix rest s := by
  unfold arrow at h
  split at h
  · simp only [Except.ok.injEq] at h
    subst h
    exact .of_suffix (List.suffix_cons _ _) (.cons _ _)
  · exact absurd h (by simp)

theorem number_shorter {s rest : List Char} {p : Probability} (h : number s = .ok (p, rest)) :
    ProperSuffix rest s := by
  unfold number at h
  split at h
  · exact absurd h (by simp)
  · rename_i numeral r hn
    split at h
    · simp only [Except.ok.injEq, Prod.mk.injEq] at h
      obtain ⟨-, rfl⟩ := h
      exact .of_append (append_of_numeral? hn).1 (append_of_numeral? hn).2
    · exact absurd h (by simp)

theorem probability_shorter {s rest : List Char} {p : Probability}
    (h : probability s = .ok (p, rest)) : ProperSuffix rest s := by
  obtain ⟨a, ha, h⟩ := bind_eq_ok.1 h
  obtain ⟨⟨q, b⟩, hb, h⟩ := bind_eq_ok.1 h
  obtain ⟨c, hc, h⟩ := bind_eq_ok.1 h
  obtain ⟨rfl, rfl⟩ := Prod.mk.inj (pure_eq_ok.1 h)
  have h₁ := (char_shorter hc).trans_suffix (skipGap_suffix _)
  have h₂ := (number_shorter hb).trans_suffix (skipGap_suffix _)
  exact .of_suffix (h₁.1.trans h₂.1) (char_shorter ha)

/-! ## Alternatives, rules, files -/

/-- The items and the probability of an alternative. -/
structure Body where
  items : List Item
  prob : Option Probability

/-- Reads the body of an alternative: items up to a `|`, a `;` or a probability. A probability is
read together with the gap after it. -/
def body (parentName : String) (s : List Char) : Except SyntaxError (Body × List Char) :=
  match hs : skipGap s with
  | [] => .error (.unterminated parentName)
  | c :: r =>
    if c = ';' ∨ c = '|' then .ok (⟨[], none⟩, c :: r)
    else if c = '[' then do
      let (p, rest) ← probability (c :: r)
      return (⟨[], some p⟩, skipGap rest)
    else
      match hi : item (c :: r) with
      | .error e => .error e
      | .ok (i, rest) => do
        let (b, rest) ← body parentName rest
        return (⟨i :: b.items, b.prob⟩, rest)
termination_by s.length
decreasing_by
  have h₁ := (item_shorter hi).2
  have h₂ := (skipGap_suffix s).length_le
  rw [hs] at h₂
  omega

/-- Reads an alternative of a rule, which has at least one item. -/
def alternative (parentName : String) (s : List Char) : Except SyntaxError (Rule × List Char) := do
  let (b, rest) ← body parentName s
  if b.items.isEmpty then throw (.emptyAlternative parentName (excerpt rest))
  else return (⟨parentName, b.items, b.prob⟩, rest)

theorem body_suffix {parentName : String} {s rest : List Char} {b : Body}
    (h : body parentName s = .ok (b, rest)) :
    rest <:+ s ∧ (b.items ≠ [] ∨ b.prob.isSome → rest.length < s.length) := by
  fun_induction body parentName s generalizing b rest with
  | case1 => exact absurd h (by simp)
  | case2 s c r hs hc =>
    simp only [Except.ok.injEq, Prod.mk.injEq] at h
    obtain ⟨rfl, rfl⟩ := h
    exact ⟨hs ▸ skipGap_suffix s, by simp⟩
  | case3 s r hs =>
    obtain ⟨⟨p, t⟩, hp, h⟩ := bind_eq_ok.1 h
    obtain ⟨-, rfl⟩ := Prod.mk.inj (pure_eq_ok.1 h)
    have h₁ := (probability_shorter hp).trans_suffix (hs ▸ skipGap_suffix s)
    have h₂ := ProperSuffix.of_suffix (skipGap_suffix t) h₁
    exact ⟨h₂.1, fun _ => h₂.2⟩
  | case4 => exact absurd h (by simp)
  | case5 s c r hs hc hb i t hi ih =>
    obtain ⟨⟨b', u⟩, hb', h⟩ := bind_eq_ok.1 h
    obtain ⟨-, rfl⟩ := Prod.mk.inj (pure_eq_ok.1 h)
    have h₁ := (item_shorter hi).trans_suffix (hs ▸ skipGap_suffix s)
    have h₂ := ProperSuffix.of_suffix (ih hb').1 h₁
    exact ⟨h₂.1, fun _ => h₂.2⟩

theorem alternative_shorter {parentName : String} {s rest : List Char} {r : Rule}
    (h : alternative parentName s = .ok (r, rest)) : ProperSuffix rest s := by
  obtain ⟨⟨b, t⟩, hb, h⟩ := bind_eq_ok.1 h
  dsimp only at h
  split at h
  · exact absurd h throw_ne_ok
  · rename_i hne
    obtain ⟨-, rfl⟩ := Prod.mk.inj (pure_eq_ok.1 h)
    obtain ⟨h₁, h₂⟩ := body_suffix hb
    exact ⟨h₁, h₂ (.inl (by simpa using hne))⟩

/-- Reads alternatives up to the semicolon that ends the rule. -/
def alternatives (parentName : String) (s : List Char) :
    Except SyntaxError (List Rule × List Char) :=
  match h : alternative parentName s with
  | .error e => .error e
  | .ok (r, '|' :: rest) => do
    let (rs, rest) ← alternatives parentName rest
    return (r :: rs, rest)
  | .ok (r, rest) => do
    let rest ← char ';' rest
    return ([r], rest)
termination_by s.length
decreasing_by
  have := (alternative_shorter h).2
  simp only [List.length_cons] at this
  omega

/-- Reads a rule with all its alternatives. -/
def rule (s : List Char) : Except SyntaxError (List Rule × List Char) := do
  let (name, s) ← parent s
  let s ← arrow (skipGap s)
  alternatives name s

theorem alternatives_shorter {parentName : String} {s rest : List Char} {rs : List Rule}
    (h : alternatives parentName s = .ok (rs, rest)) : ProperSuffix rest s := by
  fun_induction alternatives parentName s generalizing rs rest with
  | case1 => exact absurd h (by simp)
  | case2 s r t ha ih =>
    obtain ⟨⟨rs', u⟩, hu, h⟩ := bind_eq_ok.1 h
    obtain ⟨-, rfl⟩ := Prod.mk.inj (pure_eq_ok.1 h)
    exact .of_suffix ((ih hu).1.trans (List.suffix_cons _ _)) (alternative_shorter ha)
  | case3 s r t _ ha =>
    obtain ⟨u, hu, h⟩ := bind_eq_ok.1 h
    obtain ⟨-, rfl⟩ := Prod.mk.inj (pure_eq_ok.1 h)
    exact .of_suffix (char_shorter hu).1 (alternative_shorter ha)

theorem rule_shorter {s rest : List Char} {rs : List Rule} (h : rule s = .ok (rs, rest)) :
    ProperSuffix rest s := by
  obtain ⟨⟨name, a⟩, ha, h⟩ := bind_eq_ok.1 h
  obtain ⟨b, hb, h⟩ := bind_eq_ok.1 h
  have h₁ := (arrow_shorter hb).1.trans (skipGap_suffix _)
  exact .of_suffix ((alternatives_shorter h).1.trans h₁) (parent_shorter ha)

/-- Reads rules up to the end of the text. -/
def rules (s : List Char) : Except SyntaxError (List Rule) :=
  match hs : skipGap s with
  | [] => .ok []
  | c :: r =>
    match h : rule (c :: r) with
    | .error e => .error e
    | .ok (rs, rest) => do
      let more ← rules rest
      return rs ++ more
termination_by s.length
decreasing_by
  have h₁ := (rule_shorter h).2
  have h₂ := (skipGap_suffix s).length_le
  rw [hs] at h₂
  omega

/-- The rules of a rule file, in the order of the text. -/
def readRules (text : String) : Except SyntaxError (List Rule) :=
  rules text.toList

end ChartParsing.RuleFile
