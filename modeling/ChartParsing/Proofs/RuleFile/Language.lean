import Mathlib.Data.List.Forall2
import ChartParsing.Proofs.RuleFile.Steps
import ChartParsing.Proofs.RuleFile.Tokens

/-!
# The language of rule files

A grammar for the tokens of a rule file says which rules they spell, and each reader is shown to
accept what the grammar has, and nothing else.  `Scans` says where the tokens are in the text.

* `SpellsRules ts rs`: the tokens `ts` spell the rules `rs`.
* `item_eq_ok_iff`, `probability_eq_ok_iff`, `alternative_eq_ok_iff`, `alternatives_eq_ok_iff`,
  `rule_eq_ok_iff`, `rules_eq_ok_iff`: one reader after the other.
* `rules_of_spells`: rules at the beginning of a text do not change how the rest of it is read.
* `readRules_eq_ok_iff`: **a text is read as a list of rules just if it spells them.**
* `Spells.unique`: so no text spells two lists of rules.
-/

namespace ChartParsing.RuleFile

open Text Item

/-! ## What tokens spell -/

/-- The item that a token stands for.  A name is a non-terminal if its first letter is upper-case;
any other name, and whatever stands in quotes, is a word. -/
inductive IsItem : Token → Item → Prop
  | nonterminal {c : Char} {s : List Char} : c.isUpper = true →
      IsItem (.name (c :: s)) (.nonterminal (String.ofList (c :: s)))
  | bare {c : Char} {s : List Char} : c.isUpper = false →
      IsItem (.name (c :: s)) (.word (String.ofList (c :: s)))
  | quoted (s : List Char) : IsItem (.quoted s) (.word (String.ofList s))

/-- The probability at the end of an alternative, which may be missing.  The numeral has to write a
number. -/
inductive SpellsProb : List Token → Option Probability → Prop
  | missing : SpellsProb [] none
  | given {s : List Char} {d : Decimal} : Decimal.read? s = some d →
      SpellsProb [.opening, .numeral s, .closing] (some (.ofDecimal d))

/-- An alternative for the parent `x`: its items, at least one, and its probability. -/
inductive SpellsAlternative (x : String) : List Token → Rule → Prop
  | mk {ts us : List Token} {is : List Item} {p : Option Probability} :
      List.Forall₂ IsItem ts is → is ≠ [] → SpellsProb us p →
      SpellsAlternative x (ts ++ us) ⟨x, is, p⟩

/-- The alternatives for the parent `x`, with bars between them and a semicolon at the end. -/
inductive SpellsAlternatives (x : String) : List Token → List Rule → Prop
  | last {ts : List Token} {r : Rule} : SpellsAlternative x ts r →
      SpellsAlternatives x (ts ++ [.semicolon]) [r]
  | more {ts us : List Token} {r : Rule} {rs : List Rule} : SpellsAlternative x ts r →
      SpellsAlternatives x us rs → SpellsAlternatives x (ts ++ .bar :: us) (r :: rs)

/-- The rules of a parent, which is a non-terminal. -/
inductive SpellsRule : List Token → List Rule → Prop
  | mk {t : Token} {x : String} {ts : List Token} {rs : List Rule} : IsItem t (.nonterminal x) →
      SpellsAlternatives x ts rs → SpellsRule (t :: .arrow :: ts) rs

/-- The rules of a file, in their order. -/
inductive SpellsRules : List Token → List Rule → Prop
  | nil : SpellsRules [] []
  | cons {ts us : List Token} {rs more : List Rule} : SpellsRule ts rs → SpellsRules us more →
      SpellsRules (ts ++ us) (rs ++ more)

/-- The text is made of tokens that spell the rules, with gaps before, between and after them. -/
def Spells (text : String) (rs : List Rule) : Prop :=
  ∃ ts rest, Scans text.toList ts rest ∧ Gap rest [] ∧ SpellsRules ts rs

/-! ## Items -/

theorem isItem_itemOfName {s : List Char} (h : s ≠ []) : IsItem (.name s) (itemOfName s) := by
  obtain ⟨c, s, rfl⟩ := List.exists_cons_of_ne_nil h
  rw [itemOfName]
  split
  · rename_i hupper
    exact .nonterminal hupper
  · rename_i hlower
    exact .bare (by simpa using hlower)

theorem itemOfName_of_isItem {s : List Char} {i : Item} (h : IsItem (.name s) i) :
    itemOfName s = i := by
  cases h with
  | nonterminal hupper => exact if_pos hupper
  | bare hlower => exact if_neg (by simp [hlower])

/-- **An item is read just if it is there.** -/
theorem item_eq_ok_iff {s rest : List Char} {i : Item} :
    item s = .ok (i, rest) ↔ ∃ t, IsItem t i ∧ t.Begins s rest := by
  constructor
  · intro h
    unfold item at h
    split at h
    · rename_i w r hq
      cases h
      exact ⟨.quoted w, .quoted w, begins_of_quotedWord? hq⟩
    · split at h
      · rename_i x r hn
        cases h
        exact ⟨.name x, isItem_itemOfName (mem_of_name? hn).1, begins_of_name? hn⟩
      · exact absurd h (by simp)
  · rintro ⟨t, hi, rfl, hwell, hends⟩
    cases t with
    | name s =>
      obtain ⟨hne, hall⟩ := hwell
      obtain ⟨c, s, rfl⟩ := List.exists_cons_of_ne_nil hne
      rw [← itemOfName_of_isItem hi]
      exact item_run hall hends
    | quoted s =>
      cases hi
      have hword := isWord_ofList hwell.1 hwell.2 (by decide) (by decide)
      have hread := quotedWord?_quoted hword rest
      rw [String.toList_ofList] at hread
      have htext : (Token.quoted s).text ++ rest = '"' :: (s ++ '"' :: rest) := by
        simp [Token.text]
      rw [htext, item, hread]
    | _ => cases hi

theorem opens_of_isItem {t : Token} {i : Item} {s rest : List Char} (hi : IsItem t i)
    (h : t.Begins s rest) : ∃ c r, s = c :: r ∧ Opens c := by
  obtain ⟨rfl, hwell, -⟩ := h
  cases hi with
  | nonterminal => exact ⟨_, _, rfl, .inl (hwell.2 _ List.mem_cons_self)⟩
  | bare => exact ⟨_, _, rfl, .inl (hwell.2 _ List.mem_cons_self)⟩
  | quoted s => exact ⟨_, _, rfl, .inr rfl⟩

/-! ## Probabilities -/

theorem probability_eq_ok_iff {s rest : List Char} {p : Probability} :
    probability (skipGap s) = .ok (p, rest) ↔ ∃ ts, SpellsProb ts (some p) ∧ Scans s ts rest := by
  constructor
  · intro h
    obtain ⟨a, hopening, h⟩ := bind_eq_ok.mp h
    obtain ⟨⟨q, b⟩, hnumber, h⟩ := bind_eq_ok.mp h
    obtain ⟨c, hclosing, h⟩ := bind_eq_ok.mp h
    obtain ⟨rfl, rfl⟩ := Prod.mk.inj (pure_eq_ok.mp h)
    obtain ⟨n, d, hn, hread, rfl⟩ := number_eq_ok_iff.mp hnumber
    refine ⟨_, .given hread, ?_⟩
    refine scans_cons_iff.mpr ⟨a, ⟨char_eq_ok_iff.mp hopening, trivial, trivial⟩, ?_⟩
    refine scans_cons_iff.mpr ⟨b, begins_of_numeral? hn, ?_⟩
    exact scans_singleton_iff.mpr ⟨char_eq_ok_iff.mp hclosing, trivial, trivial⟩
  · rintro ⟨ts, hspells, hscans⟩
    cases hspells with
    | @given n d hread =>
      obtain ⟨a, hopening, hscans⟩ := scans_cons_iff.mp hscans
      obtain ⟨b, ⟨hnumeral, hwell, -⟩, hscans⟩ := scans_cons_iff.mp hscans
      have hclosing : skipGap b = ']' :: rest := (scans_singleton_iff.mp hscans).eq_append
      have hnumber : number (skipGap a) = .ok (.ofDecimal d, b) := by
        rw [hnumeral]
        exact number_eq_ok_iff.mpr
          ⟨n, d, numeral?_run hwell (stops_of_skipGap hclosing (by decide)), hread, rfl⟩
      exact bind_eq_ok.mpr ⟨a, char_eq_ok_iff.mpr hopening.eq_append, bind_eq_ok.mpr
        ⟨_, hnumber, bind_eq_ok.mpr ⟨rest, char_eq_ok_iff.mpr hclosing, rfl⟩⟩⟩

/-! ## Right-hand sides -/

/-- What is read of an alternative is there: its items, its probability, and then what is left. -/
theorem spells_of_body {x : String} {s rest : List Char} {b : Body}
    (h : body x s = .ok (b, rest)) :
    ∃ ts us m, List.Forall₂ IsItem ts b.items ∧ SpellsProb us b.prob ∧ Scans s (ts ++ us) m ∧
      skipGap m = rest := by
  -- By induction on the reader's loop; the hypothesis gives the tokens after the first item.
  fun_induction body x s generalizing b rest with
  | case1 => exact absurd h (by simp)
  | case2 s c r hs hc =>
    cases h
    exact ⟨[], [], s, .nil, .missing, .nil s, hs⟩
  | case3 s r hs =>
    obtain ⟨⟨p, t⟩, hp, h⟩ := bind_eq_ok.mp h
    obtain ⟨rfl, hend⟩ := Prod.mk.inj (pure_eq_ok.mp h)
    rw [← hs] at hp
    obtain ⟨us, hspells, hscans⟩ := probability_eq_ok_iff.mp hp
    exact ⟨[], us, t, .nil, hspells, hscans, hend⟩
  | case4 => exact absurd h (by simp)
  | case5 s c r hs hc hb i t hi ih =>
    obtain ⟨⟨b', u⟩, hb', h⟩ := bind_eq_ok.mp h
    obtain ⟨rfl, rfl⟩ := Prod.mk.inj (pure_eq_ok.mp h)
    obtain ⟨ts, us, m, hitems, hprob, hscans, hend⟩ := ih hb'
    obtain ⟨first, hfirst, hbegins⟩ := item_eq_ok_iff.mp hi
    rw [← hs] at hbegins
    exact ⟨first :: ts, us, m, .cons hfirst hitems, hprob,
      scans_cons_iff.mpr ⟨t, hbegins, hscans⟩, hend⟩

/-- An alternative that is there is read, up to the bar or the semicolon after it. -/
theorem body_of_spells {x : String} {c : Char} {s m rest : List Char} {ts us : List Token}
    {is : List Item} {p : Option Probability} (hc : c = ';' ∨ c = '|')
    (hitems : List.Forall₂ IsItem ts is) (hprob : SpellsProb us p) (hscans : Scans s (ts ++ us) m)
    (hend : skipGap m = c :: rest) : body x s = .ok (⟨is, p⟩, c :: rest) := by
  induction hitems generalizing s with
  | nil =>
    cases hprob with
    | missing =>
      rw [← scans_nil_iff.mp hscans] at hend
      exact body_end hend hc
    | given hread =>
      have hp := probability_eq_ok_iff.mpr ⟨_, .given hread, hscans⟩
      obtain ⟨a, hopening, -⟩ := scans_cons_iff.mp hscans
      have hs : skipGap s = '[' :: a := hopening.eq_append
      rw [hs] at hp
      rw [body_probability hs hp, hend]
  | cons hi _ ih =>
    obtain ⟨a, hbegins, hscans⟩ := scans_cons_iff.mp hscans
    obtain ⟨d, r, hs, hopens⟩ := opens_of_isItem hi hbegins
    have hread := item_eq_ok_iff.mpr ⟨_, hi, hbegins⟩
    rw [hs] at hread
    rw [body_item hs hopens hread, ih hscans]
    rfl

/-- **An alternative is read up to a bar or a semicolon just if it is there.** -/
theorem alternative_eq_ok_iff {x : String} {c : Char} {s rest : List Char} {r : Rule}
    (hc : c = ';' ∨ c = '|') :
    alternative x s = .ok (r, c :: rest) ↔
      ∃ ts m, SpellsAlternative x ts r ∧ Scans s ts m ∧ skipGap m = c :: rest := by
  constructor
  · intro h
    obtain ⟨⟨b, t⟩, hb, h⟩ := bind_eq_ok.mp h
    dsimp only at h
    split at h
    · exact absurd h throw_ne_ok
    · rename_i hne
      obtain ⟨rfl, rfl⟩ := Prod.mk.inj (pure_eq_ok.mp h)
      obtain ⟨ts, us, m, hitems, hprob, hscans, hend⟩ := spells_of_body hb
      exact ⟨ts ++ us, m, .mk hitems (by simpa using hne) hprob, hscans, hend⟩
  · rintro ⟨ts, m, ⟨hitems, hne, hprob⟩, hscans, hend⟩
    refine bind_eq_ok.mpr ⟨_, body_of_spells hc hitems hprob hscans hend, ?_⟩
    dsimp only
    rw [if_neg (by simpa using hne)]
    rfl

/-! ## Rules -/

theorem alternatives_eq_ok_iff {x : String} {s rest : List Char} {rs : List Rule} :
    alternatives x s = .ok (rs, rest) ↔ ∃ ts, SpellsAlternatives x ts rs ∧ Scans s ts rest := by
  constructor
  · intro h
    fun_induction alternatives x s generalizing rs rest with
    | case1 => exact absurd h (by simp)
    | case2 s r t ha ih =>
      obtain ⟨⟨rs', u⟩, hu, h⟩ := bind_eq_ok.mp h
      obtain ⟨rfl, rfl⟩ := Prod.mk.inj (pure_eq_ok.mp h)
      obtain ⟨ts, m, hfirst, hscans, hend⟩ := (alternative_eq_ok_iff (.inr rfl)).mp ha
      obtain ⟨us, hmore, hscans'⟩ := ih hu
      exact ⟨_, .more hfirst hmore, scans_append_iff.mpr ⟨m, hscans,
        scans_cons_iff.mpr ⟨t, ⟨hend, trivial, trivial⟩, hscans'⟩⟩⟩
    | case3 s r t _ ha =>
      obtain ⟨u, hu, h⟩ := bind_eq_ok.mp h
      obtain ⟨rfl, rfl⟩ := Prod.mk.inj (pure_eq_ok.mp h)
      rw [char_eq_ok_iff.mp hu] at ha
      obtain ⟨ts, m, hlast, hscans, hend⟩ := (alternative_eq_ok_iff (.inl rfl)).mp ha
      exact ⟨_, .last hlast, scans_append_iff.mpr ⟨m, hscans,
        scans_singleton_iff.mpr ⟨hend, trivial, trivial⟩⟩⟩
  · rintro ⟨ts, hspells, hscans⟩
    induction hspells generalizing s with
    | last hlast =>
      obtain ⟨m, hscans, hend⟩ := scans_append_iff.mp hscans
      have hsemicolon := (scans_singleton_iff.mp hend).eq_append
      exact alternatives_last
        ((alternative_eq_ok_iff (.inl rfl)).mpr ⟨_, m, hlast, hscans, hsemicolon⟩)
    | more hfirst _ ih =>
      obtain ⟨m, hscans, hmore⟩ := scans_append_iff.mp hscans
      obtain ⟨u, hbar, hmore⟩ := scans_cons_iff.mp hmore
      exact alternatives_more
        ((alternative_eq_ok_iff (.inr rfl)).mpr ⟨_, m, hfirst, hscans, hbar.eq_append⟩) (ih hmore)

theorem rule_eq_ok_iff {s rest : List Char} {rs : List Rule} :
    rule (skipGap s) = .ok (rs, rest) ↔ ∃ ts, SpellsRule ts rs ∧ Scans s ts rest := by
  constructor
  · intro h
    obtain ⟨⟨x, a⟩, hparent, h⟩ := bind_eq_ok.mp h
    obtain ⟨b, harrow, h⟩ := bind_eq_ok.mp h
    obtain ⟨t, ht, hbegins⟩ := item_eq_ok_iff.mp (parent_eq_ok_iff.mp hparent)
    obtain ⟨ts, hspells, hscans⟩ := alternatives_eq_ok_iff.mp h
    refine ⟨_, .mk ht hspells, scans_cons_iff.mpr ⟨a, hbegins, scans_cons_iff.mpr ⟨b, ?_, hscans⟩⟩⟩
    exact ⟨arrow_eq_ok_iff.mp harrow, trivial, trivial⟩
  · rintro ⟨_, ⟨ht, hspells⟩, hscans⟩
    obtain ⟨a, hbegins, hscans⟩ := scans_cons_iff.mp hscans
    obtain ⟨b, harrow, hscans⟩ := scans_cons_iff.mp hscans
    have hparent := parent_eq_ok_iff.mpr (item_eq_ok_iff.mpr ⟨_, ht, hbegins⟩)
    exact bind_eq_ok.mpr ⟨_, hparent, bind_eq_ok.mpr ⟨b, arrow_eq_ok_iff.mpr harrow.eq_append,
      alternatives_eq_ok_iff.mpr ⟨_, hspells, hscans⟩⟩⟩

/-! ## Files -/

/-- **Rules that are there are read**, and then what comes after them as if it stood alone. -/
theorem rules_of_spells {s rest : List Char} {ts : List Token} {rs : List Rule}
    (hspells : SpellsRules ts rs) (hscans : Scans s ts rest) :
    rules s = (rules rest).map (rs ++ ·) := by
  induction hspells generalizing s with
  | nil =>
    rw [scans_nil_iff.mp hscans]
    cases rules rest with
    | error e => rfl
    | ok more => rfl
  | @cons ts us rs more hrule _ ih =>
    obtain ⟨m, hscans, hscans'⟩ := scans_append_iff.mp hscans
    have hread := rule_eq_ok_iff.mpr ⟨_, hrule, hscans⟩
    cases hs : skipGap s with
    | nil =>
      rw [hs] at hread
      exact absurd (rule_shorter hread).2 (Nat.not_lt_zero _)
    | cons c r =>
      rw [hs] at hread
      rw [rules_of_rule hs hread, ih hscans']
      cases rules rest with
      | error e => rfl
      | ok last => exact congrArg Except.ok (List.append_assoc rs more last).symm

/-- **A text is read as a list of rules just if its tokens spell them.** -/
theorem rules_eq_ok_iff {s : List Char} {rs : List Rule} :
    rules s = .ok rs ↔ ∃ ts rest, Scans s ts rest ∧ Gap rest [] ∧ SpellsRules ts rs := by
  constructor
  · intro h
    fun_induction rules s generalizing rs with
    | case1 s hs =>
      cases h
      exact ⟨[], s, .nil s, gap_nil_iff.mpr hs, .nil⟩
    | case2 => exact absurd h (by simp)
    | case3 s c r hs qs t hq ih =>
      obtain ⟨more, hmore, h⟩ := bind_eq_ok.mp h
      cases h
      rw [← hs] at hq
      obtain ⟨ts, hspells, hscans⟩ := rule_eq_ok_iff.mp hq
      obtain ⟨us, rest, hscans', hgap, hspells'⟩ := ih hmore
      exact ⟨ts ++ us, rest, scans_append_iff.mpr ⟨t, hscans, hscans'⟩, hgap,
        .cons hspells hspells'⟩
  · rintro ⟨ts, rest, hscans, hgap, hspells⟩
    rw [rules_of_spells hspells hscans, rules_nil (gap_nil_iff.mp hgap)]
    exact congrArg Except.ok (List.append_nil rs)

/-- The grammar is unambiguous: a text spells at most one list of rules. -/
theorem Spells.unique {text : String} {rs qs : List Rule} (h : Spells text rs)
    (h' : Spells text qs) : rs = qs := by
  have hread : rules text.toList = .ok rs := rules_eq_ok_iff.mpr h
  exact Except.ok.inj (hread.symm.trans (rules_eq_ok_iff.mpr h'))

/-- **Reading is exact.**  The rules of a text are those it spells, and a text that spells no rules
is refused. -/
theorem readRules_eq_ok_iff {text : String} {rs : List Rule} :
    readRules text = .ok rs ↔ Spells text rs :=
  rules_eq_ok_iff

end ChartParsing.RuleFile
