import ChartParsing.Proofs.RuleFile.Parts

/-!
# The readers step by step

What a reader does at the first token of a text, and with what is left.  The loops of the reader are
opened here, once; whatever is proved about them elsewhere cites these equations.

* `char_eq_ok_iff`, `arrow_eq_ok_iff`, `parent_eq_ok_iff`, `number_eq_ok_iff`: readers of one token.
* `body_nil`, `body_end`, `body_probability`, `body_item`: the ways to go on in a right-hand side.
* `alternatives_last`, `alternatives_more`; `rules_nil`, `rules_of_rule`: the ways to go on in a rule
  and in a file.
-/

namespace ChartParsing.RuleFile

open Item

/-! ## Readers of one token -/

theorem char_eq_ok_iff {c : Char} {s rest : List Char} :
    char c s = .ok rest ↔ s = c :: rest := by
  cases s with
  | nil => simp [char]
  | cons d s =>
    rw [char]
    split
    · rename_i heq
      simp [heq]
    · rename_i hne
      simp [hne]

theorem arrow_eq_ok_iff {s rest : List Char} :
    arrow s = .ok rest ↔ s = '-' :: '>' :: rest := by
  constructor
  · intro h
    unfold arrow at h
    split at h
    · rw [Except.ok.inj h]
    · exact absurd h (by simp)
  · rintro rfl
    rfl

theorem parent_eq_ok_iff {s rest : List Char} {x : String} :
    parent s = .ok (x, rest) ↔ item s = .ok (.nonterminal x, rest) := by
  constructor
  · exact item_of_parent
  · intro h
    exact bind_eq_ok.mpr ⟨_, h, rfl⟩

theorem number_eq_ok_iff {s rest : List Char} {p : Probability} :
    number s = .ok (p, rest) ↔ ∃ numeral d, numeral? s = some (numeral, rest) ∧
      Decimal.read? numeral = some d ∧ p = .ofDecimal d := by
  constructor
  · intro h
    unfold number at h
    split at h
    · exact absurd h (by simp)
    · rename_i numeral t hn
      split at h
      · rename_i d hd
        cases h
        exact ⟨numeral, d, hn, hd, rfl⟩
      · exact absurd h (by simp)
  · rintro ⟨numeral, d, hn, hd, rfl⟩
    rw [number, hn]
    simp only [hd]

/-! ## Right-hand sides -/

theorem body_nil {x : String} {s : List Char} (h : skipGap s = []) :
    body x s = .error (.unterminated x) := by
  rw [body]
  split
  · rfl
  · rename_i c r hcons
    exact absurd (hcons.symm.trans h) (by simp)

theorem body_of_skipGap {x : String} {c : Char} {s r : List Char} (h : skipGap s = c :: r) :
    body x s =
      if c = ';' ∨ c = '|' then .ok (⟨[], none⟩, c :: r)
      else if c = '[' then do
        let (p, rest) ← probability (c :: r)
        return (⟨[], some p⟩, skipGap rest)
      else
        match item (c :: r) with
        | .error e => .error e
        | .ok (i, rest) => do
          let (b, rest) ← body x rest
          return (⟨i :: b.items, b.prob⟩, rest) := by
  rw [body]
  split
  · rename_i hnil
    exact absurd (hnil.symm.trans h) (by simp)
  · rename_i d t hcons
    cases hcons.symm.trans h
    cases item (c :: r) with
    | error e => rfl
    | ok i => rfl

theorem body_end {x : String} {c : Char} {s r : List Char} (h : skipGap s = c :: r)
    (hc : c = ';' ∨ c = '|') : body x s = .ok (⟨[], none⟩, c :: r) := by
  rw [body_of_skipGap h, if_pos hc]

theorem body_probability {x : String} {s r rest : List Char} {p : Probability}
    (h : skipGap s = '[' :: r) (hp : probability ('[' :: r) = .ok (p, rest)) :
    body x s = .ok (⟨[], some p⟩, skipGap rest) := by
  rw [body_of_skipGap h, if_neg (by decide), if_pos rfl, hp]
  rfl

theorem body_item {x : String} {c : Char} {s r rest : List Char} {i : Item}
    (h : skipGap s = c :: r) (hc : Opens c) (hi : item (c :: r) = .ok (i, rest)) :
    body x s = do
      let (b, rest) ← body x rest
      return (⟨i :: b.items, b.prob⟩, rest) := by
  have hend : ¬ (c = ';' ∨ c = '|') := by
    rintro (rfl | rfl)
    · exact absurd hc (by decide)
    · exact absurd hc (by decide)
  rw [body_of_skipGap h, if_neg hend, if_neg (hc.ne (by decide)), hi]

/-! ## Rules -/

theorem alternatives_last {x : String} {s rest : List Char} {r : Rule}
    (h : alternative x s = .ok (r, ';' :: rest)) : alternatives x s = .ok ([r], rest) := by
  rw [alternatives]
  split
  · rename_i e he
    exact absurd (he.symm.trans h) (by simp)
  · rename_i q t hbar
    exact absurd (Except.ok.inj (hbar.symm.trans h)) (by simp)
  · rename_i q t _ hread
    cases hread.symm.trans h
    rfl

theorem alternatives_more {x : String} {s rest rest' : List Char} {r : Rule} {rs : List Rule}
    (h : alternative x s = .ok (r, '|' :: rest)) (hmore : alternatives x rest = .ok (rs, rest')) :
    alternatives x s = .ok (r :: rs, rest') := by
  rw [alternatives]
  split
  · rename_i e he
    exact absurd (he.symm.trans h) (by simp)
  · rename_i q t hbar
    cases hbar.symm.trans h
    exact bind_eq_ok.mpr ⟨_, hmore, rfl⟩
  · rename_i q t hbar hread
    cases hread.symm.trans h
    exact absurd rfl (hbar _)

/-! ## Files -/

theorem rules_nil {s : List Char} (h : skipGap s = []) : rules s = .ok [] := by
  rw [rules]
  split
  · rfl
  · rename_i c r hcons
    exact absurd (hcons.symm.trans h) (by simp)

/-- What comes after a rule is read as if it stood alone. -/
theorem rules_of_skipGap {c : Char} {s r : List Char} (h : skipGap s = c :: r) :
    rules s =
      match rule (c :: r) with
      | .error e => .error e
      | .ok (rs, rest) => (rules rest).map (rs ++ ·) := by
  rw [rules]
  split
  · rename_i hnil
    exact absurd (hnil.symm.trans h) (by simp)
  · rename_i d t hcons
    cases hcons.symm.trans h
    split
    · rename_i e he
      rw [he]
    · rename_i rs rest hrule
      rw [hrule]
      dsimp only
      cases rules rest with
      | error e => rfl
      | ok more => rfl

theorem rules_of_rule {c : Char} {s r rest : List Char} {rs : List Rule}
    (h : skipGap s = c :: r) (hrule : rule (c :: r) = .ok (rs, rest)) :
    rules s = (rules rest).map (rs ++ ·) := by
  rw [rules_of_skipGap h, hrule]

theorem rules_cons {c : Char} {s r rest : List Char} {rs more : List Rule}
    (h : skipGap s = c :: r) (hrule : rule (c :: r) = .ok (rs, rest))
    (hmore : rules rest = .ok more) : rules s = .ok (rs ++ more) := by
  rw [rules_of_rule h hrule, hmore]
  rfl

end ChartParsing.RuleFile
