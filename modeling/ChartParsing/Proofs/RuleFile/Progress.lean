import ChartParsing.Grammar.Source
import ChartParsing.Proofs.RuleFile.Steps
import ChartParsing.Proofs.RuleFile.Tokens

/-!
# Readers come to an end

Every reader takes something from the beginning of a text and leaves the rest.  So its loops, in
which a turn goes on with what the turn before has left, come to an end on every text, and they need
no more turns than the text has characters, and one.

* `skipGap_stops`: after a gap there is neither a blank nor a comment.
* `loop_eq_some`: a loop ends if a measure falls with each turn.
* `loop_bodyTurn`, `loop_alternativesTurn`, `loop_rulesTurn`: the readers are loops that end.
* `cut?_append`: a text can be cut, by the number of bytes, where a part of it ends.
* `progress`: **on every text the readers make progress**.
-/

namespace ChartParsing.RuleFile

open Text Item

/-! ## Gaps -/

/-- After a gap there is neither a blank nor a comment. -/
theorem skipGap_stops (s : List Char) :
    Stops isBlank (skipGap s) ∧ ¬ ['/', '/'] <+: skipGap s := by
  fun_induction skipGap s with
  | case1 => exact ⟨.nil, by simp⟩
  | case2 r ih => exact ih
  | case3 c r _ _ ih => exact ih
  | case4 c r hcomment hblank =>
    refine ⟨.cons (by simpa using hblank), ?_⟩
    rintro ⟨t, ht⟩
    obtain ⟨rfl, rfl⟩ := List.cons.inj ht
    exact hcomment t rfl rfl

/-! ## Loops -/

section Loop

variable {ε σ β : Type}

/-- What a turn of a loop comes to: the loop goes on, or it ends with a result. -/
inductive Turn (σ β : Type) where
  | again (state : σ)
  | done (result : β)

/-- What a loop comes to in `n` turns, or nothing if it has not ended by then. -/
def loop (turn : σ → Except ε (Turn σ β)) : Nat → σ → Option (Except ε β)
  | 0, _ => none
  | n + 1, s =>
    match turn s with
    | .error e => some (.error e)
    | .ok (.done b) => some (.ok b)
    | .ok (.again t) => loop turn n t

/-- What comes after a turn, if `f` is what the loop comes to in the end. -/
def Turn.finish (f : σ → Except ε β) : Turn σ β → Except ε β
  | again t => f t
  | done b => .ok b

/-- **A loop ends if a measure falls with each turn.** -/
theorem loop_eq_some {turn : σ → Except ε (Turn σ β)} {f : σ → Except ε β} {measure : σ → Nat}
    (hf : ∀ s, f s = turn s >>= Turn.finish f)
    (hfalls : ∀ s t, turn s = .ok (.again t) → measure t < measure s) {n : Nat} {s : σ}
    (h : measure s < n) : loop turn n s = some (f s) := by
  induction n generalizing s with
  | zero => exact absurd h (Nat.not_lt_zero _)
  | succ n ih =>
    rw [loop, hf]
    cases hturn : turn s with
    | error e => rfl
    | ok t =>
      cases t with
      | done b => rfl
      | again t => exact ih (Nat.lt_of_lt_of_le (hfalls s t hturn) (Nat.le_of_lt_succ h))

end Loop

/-- A turn of the loop over the items of an alternative, given the items so far and the text. -/
def bodyTurn (x : String) : List Item × List Char →
    Except SyntaxError (Turn (List Item × List Char) (Body × List Char))
  | (items, s) =>
    match skipGap s with
    | [] => .error (.unterminated x)
    | c :: r =>
      if c = ';' ∨ c = '|' then .ok (.done (⟨items, none⟩, c :: r))
      else if c = '[' then do
        let (p, rest) ← probability (c :: r)
        return .done (⟨items, some p⟩, skipGap rest)
      else do
        let (i, rest) ← item (c :: r)
        return .again (items ++ [i], rest)

/-- A turn of the loop over the alternatives of a rule, given those so far and the text. -/
def alternativesTurn (x : String) : List Rule × List Char →
    Except SyntaxError (Turn (List Rule × List Char) (List Rule × List Char))
  | (rs, s) => do
    let (r, rest) ← alternative x s
    match rest with
    | '|' :: rest => return .again (rs ++ [r], rest)
    | rest => do
      let rest ← char ';' rest
      return .done (rs ++ [r], rest)

/-- A turn of the loop over the rules of a text, given those so far and the text. -/
def rulesTurn : List Rule × List Char →
    Except SyntaxError (Turn (List Rule × List Char) (List Rule))
  | (rs, s) =>
    match skipGap s with
    | [] => .ok (.done rs)
    | c :: r => do
      let (qs, rest) ← rule (c :: r)
      return .again (rs ++ qs, rest)

variable {x : String} {s : List Char}

/-! ### Each turn leaves less -/

theorem bodyTurn_falls {a b : List Item × List Char} (h : bodyTurn x a = .ok (.again b)) :
    b.2.length < a.2.length := by
  obtain ⟨items, s⟩ := a
  rw [bodyTurn] at h
  split at h
  · exact absurd h (by simp)
  · rename_i c r hs
    split_ifs at h
    · exact absurd h (by simp)
    · obtain ⟨⟨p, rest⟩, -, h⟩ := bind_eq_ok.mp h
      exact absurd h (by simp [pure, Except.pure])
    · obtain ⟨⟨i, rest⟩, hi, h⟩ := bind_eq_ok.mp h
      cases pure_eq_ok.mp h
      exact ((item_shorter hi).trans_suffix (hs ▸ skipGap_suffix s)).2

theorem alternativesTurn_falls {a b : List Rule × List Char}
    (h : alternativesTurn x a = .ok (.again b)) : b.2.length < a.2.length := by
  obtain ⟨rs, s⟩ := a
  obtain ⟨⟨r, rest⟩, hr, h⟩ := bind_eq_ok.mp h
  dsimp only at h
  split at h
  · cases pure_eq_ok.mp h
    exact (ProperSuffix.of_suffix (List.suffix_cons _ _) (alternative_shorter hr)).2
  · obtain ⟨rest, -, h⟩ := bind_eq_ok.mp h
    exact absurd h (by simp [pure, Except.pure])

theorem rulesTurn_falls {a b : List Rule × List Char} (h : rulesTurn a = .ok (.again b)) :
    b.2.length < a.2.length := by
  obtain ⟨rs, s⟩ := a
  rw [rulesTurn] at h
  split at h
  · exact absurd h (by simp)
  · rename_i c r hs
    obtain ⟨⟨qs, rest⟩, hrule, h⟩ := bind_eq_ok.mp h
    cases pure_eq_ok.mp h
    exact ((rule_shorter hrule).trans_suffix (hs ▸ skipGap_suffix s)).2

/-! ### The readers are these loops -/

/-- What is read of a right-hand side, after the items that were read before. -/
def bodyAfter (x : String) (a : List Item × List Char) : Except SyntaxError (Body × List Char) :=
  (body x a.2).map fun b => (⟨a.1 ++ b.1.items, b.1.prob⟩, b.2)

/-- What is read of a rule, after the alternatives that were read before. -/
def alternativesAfter (x : String) (a : List Rule × List Char) :
    Except SyntaxError (List Rule × List Char) :=
  (alternatives x a.2).map fun b => (a.1 ++ b.1, b.2)

/-- What is read of a text, after the rules that were read before. -/
def rulesAfter (a : List Rule × List Char) : Except SyntaxError (List Rule) :=
  (rules a.2).map (a.1 ++ ·)

theorem bodyAfter_nil : bodyAfter x ([], s) = body x s := by
  rw [bodyAfter]
  cases body x s <;> rfl

theorem alternativesAfter_nil : alternativesAfter x ([], s) = alternatives x s := by
  rw [alternativesAfter]
  cases alternatives x s <;> rfl

theorem rulesAfter_nil : rulesAfter ([], s) = rules s := by
  rw [rulesAfter]
  cases rules s <;> rfl

theorem bodyAfter_eq (a : List Item × List Char) :
    bodyAfter x a = bodyTurn x a >>= Turn.finish (bodyAfter x) := by
  obtain ⟨items, s⟩ := a
  rw [bodyAfter, bodyTurn]
  cases hs : skipGap s with
  | nil =>
    rw [body_nil hs]
    rfl
  | cons c r =>
    rw [body_of_skipGap hs]
    dsimp only
    split_ifs
    · rw [Except.map, List.append_nil]
      rfl
    · cases probability (c :: r) with
      | error e => rfl
      | ok p =>
        exact congrArg (fun l => Except.ok (Body.mk l (some p.1), skipGap p.2))
          (List.append_nil items)
    · cases item (c :: r) with
      | error e => rfl
      | ok i =>
        show (body x i.2 >>= _).map _ = (body x i.2).map _
        cases body x i.2 with
        | error e => rfl
        | ok b =>
          exact congrArg (fun l => Except.ok (Body.mk l b.1.prob, b.2)) (List.append_cons ..)

theorem alternativesAfter_eq (a : List Rule × List Char) :
    alternativesAfter x a = alternativesTurn x a >>= Turn.finish (alternativesAfter x) := by
  obtain ⟨rs, s⟩ := a
  rw [alternativesAfter, alternatives, alternativesTurn]
  split
  · rename_i e he
    rw [he]
    rfl
  · rename_i r rest hr
    rw [hr]
    show (alternatives x rest >>= _).map _ = (alternatives x rest).map _
    cases alternatives x rest with
    | error e => rfl
    | ok b => exact congrArg (fun l => Except.ok (l, b.2)) (List.append_cons ..)
  · rename_i r rest hbar hr
    rw [hr]
    simp only [bind, Except.bind]
    cases char ';' rest with
    | error e => rfl
    | ok t => rfl

theorem rulesAfter_eq (a : List Rule × List Char) :
    rulesAfter a = rulesTurn a >>= Turn.finish rulesAfter := by
  obtain ⟨rs, s⟩ := a
  rw [rulesAfter, rulesTurn]
  cases hs : skipGap s with
  | nil =>
    rw [rules_nil hs, Except.map, List.append_nil]
    rfl
  | cons c r =>
    rw [rules_of_skipGap hs]
    dsimp only
    cases rule (c :: r) with
    | error e => rfl
    | ok b =>
      show ((rules b.2).map _).map _ = (rules b.2).map _
      cases rules b.2 with
      | error e => rfl
      | ok more => exact congrArg Except.ok (List.append_assoc ..).symm

/-! ### The loops end -/

theorem loop_bodyTurn (x : String) (s : List Char) :
    loop (bodyTurn x) (s.length + 1) ([], s) = some (body x s) := by
  rw [← bodyAfter_nil]
  exact loop_eq_some bodyAfter_eq (fun _ _ => bodyTurn_falls) (Nat.lt_succ_self _)

theorem loop_alternativesTurn (x : String) (s : List Char) :
    loop (alternativesTurn x) (s.length + 1) ([], s) = some (alternatives x s) := by
  rw [← alternativesAfter_nil]
  exact loop_eq_some alternativesAfter_eq (fun _ _ => alternativesTurn_falls) (Nat.lt_succ_self _)

theorem loop_rulesTurn (s : List Char) :
    loop rulesTurn (s.length + 1) ([], s) = some (rules s) := by
  rw [← rulesAfter_nil]
  exact loop_eq_some rulesAfter_eq (fun _ _ => rulesTurn_falls) (Nat.lt_succ_self _)

/-! ## Cuts -/

/-- How many bytes a text takes in UTF-8. -/
def byteCount (s : List Char) : Nat :=
  (s.map Char.utf8Size).sum

/-- Cuts a text after a number of bytes, unless this is behind its end or within a character. -/
def cut? : List Char → Nat → Option (List Char × List Char)
  | s, 0 => some ([], s)
  | [], _ + 1 => none
  | c :: s, n + 1 =>
    if n + 1 < c.utf8Size then none
    else (cut? s (n + 1 - c.utf8Size)).map fun parts => (c :: parts.1, parts.2)

/-- The part of a text between two numbers of bytes, if the text can be cut there. -/
def slice? (s : List Char) (start stop : Nat) : Option (List Char) := do
  let (_, s) ← cut? s start
  let (part, _) ← if start ≤ stop then cut? s (stop - start) else none
  return part

theorem byteCount_cons (c : Char) (s : List Char) :
    byteCount (c :: s) = c.utf8Size + byteCount s := by
  rw [byteCount, List.map_cons, List.sum_cons, byteCount]

theorem byteCount_append (s t : List Char) : byteCount (s ++ t) = byteCount s + byteCount t := by
  rw [byteCount, List.map_append, List.sum_append, byteCount, byteCount]

/-- **A text can be cut where a part of it ends.** -/
theorem cut?_append (part rest : List Char) :
    cut? (part ++ rest) (byteCount part) = some (part, rest) := by
  induction part with
  | nil => rw [byteCount, List.map_nil, List.sum_nil, List.nil_append, cut?]
  | cons c part ih =>
    have hpos := c.utf8Size_pos
    obtain ⟨n, hn⟩ : ∃ n, c.utf8Size + byteCount part = n + 1 :=
      Nat.exists_eq_succ_of_ne_zero (by omega)
    rw [byteCount_cons, hn, List.cons_append, cut?, if_neg (by omega), ← hn,
      Nat.add_sub_cancel_left, ih]
    rfl

theorem Token.Begins.cut?_eq {t : Token} {rest : List Char} (h : t.Begins s rest) :
    cut? s (byteCount t.text) = some (t.text, rest) := by
  rw [h.eq_append, cut?_append]

/-- The word is what a quoted word has between its first and its last byte. -/
theorem slice?_quoted (w : List Char) :
    slice? (Token.quoted w).text 1 (byteCount (Token.quoted w).text - 1) = some w := by
  have hopen : cut? (Token.quoted w).text 1 = some (['"'], w ++ ['"']) :=
    cut?_append ['"'] (w ++ ['"'])
  have hlength : byteCount (Token.quoted w).text = 1 + (byteCount w + 1) := by
    rw [Token.text, byteCount_cons, byteCount_append]
    rfl
  have hstop : 1 + (byteCount w + 1) - 1 = byteCount w + 1 := by omega
  rw [slice?, hopen, hlength, hstop]
  dsimp only [bind, Option.bind]
  rw [if_pos (by omega), Nat.add_sub_cancel, cut?_append]
  rfl

/-! ## The readers -/

/-- An error in reading is the only one that says that a text is malformed. -/
theorem ofText_eq_malformed_iff {text : String} {e : SyntaxError} :
    Grammar.ofText text = .error (.malformed e) ↔ readRules text = .error e := by
  rw [Grammar.ofText]
  cases readRules text with
  | error d => simp [Except.mapError, bind, Except.bind]
  | ok rs =>
    refine iff_of_false ?_ (by simp)
    show ((Grammar.ofRules rs).mapError _ >>= _) ≠ _
    cases hg : Grammar.ofRules rs with
    | error d => simp [Except.mapError, bind, Except.bind]
    | ok g =>
      cases hx : startHeader? text with
      | none => simp [Except.mapError, bind, Except.bind, pure, Except.pure]
      | some name =>
        cases hs : g.withStart name <;> simp [hs, Except.mapError, bind, Except.bind]

/-- How the readers get on in a text. -/
structure Progress (text : String) : Prop where
  /-- A gap is taken from the beginning of the text, and as much as there is. -/
  gap_suffix : skipGap text.toList <:+ text.toList
  gap_stops : Stops isBlank (skipGap text.toList)
  gap_no_comment : ¬ ['/', '/'] <+: skipGap text.toList
  /-- Every other reader leaves an end of the text that is shorter than it. -/
  item_shorter : ∀ i rest, item text.toList = .ok (i, rest) → ProperSuffix rest text.toList
  parent_shorter : ∀ x rest, parent text.toList = .ok (x, rest) → ProperSuffix rest text.toList
  probability_shorter : ∀ p rest, probability text.toList = .ok (p, rest) →
    ProperSuffix rest text.toList
  alternative_shorter : ∀ x r rest, alternative x text.toList = .ok (r, rest) →
    ProperSuffix rest text.toList
  rule_shorter : ∀ rs rest, rule text.toList = .ok (rs, rest) → ProperSuffix rest text.toList
  /-- The loops end after at most one turn more than there are characters. -/
  body_ends : ∀ x, loop (bodyTurn x) (text.length + 1) ([], text.toList) =
    some (body x text.toList)
  alternatives_ends : ∀ x, loop (alternativesTurn x) (text.length + 1) ([], text.toList) =
    some (alternatives x text.toList)
  rules_ends : loop rulesTurn (text.length + 1) ([], text.toList) = some (readRules text)
  /-- The text can be cut after a gap and after each of the tokens that are searched for. -/
  cut_gap : ∃ gap, cut? text.toList (byteCount gap) = some (gap, skipGap text.toList)
  cut_name : ∀ x rest, name? text.toList = some (x, rest) →
    cut? text.toList (byteCount x) = some (x, rest)
  cut_numeral : ∀ n rest, numeral? text.toList = some (n, rest) →
    cut? text.toList (byteCount n) = some (n, rest)
  cut_arrow : ∀ rest, arrow text.toList = .ok rest →
    cut? text.toList 2 = some (['-', '>'], rest)
  /-- The quotes can be cut off from a quoted word. -/
  cut_quoted : ∀ w rest, quotedWord? text.toList = some (w, rest) → ∃ quoted,
    cut? text.toList (byteCount quoted) = some (quoted, rest) ∧
      slice? quoted 1 (byteCount quoted - 1) = some w
  /-- What an error message shows can be cut off from the first line. -/
  cut_excerpt : ∃ more, cut? (firstLine text.toList) (byteCount (excerpt text.toList).toList) =
    some ((excerpt text.toList).toList, more)
  /-- What goes wrong in a text is reported as an error of syntax. -/
  malformed : ∀ e, Grammar.ofText text = .error (.malformed e) ↔ readRules text = .error e

/-- **The readers make progress on every text.**  What a reader leaves is an end of the text, and it
is shorter, but for gaps, after which there is neither a blank nor a comment.  So the loops over
items, alternatives and rules end on every text.  All places where the text is cut are in it and
between two characters, and the only errors are those of syntax. -/
theorem progress (text : String) : Progress text where
  gap_suffix := skipGap_suffix _
  gap_stops := (skipGap_stops _).1
  gap_no_comment := (skipGap_stops _).2
  item_shorter := fun _ _ => RuleFile.item_shorter
  parent_shorter := fun _ _ => RuleFile.parent_shorter
  probability_shorter := fun _ _ => RuleFile.probability_shorter
  alternative_shorter := fun _ _ _ => RuleFile.alternative_shorter
  rule_shorter := fun _ _ => RuleFile.rule_shorter
  body_ends := fun x => loop_bodyTurn x _
  alternatives_ends := fun x => loop_alternativesTurn x _
  rules_ends := loop_rulesTurn _
  cut_gap := by
    obtain ⟨gap, hgap⟩ := skipGap_suffix text.toList
    refine ⟨gap, ?_⟩
    conv => lhs; rw [← hgap]
    exact cut?_append gap _
  cut_name := fun _ _ h => (begins_of_name? h).cut?_eq
  cut_numeral := fun _ _ h => (begins_of_numeral? h).cut?_eq
  cut_arrow := by
    intro rest h
    rw [arrow_eq_ok_iff.mp h]
    exact cut?_append ['-', '>'] rest
  cut_quoted := fun w _ h => ⟨_, (begins_of_quotedWord? h).cut?_eq, slice?_quoted w⟩
  cut_excerpt := by
    refine ⟨(firstLine text.toList).drop excerptLength, ?_⟩
    rw [excerpt, String.toList_ofList]
    conv => lhs; lhs; rw [← List.take_append_drop excerptLength (firstLine text.toList)]
    exact cut?_append _ _
  malformed := fun _ => ofText_eq_malformed_iff

/-- A text that goes wrong in a numeral: the readers stop there. -/
theorem progress_numeral :
    readRules "S -> A [0.5.5];" = .error (.badNumeral "0.5.5") ∧
    Grammar.ofText "S -> A [0.5.5];" = .error (.malformed (.badNumeral "0.5.5")) ∧
    loop rulesTurn 16 ([], "S -> A [0.5.5];".toList) = some (.error (.badNumeral "0.5.5")) := by
  have hread : readRules "S -> A [0.5.5];" = .error (.badNumeral "0.5.5") := by
    with_unfolding_all rfl
  have hprogress := progress "S -> A [0.5.5];"
  have hends := hprogress.rules_ends
  rw [hread] at hends
  exact ⟨hread, (hprogress.malformed _).mpr hread, hends⟩

end ChartParsing.RuleFile
