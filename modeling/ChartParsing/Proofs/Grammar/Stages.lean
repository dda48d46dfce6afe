import ChartParsing.Proofs.Grammar.Definitions
import ChartParsing.Sequencing

/-!
# One pass and its stages

A list of rules is read in one pass, which checks, numbers and keeps each rule before it looks at the
next one.  The same comes of four stages, each of which goes through the whole list: check the rules,
number the names, keep the last definitions, and put them into the indexes.

* `Rule.offence?`, `Grammar.assemble`: the first stage, and what the others make.
* `Rule.HasKey`: the keys of rules.  `Builder.rules_keep`: a rule that is kept by its key is kept by
  its shape.
* `Builder.Reads`: what the pass has made of the rules it has read.  `Reads.add`: one more rule;
  `Reads.foldlM_add`: a whole list.
* `Grammar.ofRules_cons`: **the pass and the stages give the same**.
-/

namespace ChartParsing

namespace Rule

/-- Whether the rule has one of the two forms `X -> word` and `X -> Y Z` and names its parent. -/
def isWellFormed (r : Rule) : Bool :=
  r.parent ≠ "" &&
    match r.items with
    | [.word _] => true
    | [.nonterminal _, .nonterminal _] => true
    | _ => false

/-- What is wrong with a rule in a grammar that is weighted or not. The probability is looked at
before the form. -/
def offence? (weighted : Bool) (r : Rule) : Option GrammarError :=
  match r.checkProb weighted with
  | .error e => some e
  | .ok () => if r.isWellFormed then none else some (.arity r)

/-- A well-formed rule is lexical or binary, and its parent has a name. -/
theorem eq_lexical_or_binary {r : Rule} (h : r.isWellFormed = true) :
    r.parent ≠ "" ∧ ((∃ w, r = lexical r.parent w r.prob) ∨
      ∃ y z, r = binary r.parent y z r.prob) := by
  obtain ⟨parent, items, prob⟩ := r
  rw [isWellFormed, Bool.and_eq_true, decide_eq_true_eq] at h
  obtain ⟨hparent, hitems⟩ := h
  refine ⟨hparent, ?_⟩
  split at hitems
  · rename_i w heq
    cases heq
    exact .inl ⟨w, rfl⟩
  · rename_i y z heq
    cases heq
    exact .inr ⟨y, z, rfl⟩
  · exact absurd hitems (by decide)

/-- The key of a rule whose names have symbols. -/
inductive HasKey (t : SymbolTable) : Rule → RuleKey → Prop
  | lexical {x w : String} {p : Option Probability} {a : Symbol} (hx : t.find? x = some a) :
      HasKey t (lexical x w p) (.lexical a w)
  | binary {x y z : String} {p : Option Probability} {a b c : Symbol} (hx : t.find? x = some a)
      (hy : t.find? y = some b) (hz : t.find? z = some c) :
      HasKey t (binary x y z p) (.binary a b c)

end Rule

/-- The values of each key, in the order of the list. -/
def groupByKey {κ β : Type} (cmp : κ → κ → Ordering) (entries : List (κ × β)) :
    Std.TreeMap κ (List β) cmp :=
  entries.foldl (fun index e => addToIndex index e.1 e.2) ∅

/-- The grammar of a list of well-formed rules with a first one, whose parent is the start
symbol. -/
def Grammar.assemble (first : Rule) (rest : List Rule) : Grammar :=
  let symbols := SymbolTable.ofNames ((first :: rest).flatMap Rule.names)
  let rules := Rule.lastDefinitions (first :: rest)
  { symbols
    rules
    weighted := (first :: rest).any fun r => r.prob.isSome
    start := ⟨0⟩
    start_known := SymbolTable.size_pos_ofNames first.parent _
    parentsOfWord := groupByKey compare <|
      (rules.filterMap (Rule.lexical? symbols)).map fun r =>
        (r.word, r.parent, Rule.weightOf r.prob)
    parentsOfPair := groupByKey Symbol.comparePairs <|
      (rules.filterMap (Rule.binary? symbols)).map fun r =>
        ((r.left, r.right), r.parent, Rule.weightOf r.prob) }

/-! ## Rules with symbols for names -/

namespace Rule

theorem lexical?_eq_some_iff {t : SymbolTable} {r : Rule} {l : LexicalRule} :
    r.lexical? t = some l ↔
      r = lexical r.parent l.word l.prob ∧ t.find? r.parent = some l.parent := by
  obtain ⟨parent, items, prob⟩ := r
  obtain ⟨a, w, p⟩ := l
  constructor
  · intro h
    rw [lexical?] at h
    split at h
    · rename_i word hitems
      obtain ⟨b, hb, h⟩ := Option.bind_eq_some_iff.mp h
      cases h
      cases hitems
      exact ⟨rfl, hb⟩
    · exact absurd h (by simp)
  · rintro ⟨hr, ha⟩
    cases hr
    exact Option.bind_eq_some_iff.mpr ⟨a, ha, rfl⟩

theorem binary?_eq_some_iff {t : SymbolTable} {r : Rule} {b : BinaryRule} :
    r.binary? t = some b ↔ ∃ y z, r = binary r.parent y z b.prob ∧
      t.find? r.parent = some b.parent ∧ t.find? y = some b.left ∧ t.find? z = some b.right := by
  obtain ⟨parent, items, prob⟩ := r
  obtain ⟨a, l, c, p⟩ := b
  constructor
  · intro h
    rw [binary?] at h
    split at h
    · rename_i y z hitems
      obtain ⟨a', ha, h⟩ := Option.bind_eq_some_iff.mp h
      obtain ⟨l', hl, h⟩ := Option.bind_eq_some_iff.mp h
      obtain ⟨c', hc, h⟩ := Option.bind_eq_some_iff.mp h
      cases h
      cases hitems
      exact ⟨y, z, rfl, ha, hl, hc⟩
    · exact absurd h (by simp)
  · rintro ⟨y, z, hr, ha, hl, hc⟩
    cases hr
    exact Option.bind_eq_some_iff.mpr ⟨a, ha, Option.bind_eq_some_iff.mpr ⟨l, hl,
      Option.bind_eq_some_iff.mpr ⟨c, hc, rfl⟩⟩⟩

variable {t t' : SymbolTable} {r s : Rule} {key key' : RuleKey}

/-- A symbol table with more names gives the same keys. -/
theorem HasKey.mono (h : r.HasKey t key)
    (hmono : ∀ x a, t.find? x = some a → t'.find? x = some a) : r.HasKey t' key := by
  cases h with
  | lexical hx => exact .lexical (hmono _ _ hx)
  | binary hx hy hz => exact .binary (hmono _ _ hx) (hmono _ _ hy) (hmono _ _ hz)

/-- **Rules of one shape** are those with one key. -/
theorem HasKey.sameShape_iff (hr : r.HasKey t key) (hs : s.HasKey t key') :
    r.sameShape s = true ↔ key = key' := by
  rw [Rule.sameShape_iff]
  constructor
  · rintro ⟨hparent, hitems⟩
    cases hr with
    | lexical hx =>
      cases hs with
      | lexical hx' =>
        cases hparent
        cases hitems
        cases hx.symm.trans hx'
        rfl
      | binary => cases hitems
    | binary hx hy hz =>
      cases hs with
      | lexical => cases hitems
      | binary hx' hy' hz' =>
        cases hparent
        cases hitems
        cases hx.symm.trans hx'
        cases hy.symm.trans hy'
        cases hz.symm.trans hz'
        rfl
  · rintro rfl
    cases hr with
    | lexical hx =>
      cases hs with
      | lexical hx' => exact ⟨SymbolTable.find?_injective hx hx', rfl⟩
    | binary hx hy hz =>
      cases hs with
      | binary hx' hy' hz' =>
        cases SymbolTable.find?_injective hy hy'
        cases SymbolTable.find?_injective hz hz'
        exact ⟨SymbolTable.find?_injective hx hx', rfl⟩

end Rule

/-! ## Reading one rule -/

namespace RuleKey

variable {t : SymbolTable} {r : Rule}

theorem ofRule_eq_error (h : r.isWellFormed = false) : ofRule t r = .error (.arity r) := by
  rw [ofRule]
  split
  · rfl
  · rename_i hparent
    dsimp only
    split
    · rename_i w hitems
      simp [Rule.isWellFormed, hparent, hitems] at h
    · rename_i y z hitems
      simp [Rule.isWellFormed, hparent, hitems] at h
    · rfl

/-- A rule of one of the two forms has a key in the table with its names. -/
theorem ofRule_eq_ok (h : r.isWellFormed = true) (t : SymbolTable) :
    ∃ key, ofRule t r = .ok (r.names.foldl .insert t, key) ∧
      r.HasKey (r.names.foldl .insert t) key := by
  obtain ⟨parent, items, prob⟩ := r
  obtain ⟨hparent, ⟨w, hr⟩ | ⟨y, z, hr⟩⟩ := Rule.eq_lexical_or_binary h
  · cases hr
    refine ⟨.lexical (t.intern parent).2 w, ?_, ?_⟩
    · rw [ofRule, if_neg hparent]
      rfl
    · exact .lexical (SymbolTable.find?_insert_self t parent)
  · cases hr
    have hy := SymbolTable.find?_insert_self (t.insert parent) y
    refine ⟨.binary (t.intern parent).2 ((t.insert parent).intern y).2
      (((t.insert parent).insert y).intern z).2, ?_, ?_⟩
    · rw [ofRule, if_neg hparent]
      rfl
    · exact .binary
        (SymbolTable.find?_foldl_of_find? [y, z] (SymbolTable.find?_insert_self t parent))
        (SymbolTable.find?_insert_of_find? hy) (SymbolTable.find?_insert_self _ z)

end RuleKey

namespace Builder

variable {b b' : Builder} {rule : Rule} {key : RuleKey} {read : List Rule}

/-- The rules that are kept. -/
def rules (b : Builder) : List Rule :=
  b.kept.toList.map Prod.snd

/-- Each kept rule has its key. -/
def Keyed (b : Builder) : Prop :=
  ∀ e ∈ b.kept.toList, e.2.HasKey b.symbols e.1

theorem seen_eq_some_of_mem {e : RuleKey × Rule} {i : Nat} (h : b.kept.toList[i]? = some e) :
    b.seen[e.1]? = some i := by
  rw [b.seen_iff, ← Array.getElem?_toList, h]
  rfl

/-- A rule with a new key goes to the end. -/
theorem keep_of_new (h : b.seen[key]? = none) (rule : Rule) :
    (∀ e ∈ b.kept.toList, e.1 ≠ key) ∧
      (b.keep key rule).kept.toList = b.kept.toList ++ [(key, rule)] := by
  constructor
  · rintro e he rfl
    obtain ⟨i, hi⟩ := List.mem_iff_getElem?.mp he
    exact absurd (h.symm.trans (seen_eq_some_of_mem hi)) (by simp)
  · unfold keep
    split
    · rename_i i hi
      exact absurd (h.symm.trans hi) (by simp)
    · exact Array.toList_push

/-- A rule with a known key takes the place of the one rule with this key. -/
theorem keep_of_known {i : Nat} (h : b.seen[key]? = some i) (rule : Rule) :
    ∃ before r after, b.kept.toList = before ++ (key, r) :: after ∧ (∀ e ∈ before, e.1 ≠ key) ∧
      (b.keep key rule).kept.toList = before ++ (key, rule) :: after := by
  have hplace := (b.seen_iff key i).mp h
  obtain ⟨⟨_, r⟩, hr, rfl⟩ := Option.map_eq_some_iff.mp hplace
  rw [← Array.getElem?_toList] at hr
  obtain ⟨hlt, hget⟩ := List.getElem?_eq_some_iff.mp hr
  refine ⟨b.kept.toList.take i, r, b.kept.toList.drop (i + 1), ?_, ?_, ?_⟩
  · rw [← hget, List.getElem_cons_drop, List.take_append_drop]
  · rintro e he rfl
    obtain ⟨j, hj, hje⟩ := List.mem_take_iff_getElem.mp he
    have hseen := seen_eq_some_of_mem (List.getElem?_eq_some_iff.mpr ⟨_, hje⟩)
    have hij : i = j := Option.some.inj (h.symm.trans hseen)
    omega
  · unfold keep
    split
    · rename_i j hj
      obtain rfl := Option.some.inj (h.symm.trans hj)
      rw [Array.toList_modify, List.modify_eq_take_cons_drop hlt, hget]
    · rename_i hnone
      exact absurd (h.symm.trans hnone) (by simp)

/-- **One more definition.** -/
theorem rules_keep (hb : b.Keyed) (hkey : rule.HasKey b.symbols key) :
    (b.keep key rule).rules = Rule.define rule b.rules := by
  have hshape : ∀ e ∈ b.kept.toList, e.1 ≠ key → e.2.sameShape rule = false := by
    intro e he hne
    rwa [← Bool.not_eq_true, (hb e he).sameShape_iff hkey]
  cases hseen : b.seen[key]? with
  | none =>
    obtain ⟨hnew, hkept⟩ := keep_of_new hseen rule
    rw [rules, rules, hkept, List.map_append, Rule.define_of_new]
    · rfl
    · exact List.forall_mem_map.mpr fun e he => hshape e he (hnew e he)
  | some i =>
    obtain ⟨before, r, after, hold, hbefore, hkept⟩ := keep_of_known hseen rule
    have hr := hb (key, r) (by rw [hold]; simp)
    rw [rules, rules, hkept, hold, List.map_append, List.map_append, List.map_cons, List.map_cons,
      Rule.define_append_cons ((hr.sameShape_iff hkey).mpr rfl)]
    refine List.forall_mem_map.mpr fun e he => hshape e ?_ (hbefore e he)
    rw [hold]
    exact List.mem_append_left _ he

theorem keyed_keep (hb : b.Keyed) (hkey : rule.HasKey b.symbols key) :
    (b.keep key rule).Keyed := by
  intro e he
  rw [symbols_keep]
  cases hseen : b.seen[key]? with
  | none =>
    rw [(keep_of_new hseen rule).2] at he
    rcases List.mem_append.mp he with hmem | hlast
    · exact hb e hmem
    · rw [List.mem_singleton.mp hlast]
      exact hkey
  | some i =>
    obtain ⟨before, r, after, hold, -, hkept⟩ := keep_of_known hseen rule
    rw [hkept] at he
    rcases List.mem_append.mp he with hmem | hmem
    · exact hb e (by rw [hold]; exact List.mem_append_left _ hmem)
    · rcases List.mem_cons.mp hmem with rfl | hmem
      · exact hkey
      · exact hb e (by rw [hold]; exact List.mem_append_right _ (List.mem_cons_of_mem _ hmem))

/-! ## The pass -/

/-- The builder after reading rules. -/
structure Reads (read : List Rule) (b : Builder) : Prop where
  symbols_eq : b.symbols = SymbolTable.ofNames (read.flatMap Rule.names)
  rules_eq : b.rules = Rule.lastDefinitions read
  keyed : b.Keyed

theorem reads_empty : Reads [] empty :=
  ⟨rfl, rfl, List.forall_mem_nil _⟩

/-- A rule with an offence ends the pass. -/
theorem add_of_offence {weighted : Bool} {e : GrammarError} (h : rule.offence? weighted = some e)
    (b : Builder) : b.add weighted rule = .error e := by
  rw [Rule.offence?] at h
  rw [add]
  split at h
  · rename_i e' he
    rw [he, ← Option.some.inj h]
    rfl
  · rename_i hprob
    split at h
    · exact absurd h (by simp)
    · rename_i hform
      rw [hprob, RuleKey.ofRule_eq_error (Bool.eq_false_iff.mpr hform), ← Option.some.inj h]
      rfl

/-- **Reading one rule.** -/
theorem Reads.add (hb : Reads read b) {weighted : Bool} (h : rule.offence? weighted = none) :
    ∃ b', b.add weighted rule = .ok b' ∧ Reads (read ++ [rule]) b' := by
  obtain ⟨hprob, hform⟩ : rule.checkProb weighted = .ok () ∧ rule.isWellFormed = true := by
    rw [Rule.offence?] at h
    split at h
    · exact absurd h (by simp)
    · rename_i hprob
      exact ⟨hprob, by simpa using h⟩
  obtain ⟨key, hofRule, hkey⟩ := RuleKey.ofRule_eq_ok hform b.symbols
  -- the symbols that there are stay, and so do the keys
  let named : Builder := { b with symbols := rule.names.foldl .insert b.symbols }
  have hkeyed : named.Keyed := fun e he =>
    (hb.keyed e he).mono fun _ _ hx => SymbolTable.find?_foldl_of_find? rule.names hx
  refine ⟨named.keep key rule, ?_, ?_, ?_, keyed_keep hkeyed hkey⟩
  · rw [Builder.add, hprob, hofRule]
    rfl
  · rw [symbols_keep, List.flatMap_append, SymbolTable.ofNames_append, ← hb.symbols_eq]
    simp [named]
  · have hrules : named.rules = Rule.lastDefinitions read := hb.rules_eq
    rw [rules_keep hkeyed hkey, hrules, Rule.lastDefinitions_append]
    rfl

/-- **Reading a list** ends with the first offence in it, or with its last rule. -/
theorem Reads.foldlM_add (hb : Reads read b) (weighted : Bool) (more : List Rule) :
    (∃ e, more.findSome? (Rule.offence? weighted) = some e ∧
      more.foldlM (Builder.add weighted) b = .error e) ∨
    more.findSome? (Rule.offence? weighted) = none ∧
      ∃ b', more.foldlM (Builder.add weighted) b = .ok b' ∧ Reads (read ++ more) b' := by
  induction more generalizing read b with
  | nil => exact .inr ⟨rfl, b, rfl, by rwa [List.append_nil]⟩
  | cons r rs ih =>
    cases hr : r.offence? weighted with
    | some e =>
      refine .inl ⟨e, ?_, ?_⟩
      · rw [List.findSome?_cons, hr]
      · rw [List.foldlM_cons, add_of_offence hr]
        rfl
    | none =>
      obtain ⟨b₁, hadd, hb₁⟩ := hb.add hr
      have hfold : (r :: rs).foldlM (Builder.add weighted) b =
          rs.foldlM (Builder.add weighted) b₁ := by
        rw [List.foldlM_cons, hadd]
        rfl
      rw [hfold, List.findSome?_cons, hr, List.append_cons]
      exact ih hb₁

end Builder

/-! ## The indexes -/

namespace Indexes

/-- What a kept rule adds to the index of words. -/
def wordEntry? : RuleKey × Rule → Option (String × WeightedParent)
  | (.lexical parent word, r) => some (word, parent, Rule.weightOf r.prob)
  | (.binary .., _) => none

/-- What a kept rule adds to the index of pairs. -/
def pairEntry? : RuleKey × Rule → Option ((Symbol × Symbol) × WeightedParent)
  | (.lexical .., _) => none
  | (.binary parent left right, r) => some ((left, right), parent, Rule.weightOf r.prob)

theorem foldl_add (entries : List (RuleKey × Rule)) (indexes : Indexes) :
    entries.foldl add indexes =
      ⟨(entries.filterMap wordEntry?).foldl (fun index e => addToIndex index e.1 e.2) indexes.words,
        (entries.filterMap pairEntry?).foldl (fun index e => addToIndex index e.1 e.2)
          indexes.pairs⟩ := by
  induction entries generalizing indexes with
  | nil => rfl
  | cons e entries ih =>
    obtain ⟨key, r⟩ := e
    rw [List.foldl_cons, ih]
    cases key <;> rfl

variable {t : SymbolTable} {e : RuleKey × Rule}

theorem wordEntry?_eq (h : e.2.HasKey t e.1) :
    wordEntry? e = (e.2.lexical? t).map fun r => (r.word, r.parent, Rule.weightOf r.prob) := by
  obtain ⟨key, r⟩ := e
  cases h with
  | @lexical x w p a hx =>
    have hrule : Rule.lexical? t ⟨x, [.word w], p⟩ = some ⟨a, w, p⟩ :=
      Rule.lexical?_eq_some_iff.mpr ⟨rfl, hx⟩
    dsimp only
    rw [hrule]
    rfl
  | binary => rfl

theorem pairEntry?_eq (h : e.2.HasKey t e.1) :
    pairEntry? e =
      (e.2.binary? t).map fun r => ((r.left, r.right), r.parent, Rule.weightOf r.prob) := by
  obtain ⟨key, r⟩ := e
  cases h with
  | lexical => rfl
  | @binary x y z p a b c hx hy hz =>
    have hrule : Rule.binary? t ⟨x, [.nonterminal y, .nonterminal z], p⟩ = some ⟨a, b, c, p⟩ :=
      Rule.binary?_eq_some_iff.mpr ⟨y, z, rfl, hx, hy, hz⟩
    dsimp only
    rw [hrule]
    rfl

/-- Entries that come from the rules alone. -/
theorem filterMap_eq {β γ : Type} {kept : List (RuleKey × Rule)} {f : RuleKey × Rule → Option γ}
    {f' : Rule → Option β} {g : β → γ} (h : ∀ e ∈ kept, f e = (f' e.2).map g) :
    kept.filterMap f = ((kept.map Prod.snd).filterMap f').map g := by
  rw [List.filterMap_map, List.map_filterMap]
  exact List.filterMap_congr h

end Indexes

/-! ## Pass and stages -/

/-- The indexes of the kept rules are those of the rules alone. -/
theorem Builder.Keyed.ofKept_eq {b : Builder} (hb : b.Keyed) :
    Indexes.ofKept b.kept =
      ⟨groupByKey compare <| (b.rules.filterMap (Rule.lexical? b.symbols)).map fun r =>
          (r.word, r.parent, Rule.weightOf r.prob),
        groupByKey Symbol.comparePairs <| (b.rules.filterMap (Rule.binary? b.symbols)).map fun r =>
          ((r.left, r.right), r.parent, Rule.weightOf r.prob)⟩ := by
  have hwords := Indexes.filterMap_eq fun e he => Indexes.wordEntry?_eq (hb e he)
  have hpairs := Indexes.filterMap_eq fun e he => Indexes.pairEntry?_eq (hb e he)
  rw [Indexes.ofKept, ← Array.foldl_toList, Indexes.foldl_add, hwords, hpairs]
  rfl

namespace Grammar

theorem ofBuilder_eq_assemble {first : Rule} {rest : List Rule} {b : Builder}
    (hb : Builder.Reads (first :: rest) b) (h : 0 < b.symbols.size) :
    ofBuilder ((first :: rest).any fun r => r.prob.isSome) b h = assemble first rest := by
  obtain ⟨hsymbols, hrules, hkeyed⟩ := hb
  have hkept : b.kept.toList.map Prod.snd = Rule.lastDefinitions (first :: rest) := hrules
  simp only [ofBuilder, hkeyed.ofKept_eq, assemble, hsymbols, hrules, hkept]

/-- **The pass and the stages give the same.** -/
theorem ofRules_cons (first : Rule) (rest : List Rule) :
    ofRules (first :: rest) =
      match (first :: rest).findSome?
        (Rule.offence? ((first :: rest).any fun r => r.prob.isSome)) with
      | some e => .error e
      | none => .ok (assemble first rest) := by
  rw [ofRules]
  rcases Builder.reads_empty.foldlM_add ((first :: rest).any fun r => r.prob.isSome)
    (first :: rest) with ⟨e, hoffence, hfold⟩ | ⟨hnone, b, hfold, hb⟩
  · rw [hoffence]
    split
    · rename_i e' he
      obtain rfl := Except.error.inj (he.symm.trans hfold)
      rfl
    · rename_i hok
      exact absurd (hok.symm.trans hfold) (by simp)
  · rw [hnone]
    split
    · rename_i e he
      exact absurd (he.symm.trans hfold) (by simp)
    · rename_i b' hok
      obtain rfl := Except.ok.inj (hok.symm.trans hfold)
      exact congrArg Except.ok (ofBuilder_eq_assemble hb _)

/-- A list of rules without an offence. -/
theorem ofRules_of_offence?_eq_none {first : Rule} {rest : List Rule}
    (h : (first :: rest).findSome?
      (Rule.offence? ((first :: rest).any fun r => r.prob.isSome)) = none) :
    ofRules (first :: rest) = .ok (assemble first rest) := by
  rw [ofRules_cons, h]

end Grammar

end ChartParsing
