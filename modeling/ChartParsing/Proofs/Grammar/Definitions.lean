import ChartParsing.Grammar.Basic
import ChartParsing.Proofs.Appearance

/-!
# Redefined rules and the numbering of names

Of the rules with one parent and right-hand side the last definition is kept, in the place of the
first.  So the kept rules are `Distinct` by their shapes, and a distinct list is kept as it is.  A
redefinition brings no new name, so the kept rules number the names as all rules do.

* `Rule.lastDefinitions`: the rules that are kept.  `distinct_lastDefinitions`,
  `lastDefinitions_of_distinct`, `mem_of_mem_lastDefinitions`.
* `SymbolTable.firstSeen_ofNames`: the names of a list are numbered as they first appear.
* `SymbolTable.exists_find?_ofNames`: every name of the list has a symbol.
* `ofNames_lastDefinitions`: the kept rules give the same symbol table.
-/

namespace ChartParsing

namespace Rule

/-- Whether two rules replace the same parent by the same items. -/
def sameShape (r s : Rule) : Bool :=
  r.parent = s.parent && r.items = s.items

/-- The non-terminals of a rule: the parent, then those of the right-hand side. -/
def names (r : Rule) : List String :=
  r.parent :: r.items.filterMap fun
    | .word _ => none
    | .nonterminal name => some name

theorem sameShape_iff {r s : Rule} :
    r.sameShape s = true ↔ r.parent = s.parent ∧ r.items = s.items := by
  rw [sameShape, Bool.and_eq_true, decide_eq_true_eq, decide_eq_true_eq]

theorem names_eq_of_sameShape {r s : Rule} (h : r.sameShape s = true) : r.names = s.names := by
  obtain ⟨hparent, hitems⟩ := sameShape_iff.mp h
  rw [names, names, hparent, hitems]

/-- No two rules have one parent and right-hand side. -/
def Distinct (rules : List Rule) : Prop :=
  rules.Pairwise fun r s => r.sameShape s = false

/-- The rules, with `rule` in the place of the rule of its shape, or last if there is none. -/
def define (rule : Rule) : List Rule → List Rule
  | [] => [rule]
  | r :: rs => if r.sameShape rule then rule :: rs else r :: define rule rs

/-- The last definition of every shape, in the order of the first ones. -/
def lastDefinitions (rules : List Rule) : List Rule :=
  rules.foldl (fun kept rule => define rule kept) []

theorem mem_of_mem_define {rule r : Rule} :
    ∀ {kept : List Rule}, r ∈ define rule kept → r = rule ∨ r ∈ kept := by
  intro kept
  induction kept with
  | nil => intro h; exact .inl (List.mem_singleton.mp h)
  | cons k ks ih =>
    intro h
    rw [define] at h
    split at h
    · rcases List.mem_cons.mp h with heq | hmem
      · exact .inl heq
      · exact .inr (List.mem_cons_of_mem k hmem)
    · rcases List.mem_cons.mp h with heq | hmem
      · exact .inr (heq ▸ List.mem_cons_self)
      · exact (ih hmem).imp id (List.mem_cons_of_mem k)

/-- A rule of a new shape goes to the end. -/
theorem define_of_new {rule : Rule} :
    ∀ {kept : List Rule}, (∀ r ∈ kept, r.sameShape rule = false) →
      define rule kept = kept ++ [rule] := by
  intro kept
  induction kept with
  | nil => intro _; rfl
  | cons k ks ih =>
    intro h
    rw [define, if_neg (by rw [h k List.mem_cons_self]; decide),
      ih fun r hr => h r (List.mem_cons_of_mem k hr)]
    rfl

/-- A rule takes the place of the first one of its shape. -/
theorem define_append_cons {rule r : Rule} (hr : r.sameShape rule = true) (after : List Rule) :
    ∀ {before : List Rule}, (∀ q ∈ before, q.sameShape rule = false) →
      define rule (before ++ r :: after) = before ++ rule :: after := by
  intro before
  induction before with
  | nil => intro _; rw [List.nil_append, define, if_pos hr]; rfl
  | cons k ks ih =>
    intro h
    obtain ⟨hk, hks⟩ := List.forall_mem_cons.mp h
    rw [List.cons_append, define, if_neg (by rw [hk]; decide), ih hks]
    rfl

/-- A rule of a known shape takes the place of the rule it redefines. -/
theorem define_of_known {rule : Rule} {kept : List Rule}
    (h : ∃ r ∈ kept, r.sameShape rule = true) :
    ∃ before r after, kept = before ++ r :: after ∧ r.sameShape rule = true ∧
      define rule kept = before ++ rule :: after := by
  have hfind : (kept.find? fun r => r.sameShape rule).isSome = true := List.find?_isSome.mpr h
  obtain ⟨r, hr⟩ := Option.isSome_iff_exists.mp hfind
  obtain ⟨hshape, before, after, rfl, hbefore⟩ := List.find?_eq_some_iff_append.mp hr
  refine ⟨before, r, after, rfl, hshape, define_append_cons hshape after fun q hq => ?_⟩
  exact (Bool.not_eq_true' _).mp (hbefore q hq)

theorem sameShape_congr_left {r s t : Rule} (h : r.sameShape s = true) :
    r.sameShape t = s.sameShape t := by
  obtain ⟨hparent, hitems⟩ := sameShape_iff.mp h
  rw [sameShape, sameShape, hparent, hitems]

theorem sameShape_comm (r s : Rule) : r.sameShape s = s.sameShape r := by
  rw [Bool.eq_iff_iff, sameShape_iff, sameShape_iff, eq_comm, eq_comm (a := r.items)]

theorem known_or_new (rule : Rule) (kept : List Rule) :
    (∃ r ∈ kept, r.sameShape rule = true) ∨ ∀ r ∈ kept, r.sameShape rule = false := by
  by_cases h : ∃ r ∈ kept, r.sameShape rule = true
  · exact .inl h
  · refine .inr ?_
    intro r hr
    rw [← Bool.not_eq_true]
    intro hs
    exact h ⟨r, hr, hs⟩

theorem distinct_define {rule : Rule} {kept : List Rule} (h : Distinct kept) :
    Distinct (define rule kept) := by
  rcases known_or_new rule kept with hknown | hnew
  · obtain ⟨before, r, after, rfl, hr, hdefine⟩ := define_of_known hknown
    rw [hdefine]
    rw [Distinct, List.pairwise_append, List.pairwise_cons] at h ⊢
    obtain ⟨hbefore, ⟨hfirst, hafter⟩, hcross⟩ := h
    refine ⟨hbefore, ⟨fun s hs => ?_, hafter⟩, fun s hs t ht => ?_⟩
    · rw [← sameShape_congr_left hr]
      exact hfirst s hs
    · rcases List.mem_cons.mp ht with heq | hmem
      · rw [heq, sameShape_comm, ← sameShape_congr_left hr, sameShape_comm]
        exact hcross s hs r List.mem_cons_self
      · exact hcross s hs t (List.mem_cons_of_mem r hmem)
  · rw [define_of_new hnew, Distinct, List.pairwise_append]
    exact ⟨h, List.pairwise_singleton _ _, fun r hr s hs =>
      List.mem_singleton.mp hs ▸ hnew r hr⟩

/-! ## The kept rules -/

/-- What holds of the kept rules after each definition holds of the last definitions. -/
theorem foldl_define_induction {P : List Rule → Prop} (hstep : ∀ rule kept, P kept →
    P (define rule kept)) : ∀ (rules kept : List Rule), P kept →
      P (rules.foldl (fun kept rule => define rule kept) kept) := by
  intro rules
  induction rules with
  | nil => intro kept h; exact h
  | cons r rs ih => intro kept h; exact ih (define r kept) (hstep r kept h)

theorem distinct_lastDefinitions (rules : List Rule) : Distinct (lastDefinitions rules) :=
  foldl_define_induction (fun _ _ => distinct_define) rules [] .nil

theorem mem_of_mem_lastDefinitions {r : Rule} {rules : List Rule} (h : r ∈ lastDefinitions rules) :
    r ∈ rules := by
  have aux : ∀ (rs kept : List Rule), (∀ k ∈ kept, k ∈ rules) → (∀ k ∈ rs, k ∈ rules) →
      ∀ k ∈ rs.foldl (fun kept rule => define rule kept) kept, k ∈ rules := by
    intro rs
    induction rs with
    | nil => intro kept hkept _; exact hkept
    | cons s ss ih =>
      intro kept hkept hrs
      refine ih (define s kept) ?_ fun k hk => hrs k (List.mem_cons_of_mem s hk)
      intro k hk
      rcases mem_of_mem_define hk with heq | hmem
      · exact heq ▸ hrs s List.mem_cons_self
      · exact hkept k hmem
  exact aux rules [] (by simp) (fun _ hk => hk) r h

/-- **A list without redefinitions is kept as it is.** -/
theorem lastDefinitions_of_distinct {rules : List Rule} (h : Distinct rules) :
    lastDefinitions rules = rules := by
  have aux : ∀ rs kept : List Rule, Distinct (kept ++ rs) →
      rs.foldl (fun kept rule => define rule kept) kept = kept ++ rs := by
    intro rs
    induction rs with
    | nil => intro kept _; rw [List.append_nil]; rfl
    | cons s ss ih =>
      intro kept hd
      have hnew : ∀ r ∈ kept, r.sameShape s = false := fun r hr =>
        (List.pairwise_append.mp hd).2.2 r hr s List.mem_cons_self
      have happend : kept ++ s :: ss = kept ++ [s] ++ ss := by simp
      rw [List.foldl_cons, define_of_new hnew, happend]
      exact ih (kept ++ [s]) (happend ▸ hd)
  exact aux rules [] h

theorem lastDefinitions_append (rules more : List Rule) :
    lastDefinitions (rules ++ more) =
      more.foldl (fun kept rule => define rule kept) (lastDefinitions rules) :=
  List.foldl_append

/-- A rule that is kept can be defined again. -/
theorem define_of_mem {k : Rule} {kept : List Rule} (hd : Distinct kept) (hk : k ∈ kept) :
    define k kept = kept := by
  induction kept with
  | nil => exact absurd hk List.not_mem_nil
  | cons r rs ih =>
    obtain ⟨hfirst, hrest⟩ := List.pairwise_cons.mp hd
    rw [define]
    rcases List.mem_cons.mp hk with rfl | hmem
    · rw [if_pos (sameShape_iff.mpr ⟨rfl, rfl⟩)]
    · rw [if_neg (by rw [hfirst k hmem]; decide), ih hrest hmem]

/-- **Rules that are kept can be defined again**, in any order. -/
theorem foldl_define_of_mem {kept : List Rule} (hd : Distinct kept) :
    ∀ more : List Rule, (∀ k ∈ more, k ∈ kept) →
      more.foldl (fun kept rule => define rule kept) kept = kept := by
  intro more
  induction more with
  | nil => intro _; rfl
  | cons r rs ih =>
    intro h
    rw [List.foldl_cons, define_of_mem hd (h r List.mem_cons_self)]
    exact ih fun k hk => h k (List.mem_cons_of_mem r hk)

end Rule

/-! ## The numbering of names -/

namespace SymbolTable

theorem find?_injective {t : SymbolTable} {x y : String} {s : Symbol} (hx : t.find? x = some s)
    (hy : t.find? y = some s) : x = y :=
  Option.some.inj ((find?_eq_some_iff.mp hx).symm.trans (find?_eq_some_iff.mp hy))

theorem insert_of_known {t : SymbolTable} {name : String} {s : Symbol}
    (h : t.find? name = some s) : t.insert name = t := by
  unfold insert
  split
  · rfl
  · rename_i hnone
    rw [find?, hnone] at h
    exact absurd h (by simp)

theorem insert_of_new {t : SymbolTable} {name : String} (h : t.find? name = none) :
    (t.insert name).names = t.names.push name := by
  unfold insert
  split
  · rename_i s hs
    rw [find?, hs] at h
    exact absurd h (by simp)
  · rfl

/-- The symbol of a name is found in the table with the name. -/
theorem find?_insert_self (t : SymbolTable) (name : String) :
    (t.insert name).find? name = some (t.intern name).2 := by
  rw [intern]
  cases hfind : t.find? name with
  | some s => rw [insert_of_known hfind, hfind, Option.getD_some]
  | none =>
    rw [find?_eq_some_iff, name?, insert_of_new hfind]
    exact Array.getElem?_push_size

theorem name?_insert_of_name? {t : SymbolTable} {name other : String} {s : Symbol}
    (h : t.name? s = some other) : (t.insert name).name? s = some other := by
  cases hfind : t.find? name with
  | some _ => rwa [insert_of_known hfind]
  | none =>
    rw [name?, insert_of_new hfind]
    obtain ⟨hlt, -⟩ := Array.getElem?_eq_some_iff.mp h
    rw [Array.getElem?_push, if_neg (Nat.ne_of_lt hlt)]
    exact h

theorem find?_insert_of_find? {t : SymbolTable} {name other : String} {s : Symbol}
    (h : t.find? other = some s) : (t.insert name).find? other = some s :=
  find?_eq_some_iff.mpr (name?_insert_of_name? (find?_eq_some_iff.mp h))

theorem find?_foldl_of_find? {other : String} {s : Symbol} :
    ∀ (names : List String) {t : SymbolTable}, t.find? other = some s →
      (names.foldl insert t).find? other = some s := by
  intro names
  induction names with
  | nil => intro t h; exact h
  | cons n ns ih => intro t h; exact ih (find?_insert_of_find? h)

/-- Names that all have symbols leave a table as it is. -/
theorem foldl_insert_of_known :
    ∀ {names : List String} {t : SymbolTable}, (∀ x ∈ names, ∃ s, t.find? x = some s) →
      names.foldl insert t = t := by
  intro names
  induction names with
  | nil => intro t _; rfl
  | cons n ns ih =>
    intro t h
    obtain ⟨s, hs⟩ := h n List.mem_cons_self
    rw [List.foldl_cons, insert_of_known hs]
    exact ih fun x hx => h x (List.mem_cons_of_mem n hx)

theorem mem_names_iff {t : SymbolTable} {x : String} :
    x ∈ t.names.toList ↔ ∃ s, t.find? x = some s := by
  constructor
  · intro h
    obtain ⟨i, hi⟩ := List.mem_iff_getElem?.mp h
    rw [Array.getElem?_toList] at hi
    exact ⟨⟨i⟩, find?_eq_some_iff.mpr hi⟩
  · rintro ⟨s, hs⟩
    exact Array.mem_toList_iff.mpr (Array.mem_of_getElem? (find?_eq_some_iff.mp hs))

/-- One more name is read: it has a symbol, or it takes the next one. -/
theorem firstSeen_insert {t : SymbolTable} {read : List String}
    (h : FirstSeen read t.names.toList) (name : String) :
    FirstSeen (read ++ [name]) (t.insert name).names.toList := by
  cases hfind : t.find? name with
  | some s =>
    rw [insert_of_known hfind]
    exact h.known ((h.mem_iff name).mp (mem_names_iff.mpr ⟨s, hfind⟩))
  | none =>
    rw [insert_of_new hfind, Array.toList_push]
    refine h.new fun hread => ?_
    obtain ⟨s, hs⟩ := mem_names_iff.mp ((h.mem_iff name).mpr hread)
    exact absurd (hfind.symm.trans hs) (by simp)

theorem firstSeen_foldl_insert :
    ∀ (more : List String) {read : List String} {t : SymbolTable},
      FirstSeen read t.names.toList →
        FirstSeen (read ++ more) (more.foldl insert t).names.toList := by
  intro more
  induction more with
  | nil => intro read t h; rwa [List.append_nil]
  | cons x xs ih =>
    intro read t h
    rw [List.append_cons]
    exact ih (firstSeen_insert h x)

/-- The table of the names in a list, in the order of their first appearance. -/
def ofNames (names : List String) : SymbolTable :=
  names.foldl insert empty

/-- **Names are numbered in the order of their first appearance.** -/
theorem firstSeen_ofNames (names : List String) : FirstSeen names (ofNames names).names.toList :=
  firstSeen_foldl_insert (t := empty) names .nil

/-- **Every name of the list has a symbol.** -/
theorem exists_find?_ofNames {x : String} {names : List String} (h : x ∈ names) :
    ∃ s, (ofNames names).find? x = some s :=
  mem_names_iff.mp (((firstSeen_ofNames names).mem_iff x).mpr h)

/-- A list with a name in it gives a table with a symbol in it. -/
theorem size_pos_ofNames (name : String) (names : List String) :
    0 < (ofNames (name :: names)).size := by
  obtain ⟨s, hs⟩ := exists_find?_ofNames (List.mem_cons_self (a := name) (l := names))
  exact Nat.zero_lt_of_lt (id_lt_size_of_find? hs)

/-- Only the names of the list have symbols. -/
theorem mem_of_name?_ofNames {x : String} {s : Symbol} {names : List String}
    (h : (ofNames names).name? s = some x) : x ∈ names :=
  ((firstSeen_ofNames names).mem_iff x).mp (mem_names_iff.mpr ⟨s, find?_eq_some_iff.mpr h⟩)

theorem ofNames_append (names more : List String) :
    ofNames (names ++ more) = more.foldl insert (ofNames names) :=
  List.foldl_append

end SymbolTable

/-- One more definition numbers the names as the rule at the end of the list does. -/
theorem ofNames_define (rule : Rule) (kept : List Rule) :
    SymbolTable.ofNames ((Rule.define rule kept).flatMap Rule.names) =
      SymbolTable.ofNames ((kept ++ [rule]).flatMap Rule.names) := by
  rcases Rule.known_or_new rule kept with hknown | hnew
  · obtain ⟨before, r, after, rfl, hr, hdefine⟩ := Rule.define_of_known hknown
    have hnames : (before ++ rule :: after).flatMap Rule.names =
        (before ++ r :: after).flatMap Rule.names := by
      simp only [List.flatMap_append, List.flatMap_cons, Rule.names_eq_of_sameShape hr]
    have hlast : (before ++ r :: after ++ [rule]).flatMap Rule.names =
        (before ++ r :: after).flatMap Rule.names ++ rule.names := by simp
    rw [hdefine, hnames, hlast, SymbolTable.ofNames_append]
    refine (SymbolTable.foldl_insert_of_known fun x hx => ?_).symm
    refine SymbolTable.exists_find?_ofNames (List.mem_flatMap.mpr ⟨r, by simp, ?_⟩)
    rw [Rule.names_eq_of_sameShape hr]
    exact hx
  · rw [Rule.define_of_new hnew]

/-- **The kept rules number the names as all rules do.** -/
theorem ofNames_lastDefinitions (rules : List Rule) :
    SymbolTable.ofNames ((Rule.lastDefinitions rules).flatMap Rule.names) =
      SymbolTable.ofNames (rules.flatMap Rule.names) := by
  have aux : ∀ rs kept : List Rule,
      SymbolTable.ofNames ((rs.foldl (fun kept rule => Rule.define rule kept) kept).flatMap
        Rule.names) = SymbolTable.ofNames ((kept ++ rs).flatMap Rule.names) := by
    intro rs
    induction rs with
    | nil => intro kept; rw [List.append_nil]; rfl
    | cons r rs ih =>
      intro kept
      have happend : kept ++ r :: rs = kept ++ [r] ++ rs := by simp
      rw [List.foldl_cons, ih, happend, List.flatMap_append, SymbolTable.ofNames_append,
        ofNames_define, ← SymbolTable.ofNames_append, ← List.flatMap_append]
  exact aux rules []

end ChartParsing
