import ChartParsing.Proofs.Comparison.Scores
import ChartParsing.Proofs.Names
import ChartParsing.Proofs.Viterbi.Ties

/-!
# The order of the rules

The order of the rules decides how the names are numbered, so in which order the symbols of a cell
come and the candidates of a span are tried.  Nothing that is said about names depends on it.  Two
grammars with the same rules derive the same, and each is below the other, so they have the same
scores.  Only of several best ways to derive a span another one may be kept.

* `exists_offered_of_sameRules`: the way in which an entry begins is a best way in the other
  grammar.
* `results_of_sameRules`: what the two charts say.
-/

namespace ChartParsing

/-- The two ways to begin a derivation are the same, when symbols are read as names. -/
inductive Backpointer.Renamed (g h : Grammar) : Backpointer → Backpointer → Prop
  | lexical : Renamed g h .lexical .lexical
  | binary {k : Nat} {y z : String} {b b' c c' : Symbol} :
      g.symbol? y = some b → g.symbol? z = some c → h.symbol? y = some b' →
        h.symbol? z = some c' → Renamed g h (.binary k b c) (.binary k b' c')

namespace Grammar

variable {g h : Grammar} {words : List String}

/-! ## Grammars with the same rules -/

/-- The two grammars have the same rules. -/
def SameRules (g h : Grammar) : Prop :=
  ∀ r, r ∈ g.rules ↔ r ∈ h.rules

theorem SameRules.symm (hrules : g.SameRules h) : h.SameRules g :=
  fun r => (hrules r).symm

theorem SameRules.below (hrules : g.SameRules h) (hg : g.Consistent) : g.Below h := by
  intro r hr
  have hbits := (hg.inUnit_weightOf hr).lt_infinityBits
  exact ⟨r.prob, (hrules r).mp hr, (Binary64.le_iff hbits hbits).mpr (Nat.le_refl _)⟩

theorem SameRules.derives_iff (hrules : g.SameRules h) (hg : g.Consistent) (hh : h.Consistent)
    {x : String} {ws : List String} : g.Derives x ws ↔ h.Derives x ws :=
  ⟨fun hd => hd.of_below (hrules.below hg), fun hd => hd.of_below (hrules.symm.below hh)⟩

theorem SameRules.known_iff (hrules : g.SameRules h) (hg : g.Built) (hh : h.Built) {x : String} :
    (∃ s, g.symbol? x = some s) ↔ ∃ s, h.symbol? x = some s := by
  rw [hg.known_iff, hh.known_iff]
  exact exists_congr fun r => and_congr_left fun _ => hrules r

/-- **The way in which an entry begins** is a way to derive the span in the other grammar, with the
same score. -/
theorem exists_offered_of_sameRules (hrules : g.SameRules h) (hg : g.Consistent)
    (hh : h.Consistent) {i j : Nat} (hj : j ≤ words.length) {x : String} {s s' : Symbol}
    {e : Entry} (hx : g.symbol? x = some s) (hx' : h.symbol? x = some s')
    (he : g.Offered words ⟨i, j⟩ s e) :
    ∃ b', e.back.Renamed g h b' ∧ h.Offered words ⟨i, j⟩ s' ⟨e.score, b'⟩ := by
  cases he with
  | word hi hrule hs =>
    obtain rfl := symbol?_injective hx hs
    exact ⟨_, .lexical, .word hi ((hrules _).mp hrule) hx'⟩
  | @split _ k _ x' y z p _ b c l r hik hkj hrule hs hy hz hl hr =>
    obtain rfl := symbol?_injective hx hs
    have hgh := hrules.below hg
    have hhg := hrules.symm.below hh
    have hrule' := (hrules _).mp hrule
    obtain ⟨b', hy'⟩ := hh.known _ hrule' y (by simp [Rule.binary, Rule.names])
    obtain ⟨c', hz'⟩ := hh.known _ hrule' z (by simp [Rule.binary, Rule.names])
    -- the parts have the same scores in the other grammar
    have hleft := score_eq_of_below words hgh hhg hg hh hik (by omega) hy hy'
    have hright := score_eq_of_below words hgh hhg hg hh hkj hj hz hz'
    rw [hl] at hleft
    rw [hr] at hright
    obtain ⟨l', hl', hlscore⟩ := Option.map_eq_some_iff.mp hleft.symm
    obtain ⟨r', hr', hrscore⟩ := Option.map_eq_some_iff.mp hright.symm
    refine ⟨.binary k b' c', .binary hy hz hy' hz', ?_⟩
    rw [← hlscore, ← hrscore]
    exact .split hik hkj hrule' hx' hy' hz' hl' hr'

/-! ## Charts -/

/-- **Results do not depend on the order of the rules.**  Let two grammars have the same rules and
start symbols of the same name.  Then they have the same names; for every sentence whose chart has a
size, both accept it or neither does, every span has the same names, and every name has the same
score.  The way in which an entry begins is that of the other grammar, or it has the same score as
that one. -/
theorem results_of_sameRules (hg : g.Built) (hh : h.Built) (hrules : g.SameRules h)
    (hstart : g.startName = h.startName) (hn : Table.Fits words.length) :
    (∀ x, (∃ s, g.symbol? x = some s) ↔ ∃ s, h.symbol? x = some s) ∧
    (∃ b, g.accepts words = .ok b ∧ h.accepts words = .ok b) ∧
    ∃ r r' v v', g.recognize words = .ok r ∧ h.recognize words = .ok r' ∧
      g.bestParse words = .ok v ∧ h.bestParse words = .ok v' ∧
      ∀ i j, i < j → j ≤ words.length →
        (∃ names, r.namesAt ⟨i, j⟩ = .ok names ∧ r'.namesAt ⟨i, j⟩ = .ok names) ∧
        ∀ x s s', g.symbol? x = some s → h.symbol? x = some s' →
          (∃ m, v.score ⟨i, j⟩ s = .ok m ∧ v'.score ⟨i, j⟩ s' = .ok m) ∧
          ∀ b, v.backpointer ⟨i, j⟩ s = .ok (some b) → ∃ b', b.Renamed g h b' ∧
            (v'.backpointer ⟨i, j⟩ s' = .ok (some b') ∨
              ∃ m, v'.score ⟨i, j⟩ s' = .ok (some m) ∧ v'.Offers ⟨i, j⟩ s' b' m) := by
  have hgcons := hg.consistent
  have hhcons := hh.consistent
  have hderives : ∀ {x ws}, g.Derives x ws ↔ h.Derives x ws := hrules.derives_iff hgcons hhcons
  refine ⟨fun x => hrules.known_iff hg hh, ?_, ?_⟩
  · obtain ⟨b, hb, hiff⟩ := accepts_eq_ok hgcons hn
    obtain ⟨b', hb', hiff'⟩ := accepts_eq_ok hhcons hn
    obtain rfl : b = b' := by
      rw [Bool.eq_iff_iff, hiff, hiff', hderives, hstart]
    exact ⟨b, hb, hb'⟩
  · obtain ⟨r, hr, hlists⟩ := recognize_namesAt hgcons hn
    obtain ⟨r', hr', hlists'⟩ := recognize_namesAt hhcons hn
    obtain ⟨v, hv, hchart⟩ := bestParse_eq_ok g hn
    obtain ⟨v', hv', hchart'⟩ := bestParse_eq_ok h hn
    refine ⟨r, r', v, v', hr, hr', hv, hv', ?_⟩
    intro i j hij hj
    have hspan : Span.Within ⟨i, j⟩ words.length := ⟨hij, hj⟩
    refine ⟨?_, ?_⟩
    · obtain ⟨names, hnames, hare⟩ := hlists i j hij hj
      obtain ⟨names', hnames', hare'⟩ := hlists' i j hij hj
      simp only [hderives] at hare
      exact ⟨names, hnames, hare.unique hare' ▸ hnames'⟩
    · intro x s s' hx hx'
      have hscores := score_eq_of_below words (hrules.below hgcons) (hrules.symm.below hhcons)
        hgcons hhcons hij hj hx hx'
      refine ⟨⟨_, hchart.score_eq hspan s, ?_⟩, ?_⟩
      · rw [hchart'.score_eq hspan, hscores]
      · intro b hb
        obtain ⟨e, he, rfl⟩ := (hchart.backpointer_eq_some_iff hspan).mp hb
        rw [he] at hscores
        obtain ⟨e', he', hscore⟩ := Option.map_eq_some_iff.mp hscores.symm
        obtain ⟨b', hrenamed, ho⟩ := exists_offered_of_sameRules hrules hgcons hhcons hj hx hx'
          (offered_of_find? hgcons hij hj he)
        refine ⟨b', hrenamed, ?_⟩
        rcases Nat.lt_or_ge (i + 1) j with hlong | hshort
        · refine .inr ⟨e'.score, (hchart'.score_eq_some_iff hspan).mpr ⟨e', he', rfl⟩, ?_⟩
          rw [hscore]
          exact (hchart'.offers_iff hlong hj).mpr ho
        · -- one word: there is only one way
          obtain rfl : j = i + 1 := by omega
          have hback := (offered_of_find? hhcons hij hj he').back_of_word
          have hlexical : b' = .lexical := ho.back_of_word
          exact .inl
            ((hchart'.backpointer_eq_some_iff hspan).mpr ⟨e', he', by rw [hback, hlexical]⟩)

/-- The rules `S -> A B`, `A -> a` and `B -> b` in this order. -/
def pairing : Grammar :=
  assemble (Rule.binary "S" "A" "B" (some half))
    [Rule.lexical "A" "a" (some half), Rule.lexical "B" "b" (some half)]

/-- The same rules in the opposite order. -/
def reversed : Grammar :=
  assemble (Rule.lexical "B" "b" (some half))
    [Rule.lexical "A" "a" (some half), Rule.binary "S" "A" "B" (some half)]

/-- The same rules in the opposite order, with the same start symbol. -/
def reordered : Grammar :=
  { reversed with
    start := ⟨2⟩
    start_known := by decide }

theorem built_pairing : pairing.Built :=
  .ofRules (ofRules_of_offence?_eq_none rfl : ofRules pairing.rules = .ok pairing)

theorem built_reordered : reordered.Built := by
  have hrules : ofRules reversed.rules = .ok reversed := ofRules_of_offence?_eq_none rfl
  have hfind : reversed.symbols.find? "S" = some ⟨2⟩ := by decide
  have hstart : reversed.withStart "S" = .ok reordered :=
    withStart_eq_ok_iff.mpr ⟨⟨2⟩, hfind, rfl⟩
  exact .withStart (.ofRules hrules) hstart

/-- The name `S` has different numbers in the two grammars, and the same score over `a b`. -/
theorem results_of_reordered : pairing.Built ∧ reordered.Built ∧ pairing.SameRules reordered ∧
    pairing.startName = reordered.startName ∧ Table.Fits 2 ∧
    reordered.accepts ["a", "b"] = .ok true ∧
    ∃ v v' m, pairing.bestParse ["a", "b"] = .ok v ∧ reordered.bestParse ["a", "b"] = .ok v' ∧
      v.score ⟨0, 2⟩ ⟨0⟩ = .ok m ∧ v'.score ⟨0, 2⟩ ⟨2⟩ = .ok m := by
  have hfits : Table.Fits ["a", "b"].length := by decide
  have hrules : pairing.SameRules reordered := fun _ => List.mem_reverse.symm
  have hstart : pairing.startName = reordered.startName := by decide
  obtain ⟨-, ⟨b, hb, hb'⟩, _, _, v, v', -, -, hv, hv', hspans⟩ :=
    results_of_sameRules built_pairing built_reordered hrules hstart hfits
  have haccepts : pairing.accepts ["a", "b"] = .ok true :=
    toOption_eq_some_iff.mp (by decide +kernel)
  obtain rfl : b = true := Except.ok.inj (hb.symm.trans haccepts)
  obtain ⟨⟨m, hm, hm'⟩, -⟩ :=
    (hspans 0 2 (by decide) (by decide)).2 "S" ⟨0⟩ ⟨2⟩ (by decide) (by decide)
  exact ⟨built_pairing, built_reordered, hrules, hstart, hfits, hb', v, v', m, hv, hv', hm, hm'⟩

end Grammar

end ChartParsing
