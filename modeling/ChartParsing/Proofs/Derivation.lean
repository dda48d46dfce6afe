import ChartParsing.Proofs.Grammar.Built
import ChartParsing.Tree.Basic

/-!
# Derivations

What a grammar derives is said here on the names of its rules, without symbols, indexes or charts.

* `Span.slice`: the words of a span.
* `Grammar.Derives`: a non-terminal derives a list of words.
* `Grammar.IsDerivation`: every branch of a tree is a rule of the grammar, and the spans fit.
* `Grammar.value?`: the score of a derivation tree, from the leaves upwards.
-/

namespace ChartParsing

/-! ## The words of a span -/

/-- The words of a span of a sentence. -/
def Span.slice (s : Span) (words : List String) : List String :=
  (words.drop s.start).take s.length

namespace Span

variable {words : List String}

theorem slice_word {i : Nat} (h : i < words.length) : slice ⟨i, i + 1⟩ words = [words[i]] := by
  show (words.drop i).take (i + 1 - i) = _
  rw [Nat.add_sub_cancel_left, List.drop_eq_getElem_cons h]
  rfl

theorem length_slice {i j : Nat} (hj : j ≤ words.length) : (slice ⟨i, j⟩ words).length = j - i := by
  show ((words.drop i).take (j - i)).length = _
  rw [List.length_take, List.length_drop]
  omega

/-- A span is cut into two at any position inside it. -/
theorem slice_append {i k j : Nat} (hik : i ≤ k) (hkj : k ≤ j) :
    slice ⟨i, k⟩ words ++ slice ⟨k, j⟩ words = slice ⟨i, j⟩ words := by
  have hlen : j - i = (k - i) + (j - k) := by omega
  have hpos : i + (k - i) = k := by omega
  rw [slice, slice, slice, length, length, length]
  dsimp only
  rw [hlen, List.take_add, List.drop_drop, hpos]

/-- Two lists that make up a span are the two parts of it. -/
theorem slice_of_append_eq {u v : List String} {i k j : Nat} (hik : i ≤ k) (hkj : k ≤ j)
    (hj : j ≤ words.length) (hu : u.length = k - i) (h : u ++ v = slice ⟨i, j⟩ words) :
    u = slice ⟨i, k⟩ words ∧ v = slice ⟨k, j⟩ words := by
  rw [← slice_append hik hkj] at h
  exact List.append_inj h (by rw [hu, length_slice (by omega)])

theorem slice_full : slice ⟨0, words.length⟩ words = words := by
  rw [slice, length, List.drop_zero]
  exact List.take_length

end Span

/-! ## What a grammar derives -/

namespace Grammar

/-- The non-terminal of this name derives the words: one word by a lexical rule, more words by a
binary rule whose two non-terminals derive the two parts of the words. -/
inductive Derives (g : Grammar) : String → List String → Prop
  | word {x w : String} {p : Option Probability} : Rule.lexical x w p ∈ g.rules → Derives g x [w]
  | split {x y z : String} {p : Option Probability} {u v : List String} :
      Rule.binary x y z p ∈ g.rules → u ≠ [] → v ≠ [] → Derives g y u → Derives g z v →
        Derives g x (u ++ v)

/-! ## Derivation trees -/

/-- Every branch of the tree is a rule: it has one leaf, on the same span of one word, or two
branches, whose spans are the parts of its own. -/
inductive IsDerivation (g : Grammar) : Tree → Prop
  | lexical {x w : String} {p : Option Probability} {i : Nat} :
      Rule.lexical x w p ∈ g.rules → IsDerivation g (.branch x ⟨i, i + 1⟩ [.leaf w ⟨i, i + 1⟩])
  | binary {x : String} {p : Option Probability} {l r : Tree} {i k j : Nat} :
      Rule.binary x l.label r.label p ∈ g.rules → i < k → k < j →
        l.span = ⟨i, k⟩ → r.span = ⟨k, j⟩ → IsDerivation g l → IsDerivation g r →
          IsDerivation g (.branch x ⟨i, j⟩ [l, r])

/-- The weight of the rule with this parent and right-hand side. -/
def weight? (g : Grammar) (parent : String) (items : List Item) : Option Float :=
  (g.rules.find? fun r => r.parent = parent && r.items = items).map fun r => Rule.weightOf r.prob

/-- The score of a derivation tree: at a leaf the weight of the rule, else the weight times the
score of the left part, and this times the score of the right part. -/
def value? (g : Grammar) : Tree → Option Float
  | .branch x _ [.leaf w _] => g.weight? x [.word w]
  | .branch x _ [l, r] => do
    let w ← g.weight? x [.nonterminal l.label, .nonterminal r.label]
    let a ← g.value? l
    let b ← g.value? r
    return w * a * b
  | _ => none

variable {g : Grammar}

theorem value?_word {x w : String} {s u : Span} {a : Float}
    (h : g.weight? x [.word w] = some a) : g.value? (.branch x s [.leaf w u]) = some a := by
  rw [value?, h]

theorem value?_split {x : String} {s : Span} {l r : Tree} {w a b : Float}
    (hw : g.weight? x [.nonterminal l.label, .nonterminal r.label] = some w)
    (hl : g.value? l = some a) (hr : g.value? r = some b) :
    g.value? (.branch x s [l, r]) = some (w * a * b) := by
  rw [value?, hw, hl, hr]
  rfl

theorem find?_eq_some_of_distinct {r : Rule} :
    ∀ {rules : List Rule}, Rule.Distinct rules → r ∈ rules →
      rules.find? (fun q => q.sameShape r) = some r := by
  intro rules
  induction rules with
  | nil => intro _ h; exact absurd h List.not_mem_nil
  | cons q qs ih =>
    intro hdistinct hr
    obtain ⟨hq, hqs⟩ := List.pairwise_cons.mp hdistinct
    rcases List.mem_cons.mp hr with rfl | hmem
    · exact List.find?_cons_of_pos (Rule.sameShape_iff.mpr ⟨rfl, rfl⟩)
    · rw [List.find?_cons_of_neg (by rw [hq r hmem]; decide), ih hqs hmem]

/-- A rule of the grammar is the only one of its shape, so its weight is found. -/
theorem Consistent.weight?_eq (h : g.Consistent) {r : Rule} (hr : r ∈ g.rules) :
    g.weight? r.parent r.items = some (Rule.weightOf r.prob) := by
  have hfind : g.rules.find? (fun q => q.parent = r.parent && q.items = r.items) = some r :=
    find?_eq_some_of_distinct h.distinct hr
  rw [weight?, hfind]
  rfl

end Grammar

namespace Tree

mutual

/-- The leaves of a tree with their spans, from left to right. -/
def leaves : Tree → List (String × Span)
  | leaf w s => [(w, s)]
  | branch _ _ cs => leavesOfAll cs

/-- The leaves of a list of trees with their spans, from left to right. -/
def leavesOfAll : List Tree → List (String × Span)
  | [] => []
  | t :: ts => leaves t ++ leavesOfAll ts

end

@[simp] theorem words_pair (x : String) (s : Span) (l r : Tree) :
    (branch x s [l, r]).words = l.words ++ r.words := by
  simp [words, wordsOfAll]

@[simp] theorem leaves_pair (x : String) (s : Span) (l r : Tree) :
    (branch x s [l, r]).leaves = l.leaves ++ r.leaves := by
  simp [leaves, leavesOfAll]

@[simp] theorem words_single (x w : String) (s u : Span) :
    (branch x s [leaf w u]).words = [w] :=
  rfl

end Tree

/-- The words of a span, each with its own span. -/
def Span.leaves (s : Span) (words : List String) : List (String × Span) :=
  ((s.slice words).zipIdx s.start).map fun w => (w.1, ⟨w.2, w.2 + 1⟩)

theorem Span.leaves_append {words : List String} {i k j : Nat} (hik : i ≤ k) (hkj : k ≤ j)
    (hj : j ≤ words.length) :
    leaves ⟨i, k⟩ words ++ leaves ⟨k, j⟩ words = leaves ⟨i, j⟩ words := by
  have hstart : i + (slice ⟨i, k⟩ words).length = k := by
    rw [length_slice (by omega)]
    omega
  rw [leaves, leaves, leaves, ← slice_append hik hkj, List.zipIdx_append, List.map_append]
  dsimp only
  rw [hstart]

/-- A derivation tree has as many words as its span says, at least one. -/
theorem Grammar.IsDerivation.length_words {g : Grammar} {t : Tree} (h : g.IsDerivation t) :
    t.span.start < t.span.stop ∧ t.words.length = t.span.stop - t.span.start := by
  induction h with
  | lexical _ => exact ⟨Nat.lt_succ_self _, by simp [Tree.span]⟩
  | binary _ hik hkj hl hr _ _ ihl ihr =>
    rw [hl] at ihl
    rw [hr] at ihr
    rw [Tree.words_pair, List.length_append, ihl.2, ihr.2]
    simp only [Tree.span] at *
    omega

end ChartParsing
