import ChartParsing.Fault

/-!
# Derivation trees

The leaves of a tree are words, its branches are non-terminals. Each node has the span of the
sentence it stands for. A tree may have any shape; those that a chart gives have one leaf or two
branches below each branch.
-/

namespace ChartParsing

/-- A tree over a sentence. -/
inductive Tree where
  /-- A word. -/
  | leaf (word : String) (span : Span)
  /-- A non-terminal over its children. -/
  | branch (label : String) (span : Span) (children : List Tree)
deriving Repr

namespace Tree

mutual

/-- Equality of trees is decided node by node. -/
def decEq : (a b : Tree) → Decidable (a = b)
  | leaf w s, leaf v t =>
    if h : w = v ∧ s = t then isTrue (by rw [h.1, h.2])
    else isFalse fun e => h ⟨by injection e, by injection e⟩
  | leaf .., branch .. => isFalse fun e => by injection e
  | branch .., leaf .. => isFalse fun e => by injection e
  | branch l s cs, branch m t ds =>
    if h : l = m ∧ s = t then
      match decEqAll cs ds with
      | isTrue hc => isTrue (by rw [h.1, h.2, hc])
      | isFalse hc => isFalse fun e => hc (by injection e)
    else isFalse fun e => h ⟨by injection e, by injection e⟩

/-- Equality of lists of trees is decided tree by tree. -/
def decEqAll : (as bs : List Tree) → Decidable (as = bs)
  | [], [] => isTrue rfl
  | [], _ :: _ => isFalse fun e => by injection e
  | _ :: _, [] => isFalse fun e => by injection e
  | a :: as, b :: bs =>
    match decEq a b, decEqAll as bs with
    | isTrue h, isTrue hs => isTrue (by rw [h, hs])
    | isFalse h, _ => isFalse fun e => h (by injection e)
    | _, isFalse hs => isFalse fun e => hs (by injection e)

end

instance : DecidableEq Tree := decEq

/-- The part of the sentence that a tree stands for. -/
def span : Tree → Span
  | leaf _ s => s
  | branch _ s _ => s

/-- The word or the label at the root. -/
def label : Tree → String
  | leaf w _ => w
  | branch l _ _ => l

/-- Whether the tree is a single word. -/
def isLeaf : Tree → Bool
  | leaf .. => true
  | branch .. => false

/-- The trees right below the root. -/
def children : Tree → List Tree
  | leaf .. => []
  | branch _ _ cs => cs

mutual

/-- The words of a tree, from left to right. -/
def words : Tree → List String
  | leaf w _ => [w]
  | branch _ _ cs => wordsOfAll cs

/-- The words of a list of trees, from left to right. -/
def wordsOfAll : List Tree → List String
  | [] => []
  | t :: ts => words t ++ wordsOfAll ts

end

end Tree

end ChartParsing
