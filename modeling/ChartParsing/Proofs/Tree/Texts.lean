import ChartParsing.Tree.Basic

/-!
# The texts of a tree

The texts of a tree are its labels and its words.  What the printers give can be read off as long as
no text has a character that the printers use themselves.

* `Tree.induction`: induction on trees, with a hypothesis for each child.
* `Tree.texts`: the labels and words of a tree.
-/

namespace ChartParsing.Tree

/-- Induction on trees of any shape. -/
@[elab_as_elim, induction_eliminator]
theorem induction {P : Tree → Prop} (leaf : ∀ w s, P (.leaf w s))
    (branch : ∀ l s cs, (∀ c ∈ cs, P c) → P (.branch l s cs)) (t : Tree) : P t :=
  @Tree.rec P (fun cs => ∀ c ∈ cs, P c) leaf branch (List.forall_mem_nil P)
    (fun _ _ hc hcs => List.forall_mem_cons.mpr ⟨hc, hcs⟩) t

mutual

/-- The labels and the words of a tree. -/
def texts : Tree → List String
  | leaf w _ => [w]
  | branch l _ cs => l :: textsOfAll cs

/-- The labels and the words of a list of trees. -/
def textsOfAll : List Tree → List String
  | [] => []
  | t :: ts => texts t ++ textsOfAll ts

end

theorem textsOfAll_eq_flatMap (ts : List Tree) : textsOfAll ts = ts.flatMap texts := by
  induction ts with
  | nil => rfl
  | cons t ts ih => rw [textsOfAll, ih, List.flatMap_cons]

variable {p : String → Prop} {s : Span}

theorem forall_mem_texts_leaf {w : String} : (∀ x ∈ (leaf w s).texts, p x) ↔ p w := by
  rw [texts, List.forall_mem_singleton]

theorem forall_mem_texts_branch {l : String} {cs : List Tree} :
    (∀ x ∈ (branch l s cs).texts, p x) ↔ p l ∧ ∀ c ∈ cs, ∀ x ∈ c.texts, p x := by
  rw [texts, textsOfAll_eq_flatMap, List.forall_mem_cons, List.forall_mem_flatMap]

end ChartParsing.Tree
