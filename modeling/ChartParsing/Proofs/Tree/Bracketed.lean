import ChartParsing.Proofs.Scanning
import ChartParsing.Proofs.Tree.Texts
import ChartParsing.Tree.Printer

/-!
# The bracketed form determines the tree

In a bracketed form a text ends at a space or a bracket, and a tree ends where its bracket is closed.
So from where a tree begins one can read off where it ends, and what it is but for its spans.

* `Tree.unspanned`: the tree without its spans.
* `IsAtom`: a text that can be told apart in a bracketed form.
* `readable`: a bracketed form ends in one place, whatever stands after it, and is that of one tree.
* `unspanned_eq_iff_bracketed_eq`: **trees have the same bracketed form just if they are the same up
  to spans**.
-/

namespace ChartParsing

namespace Tree

/-! ## Trees without spans -/

mutual

/-- The tree with every span replaced by the empty one. -/
def unspanned : Tree → Tree
  | leaf w _ => leaf w ⟨0, 0⟩
  | branch l _ cs => branch l ⟨0, 0⟩ (unspannedAll cs)

/-- The trees with every span replaced by the empty one. -/
def unspannedAll : List Tree → List Tree
  | [] => []
  | t :: ts => unspanned t :: unspannedAll ts

end

theorem bracketedAll_unspannedAll {cs : List Tree}
    (h : ∀ c ∈ cs, c.unspanned.bracketed = c.bracketed) :
    bracketedAll (unspannedAll cs) = bracketedAll cs := by
  induction cs with
  | nil => rfl
  | cons c cs ih =>
    rw [unspannedAll, bracketedAll, bracketedAll, h c List.mem_cons_self,
      ih fun c' hc' => h c' (List.mem_cons_of_mem c hc')]

/-- The bracketed form shows no spans. -/
theorem bracketed_unspanned (t : Tree) : t.unspanned.bracketed = t.bracketed := by
  induction t with
  | leaf w s => rfl
  | branch l s cs ih => rw [unspanned, bracketed, bracketed, bracketedAll_unspannedAll ih]

/-! ## Atoms -/

/-- Whether `c` may stand in a text that ends at a space or a bracket. -/
def isAtomChar (c : Char) : Bool :=
  c != ' ' && c != '(' && c != ')'

/-- The text is not empty, and it has no space and no bracket. -/
def IsAtom (x : String) : Prop :=
  x ≠ "" ∧ ' ' ∉ x.toList ∧ '(' ∉ x.toList ∧ ')' ∉ x.toList

theorem IsAtom.forall_mem {x : String} (h : IsAtom x) : ∀ c ∈ x.toList, isAtomChar c = true := by
  obtain ⟨-, hspace, hopening, hclosing⟩ := h
  intro c hc
  simp only [isAtomChar, Bool.and_eq_true, bne_iff_ne]
  refine ⟨⟨?_, ?_⟩, ?_⟩
  · rintro rfl
    exact hspace hc
  · rintro rfl
    exact hopening hc
  · rintro rfl
    exact hclosing hc

/-- An atom begins with a character of its own. -/
theorem IsAtom.exists_cons {x : String} (h : IsAtom x) :
    ∃ c s, x.toList = c :: s ∧ isAtomChar c = true := by
  obtain ⟨c, s, hx⟩ := List.exists_cons_of_ne_nil (mt String.toList_eq_nil_iff.mp h.1)
  exact ⟨c, s, hx, h.forall_mem c (hx ▸ List.mem_cons_self)⟩

/-- Where an atom ends is known from what stands there. -/
theorem IsAtom.append_inj {x y : String} (hx : IsAtom x) (hy : IsAtom y) {r r' : List Char}
    (hr : Stops isAtomChar r) (hr' : Stops isAtomChar r')
    (h : x.toList ++ r = y.toList ++ r') : x = y ∧ r = r' := by
  have hrun := congrArg (List.takeWhile isAtomChar) h
  have hrest := congrArg (List.dropWhile isAtomChar) h
  rw [takeWhile_run hx.forall_mem hr, takeWhile_run hy.forall_mem hr'] at hrun
  rw [dropWhile_run hx.forall_mem hr, dropWhile_run hy.forall_mem hr'] at hrest
  exact ⟨String.toList_inj.mp hrun, hrest⟩

/-! ## Reading back -/

theorem toList_bracketed_branch (l : String) (s : Span) (cs : List Tree) (r : List Char) :
    (branch l s cs).bracketed.toList ++ r =
      '(' :: (l.toList ++ ((bracketedAll cs).toList ++ ')' :: r)) := by
  simp [bracketed]

theorem toList_bracketedAll_cons (c : Tree) (cs : List Tree) (r : List Char) :
    (bracketedAll (c :: cs)).toList ++ r =
      ' ' :: (c.bracketed.toList ++ ((bracketedAll cs).toList ++ r)) := by
  simp [bracketedAll]

/-- After a label or a child comes a space or the closing bracket. -/
theorem stops_bracketedAll (cs : List Tree) (r : List Char) :
    Stops isAtomChar ((bracketedAll cs).toList ++ ')' :: r) := by
  cases cs with
  | nil => exact .cons (by decide)
  | cons c cs =>
    rw [toList_bracketedAll_cons]
    exact .cons (by decide)

/-- Wherever the bracketed form of the tree stands, what stands there is no other tree, and it ends
in no other place. -/
def Readable (t : Tree) : Prop :=
  ∀ u : Tree, (∀ x ∈ u.texts, IsAtom x) → ∀ r r' : List Char, Stops isAtomChar r →
    Stops isAtomChar r' → t.bracketed.toList ++ r = u.bracketed.toList ++ r' →
      t.unspanned = u.unspanned ∧ r = r'

/-- The children of a branch end at its closing bracket. -/
theorem readable_children {cs : List Tree} (h : ∀ c ∈ cs, c.Readable) {ds : List Tree}
    (hds : ∀ d ∈ ds, ∀ x ∈ d.texts, IsAtom x) {r r' : List Char}
    (heq : (bracketedAll cs).toList ++ ')' :: r = (bracketedAll ds).toList ++ ')' :: r') :
    unspannedAll cs = unspannedAll ds ∧ r = r' := by
  induction cs generalizing ds with
  | nil =>
    cases ds with
    | nil => exact ⟨rfl, (List.cons.inj heq).2⟩
    | cons d ds =>
      rw [toList_bracketedAll_cons] at heq
      exact absurd (List.cons.inj heq).1 (by decide)
  | cons c cs ih =>
    cases ds with
    | nil =>
      rw [toList_bracketedAll_cons] at heq
      exact absurd (List.cons.inj heq).1 (by decide)
    | cons d ds =>
      rw [toList_bracketedAll_cons, toList_bracketedAll_cons] at heq
      obtain ⟨hd, hds⟩ := List.forall_mem_cons.mp hds
      obtain ⟨hc, hcs⟩ := List.forall_mem_cons.mp h
      obtain ⟨hfirst, hmore⟩ := hc d hd _ _ (stops_bracketedAll cs r) (stops_bracketedAll ds r')
        (List.cons.inj heq).2
      obtain ⟨hlater, hrest⟩ := ih hcs hds hmore
      exact ⟨by rw [unspannedAll, unspannedAll, hfirst, hlater], hrest⟩

/-- **A bracketed form can be read back.** -/
theorem readable {t : Tree} (h : ∀ x ∈ t.texts, IsAtom x) : t.Readable := by
  induction t with
  | leaf w s =>
    intro u hu r r' hr hr' heq
    have hw := forall_mem_texts_leaf.mp h
    cases u with
    | leaf v s' =>
      obtain ⟨rfl, hrest⟩ := hw.append_inj (forall_mem_texts_leaf.mp hu) hr hr' heq
      exact ⟨rfl, hrest⟩
    | branch m s' ds =>
      obtain ⟨c, v, hcons, hc⟩ := hw.exists_cons
      rw [bracketed, toList_bracketed_branch, hcons] at heq
      rw [(List.cons.inj heq).1] at hc
      exact absurd hc (by decide)
  | branch l s cs ih =>
    intro u hu r r' hr hr' heq
    obtain ⟨hl, hcs⟩ := forall_mem_texts_branch.mp h
    cases u with
    | leaf v s' =>
      obtain ⟨c, v', hcons, hc⟩ := (forall_mem_texts_leaf.mp hu).exists_cons
      rw [bracketed, toList_bracketed_branch, hcons] at heq
      rw [← (List.cons.inj heq).1] at hc
      exact absurd hc (by decide)
    | branch m s' ds =>
      obtain ⟨hm, hds⟩ := forall_mem_texts_branch.mp hu
      rw [toList_bracketed_branch, toList_bracketed_branch] at heq
      obtain ⟨rfl, hchildren⟩ := hl.append_inj hm (stops_bracketedAll cs r)
        (stops_bracketedAll ds r') (List.cons.inj heq).2
      obtain ⟨hall, hrest⟩ := readable_children (fun c hc => ih c hc (hcs c hc)) hds hchildren
      exact ⟨by rw [unspanned, unspanned, hall], hrest⟩

/-- **Trees have the same bracketed form just if they are the same up to spans.** -/
theorem unspanned_eq_iff_bracketed_eq {t u : Tree} (ht : ∀ x ∈ t.texts, IsAtom x)
    (hu : ∀ x ∈ u.texts, IsAtom x) : t.unspanned = u.unspanned ↔ t.bracketed = u.bracketed := by
  constructor
  · intro h
    rw [← bracketed_unspanned t, ← bracketed_unspanned u, h]
  · intro h
    exact (readable ht u hu [] [] .nil .nil (by rw [h])).1

end Tree

end ChartParsing
