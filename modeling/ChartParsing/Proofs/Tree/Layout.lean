import ChartParsing.Proofs.Tree.Texts
import ChartParsing.Tree.Printer

/-!
# The layout of a printed tree

A tree is printed from the leaves upwards: a child that gets lines of its own is printed first, and
then each of its lines is moved two columns to the right.  So a line is moved once for every branch
above it that has more or fewer children than one.  The layout says this at once, from the root down:
each child starts in the column of its depth.

* `Tree.layout`: the tree printed from the root down, with the depth carried along.
* `deepen`: a text with two more columns at the beginning of each line but the first.
* `indent_eq_deepen`, `deepen_layout`: moving all lines is to deepen them, and a layout that is
  deepened is the layout one level further down.
* `render_eq_layout`: **the printed tree is the layout**, if no text of the tree breaks a line.
-/

namespace ChartParsing

open Text

namespace Tree

mutual

/-- The tree with spans, in one pass.  A child that is not the only one starts a line of its own,
two columns further in for each level of depth. -/
def layout (depth : Nat) : Tree → String
  | leaf w s => s.render ++ ": " ++ w
  | branch l s cs =>
    "(" ++ s.render ++ ": " ++ l ++
      (match cs with
        | [t] => " (" ++ layout depth t ++ ")"
        | cs => layoutAll depth cs) ++
      ")"

/-- The children of a branch at this depth, each on a line of its own. -/
def layoutAll (depth : Nat) : List Tree → String
  | [] => ""
  | t :: ts =>
    "\n" ++ String.ofList (List.replicate (2 * (depth + 1)) ' ') ++ layout (depth + 1) t ++
      layoutAll depth ts

end

theorem layout_only (depth : Nat) (l : String) (s : Span) (t : Tree) :
    layout depth (branch l s [t]) =
      "(" ++ s.render ++ ": " ++ l ++ (" (" ++ layout depth t ++ ")") ++ ")" := by
  rw [layout]

theorem layout_many (depth : Nat) (l : String) (s : Span) {cs : List Tree}
    (h : ¬ ∃ t, cs = [t]) :
    layout depth (branch l s cs) = "(" ++ s.render ++ ": " ++ l ++ layoutAll depth cs ++ ")" := by
  rw [layout]
  exact fun t ht => h ⟨t, ht⟩

theorem render_only (l : String) (s : Span) (t : Tree) :
    render (branch l s [t]) = "(" ++ renderRoot (branch l s []) ++ " (" ++ render t ++ "))" := by
  rw [render]

theorem render_many (l : String) (s : Span) {cs : List Tree} (h : ¬ ∃ t, cs = [t]) :
    render (branch l s cs) = "(" ++ renderRoot (branch l s []) ++ renderAll cs ++ ")" := by
  rw [render]
  exact fun t ht => h ⟨t, ht⟩

end Tree

/-! ## Moving lines -/

/-- The text with two more columns at the beginning of each line but the first. -/
def deepen (s : List Char) : List Char :=
  s.flatMap fun c => if c = '\n' then ['\n', ' ', ' '] else [c]

theorem deepen_append (s u : List Char) : deepen (s ++ u) = deepen s ++ deepen u :=
  List.flatMap_append

theorem deepen_cons_newline (s : List Char) :
    deepen ('\n' :: s) = '\n' :: ' ' :: ' ' :: deepen s :=
  rfl

theorem deepen_cons {c : Char} (h : c ≠ '\n') (s : List Char) : deepen (c :: s) = c :: deepen s := by
  rw [deepen, List.flatMap_cons, if_neg h]
  rfl

theorem deepen_of_line {s : List Char} (h : '\n' ∉ s) : deepen s = s := by
  induction s with
  | nil => rfl
  | cons c s ih =>
    rw [List.mem_cons, not_or] at h
    rw [deepen_cons (Ne.symm h.1), ih h.2]

theorem lines_cons_of_nil {c : Char} {s : List Char} (hn : c ≠ '\n') (hr : c ≠ '\r')
    (h : lines s = []) : lines (c :: s) = [[c]] := by
  simp [lines, h, hr]

theorem lines_cons_of_cons {c : Char} {s l : List Char} {ls : List (List Char)} (hn : c ≠ '\n')
    (hr : c ≠ '\r') (h : lines s = l :: ls) : lines (c :: s) = (c :: l) :: ls := by
  simp [lines, h, hr]

/-- **Moving every line deepens the text**, but for the first line.  A carriage return before a line
feed or a line feed at the end would be lost. -/
theorem flatMap_lines {s : List Char} {c : Char} (hr : '\r' ∉ s ++ [c]) (hc : c ≠ '\n') :
    (lines (s ++ [c])).flatMap (fun l => '\n' :: ' ' :: ' ' :: l) =
      '\n' :: ' ' :: ' ' :: deepen (s ++ [c]) := by
  induction s with
  | nil =>
    have hreturn : c ≠ '\r' := fun h => hr (by simp [h])
    rw [List.nil_append, lines_cons_of_nil hc hreturn lines_nil, deepen_cons hc]
    rfl
  | cons d s ih =>
    rw [List.cons_append, List.mem_cons, not_or] at hr
    have hs := ih hr.2
    rw [List.cons_append]
    -- A line feed begins a line of its own; any other character joins the first line of the rest.
    by_cases hd : d = '\n'
    · rw [hd, lines_newline, deepen_cons_newline, List.flatMap_cons, hs]
      rfl
    · cases hlines : lines (s ++ [c]) with
      | nil =>
        rw [hlines] at hs
        exact absurd hs (by simp)
      | cons l ls =>
        rw [hlines] at hs
        rw [lines_cons_of_cons hd (Ne.symm hr.1) hlines, deepen_cons hd]
        simpa using hs

namespace Tree

theorem indent_eq_deepen {text : String} {s : List Char} {c : Char} (htext : text.toList = s ++ [c])
    (hr : '\r' ∉ text.toList) (hc : c ≠ '\n') :
    (indent text).toList = '\n' :: ' ' :: ' ' :: deepen text.toList := by
  rw [htext] at hr ⊢
  rw [← flatMap_lines hr hc, ← htext, indent, String.toList_join, List.flatMap_map]
  simp

/-! ## Layouts -/

/-- The text breaks no line. -/
def IsLine (x : String) : Prop :=
  '\n' ∉ x.toList ∧ '\r' ∉ x.toList

theorem isLine_render_span (s : Span) : IsLine s.render := by
  have hdigits : ∀ (n : Nat) (c : Char), c ∈ Nat.toDigits 10 n → c ≠ '\n' ∧ c ≠ '\r' := by
    intro n c hc
    have hdigit := Nat.isDigit_of_mem_toDigits (by decide) (by decide) hc
    constructor
    · rintro rfl
      exact absurd hdigit (by decide)
    · rintro rfl
      exact absurd hdigit (by decide)
  have hall : ∀ c ∈ s.render.toList, c ≠ '\n' ∧ c ≠ '\r' := by
    intro c hc
    simp only [Span.render, String.toList_append, Nat.toString_eq_repr, Nat.toList_repr,
      List.mem_append] at hc
    rcases hc with (hstart | hdots) | hstop
    · exact hdigits s.start c hstart
    · have hdot : c = '.' := by simpa using hdots
      rw [hdot]
      decide
    · exact hdigits s.stop c hstop
  exact ⟨fun h => (hall _ h).1 rfl, fun h => (hall _ h).2 rfl⟩

theorem return_notMem_layoutAll {cs : List Tree}
    (h : ∀ c ∈ cs, ∀ depth, '\r' ∉ (layout depth c).toList) (depth : Nat) :
    '\r' ∉ (layoutAll depth cs).toList := by
  induction cs with
  | nil => simp [layoutAll]
  | cons c cs ih =>
    have hc := h c List.mem_cons_self (depth + 1)
    have hcs := ih fun c' hc' => h c' (List.mem_cons_of_mem c hc')
    simp [layoutAll, hc, hcs]

/-- A layout has no carriage return. -/
theorem return_notMem_layout {t : Tree} (h : ∀ x ∈ t.texts, IsLine x) (depth : Nat) :
    '\r' ∉ (layout depth t).toList := by
  induction t generalizing depth with
  | leaf w s =>
    have hw := (forall_mem_texts_leaf.mp h).2
    simp [layout, hw, (isLine_render_span s).2]
  | branch l s cs ih =>
    obtain ⟨hl, hcs⟩ := forall_mem_texts_branch.mp h
    have hall : ∀ c ∈ cs, ∀ depth, '\r' ∉ (layout depth c).toList := fun c hc => ih c hc (hcs c hc)
    by_cases hone : ∃ t, cs = [t]
    · obtain ⟨t, rfl⟩ := hone
      have ht := hall t List.mem_cons_self depth
      simp [layout_only, hl.2, ht, (isLine_render_span s).2]
    · have hchildren := return_notMem_layoutAll hall depth
      simp [layout_many _ _ _ hone, hl.2, hchildren, (isLine_render_span s).2]

/-- A layout ends within a line. -/
theorem exists_layout_eq_concat {t : Tree} (h : ∀ x ∈ t.texts, IsLine x) (depth : Nat) :
    ∃ s c, (layout depth t).toList = s ++ [c] ∧ c ≠ '\n' := by
  cases t with
  | leaf w s =>
    obtain ⟨hw, -⟩ := forall_mem_texts_leaf.mp h
    rcases List.eq_nil_or_concat w.toList with hnil | ⟨u, c, hconcat⟩
    · exact ⟨s.render.toList ++ [':'], ' ', by simp [layout, hnil], by decide⟩
    · refine ⟨s.render.toList ++ ':' :: ' ' :: u, c, by simp [layout, hconcat], ?_⟩
      rintro rfl
      exact hw (by simp [hconcat])
  | branch l s cs =>
    by_cases hone : ∃ t, cs = [t]
    · obtain ⟨t, rfl⟩ := hone
      exact ⟨_, ')', by rw [layout_only, String.toList_append]; rfl, by decide⟩
    · exact ⟨_, ')', by rw [layout_many _ _ _ hone, String.toList_append]; rfl, by decide⟩

/-- Moving the lines of a layout. -/
theorem indent_layout {t : Tree} (h : ∀ x ∈ t.texts, IsLine x) (depth : Nat) :
    (indent (layout depth t)).toList =
      '\n' :: ' ' :: ' ' :: deepen (layout depth t).toList := by
  obtain ⟨s, c, htext, hc⟩ := exists_layout_eq_concat h depth
  exact indent_eq_deepen htext (return_notMem_layout h depth) hc

theorem toList_layoutAll_cons (depth : Nat) (c : Tree) (cs : List Tree) :
    (layoutAll depth (c :: cs)).toList =
      '\n' :: (List.replicate (2 * (depth + 1)) ' ' ++
        ((layout (depth + 1) c).toList ++ (layoutAll depth cs).toList)) := by
  simp [layoutAll]

theorem deepen_layoutAll {cs : List Tree}
    (h : ∀ c ∈ cs, ∀ depth, deepen (layout depth c).toList = (layout (depth + 1) c).toList)
    (depth : Nat) :
    deepen (layoutAll depth cs).toList = (layoutAll (depth + 1) cs).toList := by
  induction cs with
  | nil => rfl
  | cons c cs ih =>
    have hcolumns : '\n' ∉ List.replicate (2 * (depth + 1)) ' ' := fun hmem =>
      absurd (List.eq_of_mem_replicate hmem) (by decide)
    rw [toList_layoutAll_cons, toList_layoutAll_cons, deepen_cons_newline, deepen_append,
      deepen_append, deepen_of_line hcolumns, h c List.mem_cons_self,
      ih fun c' hc' => h c' (List.mem_cons_of_mem c hc')]
    rfl

/-- **One level further down** a layout is deepened. -/
theorem deepen_layout {t : Tree} (h : ∀ x ∈ t.texts, IsLine x) (depth : Nat) :
    deepen (layout depth t).toList = (layout (depth + 1) t).toList := by
  induction t generalizing depth with
  | leaf w s =>
    have hline : '\n' ∉ (layout depth (leaf w s)).toList := by
      simp [layout, (forall_mem_texts_leaf.mp h).1, (isLine_render_span s).1]
    rw [deepen_of_line hline, layout, layout]
  | branch l s cs ih =>
    obtain ⟨hl, hcs⟩ := forall_mem_texts_branch.mp h
    have hroot : '\n' ∉ ("(" ++ s.render ++ ": " ++ l).toList := by
      simp [hl.1, (isLine_render_span s).1]
    have hopening : deepen " (".toList = " (".toList := deepen_of_line (by decide)
    have hclosing : deepen ")".toList = ")".toList := deepen_of_line (by decide)
    have hall : ∀ c ∈ cs, ∀ depth, deepen (layout depth c).toList = (layout (depth + 1) c).toList :=
      fun c hc => ih c hc (hcs c hc)
    by_cases hone : ∃ t, cs = [t]
    · obtain ⟨t, rfl⟩ := hone
      rw [layout_only, layout_only]
      generalize "(" ++ s.render ++ ": " ++ l = root at hroot
      simp only [String.toList_append, deepen_append, deepen_of_line hroot, hopening, hclosing,
        hall t List.mem_cons_self]
    · rw [layout_many _ _ _ hone, layout_many _ _ _ hone]
      generalize "(" ++ s.render ++ ": " ++ l = root at hroot
      simp only [String.toList_append, deepen_append, deepen_of_line hroot, hclosing,
        deepen_layoutAll hall]

/-! ## The printed tree -/

theorem renderAll_eq_layoutAll {cs : List Tree} (h : ∀ c ∈ cs, ∀ x ∈ c.texts, IsLine x)
    (hrender : ∀ c ∈ cs, render c = layout 0 c) : renderAll cs = layoutAll 0 cs := by
  induction cs with
  | nil => rfl
  | cons c cs ih =>
    have hc := h c List.mem_cons_self
    have hcs := ih (fun c' hc' => h c' (List.mem_cons_of_mem c hc'))
      fun c' hc' => hrender c' (List.mem_cons_of_mem c hc')
    rw [← String.toList_inj, renderAll, String.toList_append, hrender c List.mem_cons_self,
      indent_layout hc, deepen_layout hc, hcs, toList_layoutAll_cons]
    rfl

/-- **The printed tree is the layout.**  Whatever its shape, a tree whose texts break no line is
printed with two columns for each branch above a line that has more or fewer children than one. -/
theorem render_eq_layout {t : Tree} (h : ∀ x ∈ t.texts, '\n' ∉ x.toList ∧ '\r' ∉ x.toList) :
    t.render = t.layout 0 := by
  induction t with
  | leaf w s => rw [render, layout, renderRoot, span, label]
  | branch l s cs ih =>
    obtain ⟨-, hcs⟩ := forall_mem_texts_branch.mp h
    have hall : ∀ c ∈ cs, render c = layout 0 c := fun c hc => ih c hc (hcs c hc)
    by_cases hone : ∃ t, cs = [t]
    · obtain ⟨t, rfl⟩ := hone
      rw [render_only, layout_only, hall t List.mem_cons_self, renderRoot, span, label]
      simp [String.append_assoc]
    · rw [render_many _ _ hone, layout_many _ _ _ hone, renderAll_eq_layoutAll hcs hall, renderRoot,
        span, label]
      simp [String.append_assoc]

/-- A tree with branches of no, one and two children. -/
def mixed : Tree :=
  branch "S" ⟨0, 3⟩ [branch "A" ⟨0, 1⟩ [leaf "a" ⟨0, 1⟩],
    branch "B" ⟨1, 3⟩ [branch "C" ⟨1, 3⟩ [leaf "b" ⟨1, 2⟩, branch "D" ⟨2, 3⟩ []]]]

/-- The children of `C` are in the column of the second level, since `B` has one child only. -/
theorem render_mixed : (∀ x ∈ mixed.texts, '\n' ∉ x.toList ∧ '\r' ∉ x.toList) ∧
    mixed.render = mixed.layout 0 ∧
    mixed.layout 0 = "(0..3: S\n  (0..1: A (0..1: a))\n  (1..3: B ((1..3: C\n    1..2: b\n" ++
      "    (2..3: D)))))" := by
  have htexts : ∀ x ∈ mixed.texts, '\n' ∉ x.toList ∧ '\r' ∉ x.toList := by decide
  exact ⟨htexts, render_eq_layout htexts, by cbv⟩

end Tree

end ChartParsing
