import ChartParsing.Proofs.Table.Recursion
import Mathlib.Data.List.Nodup

/-!
# Every cell is written once

The fill writes one cell after the other: first those of the words, then those of the longer spans,
by length and from left to right.  This order has every span of the sentence once and no other span.

* `Writes`: a table comes from another one by writing the cells of some spans in some order.
* `fillOrder`, `count_fillOrder`: the order of the fill.
* `fillSpan_writes`, `fill_writes`: one step writes one cell, and a whole run writes in this order.
* `FilledOnce`: every cell is written, and has been written once.
-/

namespace ChartParsing.Table

variable {α : Type}

/-- The second table comes from the first by writing the cells of the spans, one after the other.
Each of these writes succeeds, so it finds its cell empty. -/
inductive Writes : Table α → List Span → Table α → Prop
  | nil {t : Table α} : Writes t [] t
  | cons {t t' u : Table α} {s : Span} {v : α} {ss : List Span} :
      t.set s v = (.ok (), t') → Writes t' ss u → Writes t (s :: ss) u

theorem Writes.append {t u w : Table α} {ss ss' : List Span} (h : Writes t ss u)
    (h' : Writes u ss' w) : Writes t (ss ++ ss') w := by
  induction h with
  | nil => exact h'
  | cons hset _ ih => exact .cons hset (ih h')

theorem Writes.single {t u : Table α} {s : Span} {v : α} (h : t.put s v = .ok u) :
    Writes t [s] u :=
  .cons (put_eq_ok_iff.mp h) .nil

theorem size_eq_of_set {t u : Table α} {s : Span} {v : α} (h : t.set s v = (.ok (), u)) :
    u.size = t.size := by
  obtain ⟨k, -, rfl⟩ := exists_place_of_set h
  rfl

theorem Writes.size_eq {t u : Table α} {ss : List Span} (h : Writes t ss u) : u.size = t.size := by
  induction h with
  | nil => rfl
  | cons hset _ ih => rw [ih, size_eq_of_set hset]

/-- A loop writes what its steps write. -/
theorem writes_of_foldlM {β : Type} {f : Table α → β → Except Fault (Table α)} {n : Nat}
    {l : List β} (spans : β → List Span)
    (hstep : ∀ b ∈ l, ∀ t u, t.size = n → f t b = .ok u → Writes t (spans b) u) {t u : Table α}
    (ht : t.size = n) (h : l.foldlM f t = .ok u) : Writes t (l.flatMap spans) u := by
  induction l generalizing t with
  | nil =>
    obtain rfl : t = u := pure_eq_ok.mp h
    exact .nil
  | cons b l ih =>
    rw [List.foldlM_cons] at h
    obtain ⟨t', hb, h⟩ := bind_eq_ok.mp h
    have hfirst := hstep b List.mem_cons_self t t' ht hb
    rw [List.flatMap_cons]
    exact hfirst.append (ih (fun b' hb' => hstep b' (List.mem_cons_of_mem b hb'))
      (hfirst.size_eq.trans ht) h)

/-! ## The order of the fill -/

theorem mem_spansOfLength_iff {n length : Nat} {s : Span} :
    s ∈ spansOfLength n length ↔ s.Within n ∧ s.length = length := by
  obtain ⟨i, j⟩ := s
  rw [spansOfLength]
  simp only [Span.Within, Span.length]
  split
  · rename_i hout
    refine ⟨fun h => absurd h List.not_mem_nil, ?_⟩
    omega
  · rename_i hin
    rw [List.mem_map]
    constructor
    · rintro ⟨k, hk, heq⟩
      obtain ⟨rfl, rfl⟩ := Span.mk.inj heq
      rw [List.mem_range] at hk
      omega
    · rintro ⟨⟨hij, hj⟩, hlength⟩
      exact ⟨i, List.mem_range.mpr (by omega), by rw [Span.mk.injEq]; omega⟩

theorem nodup_spansOfLength (n length : Nat) : (spansOfLength n length).Nodup := by
  rw [spansOfLength]
  split
  · exact .nil
  · refine List.nodup_range.map ?_
    intro i k h
    exact (Span.mk.inj h).1

/-- The spans of a sentence of `n` words by their lengths, and those of one length from left to
right. -/
def fillOrder (n : Nat) : List Span :=
  (List.range' 1 n).flatMap (spansOfLength n)

theorem mem_fillOrder_iff {n : Nat} {s : Span} : s ∈ fillOrder n ↔ s.Within n := by
  rw [fillOrder, List.mem_flatMap]
  constructor
  · rintro ⟨length, -, hs⟩
    exact (mem_spansOfLength_iff.mp hs).1
  · intro hs
    refine ⟨s.length, List.mem_range'_1.mpr ?_, mem_spansOfLength_iff.mpr ⟨hs, rfl⟩⟩
    simp only [Span.Within, Span.length] at *
    omega

theorem nodup_fillOrder (n : Nat) : (fillOrder n).Nodup := by
  rw [fillOrder, List.nodup_flatMap]
  refine ⟨fun length _ => nodup_spansOfLength n length, ?_⟩
  refine List.Pairwise.imp ?_ (List.pairwise_lt_range' 1)
  intro length length' hlt s hs hs'
  have h := (mem_spansOfLength_iff.mp hs).2
  have h' := (mem_spansOfLength_iff.mp hs').2
  omega

/-- **The order has every span of the sentence once** and no other span. -/
theorem count_fillOrder (n : Nat) (s : Span) :
    (fillOrder n).count s = if s.Within n then 1 else 0 := by
  split
  · rename_i hs
    exact List.count_eq_one_of_mem (nodup_fillOrder n) (mem_fillOrder_iff.mpr hs)
  · rename_i hs
    exact List.count_eq_zero_of_not_mem fun hmem => hs (mem_fillOrder_iff.mp hmem)

/-! ## Runs of the fill -/

section Fill

variable {ofWord : String → α} {ofSplits : List (Split α) → α} {words : List String}

theorem fillSpan_writes {t u : Table α} {s : Span} (h : t.fillSpan ofSplits s = .ok u) :
    Writes t [s] u := by
  obtain ⟨parts, -, hset⟩ := bind_eq_ok.mp h
  exact .single hset

theorem fillLength_writes {t u : Table α} {length : Nat}
    (h : fillLength size (fillSpan ofSplits) t length = .ok u) :
    Writes t (spansOfLength t.size length) u := by
  have hrun := writes_of_foldlM (fun s => [s]) (fun s _ t u _ h => fillSpan_writes h) rfl h
  rwa [List.flatMap_singleton'] at hrun

theorem spansOfLength_one (n : Nat) :
    spansOfLength n 1 = (List.range n).map fun i => ⟨i, i + 1⟩ := by
  rw [spansOfLength]
  split
  · obtain rfl : n = 0 := by omega
    rfl
  · rw [Nat.sub_add_cancel (by omega)]

theorem fillWords_writes {t : Table α}
    (h : words.zipIdx.foldlM (fillWord ofWord) (empty words.length) = .ok t) :
    Writes (empty words.length) (spansOfLength words.length 1) t := by
  have hrun := writes_of_foldlM (fun w : String × Nat => [⟨w.2, w.2 + 1⟩])
    (fun w _ t u _ h => .single h) rfl h
  have horder : words.zipIdx.flatMap (fun w => [(⟨w.2, w.2 + 1⟩ : Span)]) =
      (words.zipIdx.map Prod.snd).map fun i => ⟨i, i + 1⟩ := by
    rw [List.map_map, List.map_eq_flatMap]
    rfl
  rwa [horder, List.zipIdx_map_snd, ← List.range_eq_range', ← spansOfLength_one] at hrun

theorem fillOrder_eq_append (n : Nat) :
    fillOrder n = spansOfLength n 1 ++ (List.range' 2 (n - 1)).flatMap (spansOfLength n) := by
  cases n with
  | zero => rfl
  | succ n => rw [fillOrder, List.range'_succ, List.flatMap_cons, Nat.add_sub_cancel]

/-- **A run of the fill** writes the cells in the order of the fill. -/
theorem fill_writes {t : Table α} (h : fill ofWord ofSplits words = .ok t) :
    Writes (empty words.length) (fillOrder words.length) t := by
  obtain ⟨t', hwords, hlong⟩ := bind_eq_ok.mp h
  have hfirst := fillWords_writes hwords
  have hstep : ∀ length ∈ List.range' 2 (words.length - 1), ∀ t u : Table α,
      t.size = words.length → fillLength size (fillSpan ofSplits) t length = .ok u →
        Writes t (spansOfLength words.length length) u := by
    intro length _ t u ht hfill
    rw [← ht]
    exact fillLength_writes hfill
  rw [fillOrder_eq_append]
  exact hfirst.append (writes_of_foldlM _ hstep hfirst.size_eq hlong)

theorem isFilled_of_get {t : Table α} {s : Span} {v : α} (h : t.get s = .ok v) :
    t.isFilled s = .ok true := by
  obtain ⟨k, hk, h⟩ := bind_eq_ok.mp h
  refine bind_eq_ok.mpr ⟨k, hk, ?_⟩
  split at h
  · rename_i w hw
    rw [hw]
    rfl
  · exact absurd h throw_ne_ok

/-- The cells of all spans of a sentence of `n` words are written, each by one write, and nothing
else was written. -/
structure FilledOnce (n : Nat) (t : Table α) : Prop where
  writes : ∃ order, Writes (empty n) order t ∧
    ∀ s : Span, order.count s = if s.Within n then 1 else 0
  filled : ∀ s : Span, s.Within n → t.isFilled s = .ok true

/-- **The fill writes every cell once.** -/
theorem fill_filledOnce (hn : Fits words.length) {t : Table α}
    (h : fill ofWord ofSplits words = .ok t) : t.FilledOnce words.length where
  writes := ⟨fillOrder words.length, fill_writes h, count_fillOrder words.length⟩
  filled := by
    intro s hs
    obtain ⟨t', ht', -, hcells⟩ := fill_eq_ok ofWord ofSplits hn
    obtain rfl : t = t' := Except.ok.inj (h.symm.trans ht')
    exact isFilled_of_get (hcells s hs)

end Fill

end ChartParsing.Table
