import ChartParsing.Proofs.Table.Store
import ChartParsing.Proofs.Table.Writes

/-!
# The spans number the cells

The places of the spans of a sentence are the numbers below the number of cells, each of them once.
The formulas for them never leave the range of machine words on the way, not even for a moment, as
long as the table `Fits`.

* `Checked`: numbers with an arithmetic that gives nothing where machine words would wrap around.
* `slot_checked`, `cellCount_checked`: this arithmetic gives the places and the number of cells.
* `exists_slot_eq`: every cell is the place of a span.
* `numbersSpans_of_fits`: **spans and cells correspond**, and the spans by their lengths are all
  spans.
-/

namespace ChartParsing

/-! ## Checked arithmetic -/

/-- The result of a computation with machine words in which every step is checked: a number, or
nothing if a sum or a product was too large, a difference was negative, or a divisor was zero. -/
structure Checked where
  value? : Option Nat
deriving DecidableEq, Repr

namespace Checked

/-- A number that is given, or was computed without a failure. -/
def of (n : Nat) : Checked := ⟨some n⟩

/-- One more step, if those before it did not fail. -/
def step (f : Nat → Nat → Option Nat) (a b : Checked) : Checked :=
  ⟨do f (← a.value?) (← b.value?)⟩

/-- A number that is a machine word. -/
def word? (n : Nat) : Option Nat :=
  if n < 2 ^ 64 then some n else none

instance : Add Checked := ⟨step fun a b => word? (a + b)⟩

instance : Mul Checked := ⟨step fun a b => word? (a * b)⟩

instance : Sub Checked := ⟨step fun a b => if b ≤ a then some (a - b) else none⟩

instance : Div Checked := ⟨step fun a b => if b = 0 then none else some (a / b)⟩

instance : Max Checked := ⟨step fun a b => some (max a b)⟩

instance : OfNat Checked 1 := ⟨of 1⟩

instance : OfNat Checked 2 := ⟨of 2⟩

variable {a b : Nat}

theorem of_add (h : a + b < 2 ^ 64) : of a + of b = of (a + b) :=
  congrArg mk (if_pos h)

theorem of_mul (h : a * b < 2 ^ 64) : of a * of b = of (a * b) :=
  congrArg mk (if_pos h)

theorem of_sub (h : b ≤ a) : of a - of b = of (a - b) :=
  congrArg mk (if_pos h)

theorem of_div (h : b ≠ 0) : of a / of b = of (a / b) :=
  congrArg mk (if_neg h)

theorem of_max : max (of a) (of b) = of (max a b) := rfl

theorem of_one : (1 : Checked) = of 1 := rfl

theorem of_two : (2 : Checked) = of 2 := rfl

end Checked

open Checked

theorem cellCount_checked {n : Nat} (hn : Table.Fits n) : cellCount (of n) = of (cellCount n) := by
  rw [cellCount, of_one, of_add hn.succ_lt, of_mul hn, of_two, of_div (by decide)]
  rfl

/-- **No step on the way to a place leaves the range of machine words.** -/
theorem slot_checked {n i j : Nat} (hn : Table.Fits n) (hij : i < j) (hj : j ≤ n) :
    slot (of n) (of i) (of j) = of (slot n i j) := by
  have hin : i ≤ n := by omega
  have hslot := Nat.lt_trans (slot_lt_cellCount hij hj) hn.cellCount_lt
  have hmax : max i 1 - 1 = i - 1 := by omega
  rw [slot, hmax] at hslot
  rw [slot, slot, hmax, of_one, of_two, of_max, of_sub (Nat.le_max_right i 1), hmax,
    of_mul (hn.mul_lt hin), of_mul (hn.mul_pred_lt hin), of_div (by decide),
    of_sub (half_mul_pred_le hin), of_sub (Nat.le_of_lt hij), of_sub (by omega), of_add hslot]

/-! ## Every cell has a span -/

/-- The cells before row `m` are places. -/
theorem exists_slot_eq_of_lt_rowStart {n k : Nat} :
    ∀ {m : Nat}, m ≤ n → k < rowStart n m → ∃ i j, i < j ∧ j ≤ n ∧ slot n i j = k := by
  intro m
  induction m with
  | zero =>
    intro _ hk
    exact absurd hk (Nat.not_lt_zero k)
  | succ m ih =>
    intro hm hk
    rw [rowStart] at hk
    by_cases hrow : k < rowStart n m
    · exact ih (by omega) hrow
    · -- The cell lies in row `m`, `k - rowStart n m` places after its first one.
      refine ⟨m, m + 1 + (k - rowStart n m), by omega, by omega, ?_⟩
      rw [slot_eq_rowStart_add (by omega)]
      omega

/-- **Every cell is the place of a span.** -/
theorem exists_slot_eq {n k : Nat} (hk : k < cellCount n) :
    ∃ i j, i < j ∧ j ≤ n ∧ slot n i j = k := by
  rw [← rowStart_self] at hk
  exact exists_slot_eq_of_lt_rowStart (Nat.le_refl n) hk

namespace Table

variable {α : Type}

/-! ## Tables after writes -/

theorem cells_size_of_set {t u : Table α} {s : Span} {v : α} (h : t.set s v = (.ok (), u)) :
    u.cells.size = t.cells.size := by
  obtain ⟨k, -, rfl⟩ := exists_place_of_set h
  exact Array.size_set k.isLt

theorem Writes.cells_size_eq {t u : Table α} {ss : List Span} (h : Writes t ss u) :
    u.cells.size = t.cells.size := by
  induction h with
  | nil => rfl
  | cons hset _ ih => rw [ih, cells_size_of_set hset]

theorem shaped_of_writes {n : Nat} (hn : Fits n) {t : Table α} {ss : List Span}
    (h : Writes (empty n) ss t) : t.Shaped where
  fits := h.size_eq ▸ hn
  cells_size := by
    rw [h.cells_size_eq, h.size_eq]
    exact (shaped_empty hn).cells_size

/-! ## Spans from left to right -/

theorem pairwise_spansOfLength (n length : Nat) :
    (spansOfLength n length).Pairwise fun s s' => s.start < s'.start := by
  rw [spansOfLength]
  split
  · exact .nil
  · exact List.pairwise_map.mpr List.pairwise_lt_range

/-! ## The correspondence -/

/-- The spans of a sentence of `n` words number the cells of its table. -/
structure NumbersSpans (n : Nat) : Prop where
  /-- The number of cells is computed without leaving the range of machine words. -/
  cellCount_checked : cellCount (of n) = of (n * (n + 1) / 2)
  /-- So is the place of each span. -/
  slot_checked : ∀ s : Span, s.Within n →
    slot (of n) (of s.start) (of s.stop) = of (slot n s.start s.stop)
  /-- Whatever was written into a table, it has this number of cells and finds these places. -/
  place_eq : ∀ {α : Type} (t : Table α) (ss : List Span), Writes (empty n) ss t →
    t.cells.size = n * (n + 1) / 2 ∧
      ∀ s : Span, s.Within n → ∃ k, t.place s = .ok k ∧ k.val = slot n s.start s.stop
  /-- Each place is that of a cell. -/
  slot_lt : ∀ s : Span, s.Within n → slot n s.start s.stop < n * (n + 1) / 2
  /-- Two spans never have the same place. -/
  slot_injective : ∀ s s' : Span, s.Within n → s'.Within n →
    slot n s.start s.stop = slot n s'.start s'.stop → s = s'
  /-- Each cell is the place of a span. -/
  slot_surjective : ∀ k < n * (n + 1) / 2, ∃ s : Span, s.Within n ∧ slot n s.start s.stop = k
  /-- The lengths from 1 to `n` together have every span once and nothing else. -/
  count_spans : ∀ s : Span,
    ((List.range' 1 n).flatMap (spansOfLength n)).count s = if s.Within n then 1 else 0
  /-- The spans of one length go from left to right. -/
  pairwise_spans : ∀ length, (spansOfLength n length).Pairwise fun s s' => s.start < s'.start
  length_spans : ∀ length, ∀ s ∈ spansOfLength n length, s.length = length
  /-- No span is empty or longer than the sentence. -/
  spans_zero : spansOfLength n 0 = []
  spans_of_lt : ∀ length, n < length → spansOfLength n length = []

/-- **Spans and cells correspond.**  If the table for `n` words fits, then no step of the formulas
for its cells leaves the range of machine words.  The places of the spans are the numbers of the
cells, and each cell is the place of one span.  The spans of the lengths from 1 to `n` are all of
these spans, each once, from left to right within a length; there are no spans of other lengths. -/
theorem numbersSpans_of_fits {n : Nat} (hn : Fits n) : NumbersSpans n where
  cellCount_checked := ChartParsing.cellCount_checked hn
  slot_checked := fun _ hs => ChartParsing.slot_checked hn hs.1 hs.2
  place_eq := by
    intro α t ss hwrites
    have ht := shaped_of_writes hn hwrites
    have hsize : t.size = n := hwrites.size_eq
    refine ⟨?_, fun s hs => ?_⟩
    · rw [ht.cells_size, hsize]
      rfl
    · obtain ⟨hlt, hplace⟩ := place_eq_ok ht (hsize.symm ▸ hs)
      exact ⟨_, hplace, congrArg (slot · s.start s.stop) hsize⟩
  slot_lt := fun _ hs => slot_lt_cellCount hs.1 hs.2
  slot_injective := by
    rintro ⟨i, j⟩ ⟨k, l⟩ hs hs' heq
    obtain ⟨rfl, rfl⟩ := ChartParsing.slot_injective hs.1 hs.2 hs'.1 hs'.2 heq
    rfl
  slot_surjective := by
    intro k hk
    obtain ⟨i, j, hij, hj, heq⟩ := exists_slot_eq hk
    exact ⟨⟨i, j⟩, ⟨hij, hj⟩, heq⟩
  count_spans := count_fillOrder n
  pairwise_spans := pairwise_spansOfLength n
  length_spans := fun _ _ hs => (mem_spansOfLength_iff.mp hs).2
  spans_zero := if_pos (.inl rfl)
  spans_of_lt := fun _ hlength => if_pos (.inr hlength)

/-- The largest table that fits: its last span has the last cell. -/
theorem numbersSpans_largest : Fits (2 ^ 32 - 1) ∧ NumbersSpans (2 ^ 32 - 1) ∧
    slot (of (2 ^ 32 - 1)) (of (2 ^ 32 - 2)) (of (2 ^ 32 - 1)) = of (2 ^ 63 - 2 ^ 31 - 1) ∧
    cellCount (of (2 ^ 32 - 1)) = of (2 ^ 63 - 2 ^ 31) := by
  have hfits : Fits (2 ^ 32 - 1) := by decide
  have hspans := numbersSpans_of_fits hfits
  exact ⟨hfits, hspans, hspans.slot_checked ⟨2 ^ 32 - 2, 2 ^ 32 - 1⟩ (by decide),
    hspans.cellCount_checked⟩

/-- One word more is too much: the product does not fit into a machine word. -/
example : cellCount (of (2 ^ 32)) = ⟨none⟩ := by decide

end Table

end ChartParsing
