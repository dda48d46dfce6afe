import ChartParsing.Proofs.Table.Writes

/-!
# A full table has room for every span

A write takes a cell that was vacant.  The fill writes one cell for each span of the sentence, so it
succeeds only if the table has as many cells as there are spans.  Where machine words wrap around,
the table has too few.

* `Writes.length_add_vacant`: every write takes one vacant cell.
* `length_fillOrder`: how many spans a sentence has.
* `fits_of_fill`: **a sentence that has a full table is not too long** for machine words.
-/

namespace ChartParsing.Table

variable {α : Type}

/-! ## Vacant cells -/

/-- How many cells are not written. -/
def vacant (t : Table α) : Nat :=
  t.cells.countP Option.isNone

theorem vacant_of_set {t u : Table α} {s : Span} {v : α} (h : t.set s v = (.ok (), u)) :
    u.vacant + 1 = t.vacant := by
  obtain ⟨k, hfree, rfl⟩ := exists_place_of_set h
  have hnone : t.cells[k.val].isNone = true := by simpa [cell] using hfree
  have hpos : 0 < t.cells.countP Option.isNone :=
    Array.countP_pos_iff.mpr ⟨_, Array.getElem_mem k.isLt, hnone⟩
  show (t.cells.set k (some v)).countP Option.isNone + 1 = t.cells.countP Option.isNone
  rw [Array.countP_set, if_pos hnone, if_neg (by simp)]
  omega

theorem Writes.length_add_vacant {t u : Table α} {ss : List Span} (h : Writes t ss u) :
    ss.length + u.vacant = t.vacant := by
  induction h with
  | nil => exact Nat.zero_add _
  | cons hset _ ih =>
    rw [List.length_cons, Nat.add_right_comm, ih, vacant_of_set hset]

theorem vacant_empty_le (n : Nat) :
    (empty n : Table α).vacant ≤ (cellCount (UInt64.ofNat n)).toNat := by
  have hsize : (empty n : Table α).cells.size = (cellCount (UInt64.ofNat n)).toNat := by
    rw [empty, Array.size_replicate]
  rw [← hsize]
  exact Array.countP_le_size

/-! ## Spans -/

theorem length_spansOfLength {n length : Nat} (h : 0 < length) (hle : length ≤ n) :
    (spansOfLength n length).length = n + 1 - length := by
  rw [spansOfLength, if_neg (by omega), List.length_map, List.length_range]
  omega

theorem rowStart_eq_sum (n i : Nat) : rowStart n i = ((List.range i).map (n - ·)).sum := by
  induction i with
  | zero => rfl
  | succ i ih => simp [rowStart, ih, List.range_succ]

/-- There are as many spans as cells. -/
theorem length_fillOrder (n : Nat) : (fillOrder n).length = cellCount n := by
  have hlengths : (List.range' 1 n).map (fun length => (spansOfLength n length).length) =
      (List.range n).map (n - ·) := by
    rw [List.range'_eq_map_range, List.map_map]
    refine List.map_congr_left fun k hk => ?_
    have hk := List.mem_range.mp hk
    rw [Function.comp, length_spansOfLength (by omega) (by omega)]
    omega
  rw [fillOrder, List.length_flatMap, hlengths, ← rowStart_eq_sum, rowStart_self]

/-! ## Room -/

/-- A number of cells that is a machine word is less than half of all machine words. -/
theorem toNat_cellCount_lt (n : UInt64) : (cellCount n).toNat < 2 ^ 63 := by
  rw [cellCount, UInt64.toNat_div]
  have := (n * (n + 1)).toNat_lt
  show (n * (n + 1)).toNat / 2 < 2 ^ 63
  omega

/-- **A sentence that has a full table is not too long.** -/
theorem fits_of_fill {ofWord : String → α} {ofSplits : List (Split α) → α} {words : List String}
    {t : Table α} (h : fill ofWord ofSplits words = .ok t) : Fits words.length := by
  have hwrites := (fill_writes h).length_add_vacant
  have hroom := vacant_empty_le (α := α) words.length
  have hcount := toNat_cellCount_lt (UInt64.ofNat words.length)
  rw [length_fillOrder, cellCount] at hwrites
  rw [Fits]
  omega

end ChartParsing.Table
