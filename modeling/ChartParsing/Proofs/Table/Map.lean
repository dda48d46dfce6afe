import ChartParsing.Proofs.Table.Writes

/-!
# Tables of parts of values

To keep a part of every value in a table, `Table.map`, is the same as to write only these parts from
the beginning: reading, writing and filling commute with it.  So several tables that are filled side
by side are the parts of one table.

* `get_map`, `set_map`: one read and one write.
* `splits_map`, `fillInOrder_map`: the steps and the loops of a fill.
* `FilledOnce.map`: a table of parts is filled as often as the whole.
-/

namespace ChartParsing.Table

variable {α β : Type}

/-- The table with a part of every value. -/
def map (f : α → β) (t : Table α) : Table β :=
  ⟨t.size, t.cells.map (Option.map f)⟩

/-- The split with a part of each value. -/
def Split.map (f : α → β) (p : Split α) : Split β :=
  ⟨p.position, f p.left, f p.right⟩

theorem map_empty (f : α → β) (n : Nat) : (empty n).map f = empty n := by
  rw [map, empty, Array.map_replicate]
  rfl

section Operations

variable {f : α → β} {t u : Table α} {s : Span}

theorem cells_size_map (f : α → β) (t : Table α) : (t.map f).cells.size = t.cells.size :=
  Array.size_map

/-- A place depends on the numbers of words and of cells. -/
theorem place_map (f : α → β) (t : Table α) (s : Span) :
    (t.map f).place s = (t.place s).map (Fin.cast (cells_size_map f t).symm) := by
  have key : ∀ (cells : Array (Option β)) (h : t.cells.size = cells.size),
      (⟨t.size, cells⟩ : Table β).place s = (t.place s).map (Fin.cast h) := by
    intro cells h
    simp only [place, ← h]
    split
    · split
      · rfl
      · rfl
    · rfl
  exact key _ (cells_size_map f t).symm

theorem cell_map (f : α → β) (t : Table α) (k : Fin t.cells.size) :
    (t.map f).cell (k.cast (cells_size_map f t).symm) = (t.cell k).map f :=
  Array.getElem_map ..

theorem withCell_map (f : α → β) (t : Table α) (k : Fin t.cells.size) (v : α) :
    (t.map f).withCell (k.cast (cells_size_map f t).symm) (f v) = (t.withCell k v).map f := by
  simp only [withCell, map, Array.map_set]
  rfl

theorem get_map (f : α → β) (t : Table α) (s : Span) : (t.map f).get s = (t.get s).map f := by
  have hplace := place_map f t s
  cases hk : t.place s with
  | error e =>
    rw [get, get, hplace, hk]
    rfl
  | ok k =>
    rw [hk] at hplace
    rw [get_of_place_ok hk, get_of_place_ok hplace, cell_map]
    cases t.cell k <;> rfl

theorem isFilled_map (f : α → β) (t : Table α) (s : Span) :
    (t.map f).isFilled s = t.isFilled s := by
  rw [isFilled, isFilled, place_map]
  cases t.place s with
  | error e => rfl
  | ok k =>
    show Except.ok ((t.map f).cell (k.cast (cells_size_map f t).symm)).isSome = _
    rw [cell_map, Option.isSome_map]
    rfl

/-- **One write**, of a value and of its part. -/
theorem set_map (f : α → β) (t : Table α) (s : Span) (v : α) :
    (t.map f).set s (f v) = ((t.set s v).1, (t.set s v).2.map f) := by
  have hplace := place_map f t s
  cases hk : t.place s with
  | error e =>
    rw [hk] at hplace
    rw [set_of_place_error hk, set_of_place_error hplace]
  | ok k =>
    rw [hk] at hplace
    rw [set_of_place_ok hk, set_of_place_ok hplace, cell_map, Option.isSome_map, withCell_map]
    split <;> rfl

theorem put_map (f : α → β) (t : Table α) (s : Span) (v : α) :
    (t.map f).put s (f v) = (t.put s v).map (map f) := by
  rw [put, put, set_map]
  cases t.set s v with
  | mk outcome t' => cases outcome <;> rfl

theorem Writes.map (f : α → β) {ss : List Span} (h : Writes t ss u) :
    Writes (t.map f) ss (u.map f) := by
  induction h with
  | nil => exact .nil
  | @cons t t' u s v ss hset _ ih =>
    refine .cons (v := f v) ?_ ih
    rw [set_map, hset]

/-- **A table of parts** is filled as often as the whole. -/
theorem FilledOnce.map (f : α → β) {n : Nat} (h : t.FilledOnce n) : (t.map f).FilledOnce n where
  writes := by
    obtain ⟨order, hwrites, hcount⟩ := h.writes
    have hmap := hwrites.map f
    rw [map_empty] at hmap
    exact ⟨order, hmap, hcount⟩
  filled := by
    intro s hs
    rw [isFilled_map]
    exact h.filled s hs

/-! ## Fills -/

theorem splits_map (f : α → β) (t : Table α) (s : Span) :
    (t.map f).splits s = (t.splits s).map (List.map (Split.map f)) := by
  refine mapM_map_eq (Split.map f) (fun k => ?_) _
  rw [get_map, get_map]
  cases t.get ⟨s.start, k⟩ with
  | error e => rfl
  | ok l => cases t.get ⟨k, s.stop⟩ <;> rfl

/-- A fill commutes with a function if its steps do. -/
theorem fillInOrder_map {σ τ : Type} (h : σ → τ) {size : σ → Nat} {size' : τ → Nat}
    {word : σ → String × Nat → Except Fault σ} {word' : τ → String × Nat → Except Fault τ}
    {span : σ → Span → Except Fault σ} {span' : τ → Span → Except Fault τ}
    (hsize : ∀ t, size' (h t) = size t) (hword : ∀ t w, word' (h t) w = (word t w).map h)
    (hspan : ∀ t s, span' (h t) s = (span t s).map h) (words : List String) (t : σ) :
    fillInOrder size' word' span' words (h t) = (fillInOrder size word span words t).map h := by
  have hlength : ∀ t length, fillLength size' span' (h t) length =
      (fillLength size span t length).map h := by
    intro t length
    rw [fillLength, fillLength, hsize]
    exact foldlM_map_eq h hspan _ t
  rw [fillInOrder, fillInOrder, foldlM_map_eq h hword]
  cases words.zipIdx.foldlM word t with
  | error e => rfl
  | ok t' => exact foldlM_map_eq h hlength _ t'

end Operations

end ChartParsing.Table
