import ChartParsing.Proofs.Table.Place

/-!
# A table as a map on spans

A table that has one cell for each of its places is `Shaped`; every table starts out so and stays
so.  A shaped table is a partial map on the spans of its sentence, `value?`, and the operations
are those of a map that is written once.

* `set_snd_of_error`: a write that fails has not changed the table.
* `get_eq`, `set_eq`: what comes of reading and of writing.
* `get_eq_ok_iff`: reading gives the value of the span.
* `set_eq_ok`: writing where there is no value gives a value to this span and changes no other.
* `value?_empty`: at first no span has a value.
-/

namespace ChartParsing.Table

variable {α : Type}

/-! ## One cell -/

section Cell

variable {t u : Table α} {s : Span} {v : α}

theorem get_of_place_ok {k : Fin t.cells.size} (h : t.place s = .ok k) :
    t.get s = (t.cell k).elim (.error (.unfilled s)) .ok := by
  rw [get, h]
  simp only [bind, Except.bind]
  cases t.cell k <;> rfl

theorem set_of_place_error {e : Fault} (h : t.place s = .error e) (v : α) :
    t.set s v = (.error e, t) := by
  show (StateT.run (ExceptT.run (liftM (t.place s) >>= fun _ => _)) t : Id _).run = _
  rw [h]
  rfl

theorem set_of_place_ok {k : Fin t.cells.size} (h : t.place s = .ok k) (v : α) :
    t.set s v = if (t.cell k).isSome then (.error (.writtenTwice s), t)
      else (.ok (), t.withCell k v) := by
  show (StateT.run (ExceptT.run (liftM (t.place s) >>= fun k => ite (t.cell k).isSome _ _)) t :
    Id _).run = _
  rw [h]
  show (StateT.run (ExceptT.run (ite (t.cell k).isSome _ _)) t : Id _).run = _
  split <;> rfl

/-- A write that succeeds has found its cell empty. -/
theorem exists_place_of_set (h : t.set s v = (.ok (), u)) :
    ∃ k : Fin t.cells.size, (t.cell k).isSome = false ∧ u = t.withCell k v := by
  cases hk : t.place s with
  | error e =>
    rw [set_of_place_error hk] at h
    exact absurd (Prod.mk.inj h).1 (by simp)
  | ok k =>
    rw [set_of_place_ok hk] at h
    split at h
    · exact absurd (Prod.mk.inj h).1 (by simp)
    · rename_i hfree
      exact ⟨k, Bool.eq_false_iff.mpr hfree, (Prod.mk.inj h).2.symm⟩

/-- **A write that fails has not changed the table**: all checks come before the change. -/
theorem set_snd_of_error {e : Fault} (h : (t.set s v).1 = .error e) : (t.set s v).2 = t := by
  cases hk : t.place s with
  | error e => rw [set_of_place_error hk]
  | ok k =>
    rw [set_of_place_ok hk] at h ⊢
    split at h
    · rename_i hfull
      rw [if_pos hfull]
    · exact absurd h (by simp)

theorem put_eq_ok_iff : t.put s v = .ok u ↔ t.set s v = (.ok (), u) := by
  rw [put]
  cases t.set s v with
  | mk outcome t' =>
    cases outcome with
    | error e => simp [bind, Except.bind]
    | ok x => simp [bind, Except.bind, pure, Except.pure]

end Cell

/-! ## All spans -/

/-- The number of words is small enough and each place has a cell. -/
structure Shaped (t : Table α) : Prop where
  fits : Fits t.size
  cells_size : t.cells.size = cellCount t.size

/-- The value written for a span, if there is one. -/
def value? (t : Table α) (s : Span) : Option α :=
  t.cells[slot t.size s.start s.stop]?.join

theorem shaped_empty {n : Nat} (h : Fits n) : (empty n : Table α).Shaped where
  fits := h
  cells_size := by rw [empty, Array.size_replicate, toNat_cellCount h]

theorem value?_empty (n : Nat) (s : Span) : (empty n : Table α).value? s = none := by
  rw [value?, empty, Array.getElem?_replicate]
  split <;> rfl

/-- **Every span of the sentence has its place.** -/
theorem place_eq_ok {t : Table α} (ht : t.Shaped) {s : Span} (hs : s.Within t.size) :
    ∃ h : slot t.size s.start s.stop < t.cells.size,
      t.place s = .ok ⟨slot t.size s.start s.stop, h⟩ := by
  have hlt : slot t.size s.start s.stop < t.cells.size := by
    rw [ht.cells_size]
    exact slot_lt_cellCount hs.1 hs.2
  refine ⟨hlt, ?_⟩
  have hplace := toNat_slot ht.fits hs.1 hs.2
  rw [place, if_pos (show s.start < s.stop ∧ s.stop ≤ t.size from hs)]
  simp only [hplace, dif_pos hlt]

theorem value?_eq_cell {t : Table α} {s : Span}
    (h : slot t.size s.start s.stop < t.cells.size) :
    t.value? s = t.cell ⟨slot t.size s.start s.stop, h⟩ := by
  rw [value?, Array.getElem?_eq_getElem h]
  rfl

/-- Reading gives the value of the span, if it has one. -/
theorem get_eq {t : Table α} (ht : t.Shaped) {s : Span} (hs : s.Within t.size) :
    t.get s = (t.value? s).elim (.error (.unfilled s)) .ok := by
  obtain ⟨hlt, hplace⟩ := place_eq_ok ht hs
  rw [get_of_place_ok hplace, value?_eq_cell hlt]

theorem get_eq_ok_iff {t : Table α} (ht : t.Shaped) {s : Span} (hs : s.Within t.size) {v : α} :
    t.get s = .ok v ↔ t.value? s = some v := by
  rw [get_eq ht hs]
  cases t.value? s with
  | none => simp
  | some w => simp

/-- Writing fails if the span has a value. -/
theorem set_eq {t : Table α} (ht : t.Shaped) {s : Span} (hs : s.Within t.size) (v : α) :
    ∃ h : slot t.size s.start s.stop < t.cells.size,
      t.set s v = if (t.value? s).isSome then (.error (.writtenTwice s), t)
        else (.ok (), t.withCell ⟨slot t.size s.start s.stop, h⟩ v) := by
  obtain ⟨hlt, hplace⟩ := place_eq_ok ht hs
  refine ⟨hlt, ?_⟩
  rw [set_of_place_ok hplace, value?_eq_cell hlt]

/-- **Writing where nothing is written** gives the span its value and leaves the others. -/
theorem set_eq_ok {t : Table α} (ht : t.Shaped) {s : Span} (hs : s.Within t.size) (v : α)
    (hnone : t.value? s = none) :
    ∃ t', t.set s v = (.ok (), t') ∧ t'.Shaped ∧ t'.size = t.size ∧
      ∀ s' : Span, s'.Within t.size → t'.value? s' = if s' = s then some v else t.value? s' := by
  obtain ⟨hlt, hset⟩ := set_eq ht hs v
  rw [hnone] at hset
  refine ⟨_, hset, ⟨ht.fits, ?_⟩, rfl, ?_⟩
  · exact (Array.size_set hlt).trans ht.cells_size
  · intro s' hs'
    simp only [value?, withCell]
    rw [Array.getElem?_set]
    by_cases hslot : slot t.size s.start s.stop = slot t.size s'.start s'.stop
    · obtain ⟨hstart, hstop⟩ := slot_injective hs.1 hs.2 hs'.1 hs'.2 hslot
      have heq : s' = s := by
        cases s
        cases s'
        simp_all
      rw [if_pos hslot, if_pos heq]
      rfl
    · have hne : s' ≠ s := fun h => hslot (by rw [h])
      rw [if_neg hslot, if_neg hne]

end ChartParsing.Table
