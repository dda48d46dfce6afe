import ChartParsing.Proofs.Table.Store
import ChartParsing.Table.Fill

/-!
# What the fill computes

A table is filled in the order of the lengths of the spans.  What it holds in the end does not
depend on tables: `byParts` defines the value of a span by recursion, from the word of a short span
and from the values of the two parts of each split of a longer one.

* `byParts_word`, `byParts_of_lt`: the two equations of the recursion.
* `byParts_shifted`, `byParts_related`: a relation between two recursions carries over from the
  steps to every span, also between two sentences.
* `fill_eq_ok`: filling succeeds, and each cell holds the value by the recursion.

The invariant is `FilledOn written`: the cells of the spans in `written` hold their values and the
other cells are empty.  A cell is written once all shorter spans are in `written`, so both reads of
each split succeed.
-/

namespace ChartParsing.Table

variable {α : Type}

/-- The value of a span by recursion on its length. -/
def byParts (ofWord : String → α) (ofSplits : List (Split α) → α) (words : List String)
    (s : Span) : α :=
  if s.length ≤ 1 then ofWord (words.getD s.start "")
  else ofSplits <| (List.range' (s.start + 1) (s.length - 1)).attach.map fun k =>
    ⟨k.1, byParts ofWord ofSplits words ⟨s.start, k.1⟩,
      byParts ofWord ofSplits words ⟨k.1, s.stop⟩⟩
termination_by s.length
decreasing_by
  all_goals
    have hk := List.mem_range'_1.mp k.2
    simp only [Span.length] at *
    omega

section Fill

variable {ofWord : String → α} {ofSplits : List (Split α) → α} {words : List String}

theorem byParts_word {i : Nat} (h : i < words.length) :
    byParts ofWord ofSplits words ⟨i, i + 1⟩ = ofWord words[i] := by
  rw [byParts, if_pos (by simp only [Span.length]; omega)]
  simp [h]

theorem byParts_of_lt {i j : Nat} (h : i + 1 < j) :
    byParts ofWord ofSplits words ⟨i, j⟩ =
      ofSplits ((List.range' (i + 1) (j - i - 1)).map fun k =>
        ⟨k, byParts ofWord ofSplits words ⟨i, k⟩, byParts ofWord ofSplits words ⟨k, j⟩⟩) := by
  rw [byParts, if_neg (by simp only [Span.length]; omega)]
  simp only [Span.length]
  congr 1
  exact List.attach_map_val (f := fun k : Nat =>
    (⟨k, byParts ofWord ofSplits words ⟨i, k⟩, byParts ofWord ofSplits words ⟨k, j⟩⟩ : Split α))

/-- Two recursions whose steps respect a relation give related values to a span of one sentence and
to the span of another one that lies `d` words further on. -/
theorem byParts_shifted {β : Type} {ofWord' : String → β} {ofSplits' : List (Split β) → β}
    {words' : List String} (R : α → β → Prop) (d : Nat) {i j : Nat}
    (hword : ∀ k, i ≤ k → k < j ∨ k = i →
      R (ofWord (words.getD k "")) (ofWord' (words'.getD (k + d) "")))
    (hsplits : ∀ (ks : List Nat) (l r : Nat → α) (l' r' : Nat → β),
      (∀ k ∈ ks, R (l k) (l' k) ∧ R (r k) (r' k)) →
        R (ofSplits (ks.map fun k => ⟨k, l k, r k⟩))
          (ofSplits' (ks.map fun k => ⟨k + d, l' k, r' k⟩))) :
    R (byParts ofWord ofSplits words ⟨i, j⟩)
      (byParts ofWord' ofSplits' words' ⟨i + d, j + d⟩) := by
  obtain ⟨n, hn⟩ : ∃ n, j - i = n := ⟨_, rfl⟩
  induction n using Nat.strongRecOn generalizing i j with
  | ind n ih =>
    by_cases hlong : i + 1 < j
    · have hpositions : List.range' (i + d + 1) (j + d - (i + d) - 1) =
          (List.range' (i + 1) (j - i - 1)).map (· + d) := by
        have hcomm : (· + d) = (d + · : Nat → Nat) := funext fun k => Nat.add_comm k d
        rw [hcomm, List.map_add_range']
        congr 1 <;> omega
      rw [byParts_of_lt hlong, byParts_of_lt (by omega), hpositions, List.map_map]
      refine hsplits _ _ _ (fun k => byParts ofWord' ofSplits' words' ⟨i + d, k + d⟩)
        (fun k => byParts ofWord' ofSplits' words' ⟨k + d, j + d⟩) ?_
      intro k hk
      have hbetween := List.mem_range'_1.mp hk
      exact ⟨ih (k - i) (by omega) (fun m hm hor => hword m hm (by omega)) rfl,
        ih (j - k) (by omega) (fun m hm hor => hword m (by omega) (by omega)) rfl⟩
    · have hshort : Span.length ⟨i, j⟩ ≤ 1 := by
        simp only [Span.length]
        omega
      have hshort' : Span.length ⟨i + d, j + d⟩ ≤ 1 := by
        simp only [Span.length]
        omega
      rw [byParts, if_pos hshort, byParts, if_pos hshort']
      exact hword i (Nat.le_refl i) (.inr rfl)

/-- Two recursions whose steps respect a relation give related values to every span. -/
theorem byParts_related {β : Type} {ofWord' : String → β} {ofSplits' : List (Split β) → β}
    (R : α → β → Prop) (hword : ∀ w, R (ofWord w) (ofWord' w))
    (hsplits : ∀ (ks : List Nat) (l r : Nat → α) (l' r' : Nat → β),
      (∀ k ∈ ks, R (l k) (l' k) ∧ R (r k) (r' k)) →
        R (ofSplits (ks.map fun k => ⟨k, l k, r k⟩)) (ofSplits' (ks.map fun k => ⟨k, l' k, r' k⟩)))
    (s : Span) : R (byParts ofWord ofSplits words s) (byParts ofWord' ofSplits' words s) :=
  byParts_shifted R 0 (fun k _ _ => hword (words.getD k "")) hsplits

/-- The cells of the spans in `written` hold their values, and no other cell is written. -/
structure FilledOn (ofWord : String → α) (ofSplits : List (Split α) → α) (words : List String)
    (written : Span → Prop) (t : Table α) : Prop where
  shaped : t.Shaped
  size_eq : t.size = words.length
  value : ∀ s : Span, s.Within words.length → written s →
    t.value? s = some (byParts ofWord ofSplits words s)
  free : ∀ s : Span, s.Within words.length → ¬ written s → t.value? s = none

/-- Only the spans of the sentence matter. -/
theorem FilledOn.congr {written after : Span → Prop} {t : Table α}
    (h : FilledOn ofWord ofSplits words written t)
    (hafter : ∀ s : Span, s.Within words.length → (after s ↔ written s)) :
    FilledOn ofWord ofSplits words after t where
  shaped := h.shaped
  size_eq := h.size_eq
  value := by
    intro s hs ha
    exact h.value s hs ((hafter s hs).mp ha)
  free := by
    intro s hs ha
    exact h.free s hs fun hw => ha ((hafter s hs).mpr hw)

theorem FilledOn.get_eq {written : Span → Prop} {t : Table α}
    (h : FilledOn ofWord ofSplits words written t) {s : Span} (hs : s.Within words.length)
    (hw : written s) : t.get s = .ok (byParts ofWord ofSplits words s) :=
  (get_eq_ok_iff h.shaped (h.size_eq.symm ▸ hs)).mpr (h.value s hs hw)

/-- **One write adds one span.** -/
theorem FilledOn.put {written : Span → Prop} {t : Table α}
    (h : FilledOn ofWord ofSplits words written t) {s : Span} (hs : s.Within words.length)
    (hw : ¬ written s) (after : Span → Prop) (hafter : ∀ s', after s' ↔ written s' ∨ s' = s) :
    ∃ t', t.put s (byParts ofWord ofSplits words s) = .ok t' ∧
      FilledOn ofWord ofSplits words after t' := by
  obtain ⟨t', hset, hshaped, hsize, hvalue⟩ :=
    set_eq_ok h.shaped (h.size_eq.symm ▸ hs) (byParts ofWord ofSplits words s) (h.free s hs hw)
  refine ⟨t', put_eq_ok_iff.mpr hset, hshaped, hsize.trans h.size_eq, ?_, ?_⟩
  · intro s' hs' ha
    rw [hvalue s' (h.size_eq.symm ▸ hs')]
    by_cases heq : s' = s
    · rw [if_pos heq, heq]
    · rw [if_neg heq]
      exact h.value s' hs' (((hafter s').mp ha).resolve_right heq)
  · intro s' hs' ha
    have hne : ¬ (written s' ∨ s' = s) := fun hor => ha ((hafter s').mpr hor)
    rw [hvalue s' (h.size_eq.symm ▸ hs'), if_neg fun heq => hne (.inr heq)]
    exact h.free s' hs' fun hwr => hne (.inl hwr)

/-- Where all shorter spans are written, a longer span can be split. -/
theorem FilledOn.fillSpan {written : Span → Prop} {t : Table α}
    (h : FilledOn ofWord ofSplits words written t) {i j : Nat} (hij : i + 1 < j)
    (hj : j ≤ words.length) (hshort : ∀ s : Span, s.length < j - i → written s)
    (hw : ¬ written ⟨i, j⟩) (after : Span → Prop)
    (hafter : ∀ s', after s' ↔ written s' ∨ s' = ⟨i, j⟩) :
    ∃ t', t.fillSpan ofSplits ⟨i, j⟩ = .ok t' ∧ FilledOn ofWord ofSplits words after t' := by
  have hsplits : t.splits ⟨i, j⟩ = .ok ((List.range' (i + 1) (j - i - 1)).map fun k =>
      ⟨k, byParts ofWord ofSplits words ⟨i, k⟩, byParts ofWord ofSplits words ⟨k, j⟩⟩) := by
    refine mapM_eq_ok ?_
    intro k hk
    have hbetween : i < k ∧ k < j := by
      have := List.mem_range'_1.mp hk
      simp only [Span.length] at this
      omega
    obtain ⟨hik, hkj⟩ := hbetween
    have hleft : t.get ⟨i, k⟩ = _ :=
      h.get_eq ⟨hik, Nat.le_trans (Nat.le_of_lt hkj) hj⟩
        (hshort _ (by simp only [Span.length]; omega))
    have hright : t.get ⟨k, j⟩ = _ :=
      h.get_eq ⟨hkj, hj⟩ (hshort _ (by simp only [Span.length]; omega))
    exact bind_eq_ok.2 ⟨_, hleft, bind_eq_ok.2 ⟨_, hright, rfl⟩⟩
  have hwithin : Span.Within ⟨i, j⟩ words.length := ⟨Nat.lt_of_succ_lt hij, hj⟩
  obtain ⟨t', hput, hfilled⟩ := h.put hwithin hw after hafter
  rw [byParts_of_lt hij] at hput
  exact ⟨t', bind_eq_ok.2 ⟨_, hsplits, hput⟩, hfilled⟩

/-! ## Loops -/

/-- The spans of the words before position `i`. -/
def WordBefore (i : Nat) (s : Span) : Prop :=
  s.stop = s.start + 1 ∧ s.start < i

/-- The spans shorter than `length`, and those of this length that start before `i`. -/
def ShorterOrBefore (length i : Nat) (s : Span) : Prop :=
  s.length < length ∨ s.length = length ∧ s.start < i

theorem fillWords_eq_ok (hn : Fits words.length) :
    ∃ t, words.zipIdx.foldlM (fillWord ofWord) (empty words.length) = .ok t ∧
      FilledOn ofWord ofSplits words (WordBefore words.length) t := by
  have hstart : FilledOn ofWord ofSplits words (WordBefore 0) (empty words.length) :=
    ⟨shaped_empty hn, rfl, fun s _ h => absurd h.2 (Nat.not_lt_zero _),
      fun s _ _ => value?_empty _ _⟩
  have hstep : ∀ i (hi : i < words.zipIdx.length) t,
      FilledOn ofWord ofSplits words (WordBefore i) t →
        ∃ t', fillWord ofWord t words.zipIdx[i] = .ok t' ∧
          FilledOn ofWord ofSplits words (WordBefore (i + 1)) t' := by
    intro i hi t h
    have hi' : i < words.length := by simpa using hi
    have hnew : ¬ WordBefore i ⟨i, i + 1⟩ := fun hw => Nat.lt_irrefl i hw.2
    have hafter : ∀ s, WordBefore (i + 1) s ↔ WordBefore i s ∨ s = ⟨i, i + 1⟩ := by
      intro s
      cases s
      simp only [WordBefore, Span.mk.injEq]
      omega
    have hwithin : Span.Within ⟨i, i + 1⟩ words.length := ⟨Nat.lt_succ_self i, hi'⟩
    obtain ⟨t', hput, hfilled⟩ := h.put hwithin hnew _ hafter
    rw [byParts_word hi'] at hput
    exact ⟨t', by simpa [fillWord] using hput, hfilled⟩
  obtain ⟨t, ht, hfilled⟩ := foldlM_eq_ok _ hstep hstart
  exact ⟨t, ht, by simpa using hfilled⟩

theorem fillLength_eq_ok {t : Table α} {length : Nat} (hlength : 2 ≤ length)
    (hle : length ≤ words.length)
    (h : FilledOn ofWord ofSplits words (fun s => s.length < length) t) :
    ∃ t', fillLength size (fillSpan ofSplits) t length = .ok t' ∧
      FilledOn ofWord ofSplits words (fun s => s.length < length + 1) t' := by
  have hspans : spansOfLength t.size length =
      (List.range (words.length - length + 1)).map fun i => ⟨i, i + length⟩ := by
    rw [spansOfLength, if_neg (by rw [h.size_eq]; omega), h.size_eq]
  have hstart : FilledOn ofWord ofSplits words (ShorterOrBefore length 0) t :=
    h.congr fun s _ => by simp [ShorterOrBefore]
  have hstep : ∀ i (hi : i < ((List.range (words.length - length + 1)).map fun i =>
      (⟨i, i + length⟩ : Span)).length) t,
        FilledOn ofWord ofSplits words (ShorterOrBefore length i) t →
          ∃ t', fillSpan ofSplits t ((List.range (words.length - length + 1)).map fun i =>
            (⟨i, i + length⟩ : Span))[i] = .ok t' ∧
              FilledOn ofWord ofSplits words (ShorterOrBefore length (i + 1)) t' := by
    intro i hi t h
    have hi' : i < words.length - length + 1 := by simpa using hi
    have hnew : ¬ ShorterOrBefore length i ⟨i, i + length⟩ := by
      simp only [ShorterOrBefore, Span.length]
      omega
    have hafter : ∀ s, ShorterOrBefore length (i + 1) s ↔
        ShorterOrBefore length i s ∨ s = ⟨i, i + length⟩ := by
      intro s
      cases s
      simp only [ShorterOrBefore, Span.length, Span.mk.injEq]
      omega
    obtain ⟨t', hspan, hfilled⟩ := h.fillSpan (i := i) (j := i + length) (by omega) (by omega)
      (fun s hs => .inl (by omega)) hnew _ hafter
    exact ⟨t', by simpa using hspan, hfilled⟩
  obtain ⟨t', ht', hfilled⟩ := foldlM_eq_ok _ hstep hstart
  refine ⟨t', by rw [fillLength, hspans]; exact ht', hfilled.congr fun s hs => ?_⟩
  simp only [Span.Within, ShorterOrBefore, Span.length, List.length_map, List.length_range] at *
  omega

variable (ofWord ofSplits) in
/-- **The fill computes the recursion**: it succeeds, and every cell of the triangle holds the value
that the recursion gives its span. -/
theorem fill_eq_ok (hn : Fits words.length) :
    ∃ t, fill ofWord ofSplits words = .ok t ∧ t.size = words.length ∧
      ∀ s : Span, s.Within words.length → t.get s = .ok (byParts ofWord ofSplits words s) := by
  obtain ⟨t, ht, hwords⟩ : ∃ t, words.zipIdx.foldlM (fillWord ofWord) (empty words.length) = .ok t ∧
      FilledOn ofWord ofSplits words (WordBefore words.length) t := fillWords_eq_ok hn
  have hstart : FilledOn ofWord ofSplits words (fun s => s.length < 0 + 2) t := by
    refine hwords.congr fun s hs => ?_
    simp only [Span.Within, WordBefore, Span.length] at *
    omega
  have hstep : ∀ i (hi : i < (List.range' 2 (words.length - 1)).length) t,
      FilledOn ofWord ofSplits words (fun s => s.length < i + 2) t →
        ∃ t', fillLength size (fillSpan ofSplits) t (List.range' 2 (words.length - 1))[i] = .ok t' ∧
          FilledOn ofWord ofSplits words (fun s => s.length < i + 1 + 2) t' := by
    intro i hi t h
    have hi' : i < words.length - 1 := by simpa using hi
    obtain ⟨t', hlength, hfilled⟩ := fillLength_eq_ok (by omega) (by omega) h
    refine ⟨t', ?_, by simpa [Nat.add_right_comm] using hfilled⟩
    simpa [Nat.add_comm] using hlength
  obtain ⟨t', ht', hfilled⟩ := foldlM_eq_ok
    (fun i => FilledOn ofWord ofSplits words (fun s => s.length < i + 2)) hstep hstart
  refine ⟨t', bind_eq_ok.2 ⟨t, ht, ht'⟩, hfilled.size_eq, fun s hs => hfilled.get_eq hs ?_⟩
  have hwithin := hs
  simp only [Span.Within, Span.length, List.length_range'] at *
  omega

end Fill

end ChartParsing.Table
