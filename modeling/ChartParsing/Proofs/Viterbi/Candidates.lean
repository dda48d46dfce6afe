import ChartParsing.Proofs.Binary64.UnitInterval
import ChartParsing.Viterbi

/-!
# The best candidate of each symbol

A cell is made by offering it one candidate after the other.  It keeps two maps, and a candidate is
compared with the map of scores alone.  That both maps have the same symbols, so that a score and a
backpointer of one symbol belong to one candidate, is the invariant `InStep`.  Then the entry of a
symbol depends on the candidates for this symbol alone: it is the first of those with the greatest
score.

* `inStep_offer`, `inStep_ofCandidates`: the maps stay in step.
* `find?_ofCandidates`: the entry of a symbol is the best of its candidates.
* `mem_scores_ofCandidates`: a symbol is in the cell just when it has a candidate.
* `foldl_record`: to record candidates for different symbols, there is nothing to compare.
* `isFirstBest_of_best_eq_some`: the best candidate is the first of those with the greatest score.
-/

namespace ChartParsing.Cell

open Binary64

/-! ## Two maps in step -/

/-- The derivation of a symbol, if both maps tell of one. -/
def find? (cell : Cell) (s : Symbol) : Option Entry := do
  let score ← cell.scores[s]?
  let back ← cell.back[s]?
  return ⟨score, back⟩

/-- Both maps have the same symbols. -/
def InStep (cell : Cell) : Prop :=
  ∀ s : Symbol, cell.scores[s]?.isSome = cell.back[s]?.isSome

section InStep

variable {cell : Cell}

theorem InStep.scores_eq (h : cell.InStep) (s : Symbol) :
    cell.scores[s]? = (cell.find? s).map Entry.score := by
  have hs := h s
  rw [find?]
  cases hscore : cell.scores[s]? with
  | none => rfl
  | some m =>
    cases hback : cell.back[s]? with
    | none => simp [hscore, hback] at hs
    | some b => rfl

theorem InStep.back_eq (h : cell.InStep) (s : Symbol) :
    cell.back[s]? = (cell.find? s).map Entry.back := by
  have hs := h s
  rw [find?]
  cases hscore : cell.scores[s]? with
  | none =>
    rw [hscore] at hs
    exact Option.isNone_iff_eq_none.mp (Option.isSome_eq_false_iff.mp hs.symm)
  | some m => cases hback : cell.back[s]? <;> rfl

theorem InStep.mem_scores_iff (h : cell.InStep) {s : Symbol} :
    s ∈ cell.scores ↔ ∃ e, cell.find? s = some e := by
  rw [Std.TreeMap.mem_iff_isSome_getElem?, h.scores_eq, Option.isSome_map,
    Option.isSome_iff_exists]

theorem InStep.mem_back_iff (h : cell.InStep) {s : Symbol} :
    s ∈ cell.back ↔ s ∈ cell.scores := by
  rw [Std.TreeMap.mem_iff_isSome_getElem?, Std.TreeMap.mem_iff_isSome_getElem?, h s]

theorem getElem?_insert_symbol {α : Type} (m : Std.TreeMap Symbol α) (a s : Symbol) (v : α) :
    (m.insert a v)[s]? = if a = s then some v else m[s]? := by
  rw [Std.TreeMap.getElem?_insert]
  exact if_congr Std.LawfulEqCmp.compare_eq_iff_eq rfl rfl

theorem scores_record (cell : Cell) (a s : Symbol) (e : Entry) :
    (cell.record a e).scores[s]? = if a = s then some e.score else cell.scores[s]? :=
  getElem?_insert_symbol cell.scores a s e.score

theorem back_record (cell : Cell) (a s : Symbol) (e : Entry) :
    (cell.record a e).back[s]? = if a = s then some e.back else cell.back[s]? :=
  getElem?_insert_symbol cell.back a s e.back

theorem inStep_empty : empty.InStep := by
  intro s
  simp [empty]

/-- **A derivation is recorded in both maps.** -/
theorem inStep_record (h : cell.InStep) (a : Symbol) (e : Entry) : (cell.record a e).InStep := by
  intro s
  rw [scores_record, back_record]
  split
  · rfl
  · exact h s

theorem inStep_offer (h : cell.InStep) (c : Symbol × Entry) : (cell.offer c).InStep := by
  rw [offer]
  split
  · exact inStep_record h c.1 c.2
  · exact h

theorem find?_record (cell : Cell) (a s : Symbol) (e : Entry) :
    (cell.record a e).find? s = if a = s then some e else cell.find? s := by
  rw [find?, scores_record, back_record]
  split <;> rfl

end InStep

/-! ## Candidates -/

/-- A candidate replaces what is kept if its score is greater, or if nothing is kept. -/
def keep (kept : Option Entry) (e : Entry) : Option Entry :=
  match kept with
  | none => some e
  | some best => if best.score < e.score then some e else some best

/-- The first of the entries with the greatest score. -/
def best (entries : List Entry) : Option Entry :=
  entries.foldl keep none

/-- The candidates for a symbol, in their order. -/
def candidatesFor (s : Symbol) (candidates : List (Symbol × Entry)) : List Entry :=
  (candidates.filter fun c => c.1 = s).map Prod.snd

/-! ## One symbol at a time -/

theorem candidatesFor_cons (s : Symbol) (c : Symbol × Entry) (cs : List (Symbol × Entry)) :
    candidatesFor s (c :: cs) =
      if c.1 = s then c.2 :: candidatesFor s cs else candidatesFor s cs := by
  rw [candidatesFor, List.filter_cons]
  by_cases hs : c.1 = s
  · rw [if_pos hs, if_pos (by simpa using hs)]
    rfl
  · rw [if_neg hs, if_neg (by simpa using hs)]
    rfl

/-- A candidate is compared with the score alone, and that is the score of the entry. -/
theorem find?_offer {cell : Cell} (h : cell.InStep) (c : Symbol × Entry) (s : Symbol) :
    (cell.offer c).find? s = if c.1 = s then keep (cell.find? s) c.2 else cell.find? s := by
  rw [offer]
  by_cases hs : c.1 = s
  · subst hs
    rw [if_pos rfl, h.scores_eq]
    cases hkept : cell.find? c.1 with
    | none =>
      show (cell.record c.1 c.2).find? c.1 = some c.2
      rw [find?_record, if_pos rfl]
    | some kept =>
      rw [keep]
      by_cases hlt : kept.score < c.2.score
      · rw [if_pos (by simpa using hlt), if_pos hlt, find?_record, if_pos rfl]
      · rw [if_neg (by simpa using hlt), if_neg hlt, hkept]
  · rw [if_neg hs]
    split
    · rw [find?_record, if_neg hs]
    · rfl

/-- **The maps stay in step**, and the entry of a symbol is the best of its candidates. -/
theorem foldl_offer {cell : Cell} (h : cell.InStep) (cs : List (Symbol × Entry)) :
    (cs.foldl offer cell).InStep ∧
      ∀ s, (cs.foldl offer cell).find? s = (candidatesFor s cs).foldl keep (cell.find? s) := by
  induction cs generalizing cell with
  | nil => exact ⟨h, fun _ => rfl⟩
  | cons c cs ih =>
    obtain ⟨hstep, hentry⟩ := ih (inStep_offer h c)
    refine ⟨hstep, fun s => ?_⟩
    rw [List.foldl_cons, hentry, find?_offer h, candidatesFor_cons]
    split <;> rfl

theorem inStep_ofCandidates (candidates : List (Symbol × Entry)) :
    (ofCandidates candidates).InStep :=
  (foldl_offer inStep_empty candidates).1

/-- **The entry of a symbol** is the best of its candidates. -/
theorem find?_ofCandidates (candidates : List (Symbol × Entry)) (s : Symbol) :
    (ofCandidates candidates).find? s = best (candidatesFor s candidates) :=
  (foldl_offer inStep_empty candidates).2 s

/-- **To record candidates for different symbols**, none of which has an entry, is the same as to
offer them. -/
theorem foldl_record {cs : List (Symbol × Entry)} (hcs : (cs.map Prod.fst).Nodup) {cell : Cell}
    (hfree : ∀ c ∈ cs, cell.scores[c.1]? = none) :
    cs.foldl (fun cell c => cell.record c.1 c.2) cell = cs.foldl offer cell := by
  induction cs generalizing cell with
  | nil => rfl
  | cons c cs ih =>
    rw [List.map_cons, List.nodup_cons] at hcs
    have hoffer : cell.offer c = cell.record c.1 c.2 := by
      rw [offer, hfree c List.mem_cons_self]
      rfl
    rw [List.foldl_cons, List.foldl_cons, hoffer]
    refine ih hcs.2 fun d hd => ?_
    have hne : c.1 ≠ d.1 := fun heq => hcs.1 (heq ▸ List.mem_map_of_mem hd)
    rw [scores_record, if_neg hne]
    exact hfree d (List.mem_cons_of_mem c hd)

theorem mem_candidatesFor {s : Symbol} {e : Entry} {candidates : List (Symbol × Entry)} :
    e ∈ candidatesFor s candidates ↔ (s, e) ∈ candidates := by
  rw [candidatesFor, List.mem_map]
  constructor
  · rintro ⟨⟨s', e'⟩, hmem, rfl⟩
    obtain ⟨hc, hs⟩ := List.mem_filter.mp hmem
    obtain rfl : s' = s := of_decide_eq_true hs
    exact hc
  · intro h
    exact ⟨(s, e), List.mem_filter.mpr ⟨h, by simp⟩, rfl⟩

/-! ## The best of a list -/

theorem keep_eq_some (kept : Option Entry) (e : Entry) :
    ∃ b, keep kept e = some b ∧ (b = e ∨ kept = some b) := by
  cases kept with
  | none => exact ⟨e, rfl, .inl rfl⟩
  | some k =>
    rw [keep]
    split
    · exact ⟨e, rfl, .inl rfl⟩
    · exact ⟨k, rfl, .inr rfl⟩

theorem foldl_keep_some (es : List Entry) (k : Entry) :
    ∃ b, es.foldl keep (some k) = some b ∧ (b = k ∨ b ∈ es) := by
  induction es generalizing k with
  | nil => exact ⟨k, rfl, .inl rfl⟩
  | cons e es ih =>
    obtain ⟨b, hb, hor⟩ := keep_eq_some (some k) e
    obtain ⟨b', hb', hor'⟩ := ih b
    rw [List.foldl_cons, hb]
    refine ⟨b', hb', ?_⟩
    rcases hor' with rfl | hmem
    · rcases hor with rfl | hk
      · exact .inr List.mem_cons_self
      · exact .inl (Option.some.inj hk).symm
    · exact .inr (List.mem_cons_of_mem e hmem)

/-- A list with an entry has a best one. -/
theorem exists_best {es : List Entry} {e : Entry} (h : e ∈ es) : ∃ b, best es = some b := by
  cases es with
  | nil => exact absurd h List.not_mem_nil
  | cons a es =>
    obtain ⟨b, hb, -⟩ := foldl_keep_some es a
    exact ⟨b, hb⟩

theorem mem_of_best_eq_some {es : List Entry} {b : Entry} (h : best es = some b) : b ∈ es := by
  cases es with
  | nil => exact absurd h (by simp [best])
  | cons a es =>
    obtain ⟨b', hb', hor⟩ := foldl_keep_some es a
    obtain rfl : b = b' := Option.some.inj (h.symm.trans hb')
    rcases hor with rfl | hmem
    · exact List.mem_cons_self
    · exact List.mem_cons_of_mem a hmem

/-- **The symbols of a cell** are those of its candidates. -/
theorem mem_scores_ofCandidates {candidates : List (Symbol × Entry)} {s : Symbol} :
    s ∈ (ofCandidates candidates).scores ↔ ∃ e, (s, e) ∈ candidates := by
  rw [(inStep_ofCandidates candidates).mem_scores_iff, find?_ofCandidates]
  constructor
  · rintro ⟨b, hb⟩
    exact ⟨b, mem_candidatesFor.mp (mem_of_best_eq_some hb)⟩
  · rintro ⟨e, he⟩
    exact exists_best (mem_candidatesFor.mpr he)

/-- The entry is the first of those with the greatest score: the scores before it are smaller, and
those after it are not greater. -/
def IsFirstBest (b : Entry) (es : List Entry) : Prop :=
  ∃ before after, es = before ++ b :: after ∧
    (∀ e ∈ before, e.score.toBits.toNat < b.score.toBits.toNat) ∧
      ∀ e ∈ after, e.score.toBits.toNat ≤ b.score.toBits.toNat

/-- What is kept in the end is the first best of what was kept at first and the candidates. -/
theorem isFirstBest_of_foldl_keep :
    ∀ (es : List Entry) (k b : Entry), (∀ e ∈ es, InUnit e.score) → InUnit k.score →
      es.foldl keep (some k) = some b → IsFirstBest b (k :: es) := by
  intro es
  induction es with
  | nil =>
    intro k b _ _ h
    obtain rfl : k = b := Option.some.inj h
    exact ⟨[], [], rfl, by simp, by simp⟩
  | cons a es ih =>
    intro k b hes hk h
    have ha : InUnit a.score := hes a List.mem_cons_self
    have hes' : ∀ e ∈ es, InUnit e.score := fun e he => hes e (List.mem_cons_of_mem a he)
    have hcompare := lt_iff hk.lt_infinityBits ha.lt_infinityBits
    rw [List.foldl_cons, keep] at h
    by_cases hlt : k.score < a.score
    · -- the candidate is kept; what was kept before is smaller than it, so than the best
      rw [if_pos hlt] at h
      have hka := hcompare.mp hlt
      obtain ⟨before, after, hsplit, hbefore, hafter⟩ := ih a b hes' ha h
      have hkb : k.score.toBits.toNat < b.score.toBits.toNat := by
        cases before with
        | nil =>
          obtain ⟨rfl, -⟩ := List.cons.inj hsplit
          exact hka
        | cons a' before =>
          obtain ⟨rfl, -⟩ := List.cons.inj hsplit
          exact Nat.lt_trans hka (hbefore a List.mem_cons_self)
      refine ⟨k :: before, after, by rw [hsplit]; rfl, ?_, hafter⟩
      exact List.forall_mem_cons.mpr ⟨hkb, hbefore⟩
    · -- the candidate is dropped, since it is not greater than what was kept
      rw [if_neg hlt] at h
      have hak := Nat.le_of_not_lt (mt hcompare.mpr hlt)
      obtain ⟨before, after, hsplit, hbefore, hafter⟩ := ih k b hes' hk h
      cases before with
      | nil =>
        obtain ⟨rfl, rfl⟩ := List.cons.inj hsplit
        exact ⟨[], a :: es, rfl, by simp, List.forall_mem_cons.mpr ⟨hak, hafter⟩⟩
      | cons k' before =>
        obtain ⟨rfl, rfl⟩ := List.cons.inj hsplit
        have hkb := hbefore k List.mem_cons_self
        refine ⟨k :: a :: before, after, rfl, ?_, hafter⟩
        refine List.forall_mem_cons.mpr ⟨hkb, List.forall_mem_cons.mpr ⟨?_, ?_⟩⟩
        · exact Nat.lt_of_le_of_lt hak hkb
        · exact fun e he => hbefore e (List.mem_cons_of_mem k he)

/-- **The best is the first of the greatest.** -/
theorem isFirstBest_of_best_eq_some {es : List Entry} {b : Entry}
    (hes : ∀ e ∈ es, InUnit e.score) (h : best es = some b) : IsFirstBest b es := by
  cases es with
  | nil => exact absurd h (by simp [best])
  | cons a es =>
    exact isFirstBest_of_foldl_keep es a b (fun e he => hes e (List.mem_cons_of_mem a he))
      (hes a List.mem_cons_self) h

theorem score_le_of_best_eq_some {es : List Entry} {b : Entry} (hes : ∀ e ∈ es, InUnit e.score)
    (h : best es = some b) {e : Entry} (he : e ∈ es) :
    e.score.toBits.toNat ≤ b.score.toBits.toNat := by
  obtain ⟨before, after, rfl, hbefore, hafter⟩ := isFirstBest_of_best_eq_some hes h
  rcases List.mem_append.mp he with hmem | hmem
  · exact Nat.le_of_lt (hbefore e hmem)
  · rcases List.mem_cons.mp hmem with rfl | hmem
    · exact Nat.le_refl _
    · exact hafter e hmem

end ChartParsing.Cell
