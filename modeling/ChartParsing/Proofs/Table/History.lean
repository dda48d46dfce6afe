import ChartParsing.Proofs.Table.Store

/-!
# A table and the calls on it

A table is used by calls in any order: they write a cell, read one, or ask whether one is written.
What a call answers follows from the successful writes among the calls before it: the table is the
map that these writes make, and no span is written twice.

* `place_outside`, `get_of_value?_eq_none`, `set_of_value?_eq_some`, `isFilled_eq`: every outcome of
  one call.
* `after_of_outcome_eq_error`: a call that fails leaves the table as it is.
* `Recorded`: the cells of a table hold what the successful writes of its history say.
* `Recorded.after`, `Recorded.run`: a call keeps this, and so do all calls one after the other.
* `isWriteOnceMap_run`: what the next call answers after any calls on a new table.
-/

namespace ChartParsing.Table

variable {α : Type}

/-- A use of a table. -/
inductive Call (α : Type) where
  /-- To write a value for a span. -/
  | set (s : Span) (v : α)
  /-- To read the value of a span. -/
  | get (s : Span)
  /-- To ask whether a span has a value. -/
  | isFilled (s : Span)

/-- What a call that succeeds gives. -/
inductive Reply (α : Type) where
  | written
  | value (v : α)
  | filled (b : Bool)

/-- A call and what came of it. -/
abbrev Event (α : Type) := Call α × Except Fault (Reply α)

/-- A value was written for a span. -/
def Event.wrote (s : Span) (v : α) : Event α :=
  (.set s v, .ok .written)

/-- What comes of a call. -/
def outcome (t : Table α) : Call α → Except Fault (Reply α)
  | .set s v => (t.set s v).1.map fun _ => .written
  | .get s => (t.get s).map .value
  | .isFilled s => (t.isFilled s).map .filled

/-- The table as a call leaves it, whether it succeeds or not. -/
def after (t : Table α) : Call α → Table α
  | .set s v => (t.set s v).2
  | .get _ => t
  | .isFilled _ => t

/-- The table after calls. -/
def run (t : Table α) (calls : List (Call α)) : Table α :=
  calls.foldl after t

/-- The calls and what came of them. -/
def history (t : Table α) : List (Call α) → List (Event α)
  | [] => []
  | c :: cs => (c, t.outcome c) :: (t.after c).history cs

/-! ## One call -/

section Outcomes

variable {t : Table α} {s : Span}

theorem place_outside (hs : ¬ s.Within t.size) : t.place s = .error (.outside s t.size) := by
  rw [place, if_neg (show ¬ (s.start < s.stop ∧ s.stop ≤ t.size) from hs)]

theorem get_outside (hs : ¬ s.Within t.size) : t.get s = .error (.outside s t.size) := by
  rw [get, place_outside hs]
  rfl

theorem isFilled_outside (hs : ¬ s.Within t.size) : t.isFilled s = .error (.outside s t.size) := by
  rw [isFilled, place_outside hs]
  rfl

theorem set_outside (hs : ¬ s.Within t.size) (v : α) :
    t.set s v = (.error (.outside s t.size), t) :=
  set_of_place_error (place_outside hs) v

theorem isFilled_eq (ht : t.Shaped) (hs : s.Within t.size) :
    t.isFilled s = .ok (t.value? s).isSome := by
  obtain ⟨hlt, hplace⟩ := place_eq_ok ht hs
  rw [isFilled, hplace, value?_eq_cell hlt]
  rfl

theorem get_of_value?_eq_none (ht : t.Shaped) (hs : s.Within t.size) (h : t.value? s = none) :
    t.get s = .error (.unfilled s) := by
  rw [get_eq ht hs, h]
  rfl

theorem set_of_value?_eq_some (ht : t.Shaped) (hs : s.Within t.size) {w : α}
    (h : t.value? s = some w) (v : α) : t.set s v = (.error (.writtenTwice s), t) := by
  obtain ⟨_, hset⟩ := set_eq ht hs v
  rw [hset, h]
  rfl

/-- What is read and asked of a span depends on its value alone. -/
theorem get_congr {u : Table α} (ht : t.Shaped) (hu : u.Shaped) (hsize : u.size = t.size)
    (h : s.Within t.size → u.value? s = t.value? s) :
    u.get s = t.get s ∧ u.isFilled s = t.isFilled s := by
  by_cases hs : s.Within t.size
  · have hs' : s.Within u.size := hsize ▸ hs
    refine ⟨?_, ?_⟩
    · cases hvalue : t.value? s with
      | none =>
        rw [get_of_value?_eq_none ht hs hvalue,
          get_of_value?_eq_none hu hs' ((h hs).trans hvalue)]
      | some v =>
        rw [(get_eq_ok_iff ht hs).mpr hvalue, (get_eq_ok_iff hu hs').mpr ((h hs).trans hvalue)]
    · rw [isFilled_eq ht hs, isFilled_eq hu hs', h hs]
  · have hs' : ¬ s.Within u.size := hsize ▸ hs
    rw [get_outside hs, get_outside hs', isFilled_outside hs, isFilled_outside hs', hsize]
    exact ⟨rfl, rfl⟩

end Outcomes

/-! ## All calls -/

/-- The value of every span is the one that was written for it, and none was written twice. -/
structure Recorded (n : Nat) (log : List (Event α)) (t : Table α) : Prop where
  shaped : t.Shaped
  size_eq : t.size = n
  within : ∀ s v, .wrote s v ∈ log → s.Within n
  value_iff : ∀ s v, s.Within n → (t.value? s = some v ↔ .wrote s v ∈ log)
  once : log.Pairwise fun a b => ∀ s v w, a = .wrote s v → b ≠ .wrote s w

theorem recorded_empty {n : Nat} (hn : Fits n) : (empty n : Table α).Recorded n [] where
  shaped := shaped_empty hn
  size_eq := rfl
  within := by simp
  value_iff := by simp [value?_empty]
  once := .nil

section Recorded

variable {n : Nat} {log : List (Event α)} {t : Table α}

/-- A call that writes nothing adds nothing. -/
theorem Recorded.append_event (h : t.Recorded n log) {e : Event α}
    (he : ∀ s v, e ≠ .wrote s v) : t.Recorded n (log ++ [e]) := by
  have hmem : ∀ s v, Event.wrote s v ∈ log ++ [e] ↔ Event.wrote s v ∈ log := by
    intro s v
    rw [List.mem_append, List.mem_singleton]
    exact or_iff_left fun heq => he s v heq.symm
  refine ⟨h.shaped, h.size_eq, ?_, ?_, ?_⟩
  · intro s v hs
    exact h.within s v ((hmem s v).mp hs)
  · intro s v hs
    rw [hmem]
    exact h.value_iff s v hs
  · rw [List.pairwise_append]
    refine ⟨h.once, List.pairwise_singleton _ _, ?_⟩
    intro a _ b hb s v w _ heq
    exact he s w ((List.mem_singleton.mp hb).symm.trans heq)

/-- Where nothing was written, a write succeeds and is recorded. -/
theorem Recorded.set (h : t.Recorded n log) {s : Span} (hs : s.Within n)
    (hfree : ∀ w, .wrote s w ∉ log) (v : α) :
    ∃ t', t.set s v = (.ok (), t') ∧ t'.Recorded n (log ++ [.wrote s v]) ∧
      ∀ s', s' ≠ s → t'.get s' = t.get s' ∧ t'.isFilled s' = t.isFilled s' := by
  have hnone : t.value? s = none := by
    rw [Option.eq_none_iff_forall_ne_some]
    intro w hw
    exact hfree w ((h.value_iff s w hs).mp hw)
  obtain ⟨t', hset, hshaped, hsize, hvalue⟩ :=
    set_eq_ok h.shaped (h.size_eq.symm ▸ hs) v hnone
  rw [h.size_eq] at hvalue
  have hmem : ∀ s' w, Event.wrote s' w ∈ log ++ [.wrote s v] ↔
      Event.wrote s' w ∈ log ∨ s' = s ∧ w = v := by
    intro s' w
    rw [List.mem_append, List.mem_singleton]
    simp [Event.wrote]
  refine ⟨t', hset, ⟨hshaped, hsize.trans h.size_eq, ?_, ?_, ?_⟩, ?_⟩
  · intro s' w hw
    rcases (hmem s' w).mp hw with hold | ⟨rfl, -⟩
    · exact h.within s' w hold
    · exact hs
  · intro s' w hs'
    rw [hvalue s' hs', hmem]
    by_cases heq : s' = s
    · subst heq
      rw [if_pos rfl, or_iff_right (hfree w), Option.some.injEq, eq_comm]
      exact (and_iff_right rfl).symm
    · rw [if_neg heq, h.value_iff s' w hs', or_iff_left fun hnew => heq hnew.1]
  · rw [List.pairwise_append]
    refine ⟨h.once, List.pairwise_singleton _ _, ?_⟩
    intro a ha b hb s' w w' hw hw'
    have hnew : Event.wrote s' w' = Event.wrote s v := hw'.symm.trans (List.mem_singleton.mp hb)
    simp only [Event.wrote, Prod.mk.injEq, Call.set.injEq] at hnew
    obtain ⟨⟨rfl, -⟩, -⟩ := hnew
    exact hfree w (hw ▸ ha)
  · intro s' hne
    refine get_congr h.shaped hshaped hsize ?_
    intro hs'
    rw [h.size_eq] at hs'
    rw [hvalue s' hs', if_neg hne]

/-- Outside the sentence, or where a value was written, a write fails. -/
theorem Recorded.set_fails (h : t.Recorded n log) {s : Span} (v : α) :
    (¬ s.Within n → (t.set s v).1 = .error (.outside s n)) ∧
      ∀ w, .wrote s w ∈ log → (t.set s v).1 = .error (.writtenTwice s) := by
  constructor
  · intro hs
    rw [← h.size_eq] at hs ⊢
    rw [set_outside hs]
  · intro w hw
    have hs := h.within s w hw
    rw [set_of_value?_eq_some h.shaped (h.size_eq.symm ▸ hs) ((h.value_iff s w hs).mpr hw)]

/-- **One call** keeps the record. -/
theorem Recorded.after (h : t.Recorded n log) (c : Call α) :
    (t.after c).Recorded n (log ++ [(c, t.outcome c)]) := by
  cases c with
  | get s => exact h.append_event fun s v heq => by simp [Event.wrote] at heq
  | isFilled s => exact h.append_event fun s v heq => by simp [Event.wrote] at heq
  | set s v =>
    -- a write that fails leaves the table and is no event `wrote`
    have hfails : ∀ e, (t.set s v).1 = .error e →
        (t.after (.set s v)).Recorded n (log ++ [(.set s v, t.outcome (.set s v))]) := by
      intro e he
      have hafter : t.after (.set s v) = t := set_snd_of_error he
      rw [hafter, outcome, he]
      exact h.append_event fun s' v' heq => by simp [Event.wrote, Except.map] at heq
    by_cases hs : s.Within n
    · by_cases hfree : ∃ w, .wrote s w ∈ log
      · obtain ⟨w, hw⟩ := hfree
        exact hfails _ ((h.set_fails v).2 w hw)
      · obtain ⟨t', hset, hrecorded, -⟩ := h.set hs (fun w hw => hfree ⟨w, hw⟩) v
        rw [Table.after, outcome, hset]
        exact hrecorded
    · exact hfails _ ((h.set_fails v).1 hs)

/-- **All calls** keep the record. -/
theorem Recorded.run (h : t.Recorded n log) (calls : List (Call α)) :
    (t.run calls).Recorded n (log ++ t.history calls) := by
  induction calls generalizing t log with
  | nil =>
    rw [history, List.append_nil]
    exact h
  | cons c cs ih =>
    have hstep := ih (h.after c)
    rw [List.append_assoc] at hstep
    exact hstep

end Recorded

/-- The table is the map that the writes of the log make, and each span can be written once. -/
structure IsWriteOnceMap (n : Nat) (log : List (Event α)) (t : Table α) : Prop where
  /-- The successful writes are for different spans. -/
  once : log.Pairwise fun a b => ∀ s v w, a = .wrote s v → b ≠ .wrote s w
  /-- A write succeeds just for a span of the sentence without a successful write. -/
  set_ok_iff : ∀ s v, (t.set s v).1 = .ok () ↔ s.Within n ∧ ∀ w, .wrote s w ∉ log
  /-- A write that fails names the reason. -/
  set_error : ∀ s v, (¬ s.Within n → (t.set s v).1 = .error (.outside s n)) ∧
    ∀ w, .wrote s w ∈ log → (t.set s v).1 = .error (.writtenTwice s)
  /-- A call that fails leaves the table as it is. -/
  unchanged : ∀ c e, t.outcome c = .error e → t.after c = t
  /-- A write that succeeds is seen in its own span and in no other one. -/
  set_frame : ∀ s v t', t.set s v = (.ok (), t') → t'.get s = .ok v ∧ t'.isFilled s = .ok true ∧
    ∀ s', s' ≠ s → t'.get s' = t.get s' ∧ t'.isFilled s' = t.isFilled s'
  /-- What is read was written. -/
  get_ok_iff : ∀ s v, t.get s = .ok v ↔ .wrote s v ∈ log
  /-- Reading fails where nothing was written. -/
  get_error : ∀ s, (¬ s.Within n → t.get s = .error (.outside s n)) ∧
    (s.Within n → (∀ w, .wrote s w ∉ log) → t.get s = .error (.unfilled s))
  /-- A span of the sentence is filled just if something was written. -/
  isFilled_ok : ∀ s, s.Within n →
    ∃ b, t.isFilled s = .ok b ∧ (b = true ↔ ∃ v, .wrote s v ∈ log)
  /-- No other span can be asked for. -/
  isFilled_error : ∀ s, ¬ s.Within n → t.isFilled s = .error (.outside s n)

section Recorded

variable {n : Nat} {log : List (Event α)} {t : Table α}

/-- **A call that fails leaves the table as it is.** -/
theorem after_of_outcome_eq_error {c : Call α} {e : Fault} (h : t.outcome c = .error e) :
    t.after c = t := by
  cases c with
  | get s => rfl
  | isFilled s => rfl
  | set s v =>
    cases hset : (t.set s v).1 with
    | error e => exact set_snd_of_error hset
    | ok x =>
      rw [outcome, hset] at h
      exact absurd h (by simp [Except.map])

theorem Recorded.get_ok_iff (h : t.Recorded n log) (s : Span) (v : α) :
    t.get s = .ok v ↔ .wrote s v ∈ log := by
  by_cases hs : s.Within n
  · rw [get_eq_ok_iff h.shaped (h.size_eq.symm ▸ hs), h.value_iff s v hs]
  · rw [get_outside (h.size_eq.symm ▸ hs)]
    exact ⟨fun heq => absurd heq (by simp), fun hw => absurd (h.within s v hw) hs⟩

theorem Recorded.isFilled_ok (h : t.Recorded n log) {s : Span} (hs : s.Within n) :
    ∃ b, t.isFilled s = .ok b ∧ (b = true ↔ ∃ v, .wrote s v ∈ log) := by
  refine ⟨_, isFilled_eq h.shaped (h.size_eq.symm ▸ hs), ?_⟩
  rw [Option.isSome_iff_exists]
  exact exists_congr fun v => h.value_iff s v hs

theorem Recorded.isWriteOnceMap (h : t.Recorded n log) : t.IsWriteOnceMap n log := by
  have hset_ok : ∀ s v, (t.set s v).1 = .ok () ↔ s.Within n ∧ ∀ w, .wrote s w ∉ log := by
    intro s v
    constructor
    · intro hset
      by_contra hnot
      rcases not_and_or.mp hnot with hs | hw
      · rw [(h.set_fails v).1 hs] at hset
        exact absurd hset (by simp)
      · obtain ⟨w, hw⟩ := not_forall_not.mp hw
        rw [(h.set_fails v).2 w hw] at hset
        exact absurd hset (by simp)
    · rintro ⟨hs, hfree⟩
      obtain ⟨t', hset, -⟩ := h.set hs hfree v
      rw [hset]
  refine ⟨h.once, hset_ok, fun s v => h.set_fails v, fun _ _ => after_of_outcome_eq_error, ?_,
    h.get_ok_iff, fun s => ⟨?_, ?_⟩, fun s => h.isFilled_ok, ?_⟩
  · intro s v t' hset
    obtain ⟨hs, hfree⟩ := (hset_ok s v).mp (congrArg Prod.fst hset)
    obtain ⟨u, hu, hrecorded, hframe⟩ := h.set hs hfree v
    obtain rfl : t' = u := (Prod.mk.inj (hset.symm.trans hu)).2
    have hnew : Event.wrote s v ∈ log ++ [.wrote s v] := by simp
    obtain ⟨b, hb, hiff⟩ := hrecorded.isFilled_ok hs
    obtain rfl : b = true := hiff.mpr ⟨v, hnew⟩
    exact ⟨(hrecorded.get_ok_iff s v).mpr hnew, hb, hframe⟩
  · intro hs
    rw [← h.size_eq] at hs ⊢
    exact get_outside hs
  · intro hs hfree
    refine get_of_value?_eq_none h.shaped (h.size_eq.symm ▸ hs) ?_
    rw [Option.eq_none_iff_forall_ne_some]
    intro w hw
    exact hfree w ((h.value_iff s w hs).mp hw)
  · intro s hs
    rw [← h.size_eq] at hs ⊢
    exact isFilled_outside hs

end Recorded

/-- **A table is a map that is written once.**  After any calls on a new table whose size fits, a
write succeeds just for a span of the sentence that has not been written, and is seen in this span
alone; reading gives the value of the one write; calls that fail change nothing. -/
theorem isWriteOnceMap_run {n : Nat} (hn : Fits n) (calls : List (Call α)) :
    ((empty n).run calls).IsWriteOnceMap n ((empty n).history calls) := by
  have h := (recorded_empty (α := α) hn).run calls
  rw [List.nil_append] at h
  exact h.isWriteOnceMap

/-- Writes to one cell twice, then outside the sentence. -/
def rewriting : List (Call Nat) :=
  [.set ⟨0, 2⟩ 5, .set ⟨0, 2⟩ 6, .set ⟨1, 1⟩ 7]

/-- Of the writes only the first succeeds: its value stays, and the other cells are empty. -/
theorem isWriteOnceMap_rewriting : Fits 2 ∧
    ((empty 2).run rewriting).get ⟨0, 2⟩ = .ok 5 ∧
    (((empty 2).run rewriting).set ⟨0, 2⟩ 8).1 = .error (.writtenTwice ⟨0, 2⟩) ∧
    (((empty 2).run rewriting).set ⟨0, 2⟩ 8).2 = (empty 2).run rewriting ∧
    ((empty 2).run rewriting).get ⟨0, 1⟩ = .error (.unfilled ⟨0, 1⟩) ∧
    ∃ t, ((empty 2).run rewriting).set ⟨0, 1⟩ 9 = (.ok (), t) ∧ t.get ⟨0, 2⟩ = .ok 5 := by
  have hfits : Fits 2 := by decide
  have hmap := isWriteOnceMap_run hfits rewriting
  have hlog : (empty 2).history rewriting = [Event.wrote ⟨0, 2⟩ 5,
      (.set ⟨0, 2⟩ 6, .error (.writtenTwice ⟨0, 2⟩)),
      (.set ⟨1, 1⟩ 7, .error (.outside ⟨1, 1⟩ 2))] := rfl
  rw [hlog] at hmap
  have hwritten := (hmap.get_ok_iff ⟨0, 2⟩ 5).mpr List.mem_cons_self
  have hfree : ∀ w, Event.wrote ⟨0, 1⟩ w ∉ [Event.wrote ⟨0, 2⟩ 5,
      (.set ⟨0, 2⟩ 6, .error (.writtenTwice ⟨0, 2⟩)),
      (.set ⟨1, 1⟩ 7, .error (.outside ⟨1, 1⟩ 2))] := by
    intro w
    simp [Event.wrote]
  have hagain := (hmap.set_error ⟨0, 2⟩ 8).2 5 List.mem_cons_self
  have hunchanged := hmap.unchanged (.set ⟨0, 2⟩ 8) (.writtenTwice ⟨0, 2⟩)
    (congrArg (Except.map fun _ => Reply.written) hagain)
  obtain ⟨t, ht⟩ : ∃ t, ((empty 2).run rewriting).set ⟨0, 1⟩ 9 = (.ok (), t) :=
    ⟨_, Prod.ext ((hmap.set_ok_iff ⟨0, 1⟩ 9).mpr ⟨by decide, hfree⟩) rfl⟩
  refine ⟨hfits, hwritten, hagain, hunchanged,
    (hmap.get_error ⟨0, 1⟩).2 (by decide) hfree, t, ht, ?_⟩
  rw [((hmap.set_frame _ _ t ht).2.2 ⟨0, 2⟩ (by decide)).1]
  exact hwritten

end ChartParsing.Table
