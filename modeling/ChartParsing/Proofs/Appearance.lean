import Mathlib.Data.List.Basic

/-!
# The order of first appearance

A list is read from the left, and each element that is new is put at the end of a second list.  The
second list then has every element that was read, in the order in which they first appeared.

* `FirstSeen.lt_iff`: the places in the second list tell which element appeared first.
* `FirstSeen.known`, `FirstSeen.new`: one more element is read.
-/

namespace ChartParsing

variable {α : Type} [BEq α] {read kept : List α} {a b : α}

/-- The elements of `read`, in the order in which they first appear there. -/
structure FirstSeen (read kept : List α) : Prop where
  mem_iff : ∀ a, a ∈ kept ↔ a ∈ read
  ordered : kept.Pairwise fun a b => read.idxOf a < read.idxOf b

namespace FirstSeen

theorem nil : FirstSeen ([] : List α) [] :=
  ⟨fun _ => Iff.rfl, .nil⟩

theorem nodup (h : FirstSeen read kept) : kept.Nodup := by
  refine h.ordered.imp ?_
  rintro a b hlt rfl
  exact Nat.lt_irrefl _ hlt

/-- **The place of an element tells when it first appeared.** -/
theorem lt_iff (h : FirstSeen read kept) {i j : Nat} (hi : kept[i]? = some a)
    (hj : kept[j]? = some b) : i < j ↔ read.idxOf a < read.idxOf b := by
  obtain ⟨hilt, rfl⟩ := List.getElem?_eq_some_iff.mp hi
  obtain ⟨hjlt, rfl⟩ := List.getElem?_eq_some_iff.mp hj
  have hordered := List.pairwise_iff_getElem.mp h.ordered
  constructor
  · exact hordered i j hilt hjlt
  · intro hlt
    rcases Nat.lt_trichotomy i j with hij | rfl | hji
    · exact hij
    · exact absurd hlt (Nat.lt_irrefl _)
    · exact absurd hlt (Nat.lt_asymm (hordered j i hjlt hilt hji))

variable [LawfulBEq α]

/-- What appeared first stays first when one more element is read. -/
theorem ordered_concat (h : FirstSeen read kept) (a : α) :
    kept.Pairwise fun b c => (read ++ [a]).idxOf b < (read ++ [a]).idxOf c := by
  refine h.ordered.imp_of_mem ?_
  intro b c hb hc hlt
  rw [List.idxOf_append_of_mem ((h.mem_iff b).mp hb),
    List.idxOf_append_of_mem ((h.mem_iff c).mp hc)]
  exact hlt

/-- **An element that appeared before** changes nothing. -/
theorem known (h : FirstSeen read kept) (ha : a ∈ read) : FirstSeen (read ++ [a]) kept := by
  refine ⟨?_, h.ordered_concat a⟩
  intro b
  rw [h.mem_iff, List.mem_append, List.mem_singleton]
  exact ⟨.inl, fun hor => hor.elim id fun heq => heq ▸ ha⟩

/-- **A new element** comes last. -/
theorem new (h : FirstSeen read kept) (ha : a ∉ read) : FirstSeen (read ++ [a]) (kept ++ [a]) := by
  constructor
  · intro b
    rw [List.mem_append, List.mem_append, h.mem_iff]
  · rw [List.pairwise_append]
    refine ⟨h.ordered_concat a, List.pairwise_singleton _ _, ?_⟩
    intro b hb c hc
    have hold : b ∈ read := (h.mem_iff b).mp hb
    obtain rfl : c = a := List.mem_singleton.mp hc
    rw [List.idxOf_append_of_mem hold, List.idxOf_append_of_notMem ha]
    exact Nat.lt_of_lt_of_le (List.idxOf_lt_length_of_mem hold) (Nat.le_add_right _ _)

end FirstSeen

end ChartParsing
