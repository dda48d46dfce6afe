import Std.Data.TreeMap.Lemmas

/-!
# Symbols

A grammar numbers its non-terminals from zero in the order in which their names first appear. A
symbol is such a number; a symbol table leads from names to symbols and back.

* `SymbolTable.find?_eq_some_iff`: the two directions of a table agree.
* `SymbolTable.intern`: the symbol of a name, a new one if there is none yet.
-/

namespace ChartParsing

/-- A non-terminal of a grammar, by its number. -/
structure Symbol where
  id : Nat
deriving DecidableEq, Hashable, Repr

namespace Symbol

instance : Ord Symbol := ⟨compareOn id⟩

instance : Std.TransOrd Symbol := inferInstanceAs (Std.TransCmp (compareOn id))

instance : Std.LawfulEqOrd Symbol where
  eq_of_compare {a b} h := by
    have : compare a.id b.id = .eq := h
    cases a
    cases b
    simpa using this

/-- Pairs of symbols are ordered by the first, then by the second. -/
def comparePairs : Symbol × Symbol → Symbol × Symbol → Ordering :=
  compareLex (compareOn Prod.fst) (compareOn Prod.snd)

instance : Std.TransCmp comparePairs :=
  inferInstanceAs (Std.TransCmp (compareLex (compareOn Prod.fst) (compareOn Prod.snd)))

instance : Std.LawfulEqCmp comparePairs where
  eq_of_compare {a b} h := by
    simp only [comparePairs, compareLex, compareOn, Ordering.then_eq_eq] at h
    exact Prod.ext (Std.LawfulEqOrd.eq_of_compare h.1) (Std.LawfulEqOrd.eq_of_compare h.2)

end Symbol

/-- The names of a grammar's symbols, and the symbol of each name. -/
structure SymbolTable where
  names : Array String
  ids : Std.TreeMap String Symbol
  ids_iff : ∀ (name : String) (s : Symbol), ids[name]? = some s ↔ names[s.id]? = some name

namespace SymbolTable

/-- How many symbols there are. -/
def size (t : SymbolTable) : Nat :=
  t.names.size

/-- The symbol of a name. -/
def find? (t : SymbolTable) (name : String) : Option Symbol :=
  t.ids[name]?

/-- The name of a symbol. -/
def name? (t : SymbolTable) (s : Symbol) : Option String :=
  t.names[s.id]?

theorem find?_eq_some_iff {t : SymbolTable} {name : String} {s : Symbol} :
    t.find? name = some s ↔ t.name? s = some name :=
  t.ids_iff name s

theorem id_lt_size_of_find? {t : SymbolTable} {name : String} {s : Symbol}
    (h : t.find? name = some s) : s.id < t.size := by
  have := find?_eq_some_iff.1 h
  exact (Array.getElem?_eq_some_iff.1 this).1

/-- The table without symbols. -/
def empty : SymbolTable where
  names := #[]
  ids := ∅
  ids_iff := by simp

/-- The table with `name`, which takes the next number if it is new. -/
def insert (t : SymbolTable) (name : String) : SymbolTable :=
  match h : t.ids[name]? with
  | some _ => t
  | none =>
    { names := t.names.push name
      ids := t.ids.insert name ⟨t.names.size⟩
      ids_iff := by
        intro other s
        rw [Std.TreeMap.getElem?_insert, Array.getElem?_push]
        have fresh : ∀ s : Symbol, t.names[s.id]? ≠ some name := fun s hs => by
          rw [(t.ids_iff name s).2 hs] at h
          exact absurd h (by simp)
        by_cases hn : name = other
        · subst hn
          by_cases hs : s.id = t.names.size
          · cases s
            simp_all
          · have : s ≠ ⟨t.names.size⟩ := fun e => hs (by rw [e])
            simp [hs, fresh s, Ne.symm this]
        · have : compare name other ≠ .eq := fun e => hn (Std.LawfulEqOrd.eq_of_compare e)
          by_cases hs : s.id = t.names.size
          · have none_at : t.ids[other]? ≠ some s := fun e => by
              have := (t.ids_iff other s).1 e
              rw [hs] at this
              simp at this
            simp [this, hs, none_at, hn]
          · simp [this, hs, t.ids_iff other s] }

theorem size_pos_insert (t : SymbolTable) (name : String) : 0 < (t.insert name).size := by
  unfold insert
  split
  · rename_i s h
    exact Nat.lt_of_le_of_lt (Nat.zero_le _) (id_lt_size_of_find? (t := t) (s := s) h)
  · simp [size]

/-- The table with `name`, and the symbol of `name`. -/
def intern (t : SymbolTable) (name : String) : SymbolTable × Symbol :=
  (t.insert name, (t.find? name).getD ⟨t.size⟩)

end SymbolTable

end ChartParsing
