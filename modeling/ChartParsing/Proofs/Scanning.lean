/-!
# Scanning a text

Readers take the longest run of characters of a class.  A run is taken exactly if its characters are
in the class and the text after it `Stops` the run.
-/

namespace ChartParsing

/-- The text does not begin with a character of the class. -/
def Stops (p : Char → Bool) (rest : List Char) : Prop :=
  ∀ c ∈ rest.head?, p c = false

variable {p : Char → Bool} {s rest : List Char}

theorem Stops.nil : Stops p [] := by
  intro c hc
  exact absurd hc (by simp)

theorem Stops.cons {c : Char} (h : p c = false) : Stops p (c :: rest) := by
  intro d hd
  rwa [← Option.some.inj hd]

theorem Stops.append {t : List Char} (hs : Stops p s) (ht : Stops p t) : Stops p (s ++ t) := by
  cases s with
  | nil => exact ht
  | cons c s => exact .cons (hs c rfl)

theorem Stops.takeWhile {q : Char → Bool} (hs : Stops p s) : Stops p (s.takeWhile q) := by
  cases s with
  | nil => exact .nil
  | cons c s =>
    rw [List.takeWhile_cons]
    split
    · exact .cons (hs c rfl)
    · exact .nil

/-- What is left after a run does not go on with it. -/
theorem stops_dropWhile (p : Char → Bool) (s : List Char) : Stops p (s.dropWhile p) := by
  intro c hc
  have hhead := List.head?_dropWhile_not p s
  rw [hc] at hhead
  simpa using hhead

theorem takeWhile_run (hs : ∀ c ∈ s, p c = true) (hrest : Stops p rest) :
    (s ++ rest).takeWhile p = s := by
  rw [List.takeWhile_append_of_pos hs]
  cases rest with
  | nil => rw [List.takeWhile_nil, List.append_nil]
  | cons c rest =>
    rw [List.takeWhile_cons_of_neg (by rw [hrest c rfl]; decide), List.append_nil]

theorem dropWhile_run (hs : ∀ c ∈ s, p c = true) (hrest : Stops p rest) :
    (s ++ rest).dropWhile p = rest := by
  rw [List.dropWhile_append_of_pos hs]
  cases rest with
  | nil => rfl
  | cons c rest => rw [List.dropWhile_cons_of_neg (by rw [hrest c rfl]; decide)]

theorem takeWhile_all (hs : ∀ c ∈ s, p c = true) : s.takeWhile p = s := by
  have hrun := takeWhile_run hs (Stops.nil (p := p))
  rwa [List.append_nil] at hrun

theorem dropWhile_all (hs : ∀ c ∈ s, p c = true) : s.dropWhile p = [] := by
  have hrun := dropWhile_run hs (Stops.nil (p := p))
  rwa [List.append_nil] at hrun

end ChartParsing
