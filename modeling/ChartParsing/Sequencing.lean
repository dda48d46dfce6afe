/-!
# Steps that may fail

When two steps are done one after the other, the whole succeeds just when both do.  A loop whose
steps all succeed succeeds; what each step carries on to the next holds at the end.  A loop commutes
with a function if each of its steps does.
-/

namespace ChartParsing

theorem bind_eq_ok {ε α β : Type} {x : Except ε α} {f : α → Except ε β} {b : β} :
    (x >>= f) = .ok b ↔ ∃ a, x = .ok a ∧ f a = .ok b := by
  cases x with
  | error e => simp [bind, Except.bind]
  | ok a => simp [bind, Except.bind]

theorem pure_eq_ok {ε α : Type} {a b : α} : (pure a : Except ε α) = .ok b ↔ a = b := by
  simp [pure, Except.pure]

theorem throw_ne_ok {ε α : Type} {e : ε} {b : α} : (throw e : Except ε α) ≠ .ok b := by
  simp [throw, throwThe, MonadExceptOf.throw]

theorem mapError_eq_ok {ε δ α : Type} {f : ε → δ} {x : Except ε α} {a : α} :
    x.mapError f = .ok a ↔ x = .ok a := by
  cases x with
  | error e =>
    show (Except.error (f e) : Except δ α) = .ok a ↔ _
    simp
  | ok b =>
    show (Except.ok b : Except δ α) = .ok a ↔ _
    simp

theorem toOption_eq_some_iff {ε α : Type} {x : Except ε α} {a : α} :
    x.toOption = some a ↔ x = .ok a := by
  cases x with
  | error e => simp [Except.toOption]
  | ok b => simp [Except.toOption]

theorem mapM_eq_ok {ε α β : Type} {f : α → Except ε β} {g : α → β} {l : List α}
    (h : ∀ a ∈ l, f a = .ok (g a)) : l.mapM f = .ok (l.map g) := by
  induction l with
  | nil => rfl
  | cons a l ih =>
    rw [List.mapM_cons, h a List.mem_cons_self, ih fun b hb => h b (List.mem_cons_of_mem a hb)]
    rfl

/-- A traversal succeeds if it does for each element. -/
theorem exists_mapM_eq_ok {ε α β : Type} {f : α → Except ε β} {l : List α}
    (h : ∀ a ∈ l, ∃ b, f a = .ok b) : ∃ bs, l.mapM f = .ok bs := by
  induction l with
  | nil => exact ⟨[], rfl⟩
  | cons a l ih =>
    obtain ⟨b, hb⟩ := h a List.mem_cons_self
    obtain ⟨bs, hbs⟩ := ih fun a' ha' => h a' (List.mem_cons_of_mem a ha')
    rw [List.mapM_cons]
    exact ⟨b :: bs, bind_eq_ok.2 ⟨b, hb, bind_eq_ok.2 ⟨bs, hbs, rfl⟩⟩⟩

/-- `P i` holds before step `i`, and step `i` succeeds and leads to `P (i + 1)`. -/
theorem foldlM_eq_ok {ε α σ : Type} {f : σ → α → Except ε σ} {l : List α} (P : Nat → σ → Prop)
    (step : ∀ i (h : i < l.length) x, P i x → ∃ y, f x l[i] = .ok y ∧ P (i + 1) y) {x : σ}
    (hx : P 0 x) : ∃ y, l.foldlM f x = .ok y ∧ P l.length y := by
  induction l generalizing x P with
  | nil => exact ⟨x, rfl, hx⟩
  | cons a l ih =>
    obtain ⟨y, hy, hP⟩ := step 0 (Nat.succ_pos _) x hx
    obtain ⟨z, hz, hQ⟩ := ih (fun i => P (i + 1))
      (fun i h => step (i + 1) (Nat.succ_lt_succ h)) hP
    refine ⟨z, ?_, hQ⟩
    rw [List.foldlM_cons]
    exact bind_eq_ok.2 ⟨y, hy, hz⟩

theorem mapM_map_eq {ε α β γ : Type} {f : α → Except ε β} {f' : α → Except ε γ} (h : β → γ)
    (hstep : ∀ a, f' a = (f a).map h) (l : List α) : l.mapM f' = (l.mapM f).map (List.map h) := by
  induction l with
  | nil => rfl
  | cons a l ih =>
    rw [List.mapM_cons, List.mapM_cons, ih, hstep]
    cases f a with
    | error e => rfl
    | ok b => cases l.mapM f <;> rfl

theorem foldlM_map_eq {ε α σ τ : Type} {f : σ → α → Except ε σ} {f' : τ → α → Except ε τ}
    (h : σ → τ) (hstep : ∀ x a, f' (h x) a = (f x a).map h) (l : List α) (x : σ) :
    l.foldlM f' (h x) = (l.foldlM f x).map h := by
  induction l generalizing x with
  | nil => rfl
  | cons a l ih =>
    rw [List.foldlM_cons, List.foldlM_cons, hstep]
    cases f x a with
    | error e => rfl
    | ok y => exact ih y

end ChartParsing
