import ChartParsing.Proofs.RuleFile.Parts

/-!
# What is read can be written

A parent that is read is a name, and an item that is read is a name or a word without quote and line
end, and a right-hand side has an item.

* `writable_of_rules`: the rules of any text can be written.
-/

namespace ChartParsing

open Item

namespace RuleFile

/-! ## Items -/

theorem mem_of_name? {s x rest : List Char} (h : name? s = some (x, rest)) :
    x ≠ [] ∧ ∀ c ∈ x, isNameChar c = true := by
  refine ⟨(append_of_name? h).2, ?_⟩
  simp only [name?, Option.ite_none_left_eq_some, Option.some.injEq, Prod.mk.injEq] at h
  obtain ⟨-, rfl, -⟩ := h
  exact List.all_eq_true.mp List.all_takeWhile

theorem mem_of_quotedWord? {s w rest : List Char} (h : quotedWord? s = some (w, rest)) :
    w ≠ [] ∧ ∀ c ∈ w, isQuotable c = true := by
  refine ⟨(append_of_quotedWord? h).2, ?_⟩
  unfold quotedWord? at h
  split at h
  · split at h
    · rename_i c w' r hw hr
      cases h
      rw [← hw]
      exact List.all_eq_true.mp List.all_takeWhile
    · exact absurd h (by simp)
  · exact absurd h (by simp)

/-- A run of a class without quote and line end makes up a word. -/
theorem isWord_ofList {p : Char → Bool} {w : List Char} (hne : w ≠ [])
    (hall : ∀ c ∈ w, p c = true) (hquote : p '"' = false) (hline : p '\n' = false) :
    IsWord (String.ofList w) := by
  rw [IsWord, String.toList_ofList]
  refine ⟨?_, ?_, ?_⟩
  · intro h
    apply hne
    rw [← String.toList_ofList (l := w), h]
    rfl
  · intro hmem
    exact absurd (hall _ hmem) (by rw [hquote]; decide)
  · intro hmem
    exact absurd (hall _ hmem) (by rw [hline]; decide)

theorem writable_itemOfName {x : List Char} (hne : x ≠ []) (hx : ∀ c ∈ x, isNameChar c = true) :
    (itemOfName x).Writable := by
  cases x with
  | nil => exact absurd rfl hne
  | cons c s =>
    rw [itemOfName]
    split
    · rename_i hupper
      exact ⟨c, s, String.toList_ofList, hupper, fun d hd => hx d (List.mem_cons_of_mem c hd)⟩
    · exact isWord_ofList hne hx (by decide) (by decide)

/-- **An item that is read can be written.** -/
theorem writable_of_item {s rest : List Char} {i : Item} (h : item s = .ok (i, rest)) :
    i.Writable := by
  unfold item at h
  split at h
  · rename_i w r hq
    cases h
    obtain ⟨hne, hall⟩ := mem_of_quotedWord? hq
    exact isWord_ofList hne hall (by decide) (by decide)
  · split at h
    · rename_i x r hn
      cases h
      obtain ⟨hne, hall⟩ := mem_of_name? hn
      exact writable_itemOfName hne hall
    · exact absurd h (by simp)

/-! ## Rules -/

theorem writable_of_body {x : String} {s rest : List Char} {b : Body}
    (h : body x s = .ok (b, rest)) : ∀ i ∈ b.items, i.Writable := by
  fun_induction body x s generalizing b rest with
  | case1 => exact absurd h (by simp)
  | case2 s c r hs hc =>
    cases h
    intro i hi
    exact absurd hi (by simp)
  | case3 s r hs =>
    obtain ⟨⟨p, t⟩, -, h⟩ := bind_eq_ok.mp h
    cases h
    intro i hi
    exact absurd hi (by simp)
  | case4 => exact absurd h (by simp)
  | case5 s c r hs hc hb i t hi ih =>
    obtain ⟨⟨b', u⟩, hb', h⟩ := bind_eq_ok.mp h
    cases h
    intro j hj
    rcases List.mem_cons.mp hj with rfl | hmem
    · exact writable_of_item hi
    · exact ih hb' j hmem

theorem writable_of_alternative {x : String} (hx : IsName x) {s rest : List Char} {r : Rule}
    (h : alternative x s = .ok (r, rest)) : r.Writable := by
  obtain ⟨⟨b, t⟩, hb, h⟩ := bind_eq_ok.mp h
  dsimp only at h
  split at h
  · exact absurd h throw_ne_ok
  · rename_i hne
    cases h
    exact ⟨hx, writable_of_body hb, by simpa using hne⟩

theorem writable_of_alternatives {x : String} (hx : IsName x) {s rest : List Char}
    {rs : List Rule} (h : alternatives x s = .ok (rs, rest)) : ∀ r ∈ rs, r.Writable := by
  fun_induction alternatives x s generalizing rs rest with
  | case1 => exact absurd h (by simp)
  | case2 s r t ha ih =>
    obtain ⟨⟨rs', u⟩, hu, h⟩ := bind_eq_ok.mp h
    cases h
    intro q hq
    rcases List.mem_cons.mp hq with rfl | hmem
    · exact writable_of_alternative hx ha
    · exact ih hu q hmem
  | case3 s r t _ ha =>
    obtain ⟨u, -, h⟩ := bind_eq_ok.mp h
    cases h
    intro q hq
    rw [List.mem_singleton.mp hq]
    exact writable_of_alternative hx ha

theorem writable_of_rule {s rest : List Char} {rs : List Rule} (h : rule s = .ok (rs, rest)) :
    ∀ r ∈ rs, r.Writable := by
  obtain ⟨⟨x, t⟩, hparent, h⟩ := bind_eq_ok.mp h
  obtain ⟨u, -, h⟩ := bind_eq_ok.mp h
  have hx : IsName x := writable_of_item (item_of_parent hparent)
  exact writable_of_alternatives hx h

/-- **The rules of a text can be written.** -/
theorem writable_of_rules {s : List Char} {rs : List Rule} (h : rules s = .ok rs) :
    ∀ r ∈ rs, r.Writable := by
  fun_induction rules s generalizing rs with
  | case1 =>
    cases h
    intro r hr
    exact absurd hr (by simp)
  | case2 => exact absurd h (by simp)
  | case3 s c r hs qs t hq ih =>
    obtain ⟨more, hmore, h⟩ := bind_eq_ok.mp h
    cases h
    intro q hmem
    rcases List.mem_append.mp hmem with hfirst | hlater
    · exact writable_of_rule hq q hfirst
    · exact ih hmore q hlater

end RuleFile

end ChartParsing
