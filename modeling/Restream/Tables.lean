import Mathlib.Data.List.Basic

/-! Lists used as tables of numbered entries: where an entry of a table that
was extended, overwritten or changed in one place comes from. -/

namespace List

variable {α : Type} {table : List α} {i j : Nat} {x y : α}

theorem getElem?_concat_cases (h : (table ++ [y])[j]? = some x) :
    table[j]? = some x ∨ (j = table.length ∧ x = y) := by
  rcases Nat.lt_or_ge j table.length with hlt | hge
  · rw [getElem?_append_left hlt] at h
    exact .inl h
  · rw [getElem?_append_right hge, getElem?_singleton] at h
    split at h
    · next hz => exact .inr ⟨by omega, (Option.some.inj h).symm⟩
    · cases h

theorem getElem?_set_cases (h : (table.set i y)[j]? = some x) :
    (j = i ∧ x = y) ∨ (j ≠ i ∧ table[j]? = some x) := by
  by_cases hji : j = i
  · subst hji
    rw [getElem?_set_self'] at h
    cases hx : table[j]? with
    | none => simp [hx] at h
    | some z => exact .inl ⟨rfl, by simpa [hx] using h.symm⟩
  · rw [getElem?_set_ne (Ne.symm hji)] at h
    exact .inr ⟨hji, h⟩

theorem getElem?_modify_cases {f : α → α} (h : (table.modify i f)[j]? = some x) :
    ∃ z, table[j]? = some z ∧ x = if j = i then f z else z := by
  rw [getElem?_modify, Option.map_eq_map, Option.map_eq_some_iff] at h
  obtain ⟨z, hz, rfl⟩ := h
  refine ⟨z, hz, ?_⟩
  by_cases hji : j = i
  · simp [hji]
  · simp [hji, Ne.symm hji]

end List
