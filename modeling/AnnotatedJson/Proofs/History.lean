/-
  Places in a history.

  A history is a list of events that grows at its end.  An event is named by its place, which
  it keeps while the history grows.

  * `event_concat`: the events of a history that grew by one;
  * `event_later`, `event_earlier`: the events of a history and of one that it grew from.
-/
import Mathlib

namespace AnnotatedJson

variable {ε : Type} {h h' : List ε} {x y : ε} {k : Nat}

/-- An event of a history that grew is an old one or the new one. -/
theorem event_concat : (h ++ [x])[k]? = some y ↔ h[k]? = some y ∨ k = h.length ∧ x = y := by
  rw [List.getElem?_append]
  split
  · next hk =>
    have hne : k ≠ h.length := hk.ne
    simp [hne]
  · next hk =>
    have hnone : h[k]? = none := List.getElem?_eq_none (not_lt.1 hk)
    rw [hnone, List.getElem?_singleton]
    constructor
    · intro hy
      split at hy
      · next h0 => exact .inr ⟨by omega, by simpa using hy⟩
      · cases hy
    · rintro (hy | ⟨rfl, rfl⟩)
      · cases hy
      · simp

theorem event_lt (hk : h[k]? = some x) : k < h.length := (List.getElem?_eq_some_iff.1 hk).1

/-- What happened stays in the history. -/
theorem event_later (hp : h <+: h') (hk : h[k]? = some x) : h'[k]? = some x := by
  obtain ⟨t, rfl⟩ := hp
  rw [List.getElem?_append_left (event_lt hk)]
  exact hk

/-- What happened early enough is in an earlier history. -/
theorem event_earlier (hp : h <+: h') (hk : h'[k]? = some x) (hlt : k < h.length) : h[k]? = some x := by
  obtain ⟨t, rfl⟩ := hp
  rwa [List.getElem?_append_left hlt] at hk

end AnnotatedJson
