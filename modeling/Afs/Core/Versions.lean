import Mathlib.Order.Nat
import Mathlib.Logic.Function.Basic

/-!
# Copies of the versions of one object

The versions of an object form a list that only grows at its end. Holders keep copies of versions;
`Placed` gives every holder a position in the list at which its copy stands. Dropping a copy,
taking the latest version and publishing a new one keep the copies placed, and no position ever
moves back.
-/

namespace Versions

variable {ι V : Type}

/-- Every copy is the version at its holder's position. -/
structure Placed (vs : List V) (copy : ι → Option V) (pos : ι → ℕ) : Prop where
  /-- Positions are inside the list. -/
  lt : ∀ i, pos i < vs.length
  /-- The version there is the copy. -/
  holds : ∀ i v, copy i = some v → vs[pos i]? = some v

namespace Placed

variable {vs : List V} {copy copy' : ι → Option V} {pos : ι → ℕ}

/-- At the start nobody holds a copy. -/
theorem init {vs : List V} (h : vs ≠ []) : Placed vs (fun _ : ι => none) (fun _ => 0) :=
  ⟨fun _ => List.length_pos_iff.mpr h, fun _ _ h => absurd h (by simp)⟩

/-- Copies that stay or are dropped stay placed. -/
theorem drop (h : Placed vs copy pos) (hsub : ∀ i v, copy' i = some v → copy i = some v) :
    Placed vs copy' pos := ⟨h.lt, fun i v hv => h.holds i v (hsub i v hv)⟩

variable [DecidableEq ι]

private theorem le_update {i : ι} {n : ℕ} (h : pos i ≤ n) : pos ≤ Function.update pos i n := by
  intro j
  by_cases hj : j = i
  · rw [hj, Function.update_self]
    exact h
  · exact le_of_eq (Function.update_of_ne hj n pos).symm

/-- A holder that takes the latest version moves to the end of the list. -/
theorem refresh (h : Placed vs copy pos) (copy' : ι → Option V) {v : V}
    (hv : vs.getLast? = some v) (i : ι) (hi : copy' i = some v) (hother : ∀ j, j ≠ i → copy' j = copy j) :
    Placed vs copy' (Function.update pos i (vs.length - 1)) ∧
      pos ≤ Function.update pos i (vs.length - 1) := by
  have hi' := h.lt i
  refine ⟨⟨fun j => ?_, fun j u hu => ?_⟩, le_update (by omega)⟩
  · by_cases hj : j = i
    · rw [hj, Function.update_self]
      omega
    · rw [Function.update_of_ne hj]
      exact h.lt j
  · by_cases hj : j = i
    · subst hj
      rw [hi] at hu
      rw [Function.update_self, ← List.getLast?_eq_getElem?, hv, hu]
    · rw [hother j hj] at hu
      rw [Function.update_of_ne hj]
      exact h.holds j u hu

/-- A holder that publishes a new version holds that version. -/
theorem publish (h : Placed vs copy pos) (copy' : ι → Option V) {v : V} (i : ι) (hi : copy' i = some v)
    (hother : ∀ j, j ≠ i → copy' j = copy j) :
    Placed (vs ++ [v]) copy' (Function.update pos i vs.length) ∧
      pos ≤ Function.update pos i vs.length := by
  refine ⟨⟨fun j => ?_, fun j u hu => ?_⟩, le_update (Nat.le_of_lt (h.lt i))⟩
  · rw [List.length_append, List.length_singleton]
    by_cases hj : j = i
    · rw [hj, Function.update_self]
      omega
    · rw [Function.update_of_ne hj]
      exact Nat.lt_succ_of_lt (h.lt j)
  · by_cases hj : j = i
    · subst hj
      rw [hi] at hu
      rw [Function.update_self, List.getElem?_concat_length, hu]
    · rw [hother j hj] at hu
      rw [Function.update_of_ne hj, List.getElem?_append_left (h.lt j)]
      exact h.holds j u hu

end Placed

end Versions
