import Mathlib.Algebra.Ring.Basic
import Mathlib.Algebra.Group.Units.Basic
import Mathlib.Tactic.Ring

/-!
# Rolling hashes

A rolling hash multiplies what it has by a constant and adds the next symbol. Over a commutative ring the
first value is multiplied by a power of the constant, so that symbols of the same number in two places
change the hash alike. Where the constant is a unit, what follows keeps different hashes different.
-/

namespace Rolling

variable {R : Type} [CommRing R]

/-- The hash of a list of symbols, from a first value. -/
def roll (m h : R) (l : List R) : R := l.foldl (fun h c => m * h + c) h

variable {m h h' : R}

theorem roll_append (x y : List R) : roll m h (x ++ y) = roll m (roll m h x) y := List.foldl_append

theorem roll_sub_roll (l : List R) : roll m h l - roll m h' l = m ^ l.length * (h - h') := by
  induction l generalizing h h' with
  | nil => simp only [roll, List.foldl_nil, List.length_nil, pow_zero, one_mul]
  | cons c l ih =>
      have hrest : roll m (m * h + c) l - roll m (m * h' + c) l = _ := ih
      simp only [roll, List.foldl_cons, List.length_cons] at hrest ⊢
      rw [hrest]
      ring

/-- A unit loses nothing of what came before. -/
theorem roll_eq_roll_left_iff (hm : IsUnit m) (l : List R) : roll m h l = roll m h' l ↔ h = h' := by
  rw [← sub_eq_zero, roll_sub_roll, (hm.pow l.length).mul_right_eq_zero, sub_eq_zero]

/-- Whether two lists of one length have one hash is not a matter of the first value. -/
theorem roll_eq_roll_iff {x y : List R} (hlen : x.length = y.length) :
    roll m h x = roll m h y ↔ roll m h' x = roll m h' y := by
  have hdiff : roll m h x - roll m h y = roll m h' x - roll m h' y := by
    have hx : roll m h x - roll m h' x = _ := roll_sub_roll x
    have hy : roll m h y - roll m h' y = _ := roll_sub_roll y
    rw [hlen, ← hy] at hx
    exact sub_eq_sub_iff_sub_eq_sub.mp hx
  rw [← sub_eq_zero, hdiff, sub_eq_zero]

/-- Nor of what stands in front of them and behind them. -/
theorem roll_replace_iff (hm : IsUnit m) {p q x y : List R} (hlen : x.length = y.length) :
    roll m h (p ++ x ++ q) = roll m h (p ++ y ++ q) ↔ roll m h x = roll m h y := by
  rw [roll_append, roll_append, roll_append, roll_append, roll_eq_roll_left_iff hm]
  exact roll_eq_roll_iff hlen

end Rolling
