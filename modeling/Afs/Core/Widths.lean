import Mathlib.Algebra.Ring.Int.Defs
import Mathlib.Algebra.Ring.Nat

/-!
# Integers cut to a width

An assignment to a narrower or differently signed C type keeps the residue. Each lemma says for
which values the number on the other side is the one that was assigned.
-/

namespace Widths

/-- Cutting to a signed 32-bit number is invisible exactly inside its range. -/
theorem int32_ofInt_eq_iff (x : Int) :
    (Int32.ofInt x).toInt = x ↔ -2 ^ 31 ≤ x ∧ x < 2 ^ 31 := by
  constructor
  · intro h
    rw [← h]
    exact ⟨Int32.le_toInt _, Int32.toInt_lt _⟩
  · rintro ⟨hlow, hhigh⟩
    exact Int32.toInt_ofInt_of_le hlow hhigh

/-- A number below one second in nanoseconds fits a signed 32-bit field. -/
theorem int32_ofNat_eq {n : Nat} (h : n < 2 ^ 31) : (Int32.ofNat n).toInt = n :=
  Int32.toInt_ofNat_of_lt h

/-- Cutting to an unsigned 32-bit number is the residue. -/
theorem uint32_ofInt_natCast (n : Nat) : (UInt32.ofInt (n : Int)).toNat = n % 2 ^ 32 := by
  have hres : ((n : Int) % 2 ^ 32).toNat = n % 2 ^ 32 := by omega
  rw [UInt32.ofInt, hres, UInt32.toNat_ofNat', Nat.mod_mod]

/-- Cutting to an unsigned 32-bit number is invisible exactly below its modulus. -/
theorem uint32_ofInt_eq_iff (n : Nat) : (UInt32.ofInt (n : Int)).toNat = n ↔ n < 2 ^ 32 := by
  rw [uint32_ofInt_natCast]
  omega

/-- An unsigned 32-bit number survives the way through a signed field of the same width. -/
theorem uint32_of_int32 (x : UInt32) : (Int32.ofInt (x.toNat : Int)).toUInt32 = x := by
  rw [Int32.ofInt_eq_ofNat, Int32.toUInt32_ofNat', UInt32.ofNat_toNat]

end Widths
