import Afs.Core.Bytes
import Mathlib.Data.List.TakeWhile

/-!
# Strings in memory

A string of C is what stands in memory before the first zero. `strncpy` fills a field of fixed size,
with no terminator when the source is too long; `strncat` appends to the string in its destination
and always terminates the result, wherever the destination ends.
-/

namespace CString

open Posix

/-- The string that begins at an address: the bytes before the first zero. -/
def str (mem : Bytes) : Bytes := mem.takeWhile (· != 0)

/-- The `n` bytes that `strncpy` puts into its destination: padded with zeros, or cut. -/
def strncpy (src : Bytes) (n : Nat) : Bytes :=
  (str src).take n ++ List.replicate (n - (str src).length) 0

/-- The memory from the destination on after `strncat`: at most `n` bytes of the source stand behind
the string that was there, and a terminator behind these. -/
def strncat (dest src : Bytes) (n : Nat) : Bytes :=
  splice dest (str dest).length ((str src).take n ++ [0])

/-- The string at the start of the memory has its terminator within the first `size` bytes. -/
def Fits (mem : Bytes) (size : Nat) : Prop := 0 ∈ mem ∧ (str mem).length + 1 ≤ size

instance (mem : Bytes) (size : Nat) : Decidable (Fits mem size) :=
  inferInstanceAs (Decidable (_ ∧ _))

theorem ne_zero_of_mem_str {mem : Bytes} {c : UInt8} (h : c ∈ str mem) : c ≠ 0 := by
  have hc := List.mem_takeWhile_imp h
  simpa only [bne_iff_ne, ne_eq] using hc

/-- A terminator ends the string, whatever comes behind it. -/
theorem str_append_zero {s : Bytes} (h : ∀ c ∈ s, c ≠ 0) (mem : Bytes) : str (s ++ 0 :: mem) = s := by
  have hall : ∀ c ∈ s, (c != 0) = true := fun c hc => bne_iff_ne.mpr (h c hc)
  rw [str, List.takeWhile_append_of_pos hall, List.takeWhile_cons_of_neg (by decide),
    List.append_nil]

/-- Without a terminator the string goes on into the memory behind. -/
theorem str_append {s : Bytes} (h : ∀ c ∈ s, c ≠ 0) (mem : Bytes) : str (s ++ mem) = s ++ str mem :=
  List.takeWhile_append_of_pos fun c hc => bne_iff_ne.mpr (h c hc)

/-- Bytes without a zero are a string. -/
theorem str_of_ne_zero {s : Bytes} (h : ∀ c ∈ s, c ≠ 0) : str s = s :=
  List.takeWhile_eq_self_iff.mpr fun c hc => bne_iff_ne.mpr (h c hc)

@[simp] theorem str_str (mem : Bytes) : str (str mem) = str mem :=
  str_of_ne_zero fun _ hc => ne_zero_of_mem_str hc

theorem take_str (mem : Bytes) (n : Nat) : (str mem).take n = str (mem.take n) := List.take_takeWhile

/-- A reader that stops after `n` bytes finds in a field filled by `strncpy` the first `n` bytes of
the source, even where the field has no terminator. -/
theorem take_str_strncpy (src mem : Bytes) (n : Nat) :
    (str (strncpy src n ++ mem)).take n = (str src).take n := by
  have hne : ∀ c ∈ (str src).take n, c ≠ 0 := fun c hc => ne_zero_of_mem_str (List.mem_of_mem_take hc)
  by_cases hlen : (str src).length < n
  · obtain ⟨k, hk⟩ : ∃ k, n - (str src).length = k + 1 := ⟨n - (str src).length - 1, by omega⟩
    rw [strncpy, hk, List.replicate_succ, List.append_assoc, List.cons_append,
      str_append_zero hne, List.take_take, Nat.min_self]
  · have hfull : ((str src).take n).length = n := by
      rw [List.length_take]
      omega
    rw [strncpy, Nat.sub_eq_zero_of_le (Nat.le_of_not_lt hlen), List.replicate_zero, List.append_nil,
      str_append hne, List.take_append_of_le_length (Nat.le_of_eq hfull.symm), List.take_take,
      Nat.min_self]

/-- Appending puts the bytes behind the string. -/
theorem str_strncat (dest src : Bytes) (n : Nat) :
    str (strncat dest src n) = str dest ++ (str src).take n := by
  have hpre : dest.take (str dest).length = str dest :=
    (List.prefix_iff_eq_take.mp (List.takeWhile_prefix _)).symm
  have hle : (str dest).length ≤ dest.length := (List.takeWhile_prefix _).length_le
  have hne : ∀ c ∈ str dest ++ (str src).take n, c ≠ 0 := by
    intro c hc
    rcases List.mem_append.mp hc with h | h
    · exact ne_zero_of_mem_str h
    · exact ne_zero_of_mem_str (List.mem_of_mem_take h)
  rw [strncat, splice, hpre, Nat.sub_eq_zero_of_le hle, List.replicate_zero, List.append_nil,
    ← List.append_assoc, List.append_assoc _ [0] _]
  exact str_append_zero hne _

/-- Appending leaves a terminator. -/
theorem zero_mem_strncat (dest src : Bytes) (n : Nat) : 0 ∈ strncat dest src n := by
  simp [strncat, splice]

/-- A zero at the start makes the string empty. -/
theorem str_set_zero (mem : Bytes) : str (mem.set 0 0) = [] := by
  cases mem with
  | nil => rfl
  | cons c mem => exact List.takeWhile_cons_of_neg (by decide)

end CString
