import Mathlib.Data.List.Basic

/-!
# Byte strings and positioned writes

`splice` is the effect of a positioned write on the contents of a file: bytes at the offset are
replaced, and a gap between the old end and the offset reads as zeros. `overwrite` is the effect
of a write call, which does nothing without bytes; a sequence of calls acts from left to right.
-/

namespace Posix

/-- Contents of files and buffers. -/
abbrev Bytes := List UInt8

/-- Write `d` at offset `off` into `b`; a gap before the offset is filled with zeros. -/
def splice (b : Bytes) (off : Nat) (d : Bytes) : Bytes :=
  b.take off ++ List.replicate (off - b.length) 0 ++ d ++ b.drop (off + d.length)

/-- At most `n` bytes of `b` from offset `off`, cut at the end of `b`. -/
def slice (b : Bytes) (off n : Nat) : Bytes := (b.drop off).take n

/-- The contents set to length `n`: cut, or extended with zeros. -/
def resize (b : Bytes) (n : Nat) : Bytes := b.take n ++ List.replicate (n - b.length) 0

/-- The effect of one write call: without bytes it changes nothing. -/
def overwrite (b : Bytes) (off : Nat) (d : Bytes) : Bytes := if d = [] then b else splice b off d

/-- Write calls applied in order. -/
def overwriteAll (b : Bytes) (ws : List (Nat × Bytes)) : Bytes :=
  ws.foldl (fun c w => overwrite c w.1 w.2) b

@[simp] theorem length_splice (b : Bytes) (off : Nat) (d : Bytes) :
    (splice b off d).length = max b.length (off + d.length) := by
  simp only [splice, List.length_append, List.length_take, List.length_replicate,
    List.length_drop]
  omega

/-- Writing at the start of an empty file stores exactly the buffer. -/
@[simp] theorem splice_nil_zero (d : Bytes) : splice [] 0 d = d := by simp [splice]

/-- Writing at the start keeps only what lies beyond the buffer. -/
theorem splice_zero (b d : Bytes) : splice b 0 d = d ++ b.drop d.length := by simp [splice]

/-- A buffer at least as long as the file replaces it. -/
theorem splice_zero_of_le {b d : Bytes} (h : b.length ≤ d.length) : splice b 0 d = d := by
  rw [splice_zero, List.drop_eq_nil_of_le h, List.append_nil]

/-- Writing at the end appends. -/
theorem splice_length (b d : Bytes) : splice b b.length d = b ++ d := by
  simp [splice, List.drop_eq_nil_of_le]

/-- A positioned write gives the same on two files that agree before the offset, with the gap as
zeros, and behind the bytes written. -/
theorem splice_eq_splice_iff (a b : Bytes) (off : Nat) (d : Bytes) :
    splice a off d = splice b off d ↔
      resize a off = resize b off ∧ a.drop (off + d.length) = b.drop (off + d.length) := by
  have hlen : ∀ c : Bytes, (resize c off).length = off := by
    intro c
    rw [resize, List.length_append, List.length_take, List.length_replicate]
    omega
  change resize a off ++ d ++ _ = resize b off ++ d ++ _ ↔ _
  constructor
  · intro h
    rw [List.append_assoc, List.append_assoc] at h
    obtain ⟨hfront, hrest⟩ := List.append_inj h (by rw [hlen, hlen])
    exact ⟨hfront, List.append_cancel_left hrest⟩
  · rintro ⟨hfront, hback⟩
    rw [hfront, hback]

/-- A first part with zeros behind it, at another length. -/
theorem resize_take_zeros (b : Bytes) (k m n : Nat) :
    ∃ k' m', resize (b.take k ++ List.replicate m 0) n = b.take k' ++ List.replicate m' 0 := by
  refine ⟨min n k, min (n - (b.take k).length) m + (n - (b.take k ++ List.replicate m 0).length), ?_⟩
  rw [resize, List.take_append, List.take_take, List.take_replicate, List.append_assoc,
    List.replicate_append_replicate]

/-- A slice never passes the end of the contents. -/
theorem length_slice_le (b : Bytes) (off n : Nat) : (slice b off n).length ≤ n := by
  simp only [slice, List.length_take]
  omega

@[simp] theorem slice_zero_length (b : Bytes) : slice b 0 b.length = b := by simp [slice]

@[simp] theorem overwrite_nil (b : Bytes) (off : Nat) : overwrite b off [] = b := if_pos rfl

theorem overwrite_of_ne_nil (b : Bytes) (off : Nat) {d : Bytes} (h : d ≠ []) :
    overwrite b off d = splice b off d := if_neg h

/-- A write call that covers the file replaces it. -/
theorem overwrite_zero_of_le {b d : Bytes} (h : b.length ≤ d.length) : overwrite b 0 d = d := by
  by_cases hd : d = []
  · subst hd
    rw [overwrite_nil]
    exact List.eq_nil_of_length_eq_zero (Nat.le_zero.mp h)
  · rw [overwrite_of_ne_nil b 0 hd, splice_zero_of_le h]

/-- A write call never leaves a file longer than the old end and the end of the bytes. -/
theorem length_overwrite_le (b : Bytes) (off : Nat) (d : Bytes) :
    (overwrite b off d).length ≤ max b.length (off + d.length) := by
  unfold overwrite
  split
  · exact Nat.le_max_left _ _
  · exact Nat.le_of_eq (length_splice b off d)

/-- A write call leaves a file at least as long as before, and as long as the end of the bytes. -/
theorem le_length_overwrite (b : Bytes) (off : Nat) (d : Bytes) :
    b.length ≤ (overwrite b off d).length ∧ (d ≠ [] → off + d.length ≤ (overwrite b off d).length) := by
  unfold overwrite
  split
  · exact ⟨Nat.le_refl _, fun h => absurd ‹_› h⟩
  · rw [length_splice]
    exact ⟨Nat.le_max_left _ _, fun _ => Nat.le_max_right _ _⟩

@[simp] theorem overwriteAll_nil (b : Bytes) : overwriteAll b [] = b := rfl

@[simp] theorem overwriteAll_append (b : Bytes) (ws us : List (Nat × Bytes)) :
    overwriteAll b (ws ++ us) = overwriteAll (overwriteAll b ws) us := by
  simp only [overwriteAll, List.foldl_append]

@[simp] theorem overwriteAll_singleton (b : Bytes) (off : Nat) (d : Bytes) :
    overwriteAll b [(off, d)] = overwrite b off d := rfl

/-- Write calls never make a file shorter. -/
theorem le_length_overwriteAll (b : Bytes) (ws : List (Nat × Bytes)) :
    b.length ≤ (overwriteAll b ws).length := by
  induction ws generalizing b with
  | nil => exact Nat.le_refl _
  | cons w ws ih => exact Nat.le_trans (le_length_overwrite b w.1 w.2).1 (ih _)

end Posix
