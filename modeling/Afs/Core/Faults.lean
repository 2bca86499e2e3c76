import Afs.Core.Contents
import Mathlib.Algebra.Ring.Int.Defs

/-!
# Calls under faults

A call meets the fault at the head of the list, or none. The fault makes it fail, or bounds what a
transfer moves. Whatever makes a call fail, it leaves a positive error number behind.
-/

namespace Posix

/-- The error number with which the call fails, if it does. -/
def Fault.error : Fault → Option Int
  | .fail e => some e
  | .ok | .short _ => none

/-- The bound on a transfer, if there is one. -/
def Fault.bound : Fault → Option Nat
  | .short n => some n
  | .ok | .fail _ => none

/-- How much of `n` bytes a transfer moves. -/
def Fault.moved (f : Fault) (n : Nat) : Nat := f.bound.elim n (min n)

@[simp] theorem Fault.error_ok : Fault.error .ok = none := rfl

@[simp] theorem Fault.moved_ok (n : Nat) : Fault.moved .ok n = n := rfl

/-- The error numbers of the system are positive and small. -/
def Fault.Real : Fault → Prop
  | .fail e => 0 < e ∧ e < 2 ^ 31
  | .ok | .short _ => True

instance : (f : Fault) → Decidable f.Real
  | .fail e => inferInstanceAs (Decidable (0 < e ∧ e < 2 ^ 31))
  | .ok | .short _ => .isTrue trivial

/-- What a call gives under a fault. -/
def Fault.outcome (f : Fault) (c : Sys) (s : Fs) : Except Int (c.Res × Fs) :=
  match f.error with
  | some e => .error e
  | none => c.perform f.bound s

theorem Fault.moved_le (f : Fault) (n : Nat) : f.moved n ≤ n := by
  unfold moved
  cases f.bound with
  | none => exact Nat.le_refl n
  | some k => exact Nat.min_le_left n k

/-- A bounded transfer moves a first part. -/
theorem Fault.limited_eq (f : Fault) (d : Bytes) : limited f.bound d = d.take (f.moved d.length) := by
  unfold moved limited
  cases f.bound with
  | none => exact List.take_length.symm
  | some n =>
      change d.take n = d.take (min d.length n)
      rw [List.take_eq_take_min, Nat.min_comm]

theorem Fault.outcome_of_error {f : Fault} {c : Sys} {s : Fs} {e : Int} (h : f.error = some e) :
    f.outcome c s = .error e := by
  simp only [outcome, h]

theorem Fault.outcome_of_fine {f : Fault} {c : Sys} {s : Fs} (h : f.error = none) :
    f.outcome c s = c.perform f.bound s := by
  simp only [outcome, h]

/-- The next call of a process consumes the next fault. -/
theorem Sys.exec_eq (c : Sys) (v : Proc) :
    c.exec v = c.finish { v with faults := v.faults.tail } ((v.faults.headD .ok).outcome c v.fs) := by
  unfold exec
  split <;> next hf =>
    rw [hf]
    first
    | rfl
    | (cases v
       simp only at hf
       subst hf
       rfl)

/-- The call gives the result of a failing one. -/
def Sys.Fails (c : Sys) (v : Proc) : Prop := (c.exec v).1 = c.failed

theorem Sys.exec_tail (c : Sys) (v : Proc) : (c.exec v).2.faults = v.faults.tail := by
  rw [exec_eq]
  unfold finish
  split <;> rfl

private theorem map_eq_error {α β ε : Type} {x : Except ε α} {f : α → β} {e : ε}
    (h : x.map f = .error e) : x = .error e := by
  cases x with
  | ok a => cases h
  | error e' => exact congrArg Except.error (Except.error.inj h)

/-- The system's own error numbers are real. -/
theorem Sys.perform_errno {c : Sys} {limit : Option Nat} {s : Fs} {e : Int}
    (h : c.perform limit s = .error e) : 0 < e ∧ e < 2 ^ 31 := by
  have hmem : e ∈ [ENOENT, EBADF, EFAULT, EEXIST, ENOTDIR, EISDIR, EINVAL, ENOTEMPTY] := by
    cases c with
    | openF p fl mode =>
        have habsent := s.absent_mem p
        simp only [perform, Fs.openFile] at h
        grind
    | close fd | fsync fd | lseek fd off | ftruncate fd n =>
        simp only [perform, Fs.close, Fs.fsync, Fs.lseek, Fs.ftruncate] at h
        grind
    | truncate p n | unlink p | remove p | rename p q | mkdir p mode | rmdir p =>
        have habsent := s.absent_mem p
        simp only [perform, Fs.truncate, Fs.unlink, Fs.remove, Fs.rmdir, Fs.rename, Fs.mkdir] at h
        grind
    | chmod p mode | lchown p uid gid | utimens p atime mtime =>
        have habsent := s.absent_mem p
        simp only [perform, Fs.chattr] at h
        grind
    | write fd mem n | pwrite fd mem n off =>
        simp only [perform, Fs.write, Fs.pwrite] at h
        grind
    | lstat p | readdir p =>
        have habsent := s.absent_mem p
        have h' := map_eq_error h
        simp only [Fs.lstat, Fs.readdir] at h'
        grind
    | fstat fd | read fd n | pread fd n off =>
        have h' := map_eq_error h
        simp only [Fs.fstat, Fs.read, Fs.pread] at h'
        grind
  simp only [List.mem_cons, List.not_mem_nil, or_false] at hmem
  rcases hmem with rfl | rfl | rfl | rfl | rfl | rfl | rfl | rfl <;> decide

theorem Fault.outcome_errno {f : Fault} {c : Sys} {s : Fs} {e : Int} (hf : f.Real)
    (h : f.outcome c s = .error e) : 0 < e ∧ e < 2 ^ 31 := by
  cases f with
  | fail e' =>
      obtain rfl := Except.error.inj h
      exact hf
  | ok | short n => exact Sys.perform_errno h

theorem real_headD {l : List Fault} (h : ∀ f ∈ l, f.Real) : (l.headD .ok).Real := by
  cases l with
  | nil => exact trivial
  | cons f l => exact h f List.mem_cons_self

/-- A call succeeds, or it leaves a positive error number. -/
theorem Sys.exec_cases_real (c : Sys) {v : Proc} (hreal : ∀ f ∈ v.faults, f.Real) :
    (∃ r t, (v.faults.headD .ok).outcome c v.fs = .ok (r, t) ∧
      c.exec v = (r, ⟨t, v.errno, v.faults.tail⟩)) ∨
    (∃ e, 0 < e ∧ e < 2 ^ 31 ∧ c.exec v = (c.failed, ⟨v.fs, e, v.faults.tail⟩)) := by
  rw [exec_eq]
  cases h : (v.faults.headD .ok).outcome c v.fs with
  | ok x => exact Or.inl ⟨x.1, x.2, rfl, rfl⟩
  | error e =>
      obtain ⟨hpos, hlt⟩ := Fault.outcome_errno (real_headD hreal) h
      exact Or.inr ⟨e, hpos, hlt, rfl⟩

/-- A positive error number stays positive. -/
theorem Sys.exec_errno_pos (c : Sys) {v : Proc} (hreal : ∀ f ∈ v.faults, f.Real) (h : 0 < v.errno) :
    0 < (c.exec v).2.errno := by
  rcases c.exec_cases_real hreal with ⟨r, t, -, he⟩ | ⟨e, hpos, -, he⟩
  · rw [he]
    exact h
  · rw [he]
    exact hpos

/-- An open that succeeds gives a descriptor. -/
theorem Fs.openFile_fd {s t : Fs} {p : Path} {fl : Flags} {mode : Nat} {fd : Int}
    (h : s.openFile p fl mode = .ok (fd, t)) : 0 ≤ fd := by
  have hinstall : ∀ (u : Fs) (o : OpenFile), u.install o = (fd, t) → 0 ≤ fd := by
    intro u o hu
    obtain ⟨rfl, -⟩ := Prod.mk.inj hu
    exact Int.natCast_nonneg _
  unfold openFile at h
  split at h
  · cases h
  · exact hinstall _ _ (Except.ok.inj h)
  · split at h
    · split at h
      · exact hinstall _ _ (Except.ok.inj h)
      · cases h
    · cases h

/-- An open either gives a descriptor or leaves a positive error number, if its faults are real. -/
theorem Sys.openF_cases (p : Path) (fl : Flags) (mode : Nat) {v : Proc}
    (hreal : ∀ f ∈ v.faults, f.Real) :
    ((0 : Int) ≤ ((Sys.openF p fl mode).exec v).1 ∧ ¬ (Sys.openF p fl mode).Fails v) ∨
      ((Sys.openF p fl mode).Fails v ∧ 0 < ((Sys.openF p fl mode).exec v).2.errno ∧
        ((Sys.openF p fl mode).exec v).2.errno < 2 ^ 31) := by
  unfold Fails
  rcases (Sys.openF p fl mode).exec_cases_real hreal with ⟨fd, t, hout, he⟩ | ⟨e, hpos, hlt, he⟩
  · have h0 : 0 ≤ fd := by
      unfold Fault.outcome at hout
      split at hout
      · cases hout
      · exact Fs.openFile_fd hout
    left
    rw [he]
    refine ⟨h0, fun hm => ?_⟩
    obtain rfl : fd = (-1 : Int) := hm
    exact absurd h0 (show ¬ (0 : Int) ≤ -1 by decide)
  · right
    rw [he]
    exact ⟨rfl, hpos, hlt⟩

end Posix
