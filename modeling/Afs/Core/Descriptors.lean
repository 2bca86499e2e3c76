import Mathlib.Data.Set.Insert
import Afs.Core.Frames

/-!
# The descriptors that a process holds

An open that succeeds adds a descriptor that was free, a close that succeeds takes its descriptor away,
and no other call changes which descriptors are held.
-/

namespace Posix

namespace Fs

variable {s t : Fs}

/-- The descriptors that are open. -/
def held (s : Fs) : Set Int := {fd | s.getFd fd ≠ none}

theorem neg_one_not_held : (-1 : Int) ∉ s.held := fun h => h rfl

theorem held_of_none (h : s.fds.all Option.isNone = true) : s.held = ∅ := by
  ext fd
  refine iff_of_false (fun hin => hin ?_) id
  cases fd with
  | negSucc n => rfl
  | ofNat n =>
      rw [getFd]
      cases hn : s.fds[n]? with
      | none => rfl
      | some o => exact Option.isNone_iff_eq_none.mp (List.all_eq_true.mp h o (List.mem_of_getElem? hn))

theorem held_of_fds (h : t.fds = s.fds) : t.held = s.held := by
  ext fd
  cases fd <;> simp only [held, getFd, h]

theorem held_install (s : Fs) (o : OpenFile) :
    (s.install o).1 ∉ s.held ∧ (s.install o).2.held = insert (s.install o).1 s.held := by
  refine ⟨fun h => h (getFd_install_free s o), ?_⟩
  ext fd
  by_cases hfd : fd = (s.install o).1
  · subst hfd
    simp only [held, Set.mem_ofPred_eq, getFd_install, Set.mem_insert_iff, true_or, ne_eq, reduceCtorEq,
      not_false_iff]
  · simp only [held, Set.mem_ofPred_eq, getFd_install_other s o hfd, Set.mem_insert_iff, hfd, false_or]

theorem held_setFd {fd : Int} {o : OpenFile} (h : s.getFd fd ≠ none) :
    (s.setFd fd (some o)).held = s.held := by
  ext g
  simp only [held, Set.mem_ofPred_eq, getFd_setFd s fd g _ h]
  by_cases hg : g = fd
  · subst hg
    simp only [if_true, ne_eq, reduceCtorEq, not_false_iff, h]
  · rw [if_neg hg]

theorem held_setFd_none {fd : Int} (h : s.getFd fd ≠ none) : (s.setFd fd none).held = s.held \ {fd} := by
  ext g
  simp only [held, Set.mem_ofPred_eq, getFd_setFd s fd g _ h, Set.mem_sdiff, Set.mem_singleton_iff]
  by_cases hg : g = fd
  · simp only [hg, if_true, ne_eq, not_true_eq_false, and_false]
  · simp only [hg, if_false, not_false_iff, and_true]

theorem held_openFile {p : Path} {fl : Flags} {mode : Nat} {fd : Int}
    (h : s.openFile p fl mode = .ok (fd, t)) : fd ≠ -1 ∧ fd ∉ s.held ∧ t.held = insert fd s.held := by
  have hinstall : ∀ (u : Fs) (o : OpenFile), u.fds = s.fds → u.install o = (fd, t) →
      fd ≠ -1 ∧ fd ∉ s.held ∧ t.held = insert fd s.held := by
    intro u o hu hi
    obtain ⟨hfree, hheld⟩ := held_install u o
    rw [hi, held_of_fds hu] at hfree hheld
    refine ⟨?_, hfree, hheld⟩
    obtain ⟨rfl, -⟩ := Prod.mk.inj hi
    intro hminus
    exact absurd (Int.natCast_nonneg _) (by rw [hminus]; decide)
  unfold openFile at h
  split at h
  · cases h
  · refine hinstall _ _ ?_ (Except.ok.inj h)
    split <;> rfl
  · split at h
    · split at h
      · exact hinstall (s.link p mode) _ rfl (Except.ok.inj h)
      · cases h
    · cases h

end Fs

/-- What a call with this result makes of the held descriptors. -/
def Sys.Passes : (c : Sys) → Set Int → c.Res → Set Int → Prop
  | .openF .., H, fd, H' => fd = (-1 : Int) ∧ H' = H ∨ fd ≠ (-1 : Int) ∧ fd ∉ H ∧ H' = insert fd H
  | .close fd, H, r, H' => r = (-1 : Int) ∧ H' = H ∨ r ≠ (-1 : Int) ∧ fd ∈ H ∧ H' = H \ {fd}
  | .ftruncate fd _, H, r, H' => (fd = -1 → r = (-1 : Int)) ∧ H' = H
  | .lstat _, H, _, H' | .fstat _, H, _, H' | .read .., H, _, H' | .pread .., H, _, H'
  | .write .., H, _, H' | .pwrite .., H, _, H' | .lseek .., H, _, H' | .truncate .., H, _, H'
  | .fsync _, H, _, H' | .unlink _, H, _, H' | .remove _, H, _, H'
  | .rename .., H, _, H' | .mkdir .., H, _, H' | .rmdir _, H, _, H' | .chmod .., H, _, H'
  | .lchown .., H, _, H' | .utimens .., H, _, H' | .readdir _, H, _, H' => H' = H

theorem Sys.perform_held {c : Sys} {limit : Option Nat} {s t : Fs} {r : c.Res}
    (h : c.perform limit s = .ok (r, t)) : c.Passes s.held r t.held := by
  cases c with
  | openF p fl mode => exact Or.inr (Fs.held_openFile h)
  | close fd =>
      simp only [perform, Fs.close] at h
      split at h
      · cases h
      · next o ho =>
        obtain ⟨rfl, rfl⟩ := Prod.mk.inj (Except.ok.inj h)
        have hne : s.getFd fd ≠ none := by
          rw [ho]
          exact Option.some_ne_none o
        exact Or.inr ⟨show (0 : Int) ≠ -1 by decide, hne, Fs.held_setFd_none hne⟩
  | lstat p | fstat fd | pread fd n off | readdir p =>
      obtain ⟨x, -, hx⟩ := map_eq_ok.mp h
      exact congrArg Fs.held (Prod.mk.inj hx).2.symm
  | read fd n =>
      obtain ⟨x, hread, hx⟩ := map_eq_ok.mp h
      obtain ⟨-, rfl⟩ := Prod.mk.inj hx
      unfold Fs.read at hread
      split at hread
      · cases hread
      · next o ho =>
        obtain rfl := Except.ok.inj hread
        exact Fs.held_setFd (by rw [ho]; exact Option.some_ne_none o)
  | lseek fd off =>
      simp only [perform, Fs.lseek] at h
      split at h
      · cases h
      · next o ho =>
        obtain ⟨-, rfl⟩ := Prod.mk.inj (Except.ok.inj h)
        exact Fs.held_setFd (by rw [ho]; exact Option.some_ne_none o)
  | write fd mem n =>
      simp only [perform, Fs.write] at h
      split at h
      · cases h
      · split at h
        · cases h
        · next o ho =>
          split at h
          · obtain ⟨-, rfl⟩ := Prod.mk.inj (Except.ok.inj h)
            rfl
          · obtain ⟨-, rfl⟩ := Prod.mk.inj (Except.ok.inj h)
            have hopen : s.getFd fd ≠ none := by
              rw [ho]
              exact Option.some_ne_none o
            exact (Fs.held_setFd hopen).trans (Fs.held_of_fds rfl)
  | ftruncate fd n =>
      simp only [perform, Fs.ftruncate] at h
      split at h
      · cases h
      · next o ho =>
        obtain ⟨-, rfl⟩ := Prod.mk.inj (Except.ok.inj h)
        refine ⟨?_, Fs.held_of_fds rfl⟩
        rintro rfl
        cases ho
  | pwrite fd mem n off | truncate p n | fsync fd | unlink p | remove p | rename p q
  | mkdir p mode | rmdir p | chmod p mode | lchown p uid gid | utimens p atime mtime =>
      simp only [perform, Fs.pwrite, Fs.truncate, Fs.fsync, Fs.remove, Fs.unlink, Fs.rename,
        Fs.mkdir, Fs.rmdir, Fs.chattr] at h
      repeat' split at h
      all_goals cases h <;> exact Fs.held_of_fds rfl

/-- The same under any fault. -/
theorem Sys.exec_held (c : Sys) (v : Proc) : c.Passes v.fs.held (c.exec v).1 (c.exec v).2.fs.held := by
  rcases c.exec_cases v with ⟨hr, hs⟩ | ⟨limit, hp⟩
  · rw [hr, hs]
    cases c with
    | openF p fl mode | close fd => exact Or.inl ⟨rfl, rfl⟩
    | ftruncate fd n => exact ⟨fun _ => rfl, rfl⟩
    | _ => rfl
  · exact Sys.perform_held hp

end Posix
