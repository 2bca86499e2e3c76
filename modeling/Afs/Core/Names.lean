import Afs.Core.Syscall

/-!
# System calls seen through names

Every call of the programs is described here by its effect on the files that names stand for, on
the directories and on the other descriptors. Inode and descriptor numbers do not show: a
descriptor is known only by the name of the file it is open on.
-/

namespace Posix

namespace Fs

/-- The descriptor is open, at this offset and mode, on the file that `p` names. -/
def Holds (s : Fs) (fd : Int) (p : Path) (off : Nat) (app : Bool) : Prop :=
  ∃ i, s.getFd fd = some ⟨i, off, app⟩ ∧ s.tree p = some (.file i)

/-- A step after which names stand for `files`; directories and the clock are untouched. -/
structure Steps (s t : Fs) (files : Path → Option File) : Prop where
  /-- What the names stand for afterwards. -/
  look : t.look = files
  /-- Directories stay. -/
  isDir : t.isDir = s.isDir
  /-- The clock is moved by the environment only. -/
  clock : t.clock = s.clock

theorem Steps.refl (s : Fs) : s.Steps s s.look := ⟨rfl, rfl, rfl⟩

theorem Steps.trans {s t u : Fs} {f g : Path → Option File} (h : s.Steps t f)
    (k : t.Steps u g) : s.Steps u g :=
  ⟨k.look, k.isDir.trans h.isDir, k.clock.trans h.clock⟩

/-- At most the listed names stand for something else; directories and the clock are untouched. -/
structure Only (s t : Fs) (ps : List Path) : Prop where
  /-- Every other name stands for the same file. -/
  look : ∀ q, q ∉ ps → t.look q = s.look q
  /-- Directories stay. -/
  isDir : t.isDir = s.isDir
  /-- The clock is moved by the environment only. -/
  clock : t.clock = s.clock

theorem Only.refl (s : Fs) (ps : List Path) : s.Only s ps := ⟨fun _ _ => rfl, rfl, rfl⟩

theorem Only.trans {s t u : Fs} {ps qs : List Path} (h : s.Only t ps) (k : t.Only u qs) :
    s.Only u (ps ++ qs) := by
  refine ⟨fun q hq => ?_, k.isDir.trans h.isDir, k.clock.trans h.clock⟩
  rw [List.mem_append, not_or] at hq
  exact (k.look q hq.2).trans (h.look q hq.1)

theorem Only.mono {s t : Fs} {ps qs : List Path} (h : s.Only t ps) (hsub : ps ⊆ qs) :
    s.Only t qs :=
  ⟨fun q hq => h.look q fun hm => hq (hsub hm), h.isDir, h.clock⟩

theorem Steps.only {s t : Fs} {p : Path} {x : Option File}
    (h : s.Steps t (Function.update s.look p x)) : s.Only t [p] := by
  refine ⟨fun q hq => ?_, h.isDir, h.clock⟩
  rw [h.look, Function.update_of_ne (List.ne_of_not_mem_cons hq)]

theorem Steps.only_nil {s t : Fs} (h : s.Steps t s.look) : s.Only t [] :=
  ⟨fun q _ => congrFun h.look q, h.isDir, h.clock⟩

/-- Every other descriptor keeps its file. -/
def Keeps (s t : Fs) (fd : Int) : Prop :=
  ∀ fd' q o a, fd' ≠ fd → s.Holds fd' q o a → t.Holds fd' q o a

/-- Every descriptor keeps its file. -/
def KeepsAll (s t : Fs) : Prop := ∀ fd q o a, s.Holds fd q o a → t.Holds fd q o a

theorem look_of_tree {s : Fs} {p : Path} {i : Nat} (h : s.tree p = some (.file i)) :
    s.look p = some (s.node i) := by simp only [look, h]

/-- A descriptor held on a path shows that the file exists. -/
theorem look_of_holds {s : Fs} {fd : Int} {p : Path} {off : Nat} {app : Bool}
    (h : s.Holds fd p off app) : ∃ f, s.look p = some f := by
  obtain ⟨i, _, ht⟩ := h
  exact ⟨_, look_of_tree ht⟩

theorem look_eq_some {s : Fs} {p : Path} {f : File} :
    s.look p = some f ↔ ∃ i, s.tree p = some (.file i) ∧ s.node i = f := by
  unfold look
  cases h : s.tree p with
  | none => simp
  | some e => cases e <;> simp

/-- A name that is neither a file nor a directory is free. -/
theorem tree_eq_none {s : Fs} {p : Path} (h : s.look p = none) (hd : s.isDir p = false) :
    s.tree p = none := by
  unfold look at h
  unfold isDir at hd
  cases ht : s.tree p with
  | none => rfl
  | some e => cases e <;> simp [ht] at h hd

/-- The error numbers for a path that names nothing. -/
theorem absent_mem (s : Fs) (p : Path) : s.absent p ∈ [EISDIR, ENOTDIR, ENOENT] := by
  unfold absent
  split
  · decide
  · split <;> decide

theorem absent_pos (s : Fs) (p : Path) : 0 < s.absent p := by
  have h := s.absent_mem p
  simp only [List.mem_cons, List.not_mem_nil, or_false] at h
  rcases h with h | h | h <;> rw [h] <;> decide

/-- A reply has it as an error as well. -/
theorem ofInt_absent_ne_zero (s : Fs) (p : Path) : Int32.ofInt (s.absent p) ≠ 0 := by
  have h := s.absent_mem p
  simp only [List.mem_cons, List.not_mem_nil, or_false] at h
  rcases h with h | h | h <;> rw [h] <;> decide

/-- A path that names something stands for itself. -/
theorem named_of_tree {s : Fs} {p : Path} (h : s.tree p ≠ none) : s.named p = p := by
  unfold named
  split
  · rfl
  · next hnone => exact absurd hnone h

theorem tree_of_isDir {s : Fs} {p : Path} (h : s.isDir p = true) : s.tree p = some .dir := by
  unfold isDir at h
  split at h
  · assumption
  · cases h

theorem isDir_of_tree_file {s : Fs} {p : Path} {i : Nat} (h : s.tree p = some (.file i)) :
    s.isDir p = false := by simp only [isDir, h]

/-- A name of a file is no directory. -/
theorem isDir_of_look {s : Fs} {p : Path} {f : File} (h : s.look p = some f) :
    s.isDir p = false := by
  obtain ⟨i, hi, _⟩ := look_eq_some.mp h
  exact isDir_of_tree_file hi

theorem getFd_setFd (s : Fs) (fd fd' : Int) (o : Option OpenFile) (h : s.getFd fd ≠ none) :
    (s.setFd fd o).getFd fd' = if fd' = fd then o else s.getFd fd' := by
  cases fd with
  | negSucc n => exact absurd rfl h
  | ofNat n =>
      have hn : n < s.fds.length := by
        by_contra hge
        apply h
        simp only [getFd, List.getElem?_eq_none (Nat.le_of_not_lt hge), Option.join_none]
      cases fd' with
      | negSucc m => simp [getFd]
      | ofNat m =>
          by_cases hm : m = n
          · subst hm
            simp [getFd, setFd, List.getElem?_set_self hn]
          · have hne : (Int.ofNat m) ≠ Int.ofNat n := fun he => hm (Int.ofNat.inj he)
            rw [if_neg hne]
            simp only [getFd, setFd, Int.ofNat_eq_natCast, Int.toNat_natCast]
            rw [List.getElem?_set_ne (Ne.symm hm)]

theorem getFd_install (s : Fs) (o : OpenFile) :
    (s.install o).2.getFd (s.install o).1 = some o := by
  simp only [install, getFd, allocFd_self, Option.join_some]

theorem getFd_install_free (s : Fs) (o : OpenFile) : s.getFd (s.install o).1 = none := by
  simp only [install, getFd, allocFd_free]

theorem getFd_install_other (s : Fs) (o : OpenFile) {fd : Int} (h : fd ≠ (s.install o).1) :
    (s.install o).2.getFd fd = s.getFd fd := by
  cases fd with
  | negSucc n => rfl
  | ofNat n =>
      have hn : n ≠ (allocFd s.fds o).1 := fun he => h (by simp only [install, he]; rfl)
      simp only [install, getFd, allocFd_other s.fds o n hn]

/-- A new descriptor is none of those in use, and these keep their files. -/
theorem holds_install (s : Fs) (o : OpenFile) {fd : Int} {q : Path} {off : Nat} {app : Bool}
    (h : s.Holds fd q off app) :
    fd ≠ (s.install o).1 ∧ (s.install o).2.Holds fd q off app := by
  obtain ⟨i, hfd, ht⟩ := h
  have hne : fd ≠ (s.install o).1 := by
    intro he
    rw [he, getFd_install_free] at hfd
    cases hfd
  exact ⟨hne, i, by rw [getFd_install_other s o hne]; exact hfd, ht⟩

/-- Replacing the file of an inode replaces what its name stands for. -/
theorem look_setNode {s : Fs} {p : Path} {i : Nat} (h : s.tree p = some (.file i)) (f : File) :
    (s.setNode i f).look = Function.update s.look p (some f) := by
  funext q
  by_cases hq : q = p
  · subst hq
    simp only [look, setNode, h, Function.update_self]
  · rw [Function.update_of_ne hq]
    unfold look
    simp only [setNode]
    cases hs : s.tree q with
    | none => rfl
    | some e =>
        cases e with
        | dir => rfl
        | file j =>
            have hj : j ≠ i := by
              intro he
              subst he
              exact hq (s.tree_inj q p j hs h)
            simp only [Function.update_of_ne hj]

/-- A new name stands for the new file, and the inodes in use are not touched. -/
theorem look_link (s : Fs) (p : Path) (mode : Nat) :
    (s.link p mode).look = Function.update s.look p (some (s.newFile mode)) := by
  funext q
  by_cases hq : q = p
  · subst hq
    simp only [look, link, Function.update_self]
  · rw [Function.update_of_ne hq]
    unfold look
    simp only [link, Function.update_of_ne hq]
    cases hs : s.tree q with
    | none => rfl
    | some e =>
        cases e with
        | dir => rfl
        | file j =>
            have hj : j ≠ s.next := Nat.ne_of_lt (s.tree_lt q j hs)
            simp only [Function.update_of_ne hj]

theorem isDir_link {s : Fs} {p : Path} (h : s.isDir p = false) (mode : Nat) :
    (s.link p mode).isDir = s.isDir := by
  funext q
  by_cases hq : q = p
  · subst hq
    rw [h]
    simp only [isDir, link, Function.update_self]
  · simp only [isDir, link, Function.update_of_ne hq]

theorem holds_link {s : Fs} {p : Path} (h : s.look p = none) (mode : Nat)
    {fd : Int} {q : Path} {off : Nat} {app : Bool} (hh : s.Holds fd q off app) :
    (s.link p mode).Holds fd q off app := by
  obtain ⟨i, hfd, ht⟩ := hh
  have hq : q ≠ p := by
    intro he
    subst he
    rw [look_of_tree ht] at h
    cases h
  exact ⟨i, hfd, by simp only [link, Function.update_of_ne hq, ht]⟩

/-- Contents replaced through a name, with the modification time of now. -/
def stamped (s : Fs) (f : File) (b : Bytes) : File :=
  { f with bytes := b, mtim := s.clock, ctime := s.clock.tv_sec }

@[simp] theorem stamped_bytes (s : Fs) (f : File) (b : Bytes) : (s.stamped f b).bytes = b := rfl

@[simp] theorem stamped_mtim (s : Fs) (f : File) (b : Bytes) :
    (s.stamped f b).mtim = s.clock := rfl

theorem steps_setBytes {s : Fs} {p : Path} {i : Nat} (h : s.tree p = some (.file i)) (b : Bytes) :
    s.Steps (s.setBytes i b) (Function.update s.look p (some (s.stamped (s.node i) b))) :=
  ⟨look_setNode h _, rfl, rfl⟩

/-- Opening a file that exists, without truncation. -/
theorem openFile_of_look {s : Fs} {p : Path} {f : File} (h : s.look p = some f) (fl : Flags)
    (hfl : fl.trunc = false) (mode : Nat) :
    ∃ fd t, s.openFile p fl mode = .ok (fd, t) ∧ 0 ≤ fd ∧ t.Holds fd p 0 fl.append ∧
      s.Steps t s.look ∧
      ∀ fd' q o a, s.Holds fd' q o a → fd' ≠ fd ∧ t.Holds fd' q o a := by
  obtain ⟨i, ht, rfl⟩ := look_eq_some.mp h
  refine ⟨_, _, ?_, ?_, ⟨i, getFd_install s ⟨i, 0, fl.append⟩, ht⟩, ⟨rfl, rfl, rfl⟩, ?_⟩
  · simp only [openFile, ht, hfl, Bool.false_eq_true, if_false]
  · simp only [install, Int.natCast_nonneg]
  · intro fd' q o a hh
    exact holds_install s _ hh

/-- Opening a name that is neither a file nor a directory fails without `O_CREAT`. -/
theorem openFile_missing {s : Fs} {p : Path} (h : s.look p = none) (hd : s.isDir p = false)
    (fl : Flags) (hfl : fl.creat = false) (mode : Nat) : s.openFile p fl mode = .error (s.absent p) := by
  simp only [openFile, tree_eq_none h hd, hfl, Bool.false_eq_true, if_false]

/-- A creating open of a free name makes an empty file. -/
theorem openFile_creat {s : Fs} {p : Path} (h : s.look p = none) (hd : s.isDir p = false)
    (hp : s.isDir (parent p) = true) (fl : Flags) (hfl : fl.creat = true) (mode : Nat) :
    ∃ fd t, s.openFile p fl mode = .ok (fd, t) ∧ 0 ≤ fd ∧ t.Holds fd p 0 fl.append ∧
      s.Steps t (Function.update s.look p (some (s.newFile mode))) ∧
      ∀ fd' q o a, s.Holds fd' q o a → fd' ≠ fd ∧ t.Holds fd' q o a := by
  refine ⟨_, _, ?_, ?_, ⟨s.next, getFd_install (s.link p mode) ⟨s.next, 0, fl.append⟩, ?_⟩,
    ⟨look_link s p mode, isDir_link hd mode, rfl⟩, ?_⟩
  · simp only [openFile, tree_eq_none h hd, hfl, hp, if_true]
  · simp only [install, Int.natCast_nonneg]
  · simp only [install, link, Function.update_self]
  · intro fd' q o a hh
    exact holds_install (s.link p mode) _ (holds_link h mode hh)

theorem stamped_congr {s t : Fs} (h : t.clock = s.clock) (f : File) (b : Bytes) :
    t.stamped f b = s.stamped f b := by
  unfold stamped
  rw [h]

/-- Opening a file that exists, with truncation. -/
theorem openFile_trunc_of_look {s : Fs} {p : Path} {f : File} (h : s.look p = some f) (fl : Flags)
    (hfl : fl.trunc = true) (mode : Nat) :
    ∃ fd t, s.openFile p fl mode = .ok (fd, t) ∧ 0 ≤ fd ∧ t.Holds fd p 0 fl.append ∧
      s.Steps t (Function.update s.look p (some (s.stamped f []))) ∧
      ∀ fd' q o a, s.Holds fd' q o a → fd' ≠ fd ∧ t.Holds fd' q o a := by
  obtain ⟨i, ht, rfl⟩ := look_eq_some.mp h
  refine ⟨_, _, ?_, ?_, ⟨i, getFd_install (s.setBytes i []) ⟨i, 0, fl.append⟩, ht⟩,
    ⟨(steps_setBytes ht []).look, rfl, rfl⟩, ?_⟩
  · simp only [openFile, ht, hfl, if_true]
  · simp only [install, Int.natCast_nonneg]
  · intro fd' q o a hh
    exact holds_install (s.setBytes i []) _ hh

/-- Opening with `O_CREAT` and `O_TRUNC` leaves an empty file stamped with the time of now. -/
theorem openFile_trunc {s : Fs} {p : Path} (hd : s.isDir p = false)
    (hp : s.look p = none → s.isDir (parent p) = true) (fl : Flags) (hc : fl.creat = true)
    (hfl : fl.trunc = true) (mode : Nat) :
    ∃ fd t f, s.openFile p fl mode = .ok (fd, t) ∧ 0 ≤ fd ∧ t.Holds fd p 0 fl.append ∧
      s.Steps t (Function.update s.look p (some f)) ∧ f.bytes = [] ∧ f.mtim = s.clock ∧
      ∀ fd' q o a, s.Holds fd' q o a → fd' ≠ fd ∧ t.Holds fd' q o a := by
  cases hl : s.look p with
  | none =>
      obtain ⟨fd, t, ho, h0, hh, hs, hk⟩ := openFile_creat hl hd (hp hl) fl hc mode
      exact ⟨fd, t, _, ho, h0, hh, hs, rfl, rfl, hk⟩
  | some g =>
      obtain ⟨fd, t, ho, h0, hh, hs, hk⟩ := openFile_trunc_of_look hl fl hfl mode
      exact ⟨fd, t, _, ho, h0, hh, hs, rfl, rfl, hk⟩

theorem getFd_ne_none {s : Fs} {fd : Int} {p : Path} {off : Nat} {app : Bool}
    (h : s.Holds fd p off app) : s.getFd fd ≠ none := by
  obtain ⟨i, hi, _⟩ := h
  rw [hi]
  exact Option.some_ne_none _

theorem holds_setFd_other {s : Fs} {fd fd' : Int} {o : Option OpenFile} (h : s.getFd fd ≠ none)
    (hne : fd' ≠ fd) {q : Path} {off : Nat} {app : Bool} (hh : s.Holds fd' q off app) :
    (s.setFd fd o).Holds fd' q off app := by
  obtain ⟨i, hfd, ht⟩ := hh
  exact ⟨i, by rw [getFd_setFd s fd fd' o h, if_neg hne]; exact hfd, ht⟩

/-- Closing a descriptor leaves the files and the other descriptors. -/
theorem close_of_holds {s : Fs} {fd : Int} {p : Path} {off : Nat} {app : Bool}
    (h : s.Holds fd p off app) :
    ∃ t, s.close fd = .ok (0, t) ∧ s.Steps t s.look ∧ s.Keeps t fd := by
  have hne := getFd_ne_none h
  obtain ⟨i, hfd, _⟩ := h
  refine ⟨s.setFd fd none, by simp only [close, hfd], ⟨rfl, rfl, rfl⟩, ?_⟩
  intro fd' q o a hd hh
  exact holds_setFd_other hne hd hh

theorem lstat_of_look {s : Fs} {p : Path} {f : File} (h : s.look p = some f) :
    ∃ i, s.lstat p = .ok (f.stat i) := by
  obtain ⟨i, ht, rfl⟩ := look_eq_some.mp h
  exact ⟨i, by simp only [lstat, ht]⟩

theorem lstat_missing {s : Fs} {p : Path} (h : s.look p = none) (hd : s.isDir p = false)
    (ht : s.isDir (trimmed p) = false) : s.lstat p = .error (s.absent p) := by
  simp only [lstat, tree_eq_none h hd, ht, Bool.false_eq_true, if_false]

theorem fstat_of_holds {s : Fs} {fd : Int} {p : Path} {off : Nat} {app : Bool} {f : File}
    (h : s.Holds fd p off app) (hf : s.look p = some f) : ∃ i, s.fstat fd = .ok (f.stat i) := by
  obtain ⟨i, hfd, ht⟩ := h
  rw [look_of_tree ht, Option.some.injEq] at hf
  exact ⟨i, by simp only [fstat, hfd, hf]⟩

/-- Reading moves the offset and nothing else. -/
theorem read_of_holds {s : Fs} {fd : Int} {p : Path} {off : Nat} {app : Bool} {f : File}
    (h : s.Holds fd p off app) (hf : s.look p = some f) (n : Nat) :
    ∃ t, s.read fd n = .ok (slice f.bytes off n, t) ∧ s.Steps t s.look ∧ s.Keeps t fd ∧
      t.Holds fd p (off + (slice f.bytes off n).length) app := by
  have hne := getFd_ne_none h
  obtain ⟨i, hfd, ht⟩ := h
  rw [look_of_tree ht, Option.some.injEq] at hf
  subst hf
  refine ⟨s.setFd fd (some ⟨i, off + (slice (s.node i).bytes off n).length, app⟩),
    by simp only [read, hfd], ⟨rfl, rfl, rfl⟩, ?_, i, ?_, ht⟩
  · intro fd' q o a hd hh
    exact holds_setFd_other hne hd hh
  · rw [getFd_setFd s fd fd _ hne, if_pos rfl]

theorem pread_of_holds {s : Fs} {fd : Int} {p : Path} {off : Nat} {app : Bool} {f : File}
    (h : s.Holds fd p off app) (hf : s.look p = some f) (n at_ : Nat) :
    s.pread fd n at_ = .ok (slice f.bytes at_ n) := by
  obtain ⟨i, hfd, ht⟩ := h
  rw [look_of_tree ht, Option.some.injEq] at hf
  simp only [pread, hfd, hf]

/-- Setting the offset. -/
theorem lseek_of_holds {s : Fs} {fd : Int} {p : Path} {off : Nat} {app : Bool}
    (h : s.Holds fd p off app) (n : Nat) :
    ∃ t, s.lseek fd n = .ok ((n : Int), t) ∧ s.Steps t s.look ∧ s.Keeps t fd ∧
      t.Holds fd p n app := by
  have hne := getFd_ne_none h
  obtain ⟨i, hfd, ht⟩ := h
  refine ⟨s.setFd fd (some ⟨i, n, app⟩), by simp only [lseek, hfd], ⟨rfl, rfl, rfl⟩, ?_, i, ?_, ht⟩
  · intro fd' q o a hd hh
    exact holds_setFd_other hne hd hh
  · rw [getFd_setFd s fd fd _ hne, if_pos rfl]

/-- A write into an empty file stores the buffer, whatever its length. -/
theorem write_of_empty {s : Fs} {fd : Int} {p : Path} {app : Bool} {f : File}
    (h : s.Holds fd p 0 app) (hf : s.look p = some f) (hb : f.bytes = []) (d : Bytes) :
    ∃ t g, s.write fd d = .ok ((d.length : Int), t) ∧
      s.Steps t (Function.update s.look p (some g)) ∧ g.bytes = d ∧
      (f.mtim = s.clock → g.mtim = s.clock) ∧ s.Keeps t fd ∧ t.Holds fd p d.length app := by
  have hne := getFd_ne_none h
  obtain ⟨i, hfd, ht⟩ := h
  rw [look_of_tree ht, Option.some.injEq] at hf
  subst hf
  by_cases hd : d = []
  · subst hd
    refine ⟨s, s.node i, by simp [write, hfd], ?_, hb, id, fun _ _ _ _ _ hh => hh, i, hfd, ht⟩
    rw [← look_of_tree ht, Function.update_eq_self]
    exact Steps.refl s
  · refine ⟨(s.setBytes i d).setFd fd (some ⟨i, d.length, app⟩), s.stamped (s.node i) d, ?_,
      ⟨(steps_setBytes ht d).look, rfl, rfl⟩, rfl, fun _ => rfl, ?_, i, ?_, ht⟩
    · simp only [write, hfd, hd, if_false, hb, List.length_nil, ite_self, Nat.zero_add,
        splice_nil_zero]
    · intro fd' q o a hd' hh
      exact holds_setFd_other (s := s.setBytes i d) hne hd' hh
    · rw [getFd_setFd (s.setBytes i d) fd fd _ hne, if_pos rfl]

/-- A write into a file that was emptied now. -/
theorem write_of_stamped {s : Fs} {fd : Int} {p : Path} {app : Bool} {f : File}
    (h : s.Holds fd p 0 app) (hf : s.look p = some (s.stamped f [])) (d : Bytes) :
    ∃ t, s.write fd d = .ok ((d.length : Int), t) ∧
      s.Steps t (Function.update s.look p (some (s.stamped f d))) ∧ t.Holds fd p d.length app := by
  have hne := getFd_ne_none h
  obtain ⟨i, hfd, ht⟩ := h
  by_cases hd : d = []
  · subst hd
    refine ⟨s, by simp [write, hfd], ?_, i, hfd, ht⟩
    rw [← hf, Function.update_eq_self]
    exact Steps.refl s
  · rw [look_of_tree ht, Option.some.injEq] at hf
    have hb : (s.node i).bytes = [] := congrArg File.bytes hf
    refine ⟨(s.setBytes i d).setFd fd (some ⟨i, d.length, app⟩), ?_,
      ⟨?_, rfl, rfl⟩, i, ?_, ht⟩
    · simp only [write, hfd, hd, if_false, hb, List.length_nil, ite_self, Nat.zero_add,
        splice_nil_zero]
    · have hset := (steps_setBytes ht d).look
      rw [hf] at hset
      exact hset
    · rw [getFd_setFd (s.setBytes i d) fd fd _ hne, if_pos rfl]

/-- A write through a descriptor whose writes do not append. A write of no bytes leaves the
modification time as well. -/
theorem write_of_holds {s : Fs} {fd : Int} {p : Path} {off : Nat} {f : File}
    (h : s.Holds fd p off false) (hf : s.look p = some f) (d : Bytes) :
    ∃ t g, s.write fd d = .ok ((d.length : Int), t) ∧
      s.Steps t (Function.update s.look p (some g)) ∧ g.bytes = overwrite f.bytes off d ∧
      g.mtim = (if d = [] then f.mtim else s.clock) ∧ s.Keeps t fd ∧
      t.Holds fd p (off + d.length) false := by
  have hne := getFd_ne_none h
  obtain ⟨i, hfd, ht⟩ := h
  rw [look_of_tree ht, Option.some.injEq] at hf
  subst hf
  by_cases hd : d = []
  · subst hd
    refine ⟨s, s.node i, by simp [write, hfd], ?_, rfl, rfl, fun _ _ _ _ _ hh => hh, i, hfd, ht⟩
    rw [← look_of_tree ht, Function.update_eq_self]
    exact Steps.refl s
  · refine ⟨(s.setBytes i (splice (s.node i).bytes off d)).setFd fd
        (some ⟨i, off + d.length, false⟩), s.stamped (s.node i) (splice (s.node i).bytes off d), ?_,
      ⟨(steps_setBytes ht _).look, rfl, rfl⟩, ?_, ?_, ?_, i, ?_, ht⟩
    · simp only [write, hfd, hd, if_false, Bool.false_eq_true]
    · rw [stamped_bytes, overwrite, if_neg hd]
    · rw [stamped_mtim, if_neg hd]
    · intro fd' q o a hd' hh
      exact holds_setFd_other (s := s.setBytes i _) hne hd' hh
    · rw [getFd_setFd (s.setBytes i _) fd fd _ hne, if_pos rfl]

/-- A write through a descriptor whose writes append. -/
theorem write_append {s : Fs} {fd : Int} {p : Path} {off : Nat} {f : File}
    (h : s.Holds fd p off true) (hf : s.look p = some f) (d : Bytes) :
    ∃ t g, s.write fd d = .ok ((d.length : Int), t) ∧
      s.Steps t (Function.update s.look p (some g)) ∧ g.bytes = f.bytes ++ d := by
  have hne := getFd_ne_none h
  obtain ⟨i, hfd, ht⟩ := h
  rw [look_of_tree ht, Option.some.injEq] at hf
  subst hf
  by_cases hd : d = []
  · subst hd
    refine ⟨s, s.node i, by simp [write, hfd], ?_, (List.append_nil _).symm⟩
    rw [← look_of_tree ht, Function.update_eq_self]
    exact Steps.refl s
  · refine ⟨(s.setBytes i (splice (s.node i).bytes (s.node i).bytes.length d)).setFd fd
        (some ⟨i, (s.node i).bytes.length + d.length, true⟩),
      s.stamped (s.node i) (splice (s.node i).bytes (s.node i).bytes.length d), ?_,
      ⟨(steps_setBytes ht _).look, rfl, rfl⟩, splice_length _ _⟩
    simp only [write, hfd, hd, if_false, if_true]

/-- A positioned write of at least one byte. -/
theorem pwrite_of_holds {s : Fs} {fd : Int} {p : Path} {off : Nat} {app : Bool} {f : File}
    (h : s.Holds fd p off app) (hf : s.look p = some f) {d : Bytes} (hd : d ≠ []) (at_ : Nat) :
    ∃ t, s.pwrite fd d at_ = .ok ((d.length : Int), t) ∧
      s.Steps t (Function.update s.look p (some (s.stamped f (splice f.bytes at_ d)))) ∧
      ∀ fd' q o a, s.Holds fd' q o a → t.Holds fd' q o a := by
  obtain ⟨i, hfd, ht⟩ := h
  rw [look_of_tree ht, Option.some.injEq] at hf
  subst hf
  exact ⟨_, by simp only [pwrite, hfd, hd, if_false], steps_setBytes ht _, fun _ _ _ _ hh => hh⟩

/-- Emptying a file through a descriptor. -/
theorem ftruncate_zero_of_holds {s : Fs} {fd : Int} {p : Path} {off : Nat} {app : Bool}
    {f : File} (h : s.Holds fd p off app) (hf : s.look p = some f) :
    ∃ t, s.ftruncate fd 0 = .ok (0, t) ∧
      s.Steps t (Function.update s.look p (some (s.stamped f []))) ∧
      ∀ fd' q o a, s.Holds fd' q o a → t.Holds fd' q o a := by
  obtain ⟨i, hfd, ht⟩ := h
  rw [look_of_tree ht, Option.some.injEq] at hf
  subst hf
  refine ⟨_, by simp only [ftruncate, hfd, resize, List.take_zero, Nat.zero_sub,
    List.replicate_zero, List.append_nil], steps_setBytes ht _, fun _ _ _ _ hh => hh⟩

theorem fsync_of_holds {s : Fs} {fd : Int} {p : Path} {off : Nat} {app : Bool}
    (h : s.Holds fd p off app) : s.fsync fd = .ok (0, s) := by
  obtain ⟨i, hfd, _⟩ := h
  simp only [fsync, hfd]

theorem look_drop (s : Fs) (p : Path) : (s.drop p).look = Function.update s.look p none := by
  funext q
  by_cases hq : q = p
  · subst hq
    simp only [look, drop, Function.update_self]
  · simp only [look, drop, Function.update_of_ne hq]

theorem isDir_drop {s : Fs} {p : Path} (h : s.isDir p = false) : (s.drop p).isDir = s.isDir := by
  funext q
  by_cases hq : q = p
  · subst hq
    rw [h]
    simp only [isDir, drop, Function.update_self]
  · simp only [isDir, drop, Function.update_of_ne hq]

/-- Removing a file frees its name; descriptors on other names are untouched. -/
theorem unlink_of_look {s : Fs} {p : Path} {f : File} (h : s.look p = some f) :
    ∃ t, s.unlink p = .ok (0, t) ∧ s.Steps t (Function.update s.look p none) ∧
      ∀ fd q o a, q ≠ p → s.Holds fd q o a → t.Holds fd q o a := by
  obtain ⟨i, ht, rfl⟩ := look_eq_some.mp h
  refine ⟨s.drop p, by simp only [unlink, ht],
    ⟨look_drop s p, isDir_drop (isDir_of_tree_file ht), rfl⟩, ?_⟩
  rintro fd q o a hq ⟨j, hfd, hj⟩
  exact ⟨j, hfd, by simp only [drop, Function.update_of_ne hq, hj]⟩

theorem unlink_missing {s : Fs} {p : Path} (h : s.look p = none) (hd : s.isDir p = false) :
    s.unlink p = .error (s.absent p) := by simp only [unlink, tree_eq_none h hd]

/-- What a change of attributes can do: it changes those of the file, or of a directory that the path
stands for. -/
theorem chattr_ok {s t : Fs} {p : Path} {g : Attr → Attr} {r : Int} (h : s.chattr p g = .ok (r, t)) :
    r = 0 ∧ ((∃ i, s.tree p = some (.file i) ∧
        t = s.setNode i { s.altered g (s.node i).toAttr with bytes := (s.node i).bytes }) ∨
      ∃ d, (d = p ∨ s.tree p = none ∧ d = trimmed p) ∧ s.tree d = some .dir ∧
        t = s.setDir d (s.altered g (s.dirs d))) := by
  unfold chattr at h
  split at h
  · next i hi =>
    obtain ⟨rfl, rfl⟩ := Prod.mk.inj (Except.ok.inj h)
    exact ⟨rfl, Or.inl ⟨i, hi, rfl⟩⟩
  · next hd =>
    obtain ⟨rfl, rfl⟩ := Prod.mk.inj (Except.ok.inj h)
    exact ⟨rfl, Or.inr ⟨p, Or.inl rfl, hd, rfl⟩⟩
  · next hfree =>
    split at h
    · next hd =>
      obtain ⟨rfl, rfl⟩ := Prod.mk.inj (Except.ok.inj h)
      exact ⟨rfl, Or.inr ⟨_, Or.inr ⟨hfree, rfl⟩, tree_of_isDir hd, rfl⟩⟩
    · cases h

/-- What a new directory needs. -/
theorem mkdir_ok {s t : Fs} {p : Path} {mode : Nat} {r : Int} (h : s.mkdir p mode = .ok (r, t)) :
    r = 0 ∧ s.tree p = none ∧ s.isDir (trimmed p) = false ∧ s.isDir (parent p) = true ∧
      t = s.putDir p (s.newAttr (S_IFDIR + mode % 0o2000)) := by
  unfold mkdir at h
  split at h
  · cases h
  · next hfree =>
    split at h
    · cases h
    · next htrim =>
      split at h
      · next hpar =>
        obtain ⟨rfl, rfl⟩ := Prod.mk.inj (Except.ok.inj h)
        exact ⟨rfl, hfree, by simpa only [Bool.not_eq_true] using htrim, hpar, rfl⟩
      · cases h

theorem remove_eq_unlink {s : Fs} {p : Path} (hd : s.isDir p = false) :
    s.remove p = s.unlink p := by simp only [remove, hd, Bool.false_eq_true, if_false]

/-- Renaming a file moves what the old name stood for. -/
theorem rename_of_look {s : Fs} {p q : Path} {f : File} (h : s.look p = some f)
    (hd : s.isDir q = false) (hne : p ≠ q) :
    ∃ t, s.rename p q = .ok (0, t) ∧
      s.Steps t (Function.update (Function.update s.look p none) q (some f)) := by
  obtain ⟨i, ht, rfl⟩ := look_eq_some.mp h
  have hq : s.tree q ≠ some .dir := by
    intro ha
    simp only [isDir, ha, Bool.true_eq_false] at hd
  refine ⟨s.move p q, ?_, ⟨?_, ?_, rfl⟩⟩
  · unfold rename
    rw [ht]
    cases hs : s.tree q with
    | none => rfl
    | some e =>
        cases e with
        | file j => rfl
        | dir => exact absurd hs hq
  · funext r
    by_cases hr : r = q
    · subst hr
      simp only [look, move, Function.update_self, ht]
    · by_cases hrp : r = p
      · subst hrp
        simp only [look, move, Function.update_of_ne hr, Function.update_self]
      · simp only [look, move, Function.update_of_ne hr, Function.update_of_ne hrp]
  · funext r
    by_cases hr : r = q
    · subst hr
      rw [hd]
      simp only [isDir, move, Function.update_self, ht]
    · by_cases hrp : r = p
      · subst hrp
        simp only [isDir, move, Function.update_of_ne hr, Function.update_self, ht]
      · simp only [isDir, move, Function.update_of_ne hr, Function.update_of_ne hrp]

end Fs

open Interaction

/-- A write whose count is the length of the buffer takes the buffer and no memory behind it. -/
theorem perform_write {s t : Fs} {fd : Int} {d mem : Bytes} {n : Nat} (hn : n = d.length)
    (hm : d <+: mem) (h : s.write fd d = .ok ((d.length : Int), t)) :
    Sys.perform none (.write fd mem n) s = .ok ((d.length : Int), t) := by
  subst hn
  have hlt : ¬ mem.length < d.length := Nat.not_lt.mpr hm.length_le
  simp only [Sys.perform, hlt, if_false, limited_none, ← List.prefix_iff_eq_take.mp hm, h]

/-- A positioned write whose count is the length of the buffer. -/
theorem perform_pwrite {s t : Fs} {fd : Int} {d : Bytes} {off : Nat}
    (h : s.pwrite fd d off = .ok ((d.length : Int), t)) :
    Sys.perform none (.pwrite fd d d.length off) s = .ok ((d.length : Int), t) := by
  simp only [Sys.perform, Nat.lt_irrefl, if_false, limited_none, List.take_length, h]

/-- A normal system call inside a program that has no faults to come. -/
theorem ProcCmd.yields_sys {α : Type} {c : Sys} {s : Proc} {f : c.Res → Prog procSig α}
    {Q : α → Proc → Prop} {r : c.Res} {t : Fs} (hf : s.faults = [])
    (h : c.perform none s.fs = .ok (r, t))
    (hk : Prog.Yields ProcCmd.exec (f r) { s with fs := t } Q) :
    Prog.Yields ProcCmd.exec (Prog.call (σ := procSig) (.sys c) >>= f) s Q :=
  Prog.Yields.call (Sys.exec_ok hf h) hk

/-- A failing system call inside a program that has no faults to come. -/
theorem ProcCmd.yields_sys_error {α : Type} {c : Sys} {s : Proc} {f : c.Res → Prog procSig α}
    {Q : α → Proc → Prop} {e : Int} (hf : s.faults = [])
    (h : c.perform none s.fs = .error e)
    (hk : Prog.Yields ProcCmd.exec (f c.failed) { s with errno := e } Q) :
    Prog.Yields ProcCmd.exec (Prog.call (σ := procSig) (.sys c) >>= f) s Q :=
  Prog.Yields.call (Sys.exec_error hf h) hk

end Posix
