import Afs.Core.Frames

/-!
# Which calls keep a file's bytes

A file is changed through its name or through a descriptor on it. A call that does neither keeps
its bytes, whether it fails or not. Directories come and go only by the calls made for that.
-/

namespace Posix

namespace Fs

/-- The file under a name holds these bytes. -/
def Has (s : Fs) (q : Path) (b : Bytes) : Prop :=
  ∃ j, s.tree q = some (.file j) ∧ (s.node j).bytes = b

/-- The descriptor, if it is open, is not on the file under this name. -/
def Apart (s : Fs) (fd : Int) (q : Path) : Prop :=
  ∀ o, s.getFd fd = some o → s.tree q ≠ some (.file o.ino)

variable {s t : Fs} {p q : Path} {b : Bytes} {fd : Int}

theorem has_iff : s.Has q b ↔ (s.look q).map (·.bytes) = some b := by
  unfold Has look
  constructor
  · rintro ⟨j, hj, rfl⟩
    rw [hj]
    rfl
  · intro h
    split at h
    · next j hj => exact ⟨j, hj, Option.some.inj h⟩
    · cases h

theorem Has.look (h : s.Has q b) : ∃ f, s.look q = some f ∧ f.bytes = b :=
  Option.map_eq_some_iff.mp (has_iff.mp h)

theorem has_of_look {f : File} (h : s.look q = some f) : s.Has q f.bytes :=
  has_iff.mpr (by rw [h]; rfl)

/-- New bytes for another inode. -/
theorem Has.setBytes (h : s.Has q b) {i : Nat} (hi : s.tree q ≠ some (.file i)) (d : Bytes) :
    (s.setBytes i d).Has q b := by
  obtain ⟨j, hj, hb⟩ := h
  have hne : j ≠ i := fun he => hi (he ▸ hj)
  refine ⟨j, hj, ?_⟩
  simp only [Fs.setBytes, Fs.setNode, Function.update_of_ne hne]
  exact hb

/-- Other attributes for any inode. -/
theorem Has.setNode (h : s.Has q b) {i : Nat} {f : File} (hf : f.bytes = (s.node i).bytes) :
    (s.setNode i f).Has q b := by
  obtain ⟨j, hj, hb⟩ := h
  refine ⟨j, hj, ?_⟩
  by_cases hne : j = i
  · simp only [Fs.setNode, hne, Function.update_self, hf]
    rw [← hne]
    exact hb
  · simp only [Fs.setNode, Function.update_of_ne hne]
    exact hb

theorem Has.drop (h : s.Has q b) (hne : p ≠ q) : (s.drop p).Has q b := by
  obtain ⟨j, hj, hb⟩ := h
  exact ⟨j, (Function.update_of_ne (Ne.symm hne) ..).trans hj, hb⟩

theorem Has.putDir (h : s.Has q b) (hp : ∀ j, s.tree p ≠ some (.file j)) (a : Attr) :
    (s.putDir p a).Has q b := by
  obtain ⟨j, hj, hb⟩ := h
  have hne : q ≠ p := by
    rintro rfl
    exact hp j hj
  exact ⟨j, (Function.update_of_ne hne ..).trans hj, hb⟩

theorem Has.link (h : s.Has q b) (hp : s.tree p = none) (mode : Nat) : (s.link p mode).Has q b := by
  obtain ⟨j, hj, hb⟩ := h
  have hne : q ≠ p := by
    rintro rfl
    rw [hp] at hj
    cases hj
  have hlt := s.tree_lt q j hj
  refine ⟨j, (Function.update_of_ne hne ..).trans hj, ?_⟩
  simp only [Fs.link, Function.update_of_ne (Nat.ne_of_lt hlt)]
  exact hb

/-- Opening without `O_TRUNC`, or another file. -/
theorem Has.openFile (h : s.Has q b) {fl : Flags} {mode : Nat} (hq : fl.trunc = true → p ≠ q)
    (ho : s.openFile p fl mode = .ok (fd, t)) : t.Has q b := by
  unfold Fs.openFile at ho
  split at ho
  · cases ho
  · next i hi =>
    obtain ⟨-, rfl⟩ := Prod.mk.inj (Except.ok.inj ho)
    by_cases htr : fl.trunc = true
    · simp only [htr, if_true]
      exact h.setBytes (fun hqi => hq htr (s.tree_inj p q i hi hqi)) []
    · simp only [htr]
      exact h
  · next hfree =>
    split at ho
    · split at ho
      · obtain ⟨-, rfl⟩ := Prod.mk.inj (Except.ok.inj ho)
        exact h.link hfree mode
      · cases ho
    · cases ho

/-- After an open that succeeds the name stands for a file. -/
theorem tree_of_openFile {fl : Flags} {mode : Nat} (ho : s.openFile p fl mode = .ok (fd, t)) :
    ∃ i, t.tree p = some (.file i) := by
  unfold Fs.openFile at ho
  split at ho
  · cases ho
  · next i hi =>
    obtain ⟨-, rfl⟩ := Prod.mk.inj (Except.ok.inj ho)
    refine ⟨i, ?_⟩
    change (if fl.trunc = true then s.setBytes i [] else s).tree p = some (.file i)
    split <;> exact hi
  · split at ho
    · split at ho
      · obtain ⟨-, rfl⟩ := Prod.mk.inj (Except.ok.inj ho)
        exact ⟨s.next, Function.update_self ..⟩
      · cases ho
    · cases ho

/-- The descriptor of a file just opened is on no other file. -/
theorem openFile_apart {fl : Flags} {mode : Nat} (hne : p ≠ q)
    (ho : s.openFile p fl mode = .ok (fd, t)) : t.Apart fd q := by
  unfold Fs.openFile at ho
  split at ho
  · cases ho
  · next i hi =>
    obtain ⟨rfl, rfl⟩ := Prod.mk.inj (Except.ok.inj ho)
    intro o hfd hq
    obtain rfl := Option.some.inj ((getFd_install _ _).symm.trans hfd)
    have hq' : s.tree q = some (.file i) := by
      by_cases htr : fl.trunc = true
      · simp only [htr, if_true] at hq
        exact hq
      · simp only [htr] at hq
        exact hq
    exact hne (s.tree_inj p q i hi hq')
  · next hfree =>
    split at ho
    · split at ho
      · obtain ⟨rfl, rfl⟩ := Prod.mk.inj (Except.ok.inj ho)
        intro o hfd hq
        obtain rfl := Option.some.inj ((getFd_install _ _).symm.trans hfd)
        have hq' : s.tree q = some (.file s.next) := by
          rw [← hq]
          exact (Function.update_of_ne (Ne.symm hne) ..).symm
        exact absurd (s.tree_lt q _ hq') (Nat.lt_irrefl _)
      · cases ho
    · cases ho

theorem Has.write (h : s.Has q b) (ha : s.Apart fd q) {d : Bytes} {r : Int}
    (hw : s.write fd d = .ok (r, t)) : t.Has q b := by
  unfold Fs.write at hw
  split at hw
  · cases hw
  · next o ho =>
    split at hw
    · obtain ⟨-, rfl⟩ := Prod.mk.inj (Except.ok.inj hw)
      exact h
    · obtain ⟨-, rfl⟩ := Prod.mk.inj (Except.ok.inj hw)
      exact h.setBytes (ha o ho) _

end Fs

/-- The call neither changes the file under `q` by name nor writes through a descriptor. -/
def Sys.Spares (q : Path) : Sys → Prop
  | .openF p fl _ => fl.trunc = true → p ≠ q
  | .write .. | .pwrite .. | .ftruncate .. => False
  | .truncate p _ | .unlink p | .remove p => p ≠ q
  | .rename p p' => p ≠ q ∧ p' ≠ q
  | .close _ | .lstat _ | .fstat _ | .read .. | .pread .. | .lseek .. | .fsync _ | .mkdir .. | .rmdir _
  | .chmod .. | .lchown .. | .utimens .. | .readdir _ => True

variable {q : Path} {b : Bytes}

private theorem has_chattr {s t : Fs} {p : Path} {g : Attr → Attr} {r : Int} (h : s.Has q b)
    (hc : s.chattr p g = .ok (r, t)) : t.Has q b := by
  obtain ⟨-, ⟨i, -, rfl⟩ | ⟨d, -, -, rfl⟩⟩ := Fs.chattr_ok hc
  · exact h.setNode rfl
  · exact h

private theorem has_rmdir {s t : Fs} {p : Path} {r : Int} (h : s.Has q b)
    (hc : s.rmdir p = .ok (r, t)) : t.Has q b := by
  unfold Fs.rmdir at hc
  split at hc
  · next hd =>
    split at hc
    · cases hc
    · obtain ⟨-, rfl⟩ := Prod.mk.inj (Except.ok.inj hc)
      refine h.drop ?_
      rintro rfl
      obtain ⟨j, hj, -⟩ := h
      rw [hd] at hj
      cases hj
  · cases hc
  · cases hc

private theorem has_unlink {s t : Fs} {p : Path} {r : Int} (h : s.Has q b) (hne : p ≠ q)
    (hc : s.unlink p = .ok (r, t)) : t.Has q b := by
  unfold Fs.unlink at hc
  split at hc
  · obtain ⟨-, rfl⟩ := Prod.mk.inj (Except.ok.inj hc)
    exact h.drop hne
  · cases hc
  · cases hc

/-- A successful call that spares a file keeps its bytes. -/
theorem Sys.perform_has {c : Sys} (hc : c.Spares q) {limit : Option Nat} {s t : Fs} {r : c.Res}
    (h : s.Has q b) (hp : c.perform limit s = .ok (r, t)) : t.Has q b := by
  cases c with
  | openF p fl mode => exact h.openFile hc hp
  | lstat p | fstat p | pread fd n off | readdir p =>
      obtain ⟨x, -, hx⟩ := map_eq_ok.mp hp
      exact (Prod.mk.inj hx).2 ▸ h
  | close fd | lseek fd off | fsync fd =>
      simp only [Sys.perform, Fs.close, Fs.lseek, Fs.fsync] at hp
      split at hp
      · cases hp
      · obtain ⟨-, rfl⟩ := Prod.mk.inj (Except.ok.inj hp)
        exact h
  | read fd n =>
      obtain ⟨x, hx, he⟩ := map_eq_ok.mp hp
      unfold Fs.read at hx
      split at hx
      · cases hx
      · obtain rfl := Except.ok.inj hx
        exact (Prod.mk.inj he).2 ▸ h
  | truncate p n =>
      simp only [Sys.perform, Fs.truncate] at hp
      split at hp
      · cases hp
      split at hp
      · next i hi =>
        obtain ⟨-, rfl⟩ := Prod.mk.inj (Except.ok.inj hp)
        exact h.setBytes (fun hq => hc (s.tree_inj p q i hi hq)) _
      · cases hp
      · cases hp
  | unlink p => exact has_unlink h hc hp
  | remove p =>
      simp only [Sys.perform, Fs.remove] at hp
      split at hp
      · exact has_rmdir h hp
      · exact has_unlink h hc hp
  | rename p p' =>
      simp only [Sys.perform, Fs.rename] at hp
      split at hp
      · cases hp
      · cases hp
      · cases hp
      · obtain ⟨-, rfl⟩ := Prod.mk.inj (Except.ok.inj hp)
        obtain ⟨j, hj, hb⟩ := h
        refine ⟨j, ?_, hb⟩
        simp only [Fs.move, Function.update_of_ne (Ne.symm hc.2), Function.update_of_ne (Ne.symm hc.1)]
        exact hj
  | mkdir p mode =>
      obtain ⟨-, hfree, -, -, rfl⟩ := Fs.mkdir_ok hp
      refine h.putDir (fun j hj => ?_) _
      rw [hfree] at hj
      cases hj
  | rmdir p => exact has_rmdir h hp
  | chmod p mode | lchown p uid gid | utimens p atime mtime =>
      simp only [Sys.perform] at hp
      exact has_chattr h hp
  | write fd mem n | pwrite fd mem n off | ftruncate fd n => exact hc.elim

/-- A write through a descriptor on another file. -/
theorem Sys.exec_write_has {s : Proc} {fd : Int} (h : s.fs.Has q b) (ha : s.fs.Apart fd q)
    (mem : Bytes) (n : Nat) : ((Sys.write fd mem n).exec s).2.fs.Has q b := by
  rcases (Sys.write fd mem n).exec_cases s with ⟨-, hs⟩ | ⟨limit, hp⟩
  · rw [hs]
    exact h
  · simp only [Sys.perform] at hp
    split at hp
    · cases hp
    · exact h.write ha hp

/-- A call that spares a file keeps its bytes under any fault. -/
theorem Sys.exec_has {c : Sys} (hc : c.Spares q) {s : Proc} (h : s.fs.Has q b) :
    (c.exec s).2.fs.Has q b := by
  rcases c.exec_cases s with ⟨-, hs⟩ | ⟨limit, hp⟩
  · rw [hs]
    exact h
  · exact Sys.perform_has hc h hp

/-- The call neither makes a directory nor takes one away. -/
def Sys.KeepsDirs (s : Fs) : Sys → Prop
  | .mkdir .. => False
  | .rmdir p | .remove p => s.isDir p = false
  | _ => True

section KeepsDirs

variable {s t : Fs} {p : Path}

private theorem isDir_setFile {i : Nat} (h : s.tree p ≠ some .dir)
    (ht : t.tree = Function.update s.tree p (some (.file i))) : t.isDir = s.isDir := by
  funext q
  unfold Fs.isDir
  by_cases hq : q = p
  · rw [ht, hq, Function.update_self]
    cases hs : s.tree p with
    | none => rfl
    | some e =>
        cases e with
        | file j => rfl
        | dir => exact absurd hs h
  · rw [ht, Function.update_of_ne hq]

private theorem isDir_openFile {fl : Flags} {mode : Nat} {fd : Int}
    (h : s.openFile p fl mode = .ok (fd, t)) : t.isDir = s.isDir := by
  unfold Fs.openFile at h
  split at h
  · cases h
  · obtain ⟨-, rfl⟩ := Prod.mk.inj (Except.ok.inj h)
    split <;> rfl
  · next hn =>
    split at h
    · split at h
      · obtain ⟨-, rfl⟩ := Prod.mk.inj (Except.ok.inj h)
        refine isDir_setFile (fun ha => ?_) rfl
        rw [hn] at ha
        cases ha
      · cases h
    · cases h

private theorem isDir_unlink {r : Int} (h : s.unlink p = .ok (r, t)) : t.isDir = s.isDir := by
  unfold Fs.unlink at h
  split at h
  · next i hi =>
    obtain ⟨-, rfl⟩ := Prod.mk.inj (Except.ok.inj h)
    exact Fs.isDir_drop (Fs.isDir_of_tree_file hi)
  · cases h
  · cases h

private theorem isDir_rename {q : Path} {r : Int} (h : s.rename p q = .ok (r, t)) :
    t.isDir = s.isDir := by
  by_cases hpq : p = q
  · subst hpq
    unfold Fs.rename at h
    split at h
    · cases h
    · cases h
    · cases h
    · next i hi _ =>
      obtain ⟨-, rfl⟩ := Prod.mk.inj (Except.ok.inj h)
      refine isDir_setFile (fun ha => ?_) (i := i) (p := p) ?_
      · rw [hi] at ha
        cases ha
      · simp only [Fs.move, Function.update_idem, hi]
  · cases hl : s.look p with
    | none =>
        unfold Fs.rename at h
        split at h
        · cases h
        · cases h
        · cases h
        · next i hi _ =>
          rw [Fs.look_of_tree hi] at hl
          cases hl
    | some f =>
        have hd : s.isDir q = false := by
          unfold Fs.rename at h
          unfold Fs.isDir
          split at h
          · cases h
          · cases h
          · cases h
          · next hq =>
            split
            · next ha => exact absurd ha hq
            · rfl
        obtain ⟨u, hu, hs⟩ := Fs.rename_of_look hl hd hpq
        rw [hu] at h
        obtain ⟨-, rfl⟩ := Prod.mk.inj (Except.ok.inj h)
        exact hs.isDir

private theorem isDir_chattr {g : Attr → Attr} {r : Int} (h : s.chattr p g = .ok (r, t)) :
    t.isDir = s.isDir := by
  obtain ⟨-, ⟨i, -, rfl⟩ | ⟨d, -, -, rfl⟩⟩ := Fs.chattr_ok h <;> rfl

/-- A successful call that keeps the directories. -/
theorem Sys.perform_isDir {c : Sys} {limit : Option Nat} {r : c.Res} (hc : c.KeepsDirs s)
    (h : c.perform limit s = .ok (r, t)) : t.isDir = s.isDir := by
  cases c with
  | openF p fl mode => exact isDir_openFile h
  | lstat p | fstat p | pread fd n off | readdir p =>
      obtain ⟨x, -, hx⟩ := map_eq_ok.mp h
      rw [← (Prod.mk.inj hx).2]
  | read fd n =>
      obtain ⟨x, hx, he⟩ := map_eq_ok.mp h
      unfold Fs.read at hx
      split at hx
      · cases hx
      · obtain rfl := Except.ok.inj hx
        rw [← (Prod.mk.inj he).2]
        rfl
  | close fd | lseek fd off | fsync fd | ftruncate fd n =>
      simp only [Sys.perform, Fs.close, Fs.lseek, Fs.fsync, Fs.ftruncate] at h
      split at h
      · cases h
      · obtain ⟨-, rfl⟩ := Prod.mk.inj (Except.ok.inj h)
        rfl
  | write fd mem n | pwrite fd mem n off =>
      simp only [Sys.perform, Fs.write, Fs.pwrite] at h
      split at h
      · cases h
      split at h
      · cases h
      split at h
      all_goals
        obtain ⟨-, rfl⟩ := Prod.mk.inj (Except.ok.inj h)
        rfl
  | truncate p n =>
      simp only [Sys.perform, Fs.truncate] at h
      split at h
      · cases h
      split at h
      · obtain ⟨-, rfl⟩ := Prod.mk.inj (Except.ok.inj h)
        rfl
      · cases h
      · cases h
  | unlink p => exact isDir_unlink h
  | remove p =>
      have hd : s.isDir p = false := hc
      simp only [Sys.perform, Fs.remove_eq_unlink hd] at h
      exact isDir_unlink h
  | rmdir p =>
      have hd : s.isDir p = false := hc
      simp only [Sys.perform, Fs.rmdir] at h
      split at h
      · next ha => simp [Fs.isDir, ha] at hd
      · cases h
      · cases h
  | rename p q => exact isDir_rename h
  | chmod p mode | lchown p uid gid | utimens p atime mtime =>
      simp only [Sys.perform] at h
      exact isDir_chattr h
  | mkdir p mode => exact hc.elim

/-- The same under any fault. -/
theorem Sys.exec_isDir {c : Sys} {v : Proc} (hc : c.KeepsDirs v.fs) :
    (c.exec v).2.fs.isDir = v.fs.isDir := by
  rcases c.exec_cases v with ⟨-, hs⟩ | ⟨limit, hp⟩
  · rw [hs]
  · exact Sys.perform_isDir hc hp

end KeepsDirs

/-- The call changes no name and no file. -/
def Sys.ReadsOnly : Sys → Prop
  | .openF _ fl _ => fl.creat = false ∧ fl.trunc = false
  | .close _ | .lstat _ | .fstat _ | .read .. | .pread .. | .lseek .. | .fsync _ | .readdir _ => True
  | .write .. | .pwrite .. | .ftruncate .. | .truncate .. | .unlink _ | .remove _ | .rename ..
  | .mkdir .. | .rmdir _ | .chmod .. | .lchown .. | .utimens .. => False

/-- Such a call leaves what the names stand for. -/
theorem Sys.exec_readsOnly {c : Sys} (hc : c.ReadsOnly) (v : Proc) :
    (c.exec v).2.fs.look = v.fs.look := by
  rcases c.exec_cases v with ⟨-, hs⟩ | ⟨limit, hp⟩
  · rw [hs]
  generalize (c.exec v).2.fs = t at hp ⊢
  generalize (c.exec v).1 = r at hp
  cases c with
  | openF p fl mode =>
      simp only [Sys.perform, Fs.openFile, hc.1, hc.2, Bool.false_eq_true, if_false] at hp
      split at hp
      · cases hp
      · obtain ⟨-, rfl⟩ := Prod.mk.inj (Except.ok.inj hp)
        rfl
      · cases hp
  | lstat p | fstat p | pread fd n off | readdir p =>
      obtain ⟨x, -, hx⟩ := map_eq_ok.mp hp
      rw [← (Prod.mk.inj hx).2]
  | read fd n =>
      obtain ⟨x, hx, he⟩ := map_eq_ok.mp hp
      unfold Fs.read at hx
      split at hx
      · cases hx
      · obtain rfl := Except.ok.inj hx
        rw [← (Prod.mk.inj he).2]
        rfl
  | close fd | lseek fd off | fsync fd =>
      simp only [Sys.perform, Fs.close, Fs.lseek, Fs.fsync] at hp
      split at hp
      · cases hp
      · obtain ⟨-, rfl⟩ := Prod.mk.inj (Except.ok.inj hp)
        rfl
  | write fd mem n | pwrite fd mem n off | ftruncate fd n | truncate p n | unlink p | remove p
  | rename p q | mkdir p mode | rmdir p | chmod p mode | lchown p uid gid | utimens p a b =>
      exact hc.elim

section Missing

variable {s t : Fs} {p x : Path}

theorem Fs.look_eq_none : s.look x = none ↔ ∀ i, s.tree x ≠ some (.file i) := by
  unfold Fs.look
  constructor
  · intro h i hi
    simp only [hi, reduceCtorEq] at h
  · intro h
    split
    · next i hi => exact absurd hi (h i)
    · rfl

/-- Names without a file stay so where the tree gets only directories and free names. -/
private theorem missing_of_tree (hx : s.look x = none)
    (ht : ∀ i, t.tree x = some (.file i) → s.tree x = some (.file i)) : t.look x = none :=
  Fs.look_eq_none.mpr fun i hi => Fs.look_eq_none.mp hx i (ht i hi)

private theorem missing_drop (hx : s.look x = none) : (s.drop p).look x = none := by
  rw [Fs.look_drop]
  by_cases h : x = p
  · rw [h, Function.update_self]
  · rw [Function.update_of_ne h, hx]

private theorem missing_putDir (hx : s.look x = none) (a : Attr) : (s.putDir p a).look x = none := by
  refine missing_of_tree hx fun i hi => ?_
  by_cases h : x = p
  · simp only [Fs.putDir, h, Function.update_self, Option.some.injEq, reduceCtorEq] at hi
  · simpa only [Fs.putDir, Function.update_of_ne h] using hi

private theorem missing_openFile {fl : Flags} {mode : Nat} {fd : Int} (hx : s.look x = none)
    (hd : s.isDir (parent x) = false) (h : s.openFile p fl mode = .ok (fd, t)) :
    t.look x = none := by
  unfold Fs.openFile at h
  split at h
  · cases h
  · obtain ⟨-, rfl⟩ := Prod.mk.inj (Except.ok.inj h)
    refine missing_of_tree hx fun i hi => ?_
    split at hi
    · exact hi
    · exact hi
  · split at h
    · split at h
      · next hp =>
        obtain ⟨-, rfl⟩ := Prod.mk.inj (Except.ok.inj h)
        refine missing_of_tree hx fun i hi => ?_
        have hne : x ≠ p := by
          rintro rfl
          rw [hd] at hp
          cases hp
        simpa only [Fs.install, Fs.link, Function.update_of_ne hne] using hi
      · cases h
    · cases h

private theorem missing_rmdir {r : Int} (hx : s.look x = none) (h : s.rmdir p = .ok (r, t)) :
    t.look x = none := by
  unfold Fs.rmdir at h
  split at h
  · split at h
    · cases h
    · obtain ⟨-, rfl⟩ := Prod.mk.inj (Except.ok.inj h)
      exact missing_drop hx
  · cases h
  · cases h

private theorem missing_unlink {r : Int} (hx : s.look x = none) (h : s.unlink p = .ok (r, t)) :
    t.look x = none := by
  unfold Fs.unlink at h
  split at h
  · obtain ⟨-, rfl⟩ := Prod.mk.inj (Except.ok.inj h)
    exact missing_drop hx
  · cases h
  · cases h

private theorem missing_chattr {g : Attr → Attr} {r : Int} (hx : s.look x = none)
    (h : s.chattr p g = .ok (r, t)) : t.look x = none := by
  obtain ⟨-, ⟨i, -, rfl⟩ | ⟨d, -, -, rfl⟩⟩ := Fs.chattr_ok h <;>
    exact missing_of_tree hx fun i hi => hi

/-- No file comes up under a name whose directory is missing, unless one is renamed to it. -/
theorem Sys.perform_missing {c : Sys} {limit : Option Nat} {r : c.Res} (hc : ∀ p, c ≠ .rename p x)
    (hx : s.look x = none) (hd : s.isDir (parent x) = false)
    (h : c.perform limit s = .ok (r, t)) : t.look x = none := by
  cases c with
  | openF p fl mode => exact missing_openFile hx hd h
  | lstat p | fstat p | pread fd n off | readdir p =>
      obtain ⟨y, -, hy⟩ := map_eq_ok.mp h
      exact (Prod.mk.inj hy).2 ▸ hx
  | read fd n =>
      obtain ⟨y, hy, he⟩ := map_eq_ok.mp h
      unfold Fs.read at hy
      split at hy
      · cases hy
      · obtain rfl := Except.ok.inj hy
        exact (Prod.mk.inj he).2 ▸ hx
  | close fd | lseek fd off | fsync fd | ftruncate fd n =>
      simp only [Sys.perform, Fs.close, Fs.lseek, Fs.fsync, Fs.ftruncate] at h
      split at h
      · cases h
      · obtain ⟨-, rfl⟩ := Prod.mk.inj (Except.ok.inj h)
        exact missing_of_tree hx fun i hi => hi
  | write fd mem n | pwrite fd mem n off =>
      simp only [Sys.perform, Fs.write, Fs.pwrite] at h
      split at h
      · cases h
      split at h
      · cases h
      split at h
      all_goals
        obtain ⟨-, rfl⟩ := Prod.mk.inj (Except.ok.inj h)
        exact missing_of_tree hx fun i hi => hi
  | truncate p n =>
      simp only [Sys.perform, Fs.truncate] at h
      split at h
      · cases h
      split at h
      · obtain ⟨-, rfl⟩ := Prod.mk.inj (Except.ok.inj h)
        exact missing_of_tree hx fun i hi => hi
      · cases h
      · cases h
  | unlink p => exact missing_unlink hx h
  | remove p =>
      simp only [Sys.perform, Fs.remove] at h
      split at h
      · exact missing_rmdir hx h
      · exact missing_unlink hx h
  | rmdir p => exact missing_rmdir hx h
  | rename p q =>
      simp only [Sys.perform, Fs.rename] at h
      split at h
      · cases h
      · cases h
      · cases h
      · obtain ⟨-, rfl⟩ := Prod.mk.inj (Except.ok.inj h)
        have hne : x ≠ q := fun he => hc p (he ▸ rfl)
        refine missing_of_tree hx fun i hi => ?_
        simp only [Fs.move, Function.update_of_ne hne] at hi
        by_cases hp : x = p
        · simp only [hp, Function.update_self, reduceCtorEq] at hi
        · simpa only [Function.update_of_ne hp] using hi
  | chmod p mode | lchown p uid gid | utimens p atime mtime =>
      simp only [Sys.perform] at h
      exact missing_chattr hx h
  | mkdir p mode =>
      obtain ⟨-, -, -, -, rfl⟩ := Fs.mkdir_ok h
      exact missing_putDir hx _

end Missing

end Posix
