import Afs.Core.Contents

/-!
# Files that nobody has open

As long as no descriptor is open on a file, only a call that names it can change it. Such a file is
sealed with its bytes; every other call keeps it so. What concerns a file, and when a call succeeds,
is decided here by looking at the state that the call finds.
-/

namespace Posix

namespace Fs

/-- No descriptor is open on the file under `q`. -/
def Unopened (s : Fs) (q : Path) : Prop := ∀ fd, s.Apart fd q

/-- The file under `q` has these bytes and nobody has it open. -/
structure Sealed (s : Fs) (q : Path) (b : Bytes) : Prop where
  /-- The bytes. -/
  has : s.Has q b
  /-- No open descriptor. -/
  unopened : s.Unopened q

/-- Whether a descriptor is open on the file under `q`. -/
def isOpenOn (s : Fs) (q : Path) (fd : Int) : Bool :=
  match s.getFd fd, s.tree q with
  | some o, some (.file i) => o.ino == i
  | _, _ => false

variable {s t : Fs} {p q : Path} {b : Bytes}

theorem isOpenOn_iff {fd : Int} :
    s.isOpenOn q fd = true ↔ ∃ o, s.getFd fd = some o ∧ s.tree q = some (.file o.ino) := by
  unfold isOpenOn
  constructor
  · intro h
    split at h
    · next o i ho hi =>
      exact ⟨o, ho, by rw [hi, beq_iff_eq.mp h]⟩
    · cases h
  · rintro ⟨o, ho, hi⟩
    rw [ho, hi]
    exact beq_self_eq_true o.ino

/-- The name stands for the same file, and every open descriptor is on a file that one was on
before. -/
private theorem Unopened.of_fds (h : s.Unopened q) (ht : t.tree q = s.tree q)
    (hfd : ∀ fd o, t.getFd fd = some o → ∃ fd' o', s.getFd fd' = some o' ∧ o'.ino = o.ino) :
    t.Unopened q := by
  intro fd o ho
  obtain ⟨fd', o', ho', he⟩ := hfd fd o ho
  rw [ht, ← he]
  exact h fd' o' ho'

private theorem Unopened.of_tree (h : s.Unopened q) (hfds : t.fds = s.fds)
    (ht : t.tree q = s.tree q) : t.Unopened q := by
  refine h.of_fds ht fun fd o ho => ⟨fd, o, ?_, rfl⟩
  cases fd with
  | ofNat n => simpa only [getFd, hfds] using ho
  | negSucc n => cases ho

private theorem Unopened.setFd {fd : Int} {o x : OpenFile} (h : s.Unopened q)
    (ho : s.getFd fd = some o) (hx : x.ino = o.ino) : (s.setFd fd (some x)).Unopened q := by
  refine h.of_fds rfl fun g y hy => ?_
  rw [getFd_setFd s fd g _ (by rw [ho]; exact Option.some_ne_none o)] at hy
  split at hy
  · obtain rfl := Option.some.inj hy
    exact ⟨fd, o, ho, hx.symm⟩
  · exact ⟨g, y, hy, rfl⟩

private theorem Unopened.openFile {fl : Flags} {mode : Nat} {fd : Int} (h : s.Unopened q)
    (hne : p ≠ q) (ho : s.openFile p fl mode = .ok (fd, t)) : t.Unopened q := by
  intro g
  by_cases hg : g = fd
  · rw [hg]
    exact openFile_apart hne ho
  · intro o hgo
    unfold Fs.openFile at ho
    split at ho
    · cases ho
    · next i hi =>
      obtain ⟨hfd, rfl⟩ := Prod.mk.inj (Except.ok.inj ho)
      replace hgo := (getFd_install_other _ _ fun he => hg (he.trans hfd)).symm.trans hgo
      by_cases htr : fl.trunc = true
      · simp only [htr, if_true] at hgo ⊢
        exact h g o hgo
      · simp only [htr] at hgo ⊢
        exact h g o hgo
    · next hfree =>
      split at ho
      · split at ho
        · obtain ⟨hfd, rfl⟩ := Prod.mk.inj (Except.ok.inj ho)
          replace hgo := (getFd_install_other _ _ fun he => hg (he.trans hfd)).symm.trans hgo
          have hq : (s.link p mode).tree q = s.tree q := Function.update_of_ne (Ne.symm hne) ..
          change (s.link p mode).tree q ≠ _
          rw [hq]
          exact h g o hgo
        · cases ho
      · cases ho

end Fs

/-- The call does not name `q` in a way that could change it. -/
def Sys.Avoids (q : Path) : Sys → Prop
  | .openF p .. | .truncate p _ | .unlink p | .remove p => p ≠ q
  | .rename p p' => p ≠ q ∧ p' ≠ q
  | .close _ | .lstat _ | .fstat _ | .read .. | .pread .. | .write .. | .pwrite .. | .lseek ..
  | .ftruncate .. | .fsync _ | .mkdir .. | .rmdir _ | .chmod .. | .lchown .. | .utimens ..
  | .readdir _ => True

/-- The call names `q`, or goes through a descriptor on the file under `q`. -/
def Sys.Concerns (q : Path) (s : Fs) : Sys → Prop
  | .openF p .. | .lstat p | .truncate p _ | .unlink p | .remove p | .mkdir p _ | .rmdir p
  | .chmod p _ | .lchown p .. | .utimens p .. | .readdir p => p = q
  | .rename p p' => p = q ∨ p' = q
  | .close fd | .fstat fd | .read fd _ | .pread fd .. | .write fd .. | .pwrite fd .. | .lseek fd _
  | .ftruncate fd _ | .fsync fd => s.isOpenOn q fd = true

instance (q : Path) (s : Fs) (c : Sys) : Decidable (c.Concerns q s) := by
  cases c <;> simp only [Sys.Concerns] <;> infer_instance

/-- The next call is not made to fail and may transfer all of its bytes. -/
def Proc.undisturbed (v : Proc) : Bool :=
  match v.faults with
  | [] | .ok :: _ => true
  | _ => false

/-- The call behaves normally and succeeds. -/
def Sys.Succeeds (c : Sys) (v : Proc) : Prop :=
  v.undisturbed = true ∧ (c.perform none v.fs).isOk = true

instance (c : Sys) (v : Proc) : Decidable (c.Succeeds v) := by
  unfold Sys.Succeeds
  infer_instance

/-- What a call that succeeds gives. -/
theorem Sys.Succeeds.exec {c : Sys} {v : Proc} (h : c.Succeeds v) :
    c.perform none v.fs = .ok ((c.exec v).1, (c.exec v).2.fs) := by
  obtain ⟨hu, hok⟩ := h
  cases hp : c.perform none v.fs with
  | error e =>
      rw [hp] at hok
      cases hok
  | ok x =>
      unfold Proc.undisturbed at hu
      unfold Sys.exec
      split at hu
      · next hf => simp only [hf, hp, Sys.finish]
      · next hf => simp only [hf, hp, Sys.finish]
      · cases hu

variable {q : Path} {b : Bytes}

namespace Fs

variable {s t : Fs} {p : Path} {r : Int}

private theorem Sealed.ne_of_tree (h : s.Sealed q b) (hp : ∀ j, s.tree p ≠ some (.file j)) :
    q ≠ p := by
  rintro rfl
  obtain ⟨j, hj, -⟩ := h.has
  exact hp j hj

private theorem Sealed.unlink (h : s.Sealed q b) (hne : p ≠ q) (hu : s.unlink p = .ok (r, t)) :
    t.Sealed q b := by
  have hp : Sys.perform none (.unlink p) s = .ok (r, t) := hu
  refine ⟨Sys.perform_has (c := .unlink p) hne h.has hp, ?_⟩
  unfold Fs.unlink at hu
  split at hu
  · obtain ⟨-, rfl⟩ := Prod.mk.inj (Except.ok.inj hu)
    exact h.unopened.of_tree rfl (Function.update_of_ne (Ne.symm hne) ..)
  · cases hu
  · cases hu

private theorem Sealed.rmdir (h : s.Sealed q b) (hr : s.rmdir p = .ok (r, t)) : t.Sealed q b := by
  have hp : Sys.perform none (.rmdir p) s = .ok (r, t) := hr
  refine ⟨Sys.perform_has (c := .rmdir p) trivial h.has hp, ?_⟩
  unfold Fs.rmdir at hr
  split at hr
  · next ha =>
    split at hr
    · cases hr
    · obtain ⟨-, rfl⟩ := Prod.mk.inj (Except.ok.inj hr)
      exact h.unopened.of_tree rfl (Function.update_of_ne (h.ne_of_tree (by simp [ha])) ..)
  · cases hr
  · cases hr

private theorem Sealed.chattr {g : Attr → Attr} (h : s.Sealed q b)
    (hc : s.chattr p g = .ok (r, t)) : t.Sealed q b := by
  obtain ⟨-, ⟨i, -, rfl⟩ | ⟨d, -, -, rfl⟩⟩ := chattr_ok hc
  · exact ⟨h.has.setNode rfl, h.unopened.of_tree rfl rfl⟩
  · exact ⟨h.has, h.unopened.of_tree rfl rfl⟩

end Fs

/-- What a normal call gives, when it is known to succeed. -/
theorem Sys.exec_of_undisturbed {c : Sys} {v : Proc} {r : c.Res} {t : Fs} (hu : v.undisturbed = true)
    (hp : c.perform none v.fs = .ok (r, t)) : (c.exec v).1 = r ∧ (c.exec v).2.fs = t := by
  have hs : c.Succeeds v := ⟨hu, by rw [hp]; rfl⟩
  exact Prod.mk.inj (Except.ok.inj (hs.exec.symm.trans hp))

namespace Fs

/-- The file under `q` has these bytes, and only `fd` is open on it. -/
structure Held (s : Fs) (q : Path) (fd : Int) (off : Nat) (app : Bool) (b : Bytes) : Prop where
  /-- The descriptor and the bytes. -/
  holds : ∃ i, s.getFd fd = some ⟨i, off, app⟩ ∧ s.tree q = some (.file i) ∧ (s.node i).bytes = b
  /-- No other descriptor. -/
  others : ∀ g, g ≠ fd → s.Apart g q

variable {s : Fs} {fd : Int} {off : Nat} {app : Bool}

theorem Held.isOpenOn (h : s.Held q fd off app b) : s.isOpenOn q fd = true := by
  obtain ⟨i, hfd, hi, -⟩ := h.holds
  exact isOpenOn_iff.mpr ⟨_, hfd, hi⟩

/-- Opening a sealed file. -/
theorem Sealed.openFile (h : s.Sealed q b) (fl : Flags) (mode : Nat) :
    ∃ fd t, s.openFile q fl mode = .ok (fd, t) ∧ fd ≠ -1 ∧
      t.Held q fd 0 fl.append (if fl.trunc then [] else b) := by
  obtain ⟨i, hi, hb⟩ := h.has
  obtain ⟨u, hu, hfds, htree, hnode⟩ : ∃ u : Fs, s.openFile q fl mode = .ok (u.install ⟨i, 0, fl.append⟩) ∧
      u.fds = s.fds ∧ u.tree = s.tree ∧ (u.node i).bytes = if fl.trunc then [] else b := by
    by_cases htr : fl.trunc = true
    · refine ⟨s.setBytes i [], by simp [Fs.openFile, hi, htr], rfl, rfl, ?_⟩
      simp only [setBytes, setNode, Function.update_self, htr, if_true]
    · refine ⟨s, by simp [Fs.openFile, hi, htr], rfl, rfl, ?_⟩
      rw [if_neg htr, hb]
  have h0 : 0 ≤ (u.install ⟨i, 0, fl.append⟩).1 := Int.natCast_nonneg _
  refine ⟨_, _, hu, by omega, ⟨⟨i, getFd_install u _, ?_, hnode⟩, fun g hg => ?_⟩⟩
  · rw [← hi, ← htree]
  · have hun : u.Unopened q := h.unopened.of_tree hfds (congrFun htree q)
    intro o ho
    exact hun g o ((getFd_install_other u _ hg).symm.trans ho)

/-- Making a file where no descriptor is open. -/
theorem openFile_new {s : Fs} (hl : s.look q = none) (hd : s.isDir q = false)
    (hp : s.isDir (parent q) = true) (hfds : s.fds = []) {fl : Flags} (hfl : fl.creat = true)
    (mode : Nat) :
    ∃ fd t, s.openFile q fl mode = .ok (fd, t) ∧ t.Held q fd 0 fl.append [] := by
  have ho : s.openFile q fl mode = .ok ((s.link q mode).install ⟨s.next, 0, fl.append⟩) := by
    simp only [Fs.openFile, tree_eq_none hl hd, hfl, hp, if_true]
  refine ⟨_, _, ho, ⟨⟨s.next, getFd_install _ _, ?_, ?_⟩, fun g hg => ?_⟩⟩
  · simp only [link, Function.update_self]
  · simp only [link, Function.update_self, newFile]
  · intro o ho
    have hnone : (s.link q mode).getFd g = none := by
      cases g with
      | ofNat n => simp only [getFd, link, hfds, List.getElem?_nil, Option.join_none]
      | negSucc n => rfl
    cases hnone.symm.trans ((getFd_install_other _ _ hg).symm.trans ho)

/-- Other descriptors are not moved by a change of one that is open. -/
private theorem Held.others_setFd {t : Fs} {x : Option OpenFile} (h : s.Held q fd off app b)
    (hfds : t.fds = s.fds) (htree : t.tree = s.tree) :
    ∀ g, g ≠ fd → (t.setFd fd x).Apart g q := by
  obtain ⟨i, hfd, -, -⟩ := h.holds
  have hget : ∀ g, t.getFd g = s.getFd g := by
    intro g
    cases g <;> simp only [getFd, hfds]
  intro g hg o ho
  rw [getFd_setFd t fd g _ (by rw [hget, hfd]; exact Option.some_ne_none _), if_neg hg, hget] at ho
  change t.tree q ≠ _
  rw [htree]
  exact h.others g hg o ho

/-- Writing an empty file from its start. -/
theorem Held.write (h : s.Held q fd 0 false []) (d : Bytes) :
    ∃ t n, s.write fd d = .ok ((d.length : Int), t) ∧ t.Held q fd n false d := by
  obtain ⟨i, hfd, hi, hb⟩ := h.holds
  by_cases hd : d = []
  · subst hd
    exact ⟨s, 0, by simp only [Fs.write, hfd, if_true]; rfl, h⟩
  · refine ⟨(s.setBytes i d).setFd fd (some ⟨i, 0 + d.length, false⟩), 0 + d.length, ?_, ⟨?_, ?_⟩⟩
    · simp only [Fs.write, hfd, hd, if_false, hb, Bool.false_eq_true, splice_nil_zero]
    · refine ⟨i, ?_, hi, ?_⟩
      · have hne : (s.setBytes i d).getFd fd ≠ none := by
          change s.getFd fd ≠ none
          rw [hfd]
          exact Option.some_ne_none _
        rw [getFd_setFd _ fd fd _ hne, if_pos rfl]
      · change ((s.setBytes i d).node i).bytes = d
        simp only [setBytes, setNode, Function.update_self]
    · exact h.others_setFd rfl rfl

/-- Closing the only descriptor. -/
theorem Held.close (h : s.Held q fd off app b) : ∃ t, s.close fd = .ok (0, t) ∧ t.Sealed q b := by
  obtain ⟨i, hfd, hi, hb⟩ := h.holds
  refine ⟨s.setFd fd none, by simp only [Fs.close, hfd], ⟨⟨i, hi, hb⟩, fun g => ?_⟩⟩
  by_cases hg : g = fd
  · intro o ho
    rw [hg, getFd_setFd s fd fd _ (by rw [hfd]; exact Option.some_ne_none _), if_pos rfl] at ho
    cases ho
  · exact h.others_setFd rfl rfl g hg

theorem Held.fstat (h : s.Held q fd off app b) :
    ∃ st, s.fstat fd = .ok st ∧ st.st_size = b.length := by
  obtain ⟨i, hfd, -, hb⟩ := h.holds
  exact ⟨(s.node i).stat i, by simp only [Fs.fstat, hfd], by rw [File.stat_size, hb]⟩

/-- Reading the whole file. -/
theorem Held.read (h : s.Held q fd 0 app b) :
    ∃ t n, s.read fd b.length = .ok (b, t) ∧ t.Held q fd n app b := by
  obtain ⟨i, hfd, hi, hb⟩ := h.holds
  refine ⟨s.setFd fd (some ⟨i, 0 + b.length, app⟩), 0 + b.length, ?_, ⟨⟨i, ?_, hi, hb⟩, ?_⟩⟩
  · simp only [Fs.read, hfd, hb, slice_zero_length]
  · rw [getFd_setFd s fd fd _ (by rw [hfd]; exact Option.some_ne_none _), if_pos rfl]
  · exact h.others_setFd rfl rfl

end Fs

/-- A successful call that avoids a sealed file keeps it sealed. -/
theorem Sys.perform_sealed {c : Sys} (hc : c.Avoids q) {limit : Option Nat} {s t : Fs} {r : c.Res}
    (h : s.Sealed q b) (hp : c.perform limit s = .ok (r, t)) : t.Sealed q b := by
  have hspares : ∀ hs : c.Spares q, t.Has q b := fun hs => Sys.perform_has hs h.has hp
  have hwritten : ∀ {i : Nat} {fd : Int} {o : OpenFile} (d : Bytes), s.getFd fd = some o →
      o.ino = i → (s.setBytes i d).Sealed q b := by
    rintro i fd o d ho rfl
    exact ⟨h.has.setBytes (h.unopened fd o ho) d, h.unopened⟩
  cases c with
  | openF p fl mode => exact ⟨hspares fun _ => hc, h.unopened.openFile hc hp⟩
  | lstat p | fstat p | pread fd n off | readdir p =>
      obtain ⟨x, -, hx⟩ := map_eq_ok.mp hp
      exact (Prod.mk.inj hx).2 ▸ h
  | close fd =>
      refine ⟨hspares trivial, ?_⟩
      simp only [Sys.perform, Fs.close] at hp
      split at hp
      · cases hp
      · next o ho =>
        obtain ⟨-, rfl⟩ := Prod.mk.inj (Except.ok.inj hp)
        refine h.unopened.of_fds rfl fun g y hy => ?_
        rw [Fs.getFd_setFd s fd g _ (by rw [ho]; exact Option.some_ne_none o)] at hy
        split at hy
        · cases hy
        · exact ⟨g, y, hy, rfl⟩
  | lseek fd off =>
      refine ⟨hspares trivial, ?_⟩
      simp only [Sys.perform, Fs.lseek] at hp
      split at hp
      · cases hp
      · next o ho =>
        obtain ⟨-, rfl⟩ := Prod.mk.inj (Except.ok.inj hp)
        exact h.unopened.setFd ho rfl
  | read fd n =>
      refine ⟨hspares trivial, ?_⟩
      obtain ⟨x, hx, he⟩ := map_eq_ok.mp hp
      unfold Fs.read at hx
      split at hx
      · cases hx
      · next o ho =>
        obtain rfl := Except.ok.inj hx
        rw [← (Prod.mk.inj he).2]
        exact h.unopened.setFd ho rfl
  | write fd mem n =>
      simp only [Sys.perform, Fs.write] at hp
      split at hp
      · cases hp
      split at hp
      · cases hp
      · next o ho =>
        split at hp
        · obtain ⟨-, rfl⟩ := Prod.mk.inj (Except.ok.inj hp)
          exact h
        · obtain ⟨-, rfl⟩ := Prod.mk.inj (Except.ok.inj hp)
          obtain ⟨hhas, hun⟩ := hwritten _ ho rfl
          exact ⟨hhas, hun.setFd ho rfl⟩
  | pwrite fd mem n off =>
      simp only [Sys.perform, Fs.pwrite] at hp
      split at hp
      · cases hp
      split at hp
      · cases hp
      · next o ho =>
        split at hp
        · obtain ⟨-, rfl⟩ := Prod.mk.inj (Except.ok.inj hp)
          exact h
        · obtain ⟨-, rfl⟩ := Prod.mk.inj (Except.ok.inj hp)
          exact hwritten _ ho rfl
  | ftruncate fd n =>
      simp only [Sys.perform, Fs.ftruncate] at hp
      split at hp
      · cases hp
      · next o ho =>
        obtain ⟨-, rfl⟩ := Prod.mk.inj (Except.ok.inj hp)
        exact hwritten _ ho rfl
  | fsync fd =>
      simp only [Sys.perform, Fs.fsync] at hp
      split at hp
      · cases hp
      · obtain ⟨-, rfl⟩ := Prod.mk.inj (Except.ok.inj hp)
        exact h
  | truncate p n =>
      refine ⟨hspares hc, ?_⟩
      simp only [Sys.perform, Fs.truncate] at hp
      split at hp
      · cases hp
      split at hp
      · obtain ⟨-, rfl⟩ := Prod.mk.inj (Except.ok.inj hp)
        exact h.unopened
      · cases hp
      · cases hp
  | unlink p => exact h.unlink hc hp
  | remove p =>
      simp only [Sys.perform, Fs.remove] at hp
      split at hp
      · exact h.rmdir hp
      · exact h.unlink hc hp
  | rename p p' =>
      refine ⟨hspares hc, ?_⟩
      simp only [Sys.perform, Fs.rename] at hp
      split at hp
      · cases hp
      · cases hp
      · cases hp
      · obtain ⟨-, rfl⟩ := Prod.mk.inj (Except.ok.inj hp)
        refine h.unopened.of_tree rfl ?_
        simp only [Fs.move, Function.update_of_ne (Ne.symm hc.2), Function.update_of_ne (Ne.symm hc.1)]
  | mkdir p mode =>
      refine ⟨hspares trivial, ?_⟩
      obtain ⟨-, hfree, -, -, rfl⟩ := Fs.mkdir_ok hp
      exact h.unopened.of_tree rfl (Function.update_of_ne (h.ne_of_tree (by simp [hfree])) ..)
  | rmdir p => exact h.rmdir hp
  | chmod p mode | lchown p uid gid | utimens p atime mtime =>
      simp only [Sys.perform] at hp
      exact h.chattr hp

/-- The same under any fault. -/
theorem Sys.exec_sealed {c : Sys} (hc : c.Avoids q) {v : Proc} (h : v.fs.Sealed q b) :
    (c.exec v).2.fs.Sealed q b := by
  rcases c.exec_cases v with ⟨-, hs⟩ | ⟨limit, hp⟩
  · rw [hs]
    exact h
  · exact Sys.perform_sealed hc h hp

end Posix
