import Afs.Core.Contents

/-!
# Calls on other names

A call that does not name a path leaves what the path stands for, and the file behind it too when the
call writes through no descriptor of that file. Nothing is said about names that share a file: there
are none.
-/

namespace Posix

/-- The attributes differ at most in their times. -/
def Attr.Restamped (a b : Attr) : Prop := ∃ t m c, b = { a with atime := t, mtim := m, ctime := c }

theorem Attr.Restamped.refl (a : Attr) : a.Restamped a := ⟨a.atime, a.mtim, a.ctime, rfl⟩

theorem Attr.Restamped.trans {a b c : Attr} (h : a.Restamped b) (k : b.Restamped c) : a.Restamped c := by
  obtain ⟨t, m, d, rfl⟩ := h
  obtain ⟨t', m', d', rfl⟩ := k
  exact ⟨t', m', d', rfl⟩

/-- One stamp among the attributes of the directories. -/
theorem Attr.restamped_update (dirs : Path → Attr) (p x : Path) (m : Timespec) (c : Int) :
    (dirs x).Restamped (Function.update dirs p { dirs p with mtim := m, ctime := c } x) := by
  by_cases hx : x = p
  · rw [hx, Function.update_self]
    exact ⟨_, m, c, rfl⟩
  · rw [Function.update_of_ne hx]
    exact Attr.Restamped.refl _

namespace Fs

/-- A change in a directory stamps it. -/
theorem touched_restamped (s : Fs) (p x : Path) : (s.dirs x).Restamped (s.touched p x) :=
  Attr.restamped_update ..

theorem touched_of_ne (s : Fs) {p x : Path} (hx : x ≠ p) : s.touched p x = s.dirs x :=
  Function.update_of_ne hx ..

/-- The name stands for the same as before, and a file under it is unchanged. -/
structure Same (x : Path) (s t : Fs) : Prop where
  tree : t.tree x = s.tree x
  node : ∀ i, s.tree x = some (.file i) → t.node i = s.node i

/-- The name stands for the same as before, and of a file under it at most the time of the last access is
another. -/
structure Kept (x : Path) (s t : Fs) : Prop where
  tree : t.tree x = s.tree x
  node : ∀ i, s.tree x = some (.file i) → ∃ a, t.node i = { s.node i with atime := a }

variable {s t u : Fs} {x p q : Path} {fd : Int}

theorem Same.kept (h : Same x s t) : Kept x s t := ⟨h.tree, fun i hi => ⟨(s.node i).atime, h.node i hi⟩⟩

/-- The bytes are the same then. -/
theorem Kept.bytes (h : Kept x s t) : (t.look x).map (·.bytes) = (s.look x).map (·.bytes) := by
  unfold look
  rw [h.tree]
  split
  · next i hi =>
    obtain ⟨a, ha⟩ := h.node i hi
    rw [ha]
    rfl
  · rfl

theorem Same.refl (x : Path) (s : Fs) : Same x s s := ⟨rfl, fun _ _ => rfl⟩

theorem Same.trans (h : Same x s t) (k : Same x t u) : Same x s u := by
  constructor
  · exact k.tree.trans h.tree
  · intro i hi
    rw [k.node i (h.tree.trans hi), h.node i hi]

theorem Same.look (h : Same x s t) : t.look x = s.look x := by
  unfold Fs.look
  rw [h.tree]
  split
  · next i hi => rw [h.node i hi]
  · rfl

/-- The descriptors do not matter. -/
private theorem Same.files (h : Same x s t) (ht : u.tree = t.tree) (hn : u.node = t.node) :
    Same x s u := by
  constructor
  · rw [ht]
    exact h.tree
  · rw [hn]
    exact h.node

/-- A file under another name is replaced. -/
private theorem same_setNode {i : Nat} (hi : s.tree x ≠ some (.file i)) (f : File) :
    Same x s (s.setNode i f) := by
  refine ⟨rfl, fun j hj => ?_⟩
  have hne : j ≠ i := fun he => hi (he ▸ hj)
  simp only [setNode, Function.update_of_ne hne]

private theorem tree_ne {i : Nat} (hp : p ≠ x) (hi : s.tree p = some (.file i)) :
    s.tree x ≠ some (.file i) := fun hx => hp (s.tree_inj p x i hi hx)

private theorem same_drop (hp : p ≠ x) : Same x s (s.drop p) :=
  ⟨Function.update_of_ne (Ne.symm hp) .., fun _ _ => rfl⟩

private theorem same_putDir (hp : p ≠ x) (a : Attr) : Same x s (s.putDir p a) :=
  ⟨Function.update_of_ne (Ne.symm hp) .., fun _ _ => rfl⟩

private theorem same_link (hp : p ≠ x) (mode : Nat) : Same x s (s.link p mode) := by
  refine ⟨Function.update_of_ne (Ne.symm hp) .., fun i hi => ?_⟩
  exact Function.update_of_ne (Nat.ne_of_lt (s.tree_lt x i hi)) ..

private theorem same_openFile {fl : Flags} {mode : Nat} (hp : p ≠ x)
    (h : s.openFile p fl mode = .ok (fd, t)) : Same x s t := by
  unfold openFile at h
  split at h
  · cases h
  · next i hi =>
    obtain ⟨-, rfl⟩ := Prod.mk.inj (Except.ok.inj h)
    by_cases htr : fl.trunc = true
    · simp only [htr, if_true]
      exact (same_setNode (tree_ne hp hi) _ : Same x s (s.setBytes i [])).files rfl rfl
    · simp only [htr]
      exact (Same.refl x s).files rfl rfl
  · split at h
    · split at h
      · obtain ⟨-, rfl⟩ := Prod.mk.inj (Except.ok.inj h)
        exact (same_link hp mode).files rfl rfl
      · cases h
    · cases h

private theorem same_unlink {r : Int} (hp : p ≠ x) (h : s.unlink p = .ok (r, t)) : Same x s t := by
  unfold unlink at h
  split at h
  · obtain ⟨-, rfl⟩ := Prod.mk.inj (Except.ok.inj h)
    exact same_drop hp
  · cases h
  · cases h

private theorem same_rmdir {r : Int} (hp : p ≠ x) (h : s.rmdir p = .ok (r, t)) : Same x s t := by
  unfold rmdir at h
  split at h
  · split at h
    · cases h
    · obtain ⟨-, rfl⟩ := Prod.mk.inj (Except.ok.inj h)
      exact same_drop hp
  · cases h
  · cases h

private theorem same_chattr {g : Attr → Attr} {r : Int} (hp : p ≠ x)
    (h : s.chattr p g = .ok (r, t)) : Same x s t := by
  obtain ⟨-, ⟨i, hi, rfl⟩ | ⟨d, -, -, rfl⟩⟩ := chattr_ok h
  · exact same_setNode (tree_ne hp hi) _
  · exact (Same.refl x s).files rfl rfl

/-- A write through a descriptor of another file. -/
theorem Apart.same_write {d : Bytes} {r : Int} (ha : s.Apart fd x) (h : s.write fd d = .ok (r, t)) :
    Same x s t := by
  unfold write at h
  split at h
  · cases h
  · next o ho =>
    split at h
    · obtain ⟨-, rfl⟩ := Prod.mk.inj (Except.ok.inj h)
      exact Same.refl x s
    · obtain ⟨-, rfl⟩ := Prod.mk.inj (Except.ok.inj h)
      exact (same_setNode (ha o ho) { s.node o.ino with
        bytes := _, mtim := s.clock, ctime := s.clock.tv_sec }).files rfl rfl

end Fs

/-- The call does not name the path. -/
def Sys.Elsewhere (x : Path) : Sys → Prop
  | .openF p .. | .lstat p | .truncate p _ | .unlink p | .remove p | .mkdir p _ | .rmdir p | .chmod p _
  | .lchown p .. | .utimens p .. | .readdir p => p ≠ x
  | .rename p q => p ≠ x ∧ q ≠ x
  | .close _ | .fstat _ | .read .. | .pread .. | .write .. | .pwrite .. | .lseek .. | .ftruncate ..
  | .fsync _ => True

/-- The call writes through no descriptor. -/
def Sys.Named : Sys → Prop
  | .write .. | .pwrite .. | .ftruncate .. => False
  | _ => True

variable {s t : Fs} {x : Path} {c : Sys}

/-- A successful call on other names that writes through no descriptor. -/
theorem Sys.perform_same {limit : Option Nat} {r : c.Res} (hc : c.Elsewhere x) (hn : c.Named)
    (h : c.perform limit s = .ok (r, t)) : Fs.Same x s t := by
  cases c with
  | openF p fl mode => exact Fs.same_openFile hc h
  | lstat p | fstat p | pread fd n off | readdir p =>
      obtain ⟨y, -, hy⟩ := map_eq_ok.mp h
      exact (Prod.mk.inj hy).2 ▸ Fs.Same.refl x s
  | read fd n =>
      obtain ⟨y, hy, he⟩ := map_eq_ok.mp h
      unfold Fs.read at hy
      split at hy
      · cases hy
      · obtain rfl := Except.ok.inj hy
        exact (Prod.mk.inj he).2 ▸ ⟨rfl, fun _ _ => rfl⟩
  | close fd | lseek fd off | fsync fd =>
      simp only [Sys.perform, Fs.close, Fs.lseek, Fs.fsync] at h
      split at h
      · cases h
      · obtain ⟨-, rfl⟩ := Prod.mk.inj (Except.ok.inj h)
        exact ⟨rfl, fun _ _ => rfl⟩
  | truncate p n =>
      simp only [Sys.perform, Fs.truncate] at h
      split at h
      · cases h
      split at h
      · next i hi =>
        obtain ⟨-, rfl⟩ := Prod.mk.inj (Except.ok.inj h)
        exact Fs.same_setNode (Fs.tree_ne hc hi) _
      · cases h
      · cases h
  | unlink p => exact Fs.same_unlink hc h
  | remove p =>
      simp only [Sys.perform, Fs.remove] at h
      split at h
      · exact Fs.same_rmdir hc h
      · exact Fs.same_unlink hc h
  | rename p q =>
      simp only [Sys.perform, Fs.rename] at h
      split at h
      · cases h
      · cases h
      · cases h
      · obtain ⟨-, rfl⟩ := Prod.mk.inj (Except.ok.inj h)
        refine ⟨?_, fun _ _ => rfl⟩
        simp only [Fs.move, Function.update_of_ne (Ne.symm hc.2), Function.update_of_ne (Ne.symm hc.1)]
  | mkdir p mode =>
      obtain ⟨-, -, -, -, rfl⟩ := Fs.mkdir_ok h
      exact Fs.same_putDir hc _
  | rmdir p => exact Fs.same_rmdir hc h
  | chmod p mode | lchown p uid gid | utimens p atime mtime =>
      simp only [Sys.perform] at h
      exact Fs.same_chattr hc h
  | write fd mem n | pwrite fd mem n off | ftruncate fd n => exact hn.elim

/-- The same under any fault. -/
theorem Sys.exec_same (hc : c.Elsewhere x) (hn : c.Named) (v : Proc) : Fs.Same x v.fs (c.exec v).2.fs := by
  rcases c.exec_cases v with ⟨-, hs⟩ | ⟨limit, hp⟩
  · rw [hs]
    exact Fs.Same.refl x v.fs
  · exact Sys.perform_same hc hn hp

/-- An open of another name fails or gives a descriptor of another file. -/
theorem Sys.exec_open_apart {p : Path} (hp : p ≠ x) (fl : Flags) (mode : Nat) (v : Proc) :
    ((Sys.openF p fl mode).exec v).1 = (-1 : Int) ∨
      ((Sys.openF p fl mode).exec v).2.fs.Apart ((Sys.openF p fl mode).exec v).1 x := by
  rcases (Sys.openF p fl mode).exec_cases v with ⟨hr, -⟩ | ⟨limit, ho⟩
  · exact Or.inl hr
  · exact Or.inr (Fs.openFile_apart hp ho)

/-- A write through a descriptor of another file, under any fault. -/
theorem Sys.exec_write_same {v : Proc} {fd : Int} (ha : v.fs.Apart fd x) (mem : Bytes) (n : Nat) :
    Fs.Same x v.fs ((Sys.write fd mem n).exec v).2.fs := by
  rcases (Sys.write fd mem n).exec_cases v with ⟨-, hs⟩ | ⟨limit, hp⟩
  · rw [hs]
    exact Fs.Same.refl x v.fs
  · simp only [Sys.perform] at hp
    split at hp
    · cases hp
    · exact ha.same_write hp

/-- Every call on other names, also one that writes through a descriptor, leaves what the path stands
for. -/
theorem Sys.exec_tree (hc : c.Elsewhere x) (v : Proc) : (c.exec v).2.fs.tree x = v.fs.tree x := by
  rcases c.exec_cases v with ⟨-, hs⟩ | ⟨limit, hp⟩
  · rw [hs]
  · generalize (c.exec v).2.fs = t at hp ⊢
    generalize (c.exec v).1 = r at hp
    by_cases hn : c.Named
    · exact (Sys.perform_same hc hn hp).tree
    · cases c with
      | write fd mem n | pwrite fd mem n off | ftruncate fd n =>
          simp only [Sys.perform, Fs.write, Fs.pwrite, Fs.ftruncate] at hp
          split at hp
          · cases hp
          first
            | obtain ⟨-, rfl⟩ := Prod.mk.inj (Except.ok.inj hp)
              rfl
            | split at hp
              · cases hp
              split at hp
              all_goals
                obtain ⟨-, rfl⟩ := Prod.mk.inj (Except.ok.inj hp)
                rfl
      | _ => exact absurd trivial hn

end Posix
