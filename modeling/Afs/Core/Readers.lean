import Afs.Core.Frames

/-!
# A descriptor that others read through

A descriptor opened on a name stays on its file: on the one under the name, or, when the name was taken
away or given to another file, on a file without a name. Calls on other descriptors that write only to
files with a name leave it there, and leave the bytes of a file without a name.
-/

namespace Posix

namespace Fs

/-- The descriptor is at the start of the file under `p`, or of a file without a name and with the bytes
`lost`. -/
def Reads (s : Fs) (fd : Int) (p : Path) (lost : Option Bytes) : Prop :=
  ∃ i, s.getFd fd = some ⟨i, 0, false⟩ ∧
    (s.tree p = some (.file i) ∨
      i < s.next ∧ (∀ q, s.tree q ≠ some (.file i)) ∧ lost = some (s.node i).bytes)

/-- The descriptor is open on some file with a name. -/
def Named (s : Fs) (g : Int) : Prop := ∃ o q, s.getFd g = some o ∧ s.tree q = some (.file o.ino)

variable {s t : Fs} {fd g : Int} {p q : Path} {lost : Option Bytes}

theorem Holds.named {off : Nat} {app : Bool} (h : s.Holds g p off app) : s.Named g := by
  obtain ⟨i, hi, hp⟩ := h
  exact ⟨_, p, hi, hp⟩

theorem Reads.getFd (h : s.Reads fd p lost) : s.getFd fd ≠ none := by
  obtain ⟨i, hi, -⟩ := h
  rw [hi]
  exact Option.some_ne_none _

theorem Holds.reads (h : s.Holds fd p 0 false) (lost : Option Bytes) : s.Reads fd p lost := by
  obtain ⟨i, hi, hp⟩ := h
  exact ⟨i, hi, Or.inl hp⟩

/-- What a positioned read gives. -/
theorem Reads.pread (h : s.Reads fd p lost) (n off : Nat) :
    ∃ d, s.pread fd n off = .ok (slice d off n) ∧
      ((s.look p).map (·.bytes) = some d ∨ lost = some d) := by
  obtain ⟨i, hi, hp⟩ := h
  refine ⟨(s.node i).bytes, by simp only [Fs.pread, hi], hp.imp (fun ht => ?_) fun ho => ho.2.2⟩
  rw [look_of_tree ht, Option.map_some]

namespace Reads

/-- Other descriptors do not matter. -/
theorem files (h : s.Reads fd p lost) (hfd : t.getFd fd = s.getFd fd) (ht : t.tree = s.tree)
    (hnext : t.next = s.next) (hnode : t.node = s.node) : t.Reads fd p lost := by
  unfold Reads
  rw [hfd, ht, hnext, hnode]
  exact h

theorem install (h : s.Reads fd p lost) (o : OpenFile) : (s.install o).2.Reads fd p lost := by
  refine h.files (getFd_install_other s o fun he => h.getFd ?_) rfl rfl rfl
  rw [he, getFd_install_free]

theorem setFd (h : s.Reads fd p lost) (hne : fd ≠ g) (hg : s.getFd g ≠ none) (o : Option OpenFile) :
    (s.setFd g o).Reads fd p lost := by
  refine h.files ?_ rfl rfl rfl
  rw [getFd_setFd s g fd o hg, if_neg hne]

/-- A file with a name gets other contents. -/
theorem setNode {i : Nat} (h : s.Reads fd p lost) (hi : s.tree q = some (.file i)) (f : File) :
    (s.setNode i f).Reads fd p lost := by
  obtain ⟨j, hj, hp⟩ := h
  refine ⟨j, hj, hp.imp id fun ho => ⟨ho.1, ho.2.1, ?_⟩⟩
  have hne : j ≠ i := fun he => ho.2.1 q (he ▸ hi)
  simp only [Fs.setNode, Function.update_of_ne hne]
  exact ho.2.2

/-- A name that stood for nothing gets a new file. -/
theorem link (h : s.Reads fd p lost) (hq : s.tree q = none) (mode : Nat) :
    (s.link q mode).Reads fd p lost := by
  obtain ⟨j, hj, hp⟩ := h
  refine ⟨j, hj, hp.imp (fun ht => ?_) fun ho => ⟨Nat.lt_succ_of_lt ho.1, fun r => ?_, ?_⟩⟩
  · have hne : p ≠ q := by
      rintro rfl
      rw [hq] at ht
      cases ht
    simp only [Fs.link, Function.update_of_ne hne]
    exact ht
  · by_cases hr : r = q
    · have hnext := Nat.ne_of_lt ho.1
      simp only [hr, Fs.link, Function.update_self, ne_eq, Option.some.injEq, Entry.file.injEq]
      exact fun he => hnext he.symm
    · simp only [Fs.link, Function.update_of_ne hr]
      exact ho.2.1 r
  · simp only [Fs.link, Function.update_of_ne (Nat.ne_of_lt ho.1)]
    exact ho.2.2

/-- A name goes. -/
theorem drop (h : s.Reads fd p lost) (hq : q = p → lost = (s.look p).map (·.bytes)) :
    (s.drop q).Reads fd p lost := by
  have hnone : ∀ {r : Path} {i : Nat}, s.tree r ≠ some (.file i) →
      (s.drop q).tree r ≠ some (.file i) := by
    intro r i hr
    by_cases he : r = q
    · simp only [he, Fs.drop, Function.update_self]
      exact (Option.some_ne_none _).symm
    · simp only [Fs.drop, Function.update_of_ne he]
      exact hr
  obtain ⟨j, hj, hp⟩ := h
  refine ⟨j, hj, ?_⟩
  rcases hp with ht | ⟨hlt, hno, hb⟩
  · by_cases he : q = p
    · refine Or.inr ⟨s.tree_lt p j ht, fun r => ?_, ?_⟩
      · by_cases hr : r = q
        · simp only [hr, Fs.drop, Function.update_self]
          exact (Option.some_ne_none _).symm
        · exact hnone fun hn => hr ((s.tree_inj r p j hn ht).trans he.symm)
      · rw [hq he, look_of_tree ht]
        rfl
    · refine Or.inl ?_
      simp only [Fs.drop, Function.update_of_ne (Ne.symm he)]
      exact ht
  · exact Or.inr ⟨hlt, fun r => hnone (hno r), hb⟩

/-- A file under another name gets a name that stood for no file. -/
theorem move {q' : Path} (h : s.Reads fd p lost) (hq : q ≠ p) (hq' : q' = p → s.look p = none) :
    (s.move q q').Reads fd p lost := by
  obtain ⟨j, hj, hp⟩ := h
  refine ⟨j, hj, hp.imp (fun ht => ?_) fun ho => ⟨ho.1, fun r => ?_, ho.2.2⟩⟩
  · have hne : p ≠ q' := by
      intro he
      have hnone := hq' he.symm
      rw [look_of_tree ht] at hnone
      cases hnone
    simp only [Fs.move, Function.update_of_ne hne, Function.update_of_ne (Ne.symm hq)]
    exact ht
  · by_cases hr : r = q'
    · simp only [hr, Fs.move, Function.update_self]
      exact ho.2.1 q
    · by_cases hr' : r = q
      · simp only [hr', Fs.move, Function.update_of_ne (hr' ▸ hr), Function.update_self]
        exact (Option.some_ne_none _).symm
      · simp only [Fs.move, Function.update_of_ne hr, Function.update_of_ne hr']
        exact ho.2.1 r

theorem openFile {fl : Flags} {mode : Nat} (h : s.Reads fd p lost)
    (ho : s.openFile q fl mode = .ok (g, t)) : t.Reads fd p lost := by
  unfold Fs.openFile at ho
  split at ho
  · cases ho
  · next i hi =>
    obtain ⟨-, rfl⟩ := Prod.mk.inj (Except.ok.inj ho)
    refine Reads.install ?_ _
    split
    · exact h.setNode hi _
    · exact h
  · next hfree =>
    split at ho
    · split at ho
      · obtain ⟨-, rfl⟩ := Prod.mk.inj (Except.ok.inj ho)
        exact (h.link hfree mode).install _
      · cases ho
    · cases ho

theorem write {d : Bytes} {r : Int} (h : s.Reads fd p lost) (hne : fd ≠ g) (hg : s.Named g)
    (hw : s.write g d = .ok (r, t)) : t.Reads fd p lost := by
  obtain ⟨o, q, ho, hq⟩ := hg
  have hopen : s.getFd g ≠ none := by
    rw [ho]
    exact Option.some_ne_none o
  simp only [Fs.write, ho] at hw
  split at hw
  · obtain ⟨-, rfl⟩ := Prod.mk.inj (Except.ok.inj hw)
    exact h
  · obtain ⟨-, rfl⟩ := Prod.mk.inj (Except.ok.inj hw)
    exact (h.setNode hq _).setFd hne hopen _

theorem pwrite {d : Bytes} {off : Nat} {r : Int} (h : s.Reads fd p lost) (hg : s.Named g)
    (hw : s.pwrite g d off = .ok (r, t)) : t.Reads fd p lost := by
  obtain ⟨o, q, ho, hq⟩ := hg
  simp only [Fs.pwrite, ho] at hw
  split at hw
  · obtain ⟨-, rfl⟩ := Prod.mk.inj (Except.ok.inj hw)
    exact h
  · obtain ⟨-, rfl⟩ := Prod.mk.inj (Except.ok.inj hw)
    exact h.setNode hq _

end Reads

end Fs

/-- The call leaves what is read through the descriptor: it works on other descriptors, writes only to
files with a name, takes the name of a file only with the bytes that may be lost, and gives a name only
when it is free. -/
def Sys.LeavesReader (fd : Int) (p : Path) (lost : Option Bytes) (s : Fs) : Sys → Prop
  | .openF .. | .lstat _ | .fstat _ | .pread .. | .fsync _ | .readdir _ => True
  | .close g | .read g _ | .lseek g _ => fd ≠ g
  | .write g .. => fd ≠ g ∧ s.Named g
  | .pwrite g .. | .ftruncate g _ => s.Named g
  | .unlink q | .remove q => q = p → lost = (s.look p).map (·.bytes)
  | .rename q q' => q ≠ p ∧ (q' = p → s.look p = none)
  | .truncate .. | .mkdir .. | .rmdir _ | .chmod .. | .lchown .. | .utimens .. => False

variable {s t : Fs} {fd : Int} {p : Path} {lost : Option Bytes} {c : Sys}

/-- A successful call that leaves the reader. -/
theorem Sys.perform_reads {limit : Option Nat} {r : c.Res} (hc : c.LeavesReader fd p lost s)
    (h : s.Reads fd p lost) (hp : c.perform limit s = .ok (r, t)) : t.Reads fd p lost := by
  have hsetFd : ∀ {g : Int} {o : OpenFile} (x : Option OpenFile), fd ≠ g → s.getFd g = some o →
      (s.setFd g x).Reads fd p lost := by
    intro g o x hne ho
    refine h.setFd hne ?_ x
    rw [ho]
    exact Option.some_ne_none o
  cases c with
  | openF q fl mode => exact h.openFile hp
  | lstat q | fstat g | pread g n off | readdir q =>
      obtain ⟨x, -, hx⟩ := map_eq_ok.mp hp
      exact (Prod.mk.inj hx).2 ▸ h
  | fsync g =>
      simp only [perform, Fs.fsync] at hp
      split at hp
      · cases hp
      · exact (Prod.mk.inj (Except.ok.inj hp)).2 ▸ h
  | close g | lseek g off =>
      simp only [perform, Fs.close, Fs.lseek] at hp
      split at hp
      · cases hp
      · next o ho =>
        obtain ⟨-, rfl⟩ := Prod.mk.inj (Except.ok.inj hp)
        exact hsetFd _ hc ho
  | read g n =>
      obtain ⟨x, hread, hx⟩ := map_eq_ok.mp hp
      obtain ⟨-, rfl⟩ := Prod.mk.inj hx
      unfold Fs.read at hread
      split at hread
      · cases hread
      · next o ho =>
        obtain rfl := Except.ok.inj hread
        exact hsetFd _ hc ho
  | write g mem n =>
      simp only [perform] at hp
      split at hp
      · cases hp
      · exact h.write hc.1 hc.2 hp
  | pwrite g mem n off =>
      simp only [perform] at hp
      split at hp
      · cases hp
      · exact h.pwrite hc hp
  | ftruncate g n =>
      obtain ⟨o, q, ho, hq⟩ := hc
      simp only [perform, Fs.ftruncate, ho] at hp
      obtain ⟨-, rfl⟩ := Prod.mk.inj (Except.ok.inj hp)
      exact h.setNode hq _
  | unlink q =>
      simp only [perform, Fs.unlink] at hp
      split at hp
      · obtain ⟨-, rfl⟩ := Prod.mk.inj (Except.ok.inj hp)
        exact h.drop hc
      · cases hp
      · cases hp
  | remove q =>
      simp only [perform, Fs.remove, Fs.rmdir, Fs.unlink] at hp
      repeat' split at hp
      all_goals first
        | cases hp
          done
        | obtain ⟨-, rfl⟩ := Prod.mk.inj (Except.ok.inj hp)
          exact h.drop hc
  | rename q q' =>
      simp only [perform, Fs.rename] at hp
      split at hp
      · cases hp
      · cases hp
      · cases hp
      · obtain ⟨-, rfl⟩ := Prod.mk.inj (Except.ok.inj hp)
        exact h.move hc.1 hc.2
  | truncate q n | mkdir q mode | rmdir q | chmod q mode | lchown q uid gid
  | utimens q atime mtime => exact hc.elim

end Posix
