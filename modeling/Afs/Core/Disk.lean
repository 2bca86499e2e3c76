import Afs.Core.Bytes
import Mathlib.Logic.Function.Basic

/-!
# A file system with inodes, names and descriptors

Names are whole path strings; only in looking up a directory do separators at the end not count. A
name stands for a directory or for an inode, and a descriptor stands for an inode, so a file that was
renamed or removed is still reached by the descriptors opened before. The structure carries the facts
that names point to allocated inodes and that no inode has two names: no hard links are ever made here.
The attributes of directories are kept beside the names, since every name that is made or taken away
also stamps its directory.
-/

namespace Posix

/-- A path string as the bytes before its terminator. -/
abbrev Path := List UInt8

/-- The byte of the path separator. -/
abbrev slash : UInt8 := 47

/-- The path of the directory that holds `p`: everything before the last separator. -/
def parent (p : Path) : Path := ((p.reverse.dropWhile (· != slash)).drop 1).reverse

/-- The last component of a path. -/
def baseName (p : Path) : Path := (p.reverse.takeWhile (· != slash)).reverse

/-- A path without the separators at its end. -/
def trimmed (p : Path) : Path := (p.reverse.dropWhile (· == slash)).reverse

/-- The names that a path leads through: what stands before each of its separators. -/
def through (p : Path) : List Path :=
  ((List.range p.length).filter fun k => p[k]? == some slash).map p.take

/-- A time of the file system: whole seconds and a nanosecond part below one second. -/
structure Timespec where
  /-- Whole seconds. -/
  tv_sec : Int
  /-- The nanosecond part. -/
  tv_nsec : Nat
  /-- File systems report a nanosecond part below one second. -/
  tv_nsec_lt : tv_nsec < 1000000000
  deriving DecidableEq

namespace Timespec

/-- Times are compared by seconds first and by the nanosecond part within a second. -/
instance : LT Timespec where
  lt a b := a.tv_sec < b.tv_sec ∨ a.tv_sec = b.tv_sec ∧ a.tv_nsec < b.tv_nsec

theorem lt_def (a b : Timespec) :
    a < b ↔ a.tv_sec < b.tv_sec ∨ a.tv_sec = b.tv_sec ∧ a.tv_nsec < b.tv_nsec := Iff.rfl

instance : DecidableLT Timespec := fun a b =>
  inferInstanceAs (Decidable (a.tv_sec < b.tv_sec ∨ a.tv_sec = b.tv_sec ∧ a.tv_nsec < b.tv_nsec))

theorem lt_irrefl (a : Timespec) : ¬ a < a := by
  rw [lt_def]
  omega

theorem lt_trans {a b c : Timespec} (h : a < b) (k : b < c) : a < c := by
  rw [lt_def] at *
  omega

/-- The start of a second. -/
def ofSec (sec : Int) : Timespec := ⟨sec, 0, by decide⟩

/-- The epoch. -/
def zero : Timespec := ofSec 0

end Timespec

/-- The type bits of a regular file. -/
def S_IFREG : Nat := 0o100000

/-- The type bits of a directory. -/
def S_IFDIR : Nat := 0o40000

/-- What the file system keeps about a file or directory besides its contents. -/
structure Attr where
  /-- File type and permission bits. -/
  mode : Nat
  /-- Owner. -/
  uid : Nat
  /-- Group. -/
  gid : Nat
  /-- Last access, in seconds. -/
  atime : Int
  /-- Last status change, in seconds. -/
  ctime : Int
  /-- Last modification. -/
  mtim : Timespec

/-- A regular file. -/
structure File extends Attr where
  /-- The contents. -/
  bytes : Bytes

/-- What a name stands for. -/
inductive Entry where
  /-- A regular file, by inode. -/
  | file (ino : Nat)
  /-- A directory. -/
  | dir

/-- An open descriptor: the inode, the file offset, and whether every write appends. -/
structure OpenFile where
  /-- The inode, fixed when the descriptor was opened. -/
  ino : Nat
  /-- The file offset. -/
  offset : Nat
  /-- Opened with `O_APPEND`. -/
  append : Bool

/-- A file system with the descriptor table of the one process that uses it. -/
structure Fs where
  /-- The names. -/
  tree : Path → Option Entry
  /-- The attributes of the directories. -/
  dirs : Path → Attr
  /-- The files, by inode. -/
  node : Nat → File
  /-- The first inode never used. -/
  next : Nat
  /-- The names in directory order. -/
  listing : List Path
  /-- The descriptor table. -/
  fds : List (Option OpenFile)
  /-- The time that a modification made now is stamped with. -/
  clock : Timespec
  /-- Names point to allocated inodes. -/
  tree_lt : ∀ p i, tree p = some (.file i) → i < next
  /-- No inode has two names. -/
  tree_inj : ∀ p q i, tree p = some (.file i) → tree q = some (.file i) → p = q

namespace Fs

/-- The file of a name, if the name stands for a regular file. -/
def look (s : Fs) (p : Path) : Option File :=
  match s.tree p with
  | some (.file i) => some (s.node i)
  | _ => none

/-- Whether a name stands for a directory. -/
def isDir (s : Fs) (p : Path) : Bool :=
  match s.tree p with
  | some .dir => true
  | _ => false

/-- The open file of a descriptor number. -/
def getFd (s : Fs) : Int → Option OpenFile
  | .ofNat n => (s.fds[n]?).join
  | .negSucc _ => none

end Fs

/-- The lowest free descriptor takes the open file. -/
def allocFd : List (Option OpenFile) → OpenFile → Nat × List (Option OpenFile)
  | [], o => (0, [some o])
  | none :: t, o => (0, some o :: t)
  | some x :: t, o => ((allocFd t o).1 + 1, some x :: (allocFd t o).2)

/-- The allocated number names the new open file. -/
theorem allocFd_self (t : List (Option OpenFile)) (o : OpenFile) :
    (allocFd t o).2[(allocFd t o).1]? = some (some o) := by
  induction t with
  | nil => rfl
  | cons x t ih =>
      cases x with
      | none => rfl
      | some y => simpa only [allocFd, List.getElem?_cons_succ] using ih

/-- The allocated number was free. -/
theorem allocFd_free (t : List (Option OpenFile)) (o : OpenFile) :
    (t[(allocFd t o).1]?).join = none := by
  induction t with
  | nil => rfl
  | cons x t ih =>
      cases x with
      | none => rfl
      | some y => simpa only [allocFd, List.getElem?_cons_succ] using ih

/-- Allocation leaves every other descriptor as it was. -/
theorem allocFd_other (t : List (Option OpenFile)) (o : OpenFile) (n : Nat)
    (h : n ≠ (allocFd t o).1) : ((allocFd t o).2[n]?).join = (t[n]?).join := by
  induction t generalizing n with
  | nil =>
      cases n with
      | zero => exact absurd rfl h
      | succ n => simp [allocFd]
  | cons x t ih =>
      cases x with
      | none =>
          cases n with
          | zero => exact absurd rfl h
          | succ n => simp [allocFd]
      | some y =>
          cases n with
          | zero => simp [allocFd]
          | succ n =>
              simp only [allocFd, List.getElem?_cons_succ]
              exact ih n (by simpa [allocFd] using h)

namespace Fs

/-- A file replaced in place: names and descriptors still reach it. -/
def setNode (s : Fs) (i : Nat) (f : File) : Fs := { s with node := Function.update s.node i f }

/-- New contents for an inode, stamped with the current time. -/
def setBytes (s : Fs) (i : Nat) (b : Bytes) : Fs :=
  s.setNode i { s.node i with bytes := b, mtim := s.clock, ctime := s.clock.tv_sec }

/-- The attributes of what is made now, by a process of the superuser without a mode mask. -/
def newAttr (s : Fs) (mode : Nat) : Attr where
  mode := mode
  uid := 0
  gid := 0
  atime := s.clock.tv_sec
  ctime := s.clock.tv_sec
  mtim := s.clock

/-- The file that a creating open makes. -/
def newFile (s : Fs) (mode : Nat) : File :=
  { s.newAttr (S_IFREG + mode % 0o10000) with bytes := [] }

/-- The attributes of the directories after a name in the directory `p` was made or taken away. -/
def touched (s : Fs) (p : Path) : Path → Attr :=
  Function.update s.dirs p { s.dirs p with mtim := s.clock, ctime := s.clock.tv_sec }

/-- A new empty file under the name `p`. -/
def link (s : Fs) (p : Path) (mode : Nat) : Fs where
  tree := Function.update s.tree p (some (.file s.next))
  dirs := s.touched (parent p)
  node := Function.update s.node s.next (s.newFile mode)
  next := s.next + 1
  listing := s.listing ++ [p]
  fds := s.fds
  clock := s.clock
  tree_lt q i h := by
    by_cases hq : q = p
    · subst hq
      simp only [Function.update_self, Option.some.injEq, Entry.file.injEq] at h
      omega
    · rw [Function.update_of_ne hq] at h
      exact Nat.lt_succ_of_lt (s.tree_lt q i h)
  tree_inj q r i hq hr := by
    by_cases hqp : q = p <;> by_cases hrp : r = p
    · exact hqp.trans hrp.symm
    · subst hqp
      rw [Function.update_of_ne hrp] at hr
      have hlt := s.tree_lt r i hr
      simp only [Function.update_self, Option.some.injEq, Entry.file.injEq] at hq
      omega
    · subst hrp
      rw [Function.update_of_ne hqp] at hq
      have hlt := s.tree_lt q i hq
      simp only [Function.update_self, Option.some.injEq, Entry.file.injEq] at hr
      omega
    · rw [Function.update_of_ne hqp] at hq
      rw [Function.update_of_ne hrp] at hr
      exact s.tree_inj q r i hq hr

/-- The name `p` removed; its inode stays for the descriptors that hold it. -/
def drop (s : Fs) (p : Path) : Fs :=
  { s with
    tree := Function.update s.tree p none
    dirs := s.touched (parent p)
    listing := s.listing.erase p
    tree_lt := fun q i h => by
      by_cases hq : q = p
      · simp [hq] at h
      · rw [Function.update_of_ne hq] at h
        exact s.tree_lt q i h
    tree_inj := fun q r i hq hr => by
      by_cases hqp : q = p
      · simp [hqp] at hq
      · by_cases hrp : r = p
        · simp [hrp] at hr
        · rw [Function.update_of_ne hqp] at hq
          rw [Function.update_of_ne hrp] at hr
          exact s.tree_inj q r i hq hr }

/-- Other attributes for the directory `p`. -/
def setDir (s : Fs) (p : Path) (a : Attr) : Fs := { s with dirs := Function.update s.dirs p a }

/-- A directory under the name `p`. -/
def putDir (s : Fs) (p : Path) (a : Attr) : Fs :=
  { s with
    tree := Function.update s.tree p (some .dir)
    dirs := Function.update (s.touched (parent p)) p a
    listing := if p ∈ s.listing then s.listing else s.listing ++ [p]
    tree_lt := fun q i h => by
      by_cases hq : q = p
      · simp [hq] at h
      · rw [Function.update_of_ne hq] at h
        exact s.tree_lt q i h
    tree_inj := fun q r i hq hr => by
      by_cases hqp : q = p
      · simp [hqp] at hq
      · by_cases hrp : r = p
        · simp [hrp] at hr
        · rw [Function.update_of_ne hqp] at hq
          rw [Function.update_of_ne hrp] at hr
          exact s.tree_inj q r i hq hr }

/-- The file named `p` renamed to `q`, replacing what `q` named. -/
def move (s : Fs) (p q : Path) : Fs :=
  { s with
    tree := Function.update (Function.update s.tree p none) q (s.tree p)
    dirs := { s with dirs := s.touched (parent p) }.touched (parent q)
    listing := if p = q then s.listing else ((s.listing.erase q).erase p) ++ [q]
    tree_lt := fun r i h => by
      by_cases hq : r = q
      · subst hq
        rw [Function.update_self] at h
        exact s.tree_lt p i h
      · rw [Function.update_of_ne hq] at h
        by_cases hp : r = p
        · simp [hp] at h
        · rw [Function.update_of_ne hp] at h
          exact s.tree_lt r i h
    tree_inj := fun a b i ha hb => by
      have key : ∀ r, Function.update (Function.update s.tree p none) q (s.tree p) r =
          some (.file i) → (r = q ∧ s.tree p = some (.file i)) ∨
            (r ≠ q ∧ r ≠ p ∧ s.tree r = some (.file i)) := by
        intro r h
        by_cases hq : r = q
        · subst hq
          exact Or.inl ⟨rfl, by simpa only [Function.update_self] using h⟩
        · rw [Function.update_of_ne hq] at h
          by_cases hp : r = p
          · simp [hp] at h
          · rw [Function.update_of_ne hp] at h
            exact Or.inr ⟨hq, hp, h⟩
      rcases key a ha with ⟨haq, ha'⟩ | ⟨_, hap, ha'⟩ <;>
        rcases key b hb with ⟨hbq, hb'⟩ | ⟨_, hbp, hb'⟩
      · exact haq.trans hbq.symm
      · exact absurd (s.tree_inj b p i hb' ha') hbp
      · exact absurd (s.tree_inj a p i ha' hb') hap
      · exact s.tree_inj a b i ha' hb' }

/-- A descriptor for `o`, at the lowest free number. -/
def install (s : Fs) (o : OpenFile) : Int × Fs :=
  (((allocFd s.fds o).1 : Int), { s with fds := (allocFd s.fds o).2 })

/-- The table entry of an open descriptor replaced. -/
def setFd (s : Fs) (fd : Int) (o : Option OpenFile) : Fs :=
  { s with fds := s.fds.set fd.toNat o }

end Fs

end Posix
