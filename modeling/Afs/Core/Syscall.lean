import Afs.Core.Prog
import Afs.Core.Disk

/-!
# System calls

Each call either succeeds with a result and a new file system or fails with an error number.
A process carries its error number and a list of faults: the head of the list decides whether
the next call behaves normally, fails, or transfers only part of its bytes. With no faults left
every call behaves normally. Permissions are neither checked nor masked, and reading does not stamp the
time of the last access.
-/

namespace Posix

open Interaction

/-- No such file or directory. -/
abbrev ENOENT : Int := 2
/-- Bad descriptor. -/
abbrev EBADF : Int := 9
/-- Bad address. -/
abbrev EFAULT : Int := 14
/-- The name exists. -/
abbrev EEXIST : Int := 17
/-- Not a directory. -/
abbrev ENOTDIR : Int := 20
/-- Is a directory. -/
abbrev EISDIR : Int := 21
/-- Invalid argument. -/
abbrev EINVAL : Int := 22
/-- Directory not empty. -/
abbrev ENOTEMPTY : Int := 39

/-- The fields of `struct stat` that the programs look at. -/
structure Stat where
  /-- Inode number. -/
  st_ino : Int
  /-- File type and permission bits. -/
  st_mode : Int
  /-- Number of names. -/
  st_nlink : Int
  /-- Owner. -/
  st_uid : Int
  /-- Group. -/
  st_gid : Int
  /-- Length in bytes. -/
  st_size : Int
  /-- Preferred block size. -/
  st_blksize : Int
  /-- Blocks of 512 bytes. -/
  st_blocks : Int
  /-- Last access, in seconds. -/
  st_atime : Int
  /-- Last modification. -/
  st_mtim : Timespec
  /-- Last status change, in seconds. -/
  st_ctime : Int

/-- The seconds of the modification time: the macro `st_mtime` of the C library. -/
def Stat.st_mtime (s : Stat) : Int := s.st_mtim.tv_sec

/-- The attributes of a file or directory of the given length. -/
def Attr.stat (a : Attr) (ino size : Nat) : Stat where
  st_ino := ino
  st_mode := a.mode
  st_nlink := 1
  st_uid := a.uid
  st_gid := a.gid
  st_size := size
  st_blksize := 4096
  st_blocks := (size + 511) / 512
  st_atime := a.atime
  st_mtim := a.mtim
  st_ctime := a.ctime

/-- The attributes of a regular file. -/
def File.stat (f : File) (ino : Nat) : Stat := f.toAttr.stat ino f.bytes.length

@[simp] theorem File.stat_size (f : File) (ino : Nat) : (f.stat ino).st_size = f.bytes.length := rfl

@[simp] theorem File.stat_mtim (f : File) (ino : Nat) : (f.stat ino).st_mtim = f.mtim := rfl

/-- The open flags that matter here. -/
structure Flags where
  /-- `O_CREAT`. -/
  creat : Bool := false
  /-- `O_TRUNC`. -/
  trunc : Bool := false
  /-- `O_APPEND`. -/
  append : Bool := false

namespace Fs

/-- The error number for a path that names nothing: it may be the name of a directory with separators
behind it, or lead through a file. -/
def absent (s : Fs) (p : Path) : Int :=
  if s.isDir (trimmed p) then EISDIR
  else if (through p).any fun q => (s.look q).isSome then ENOTDIR
  else ENOENT

/-- The attributes of a directory. Its links are its name, its own entry and those of its
subdirectories. -/
def dirStat (s : Fs) (p : Path) : Stat :=
  { (s.dirs p).stat 0 4096 with
    st_nlink := 2 + (s.listing.filter fun q => parent q == p && s.isDir q).length }

/-- `open`. Directories are never opened by the programs modelled here. -/
def openFile (s : Fs) (p : Path) (fl : Flags) (mode : Nat) : Except Int (Int × Fs) :=
  match s.tree p with
  | some .dir => .error EISDIR
  | some (.file i) =>
    let t := if fl.trunc then s.setBytes i [] else s
    .ok (t.install ⟨i, 0, fl.append⟩)
  | none =>
    if fl.creat then
      if s.isDir (parent p) then .ok ((s.link p mode).install ⟨s.next, 0, fl.append⟩)
      else .error (s.absent p)
    else .error (s.absent p)

/-- `close`. -/
def close (s : Fs) (fd : Int) : Except Int (Int × Fs) :=
  match s.getFd fd with
  | none => .error EBADF
  | some _ => .ok (0, s.setFd fd none)

/-- `lstat`. A directory is also found with separators behind its name. -/
def lstat (s : Fs) (p : Path) : Except Int Stat :=
  match s.tree p with
  | some (.file i) => .ok ((s.node i).stat i)
  | some .dir => .ok (s.dirStat p)
  | none => if s.isDir (trimmed p) then .ok (s.dirStat (trimmed p)) else .error (s.absent p)

/-- `fstat`. -/
def fstat (s : Fs) (fd : Int) : Except Int Stat :=
  match s.getFd fd with
  | none => .error EBADF
  | some o => .ok ((s.node o.ino).stat o.ino)

/-- `read`: the bytes at the offset, which moves past them. -/
def read (s : Fs) (fd : Int) (n : Nat) : Except Int (Bytes × Fs) :=
  match s.getFd fd with
  | none => .error EBADF
  | some o =>
    let d := slice (s.node o.ino).bytes o.offset n
    .ok (d, s.setFd fd (some { o with offset := o.offset + d.length }))

/-- `pread`: the bytes at the given offset. -/
def pread (s : Fs) (fd : Int) (n off : Nat) : Except Int Bytes :=
  match s.getFd fd with
  | none => .error EBADF
  | some o => .ok (slice (s.node o.ino).bytes off n)

/-- `write`: at the offset, or at the end with `O_APPEND`. A write of no bytes changes nothing. -/
def write (s : Fs) (fd : Int) (d : Bytes) : Except Int (Int × Fs) :=
  match s.getFd fd with
  | none => .error EBADF
  | some o =>
    if d = [] then .ok (0, s) else
    let b := (s.node o.ino).bytes
    let off := if o.append then b.length else o.offset
    .ok (d.length, (s.setBytes o.ino (splice b off d)).setFd fd
      (some { o with offset := off + d.length }))

/-- `pwrite`: at the given offset. A write of no bytes changes nothing. -/
def pwrite (s : Fs) (fd : Int) (d : Bytes) (off : Nat) : Except Int (Int × Fs) :=
  match s.getFd fd with
  | none => .error EBADF
  | some o =>
    if d = [] then .ok (0, s) else
    .ok (d.length, s.setBytes o.ino (splice (s.node o.ino).bytes off d))

/-- `lseek` with `SEEK_SET`. -/
def lseek (s : Fs) (fd : Int) (off : Nat) : Except Int (Int × Fs) :=
  match s.getFd fd with
  | none => .error EBADF
  | some o => .ok (off, s.setFd fd (some { o with offset := off }))

/-- `ftruncate`. -/
def ftruncate (s : Fs) (fd : Int) (n : Nat) : Except Int (Int × Fs) :=
  match s.getFd fd with
  | none => .error EBADF
  | some o => .ok (0, s.setBytes o.ino (resize (s.node o.ino).bytes n))

/-- `truncate`. -/
def truncate (s : Fs) (p : Path) (n : Int) : Except Int (Int × Fs) :=
  if n < 0 then .error EINVAL else
  match s.tree p with
  | some (.file i) => .ok (0, s.setBytes i (resize (s.node i).bytes n.toNat))
  | some .dir => .error EISDIR
  | none => .error (s.absent p)

/-- `fsync` and `fdatasync`. -/
def fsync (s : Fs) (fd : Int) : Except Int (Int × Fs) :=
  match s.getFd fd with
  | none => .error EBADF
  | some _ => .ok (0, s)

/-- `unlink`. -/
def unlink (s : Fs) (p : Path) : Except Int (Int × Fs) :=
  match s.tree p with
  | some (.file _) => .ok (0, s.drop p)
  | some .dir => .error EISDIR
  | none => .error (s.absent p)

/-- `rmdir`: only an empty directory goes. -/
def rmdir (s : Fs) (p : Path) : Except Int (Int × Fs) :=
  match s.tree p with
  | some .dir =>
    if s.listing.any (fun q => parent q == p) then .error ENOTEMPTY else .ok (0, s.drop p)
  | some (.file _) => .error ENOTDIR
  | none => .error (s.absent p)

/-- The library function `remove`: `unlink` for files and `rmdir` for directories. -/
def remove (s : Fs) (p : Path) : Except Int (Int × Fs) :=
  if s.isDir p then s.rmdir p else s.unlink p

/-- `rename` of a file. -/
def rename (s : Fs) (p q : Path) : Except Int (Int × Fs) :=
  match s.tree p, s.tree q with
  | none, _ => .error (s.absent p)
  | some .dir, _ => .error EINVAL
  | some (.file _), some .dir => .error EISDIR
  | some (.file _), _ => .ok (0, s.move p q)

/-- `mkdir`: permission bits and the sticky bit are taken from the mode. -/
def mkdir (s : Fs) (p : Path) (mode : Nat) : Except Int (Int × Fs) :=
  match s.tree p with
  | some _ => .error EEXIST
  | none =>
    if s.isDir (trimmed p) then .error EEXIST
    else if s.isDir (parent p) then .ok (0, s.putDir p (s.newAttr (S_IFDIR + mode % 0o2000)))
    else .error (s.absent p)

/-- Attributes changed by `g`, which is a change of status. -/
def altered (s : Fs) (g : Attr → Attr) (a : Attr) : Attr := { g a with ctime := s.clock.tv_sec }

/-- The attributes under a name changed by `g`. A directory is also found with separators behind its
name. -/
def chattr (s : Fs) (p : Path) (g : Attr → Attr) : Except Int (Int × Fs) :=
  match s.tree p with
  | some (.file i) =>
    .ok (0, s.setNode i { s.altered g (s.node i).toAttr with bytes := (s.node i).bytes })
  | some .dir => .ok (0, s.setDir p (s.altered g (s.dirs p)))
  | none =>
    if s.isDir (trimmed p) then .ok (0, s.setDir (trimmed p) (s.altered g (s.dirs (trimmed p))))
    else .error (s.absent p)

/-- The entries of a directory. -/
def entries (s : Fs) (p : Path) : List Path :=
  [46] :: [46, 46] :: (s.listing.filter fun q => parent q == p).map baseName

/-- The name that a path stands for: separators behind the name of a directory do not count. -/
def named (s : Fs) (p : Path) : Path :=
  match s.tree p with
  | some _ => p
  | none => if s.isDir (trimmed p) then trimmed p else p

/-- The names inside a directory, as `opendir` and `readdir` give them up to their order, also when
separators stand behind its name. -/
def readdir (s : Fs) (p : Path) : Except Int (List Path) :=
  if s.isDir (s.named p) then .ok (s.entries (s.named p)) else .error (s.absent p)

end Fs

/-- The system calls of the programs. A buffer handed to a write is the memory from its start;
the count may be larger than the object it was meant for. -/
inductive Sys where
  | openF (p : Path) (fl : Flags) (mode : Nat)
  | close (fd : Int)
  | lstat (p : Path)
  | fstat (fd : Int)
  | read (fd : Int) (n : Nat)
  | pread (fd : Int) (n off : Nat)
  | write (fd : Int) (mem : Bytes) (count : Nat)
  | pwrite (fd : Int) (mem : Bytes) (count off : Nat)
  | lseek (fd : Int) (off : Nat)
  | ftruncate (fd : Int) (n : Nat)
  | truncate (p : Path) (n : Int)
  | fsync (fd : Int)
  | unlink (p : Path)
  | remove (p : Path)
  | rename (p q : Path)
  | mkdir (p : Path) (mode : Nat)
  | rmdir (p : Path)
  | chmod (p : Path) (mode : Nat)
  | lchown (p : Path) (uid gid : Nat)
  | utimens (p : Path) (atime mtime : Timespec)
  | readdir (p : Path)

/-- The result of a call: a number that is `-1` on failure, or a filled buffer. -/
@[reducible] def Sys.Res : Sys → Type
  | .lstat _ | .fstat _ => Option Stat
  | .read .. | .pread .. => Option Bytes
  | .readdir _ => Option (List Path)
  | _ => Int

/-- What a failing call returns. -/
def Sys.failed : (c : Sys) → c.Res
  | .lstat _ | .fstat _ | .read .. | .pread .. | .readdir _ => none
  | .openF .. | .close _ | .write .. | .pwrite .. | .lseek .. | .ftruncate .. | .truncate ..
  | .fsync _ | .unlink _ | .remove _ | .rename .. | .mkdir .. | .rmdir _ | .chmod .. | .lchown ..
  | .utimens .. => (-1 : Int)

/-- At most `limit` bytes, if there is a limit. -/
def limited (limit : Option Nat) (d : Bytes) : Bytes :=
  match limit with
  | none => d
  | some n => d.take n

@[simp] theorem limited_none (d : Bytes) : limited none d = d := rfl

/-- A call without failure of its own; `limit` cuts what a transfer moves. -/
def Sys.perform (limit : Option Nat) : (c : Sys) → Fs → Except Int (c.Res × Fs)
  | .openF p fl mode, s => s.openFile p fl mode
  | .close fd, s => s.close fd
  | .lstat p, s => (s.lstat p).map fun st => (some st, s)
  | .fstat fd, s => (s.fstat fd).map fun st => (some st, s)
  | .read fd n, s => (s.read fd (limit.elim n (min n))).map fun r => (some r.1, r.2)
  | .pread fd n off, s => (s.pread fd (limit.elim n (min n)) off).map fun d => (some d, s)
  | .write fd mem count, s =>
    if mem.length < count then .error EFAULT else s.write fd (limited limit (mem.take count))
  | .pwrite fd mem count off, s =>
    if mem.length < count then .error EFAULT else s.pwrite fd (limited limit (mem.take count)) off
  | .lseek fd off, s => s.lseek fd off
  | .ftruncate fd n, s => s.ftruncate fd n
  | .truncate p n, s => s.truncate p n
  | .fsync fd, s => s.fsync fd
  | .unlink p, s => s.unlink p
  | .remove p, s => s.remove p
  | .rename p q, s => s.rename p q
  | .mkdir p mode, s => s.mkdir p mode
  | .rmdir p, s => s.rmdir p
  | .chmod p mode, s => s.chattr p fun a => { a with mode := a.mode / 4096 * 4096 + mode % 4096 }
  | .lchown p uid gid, s => s.chattr p fun a => { a with uid := uid, gid := gid }
  | .utimens p atime mtime, s =>
    s.chattr p fun a => { a with atime := atime.tv_sec, mtim := mtime }
  | .readdir p, s => (s.readdir p).map fun l => (some l, s)

/-- What the environment does to one system call. -/
inductive Fault where
  /-- Nothing. -/
  | ok
  /-- The call fails with this error number and changes nothing. -/
  | fail (e : Int)
  /-- A transfer moves at most this many bytes. -/
  | short (n : Nat)

/-- A process: its file system, its error number and the faults still to come. -/
structure Proc where
  /-- Files and descriptors. -/
  fs : Fs
  /-- The error number of the last failing call. -/
  errno : Int
  /-- Faults of the coming calls; none means normal behaviour. -/
  faults : List Fault

/-- The outcome of a call recorded in the process. -/
def Sys.finish (c : Sys) (s : Proc) : Except Int (c.Res × Fs) → c.Res × Proc
  | .ok (r, fs) => (r, { s with fs := fs })
  | .error e => (c.failed, { s with errno := e })

/-- One system call of a process, under the next fault. -/
def Sys.exec (c : Sys) (s : Proc) : c.Res × Proc :=
  match s.faults with
  | [] => c.finish s (c.perform none s.fs)
  | .ok :: fs => c.finish { s with faults := fs } (c.perform none s.fs)
  | .fail e :: fs => c.finish { s with faults := fs } (.error e)
  | .short n :: fs => c.finish { s with faults := fs } (c.perform (some n) s.fs)

/-- What a program of one process can do: make a system call, or look at the error number. -/
inductive ProcCmd where
  | sys (c : Sys)
  | errno

/-- The result of a step of a process. -/
@[reducible] def ProcCmd.Res : ProcCmd → Type
  | .sys c => c.Res
  | .errno => Int

/-- The signature of a program of one process. -/
@[reducible] def procSig : Sig := ⟨ProcCmd, ProcCmd.Res⟩

/-- The machine that runs a program of one process. -/
def ProcCmd.exec : Machine procSig Proc
  | .sys c, s => c.exec s
  | .errno, s => (s.errno, s)

/-- With no faults to come, a call that succeeds gives its result and new file system. -/
theorem Sys.exec_ok {c : Sys} {s : Proc} {r : c.Res} {fs : Fs} (hf : s.faults = [])
    (h : c.perform none s.fs = .ok (r, fs)) : c.exec s = (r, { s with fs := fs }) := by
  simp only [Sys.exec, hf, h, Sys.finish]

/-- With no faults to come, a call that fails sets the error number and nothing else. -/
theorem Sys.exec_error {c : Sys} {s : Proc} {e : Int} (hf : s.faults = [])
    (h : c.perform none s.fs = .error e) : c.exec s = (c.failed, { s with errno := e }) := by
  simp only [Sys.exec, hf, h, Sys.finish]

/-- No faults come from nowhere. -/
theorem Sys.exec_faults {v : Proc} (hf : v.faults = []) (c : Sys) : (c.exec v).2.faults = [] := by
  simp only [exec, hf]
  cases c.perform none v.fs <;> exact hf

end Posix
