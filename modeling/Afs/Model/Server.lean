import Afs.Model.Messages

/-!
# The server's handlers

Every handler of `server.cc` as a program of system calls on the server's file system. Reading a
file takes its size, its bytes and its time in three calls; storing a file truncates, writes and
takes the time by name in three. A variable that the source leaves unset until a call fills it
starts from an unspecified value, and a directory is read in an unspecified order.
-/

namespace Afs

open Posix Interaction

/-- What the source leaves open: contents of memory that it may read before anything was written there,
and the order in which a directory is read. -/
structure Junk where
  /-- The first `struct stat` of a function. -/
  info : Stat
  /-- The second `struct stat` of a function. -/
  stats : Stat
  /-- A fresh block from `malloc`. -/
  heap : Nat → Bytes
  /-- A block has the length asked for. -/
  length_heap : ∀ n, (heap n).length = n
  /-- Mapped memory that follows a buffer. -/
  beyond : Bytes
  /-- The entries of a directory in the order of its stream. -/
  order : List Path → List Path
  /-- The stream has every entry once. -/
  order_perm : ∀ names, (order names).Perm names

/-- A buffer of which a `read` filled the front. -/
def fill (buf : Bytes) : Option Bytes → Bytes
  | none => buf
  | some d => d ++ buf.drop d.length

/-- A buffer filled to its end holds what was read. -/
theorem fill_of_length {buf d : Bytes} (h : buf.length = d.length) : fill buf (some d) = d := by
  simp [fill, ← h]

/-- A signed number converted to `size_t`. -/
def sizeT (n : Int) : Nat := (n % 2 ^ 64).toNat

theorem sizeT_natCast {n : Nat} (h : n < 2 ^ 64) : sizeT n = n := by
  simp only [sizeT]
  omega

/-- The permission bits that every created file asks for. -/
def S_IRWXUG : Nat := 0o770

namespace Server

/-- One system call of a handler. -/
abbrev sys (c : Sys) : Prog procSig c.Res := Prog.call (σ := procSig) (.sys c)

/-- The error number of the last failing call. -/
abbrev errno : Prog procSig Int := Prog.call (σ := procSig) .errno

/-- `afs_CREATE`. -/
def afsCreate (junk : Junk) (root_path request_path : Path) :
    Prog procSig (Response CreateRes) := do
  let path := getServerPath request_path root_path
  let fd : Int ← sys (.openF path { creat := true } S_IRWXUG)
  if fd = -1 then
    let e ← errno
    return { reply := { ack := Int32.ofInt e } }
  let res ← sys (.lstat path)
  let stats : Stat := res.getD junk.info
  let _ ← sys (.close fd)
  return { reply := { ack := 0, time := Int64.ofNat stats.st_mtim.tv_nsec } }

/-- `afs_STORE`: the result of the write is not looked at. -/
def afsStore (junk : Junk) (root_path : Path) (request : StoreReq) :
    Prog procSig (Response StoreRes) := do
  let path := getServerPath request.path root_path
  let fd : Int ← sys (.openF path { creat := true, trunc := true } S_IRWXUG)
  if fd = -1 then
    let e ← errno
    return { reply := { error := Int32.ofInt e } }
  let _ ← sys (.write fd (request.buf ++ junk.beyond) (sizeT request.size.toInt))
  let res ← sys (.lstat path)
  let stats : Stat := res.getD junk.info
  let _ ← sys (.close fd)
  return { reply := { error := 0, time := Int64.ofNat stats.st_mtim.tv_nsec } }

/-- `afs_GETATTR`: the modification time in the reply is the nanosecond part alone. -/
def afsGetattr (root_path request_path : Path) : Prog procSig (Response GetattrRes) := do
  let path := getServerPath request_path root_path
  let res ← sys (.lstat path)
  match res with
  | none =>
    let e ← errno
    return { reply := { err := Int32.ofInt e } }
  | some stats =>
    return { reply := {
      ino := UInt32.ofInt stats.st_ino
      mode := Int32.ofInt stats.st_mode
      nlink := UInt32.ofInt stats.st_nlink
      uid := UInt32.ofInt stats.st_uid
      gid := UInt32.ofInt stats.st_gid
      size := Int64.ofInt stats.st_size
      blksize := Int64.ofInt stats.st_blksize
      blocks := Int64.ofInt stats.st_blocks
      atime := Int32.ofInt stats.st_atime
      mtime := Int32.ofNat stats.st_mtim.tv_nsec
      ctime := Int32.ofInt stats.st_ctime
      err := 0 } }

/-- The shape of `afs_UNLINK`, `afs_CHMOD` and `afs_RMDIR`: the error number of one call on the
path goes into a reply with an OK status. -/
def errorReply (res : Prog procSig Int) : Prog procSig (Response ErrorRes) := do
  let r ← res
  if r = -1 then
    let e ← errno
    return { reply := { error := Int32.ofInt e } }
  return { reply := {} }

/-- `afs_UNLINK`. -/
def afsUnlink (root_path request_path : Path) : Prog procSig (Response ErrorRes) :=
  errorReply (sys (.unlink (getServerPath request_path root_path)))

/-- `afs_CHMOD`. -/
def afsChmod (root_path request_path : Path) (mode : UInt32) : Prog procSig (Response ErrorRes) :=
  errorReply (sys (.chmod (getServerPath request_path root_path) mode.toNat))

/-- `afs_RMDIR`. -/
def afsRmdir (root_path request_path : Path) : Prog procSig (Response ErrorRes) :=
  errorReply (sys (.rmdir (getServerPath request_path root_path)))

/-- `afs_MKDIR`: alone among the handlers it reports a failure with a status that is not OK. -/
def afsMkdir (root_path request_path : Path) (mode : UInt32) :
    Prog procSig (Response ErrorRes) := do
  let path := getServerPath request_path root_path
  let res : Int ← sys (.mkdir path mode.toNat)
  if res = -1 then
    let e ← errno
    return { ok := false, reply := { error := Int32.ofInt e } }
  return { reply := {} }

/-- `afs_FETCH`: the size comes from a first `fstat`, the time from a second one after the read.
Building the string from a negative size throws, which the service turns into a bad status. -/
def afsFetch (junk : Junk) (root_path request_path : Path) :
    Prog procSig (Response FetchReply) := do
  let path := getServerPath request_path root_path
  let fd : Int ← sys (.openF path {} 0)
  if fd = -1 then
    return { reply := { error := -1 } }
  let res ← sys (.fstat fd)
  let info : Stat := res.getD junk.info
  let buf := junk.heap info.st_size.toNat
  let _ ← sys (.lseek fd 0)
  let got ← sys (.read fd info.st_size.toNat)
  let res ← sys (.fstat fd)
  let stats : Stat := res.getD junk.stats
  let _ ← sys (.close fd)
  if info.st_size < 0 then
    return { ok := false, reply := {} }
  return { reply := {
    error := 0
    buf := fill buf got
    size := Int32.ofInt info.st_size
    time := Int64.ofNat stats.st_mtim.tv_nsec } }

/-- `afs_LS`. -/
def afsLs (junk : Junk) (root_path request_path : Path) : Prog procSig (Response (List LsRes)) := do
  let path := getServerPath request_path root_path
  let dp ← sys (.readdir path)
  match dp.map junk.order with
  | none | some [] => return { reply := [{ error := -1 }] }
  | some names => return { reply := names.map fun name => { error := 0, name := name } }

/-- The handler of each call. -/
def handle (junk : Junk) (root_path : Path) : (r : Request) → Prog procSig (Response r.Reply)
  | .create path => afsCreate junk root_path path
  | .store r => afsStore junk root_path r
  | .getattr path => afsGetattr root_path path
  | .unlink path => afsUnlink root_path path
  | .chmod path mode => afsChmod root_path path mode
  | .mkdir path mode => afsMkdir root_path path mode
  | .rmdir path => afsRmdir root_path path
  | .fetch path => afsFetch junk root_path path
  | .ls path => afsLs junk root_path path

end Server

end Afs
