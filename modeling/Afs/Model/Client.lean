import Afs.Model.Server

/-!
# The client's operations

Every operation of `AfsClient.h` as a program over the commands of a client process: system calls
on the disk that holds the cache, remote calls, and accesses to the timestamp table in memory.
Results are the return value of the operation and, for those that set it, the file handle.
-/

namespace Afs

open Posix Interaction

/-- The commands of a client process. -/
inductive Cmd where
  /-- A system call on the client's disk. -/
  | sys (c : Sys)
  /-- The error number of the last failing call. -/
  | errno
  /-- One attempt of a remote call. -/
  | rpc (r : Request)
  /-- A remote call inside the loop `do … while (retry_req(is_ok))`. -/
  | retried (r : Request)
  /-- `get`. -/
  | get (filename : Path)
  /-- `put`. -/
  | put (key value : Int64)
  /-- The whole table, for `dump`. -/
  | table
  /-- The table as start-up leaves it. -/
  | setTable (ht : HashTable)

/-- The result of a command; a remote call gives no message unless its status is OK. -/
@[reducible] def Cmd.Res : Cmd → Type
  | .sys c => c.Res
  | .errno => Int
  | .rpc r | .retried r => Option r.Reply
  | .get _ => Int64
  | .put .. | .setTable _ => Unit
  | .table => HashTable

/-- The signature of a client program. -/
@[reducible] def clientSig : Sig := ⟨Cmd, Cmd.Res⟩

namespace Client

/-- One system call of an operation. -/
abbrev sys (c : Sys) : Prog clientSig c.Res := Prog.call (σ := clientSig) (.sys c)

/-- The error number of the last failing call. -/
abbrev errno : Prog clientSig Int := Prog.call (σ := clientSig) .errno

/-- One attempt of a remote call. -/
abbrev rpc (r : Request) : Prog clientSig (Option r.Reply) := Prog.call (σ := clientSig) (.rpc r)

/-- A remote call repeated by `retry_req`. -/
abbrev retried (r : Request) : Prog clientSig (Option r.Reply) :=
  Prog.call (σ := clientSig) (.retried r)

/-- `get` on the table. -/
abbrev get (filename : Path) : Prog clientSig Int64 := Prog.call (σ := clientSig) (.get filename)

/-- `put` on the table. -/
abbrev put (key value : Int64) : Prog clientSig Unit := Prog.call (σ := clientSig) (.put key value)

/-- The table. -/
abbrev table : Prog clientSig HashTable := Prog.call (σ := clientSig) .table

/-- `dump`: the standard library collects the lines and hands them to the kernel before the file
is closed. Printing to a file that did not open ends the process. -/
def dump (cache_path : Path) : Prog clientSig Unit := do
  let fptr : Int ← sys (.openF (getLocalPath databasePath cache_path)
    { creat := true, trunc := true } 0o666)
  if fptr = -1 then .halt
  let ht ← table
  let _ ← sys (.write fptr (dumpText ht) (dumpText ht).length)
  let _ ← sys (.close fptr)
  return ()

/-- Record a value for a file and flush the table. -/
def record (path cache_path : Path) (value : Int64) : Prog clientSig Unit := do
  put (hashKey path) value
  dump cache_path

/-- `afs_CREATE`: return value and file handle. -/
def afsCreate (path cache_path : Path) (fh : Int) : Prog clientSig (Int × Int) := do
  let client_path := getLocalPath path cache_path
  let fd : Int ← sys (.openF client_path { creat := true, append := true } S_IRWXUG)
  if fd = -1 then
    let e ← errno
    return (-e, fh)
  let status ← rpc (.create path)
  match status with
  | some reply =>
    record path cache_path reply.time
    return (reply.ack.toInt, fd)
  | none =>
    let e ← errno
    return (-e, fd)

/-- `afs_FETCH`: return value and, unless they stay unset, the buffer and its size. -/
def afsFetch (path cache_path : Path) : Prog clientSig (Int × Option (Bytes × Int)) := do
  let status ← retried (.fetch path)
  match status with
  | some reply =>
    record path cache_path reply.time
    return (0, some (reply.buf, reply.size.toInt))
  | none =>
    let e ← errno
    return (-e, none)

/-- The attributes of a reply: `memset`, then eleven fields. The time goes into the seconds. -/
def statOfReply (reply : GetattrRes) : Stat where
  st_ino := reply.ino.toNat
  st_mode := reply.mode.toUInt32.toNat
  st_nlink := reply.nlink.toNat
  st_uid := reply.uid.toNat
  st_gid := reply.gid.toNat
  st_size := reply.size.toInt
  st_blksize := reply.blksize.toInt
  st_blocks := reply.blocks.toInt
  st_atime := reply.atime.toInt
  st_mtim := .ofSec reply.mtime.toInt
  st_ctime := reply.ctime.toInt

/-- `afs_GETATTR`: return value and the structure, left as it was on every failure. -/
def afsGetattr (path : Path) (stats : Stat) : Prog clientSig (Int × Stat) := do
  let status ← retried (.getattr path)
  match status with
  | some reply =>
    if reply.err ≠ 0 then return (-reply.err.toInt, stats)
    return (0, statOfReply reply)
  | none =>
    let e ← errno
    return (-e, stats)

/-- The block of `afs_OPEN` under `fetchNewCopy`: empty the copy, fetch, write. A result is the
value that the operation returns early. -/
def fetchNewCopy (junk : Junk) (path cache_path : Path) (fd : Int) :
    Prog clientSig (Option Int) := do
  let rc : Int ← sys (.ftruncate fd 0)
  if rc < 0 then
    let e ← errno
    return some (-e)
  let (rc, out) ← afsFetch path cache_path
  if rc < 0 then return some (-ENOENT)
  let (buf, size) := out.getD (junk.beyond, -2)
  let _ ← sys (.write fd (buf ++ junk.beyond) (sizeT size))
  let _ ← sys (.fsync fd)
  return none

/-- Whether `afs_OPEN` fetches, and the descriptor it works with: a missing copy is created and
fetched, a present one is fetched when the server's time is greater than the recorded one. -/
def openCopy (junk : Junk) (path cache_path : Path) : Prog clientSig (Int × Bool) := do
  let client_path := getLocalPath path cache_path
  let fd : Int ← sys (.openF client_path { append := true } S_IRWXUG)
  if fd = -1 then
    let fd : Int ← sys (.openF client_path { creat := true, append := true } S_IRWXUG)
    return (fd, true)
  let (_, remoteFileInfo) ← afsGetattr path junk.stats
  let recorded ← get path
  return (fd, decide (remoteFileInfo.st_mtime > recorded.toInt))

/-- `afs_OPEN`: return value and file handle. -/
def afsOpen (junk : Junk) (path cache_path : Path) (fh : Int) : Prog clientSig (Int × Int) := do
  let (fd, fetch) ← openCopy junk path cache_path
  let early ← if fetch then fetchNewCopy junk path cache_path fd else pure none
  match early with
  | some rc => return (rc, fh)
  | none =>
    let _ ← sys (.lstat (getLocalPath path cache_path))
    return (0, fd)

/-- `afs_READ`: return value and the bytes put into the buffer. The descriptor stays open. -/
def afsRead (path cache_path : Path) (size offset : Nat) : Prog clientSig (Int × Bytes) := do
  let client_path := getLocalPath path cache_path
  let _ ← sys (.lstat client_path)
  let fd : Int ← sys (.openF client_path {} 0)
  let got ← sys (.pread fd size offset)
  let _ ← sys (.lstat client_path)
  match got with
  | none =>
    let e ← errno
    return (-e, [])
  | some d => return (d.length, d)

/-- `afs_TRUNCATE`. -/
def afsTruncate (path cache_path : Path) (size : Int) : Prog clientSig Int := do
  let res : Int ← sys (.truncate (getLocalPath path cache_path) size)
  if res = -1 then
    let e ← errno
    return -e
  return 0

/-- `afs_CHOWN`. -/
def afsChown (path cache_path : Path) (uid gid : Nat) : Prog clientSig Int := do
  let res : Int ← sys (.lchown (getLocalPath path cache_path) uid gid)
  if res = -1 then
    let e ← errno
    return -e
  return 0

/-- `afs_UTIMENS`. -/
def afsUtimens (path cache_path : Path) (atime mtime : Timespec) : Prog clientSig Int := do
  let res : Int ← sys (.utimens (getLocalPath path cache_path) atime mtime)
  if res = -1 then
    let e ← errno
    return -e
  return 0

/-- What the operations that only ask the server return: without an OK status the message is
still the default one, so its error is zero. -/
def errorOf (status : Option ErrorRes) : Int :=
  match status with
  | some _ => 0
  | none => -(({} : ErrorRes).error.toInt)

/-- `afs_UNLINK`: the local result is ignored. -/
def afsUnlink (path cache_path : Path) : Prog clientSig Int := do
  let _ ← sys (.unlink (getLocalPath path cache_path))
  let status ← rpc (.unlink path)
  return errorOf status

/-- `afs_CHMOD`: the local result is ignored. -/
def afsChmod (path cache_path : Path) (mode : UInt32) : Prog clientSig Int := do
  let _ ← sys (.chmod (getLocalPath path cache_path) mode.toNat)
  let status ← rpc (.chmod path mode)
  return errorOf status

/-- `afs_MKDIR`: both branches return before the local `mkdir`. -/
def afsMkdir (path : Path) (mode : UInt32) : Prog clientSig Int := do
  let status ← rpc (.mkdir path mode)
  return errorOf status

/-- `afs_RMDIR`: the local result is ignored. -/
def afsRmdir (path cache_path : Path) : Prog clientSig Int := do
  let _ ← sys (.rmdir (getLocalPath path cache_path))
  let status ← rpc (.rmdir path)
  return errorOf status

/-- `afs_STORE`. The string is built before the first attempt, and a negative size throws, which
ends the process. The `int` parameter `size` is what the caller's `off_t` was cut to. -/
def afsStore (path cache_path : Path) (buf : Bytes) (size : Int32) : Prog clientSig Int := do
  if size < 0 then .halt
  let request : StoreReq := { path := path, size := size, buf := buf.take size.toInt.toNat }
  let status ← retried (.store request)
  match status with
  | some reply =>
    record path cache_path reply.time
    return reply.error.toInt
  | none => return -(({} : StoreRes).error.toInt)

/-- `afs_RELEASE`: always flush if modified. The length is taken before the flag is looked at,
and the copy is read after it. -/
def afsRelease (junk : Junk) (path cache_path : Path) (fh : Int) : Prog clientSig Int := do
  let client_path := getLocalPath path cache_path
  let res ← sys (.lstat client_path)
  let info : Stat := res.getD junk.info
  let modified ← get path
  if modified = modifiedFlag then
    let rc : Int ← sys (.close fh)
    let buffer := junk.heap (sizeT info.st_size)
    let fd : Int ← sys (.openF client_path { append := true } S_IRWXUG)
    let got ← sys (.read fd (sizeT info.st_size))
    let _ ← afsStore path cache_path (fill buffer got) (Int32.ofInt info.st_size)
    return rc
  return 0

/-- `afs_LS`: return value and the names handed to the filler. -/
def afsLs (path : Path) : Prog clientSig (Int × List Path) := do
  let status ← rpc (.ls path)
  match status with
  | some stream => return (0, (stream.filter (·.error = 0)).map (·.name))
  | none =>
    let e ← errno
    return (-e, [])

/-- `afs_FSYNC`: `fdatasync` and `fsync` act alike here. -/
def afsFsync (fh : Int) : Prog clientSig Int := do
  let res : Int ← sys (.fsync fh)
  if res = -1 then
    let e ← errno
    return -e
  return 0

/-- The copy of the old contents into the temporary file at the start of a write. -/
def copyToTmp (junk : Junk) (client_path : Path) (fd : Int) : Prog clientSig Unit := do
  let res ← sys (.lstat client_path)
  let info : Stat := res.getD junk.info
  let fd_main : Int ← sys (.openF client_path { append := true } S_IRWXUG)
  let buf := junk.heap (sizeT info.st_size)
  let got ← sys (.read fd_main (sizeT info.st_size))
  let _ ← sys (.write fd (fill buf got) (sizeT info.st_size))
  let _ ← sys (.close fd_main)
  return ()

/-- `afs_WRITE`: the copy is rebuilt in a temporary file that then takes its place, and only the
result of the positioned write is looked at. -/
def afsWrite (junk : Junk) (path cache_path : Path) (buffer : Bytes) (offset : Nat) :
    Prog clientSig Int := do
  if buffer.length > 0 then
    let client_tmp_path := getLocalTmpPath path cache_path
    let client_path := getLocalPath path cache_path
    let fd : Int ← sys (.openF client_tmp_path { creat := true, trunc := true } S_IRWXUG)
    copyToTmp junk client_path fd
    let ret_code : Int ← sys (.pwrite fd buffer buffer.length offset)
    let _ ← sys (.fsync fd)
    let _ ← sys (.close fd)
    let _ ← sys (.remove client_path)
    let _ ← sys (.rename client_tmp_path client_path)
    record path cache_path modifiedFlag
    if ret_code = -1 then
      let e ← errno
      return -e
    return ret_code
  return 0

/-- `read_from_database` from the start: the lines of the file, if it opens, go into the empty
table; a line that the parser cannot take ends the process. -/
def loadDatabase (cache_path : Path) : Prog clientSig Unit := do
  let client_path := getLocalPath databasePath cache_path
  let fptr : Int ← sys (.openF client_path {} 0)
  if fptr = -1 then
    Prog.call (σ := clientSig) (.setTable initHt)
  else
    let res ← sys (.fstat fptr)
    let got ← sys (.read fptr (res.elim 0 fun st => st.st_size.toNat))
    match readFromDatabase (got.getD []) initHt with
    | none => .halt
    | some ht =>
      Prog.call (σ := clientSig) (.setTable ht)
      let _ ← sys (.close fptr)
      return ()

/-- What `main` does before it serves requests: make the database file if it is not there, and
load it. -/
def main (cache_path : Path) : Prog clientSig Unit := do
  let fd : Int ← sys (.openF (getLocalPath databasePath cache_path)
    { creat := true, append := true } S_IRWXUG)
  let _ ← sys (.close fd)
  loadDatabase cache_path

end Client

end Afs
