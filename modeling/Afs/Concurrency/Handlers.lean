import Afs.Core.Names
import Afs.Core.Pool
import Afs.Model.Server

/-!
# Handlers that run concurrently

The service runs every handler on a thread of its own, so system calls of handlers of one file
interleave. Here the pool of real handlers is compared with a smaller machine that knows only the
file, its modification time and how far every handler has come. Each step of one is a step of the
other.
-/

namespace Afs

open Posix Interaction

/-- The content of a store request. -/
structure Upload where
  size : Int32
  buf : Bytes
  /-- The buffer holds the bytes that the size announces. -/
  fits : 0 ≤ size.toInt ∧ size.toInt ≤ buf.length

/-- The first `size` bytes of the buffer. -/
def Upload.bytes (u : Upload) : Bytes := u.buf.take u.size.toInt.toNat

/-- A handler that works on the file. -/
inductive Job where
  | fetch
  | store (u : Upload)

/-- What a handler reports: the error and the time of its reply, and the bytes of the exchange. -/
structure Exchange where
  error : Int32
  bytes : Bytes
  time : Int64
  deriving DecidableEq

/-- The handler as the server runs it, with what it reports about itself. -/
def Job.prog (junk : Junk) (root_path request_path : Path) : Job → Prog procSig Exchange
  | .fetch => do
    let r ← Server.afsFetch junk root_path request_path
    return ⟨r.reply.error, r.reply.buf, r.reply.time⟩
  | .store u => do
    let r ← Server.afsStore junk root_path ⟨request_path, u.size, u.buf⟩
    return ⟨r.reply.error, u.bytes, r.reply.time⟩

/-- The clock that the next modification is stamped with. -/
def setClock (now : Timespec) (s : Proc) : Proc := { s with fs := { s.fs with clock := now } }

/-- Handlers that run at the same time. -/
structure Handlers (ι : Type) where
  /-- What each of them does. -/
  job : ι → Job
  /-- Unset variables of each. -/
  junk : ι → Junk
  /-- `root_path` of the server. -/
  root_path : Path
  /-- The path in all the requests. -/
  request_path : Path

namespace Handlers

variable {ι : Type} (H : Handlers ι)

/-- The file that the handlers work on. -/
def path : Path := getServerPath H.request_path H.root_path

/-- All handlers before their first call. -/
def start (s : Proc) : Pool procSig ι Proc Exchange where
  prog i := (H.job i).prog (H.junk i) H.root_path H.request_path
  state := s

/-- One system call of one handler, at a time. -/
def step [DecidableEq ι] (P : Pool procSig ι Proc Exchange) :
    ι × Timespec → Option (Pool procSig ι Proc Exchange) :=
  P.step ProcCmd.exec setClock

/-- The server before the handlers start: the path is no directory, a file can be made there, and
no call will fail. -/
structure Ready (s : Proc) : Prop where
  /-- System calls behave normally. -/
  faults : s.faults = []
  /-- The path is not a directory. -/
  isDir : s.fs.isDir H.path = false
  /-- A missing file can be created. -/
  parent : s.fs.look H.path = none → s.fs.isDir (parent H.path) = true

end Handlers

/-- A file as far as the handlers are concerned. -/
structure Content where
  bytes : Bytes
  mtim : Timespec
  deriving DecidableEq

/-- The contents and time of a file. -/
def Content.ofFile (f : File) : Content := ⟨f.bytes, f.mtim⟩

/-- How far a handler has come. -/
inductive Phase where
  /-- No call made. -/
  | start
  /-- The file is open; for a store it was truncated. -/
  | opened
  /-- A fetch knows the length. -/
  | sized (n : Nat)
  /-- A fetch is about to read. -/
  | placed (n : Nat)
  /-- The bytes were read, or written. -/
  | held (d : Bytes)
  /-- The time was taken. -/
  | timed (d : Bytes) (t : Timespec)
  /-- The handler replied. -/
  | done (x : Exchange)

/-- The next call of a handler, as a step on the file. -/
def Job.next (junk : Junk) (now : Timespec) (file : Option Content) :
    Job → Phase → Option (Option Content × Phase)
  | .fetch, .start =>
    match file with
    | none => some (none, .done ⟨-1, [], 0⟩)
    | some f => some (some f, .opened)
  | .store _, .start => some (some ⟨[], now⟩, .opened)
  | .fetch, .opened => file.map fun f => (file, .sized f.bytes.length)
  | .store u, .opened => file.map fun f =>
    (some ⟨overwrite f.bytes 0 u.bytes, if u.bytes = [] then f.mtim else now⟩, .held u.bytes)
  | .fetch, .sized n => some (file, .placed n)
  | .fetch, .placed n => file.map fun f =>
    (file, .held (fill (junk.heap n) (some (f.bytes.take n))))
  | _, .held d => file.map fun f => (file, .timed d f.mtim)
  | _, .timed d t => some (file, .done ⟨0, d, Int64.ofNat t.tv_nsec⟩)
  | _, _ => none

/-- The smaller machine: the file, and the phase of every handler. -/
structure Traffic (ι : Type) where
  /-- The file, if it exists. -/
  file : Option Content
  /-- The phases. -/
  phase : ι → Phase

namespace Traffic

variable {ι : Type}

/-- All handlers before their first call. -/
def start (file : Option Content) : Traffic ι := ⟨file, fun _ => .start⟩

/-- One call of one handler. -/
def step [DecidableEq ι] (H : Handlers ι) (T : Traffic ι) : ι × Timespec → Option (Traffic ι)
  | (i, now) => ((H.job i).next (H.junk i) now T.file (T.phase i)).map fun out =>
    ⟨out.1, Function.update T.phase i out.2⟩

end Traffic

end Afs
