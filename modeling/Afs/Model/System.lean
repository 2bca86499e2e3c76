import Afs.Model.Machine

/-!
# The whole system

Any number of client processes, the server they share, and the network between them. An event is
one complete operation that the kernel asks of a client, the start of a client process, or the late
execution of a request that a client gave up. Sessions record, for every open file handle, the
cached bytes right after the open and the writes since then; no program reads this record.
-/

namespace Afs

open Posix Interaction

/-- The operations that the mounted file system passes on; `k` numbers the open sessions of the
client on the path. -/
inductive Op where
  | create
  | openF
  | read (k size offset : Nat)
  | write (k : Nat) (buffer : Bytes) (offset : Nat)
  | release (k : Nat)
  | fsync (k : Nat)
  | getattr
  | truncate (size : Int)
  | chown (uid gid : Nat)
  | chmod (mode : UInt32)
  | utimens (atime mtime : Timespec)
  | unlink
  | mkdir (mode : UInt32)
  | rmdir
  | readdir
  deriving DecidableEq

/-- What an operation hands back to the kernel. -/
structure Result where
  /-- The return value. -/
  ret : Int
  /-- The file handle left in the structure of the open file. -/
  fh : Int := 0
  /-- The bytes put into the buffer. -/
  data : Bytes := []
  /-- The attributes. -/
  attr : Option Stat := none
  /-- The names given to the filler. -/
  names : List Path := []

/-- What happened in a session. -/
structure Log where
  /-- The cached bytes right after the open. -/
  base : Bytes
  /-- The writes so far, with their offsets. -/
  writes : List (Nat × Bytes)
  deriving DecidableEq

/-- The bytes of a session: what was opened, with the writes applied in order. -/
def Log.bytes (l : Log) : Bytes := overwriteAll l.base l.writes

/-- Whether a session wrote anything. -/
def Log.dirty (l : Log) : Bool := l.writes.any fun w => w.2 ≠ []

/-- A log after one more write. -/
def Log.write (offset : Nat) (buffer : Bytes) (l : Log) : Log :=
  { l with writes := l.writes ++ [(offset, buffer)] }

/-- One open file handle. -/
structure Session extends Log where
  /-- The handle. -/
  fh : Int
  deriving DecidableEq

/-- The session that an operation works in. -/
def Op.session : Op → Option Nat
  | .read k .. | .write k .. | .release k | .fsync k => some k
  | _ => none

/-- The program of an operation, given the file handle of its session. -/
def Op.prog (junk : Junk) (path cache_path : Path) (fh : Int) : Op → Prog clientSig Result
  | .create => do
    let (ret, fh) ← Client.afsCreate path cache_path fh
    return { ret, fh }
  | .openF => do
    let (ret, fh) ← Client.afsOpen junk path cache_path fh
    return { ret, fh }
  | .read _ size offset => do
    let (ret, data) ← Client.afsRead path cache_path size offset
    return { ret, data }
  | .write _ buffer offset => do
    let ret ← Client.afsWrite junk path cache_path buffer offset
    return { ret }
  | .release _ => do
    let ret ← Client.afsRelease junk path cache_path fh
    return { ret }
  | .fsync _ => do
    let ret ← Client.afsFsync fh
    return { ret }
  | .getattr => do
    let (ret, attr) ← Client.afsGetattr path junk.stats
    return { ret, attr := some attr }
  | .truncate size => do
    let ret ← Client.afsTruncate path cache_path size
    return { ret }
  | .chown uid gid => do
    let ret ← Client.afsChown path cache_path uid gid
    return { ret }
  | .chmod mode => do
    let ret ← Client.afsChmod path cache_path mode
    return { ret }
  | .utimens atime mtime => do
    let ret ← Client.afsUtimens path cache_path atime mtime
    return { ret }
  | .unlink => do
    let ret ← Client.afsUnlink path cache_path
    return { ret }
  | .mkdir mode => do
    let ret ← Client.afsMkdir path mode
    return { ret }
  | .rmdir => do
    let ret ← Client.afsRmdir path cache_path
    return { ret }
  | .readdir => do
    let (ret, names) ← Client.afsLs path
    return { ret, names }

/-- The open sessions after an operation that returned `r` and left `cached` in the cache. -/
def Op.sessions (cached : Option Bytes) (r : Result) (l : List Session) : Op → List Session
  | .create | .openF => if r.ret = 0 then l ++ [⟨⟨cached.getD [], []⟩, r.fh⟩] else l
  | .write k buffer offset =>
    if 0 ≤ r.ret then l.modify k fun s => { s with toLog := s.toLog.write offset buffer } else l
  | .release k => l.eraseIdx k
  | _ => l

/-- The arguments of the programs: the directory that the server exports, and the cache directory
of every client. -/
structure Params (ι : Type) where
  /-- `root_path` of the server. -/
  root_path : Path
  /-- `cache_path` of each client. -/
  cache_path : ι → Path

/-- The state of the whole system. -/
structure World (ι : Type) where
  /-- The server. -/
  server : Proc
  /-- Requests that a client gave up and the server may still execute. -/
  inflight : List Request
  /-- The clients. -/
  clients : ι → ClientProc
  /-- The clients whose process runs. -/
  up : ι → Bool
  /-- The open sessions of every client on every path. -/
  sessions : ι → Path → List Session

/-- One complete operation of a client and what its surroundings do meanwhile. -/
structure Call (ι : Type) where
  /-- The client. -/
  client : ι
  /-- The path. -/
  path : Path
  /-- The operation. -/
  op : Op
  /-- The time that the server stamps modifications with. -/
  now : Timespec
  /-- Unset variables of the operation, and of the handlers unless `net` says otherwise. -/
  junk : Junk
  /-- Faults of the client's system calls. -/
  faults : List Fault := []
  /-- What happens to the attempts of remote calls. -/
  net : List Delivery := []

/-- What can happen next. -/
inductive Event (ι : Type) where
  /-- A complete operation. -/
  | call (c : Call ι)
  /-- A client process starts, after an end or a crash of the one before. -/
  | start (i : ι) (now : Timespec) (junk : Junk) (faults : List Fault)
  /-- The server executes a request that was given up; nobody sees the reply. -/
  | late (k : Nat) (now : Timespec) (h : Handling)

namespace World

variable {ι : Type} [DecidableEq ι] (P : Params ι) (w : World ι)

/-- The server's process with its clock set. -/
def serverAt (now : Timespec) : Proc := { w.server with fs := { w.server.fs with clock := now } }

/-- The state in which a client's program runs. -/
def state (i : ι) (now : Timespec) (faults : List Fault) (net : List Delivery) : St where
  client := { w.clients i with proc := { (w.clients i).proc with faults := faults } }
  server := w.serverAt now
  inflight := w.inflight
  net := net

/-- A client's disk. -/
abbrev disk (i : ι) : Fs := (w.clients i).proc.fs

/-- The cached bytes of a file at a client. -/
def cached (i : ι) (p : Path) : Option Bytes :=
  ((w.disk i).look (getLocalPath p (P.cache_path i))).map (·.bytes)

/-- The value that a client's table has for a file. -/
def recorded (i : ι) (p : Path) : Int64 := (w.clients i).ht.get p

/-- The server's file. -/
def served (p : Path) : Option File := w.server.fs.look (getServerPath p P.root_path)

/-- The state left behind by a program of client `i` on `p`; a process that ended has no open
sessions. -/
def finish (i : ι) (p : Path) (next : Result → Option Bytes → List Session → List Session)
    (out : Option Result × St) : World ι :=
  let v : World ι :=
    { w with
      server := out.2.server
      inflight := out.2.inflight
      clients := Function.update w.clients i out.2.client
      up := Function.update w.up i out.1.isSome }
  match out.1 with
  | none => { v with sessions := Function.update w.sessions i fun _ => [] }
  | some r =>
    { v with
      sessions := Function.update w.sessions i
        (Function.update (w.sessions i) p (next r (v.cached P i p) (w.sessions i p))) }

/-- The file handle that an operation is given: the one of its session. -/
def handle (c : Call ι) : Option Int :=
  match c.op.session with
  | none => some 0
  | some k => ((w.sessions c.client c.path)[k]?).map (·.fh)

/-- One operation: what it hands back, unless its process ended, and the state afterwards. The
client's process must be running, and the session that the operation names must be open. -/
def perform (c : Call ι) : Option (Option Result × World ι) :=
  if w.up c.client then
    (w.handle c).map fun fh =>
      let out := (c.op.prog c.junk c.path (P.cache_path c.client) fh).run
        (Env.exec ⟨P.root_path, c.junk⟩) (w.state c.client c.now c.faults c.net)
      (out.1, w.finish P c.client c.path (fun r b l => c.op.sessions b r l) out)
  else none

/-- A client's process as the system starts it: no descriptors are open and no variable is set. -/
def fresh (i : ι) : ClientProc where
  proc := { (w.clients i).proc with fs := { w.disk i with fds := [] } }
  ht := initHt
  retries := 1
  interval := 1000

/-- One event. -/
def step : Event ι → Option (World ι)
  | .call c => (w.perform P c).map (·.2)
  | .start i now junk faults =>
    let v : World ι :=
      { w with
        clients := Function.update w.clients i (w.fresh i)
        sessions := Function.update w.sessions i fun _ => [] }
    let out := (Client.main (P.cache_path i) >>= fun _ => pure { ret := 0 }).run
      (Env.exec ⟨P.root_path, junk⟩) (v.state i now faults [])
    some (v.finish P i [] (fun _ _ l => l) out)
  | .late k now h =>
    match w.inflight[k]? with
    | none => none
    | some r =>
      some { w with
        server := ((Env.mk P.root_path h.junk).serve r h (w.serverAt now)).2
        inflight := w.inflight.eraseIdx k }

end World

end Afs
