import Afs.Model.Client

/-!
# A client process against the server

The state that a client program runs in: its own process and table, its retry counters, the
server's process, and the network. A failed attempt may have been executed by the server with
its reply lost, may be executed later, or never. An attempt runs the whole handler.
-/

namespace Afs

open Posix Interaction

/-- A client process. -/
structure ClientProc where
  /-- The disk with the cache directory, and the descriptors. -/
  proc : Proc
  /-- The timestamp table. -/
  ht : HashTable
  /-- The member `retries`. -/
  retries : Int
  /-- The member `interval`. -/
  interval : Int

/-- How the server's handler runs: the faults of its system calls and its unset variables. -/
structure Handling where
  /-- Faults of the handler's system calls, in order. -/
  faults : List Fault := []
  /-- Unset variables of the handler. -/
  junk : Junk

/-- What happens to one attempt of a remote call. On failure the client's libraries leave some
error number behind. -/
inductive Delivery where
  /-- The handler runs and its answer arrives. -/
  | done (h : Handling)
  /-- The handler runs, but the client sees a failure. -/
  | replyLost (h : Handling) (errno : Int)
  /-- The client sees a failure and the request stays in the network. -/
  | late (errno : Int)
  /-- The client sees a failure and the request is never executed. -/
  | lost (errno : Int)

/-- The state in which a client program runs. -/
structure St where
  /-- The client. -/
  client : ClientProc
  /-- The server. -/
  server : Proc
  /-- Requests that the client gave up and the server may still execute. -/
  inflight : List Request
  /-- What happens to the coming attempts; the last entry is followed by normal deliveries. -/
  net : List Delivery

/-- The directory that the server exports and the contents of unset memory. -/
structure Env where
  /-- `root_path` of the server. -/
  root_path : Path
  /-- Unset variables of handlers whose delivery says nothing about them. -/
  junk : Junk

namespace Env

variable (env : Env)

/-- Run the handler of a request at the server. -/
def serve (r : Request) (h : Handling) (server : Proc) : Option (Response r.Reply) × Proc :=
  let out := (Server.handle h.junk env.root_path r).run ProcCmd.exec
    { server with faults := h.faults }
  (out.1, { out.2 with faults := [] })

/-- One attempt: the message if the status is OK. -/
def attempt (r : Request) (s : St) : Option r.Reply × St :=
  let answer (h : Handling) (net : List Delivery) : Option r.Reply × St :=
    let out := env.serve r h s.server
    (out.1.bind fun m => if m.ok then some m.reply else none,
      { s with server := out.2, net := net })
  let fails (e : Int) : ClientProc :=
    { s.client with proc := { s.client.proc with errno := e } }
  match s.net with
  | [] => answer { junk := env.junk } []
  | .done h :: net => answer h net
  | .replyLost h e :: net => (none, { (answer h net).2 with client := fails e })
  | .late e :: net =>
    (none, { s with client := fails e, inflight := r :: s.inflight, net := net })
  | .lost e :: net => (none, { s with client := fails e, net := net })

end Env

/-- The counters after a success or after giving up. -/
def ClientProc.resetRetries (c : ClientProc) : ClientProc := { c with retries := 1, interval := 1000 }

/-- `retry_req`: whether to try again. The delay is not part of the state. -/
def ClientProc.retryReq (c : ClientProc) (is_ok : Bool) : Bool × ClientProc :=
  if is_ok || c.retries > 5 then (false, c.resetRetries)
  else (true, { c with retries := c.retries + 1 })

namespace Env

variable (env : Env)

/-- The loop `do … while (retry_req(is_ok))`; the first argument bounds the iterations. -/
def retryLoop (r : Request) : Nat → St → Option r.Reply × St
  | 0, s => (none, s)
  | n + 1, s =>
    match env.attempt r s with
    | (some m, t) => (some m, { t with client := t.client.resetRetries })
    | (none, t) =>
      let (again, c) := t.client.retryReq false
      if again then retryLoop r n { t with client := c } else (none, { t with client := c })

/-- The machine of a client program. The counter allows at most `6 - retries` further rounds, so
the bound of the loop is never what ends it. -/
def exec : Machine clientSig St
  | .sys c, s =>
    let out := c.exec s.client.proc
    (out.1, { s with client := { s.client with proc := out.2 } })
  | .errno, s => (s.client.proc.errno, s)
  | .rpc r, s => env.attempt r s
  | .retried r, s => env.retryLoop r ((6 - s.client.retries).toNat + 1) s
  | .get filename, s => (s.client.ht.get filename, s)
  | .put key value, s => ((), { s with client := { s.client with ht := s.client.ht.put key value } })
  | .table, s => (s.client.ht, s)
  | .setTable ht, s => ((), { s with client := { s.client with ht := ht } })

end Env

end Afs
