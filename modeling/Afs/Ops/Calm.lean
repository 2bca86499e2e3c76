import Afs.Ops.ServerOps
import Afs.Model.Machine
import Afs.Table.Lookup

/-!
# Runs without failures

A calm state has no failing system calls and no lost messages to come, on either side. There a
system call of a client program has its normal effect, and a remote call is the handler run at the
server. The rules here step a client program through a calm state.
-/

namespace Afs

open Posix Interaction

/-- The client's disk. -/
abbrev St.disk (s : St) : Fs := s.client.proc.fs

/-- The state with another client disk. -/
def St.withDisk (s : St) (t : Fs) : St :=
  { s with client := { s.client with proc := { s.client.proc with fs := t } } }

/-- The state with another error number at the client. -/
def St.withErrno (s : St) (e : Int) : St :=
  { s with client := { s.client with proc := { s.client.proc with errno := e } } }

/-- The state with another table. -/
def St.withTable (s : St) (ht : HashTable) : St := { s with client := { s.client with ht := ht } }

/-- The state after a remote call that succeeded: the server moved on. -/
def St.withServer (s : St) (server : Proc) : St := { s with server := server }

/-- The state with the retry counters at their initial values. -/
def St.reset (s : St) : St := { s with client := s.client.resetRetries }

/-- Nothing fails from here on. -/
structure Calm (s : St) : Prop where
  /-- No faults of the client's system calls. -/
  client : s.client.proc.faults = []
  /-- No faults at the server. -/
  server : s.server.faults = []
  /-- No message is lost. -/
  net : s.net = []

variable {env : Env} {s : St} {α : Type} {Q : α → St → Prop}

/-- A system call that succeeds. -/
theorem Env.exec_sys {c : Sys} {r : c.Res} {t : Fs} (hf : s.client.proc.faults = [])
    (h : c.perform none s.disk = .ok (r, t)) : env.exec (.sys c) s = (r, s.withDisk t) := by
  simp only [Env.exec, Sys.exec_ok hf h]
  rfl

/-- A system call that fails for a reason of its own. -/
theorem Env.exec_sys_error {c : Sys} {e : Int} (hf : s.client.proc.faults = [])
    (h : c.perform none s.disk = .error e) :
    env.exec (.sys c) s = (c.failed, s.withErrno e) := by
  simp only [Env.exec, Sys.exec_error hf h]
  rfl

/-- A program continues after a system call that succeeds. -/
theorem Env.yields_sys {c : Sys} {f : c.Res → Prog clientSig α} {r : c.Res} {t : Fs}
    (hf : s.client.proc.faults = []) (h : c.perform none s.disk = .ok (r, t))
    (hk : Prog.Yields env.exec (f r) (s.withDisk t) Q) :
    Prog.Yields env.exec (Client.sys c >>= f) s Q :=
  Prog.Yields.call (Env.exec_sys hf h) hk

/-- A program continues after a system call that fails for a reason of its own. -/
theorem Env.yields_sys_error {c : Sys} {f : c.Res → Prog clientSig α} {e : Int}
    (hf : s.client.proc.faults = []) (h : c.perform none s.disk = .error e)
    (hk : Prog.Yields env.exec (f c.failed) (s.withErrno e) Q) :
    Prog.Yields env.exec (Client.sys c >>= f) s Q :=
  Prog.Yields.call (Env.exec_sys_error hf h) hk

/-- Clearing an empty list of faults changes nothing. -/
theorem Proc.clear_faults {p : Proc} (h : p.faults = []) : { p with faults := [] } = p := by
  cases p
  simp only at h
  subst h
  rfl

/-- An attempt in a calm state is a run of the handler. -/
theorem Env.attempt_of_yields {r : Request} {P : Response r.Reply → Proc → Prop} (hc : Calm s)
    (h : Prog.Yields ProcCmd.exec (Server.handle env.junk env.root_path r) s.server P)
    (hp : ∀ m t, P m t → m.ok = true ∧ t.faults = []) :
    ∃ m t, P m t ∧ env.attempt r s = (some m.reply, s.withServer t) := by
  obtain ⟨m, t, hr, hm⟩ := h
  obtain ⟨hok, hf⟩ := hp m t hm
  refine ⟨m, t, hm, ?_⟩
  simp only [Env.attempt, hc.net, Env.serve, Proc.clear_faults hc.server, hr,
    Proc.clear_faults hf, Option.bind_some, hok, if_true]
  simp only [St.withServer, ← hc.net]

/-- A remote call without retries. -/
theorem Env.yields_rpc {r : Request} {P : Response r.Reply → Proc → Prop}
    {f : Option r.Reply → Prog clientSig α} (hc : Calm s)
    (h : Prog.Yields ProcCmd.exec (Server.handle env.junk env.root_path r) s.server P)
    (hp : ∀ m t, P m t → m.ok = true ∧ t.faults = [])
    (hk : ∀ m t, P m t → Prog.Yields env.exec (f (some m.reply)) (s.withServer t) Q) :
    Prog.Yields env.exec (Client.rpc r >>= f) s Q := by
  obtain ⟨m, t, hm, ha⟩ := Env.attempt_of_yields hc h hp
  exact Prog.Yields.call ha (hk m t hm)

/-- A remote call in its retry loop succeeds at the first attempt and resets the counters. -/
theorem Env.exec_retried {r : Request} {P : Response r.Reply → Proc → Prop} (hc : Calm s)
    (h : Prog.Yields ProcCmd.exec (Server.handle env.junk env.root_path r) s.server P)
    (hp : ∀ m t, P m t → m.ok = true ∧ t.faults = []) :
    ∃ m t, P m t ∧ env.exec (.retried r) s = (some m.reply, (s.withServer t).reset) := by
  obtain ⟨m, t, hm, ha⟩ := Env.attempt_of_yields hc h hp
  refine ⟨m, t, hm, ?_⟩
  simp only [Env.exec, Env.retryLoop, ha]
  rfl

/-- A program continues after a remote call in its retry loop. -/
theorem Env.yields_retried {r : Request} {P : Response r.Reply → Proc → Prop}
    {f : Option r.Reply → Prog clientSig α} (hc : Calm s)
    (h : Prog.Yields ProcCmd.exec (Server.handle env.junk env.root_path r) s.server P)
    (hp : ∀ m t, P m t → m.ok = true ∧ t.faults = [])
    (hk : ∀ m t, P m t → Prog.Yields env.exec (f (some m.reply)) (s.withServer t).reset Q) :
    Prog.Yields env.exec (Client.retried r >>= f) s Q := by
  obtain ⟨m, t, hm, he⟩ := Env.exec_retried hc h hp
  exact Prog.Yields.call he (hk m t hm)

/-- What a client program did besides its changes to the table and to the server: at most the
listed names of the disk changed, and the state is still calm. -/
structure Effect (s t : St) (ps : List Path) : Prop where
  /-- The disk outside the listed names. -/
  disk : s.disk.Only t.disk ps
  /-- Still no failures to come. -/
  calm : Calm t
  /-- No request was left in the network. -/
  inflight : t.inflight = s.inflight

theorem Effect.refl (hc : Calm s) (ps : List Path) : Effect s s ps :=
  ⟨Fs.Only.refl _ _, hc, rfl⟩

theorem Effect.trans {t u : St} {ps qs : List Path} (h : Effect s t ps) (k : Effect t u qs) :
    Effect s u (ps ++ qs) :=
  ⟨h.disk.trans k.disk, k.calm, k.inflight.trans h.inflight⟩

theorem Effect.mono {t : St} {ps qs : List Path} (h : Effect s t ps) (hs : ps ⊆ qs) :
    Effect s t qs := ⟨h.disk.mono hs, h.calm, h.inflight⟩

theorem Calm.withDisk (hc : Calm s) (t : Fs) : Calm (s.withDisk t) := ⟨hc.client, hc.server, hc.net⟩

/-- A system call's change of the disk, as an effect. -/
theorem Effect.disk_step (hc : Calm s) {t : Fs} {ps : List Path} (h : s.disk.Only t ps) :
    Effect s (s.withDisk t) ps := ⟨h, hc.withDisk t, rfl⟩

theorem Calm.withErrno (hc : Calm s) (e : Int) : Calm (s.withErrno e) :=
  ⟨hc.client, hc.server, hc.net⟩

theorem Calm.withTable (hc : Calm s) (ht : HashTable) : Calm (s.withTable ht) :=
  ⟨hc.client, hc.server, hc.net⟩

theorem Calm.withServer (hc : Calm s) {p : Proc} (hp : p.faults = []) : Calm (s.withServer p) :=
  ⟨hc.client, hp, hc.net⟩

theorem Calm.reset (hc : Calm s) : Calm s.reset := ⟨hc.client, hc.server, hc.net⟩

/-- A client whose own calls do not fail changed at most the listed names of its disk, and nothing
besides its process. -/
structure LocalEffect (s t : St) (ps : List Path) : Prop where
  /-- The disk outside the listed names. -/
  disk : s.disk.Only t.disk ps
  /-- Still no faults of the client's calls. -/
  faults : t.client.proc.faults = []
  /-- The table, the retry counters, the server and the network stay. -/
  rest : t = { s with client := { s.client with proc := t.client.proc } }

namespace LocalEffect

variable {t u : St} {ps qs : List Path}

theorem disk_step (hf : s.client.proc.faults = []) {t : Fs} (h : s.disk.Only t ps) :
    LocalEffect s (s.withDisk t) ps := ⟨h, hf, rfl⟩

theorem errno_step (hf : s.client.proc.faults = []) (e : Int) : LocalEffect s (s.withErrno e) ps :=
  ⟨Fs.Only.refl _ _, hf, rfl⟩

theorem trans (h : LocalEffect s t ps) (k : LocalEffect t u qs) : LocalEffect s u (ps ++ qs) := by
  refine ⟨h.disk.trans k.disk, k.faults, ?_⟩
  have hk := k.rest
  rw [h.rest] at hk
  exact hk

theorem mono (h : LocalEffect s t ps) (hs : ps ⊆ qs) : LocalEffect s t qs :=
  ⟨h.disk.mono hs, h.faults, h.rest⟩

theorem table (h : LocalEffect s t ps) : t.client.ht = s.client.ht := by rw [h.rest]

theorem retries (h : LocalEffect s t ps) : t.client.retries = s.client.retries := by rw [h.rest]

theorem server (h : LocalEffect s t ps) : t.server = s.server := by rw [h.rest]

theorem net (h : LocalEffect s t ps) : t.net = s.net := by rw [h.rest]

theorem inflight (h : LocalEffect s t ps) : t.inflight = s.inflight := by rw [h.rest]

theorem effect (h : LocalEffect s t ps) (hc : Calm s) : Effect s t ps :=
  ⟨h.disk, ⟨h.faults, h.server ▸ hc.server, h.net ▸ hc.net⟩, h.inflight⟩

end LocalEffect

end Afs
