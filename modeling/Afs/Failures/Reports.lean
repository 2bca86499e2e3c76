import Afs.Core.Faults
import Afs.Ops.Depth
import Afs.Ops.Opening
import Afs.Ops.Script

/-!
# What the operations on names report

Six operations ask the server to do one system call on a name. The handlers carry a failure of this
call in three ways: a field of an OK reply, a status that is not OK, an element of a stream. The
client looks at the field of `CREATE` only and takes the status of the others, and without an OK status
the reply is still the default one.
-/

namespace Afs

open Posix Interaction

/-- The request of an operation that names a file or directory to the server. -/
def Op.nameRequest (path : Path) : Op → Option Request
  | .create => some (.create path)
  | .unlink => some (.unlink path)
  | .chmod mode => some (.chmod path mode)
  | .mkdir mode => some (.mkdir path mode)
  | .rmdir => some (.rmdir path)
  | .readdir => some (.ls path)
  | .openF | .read .. | .write .. | .release _ | .fsync _ | .getattr | .truncate _ | .chown ..
  | .utimens .. => none

/-- The first system call of every handler. -/
def Request.call (root_path : Path) : Request → Sys
  | .create path => .openF (getServerPath path root_path) { creat := true } S_IRWXUG
  | .store r => .openF (getServerPath r.path root_path) { creat := true, trunc := true } S_IRWXUG
  | .getattr path => .lstat (getServerPath path root_path)
  | .unlink path => .unlink (getServerPath path root_path)
  | .chmod path mode => .chmod (getServerPath path root_path) mode.toNat
  | .mkdir path mode => .mkdir (getServerPath path root_path) mode.toNat
  | .rmdir path => .rmdir (getServerPath path root_path)
  | .fetch path => .openF (getServerPath path root_path) {} 0
  | .ls path => .readdir (getServerPath path root_path)

/-- The error number that the libraries leave behind when the client sees a failure. -/
def Delivery.errno : Delivery → Option Int
  | .done _ => none
  | .replyLost _ e | .late e | .lost e => some e

/-- How the handler runs in the next attempt, if its answer arrives. -/
def Env.answering (env : Env) (s : St) : Option Handling :=
  match s.net with
  | [] => some { junk := env.junk }
  | .done h :: _ => some h
  | _ => none

/-- The error number that the next attempt leaves behind if its answer does not arrive. -/
def St.lostErrno (s : St) : Option Int := s.net.head?.bind Delivery.errno

namespace Env

variable {env : Env} {s : St} {r : Request}

theorem attempt_answering {x : Handling} (h : env.answering s = some x) :
    env.attempt r s = ((env.serve r x s.server).1.bind fun m => if m.ok then some m.reply else none,
      { s with server := (env.serve r x s.server).2, net := s.net.tail }) := by
  unfold answering at h
  unfold attempt
  split at h
  · next hn =>
    obtain rfl := Option.some.inj h
    simp only [hn]
    rfl
  · next hn =>
    obtain rfl := Option.some.inj h
    simp only [hn]
    rfl
  · cases h

theorem attempt_silent (h : env.answering s = none) :
    ∃ e, s.lostErrno = some e ∧ (env.attempt r s).1 = none ∧
      (env.attempt r s).2.client.proc.errno = e := by
  unfold answering at h
  unfold attempt St.lostErrno
  cases hn : s.net with
  | nil =>
      rw [hn] at h
      cases h
  | cons d net =>
      rw [hn] at h
      cases d with
      | done x => cases h
      | replyLost x e | late e | lost e => exact ⟨e, rfl, rfl, rfl⟩

theorem answering_of_lostErrno {e : Int} (h : s.lostErrno = some e) : env.answering s = none := by
  unfold St.lostErrno at h
  unfold answering
  cases hn : s.net with
  | nil =>
      rw [hn] at h
      cases h
  | cons d net =>
      rw [hn] at h
      cases d with
      | done x => cases h
      | replyLost x e | late e | lost e => rfl

end Env

/-- A request that is answered with an OK status. -/
theorem Env.exec_rpc_answered {env : Env} {s : St} {r : Request} {y : Handling}
    {a : Response r.Reply} {u : Proc} (h : env.answering s = some y)
    (ha : (Server.handle y.junk env.root_path r).run ProcCmd.exec { s.server with faults := y.faults } =
      (some a, u)) (hok : a.ok = true) :
    env.exec (.rpc r) s = (some a.reply, (env.attempt r s).2) := by
  refine Prod.ext ?_ rfl
  change (env.attempt r s).1 = _
  rw [Env.attempt_answering h]
  simp only [Env.serve, ha, Option.bind_some, hok, if_true]

/-! What the handlers answer. -/

namespace Server

/-- The handler of `LS` always answers with an OK status. -/
theorem afsLs_ok (junk : Junk) (root_path p : Path) (v : Proc) :
    ∃ a u, (afsLs junk root_path p).run ProcCmd.exec v = (some a, u) ∧ a.ok = true := by
  unfold afsLs
  rw [Prog.run_call_bind]
  split <;> exact ⟨_, _, rfl, rfl⟩

/-- The handler of `CREATE` answers a failing open with its error number. -/
theorem afsCreate_ack (junk : Junk) (root_path p : Path) {v : Proc}
    (hreal : ∀ f ∈ v.faults, f.Real) :
    ∃ a u, (afsCreate junk root_path p).run ProcCmd.exec v = (some a, u) ∧ a.ok = true ∧
      (¬ (Request.call root_path (.create p)).Fails v → a.reply.ack = 0) ∧
      ((Request.call root_path (.create p)).Fails v → 0 < a.reply.ack.toInt) := by
  unfold afsCreate Request.call
  rw [Prog.run_call_bind]
  rcases Sys.openF_cases (getServerPath p root_path) { creat := true } S_IRWXUG hreal with
    ⟨-, hfine⟩ | ⟨hfail, hpos, hlt⟩
  · have hfd : ¬ ((Sys.openF (getServerPath p root_path) { creat := true } S_IRWXUG).exec v).1 =
      (-1 : Int) := hfine
    simp only [ProcCmd.exec, hfd, if_false]
    exact ⟨_, _, rfl, rfl, fun _ => rfl, fun h => absurd h hfine⟩
  · have hfd : ((Sys.openF (getServerPath p root_path) { creat := true } S_IRWXUG).exec v).1 =
      (-1 : Int) := hfail
    simp only [ProcCmd.exec, hfd, if_true]
    refine ⟨_, _, rfl, rfl, fun h => absurd hfail h, fun _ => ?_⟩
    change 0 < (Int32.ofInt ((Sys.openF _ _ _).exec v).2.errno).toInt
    rw [Int32.toInt_ofInt_of_le (by omega) (by omega)]
    exact hpos

end Server

/-! What the client returns. -/

section Reports

variable (env : Env) (junk : Junk) (path cache_path : Path) (s : St)

/-- The operation gets as far as its request: the one that makes a file of its own first is the one
that can fail before. -/
def St.Sends (op : Op) : Prop :=
  op = .create → ¬ (Sys.openF (getLocalPath path cache_path) { creat := true, append := true }
    S_IRWXUG).Fails s.client.proc

/-- The request is delivered, its answer arrives, and the system call of the handler succeeds. -/
def St.Done (op : Op) (r : Request) : Prop :=
  s.Sends path cache_path op ∧
    ∃ h ∈ env.answering s, ¬ (r.call env.root_path).Fails { s.server with faults := h.faults }

/-- The operation returns zero if it is done, and a negative number otherwise. -/
structure Op.Reports (op : Op) (r : Request) (fh : Int) : Prop where
  done : s.Done env path cache_path op r →
    ∃ x t, (op.prog junk path cache_path fh).run env.exec s = (some x, t) ∧ x.ret = 0
  failed : ¬ s.Done env path cache_path op r →
    ∃ x t, (op.prog junk path cache_path fh).run env.exec s = (some x, t) ∧ x.ret < 0

/-- When an operation on a name reports what happened: it is done, or it is `CREATE` that has no file
of its own, or it is one of the two that look at the error number, and that is positive. -/
def Op.ReportsWhen (op : Op) (r : Request) : Prop :=
  s.Done env path cache_path op r ∨ ¬ s.Sends path cache_path op ∨
    (op = .create ∨ op = .readdir) ∧ ∃ e ∈ s.lostErrno, 0 < e

variable {env junk path cache_path s} {op : Op} {r : Request} {fh : Int} {x : Result} {t : St}

theorem Op.reports_iff_of_run
    (hrun : (op.prog junk path cache_path fh).run env.exec s = (some x, t)) :
    op.Reports env junk path cache_path s r fh ↔
      (s.Done env path cache_path op r → x.ret = 0) ∧
        (¬ s.Done env path cache_path op r → x.ret < 0) := by
  constructor
  · rintro ⟨hdone, hfailed⟩
    constructor
    · intro h
      obtain ⟨x', t', hrun', h0⟩ := hdone h
      obtain ⟨hx, -⟩ := Prod.mk.inj (hrun'.symm.trans hrun)
      exact Option.some.inj hx ▸ h0
    · intro h
      obtain ⟨x', t', hrun', hneg⟩ := hfailed h
      obtain ⟨hx, -⟩ := Prod.mk.inj (hrun'.symm.trans hrun)
      exact Option.some.inj hx ▸ hneg
  · rintro ⟨hdone, hfailed⟩
    exact ⟨fun h => ⟨x, t, hrun, hdone h⟩, fun h => ⟨x, t, hrun, hfailed h⟩⟩

/-- Returning zero is right exactly when the operation is done. -/
theorem Op.reports_iff_done
    (hrun : (op.prog junk path cache_path fh).run env.exec s = (some x, t)) (h0 : x.ret = 0) :
    op.Reports env junk path cache_path s r fh ↔ s.Done env path cache_path op r := by
  rw [Op.reports_iff_of_run hrun]
  constructor
  · rintro ⟨-, hfailed⟩
    by_contra hn
    have hneg := hfailed hn
    omega
  · exact fun h => ⟨fun _ => h0, fun hn => absurd h hn⟩

/-- Without an answer a negative error number is what decides. -/
theorem Op.reports_iff_errno {e : Int} (hlost : s.lostErrno = some e)
    (hrun : (op.prog junk path cache_path fh).run env.exec s = (some x, t)) (he : x.ret = -e) :
    op.Reports env junk path cache_path s r fh ↔ 0 < e := by
  have hn : ¬ s.Done env path cache_path op r := by
    rintro ⟨-, h, hh, -⟩
    rw [Env.answering_of_lostErrno hlost] at hh
    cases hh
  rw [Op.reports_iff_of_run hrun]
  constructor
  · rintro ⟨-, hfailed⟩
    have hneg := hfailed hn
    omega
  · intro hpos
    exact ⟨fun h => absurd h hn, fun _ => by omega⟩

theorem errorOf_eq (status : Option ErrorRes) : Client.errorOf status = 0 := by
  cases status <;> rfl

/-- Four operations return zero whatever happens. -/
theorem plain_reports_iff (hr : op.nameRequest path = some r) (hc : op ≠ .create)
    (hl : op ≠ .readdir) :
    op.Reports env junk path cache_path s r fh ↔ op.ReportsWhen env path cache_path s r := by
  have hrun : ∃ x t, (op.prog junk path cache_path fh).run env.exec s = (some x, t) ∧ x.ret = 0 := by
    cases op with
    | unlink | chmod mode | mkdir mode | rmdir =>
        refine ⟨_, _, rfl, ?_⟩
        exact errorOf_eq _
    | create => exact absurd rfl hc
    | readdir => exact absurd rfl hl
    | openF | read k size offset | write k buffer offset | release k | fsync k | getattr
    | truncate size | chown uid gid | utimens atime mtime => cases hr
  obtain ⟨x, t, hrun, h0⟩ := hrun
  rw [Op.reports_iff_done hrun h0]
  refine ⟨Or.inl, ?_⟩
  rintro (h | h | ⟨rfl | rfl, -⟩)
  · exact h
  · exact absurd (fun he => absurd he hc) h
  · exact absurd rfl hc
  · exact absurd rfl hl

/-- When an answer arrives, only being done helps. -/
private theorem reportsWhen_iff_done {y : Handling} (h : env.answering s = some y)
    (hsends : s.Sends path cache_path op) :
    op.ReportsWhen env path cache_path s r ↔ s.Done env path cache_path op r := by
  refine ⟨?_, Or.inl⟩
  rintro (hd | hn | ⟨-, e, hlost, -⟩)
  · exact hd
  · exact absurd hsends hn
  · rw [Env.answering_of_lostErrno hlost] at h
    cases h

/-- When none arrives, a positive error number is what helps. -/
private theorem reportsWhen_iff_errno {e : Int} (hlost : s.lostErrno = some e)
    (hsends : s.Sends path cache_path op) (hop : op = .create ∨ op = .readdir) :
    op.ReportsWhen env path cache_path s r ↔ 0 < e := by
  constructor
  · rintro (⟨-, y, hy, -⟩ | hn | ⟨-, e', hlost', hpos⟩)
    · rw [Env.answering_of_lostErrno hlost] at hy
      cases hy
    · exact absurd hsends hn
    · obtain rfl := Option.some.inj (hlost.symm.trans hlost')
      exact hpos
  · exact fun hpos => Or.inr (Or.inr ⟨hop, e, hlost, hpos⟩)

/-- Reading a directory looks at the status alone. -/
theorem readdir_reports_iff :
    Op.Reports env junk path cache_path s .readdir (.ls path) fh ↔
      Op.ReportsWhen env path cache_path s .readdir (.ls path) := by
  have hsends : s.Sends path cache_path .readdir := fun h => by cases h
  cases h : env.answering s with
  | some y =>
      obtain ⟨a, u, ha, hok⟩ := Server.afsLs_ok y.junk env.root_path path { s.server with faults := y.faults }
      have hattempt := Env.exec_rpc_answered (r := .ls path) h ha hok
      have hyields : Prog.Yields env.exec (Op.prog junk path cache_path fh .readdir) s
          fun x _ => x.ret = 0 :=
        Prog.Yields.bind (Prog.Yields.call hattempt (Prog.Yields.ret (Q := fun r _ => r.1 = 0) rfl))
          fun r t h0 => Prog.Yields.ret h0
      obtain ⟨x, t, hrun, h0⟩ := hyields
      rw [Op.reports_iff_done hrun h0, reportsWhen_iff_done h hsends]
  | none =>
      obtain ⟨e, hlost, hnone, herr⟩ := Env.attempt_silent (r := .ls path) h
      have hattempt : env.exec (.rpc (.ls path)) s = (none, (env.attempt (.ls path) s).2) :=
        Prod.ext hnone rfl
      have hyields : Prog.Yields env.exec (Op.prog junk path cache_path fh .readdir) s
          fun x _ => x.ret = -e := by
        refine Prog.Yields.bind (P := fun r _ => r.1 = -e) ?_ fun r t h0 => Prog.Yields.ret h0
        refine Prog.Yields.call hattempt ?_
        exact Prog.Yields.call (r := e) (t := (env.attempt (.ls path) s).2) (Prod.ext herr rfl)
          (Prog.Yields.ret rfl)
      obtain ⟨x, t, hrun, he⟩ := hyields
      rw [Op.reports_iff_errno hlost hrun he, reportsWhen_iff_errno hlost hsends (Or.inr rfl)]

/-- What is left of a creation once it has its own file. -/
def Client.requestCreate (path cache_path : Path) (fd : Int) : Prog clientSig (Int × Int) := do
  let status ← Client.rpc (.create path)
  match status with
  | some reply =>
    Client.record path cache_path reply.time
    return (reply.ack.toInt, fd)
  | none =>
    let e ← Client.errno
    return (-e, fd)

theorem Client.afsCreate_eq (path cache_path : Path) (fh : Int) :
    Client.afsCreate path cache_path fh = (do
      let fd : Int ← Client.sys (.openF (getLocalPath path cache_path)
        { creat := true, append := true } S_IRWXUG)
      if fd = -1 then
        let e ← Client.errno
        return (-e, fh)
      Client.requestCreate path cache_path fd) := rfl

/-- The answer of the server becomes the return value. -/
theorem requestCreate_answered {fd : Int} {y : Handling} (hf : s.client.proc.faults = [])
    (hl : FlatDir cache_path s.disk) (h : env.answering s = some y) (hreal : ∀ f ∈ y.faults, f.Real) :
    Prog.Yields env.exec (Client.requestCreate path cache_path fd) s fun r _ =>
      (¬ (Request.call env.root_path (.create path)).Fails { s.server with faults := y.faults } →
        r.1 = 0) ∧
      ((Request.call env.root_path (.create path)).Fails { s.server with faults := y.faults } →
        0 < r.1) := by
  obtain ⟨a, u, ha, hok, hzero, hpos⟩ := Server.afsCreate_ack y.junk env.root_path path
    (v := { s.server with faults := y.faults }) hreal
  have hattempt := Env.exec_rpc_answered (r := .create path) h ha hok
  have hw := (Env.attempt_client env (.create path) s).1
  have hflat : FlatDir cache_path (env.attempt (.create path) s).2.disk := by
    unfold St.disk
    rw [hw.fs]
    exact hl
  refine Prog.Yields.call hattempt ?_
  refine Prog.Yields.bind (record_local (hw.faults.trans hf) hflat a.reply.time) ?_
  rintro _ t -
  refine Prog.Yields.ret ⟨fun hfine => ?_, hpos⟩
  rw [hzero hfine]
  rfl

/-- Without an answer the error number does. -/
private theorem requestCreate_silent {fd e : Int} (h : env.answering s = none)
    (hlost : s.lostErrno = some e) :
    Prog.Yields env.exec (Client.requestCreate path cache_path fd) s fun r _ => r.1 = -e := by
  obtain ⟨e', hlost', hnone, herr⟩ := Env.attempt_silent (r := .create path) h
  obtain rfl := Option.some.inj (hlost.symm.trans hlost')
  have hattempt : env.exec (.rpc (.create path)) s = (none, (env.attempt (.create path) s).2) :=
    Prod.ext hnone rfl
  refine Prog.Yields.call hattempt ?_
  exact Prog.Yields.call (r := e) (t := (env.attempt (.create path) s).2) (Prod.ext herr rfl)
    (Prog.Yields.ret rfl)

/-- Creating a file passes the error number of the server on as it is. -/
theorem create_reports_iff (hf : s.client.proc.faults = []) (hl : FlatDir cache_path s.disk)
    (hreal : ∀ y ∈ env.answering s, ∀ f ∈ y.faults, f.Real) :
    Op.Reports env junk path cache_path s .create (.create path) fh ↔
      Op.ReportsWhen env path cache_path s .create (.create path) := by
  let c : Sys := .openF (getLocalPath path cache_path) { creat := true, append := true } S_IRWXUG
  let u : St := { s with client := { s.client with proc := (c.exec s.client.proc).2 } }
  have hopen : env.exec (.sys c) s = ((c.exec s.client.proc).1, u) := rfl
  rcases Sys.openF_cases (getLocalPath path cache_path) { creat := true, append := true } S_IRWXUG
    (v := s.client.proc) (by simp [hf]) with ⟨h0, hfine⟩ | ⟨hfail, hpos, -⟩
  · have hsends : s.Sends path cache_path .create := fun _ => hfine
    have hfd : (c.exec s.client.proc).1 ≠ (-1 : Int) := hfine
    have hu : u.client.proc.faults = [] := Sys.exec_faults hf c
    have hflat : FlatDir cache_path u.disk := hl.congr (Sys.exec_isDir (c := c) trivial)
    have hprog : ∀ {Q : Result → St → Prop}, Prog.Yields env.exec
        (Client.requestCreate path cache_path (c.exec s.client.proc).1) u
          (fun r t => Q { ret := r.1, fh := r.2 } t) →
        Prog.Yields env.exec (Op.prog junk path cache_path fh .create) s Q := by
      intro Q hq
      refine Prog.Yields.bind (P := fun r t => Q { ret := r.1, fh := r.2 } t) ?_
        fun r t hr => Prog.Yields.ret hr
      rw [Client.afsCreate_eq]
      refine Prog.Yields.call hopen ?_
      rw [if_neg hfd]
      exact hq
    cases h : env.answering s with
    | some y =>
        have hyields := hprog (Q := fun x _ =>
          (¬ (Request.call env.root_path (.create path)).Fails { s.server with faults := y.faults } →
            x.ret = 0) ∧
          ((Request.call env.root_path (.create path)).Fails { s.server with faults := y.faults } →
            0 < x.ret)) (requestCreate_answered (s := u) hu hflat h (hreal y h))
        obtain ⟨x, t, hrun, hzero, hpos⟩ := hyields
        rw [reportsWhen_iff_done h hsends]
        by_cases hserved :
          (Request.call env.root_path (.create path)).Fails { s.server with faults := y.faults }
        · have hn : ¬ s.Done env path cache_path .create (.create path) := by
            rintro ⟨-, y', hy', hfine'⟩
            obtain rfl := Option.some.inj (h.symm.trans hy')
            exact hfine' hserved
          rw [Op.reports_iff_of_run hrun]
          have hgt := hpos hserved
          refine iff_of_false ?_ hn
          rintro ⟨-, hneg⟩
          have hlt := hneg hn
          omega
        · exact Op.reports_iff_done hrun (hzero hserved)
    | none =>
        obtain ⟨e, hlost, -⟩ := Env.attempt_silent (r := .create path) h
        have hyields := hprog (Q := fun x _ => x.ret = -e) (requestCreate_silent (s := u) h hlost)
        obtain ⟨x, t, hrun, he⟩ := hyields
        rw [Op.reports_iff_errno hlost hrun he, reportsWhen_iff_errno hlost hsends (Or.inl rfl)]
  · have hsends : ¬ s.Sends path cache_path .create := fun h => h rfl hfail
    have hfd : (c.exec s.client.proc).1 = (-1 : Int) := hfail
    have hyields : Prog.Yields env.exec (Op.prog junk path cache_path fh .create) s
        fun x _ => x.ret < 0 := by
      refine Prog.Yields.bind (P := fun r _ => r.1 < 0) ?_ fun r t hr => Prog.Yields.ret hr
      rw [Client.afsCreate_eq]
      refine Prog.Yields.call hopen ?_
      rw [if_pos hfd]
      refine Prog.Yields.call (r := (c.exec s.client.proc).2.errno) (t := u) rfl (Prog.Yields.ret ?_)
      exact Int.neg_neg_of_pos hpos
    obtain ⟨x, t, hrun, hneg⟩ := hyields
    rw [Op.reports_iff_of_run hrun]
    exact iff_of_true ⟨fun h => absurd h.1 hsends, fun _ => hneg⟩ (Or.inr (Or.inl hsends))

/-- The six operations on names report what happened exactly then. -/
theorem Op.reports_iff (hr : op.nameRequest path = some r) (hf : s.client.proc.faults = [])
    (hl : FlatDir cache_path s.disk) (hreal : ∀ y ∈ env.answering s, ∀ f ∈ y.faults, f.Real) :
    op.Reports env junk path cache_path s r fh ↔ op.ReportsWhen env path cache_path s r := by
  cases op with
  | create =>
      obtain rfl := Option.some.inj hr
      exact create_reports_iff hf hl hreal
  | readdir =>
      obtain rfl := Option.some.inj hr
      exact readdir_reports_iff
  | unlink | chmod mode | mkdir mode | rmdir =>
      exact plain_reports_iff hr (fun h => by cases h) fun h => by cases h
  | openF | read k size offset | write k buffer offset | release k | fsync k | getattr
  | truncate size | chown uid gid | utimens atime mtime => cases hr

end Reports

namespace World

variable {ι : Type} [DecidableEq ι] {P : Params ι} {w : World ι}

/-- What is claimed of the six operations, in every state that the mounted file systems lead to. -/
theorem name_operations_report_iff (hw : w.Mounted P) {op : Op} {p : Path} {r : Request}
    (hr : op.nameRequest p = some r) (i : ι) (now : Timespec) (net : List Delivery) (junk : Junk)
    (hreal : ∀ y ∈ Env.answering ⟨P.root_path, junk⟩ (w.state i now [] net), ∀ f ∈ y.faults, f.Real)
    (fh : Int) :
    op.Reports ⟨P.root_path, junk⟩ junk p (P.cache_path i) (w.state i now [] net) r fh ↔
      op.ReportsWhen ⟨P.root_path, junk⟩ p (P.cache_path i) (w.state i now [] net) r :=
  Op.reports_iff hr rfl (hw.cacheDir i).toFlatDir hreal

/-- An unlink that the server does, and a listing that does not reach it. -/
theorem name_operations_report_sample :
    Op.Reports ⟨cstr "/srv", .zero⟩ .zero sampleFile (cstr "/cache")
        (sampleBoot.state false (sampleTime 1 0) [] []) .unlink (.unlink sampleFile) 0 ∧
      Op.Reports ⟨cstr "/srv", .zero⟩ .zero sampleFile (cstr "/cache")
        (sampleBoot.state false (sampleTime 1 0) [] [.lost 110]) .readdir (.ls sampleFile) 0 := by
  have hboot : sampleBoot.Mounted sample := ⟨_, [], Transition.Run.nil⟩
  constructor
  · refine (name_operations_report_iff hboot rfl false (sampleTime 1 0) [] .zero ?_ 0).mpr ?_
    · intro y hy f hf
      obtain rfl := Option.some.inj hy
      cases hf
    · have hsends : (sampleBoot.state false (sampleTime 1 0) [] []).Sends sampleFile
          (cstr "/cache") .unlink := fun h => by cases h
      refine Or.inl ⟨hsends, _, rfl, ?_⟩
      intro hfails
      exact absurd (show (0 : Int) = -1 from hfails) (by decide)
  · refine (name_operations_report_iff hboot rfl false (sampleTime 1 0) [.lost 110] .zero ?_ 0).mpr ?_
    · intro y hy
      cases hy
    · exact Or.inr (Or.inr ⟨Or.inr rfl, 110, rfl, by decide⟩)

/-- The unlink of a file that the server does not have returns zero, and so does not report. -/
theorem unlink_hides_error :
    ¬ Op.Reports ⟨cstr "/srv", .zero⟩ .zero sampleFile (cstr "/cache")
      ((boot sample [] : World (Bool)).state false (sampleTime 1 0) [] []) .unlink
        (.unlink sampleFile) 0 := by
  intro h
  have hn : ¬ St.Done ⟨cstr "/srv", .zero⟩ sampleFile (cstr "/cache")
      ((boot sample [] : World (Bool)).state false (sampleTime 1 0) [] []) .unlink
        (.unlink sampleFile) := by
    rintro ⟨-, y, hy, hfine⟩
    obtain rfl := Option.some.inj hy
    exact hfine rfl
  obtain ⟨x, t, hrun, hneg⟩ := h.failed hn
  have hret : ((Op.prog .zero sampleFile (cstr "/cache") 0 .unlink).run
      (Env.exec ⟨cstr "/srv", .zero⟩) ((boot sample [] : World (Bool)).state false
        (sampleTime 1 0) [] [])).1.map (·.ret) = some 0 := by
    decide +kernel
  rw [hrun, Option.map_some] at hret
  have h0 := Option.some.inj hret
  omega

end World

end Afs
