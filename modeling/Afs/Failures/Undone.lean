import Afs.Core.Shown
import Afs.Failures.Opens
import Afs.Failures.Reports
import Afs.Ops.Writing

/-!
# What an operation leaves behind that the server did not do

`CREATE`, `UNLINK`, `CHMOD` and `RMDIR` change the local copy before they ask the server, and none
of them takes the change back. `CREATE` also records the time of a reply without a look at its error.
-/

namespace Afs

open Posix Interaction

/-- What the names on the client's disk show, and the table, are the same. -/
structure St.SameLocal (s t : St) : Prop where
  names : t.disk.shown = s.disk.shown
  table : t.client.ht = s.client.ht

/-- How the handler runs in the next attempt, if it runs then. -/
def Env.handling (env : Env) (s : St) : Option Handling :=
  match s.net with
  | [] => some { junk := env.junk }
  | .done h :: _ | .replyLost h _ :: _ => some h
  | .late _ :: _ | .lost _ :: _ => none

/-- An answer comes from a handler that ran. -/
theorem Env.handling_of_answering {env : Env} {s : St} {y : Handling} (h : env.answering s = some y) :
    env.handling s = some y := by
  unfold answering at h
  unfold handling
  cases hn : s.net with
  | nil =>
      rw [hn] at h
      exact h
  | cons d net =>
      rw [hn] at h
      cases d with
      | done x => exact h
      | replyLost x e | late e | lost e => cases h

section Undone

variable (env : Env) (junk : Junk) (path cache_path : Path) (s : St)

/-- The request is not delivered, or the system call of the handler fails. -/
def St.Undone (r : Request) : Prop :=
  ∀ h ∈ env.handling s, (r.call env.root_path).Fails { s.server with faults := h.faults }

/-- The operation returns and leaves the client as it was. -/
def Op.Spares (op : Op) (fh : Int) : Prop :=
  ∃ x t, (op.prog junk path cache_path fh).run env.exec s = (some x, t) ∧ s.SameLocal t

/-- The file that `CREATE` opens is there, and either no answer arrives or the zero that it brings is
recorded and on disk already. -/
structure St.Recreates : Prop where
  copy : s.HasCopy path cache_path
  answer : env.answering s ≠ none → s.client.ht.get path = 0 ∧
    ∃ f, s.disk.look (getLocalPath databasePath cache_path) = some f ∧
      f.bytes = dumpText s.client.ht

/-- When an operation that the server did not do leaves the client as it was. -/
def Op.SparesWhen : Op → Prop
  | .create => ¬ s.Sends path cache_path .create ∨ s.Recreates env path cache_path
  | .unlink => ¬ s.HasCopy path cache_path
  | .chmod mode => ∀ m b, s.disk.shown (s.disk.named (getLocalPath path cache_path)) = some (m, b) →
      m % 4096 = mode.toNat % 4096
  | .rmdir => ¬ (s.disk.isDir (getLocalPath path cache_path) = true ∧
      ∀ q ∈ s.disk.listing, parent q ≠ getLocalPath path cache_path)
  | _ => True

variable {env junk path cache_path s} {op : Op} {r : Request} {fh : Int}

theorem Op.spares_iff_of_run {x : Result} {t : St}
    (hrun : (op.prog junk path cache_path fh).run env.exec s = (some x, t)) :
    op.Spares env junk path cache_path s fh ↔ s.SameLocal t := by
  constructor
  · rintro ⟨x', t', hrun', hsame⟩
    obtain ⟨-, rfl⟩ := Prod.mk.inj (hrun'.symm.trans hrun)
    exact hsame
  · exact fun hsame => ⟨x, t, hrun, hsame⟩

/-- A request leaves the client's disk and table. -/
theorem sameLocal_rpc_iff {u : St} (r : Request) (htable : u.client.ht = s.client.ht) :
    s.SameLocal (env.exec (.rpc r) u).2 ↔ u.disk.shown = s.disk.shown := by
  have hwaits := (Env.attempt_client env r u).1
  have hdisk : (env.exec (.rpc r) u).2.disk = u.disk := hwaits.fs
  constructor
  · intro h
    rw [← h.names, hdisk]
  · intro h
    exact ⟨by rw [hdisk, h], hwaits.table.trans htable⟩

/-- A call on the client's own names and a request leave what the call leaves. -/
theorem sameLocal_sys_rpc_iff (c : Sys) (r : Request) :
    s.SameLocal (env.exec (.rpc r) (env.exec (.sys c) s).2).2 ↔
      (c.exec s.client.proc).2.fs.shown = s.disk.shown := sameLocal_rpc_iff r rfl

/-- Five of the six operations on names do at most one call on the local copy and then ask. -/
theorem plain_spares_iff (hf : s.client.proc.faults = []) (hr : op.nameRequest path = some r)
    (hc : op ≠ .create) :
    op.Spares env junk path cache_path s fh ↔ op.SparesWhen env path cache_path s := by
  cases op with
  | unlink =>
      rw [Op.spares_iff_of_run rfl, sameLocal_sys_rpc_iff]
      exact (Sys.unlink_shown_iff hf).trans not_not.symm
  | chmod mode =>
      rw [Op.spares_iff_of_run rfl, sameLocal_sys_rpc_iff]
      exact Sys.chmod_shown_iff hf
  | rmdir =>
      rw [Op.spares_iff_of_run rfl, sameLocal_sys_rpc_iff]
      exact Sys.rmdir_shown_iff hf
  | mkdir mode =>
      rw [Op.spares_iff_of_run rfl]
      exact iff_of_true ((sameLocal_rpc_iff _ rfl).mpr rfl) trivial
  | readdir =>
      have hyields : Prog.Yields env.exec (Op.prog junk path cache_path fh .readdir) s
          fun _ t => s.SameLocal t := by
        have hsame : s.SameLocal (env.exec (.rpc (.ls path)) s).2 :=
          (sameLocal_rpc_iff _ rfl).mpr rfl
        refine Prog.Yields.bind (P := fun _ t => s.SameLocal t) ?_ fun r t h => Prog.Yields.ret h
        refine Prog.Yields.next ?_
        split
        · exact Prog.Yields.ret hsame
        · exact Prog.Yields.next (Prog.Yields.ret hsame)
      obtain ⟨x, t, hrun, hsame⟩ := hyields
      rw [Op.spares_iff_of_run hrun]
      exact iff_of_true hsame trivial
  | create => exact absurd rfl hc
  | openF | read k size offset | write k buffer offset | release k | fsync k | getattr
  | truncate size | chown uid gid | utimens atime mtime => cases hr

/-- The command makes, fills or closes files at the most. -/
def Cmd.Adds : Cmd → Prop
  | .sys c => c.Adds
  | _ => True

/-- Such a program keeps every name. -/
theorem keeps_name {α : Type} {p : Prog clientSig α} (hp : p.Uses Cmd.Adds) {q : Path}
    (h : s.disk.tree q ≠ none) : (p.run env.exec s).2.disk.tree q ≠ none := by
  refine hp.invariant (I := fun t : St => t.disk.tree q ≠ none) (fun c t hc ht => ?_) h
  cases c with
  | sys c => exact Sys.Adds.keeps hc ht
  | rpc r =>
      change (env.attempt r t).2.client.proc.fs.tree q ≠ none
      rw [(Env.attempt_client env r t).1.fs]
      exact ht
  | retried r =>
      change (env.retryLoop r _ t).2.client.proc.fs.tree q ≠ none
      rw [(Env.retryLoop_client env r ((6 - t.client.retries).toNat + 1) t).fs]
      exact ht
  | errno | get filename | put key value | table | setTable ht' => exact ht

/-- The rest of `dump` behind its open. -/
def Client.dumpTo (fptr : Int) : Prog clientSig Unit := do
  let ht ← Client.table
  let _ ← Client.sys (.write fptr (dumpText ht) (dumpText ht).length)
  let _ ← Client.sys (.close fptr)
  return ()

theorem Client.dump_eq (cache_path : Path) :
    Client.dump cache_path = (do
      let fptr : Int ← Client.sys (.openF (getLocalPath databasePath cache_path)
        { creat := true, trunc := true } 0o666)
      if fptr = -1 then .halt
      Client.dumpTo fptr) := rfl

theorem Client.dumpTo_adds (fptr : Int) : (Client.dumpTo fptr).Uses Cmd.Adds :=
  Prog.Uses.call trivial fun _ => Prog.Uses.call trivial fun _ => Prog.Uses.call trivial fun _ => trivial

theorem Client.record_adds (value : Int64) :
    (Client.record path cache_path value).Uses Cmd.Adds := by
  refine Prog.Uses.call trivial fun _ => ?_
  rw [Client.dump_eq]
  refine Prog.Uses.call trivial fun fptr => ?_
  split
  · exact trivial
  · exact Client.dumpTo_adds fptr

theorem Client.requestCreate_adds (fd : Int) :
    (Client.requestCreate path cache_path fd).Uses Cmd.Adds := by
  refine Prog.Uses.call trivial fun status => ?_
  split
  · exact (Client.record_adds _).bind fun _ => trivial
  · exact Prog.Uses.call trivial fun _ => trivial

/-- Recording a value where the table has no file makes one, or ends the process. -/
theorem record_creates {value : Int64} {x : Unit} {t : St}
    (hl : s.disk.look (getLocalPath databasePath cache_path) = none)
    (hrun : (Client.record path cache_path value).run env.exec s = (some x, t)) :
    s.disk.tree (getLocalPath databasePath cache_path) = none ∧
      t.disk.tree (getLocalPath databasePath cache_path) ≠ none := by
  unfold Client.record at hrun
  rw [Prog.run_call_bind, Client.dump_eq, Prog.run_call_bind] at hrun
  split at hrun
  · cases hrun
  · next hok =>
    rcases Sys.openF_creates (v := s.client.proc) hl hok with ⟨hbefore, -, hafter⟩
    refine ⟨hbefore, ?_⟩
    obtain rfl : _ = t := congrArg Prod.snd hrun
    exact keeps_name (Client.dumpTo_adds _) hafter

/-- Recording a value where the table has a file leaves its text there. -/
theorem record_shown {value : Int64} {f : File} (hf : s.client.proc.faults = [])
    (hl : s.disk.look (getLocalPath databasePath cache_path) = some f) :
    Prog.Yields env.exec (Client.record path cache_path value) s fun _ t =>
      t.client.ht = s.client.ht.put (hashKey path) value ∧
      t.disk.shown = Function.update s.disk.shown (getLocalPath databasePath cache_path)
        (some (f.mode, some (dumpText (s.client.ht.put (hashKey path) value)))) := by
  let ht := s.client.ht.put (hashKey path) value
  obtain ⟨fd, u, hopen, hfd, hu⟩ :=
    Fs.openFile_trunc_shown hl { creat := true, trunc := true } rfl 0o666
  have hempty : u.shown (getLocalPath databasePath cache_path) = some (f.mode, some []) := by
    rw [hu, Function.update_self]
  obtain ⟨v, hwrite, hv⟩ := Fs.write_shown hfd hempty (dumpText ht)
  have hne : fd ≠ -1 := by
    have hpos := Fs.openFile_fd hopen
    omega
  unfold Client.record
  refine Prog.Yields.call (t := s.withTable ht) (r := ()) rfl ?_
  rw [Client.dump_eq]
  refine Env.yields_sys hf hopen ?_
  rw [if_neg hne]
  refine Prog.Yields.call (t := (s.withTable ht).withDisk u) (r := ht) rfl ?_
  refine Env.yields_sys hf (perform_write rfl (List.prefix_refl _) hwrite) ?_
  refine Prog.Yields.next (Prog.Yields.ret ⟨rfl, ?_⟩)
  change ((Sys.close fd).exec _).2.fs.shown = _
  rw [Sys.close_shown]
  change v.shown = _
  rw [hv, hu, Function.update_idem]

/-- The handler's message for a file that it could not open has a zero for the time. -/
theorem Server.afsCreate_failed (junk : Junk) {root_path : Path} {v : Proc}
    (h : (Request.call root_path (.create path)).Fails v) :
    ∃ e u, (Server.afsCreate junk root_path path).run ProcCmd.exec v =
      (some { reply := { ack := e } }, u) := by
  have hfd : ((Sys.openF (getServerPath path root_path) { creat := true } S_IRWXUG).exec v).1 =
    (-1 : Int) := h
  unfold Server.afsCreate
  rw [Prog.run_call_bind]
  simp only [ProcCmd.exec, hfd, if_true]
  exact ⟨_, _, rfl⟩

/-- The state behind the open of `CREATE`. -/
def St.created (path cache_path : Path) (s : St) : St :=
  { s with client := { s.client with
    proc := ((Sys.openF (getLocalPath path cache_path) { creat := true, append := true }
      S_IRWXUG).exec s.client.proc).2 } }

/-- `CREATE` behind its open, where it succeeds. -/
theorem create_spares_iff_request (hsends : s.Sends path cache_path .create) :
    Op.Spares env junk path cache_path s .create fh ↔
      ∃ r t, (Client.requestCreate path cache_path
        ((Sys.openF (getLocalPath path cache_path) { creat := true, append := true } S_IRWXUG).exec
          s.client.proc).1).run env.exec (s.created path cache_path) = (some r, t) ∧
        s.SameLocal t := by
  have hfd : (env.exec (.sys (.openF (getLocalPath path cache_path)
      { creat := true, append := true } S_IRWXUG)) s).1 ≠ (-1 : Int) := hsends rfl
  have hrun : (Client.afsCreate path cache_path fh).run env.exec s = (Client.requestCreate path cache_path
      ((Sys.openF (getLocalPath path cache_path) { creat := true, append := true } S_IRWXUG).exec
        s.client.proc).1).run env.exec (s.created path cache_path) := by
    rw [Client.afsCreate_eq, Prog.run_call_bind, if_neg hfd]
    rfl
  unfold Op.Spares Op.prog
  simp only [Prog.run_bind, hrun]
  generalize (Client.requestCreate path cache_path _).run env.exec (s.created path cache_path) = out
  rcases out with ⟨_ | r, t⟩
  · constructor
    · rintro ⟨x, u, h, -⟩
      cases h
    · rintro ⟨x, u, h, -⟩
      cases h
  · constructor
    · rintro ⟨x, u, h, hsame⟩
      obtain ⟨-, rfl⟩ := Prod.mk.inj h
      exact ⟨r, t, rfl, hsame⟩
    · rintro ⟨x, u, h, hsame⟩
      obtain ⟨-, rfl⟩ := Prod.mk.inj h
      exact ⟨_, t, rfl, hsame⟩

/-- The reply to a request that failed is recorded with its zero. -/
theorem requestCreate_spares_iff {fd : Int} {y : Handling} (hf : s.client.proc.faults = [])
    (h : env.answering s = some y)
    (hfail : (Request.call env.root_path (.create path)).Fails { s.server with faults := y.faults }) :
    (∃ r t, (Client.requestCreate path cache_path fd).run env.exec s = (some r, t) ∧ s.SameLocal t) ↔
      s.client.ht.get path = 0 ∧ ∃ f, s.disk.look (getLocalPath databasePath cache_path) = some f ∧
        f.bytes = dumpText s.client.ht := by
  obtain ⟨e, v, hreply⟩ := Server.afsCreate_failed y.junk hfail
  have hattempt := Env.exec_rpc_answered (r := .create path) h hreply rfl
  obtain ⟨hwaits, -⟩ := Env.attempt_client env (.create path) s
  let u : St := (env.attempt (.create path) s).2
  have hdisk : u.disk = s.disk := hwaits.fs
  have htable : u.client.ht = s.client.ht := hwaits.table
  have hrun : (Client.requestCreate path cache_path fd).run env.exec s =
      (Client.record path cache_path 0 >>= fun _ => pure (e.toInt, fd)).run env.exec u := by
    unfold Client.requestCreate
    rw [Prog.run_call_bind, hattempt]
  rw [hrun]
  cases hl : s.disk.look (getLocalPath databasePath cache_path) with
  | none =>
      refine iff_of_false ?_ ?_
      · rintro ⟨r, t, hr, hsame⟩
        rw [Prog.run_bind] at hr
        cases hrec : (Client.record path cache_path 0).run env.exec u with
        | mk x t' =>
            rw [hrec] at hr
            cases x with
            | none => cases hr
            | some x =>
                obtain ⟨-, rfl⟩ := Prod.mk.inj hr
                rcases record_creates (hdisk ▸ hl) hrec with ⟨hbefore, hafter⟩
                rw [hdisk, ← Fs.shown_eq_none, ← hsame.names, Fs.shown_eq_none] at hbefore
                exact hafter hbefore
      · rintro ⟨-, f, hnone, -⟩
        cases hnone
  | some f =>
      have hrecord : Prog.Yields env.exec (Client.record path cache_path 0) u _ :=
        record_shown (hwaits.faults.trans hf) (hdisk ▸ hl)
      obtain ⟨x, t, hrec, ht, hnames⟩ := hrecord
      have hput : s.client.ht.put (hashKey path) 0 = s.client.ht ↔ s.client.ht.get path = 0 :=
        HashTable.put_eq_self_iff (by decide)
      rw [htable] at ht hnames
      rw [hdisk] at hnames
      rw [Prog.run_bind, hrec]
      constructor
      · rintro ⟨r, t', hr, hsame⟩
        obtain ⟨-, rfl⟩ := Prod.mk.inj hr
        have hsameht : s.client.ht.put (hashKey path) 0 = s.client.ht := ht.symm.trans hsame.table
        refine ⟨hput.mp hsameht, f, rfl, ?_⟩
        have hshown := hsame.names
        rw [hnames, hsameht, Fs.update_shown_eq_iff, Fs.shown_of_look hl] at hshown
        exact (Option.some.inj (Prod.mk.inj (Option.some.inj hshown)).2).symm
      · rintro ⟨hget, f', hf', htext⟩
        obtain rfl := Option.some.inj hf'
        have hsameht := hput.mpr hget
        refine ⟨_, t, rfl, ?_, ht.trans hsameht⟩
        rw [hnames, hsameht, Fs.update_shown_eq_iff, Fs.shown_of_look hl, htext]

/-- A file that was not there is left behind. -/
theorem create_leaves_file (hl : s.disk.look (getLocalPath path cache_path) = none)
    (hsends : s.Sends path cache_path .create) :
    ¬ Op.Spares env junk path cache_path s .create fh := by
  rw [create_spares_iff_request hsends]
  rintro ⟨r, t, hrun, hsame⟩
  rcases Sys.openF_creates (v := s.client.proc) hl (hsends rfl) with ⟨hbefore, -, hafter⟩
  obtain rfl : _ = t := congrArg Prod.snd hrun
  apply keeps_name (s := s.created path cache_path) (Client.requestCreate_adds _) hafter
  rw [← Fs.shown_eq_none, hsame.names, Fs.shown_eq_none]
  exact hbefore

/-- Without an answer nothing is recorded. -/
theorem requestCreate_unanswered {fd : Int} (h : env.answering s = none) :
    ∃ r t, (Client.requestCreate path cache_path fd).run env.exec s = (some r, t) ∧ s.SameLocal t := by
  obtain ⟨e, -, hnone, -⟩ := Env.attempt_silent (r := .create path) h
  have hreply : env.exec (.rpc (.create path)) s = (none, (env.attempt (.create path) s).2) :=
    Prod.ext hnone rfl
  have hsame : s.SameLocal (env.exec (.rpc (.create path)) s).2 := (sameLocal_rpc_iff _ rfl).mpr rfl
  refine ⟨(-(env.attempt (.create path) s).2.client.proc.errno, fd), _, ?_, hsame⟩
  unfold Client.requestCreate
  rw [Prog.run_call_bind, hreply]
  rfl

/-- `CREATE` leaves a client as it was that has the file, unless it records a reply. -/
theorem create_spares_iff (hf : s.client.proc.faults = []) (hundone : s.Undone env (.create path)) :
    Op.Spares env junk path cache_path s .create fh ↔
      Op.SparesWhen env path cache_path s .create := by
  by_cases hsends : s.Sends path cache_path .create
  · refine Iff.trans ?_ (or_iff_right (not_not.mpr hsends)).symm
    cases hl : s.disk.look (getLocalPath path cache_path) with
    | none => exact iff_of_false (create_leaves_file hl hsends) fun h => h.copy hl
    | some f =>
        have hcopy : s.HasCopy path cache_path := by
          unfold St.HasCopy
          rw [hl]
          exact Option.some_ne_none f
        let c : Sys := .openF (getLocalPath path cache_path) { creat := true, append := true } S_IRWXUG
        have hopen : (c.exec s.client.proc).2.fs.tree = s.disk.tree ∧
            (c.exec s.client.proc).2.fs.node = s.disk.node ∧
            (c.exec s.client.proc).2.fs.dirs = s.disk.dirs := Sys.openF_present hf hl rfl
        have hlook : (s.created path cache_path).disk.look = s.disk.look := by
          ext1 q
          unfold Fs.look
          rw [show (s.created path cache_path).disk.tree = s.disk.tree from hopen.1,
            show (s.created path cache_path).disk.node = s.disk.node from hopen.2.1]
        have hnames : (s.created path cache_path).disk.shown = s.disk.shown :=
          Fs.shown_congr hopen.1 hopen.2.1 hopen.2.2
        have hsame : ∀ t, s.SameLocal t ↔ (s.created path cache_path).SameLocal t := fun t =>
          ⟨fun h => ⟨h.names.trans hnames.symm, h.table⟩, fun h => ⟨h.names.trans hnames, h.table⟩⟩
        rw [create_spares_iff_request hsends]
        simp only [hsame]
        cases h : env.answering s with
        | none =>
            exact iff_of_true (requestCreate_unanswered h) ⟨hcopy, fun hans => absurd h hans⟩
        | some y =>
            have hfail : (Request.call env.root_path (.create path)).Fails
                { s.server with faults := y.faults } := hundone y (Env.handling_of_answering h)
            have hf' : (s.created path cache_path).client.proc.faults = [] := Sys.exec_faults hf c
            rw [requestCreate_spares_iff hf' h hfail, hlook]
            constructor
            · exact fun hsp => ⟨hcopy, fun _ => hsp⟩
            · intro hre
              apply hre.answer
              rw [h]
              exact Option.some_ne_none y
  · refine iff_of_true ?_ (Or.inl hsends)
    have hfail : (Sys.openF (getLocalPath path cache_path) { creat := true, append := true }
        S_IRWXUG).Fails s.client.proc := by
      by_contra hok
      exact hsends fun _ => hok
    have hfd : (env.exec (.sys (.openF (getLocalPath path cache_path)
        { creat := true, append := true } S_IRWXUG)) s).1 = (-1 : Int) := hfail
    have hsame : s.SameLocal (s.created path cache_path) := ⟨Sys.openF_failed_shown hfail, rfl⟩
    have hrun : (Client.afsCreate path cache_path fh).run env.exec s =
        (some (-(s.created path cache_path).client.proc.errno, fh), s.created path cache_path) := by
      rw [Client.afsCreate_eq, Prog.run_call_bind, if_pos hfd]
      rfl
    have hprog : (Op.prog junk path cache_path fh .create).run env.exec s =
        (some { ret := -(s.created path cache_path).client.proc.errno, fh := fh },
          s.created path cache_path) := by
      unfold Op.prog
      rw [Prog.run_bind, hrun]
      rfl
    exact ⟨_, _, hprog, hsame⟩

/-- An operation on a name that the server did not do leaves the client as it was exactly then. -/
theorem undone_spares_iff (hf : s.client.proc.faults = []) (hr : op.nameRequest path = some r)
    (hundone : s.Undone env r) :
    op.Spares env junk path cache_path s fh ↔ op.SparesWhen env path cache_path s := by
  by_cases hc : op = .create
  · subst hc
    obtain rfl := Option.some.inj hr
    exact create_spares_iff hf hundone
  · exact plain_spares_iff hf hr hc

end Undone

/-- The removal of a file that the client has not cached, in an attempt that fails. -/
theorem undone_spares_sample :
    Op.Spares ⟨cstr "/srv", .zero⟩ .zero sampleFile (cstr "/cache")
      (sampleBoot.state false (sampleTime 1 0) [] [.lost 110]) .unlink 0 := by
  have hundone : (sampleBoot.state false (sampleTime 1 0) [] [.lost 110]).Undone ⟨cstr "/srv", .zero⟩
      (.unlink sampleFile) := by
    intro y hy
    cases hy
  apply (undone_spares_iff rfl rfl hundone).mpr
  change ¬ St.HasCopy _ _ _
  decide +kernel

/-- A file is opened and written to, and the request to remove it is lost: the bytes that the server
does not have yet are gone. -/
theorem unlink_discards_unsent :
    ∃ w : World (Bool), w.Mounted sample ∧ w.recorded false sampleFile = modifiedFlag ∧
      w.cached sample false sampleFile = some [7] ∧
      (w.served sample sampleFile).map (·.bytes) = some [1] ∧
      (w.state false (sampleTime 3 0) [] [.lost 110]).Undone ⟨cstr "/srv", .zero⟩ (.unlink sampleFile) ∧
      ¬ Op.Spares ⟨cstr "/srv", .zero⟩ .zero sampleFile (cstr "/cache")
        (w.state false (sampleTime 3 0) [] [.lost 110]) .unlink 0 := by
  obtain ⟨w, hw, h⟩ := World.exists_unsent (f := fun w =>
    decide (w.recorded false sampleFile = modifiedFlag ∧ w.cached sample false sampleFile = some [7] ∧
      (w.served sample sampleFile).map (·.bytes) = some [1] ∧
      (w.state false (sampleTime 3 0) [] [.lost 110]).HasCopy sampleFile (cstr "/cache")))
    (by decide +kernel)
  obtain ⟨hflag, hcached, hserved, hcopy⟩ := of_decide_eq_true h
  refine ⟨w, hw, hflag, hcached, hserved, ?_, ?_⟩
  · intro y hy
    cases hy
  · intro hspares
    exact (plain_spares_iff rfl rfl (fun hc => by cases hc)).mp hspares hcopy

end Afs
