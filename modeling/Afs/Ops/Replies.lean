import Afs.Core.Elsewhere
import Afs.Core.Faults
import Afs.Ops.Attempts

/-!
# What replies say about the server

The handlers of `GETATTR` and `FETCH` change no file, whatever fails in them. A reply to a fetch
either has the error `-1` and nothing else, or its handler has opened the file, and then its size is
the length of its buffer as far as 32 bits go.
-/

namespace Posix

/-- The step of a process changes no name and no file. -/
def ProcCmd.ReadsOnly : ProcCmd → Prop
  | .sys c => c.ReadsOnly
  | .errno => True

theorem ProcCmd.exec_readsOnly {c : ProcCmd} (hc : c.ReadsOnly) (v : Proc) :
    (c.exec v).2.fs.look = v.fs.look := by
  cases c with
  | sys c => exact Sys.exec_readsOnly hc v
  | errno => rfl

/-- What a read moves is at most what it was asked for. -/
theorem Sys.exec_read_length {fd : Int} {n : Nat} {v : Proc} {d : Bytes}
    (h : ((Sys.read fd n).exec v).1 = some d) : d.length ≤ n := by
  rcases (Sys.read fd n).exec_cases v with ⟨hr, -⟩ | ⟨limit, hp⟩
  · rw [h] at hr
    cases hr
  · obtain ⟨x, hx, he⟩ := map_eq_ok.mp hp
    rw [h] at he
    obtain rfl := Option.some.inj (Prod.mk.inj he).1
    unfold Fs.read at hx
    split at hx
    · cases hx
    · obtain rfl := Except.ok.inj hx
      refine (length_slice_le _ _ _).trans ?_
      cases limit with
      | none => exact le_refl n
      | some k => exact min_le_left n k

end Posix

namespace Afs

open Posix Interaction

theorem length_fill {buf : Bytes} {got : Option Bytes} (h : ∀ d, got = some d → d.length ≤ buf.length) :
    (fill buf got).length = buf.length := by
  cases got with
  | none => rfl
  | some d =>
      have hd := h d rfl
      simp only [fill, List.length_append, List.length_drop]
      omega

namespace Server

variable {junk : Junk} {root_path p : Path} {v v' : Proc}

theorem afsGetattr_readsOnly : (afsGetattr root_path p).Uses ProcCmd.ReadsOnly := by
  refine Prog.Uses.call trivial fun res => ?_
  split
  · exact Prog.Uses.call trivial fun _ => trivial
  · exact trivial

theorem afsFetch_readsOnly : (afsFetch junk root_path p).Uses ProcCmd.ReadsOnly := by
  refine Prog.Uses.call ⟨rfl, rfl⟩ fun fd => ?_
  split
  · exact trivial
  · refine Prog.Uses.call trivial fun _ => Prog.Uses.call trivial fun _ =>
      Prog.Uses.call trivial fun _ => Prog.Uses.call trivial fun _ => Prog.Uses.call trivial fun _ => ?_
    split <;> exact trivial

/-- An open for reading that succeeds has found a file. -/
private theorem open_cases (q : Path) (v : Proc) :
    ((Sys.openF q {} 0).exec v).1 = (-1 : Int) ∨
      ((Sys.openF q {} 0).exec v).1 ≠ (-1 : Int) ∧ v.fs.look q ≠ none := by
  rcases (Sys.openF q {} 0).exec_cases v with ⟨hr, -⟩ | ⟨limit, hp⟩
  · exact Or.inl hr
  · right
    simp only [Sys.perform, Fs.openFile, Bool.false_eq_true, if_false] at hp
    split at hp
    · cases hp
    · next i hi =>
      obtain ⟨hfd, -⟩ := Prod.mk.inj (Except.ok.inj hp)
      refine ⟨?_, by rw [Fs.look_of_tree hi]; exact Option.some_ne_none _⟩
      rw [← hfd]
      change ((allocFd _ _).1 : Int) ≠ -1
      omega
    · cases hp

/-- What a reply to a fetch says, whatever fails in its handler. -/
theorem afsFetch_reply {a : Response FetchReply}
    (h : (afsFetch junk root_path p).run ProcCmd.exec v = (some a, v')) (hok : a.ok = true) :
    (∃ t : Timespec, a.reply.time = Int64.ofNat t.tv_nsec) ∧
    ((a.reply.error = -1 ∧ a.reply.size = 0 ∧ a.reply.buf = []) ∨
      (a.reply.error = 0 ∧ a.reply.size = Int32.ofInt a.reply.buf.length ∧
        v.fs.look (getServerPath p root_path) ≠ none)) := by
  unfold afsFetch at h
  rw [Prog.run_call_bind] at h
  rcases open_cases (getServerPath p root_path) v with hfail | ⟨hfd, hlook⟩
  · change (Prog.run _ (if ((Sys.openF _ {} 0).exec v).1 = (-1 : Int) then _ else _) _) = _ at h
    rw [if_pos hfail] at h
    obtain ⟨ha, -⟩ := Prod.mk.inj h
    obtain rfl := Option.some.inj ha
    exact ⟨⟨.zero, rfl⟩, Or.inl ⟨rfl, rfl, rfl⟩⟩
  · change (Prog.run _ (if ((Sys.openF _ {} 0).exec v).1 = (-1 : Int) then _ else _) _) = _ at h
    rw [if_neg hfd, Prog.run_call_bind] at h
    generalize ProcCmd.exec (.sys (.fstat _)) _ = out at h
    obtain ⟨res, v1⟩ := out
    rw [Prog.run_call_bind, Prog.run_call_bind] at h
    generalize hout : ProcCmd.exec (.sys (.read _ _)) _ = out at h
    obtain ⟨got, v2⟩ := out
    rw [Prog.run_call_bind, Prog.run_call_bind] at h
    have hgot : ∀ d, got = some d → d.length ≤ (res.getD junk.info).st_size.toNat := by
      rintro d rfl
      exact Sys.exec_read_length (congrArg Prod.fst hout)
    by_cases hneg : (res.getD junk.info).st_size < 0
    · rw [if_pos hneg] at h
      obtain ⟨ha, -⟩ := Prod.mk.inj h
      obtain rfl := Option.some.inj ha
      cases hok
    · rw [if_neg hneg] at h
      obtain ⟨ha, -⟩ := Prod.mk.inj h
      obtain rfl := Option.some.inj ha
      refine ⟨⟨_, rfl⟩, Or.inr ⟨rfl, ?_, hlook⟩⟩
      simp only
      rw [length_fill (by rw [junk.length_heap]; exact hgot), junk.length_heap,
        Int.toNat_of_nonneg (by omega)]

/-- The time in a reply to a request for attributes is not negative, whatever fails in the handler. -/
theorem afsGetattr_reply {a : Response GetattrRes}
    (h : (afsGetattr root_path p).run ProcCmd.exec v = (some a, v')) : 0 ≤ a.reply.mtime.toInt := by
  unfold afsGetattr at h
  rw [Prog.run_call_bind] at h
  generalize ProcCmd.exec (.sys (.lstat _)) _ = out at h
  obtain ⟨res, v1⟩ := out
  cases res with
  | none =>
      obtain ⟨ha, -⟩ := Prod.mk.inj h
      obtain rfl := Option.some.inj ha
      change 0 ≤ (0 : Int32).toInt
      decide
  | some stats =>
      obtain ⟨ha, -⟩ := Prod.mk.inj h
      obtain rfl := Option.some.inj ha
      simp only [toInt_mtime]
      exact Int.natCast_nonneg _

/-- A file's time taken by its name, and the end of a handler. -/
private theorem lstat_dated {α : Type} {path : Path} {fd : Int} {i : Nat} (k : Int64 → α)
    (hv : v.faults = []) (hi : v.fs.tree path = some (.file i)) :
    Prog.Yields ProcCmd.exec (do
      let res ← sys (.lstat path)
      let stats : Stat := res.getD junk.info
      let _ ← sys (.close fd)
      return k (Int64.ofNat stats.st_mtim.tv_nsec)) v fun a t =>
        ∃ g, t.fs.look path = some g ∧ a = k (Int64.ofNat g.mtim.tv_nsec) := by
  have hg := Fs.look_of_tree hi
  obtain ⟨j, hst⟩ := Fs.lstat_of_look hg
  refine ProcCmd.yields_sys (r := some ((v.fs.node i).stat j)) (t := v.fs) hv
    (by simp only [Sys.perform, hst]; rfl) ?_
  refine Prog.Yields.next (Prog.Yields.ret ⟨v.fs.node i, ?_, rfl⟩)
  have hclose : ProcCmd.ReadsOnly (.sys (.close fd)) := trivial
  exact (congrFun (ProcCmd.exec_readsOnly hclose v) path).trans hg

private theorem errno_ne_zero {e : Int} (h : 0 < e ∧ e < 2 ^ 31) : Int32.ofInt e ≠ 0 := by
  intro h0
  have he : (Int32.ofInt e).toInt = 0 := by rw [h0]; rfl
  rw [Int32.toInt_ofInt_of_le (by omega) (by omega)] at he
  omega

/-- A creation that reports no error reports the time of the file that is there then. -/
theorem afsCreate_dated (hv : v.faults = []) :
    Prog.Yields ProcCmd.exec (afsCreate junk root_path p) v fun a t => a.reply.ack = 0 →
      ∃ g, t.fs.look (getServerPath p root_path) = some g ∧
        a.reply.time = Int64.ofNat g.mtim.tv_nsec := by
  unfold afsCreate
  cases ho : Sys.perform none (.openF (getServerPath p root_path) { creat := true } S_IRWXUG) v.fs with
  | error e =>
      refine ProcCmd.yields_sys_error hv ho ?_
      simp only [Sys.failed, if_true]
      refine Prog.Yields.next (Prog.Yields.ret fun hack => ?_)
      exact absurd hack (errno_ne_zero (Sys.perform_errno ho))
  | ok x =>
      obtain ⟨fd, t⟩ := x
      refine ProcCmd.yields_sys hv ho ?_
      have hfd : fd ≠ (-1 : Int) := by
        rintro rfl
        exact absurd (Fs.openFile_fd ho) (by decide)
      simp only [hfd, if_false]
      obtain ⟨i, hi⟩ := Fs.tree_of_openFile ho
      refine (lstat_dated (v := { v with fs := t })
        (fun time => ({ reply := { ack := 0, time } } : Response CreateRes)) hv hi).mono ?_
      rintro a u ⟨g, hg, rfl⟩ -
      exact ⟨g, hg, rfl⟩

/-- So does a store. -/
theorem afsStore_dated {request : StoreReq} (hv : v.faults = []) :
    Prog.Yields ProcCmd.exec (afsStore junk root_path request) v fun a t => a.reply.error = 0 →
      ∃ g, t.fs.look (getServerPath request.path root_path) = some g ∧
        a.reply.time = Int64.ofNat g.mtim.tv_nsec := by
  unfold afsStore
  cases ho : Sys.perform none (.openF (getServerPath request.path root_path)
      { creat := true, trunc := true } S_IRWXUG) v.fs with
  | error e =>
      refine ProcCmd.yields_sys_error hv ho ?_
      simp only [Sys.failed, if_true]
      refine Prog.Yields.next (Prog.Yields.ret fun herror => ?_)
      exact absurd herror (errno_ne_zero (Sys.perform_errno ho))
  | ok x =>
      obtain ⟨fd, t⟩ := x
      refine ProcCmd.yields_sys hv ho ?_
      have hfd : fd ≠ (-1 : Int) := by
        rintro rfl
        exact absurd (Fs.openFile_fd ho) (by decide)
      simp only [hfd, if_false]
      refine Prog.Yields.next ?_
      have haside : (Sys.write fd (request.buf ++ junk.beyond) (sizeT request.size.toInt)).Elsewhere
        (getServerPath request.path root_path) := trivial
      obtain ⟨i, hi⟩ := Fs.tree_of_openFile ho
      have htree := (Sys.exec_tree haside { v with fs := t }).trans hi
      refine (lstat_dated (fun time => ({ reply := { error := 0, time } } : Response StoreRes))
        (Sys.exec_faults (v := { v with fs := t }) hv _) htree).mono ?_
      rintro a u ⟨g, hg, rfl⟩ -
      exact ⟨g, hg, rfl⟩

end Server

/-- The path and the time of an error-free reply to a creation, a store or a fetch. -/
def Request.dated : (r : Request) → r.Reply → Option (Path × Int64)
  | .create path, m => if m.ack = 0 then some (path, m.time) else none
  | .store x, m => if m.error = 0 then some (x.path, m.time) else none
  | .fetch path, m => if m.error = 0 then some (path, m.time) else none
  | .getattr _, _ | .unlink _, _ | .chmod .., _ | .mkdir .., _ | .rmdir _, _ | .ls _, _ => none

/-- The time that an error-free reply carries is the one of the server's file when the handler ends. -/
theorem Server.handle_dated {junk : Junk} {root_path p : Path} {v v' : Proc} {r : Request}
    {a : Response r.Reply} {time : Int64} (hv : v.faults = [])
    (h : (handle junk root_path r).run ProcCmd.exec v = (some a, v')) (hok : a.ok = true)
    (hd : r.dated a.reply = some (p, time)) :
    ∃ g, v'.fs.look (getServerPath p root_path) = some g ∧ time = Int64.ofNat g.mtim.tv_nsec := by
  cases r with
  | create path =>
      simp only [Request.dated, Option.ite_none_right_eq_some] at hd
      obtain ⟨hack, heq⟩ := hd
      obtain ⟨rfl, rfl⟩ := Prod.mk.inj (Option.some.inj heq)
      exact (afsCreate_dated hv).of_run h hack
  | store x =>
      simp only [Request.dated, Option.ite_none_right_eq_some] at hd
      obtain ⟨herror, heq⟩ := hd
      obtain ⟨rfl, rfl⟩ := Prod.mk.inj (Option.some.inj heq)
      exact (afsStore_dated hv).of_run h herror
  | fetch path =>
      simp only [Request.dated, Option.ite_none_right_eq_some] at hd
      obtain ⟨herror, heq⟩ := hd
      obtain ⟨rfl, rfl⟩ := Prod.mk.inj (Option.some.inj heq)
      cases hl : v.fs.look (getServerPath path root_path) with
      | none =>
          rcases (afsFetch_reply h hok).2 with ⟨hminus, -⟩ | ⟨-, -, hlook⟩
          · rw [herror] at hminus
            exact absurd hminus (by decide)
          · exact absurd hl hlook
      | some g =>
          obtain ⟨-, hs, rfl⟩ := (afsFetch_yields junk root_path hv hl).of_run h
          exact ⟨g, by rw [hs.look, hl], rfl⟩
  | getattr path | unlink path | chmod path mode | mkdir path mode | rmdir path | ls path => cases hd

/-- The request is one of the two whose handlers change no file. -/
def Request.ReadsOnly : Request → Prop
  | .getattr _ | .fetch _ => True
  | .create _ | .store _ | .unlink _ | .chmod .. | .mkdir .. | .rmdir _ | .ls _ => False

namespace Env

variable {env : Env} {r : Request} {s : St}

private theorem serve_look (hr : r.ReadsOnly) (x : Handling) (v : Proc) :
    (env.serve r x v).2.fs.look = v.fs.look := by
  have huses : (Server.handle x.junk env.root_path r).Uses ProcCmd.ReadsOnly := by
    cases r with
    | getattr path => exact Server.afsGetattr_readsOnly
    | fetch path => exact Server.afsFetch_readsOnly
    | create path | store y | unlink path | chmod path mode | mkdir path mode | rmdir path
    | ls path => exact hr.elim
  exact huses.invariant (I := fun u : Proc => u.fs.look = v.fs.look)
    (fun c u hc hu => (ProcCmd.exec_readsOnly hc u).trans hu) rfl

theorem attempt_look (hr : r.ReadsOnly) (s : St) :
    (env.attempt r s).2.server.fs.look = s.server.fs.look := by
  unfold attempt
  split
  · exact serve_look hr _ _
  · exact serve_look hr _ _
  · exact serve_look hr _ _
  · rfl
  · rfl

/-- Asking for attributes or bytes changes no file of the server, whatever becomes of the attempts. -/
theorem retryLoop_look (hr : r.ReadsOnly) (n : Nat) (s : St) :
    (env.retryLoop r n s).2.server.fs.look = s.server.fs.look := by
  induction n generalizing s with
  | zero => rfl
  | succ n ih =>
      have hone : (env.attempt r s).2.server.fs.look = s.server.fs.look := attempt_look hr s
      simp only [retryLoop]
      split
      · next heq => rwa [heq] at hone
      · next t heq =>
        rw [heq] at hone
        split
        · exact (ih { t with client := (t.client.retryReq false).2 }).trans hone
        · exact hone

/-- The loop uses up a part of what the network has. -/
theorem retryLoop_net {D : Delivery → Prop} (n : Nat) (s : St) (h : ∀ d ∈ s.net, D d) :
    ∀ d ∈ (env.retryLoop r n s).2.net, D d := by
  induction n generalizing s with
  | zero => exact h
  | succ n ih =>
      have hone : ∀ d ∈ (env.attempt r s).2.net, D d := by
        rw [attempt_net]
        exact fun d hd => h d (List.mem_of_mem_tail hd)
      simp only [retryLoop]
      split
      · next heq => rwa [heq] at hone
      · next t heq =>
        rw [heq] at hone
        split
        · exact ih { t with client := (t.client.retryReq false).2 } hone
        · exact hone

/-- The answer to a request that changes no file, when no handler meets a fault: what the handler says
about the server's files as they are. -/
theorem answer_faultless {Q : r.Reply → Prop} (hr : r.ReadsOnly) (hnet : ∀ d ∈ s.net, d.Faultless)
    (hhandle : ∀ junk (v : Proc), v.faults = [] → v.fs.look = s.server.fs.look →
      Prog.Yields ProcCmd.exec (Server.handle junk env.root_path r) v fun a _ => Q a.reply)
    {m : r.Reply} (h : (env.exec (.retried r) s).1 = some m) : Q m := by
  have hloop : env.retryLoop r ((6 - s.client.retries).toNat + 1) s =
      (some m, (env.exec (.retried r) s).2) := Prod.ext h rfl
  have hstep : ∀ u : St, u.server.fs.look = s.server.fs.look ∧ (∀ d ∈ u.net, d.Faultless) →
      ∀ c : ClientProc, (env.attempt r u).2.server.fs.look = s.server.fs.look ∧
        ∀ d ∈ (env.attempt r u).2.net, d.Faultless := by
    rintro u ⟨hlook, hfine⟩ -
    refine ⟨(attempt_look hr u).trans hlook, ?_⟩
    rw [attempt_net]
    exact fun d hd => hfine d (List.mem_of_mem_tail hd)
  obtain ⟨u, u', ⟨hu, hunet⟩, hattempt, -⟩ := retryLoop_some
    (I := fun u : St => u.server.fs.look = s.server.fs.look ∧ ∀ d ∈ u.net, d.Faultless)
    hstep ⟨rfl, hnet⟩ hloop
  obtain ⟨x, v, a, hx, hserve, -, rfl, -⟩ := attempt_some hattempt
  have hfine : x.faults = [] := by
    rcases hx with ⟨-, hx⟩ | ⟨net, hx⟩
    · exact hx
    · exact hunet (.done x) (by rw [hx]; exact List.mem_cons_self) x rfl
  obtain ⟨b, t, hrun, hb⟩ := hhandle x.junk { u.server with faults := x.faults } hfine hu
  unfold serve at hserve
  rw [hrun] at hserve
  obtain rfl := Option.some.inj (Prod.mk.inj hserve).1
  exact hb

theorem getattr_faultless {p : Path} {g : File} {a : GetattrRes} (hnet : ∀ d ∈ s.net, d.Faultless)
    (hg : s.server.fs.look (getServerPath p env.root_path) = some g)
    (h : (env.exec (.retried (.getattr p)) s).1 = some a) :
    a.err = 0 ∧ a.mtime = Int32.ofNat g.mtim.tv_nsec := by
  refine answer_faultless (r := .getattr p)
    (Q := fun a : GetattrRes => a.err = 0 ∧ a.mtime = Int32.ofNat g.mtim.tv_nsec) trivial hnet ?_ h
  intro junk v hv hlook
  exact (Server.afsGetattr_yields env.root_path hv (by rw [hlook, hg])).mono
    fun a t ha => ⟨ha.2.2.1, ha.2.2.2⟩

theorem fetch_faultless {p : Path} {g : File} {m : FetchReply} (hnet : ∀ d ∈ s.net, d.Faultless)
    (hg : s.server.fs.look (getServerPath p env.root_path) = some g)
    (h : (env.exec (.retried (.fetch p)) s).1 = some m) :
    m.buf = g.bytes ∧ m.size = Int32.ofInt g.bytes.length := by
  refine answer_faultless (r := .fetch p)
    (Q := fun m : FetchReply => m.buf = g.bytes ∧ m.size = Int32.ofInt g.bytes.length) trivial hnet ?_ h
  intro junk v hv hlook
  refine (Server.afsFetch_yields junk env.root_path hv (by rw [hlook, hg])).mono ?_
  rintro a t ⟨-, -, rfl⟩
  exact ⟨rfl, rfl⟩

/-- What the time of an error-free reply says, when no handler meets a fault. -/
theorem attempt_dated {m : r.Reply} {t : St} {p : Path} {time : Int64}
    (hnet : ∀ d ∈ s.net, d.Faultless) (h : env.attempt r s = (some m, t))
    (hd : r.dated m = some (p, time)) :
    ∃ g, t.server.fs.look (getServerPath p env.root_path) = some g ∧
      time = Int64.ofNat g.mtim.tv_nsec := by
  obtain ⟨x, v, a, hx, hserve, hok, rfl, ht⟩ := attempt_some h
  have hfine : x.faults = [] := by
    rcases hx with ⟨-, hx⟩ | ⟨net, hx⟩
    · exact hx
    · exact hnet (.done x) (by rw [hx]; exact List.mem_cons_self) x rfl
  obtain ⟨ha, hv⟩ := Prod.mk.inj hserve
  obtain ⟨g, hg, htime⟩ := Server.handle_dated (v := { s.server with faults := x.faults }) hfine
    (Prod.ext ha rfl) hok hd
  refine ⟨g, ?_, htime⟩
  rw [ht, ← hv]
  exact hg

theorem retried_dated {m : r.Reply} {p : Path} {time : Int64} (hnet : ∀ d ∈ s.net, d.Faultless)
    (h : (env.exec (.retried r) s).1 = some m) (hd : r.dated m = some (p, time)) :
    ∃ g, (env.exec (.retried r) s).2.server.fs.look (getServerPath p env.root_path) = some g ∧
      time = Int64.ofNat g.mtim.tv_nsec := by
  have hloop : env.retryLoop r ((6 - s.client.retries).toNat + 1) s =
      (some m, (env.exec (.retried r) s).2) := Prod.ext h rfl
  have hstep : ∀ u : St, (∀ d ∈ u.net, d.Faultless) → ∀ c : ClientProc,
      ∀ d ∈ (env.attempt r u).2.net, d.Faultless := by
    intro u hu _ d hd
    rw [attempt_net] at hd
    exact hu d (List.mem_of_mem_tail hd)
  obtain ⟨u, u', hu, hattempt, hserver, -⟩ := retryLoop_some
    (I := fun u : St => ∀ d ∈ u.net, d.Faultless) hstep hnet hloop
  rw [hserver]
  exact attempt_dated hu hattempt hd

/-- What the reply to a fetch says about the server, whatever became of the attempts before it. -/
theorem fetch_answer {p : Path} {m : FetchReply}
    (h : (env.exec (.retried (.fetch p)) s).1 = some m) :
    (∃ t : Timespec, m.time = Int64.ofNat t.tv_nsec) ∧
    ((m.error = -1 ∧ m.size = 0 ∧ m.buf = []) ∨
      (m.error = 0 ∧ m.size = Int32.ofInt m.buf.length ∧
        s.server.fs.look (getServerPath p env.root_path) ≠ none)) := by
  have hloop : env.retryLoop (.fetch p) ((6 - s.client.retries).toNat + 1) s =
      (some m, (env.exec (.retried (.fetch p)) s).2) := Prod.ext h rfl
  obtain ⟨u, u', hu, hattempt, -⟩ := retryLoop_some
    (I := fun u : St => u.server.fs.look = s.server.fs.look)
    (fun u hu c => (attempt_look (r := .fetch p) trivial u).trans hu) rfl hloop
  obtain ⟨x, v, a, -, hserve, hok, rfl, -⟩ := attempt_some hattempt
  obtain ⟨ha, -⟩ := Prod.mk.inj hserve
  have hreply := Server.afsFetch_reply (Prod.ext ha rfl) hok
  rw [← hu]
  exact hreply

theorem getattr_answer {p : Path} {a : GetattrRes}
    (h : (env.exec (.retried (.getattr p)) s).1 = some a) : 0 ≤ a.mtime.toInt := by
  have hloop : env.retryLoop (.getattr p) ((6 - s.client.retries).toNat + 1) s =
      (some a, (env.exec (.retried (.getattr p)) s).2) := Prod.ext h rfl
  obtain ⟨u, u', -, hattempt, -⟩ := retryLoop_some (I := fun _ : St => True)
    (fun _ _ _ => trivial) trivial hloop
  obtain ⟨x, v, b, -, hserve, -, rfl, -⟩ := attempt_some hattempt
  obtain ⟨hb, -⟩ := Prod.mk.inj hserve
  exact Server.afsGetattr_reply (Prod.ext hb rfl)

end Env

end Afs
