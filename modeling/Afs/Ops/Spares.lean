import Afs.Core.Contents
import Afs.Ops.Sends

/-!
# Requests that keep a file of the server

Only a store and an unlink of a path change the bytes of its file at the server. Every other
request keeps them, whatever fails while it is handled, and so does a client operation that sends
only such requests.
-/

namespace Posix

/-- The call of a process spares the file. -/
def ProcCmd.Spares (q : Path) : ProcCmd → Prop
  | .sys c => c.Spares q
  | .errno => True

theorem ProcCmd.exec_has {q : Path} {b : Bytes} {c : ProcCmd} {s : Proc} (hc : c.Spares q)
    (h : s.fs.Has q b) : (c.exec s).2.fs.Has q b := by
  cases c with
  | sys c => exact Sys.exec_has hc h
  | errno => exact h

end Posix

namespace Afs

open Posix Interaction

/-- The path whose bytes a request changes. -/
def Request.rewrites : Request → Option Path
  | .store r => some r.path
  | .unlink path => some path
  | .create _ | .getattr _ | .chmod .. | .mkdir .. | .rmdir _ | .fetch _ | .ls _ => none

/-- The request changes the bytes of no file under the name `q` at the server. -/
def Request.Spares (root_path q : Path) (r : Request) : Prop :=
  ∀ path, r.rewrites = some path → getServerPath path root_path ≠ q

namespace Server

variable {junk : Junk} {root_path q : Path} {b : Bytes} {s : Proc}

private theorem errorReply_uses {p : Prog procSig Int} (hp : p.Uses (ProcCmd.Spares q)) :
    (errorReply p).Uses (ProcCmd.Spares q) := by
  refine Prog.Uses.bind hp fun r => ?_
  split
  · exact Prog.Uses.call trivial fun _ => trivial
  · exact trivial

/-- Every handler but the one of a store makes only calls that spare the file. -/
private theorem handle_uses {r : Request} (hr : r.Spares root_path q) (hstore : ∀ x, r ≠ .store x) :
    (handle junk root_path r).Uses (ProcCmd.Spares q) := by
  cases r with
  | create path =>
      refine Prog.Uses.call nofun fun fd => ?_
      split
      · exact Prog.Uses.call trivial fun _ => trivial
      · exact Prog.Uses.call trivial fun _ => Prog.Uses.call trivial fun _ => trivial
  | store x => exact absurd rfl (hstore x)
  | getattr path =>
      refine Prog.Uses.call trivial fun res => ?_
      split
      · exact Prog.Uses.call trivial fun _ => trivial
      · exact trivial
  | unlink path => exact errorReply_uses (.one (hr path rfl))
  | chmod path mode => exact errorReply_uses (.one trivial)
  | rmdir path => exact errorReply_uses (.one trivial)
  | mkdir path mode =>
      refine Prog.Uses.call trivial fun res => ?_
      split
      · exact Prog.Uses.call trivial fun _ => trivial
      · exact trivial
  | fetch path =>
      refine Prog.Uses.call nofun fun fd => ?_
      split
      · exact trivial
      · refine .call trivial fun _ => .call trivial fun _ => .call trivial fun _ =>
          .call trivial fun _ => .call trivial fun _ => ?_
        split <;> exact trivial
  | ls path =>
      refine Prog.Uses.call trivial fun dp => ?_
      split <;> exact trivial

/-- A handler that opens another file. -/
private theorem open_has {α : Type} {path : Path} {fl : Flags} {mode : Nat}
    {f : Int → Prog procSig α} (hne : path ≠ q) (h : s.fs.Has q b)
    (hfail : ∀ t : Proc, t.fs.Has q b → ((f (-1)).run ProcCmd.exec t).2.fs.Has q b)
    (hopen : ∀ (fd : Int) (t : Proc), t.fs.Has q b → t.fs.Apart fd q →
      ((f fd).run ProcCmd.exec t).2.fs.Has q b) :
    ((sys (.openF path fl mode) >>= f).run ProcCmd.exec s).2.fs.Has q b := by
  rw [Prog.run_call_bind]
  rcases (Sys.openF path fl mode).exec_cases s with ⟨hr, hs⟩ | ⟨limit, ho⟩
  · simp only [ProcCmd.exec, hr]
    apply hfail
    rw [hs]
    exact h
  · exact hopen _ _ (h.openFile (fun _ => hne) ho) (Fs.openFile_apart hne ho)

/-- A store of another path. -/
private theorem afsStore_has {request : StoreReq}
    (hne : getServerPath request.path root_path ≠ q) (h : s.fs.Has q b) :
    ((afsStore junk root_path request).run ProcCmd.exec s).2.fs.Has q b := by
  refine open_has hne h (fun t ht => ht) fun fd t ht hapart => ?_
  by_cases hfd : fd = -1
  · simp only [hfd, if_true]
    exact ht
  · simp only [hfd, if_false]
    rw [Prog.run_call_bind]
    have hwrite := Sys.exec_write_has ht hapart (request.buf ++ junk.beyond)
      (sizeT request.size.toInt)
    refine Prog.Uses.invariant (A := ProcCmd.Spares q) (I := fun s : Proc => s.fs.Has q b) ?_
      (fun c s hc hs => ProcCmd.exec_has hc hs) hwrite
    exact Prog.Uses.call trivial fun _ => Prog.Uses.call trivial fun _ => trivial

/-- A request that spares a file keeps its bytes, whatever fails meanwhile. -/
theorem handle_has {r : Request} (hr : r.Spares root_path q) (h : s.fs.Has q b) :
    ((handle junk root_path r).run ProcCmd.exec s).2.fs.Has q b := by
  by_cases hstore : ∃ x, r = .store x
  · obtain ⟨x, rfl⟩ := hstore
    exact afsStore_has (hr x.path rfl) h
  · have huses : (handle junk root_path r).Uses (ProcCmd.Spares q) :=
      handle_uses hr fun x hx => hstore ⟨x, hx⟩
    exact Prog.Uses.invariant (I := fun s : Proc => s.fs.Has q b) huses
      (fun c s hc hs => ProcCmd.exec_has hc hs) h

end Server

section

variable {env : Env} {I : Fs → Prop} {s : St} {r : Request}

/-- The handler of the request keeps a property of the server's files, whatever fails in it. -/
def Request.Keeps (root_path : Path) (I : Fs → Prop) (r : Request) : Prop :=
  ∀ junk (v : Proc), I v.fs → I ((Server.handle junk root_path r).run ProcCmd.exec v).2.fs

private theorem Env.attempt_keeps (hr : r.Keeps env.root_path I) (h : I s.server.fs) :
    I (env.attempt r s).2.server.fs := by
  unfold Env.attempt
  split
  · exact hr _ _ h
  · exact hr _ _ h
  · exact hr _ _ h
  · exact h
  · exact h

private theorem Env.retryLoop_keeps (hr : r.Keeps env.root_path I) (n : Nat)
    (h : I s.server.fs) : I (env.retryLoop r n s).2.server.fs := by
  induction n generalizing s with
  | zero => exact h
  | succ n ih =>
      have hattempt := Env.attempt_keeps hr h
      simp only [Env.retryLoop]
      split
      · next heq => rwa [heq] at hattempt
      · next heq =>
        rw [heq] at hattempt
        split
        · exact ih hattempt
        · exact hattempt

/-- A command keeps a property of the server's files that the handlers of its requests keep, whatever
becomes of the attempts. -/
theorem Env.exec_keeps {c : Cmd} (hc : c.Sends (Request.Keeps env.root_path I))
    (h : I s.server.fs) : I (env.exec c s).2.server.fs := by
  cases c with
  | rpc r => exact Env.attempt_keeps hc h
  | retried r => exact Env.retryLoop_keeps hc _ h
  | sys c | errno | get filename | put key value | table | setTable ht => exact h

theorem Env.run_keeps {α : Type} {p : Prog clientSig α}
    (hp : p.Uses (Cmd.Sends (Request.Keeps env.root_path I))) (h : I s.server.fs) :
    I (p.run env.exec s).2.server.fs :=
  Prog.Uses.invariant (I := fun s : St => I s.server.fs) hp (fun _ _ hc hs => Env.exec_keeps hc hs) h

end

section

variable {env : Env} {q : Path} {b : Bytes} {s : St} {r : Request}

theorem Env.serve_has (env : Env) {v : Proc} (hr : r.Spares env.root_path q) (h : v.fs.Has q b)
    (x : Handling) : (env.serve r x v).2.fs.Has q b := by
  have hv : Fs.Has { v with faults := x.faults }.fs q b := h
  exact Server.handle_has hr hv

/-- A command whose requests spare a file of the server keeps its bytes. -/
theorem Env.exec_has {c : Cmd} (hc : c.Sends (Request.Spares env.root_path q))
    (h : s.server.fs.Has q b) : (env.exec c s).2.server.fs.Has q b :=
  Env.exec_keeps (I := fun t => t.Has q b) (hc.mono fun _ hr _ _ hv => Server.handle_has hr hv) h

/-- A program whose requests spare a file of the server keeps its bytes. -/
theorem Env.run_has {α : Type} {p : Prog clientSig α}
    (hp : p.Uses (Cmd.Sends (Request.Spares env.root_path q))) (h : s.server.fs.Has q b) :
    (p.run env.exec s).2.server.fs.Has q b :=
  Prog.Uses.invariant (I := fun s : St => s.server.fs.Has q b) hp
    (fun _ _ hc hs => Env.exec_has hc hs) h

/-- Keeping the bytes goes through a sequence. -/
theorem Env.run_bind_has {α β : Type} {p : Prog clientSig α} {f : α → Prog clientSig β}
    (hp : (p.run env.exec s).2.server.fs.Has q b)
    (hf : ∀ a, (f a).Uses (Cmd.Sends (Request.Spares env.root_path q))) :
    ((p >>= f).run env.exec s).2.server.fs.Has q b := by
  rw [Prog.run_bind]
  split
  · next heq =>
    rw [heq] at hp
    exact Env.run_has (hf _) hp
  · next heq =>
    rw [heq] at hp
    exact hp

/-- A release without the modified flag sends nothing. -/
theorem afsRelease_unflagged (env : Env) (junk : Junk) {p : Path} (cache_path : Path) (fh : Int)
    (h : s.client.ht.get p ≠ modifiedFlag) :
    ∃ t, (Client.afsRelease junk p cache_path fh).run env.exec s = (some 0, t) ∧
      t.server = s.server := by
  unfold Client.afsRelease
  rw [Prog.run_call_bind, Prog.run_call_bind]
  simp only [Env.exec, h, if_false]
  exact ⟨_, rfl, rfl⟩

end

/-- The operation leaves the server's file under `q` alone: it does not unlink it, and it stores it
only by a release that finds the modified flag. -/
def Op.Leaves (root_path q path : Path) (recorded : Int64) : Op → Prop
  | .release _ => recorded = modifiedFlag → getServerPath path root_path ≠ q
  | .unlink => getServerPath path root_path ≠ q
  | _ => True

/-- What such an operation may send, unless it is a release without the flag. -/
private theorem Op.Requests.spares {root_path q path : Path} {recorded : Int64} {op : Op}
    {r : Request} (hop : op.Leaves root_path q path recorded)
    (hflag : ∀ k, op = .release k → recorded = modifiedFlag) (hr : op.Requests path r) :
    r.Spares root_path q := by
  cases op with
  | openF => rcases hr with rfl | rfl <;> exact nofun
  | release k =>
      obtain ⟨x, rfl, rfl⟩ := hr
      intro path hpath
      obtain rfl := Option.some.inj hpath
      exact hop (hflag k rfl)
  | unlink =>
      obtain rfl : r = .unlink path := hr
      intro path hpath
      obtain rfl := Option.some.inj hpath
      exact hop
  | create | getattr | chmod mode | mkdir mode | rmdir | readdir =>
      obtain rfl := hr
      exact nofun
  | read | write | fsync | truncate | chown | utimens => exact hr.elim

/-- Such an operation keeps the bytes of the server's file, whatever fails meanwhile. -/
theorem Op.run_has {env : Env} {q path cache_path : Path} {b : Bytes} {s : St} {op : Op}
    {junk : Junk} {fh : Int} (hop : op.Leaves env.root_path q path (s.client.ht.get path))
    (h : s.server.fs.Has q b) :
    ((op.prog junk path cache_path fh).run env.exec s).2.server.fs.Has q b := by
  by_cases hrelease : ∃ k, op = .release k ∧ s.client.ht.get path ≠ modifiedFlag
  · obtain ⟨k, rfl, hm⟩ := hrelease
    obtain ⟨t, hrun, hserver⟩ := afsRelease_unflagged env junk cache_path fh hm
    simp only [Op.prog, Prog.run_bind, hrun]
    exact hserver ▸ h
  · have hflag : ∀ k, op = .release k → s.client.ht.get path = modifiedFlag := by
      intro k hk
      by_contra hm
      exact hrelease ⟨k, hk, hm⟩
    exact Env.run_has ((op.prog_bounded junk path cache_path fh).mono
      fun c hc => hc.sends.mono fun r hr => Op.Requests.spares hop hflag hr) h

end Afs
