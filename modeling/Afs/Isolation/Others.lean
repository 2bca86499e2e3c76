import Afs.Core.Elsewhere
import Afs.Isolation.Files
import Afs.Ops.Opening
import Afs.Ops.Replies
import Afs.Ops.Spares

/-!
# Operations on other paths

What an operation on one path leaves of another file: at the server all of it, and at the client its
copy, unless the copy has the name of the operation's temporary file or of the database file. Which
copies exist is changed by fewer operations than what they hold.
-/

namespace Posix

/-- A call of a process that does not name the path and writes through no descriptor. -/
theorem ProcCmd.exec_same {x : Path} {c : Sys} (hc : c.Elsewhere x) (hn : c.Named) {s u : Proc}
    (h : Fs.Same x s.fs u.fs) : Fs.Same x s.fs (ProcCmd.exec (.sys c) u).2.fs :=
  h.trans (Sys.exec_same hc hn u)

end Posix

namespace Afs

open Posix Interaction

namespace Server

variable {junk : Junk} {root_path q : Path} {s : Proc}

/-- A store of another path leaves the file, whatever fails in it. -/
theorem afsStore_same {request : StoreReq} (hne : getServerPath request.path root_path ≠ q)
    (s : Proc) : Fs.Same q s.fs ((afsStore junk root_path request).run ProcCmd.exec s).2.fs := by
  unfold afsStore
  rw [Prog.run_call_bind]
  have hopen : Fs.Same q s.fs _ := ProcCmd.exec_same (c := .openF (getServerPath request.path root_path)
    { creat := true, trunc := true } S_IRWXUG) hne trivial (Fs.Same.refl q s.fs)
  split
  · exact hopen
  · next hfd =>
    have hapart := (Sys.exec_open_apart hne { creat := true, trunc := true } S_IRWXUG s).resolve_left hfd
    have hwrite := hopen.trans (Sys.exec_write_same hapart (request.buf ++ junk.beyond)
      (sizeT request.size.toInt))
    have hstat := ProcCmd.exec_same (c := .lstat (getServerPath request.path root_path)) hne trivial
      hwrite
    exact ProcCmd.exec_same (c := .close _) trivial trivial hstat

/-- So does a change of another path's permission bits. -/
theorem afsChmod_same {path : Path} (hne : getServerPath path root_path ≠ q) (mode : UInt32)
    (s : Proc) : Fs.Same q s.fs ((afsChmod root_path path mode).run ProcCmd.exec s).2.fs := by
  unfold afsChmod errorReply
  rw [Prog.run_call_bind]
  have hchmod : Fs.Same q s.fs _ := ProcCmd.exec_same
    (c := .chmod (getServerPath path root_path) mode.toNat) hne trivial (Fs.Same.refl q s.fs)
  split <;> exact hchmod

end Server

/-- The request asks for attributes or bytes, or is a store or a change of permission bits of another
path. -/
def Request.Beside (root_path q : Path) : Request → Prop
  | .getattr _ | .fetch _ => True
  | .store r => getServerPath r.path root_path ≠ q
  | .chmod path _ => getServerPath path root_path ≠ q
  | .create _ | .unlink _ | .mkdir .. | .rmdir _ | .ls _ => False

/-- Such a request leaves the file. -/
theorem Request.Beside.keeps {root_path q : Path} {r : Request} (hr : r.Beside root_path q)
    (x : Option File) : r.Keeps root_path fun t => t.look q = x := by
  intro junk v hv
  cases r with
  | getattr path =>
      exact (Server.afsGetattr_readsOnly.invariant (I := fun u : Proc => u.fs.look = v.fs.look)
        (fun c u hc hu => (ProcCmd.exec_readsOnly hc u).trans hu) rfl) ▸ hv
  | fetch path =>
      exact (Server.afsFetch_readsOnly.invariant (I := fun u : Proc => u.fs.look = v.fs.look)
        (fun c u hc hu => (ProcCmd.exec_readsOnly hc u).trans hu) rfl) ▸ hv
  | store x => exact (Server.afsStore_same hr v).look.trans hv
  | chmod path mode => exact (Server.afsChmod_same hr mode v).look.trans hv
  | create path | unlink path | mkdir path mode | rmdir path | ls path => exact hr.elim

/-- The operation opens, writes or releases a file, or changes its length or its attributes. -/
def Op.Alters : Op → Prop
  | .openF | .write .. | .release _ | .truncate _ | .chmod _ | .chown .. | .utimens .. => True
  | .create | .read .. | .fsync _ | .getattr | .unlink | .mkdir _ | .rmdir | .readdir => False

section Programs

variable {env : Env} {junk : Junk} {p q dir x : Path} {fh : Int} {op : Op} {s : St}

/-- Such an operation leaves the server's file, unless it is a release or a change of permission bits
of its path. -/
theorem Op.run_served (hop : op.Alters)
    (hne : (∃ k, op = .release k) ∨ (∃ m, op = .chmod m) → getServerPath p env.root_path ≠ q) :
    ((op.prog junk p dir fh).run env.exec s).2.server.fs.look q = s.server.fs.look q := by
  refine Env.run_keeps (I := fun t => t.look q = s.server.fs.look q) ?_ rfl
  refine (op.prog_bounded junk p dir fh).mono fun c hc => hc.sends.mono fun r hr => ?_
  have hbeside : r.Beside env.root_path q := by
    cases op with
    | openF => rcases hr with rfl | rfl <;> exact trivial
    | release k =>
        obtain ⟨y, rfl, rfl⟩ := hr
        exact hne (Or.inl ⟨k, rfl⟩)
    | chmod mode =>
        obtain rfl := hr
        exact hne (Or.inr ⟨mode, rfl⟩)
    | write | truncate | chown | utimens => exact hr.elim
    | create | read | fsync | getattr | unlink | mkdir | rmdir | readdir => exact hop.elim
  exact hbeside.keeps _

/-- The command does not name the path on the client's disk and writes through no descriptor there. -/
def Cmd.Aside (x : Path) : Cmd → Prop
  | .sys c => c.Elsewhere x ∧ c.Named
  | .errno | .rpc _ | .retried _ | .get _ | .put .. | .table | .setTable _ => True

theorem Env.exec_same (env : Env) {c : Cmd} (hc : c.Aside x) (s : St) :
    Fs.Same x s.disk (env.exec c s).2.disk := by
  cases c with
  | sys c => exact Sys.exec_same hc.1 hc.2 s.client.proc
  | rpc r =>
      change Fs.Same x s.disk (env.attempt r s).2.client.proc.fs
      rw [(Env.attempt_client env r s).1.fs]
      exact Fs.Same.refl x _
  | retried r =>
      change Fs.Same x s.disk (env.retryLoop r _ s).2.client.proc.fs
      rw [(Env.retryLoop_client env r _ s).fs]
      exact Fs.Same.refl x _
  | errno | get filename | put key value | table | setTable ht => exact Fs.Same.refl x _

/-- A client's write through a descriptor of another file. -/
theorem Env.exec_write_same (env : Env) {fd : Int} (ha : s.disk.Apart fd x) (mem : Bytes) (n : Nat) :
    Fs.Same x s.disk (env.exec (.sys (.write fd mem n)) s).2.disk := Sys.exec_write_same ha mem n

/-- Dumping the table leaves every other file. -/
theorem dump_same (hx : getLocalPath databasePath dir ≠ x) (s : St) :
    Fs.Same x s.disk ((Client.dump dir).run env.exec s).2.disk := by
  unfold Client.dump
  have haside : (Cmd.sys (.openF (getLocalPath databasePath dir) { creat := true, trunc := true }
    0o666)).Aside x := ⟨hx, trivial⟩
  have hopen : Fs.Same x s.disk (env.exec (.sys (.openF (getLocalPath databasePath dir)
    { creat := true, trunc := true } 0o666)) s).2.disk := env.exec_same haside s
  rw [Prog.run_call_bind]
  split
  · exact hopen
  · next hfd =>
    have hapart := (Sys.exec_open_apart hx { creat := true, trunc := true } 0o666
      s.client.proc).resolve_left hfd
    have hwrite := hopen.trans (env.exec_write_same hapart (dumpText s.client.ht)
      (dumpText s.client.ht).length)
    have hclose : (Cmd.sys (.close (env.exec (.sys (.openF (getLocalPath databasePath dir)
      { creat := true, trunc := true } 0o666)) s).1)).Aside x := ⟨trivial, trivial⟩
    dsimp only
    rw [Prog.run_call_bind, Prog.run_call_bind, Prog.run_call_bind, Prog.pure_eq, Prog.run_ret]
    exact hwrite.trans (env.exec_same hclose _)

/-- A release of another path leaves every file but the database file. -/
theorem afsRelease_same (hx : getLocalPath databasePath dir ≠ x) (hl : getLocalPath p dir ≠ x)
    (s : St) : Fs.Same x s.disk ((Client.afsRelease junk p dir fh).run env.exec s).2.disk := by
  have hstore : ∀ buf size, (Client.afsStore p dir buf size).Made (Cmd.Aside x)
      (Client.Records p dir) := by
    intro buf size
    unfold Client.afsStore
    split
    · exact Prog.Made.halt
    · refine Prog.Made.call trivial fun status => ?_
      split
      · exact Prog.Made.block _ _ ⟨_, rfl⟩ (Prog.Made.ret _)
      · exact Prog.Made.ret _
  have hmade : (Client.afsRelease junk p dir fh).Made (Cmd.Aside x) (Client.Records p dir) := by
    refine Prog.Made.call ⟨hl, trivial⟩ fun res => Prog.Made.call trivial fun modified => ?_
    split
    · refine Prog.Made.call ⟨trivial, trivial⟩ fun rc => Prog.Made.call ⟨hl, trivial⟩ fun fd =>
        Prog.Made.call ⟨trivial, trivial⟩ fun got => ?_
      exact (hstore _ _).bind fun _ => Prog.Made.ret _
    · exact Prog.Made.ret _
  refine hmade.invariant (I := fun t : St => Fs.Same x s.disk t.disk)
    (fun c t hc ht => ht.trans (env.exec_same hc t)) ?_ (Fs.Same.refl x s.disk)
  rintro b t ⟨value, rfl⟩ ht
  exact ht.trans (dump_same hx (t.withTable (t.client.ht.put (hashKey p) value)))

/-- While the client's calls do not fail, an open of another path leaves every file but the database
file. -/
theorem afsOpen_look (hf : s.client.proc.faults = []) (hdir : FlatDir dir s.disk)
    (hx : getLocalPath databasePath dir ≠ x) (hl : getLocalPath p dir ≠ x) :
    Prog.Yields env.exec (Client.afsOpen junk p dir fh) s fun _ t =>
      t.disk.look x = s.disk.look x := by
  have hmem : x ∉ [getLocalPath p dir, getLocalPath databasePath dir] := by
    simp only [List.mem_cons, List.not_mem_nil, or_false, not_or]
    exact ⟨Ne.symm hl, Ne.symm hx⟩
  by_cases h : s.Fetches env junk p dir
  · cases hm : (s.fetchedReply env p dir).1 with
    | some m =>
        refine (afsOpen_answered hf hdir h hm).mono ?_
        rintro r t ⟨-, he, -⟩
        exact he.disk.look x hmem
    | none =>
        refine (afsOpen_unanswered hf h hm).mono ?_
        rintro r t ⟨he, -⟩
        exact he.disk.look x fun hm => hmem (List.mem_append_left [_] hm)
  · by_cases hc : s.HasCopy p dir
    · have hn : ¬ s.Newer env junk p := by simpa only [St.Fetches, hc, if_true] using h
      refine (afsOpen_keeps hf hc hn).mono ?_
      rintro r t ⟨-, he, -⟩
      exact he.disk.look x List.not_mem_nil
    · have hn : ¬ s.CanCreate p dir := by simpa only [St.Fetches, hc, if_false] using h
      refine (afsOpen_stuck hf hc hn).mono ?_
      rintro r t ⟨-, hd, -⟩
      exact congrFun (congrArg Fs.look hd) x

/-- A command of an operation on another path leaves what a name stands for. -/
theorem Env.exec_tree (env : Env) {R : Request → Prop} {l tmp : Path} (hl : l ≠ x) (ht : tmp ≠ x) {c : Cmd}
    (hc : c.Plain R l tmp) (s : St) : (env.exec c s).2.disk.tree x = s.disk.tree x := by
  cases c with
  | sys c =>
      have hother : c.Elsewhere x := by
        cases c with
        | openF p fl mode => exact hc.elim (fun he => he ▸ hl) fun he => he ▸ ht
        | rename p q => exact ⟨hc.1 ▸ ht, hc.2 ▸ hl⟩
        | mkdir p mode | readdir p => exact hc.elim
        | lstat p | truncate p n | unlink p | remove p | rmdir p | chmod p mode | lchown p uid gid
        | utimens p a b =>
            obtain rfl := hc
            exact hl
        | _ => trivial
      exact Sys.exec_tree hother s.client.proc
  | rpc r =>
      have haside : (Cmd.rpc r).Aside x := trivial
      exact (env.exec_same haside s).tree
  | retried r =>
      have haside : (Cmd.retried r).Aside x := trivial
      exact (env.exec_same haside s).tree
  | errno | get filename => rfl
  | put key value | table | setTable ht => exact hc.elim

/-- Every operation on another path leaves what the name of a copy stands for, whatever fails. -/
theorem Op.run_tree (hl : getLocalPath p dir ≠ x) (ht : getLocalTmpPath p dir ≠ x)
    (hx : getLocalPath databasePath dir ≠ x) (s : St) :
    ((op.prog junk p dir fh).run env.exec s).2.disk.tree x = s.disk.tree x := by
  refine (op.prog_made junk p dir fh).invariant (I := fun t : St => t.disk.tree x = s.disk.tree x)
    (fun c t hc h => (env.exec_tree hl ht hc t).trans h) ?_ rfl
  rintro b t ⟨value, rfl⟩ h
  exact (dump_same hx (St.withTable t _)).tree.trans h

end Programs

end Afs
