import Afs.Core.Steps
import Afs.Model.System

/-!
# What the operations are put together from

Besides remote calls for its own path, an operation uses descriptors and two names of the cache
directory, those of its copy and of its temporary file. Everything it does to the table and to the
database file is one block, which records a value for its own path.
-/

namespace Posix

/-- The call uses descriptors, or the names of a copy `l` and a temporary file `t` in one of the ways
that operations do. -/
def Sys.Own (l t : Path) : Sys → Prop
  | .openF p .. => p = l ∨ p = t
  | .lstat p | .truncate p _ | .unlink p | .remove p | .rmdir p | .chmod p _ | .lchown p ..
  | .utimens p .. => p = l
  | .rename p q => p = t ∧ q = l
  | .mkdir .. | .readdir _ => False
  | .close _ | .fstat _ | .read .. | .pread .. | .write .. | .pwrite .. | .lseek .. | .ftruncate ..
  | .fsync _ => True

end Posix

namespace Afs

open Posix Interaction

/-- The requests that an operation on `path` may send. -/
def Op.Requests (path : Path) (r : Request) : Op → Prop
  | .create => r = .create path
  | .openF => r = .getattr path ∨ r = .fetch path
  | .release _ => ∃ x : StoreReq, x.path = path ∧ r = .store x
  | .getattr => r = .getattr path
  | .chmod mode => r = .chmod path mode
  | .unlink => r = .unlink path
  | .mkdir mode => r = .mkdir path mode
  | .rmdir => r = .rmdir path
  | .readdir => r = .ls path
  | .read .. | .write .. | .fsync _ | .truncate _ | .chown .. | .utimens .. => False

/-- The commands of an operation outside of the block that records a value. -/
def Cmd.Plain (R : Request → Prop) (l t : Path) : Cmd → Prop
  | .sys c => c.Own l t
  | .rpc r | .retried r => R r
  | .errno | .get _ => True
  | .put .. | .table | .setTable _ => False

/-- The blocks that record a value for `path`. -/
def Client.Records (path cache_path : Path) (b : Prog clientSig Unit) : Prop :=
  ∃ value, b = Client.record path cache_path value

/-- The program is put together from what an operation on `path` may use. -/
def Client.MadeFor {α : Type} (R : Request → Prop) (path cache_path : Path) (p : Prog clientSig α) :
    Prop :=
  p.Made (Cmd.Plain R (getLocalPath path cache_path) (getLocalTmpPath path cache_path))
    (Client.Records path cache_path)

namespace Client

variable {R : Request → Prop} {junk : Junk} {path cache_path : Path} {α : Type}

open Prog (Made)

/-- A value recorded, and the rest of the program. -/
private theorem made_record {value : Int64} {f : Unit → Prog clientSig α}
    (hf : MadeFor R path cache_path (f ())) :
    MadeFor R path cache_path (record path cache_path value >>= f) :=
  Made.block _ f ⟨value, rfl⟩ hf

/-- A result of which a failure returns the error number. -/
private theorem made_errno {f : Int → α} :
    MadeFor R path cache_path (errno >>= fun e => pure (f e)) :=
  Made.call trivial fun _ => Made.ret _

/-- A result that may be the one of a failure. -/
private theorem made_checked {failed : Prop} [Decidable failed] {f : Int → α} {a : α} :
    MadeFor R path cache_path (if failed then errno >>= fun e => pure (f e) else pure a) := by
  split
  · exact made_errno
  · exact Made.ret _

theorem copyToTmp_made {fd : Int} :
    MadeFor R path cache_path (copyToTmp junk (getLocalPath path cache_path) fd) :=
  Made.call rfl fun _ => Made.call (Or.inl rfl) fun _ => Made.call trivial fun _ =>
    Made.call trivial fun _ => Made.call trivial fun _ => Made.ret _

theorem afsWrite_made {buffer : Bytes} {offset : Nat} :
    MadeFor R path cache_path (afsWrite junk path cache_path buffer offset) := by
  unfold afsWrite
  split
  · refine Made.call (Or.inr rfl) fun fd => Made.bind copyToTmp_made fun _ => ?_
    refine Made.call trivial fun ret_code => Made.call trivial fun _ => Made.call trivial fun _ => ?_
    refine Made.call rfl fun _ => Made.call ⟨rfl, rfl⟩ fun _ => made_record ?_
    split
    · exact made_errno
    · exact Made.ret _
  · exact Made.ret _

theorem afsFetch_made (h : R (.fetch path)) : MadeFor R path cache_path (afsFetch path cache_path) := by
  refine Made.call h fun status => ?_
  split
  · exact made_record (Made.ret _)
  · exact made_errno

theorem afsGetattr_made (h : R (.getattr path)) {stats : Stat} :
    MadeFor R path cache_path (afsGetattr path stats) := by
  refine Made.call h fun status => ?_
  split
  · split <;> exact Made.ret _
  · exact made_errno

theorem fetchNewCopy_made (h : R (.fetch path)) {fd : Int} :
    MadeFor R path cache_path (fetchNewCopy junk path cache_path fd) := by
  refine Made.call trivial fun rc => ?_
  split
  · exact made_errno
  · refine Made.bind (afsFetch_made h) fun x => ?_
    split
    split
    · exact Made.ret _
    · exact Made.call trivial fun _ => Made.call trivial fun _ => Made.ret _

theorem openCopy_made (h : R (.getattr path)) :
    MadeFor R path cache_path (openCopy junk path cache_path) := by
  refine Made.call (Or.inl rfl) fun fd => ?_
  split
  · exact Made.call (Or.inl rfl) fun _ => Made.ret _
  · exact Made.bind (afsGetattr_made h) fun x => Made.call trivial fun _ => Made.ret _

theorem afsOpen_made (hg : R (.getattr path)) (hf : R (.fetch path)) {fh : Int} :
    MadeFor R path cache_path (afsOpen junk path cache_path fh) := by
  refine Made.bind (openCopy_made hg) fun x => ?_
  obtain ⟨fd, fetch⟩ := x
  cases fetch with
  | true =>
      refine Made.bind (fetchNewCopy_made hf) fun early => ?_
      cases early with
      | some rc => exact Made.ret _
      | none => exact Made.call rfl fun _ => Made.ret _
  | false => exact Made.call rfl fun _ => Made.ret _

theorem afsStore_made (h : ∀ x : StoreReq, x.path = path → R (.store x)) {buf : Bytes}
    {size : Int32} : MadeFor R path cache_path (afsStore path cache_path buf size) := by
  unfold afsStore
  split
  · exact Made.halt
  · refine Made.call (h _ rfl) fun status => ?_
    split
    · exact made_record (Made.ret _)
    · exact Made.ret _

theorem afsRelease_made (h : ∀ x : StoreReq, x.path = path → R (.store x)) {fh : Int} :
    MadeFor R path cache_path (afsRelease junk path cache_path fh) := by
  refine Made.call rfl fun res => Made.call trivial fun modified => ?_
  split
  · refine Made.call trivial fun rc => Made.call (Or.inl rfl) fun fd => Made.call trivial fun got => ?_
    exact Made.bind (afsStore_made h) fun _ => Made.ret _
  · exact Made.ret _

/-- A request for the server after a local call whose result is ignored. -/
private theorem made_forwarded {c : Sys} {r : Request} {f : Option r.Reply → α}
    (hc : c.Own (getLocalPath path cache_path) (getLocalTmpPath path cache_path)) (hr : R r) :
    MadeFor R path cache_path (sys c >>= fun _ => rpc r >>= fun status => pure (f status)) :=
  Made.call hc fun _ => Made.call hr fun _ => Made.ret _

end Client

open Client in
open Prog (Made) in
/-- Every operation is put together from what it may use. -/
theorem Op.prog_made (junk : Junk) (path cache_path : Path) (fh : Int) (op : Op) :
    MadeFor (fun r => op.Requests path r) path cache_path (op.prog junk path cache_path fh) := by
  cases op with
  | create =>
      refine Made.bind (Made.call (Or.inl rfl) fun fd => ?_) fun _ => Made.ret _
      split
      · exact made_errno
      · refine Made.call rfl fun status => ?_
        split
        · exact made_record (Made.ret _)
        · exact made_errno
  | openF => exact Made.bind (afsOpen_made (Or.inl rfl) (Or.inr rfl)) fun _ => Made.ret _
  | read k size offset =>
      refine Made.bind (Made.call rfl fun _ => Made.call (Or.inl rfl) fun fd => ?_) fun _ => Made.ret _
      refine Made.call trivial fun got => Made.call rfl fun _ => ?_
      split
      · exact made_errno
      · exact Made.ret _
  | write k buffer offset => exact Made.bind afsWrite_made fun _ => Made.ret _
  | release k => exact Made.bind (afsRelease_made fun x hx => ⟨x, hx, rfl⟩) fun _ => Made.ret _
  | getattr =>
      exact Made.bind (afsGetattr_made (R := fun r => Op.getattr.Requests path r) rfl)
        fun _ => Made.ret _
  | fsync k => exact Made.bind (Made.call trivial fun _ => made_checked) fun _ => Made.ret _
  | truncate size | chown uid gid | utimens a b =>
      exact Made.bind (Made.call rfl fun _ => made_checked) fun _ => Made.ret _
  | rmdir => exact Made.bind (made_forwarded (c := .rmdir _) rfl rfl) fun _ => Made.ret _
  | chmod mode => exact Made.bind (made_forwarded (c := .chmod _ _) rfl rfl) fun _ => Made.ret _
  | unlink => exact Made.bind (made_forwarded (c := .unlink _) rfl rfl) fun _ => Made.ret _
  | mkdir mode => exact Made.bind (Made.call rfl fun _ => Made.ret _) fun _ => Made.ret _
  | readdir =>
      refine Made.bind (Made.call rfl fun status => ?_) fun _ => Made.ret _
      split
      · exact Made.ret _
      · exact made_errno

end Afs
