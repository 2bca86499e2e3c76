import Afs.Core.Steps
import Afs.Ops.Attempts
import Afs.Ops.ClientOps
import Afs.Ops.Sends

/-!
# The parts of a write

A write that has bytes rebuilds the copy in the temporary file, puts it in the place of the copy, and
only then records the modified flag. The first two parts are system calls and never end the process.
-/

namespace Afs

open Posix Interaction

namespace Client

/-- The temporary file gets the contents of the copy and then the buffer; the result is the one of
the positioned write. -/
def fillTmp (junk : Junk) (path cache_path : Path) (buffer : Bytes) (offset : Nat) :
    Prog clientSig Int := do
  let fd : Int ← sys (.openF (getLocalTmpPath path cache_path) { creat := true, trunc := true } S_IRWXUG)
  copyToTmp junk (getLocalPath path cache_path) fd
  let ret_code : Int ← sys (.pwrite fd buffer buffer.length offset)
  let _ ← sys (.fsync fd)
  let _ ← sys (.close fd)
  return ret_code

/-- The temporary file takes the place of the copy. -/
def replaceCopy (path cache_path : Path) : Prog clientSig Unit := do
  let _ ← sys (.remove (getLocalPath path cache_path))
  let _ ← sys (.rename (getLocalTmpPath path cache_path) (getLocalPath path cache_path))
  return ()

/-- A write with bytes is its three parts in order. -/
theorem afsWrite_eq {junk : Junk} {path cache_path : Path} {buffer : Bytes} {offset : Nat}
    (hb : buffer ≠ []) :
    afsWrite junk path cache_path buffer offset = (do
      let ret_code ← fillTmp junk path cache_path buffer offset
      replaceCopy path cache_path
      record path cache_path modifiedFlag
      if ret_code = -1 then
        let e ← errno
        return -e
      return ret_code) := by
  have hpos : buffer.length > 0 := List.length_pos_iff.mpr hb
  unfold afsWrite
  rw [if_pos hpos]
  rfl

variable {junk : Junk} {path cache_path : Path} {buffer : Bytes} {offset : Nat}

theorem fillTmp_uses : (fillTmp junk path cache_path buffer offset).Uses
    (Cmd.Plain (fun _ => False) (getLocalPath path cache_path) (getLocalTmpPath path cache_path)) := by
  refine Prog.Uses.call (Or.inr rfl) fun fd => Prog.Uses.bind ?_ fun _ => ?_
  · exact Prog.Uses.call rfl fun _ => Prog.Uses.call (Or.inl rfl) fun _ => Prog.Uses.call trivial
      fun _ => Prog.Uses.call trivial fun _ => Prog.Uses.call trivial fun _ => trivial
  · exact Prog.Uses.call trivial fun _ => Prog.Uses.call trivial fun _ =>
      Prog.Uses.call trivial fun _ => trivial

theorem copyToTmp_total {client_path : Path} {fd : Int} :
    (copyToTmp junk client_path fd).Total :=
  Prog.Total.call fun _ => Prog.Total.call fun _ => Prog.Total.call fun _ =>
    Prog.Total.call fun _ => Prog.Total.call fun _ => trivial

theorem fillTmp_total : (fillTmp junk path cache_path buffer offset).Total :=
  Prog.Total.call fun _ => Prog.Total.bind copyToTmp_total fun _ =>
    Prog.Total.call fun _ => Prog.Total.call fun _ => Prog.Total.call fun _ => trivial

theorem replaceCopy_uses : (replaceCopy path cache_path).Uses
    (Cmd.Plain (fun _ => False) (getLocalPath path cache_path) (getLocalTmpPath path cache_path)) :=
  Prog.Uses.call rfl fun _ => Prog.Uses.call ⟨rfl, rfl⟩ fun _ => trivial

theorem replaceCopy_total : (replaceCopy path cache_path).Total :=
  Prog.Total.call fun _ => Prog.Total.call fun _ => trivial

end Client

section Effects

variable {env : Env} {junk : Junk} {path cache_path l t : Path} {buffer : Bytes} {offset : Nat}
  {s : St} {c : Cmd}

/-- A command that sends nothing and records nothing changes the disk and the error number only. -/
theorem plain_rest (hc : c.Plain (fun _ => False) l t) :
    (env.exec c s).2.client.ht = s.client.ht ∧ (env.exec c s).2.server = s.server ∧
      (env.exec c s).2.net = s.net ∧ (env.exec c s).2.inflight = s.inflight := by
  cases c with
  | rpc r | retried r | put key value | table | setTable ht => exact hc.elim
  | sys c | errno | get filename => exact ⟨rfl, rfl, rfl, rfl⟩

theorem plain_faults (hc : c.Plain (fun _ => False) l t) (h : s.client.proc.faults = []) :
    (env.exec c s).2.client.proc.faults = [] := by
  cases c with
  | rpc r | retried r | put key value | table | setTable ht => exact hc.elim
  | sys c => exact Sys.exec_faults h c
  | errno | get filename => exact h

/-- The command leaves the table. -/
def Cmd.Reads : Cmd → Prop
  | .put .. | .setTable _ => False
  | .sys _ | .errno | .rpc _ | .retried _ | .get _ | .table => True

theorem exec_table (hc : c.Reads) : (env.exec c s).2.client.ht = s.client.ht := by
  cases c with
  | put key value | setTable ht => exact hc.elim
  | rpc r => exact (Env.attempt_client env r s).1.table
  | retried r => exact (Env.retryLoop_client env r ((6 - s.client.retries).toNat + 1) s).table
  | sys c | errno | get filename | table => rfl

/-- A program that records a value at first and none afterwards. -/
theorem record_bind_table {α : Type} {value : Int64} {f : Unit → Prog clientSig α}
    (hf : (f ()).Uses Cmd.Reads) :
    ((Client.record path cache_path value >>= f).run env.exec s).2.client.ht =
      s.client.ht.put (hashKey path) value := by
  have hdump : (Client.dump cache_path).Uses Cmd.Reads := by
    refine Prog.Uses.call trivial fun fptr => ?_
    split
    · exact trivial
    · exact Prog.Uses.call trivial fun _ => Prog.Uses.call trivial fun _ =>
        Prog.Uses.call trivial fun _ => trivial
  have hrest := hdump.bind fun _ => hf
  exact hrest.invariant (I := fun t : St => t.client.ht = s.client.ht.put (hashKey path) value)
    (fun c t hc ht => (exec_table hc).trans ht) rfl

/-- A write with bytes records the flag, whatever fails in it. -/
theorem afsWrite_table (hb : buffer ≠ []) :
    ((Client.afsWrite junk path cache_path buffer offset).run env.exec s).2.client.ht =
      s.client.ht.put (hashKey path) modifiedFlag := by
  have hkeep : ∀ c (u : St), c.Plain (fun _ => False) (getLocalPath path cache_path)
      (getLocalTmpPath path cache_path) → u.client.ht = s.client.ht →
      (env.exec c u).2.client.ht = s.client.ht := fun c u hc hu => (plain_rest hc).1.trans hu
  rw [Client.afsWrite_eq hb]
  obtain ⟨rc, t, hfill, ht⟩ := Client.fillTmp_uses.yields Client.fillTmp_total hkeep rfl
  rw [Prog.run_bind, hfill]
  obtain ⟨_, u, hrep, hu⟩ := Client.replaceCopy_uses.yields Client.replaceCopy_total hkeep ht
  change ((Client.replaceCopy path cache_path >>= _).run env.exec t).2.client.ht = _
  rw [Prog.run_bind, hrep, ← hu]
  refine record_bind_table ?_
  split
  · exact Prog.Uses.call trivial fun _ => trivial
  · exact trivial

end Effects

end Afs
