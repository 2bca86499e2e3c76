import Afs.Ops.Parts

/-!
# What the operations send

Every operation of a client sends requests of few kinds, all for its own path, and most of its
commands concern the client's process alone. A part of a program that sends nothing runs the same
whatever the server and the network do.
-/

namespace Afs

open Posix Interaction

/-- The requests that a command sends satisfy `R`. -/
def Cmd.Sends (R : Request → Prop) : Cmd → Prop
  | .rpc r | .retried r => R r
  | .sys _ | .errno | .get _ | .put .. | .table | .setTable _ => True

theorem Cmd.Sends.mono {R R' : Request → Prop} {c : Cmd} (h : c.Sends R) (himp : ∀ r, R r → R' r) :
    c.Sends R' := by
  cases c with
  | rpc r | retried r => exact himp r h
  | _ => trivial

/-- The command sends only requests that satisfy `R`, makes no directory, and removes no name but
`l`. -/
def Cmd.Bounded (R : Request → Prop) (l : Path) : Cmd → Prop
  | .rpc r | .retried r => R r
  | .sys (.mkdir ..) => False
  | .sys (.rmdir p) | .sys (.remove p) => p = l
  | .sys _ | .errno | .get _ | .put .. | .table | .setTable _ => True

theorem Cmd.Bounded.sends {R : Request → Prop} {l : Path} {c : Cmd} (h : c.Bounded R l) :
    c.Sends R := by
  cases c with
  | rpc r | retried r => exact h
  | _ => trivial

namespace Client

variable {R : Request → Prop} {junk : Junk} {path cache_path l : Path}

open Prog (Uses)

theorem dump_bounded : (dump cache_path).Uses (Cmd.Bounded R l) := by
  refine Uses.call trivial fun fd => ?_
  split
  · exact trivial
  · exact Uses.call trivial fun _ => Uses.call trivial fun _ => Uses.call trivial fun _ => trivial

theorem record_bounded {value : Int64} : (record path cache_path value).Uses (Cmd.Bounded R l) :=
  Uses.call trivial fun _ => dump_bounded

theorem record_sends {value : Int64} : (record path cache_path value).Uses (Cmd.Sends R) :=
  (record_bounded (l := [])).mono fun _ h => h.sends

theorem main_bounded : (main cache_path).Uses (Cmd.Bounded R l) := by
  refine Uses.call trivial fun fd => Uses.call trivial fun _ => Uses.call trivial fun fptr => ?_
  split
  · exact Uses.one trivial
  · refine Uses.call trivial fun res => Uses.call trivial fun got => ?_
    split
    · exact trivial
    · exact Uses.call trivial fun _ => Uses.call trivial fun _ => trivial

theorem main_sends : (main cache_path).Uses (Cmd.Sends R) :=
  (main_bounded (l := [])).mono fun _ h => h.sends

/-- What is put together for an operation sends what the operation may send. -/
theorem MadeFor.sends {α : Type} {p : Prog clientSig α} (hp : MadeFor R path cache_path p) :
    p.Uses (Cmd.Sends R) := by
  refine hp.uses (fun c hc => ?_) ?_
  · cases c with
    | rpc r | retried r => exact hc
    | _ => trivial
  · rintro b ⟨value, rfl⟩
    exact record_sends

end Client

/-- Every operation sends only its own kinds of requests, for its own path, and takes away no name
but the one of its own copy. -/
theorem Op.prog_bounded (junk : Junk) (path cache_path : Path) (fh : Int) (op : Op) :
    (op.prog junk path cache_path fh).Uses
      (Cmd.Bounded (fun r => op.Requests path r) (getLocalPath path cache_path)) := by
  refine (op.prog_made junk path cache_path fh).uses (fun c hc => ?_) ?_
  · cases c with
    | sys c =>
        cases c with
        | rmdir p | remove p => exact hc
        | mkdir p mode => exact hc
        | _ => trivial
    | rpc r | retried r => exact hc
    | _ => trivial
  · rintro b ⟨value, rfl⟩
    exact Client.record_bounded

section Local

variable {env env' : Env} {α : Type} {p : Prog clientSig α} {s t : St}

/-- A command that sends nothing depends on the client alone and changes nothing else. -/
private theorem exec_local {c : Cmd} (hc : c.Sends fun _ => False) (h : s.client = t.client) :
    (env.exec c s).1 = (env'.exec c t).1 ∧
      (env.exec c s).2 = { s with client := (env'.exec c t).2.client } := by
  cases c with
  | rpc r | retried r => exact hc.elim
  | sys c => simp only [Env.exec, h, and_self]
  | errno => exact ⟨congrArg (fun c => c.proc.errno) h, by simp only [Env.exec, ← h]⟩
  | get filename => exact ⟨congrArg (fun c => c.ht.get filename) h, by simp only [Env.exec, ← h]⟩
  | put key value => exact ⟨rfl, by simp only [Env.exec, h]⟩
  | table => exact ⟨congrArg (fun c => c.ht) h, by simp only [Env.exec, ← h]⟩
  | setTable ht => exact ⟨rfl, by simp only [Env.exec, h]⟩

/-- A program that sends nothing runs the same beside any server and any network. -/
theorem Env.run_local (hp : p.Uses (Cmd.Sends fun _ => False)) (h : s.client = t.client) :
    p.run env.exec s = ((p.run env'.exec t).1, { s with client := (p.run env'.exec t).2.client }) := by
  have hrun : (p.run env.exec s).1 = (p.run env'.exec t).1 ∧ (p.run env.exec s).2 =
      { s with client := (p.run env'.exec t).2.client } := by
    refine hp.related (R := fun s' (t' : St) => s' = { s with client := t'.client })
      (fun c s' t' hc hs => ?_) (by rw [← h])
    subst hs
    exact exec_local hc rfl
  exact Prod.ext hrun.1 hrun.2

end Local

end Afs
