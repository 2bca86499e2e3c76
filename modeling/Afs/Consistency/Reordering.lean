import Afs.Core.Commute
import Afs.Ops.Sends
import Afs.Ops.Script

/-!
# Operations that change places

Reading, writing and the other operations that send nothing concern one client alone, and a client
process starts from its own disk. Such events of one client may change places with all events of others,
so that a run is determined by what every client does and by the order in which the server is reached.
-/

namespace Afs

open Posix Interaction Transition

/-- What belongs to one client: its process, its open sessions, and what its operations handed back. -/
structure Own where
  proc : ClientProc
  up : Bool
  sessions : Path → List Session
  replies : List (Option Result)

/-- The system with what the operations of every client have handed back. -/
structure Diary (ι : Type) where
  world : World ι
  replies : ι → List (Option Result)

/-- Whether an operation sends requests. -/
def Op.remote : Op → Bool
  | .read .. | .write .. | .fsync _ | .truncate _ | .chown .. | .utimens .. => false
  | _ => true

/-- Who meets an event: its client, and the server, which stands for `none`. -/
def Event.touches {ι : Type} [DecidableEq ι] : Event ι → Option ι → Bool
  | .call c, none => c.op.remote
  | .call c, some i => decide (c.client = i)
  | .start .., none => false
  | .start j .., some i => decide (j = i)
  | .late .., none => true
  | .late .., some _ => false

theorem Event.exists_touches {ι : Type} [DecidableEq ι] (e : Event ι) : ∃ k, e.touches k = true := by
  cases e with
  | call c => exact ⟨some c.client, decide_eq_true rfl⟩
  | start i now junk faults => exact ⟨some i, decide_eq_true rfl⟩
  | late k now h => exact ⟨none, rfl⟩

/-- An operation that is not remote sends nothing. -/
theorem Op.prog_local {op : Op} (h : op.remote = false) (junk : Junk) (path cache_path : Path) (fh : Int) :
    (op.prog junk path cache_path fh).Uses (Cmd.Sends fun _ => False) := by
  refine (op.prog_bounded junk path cache_path fh).mono fun c hc => hc.sends.mono fun r hr => ?_
  cases op with
  | read | write | fsync | truncate | chown | utimens => exact hr
  | _ => cases h

namespace Diary

variable {ι : Type} [DecidableEq ι] (P : Params ι) (d : Diary ι)

/-- The part of one client. -/
def own (i : ι) : Own := ⟨d.world.clients i, d.world.up i, d.world.sessions i, d.replies i⟩

/-- Another part for one client. -/
def put (i : ι) (o : Own) : Diary ι where
  world := { d.world with
    clients := Function.update d.world.clients i o.proc
    up := Function.update d.world.up i o.up
    sessions := Function.update d.world.sessions i o.sessions }
  replies := Function.update d.replies i o.replies

/-- One event. -/
def step : Event ι → Option (Diary ι)
  | .call c => (d.world.perform P c).map fun out =>
    ⟨out.2, Function.update d.replies c.client (d.replies c.client ++ [out.1])⟩
  | e => (d.world.step P e).map fun w => ⟨w, d.replies⟩

/-- The system without the server's clock, which every event sets anew. -/
def still : Diary ι :=
  { d with world := { d.world with
      server := { d.world.server with fs := { d.world.server.fs with clock := .zero } } } }

variable {P d}

theorem still_step (e : Event ι) : d.still.step P e = d.step P e := by
  cases e with
  | call c => rfl
  | start i now junk faults => rfl
  | late k now h => rfl

variable {d' : Diary ι} {i j : ι} {o : Own} {e f : Event ι}

/-- The end of a program of another client. -/
private theorem finish_put (hj : j ≠ i) {p : Path}
    {next : Result → Option Bytes → List Session → List Session} (out : Option Result × St) :
    (d.put i o).world.finish P j p next out =
      ((Diary.mk (d.world.finish P j p next out) d.replies).put i o).world := by
  obtain ⟨r, t⟩ := out
  have hc : ∀ x : ClientProc, Function.update (Function.update d.world.clients i o.proc) j x =
      Function.update (Function.update d.world.clients j x) i o.proc :=
    fun x => Function.update_comm hj.symm ..
  have hu : ∀ x : Bool, Function.update (Function.update d.world.up i o.up) j x =
      Function.update (Function.update d.world.up j x) i o.up := fun x => Function.update_comm hj.symm ..
  have hs : ∀ x : Path → List Session, Function.update (Function.update d.world.sessions i o.sessions) j x =
      Function.update (Function.update d.world.sessions j x) i o.sessions :=
    fun x => Function.update_comm hj.symm ..
  cases r with
  | none => simp only [World.finish, put, hc, hu, hs]
  | some r =>
      simp only [World.finish, put, hc, hu, hs, World.cached, World.disk, Function.update_of_ne hj,
        Function.update_self]

/-- An event that a client does not meet goes the same way with another part for this client. -/
theorem put_step (he : e.touches (some i) = false) :
    (d.put i o).step P e = (d.step P e).map fun x => x.put i o := by
  cases e with
  | call c =>
      have hj : c.client ≠ i := of_decide_eq_false he
      have hup : (d.put i o).world.up c.client = d.world.up c.client := Function.update_of_ne hj ..
      have hhandle : (d.put i o).world.handle c = d.world.handle c := by
        simp only [World.handle, put, Function.update_of_ne hj]
      have hstate : (d.put i o).world.state c.client c.now c.faults c.net =
          d.world.state c.client c.now c.faults c.net := by
        simp only [World.state, put, Function.update_of_ne hj, World.serverAt]
      have hreplies : ∀ x, Function.update (d.put i o).replies c.client
          ((d.put i o).replies c.client ++ [x]) =
            Function.update (Function.update d.replies c.client (d.replies c.client ++ [x])) i o.replies := by
        intro x
        simp only [put, Function.update_of_ne hj]
        exact Function.update_comm hj.symm ..
      simp only [step, World.perform, hup, hhandle, hstate, finish_put hj]
      split
      · cases d.world.handle c with
        | none => rfl
        | some fh =>
            simp only [Option.map_some, hreplies]
            rfl
      · rfl
  | start j now junk faults =>
      have hj : j ≠ i := of_decide_eq_false he
      have hfresh : ({ (d.put i o).world with
          clients := Function.update (d.put i o).world.clients j ((d.put i o).world.fresh j)
          sessions := Function.update (d.put i o).world.sessions j fun _ => [] } : World ι) =
          ((Diary.mk { d.world with
            clients := Function.update d.world.clients j (d.world.fresh j)
            sessions := Function.update d.world.sessions j fun _ => [] } d.replies).put i o).world := by
        have hclients : ∀ x : ClientProc, Function.update (Function.update d.world.clients i o.proc) j x =
            Function.update (Function.update d.world.clients j x) i o.proc :=
          fun x => Function.update_comm hj.symm ..
        have hsessions : ∀ x : Path → List Session,
            Function.update (Function.update d.world.sessions i o.sessions) j x =
              Function.update (Function.update d.world.sessions j x) i o.sessions :=
          fun x => Function.update_comm hj.symm ..
        simp only [put, World.fresh, World.disk, Function.update_of_ne hj, hclients, hsessions]
      simp only [step, World.step, Option.map_some, hfresh, finish_put hj]
      congr 1
      simp only [put, World.state, World.serverAt, Function.update_of_ne hj]
  | late k now h =>
      simp only [step, World.step, put, World.serverAt]
      cases d.world.inflight[k]? with
      | none => rfl
      | some r => rfl

/-- An event leaves the part of a client that it does not meet. -/
theorem own_of_step (he : e.touches (some i) = false) (hs : d.step P e = some d') : d'.own i = d.own i := by
  have hput : d.put i (d.own i) = d := by
    simp only [put, own, Function.update_eq_self]
  have hstep := put_step (P := P) (d := d) (o := d.own i) he
  rw [hput, hs, Option.map_some] at hstep
  have hd : d' = d'.put i (d.own i) := Option.some.inj hstep
  rw [hd]
  simp only [own, put, Function.update_self]

/-- A program that sends nothing does the same to its client in every system where the client is the
same, and nothing to the rest. -/
private theorem finish_local {p : Prog clientSig Result} (env : Env) (q : Path) (now : Timespec)
    (faults : List Fault) (net : List Delivery) (next : Result → Option Bytes → List Session → List Session)
    (hp : p.Uses (Cmd.Sends fun _ => False)) (w w' : World ι) (hc : w.clients i = w'.clients i)
    (hsess : w.sessions i = w'.sessions i) (ρ ρ' : ι → List (Option Result)) (l : List (Option Result)) :
    (p.run env.exec (w.state i now faults net)).1 = (p.run env.exec (w'.state i now faults net)).1 ∧
      (Diary.mk (w.finish P i q next (p.run env.exec (w.state i now faults net)))
        (Function.update ρ i l)).still =
        ((Diary.mk w ρ).put i ((Diary.mk (w'.finish P i q next (p.run env.exec (w'.state i now faults net)))
          (Function.update ρ' i l)).own i)).still := by
  have hclient : (w.state i now faults net).client = (w'.state i now faults net).client := by
    simp only [World.state, hc]
  have hrun : p.run env.exec (w.state i now faults net) = ((p.run env.exec (w'.state i now faults net)).1,
      { w.state i now faults net with client := (p.run env.exec (w'.state i now faults net)).2.client }) :=
    Env.run_local hp hclient
  rw [hrun]
  generalize p.run env.exec (w'.state i now faults net) = out
  obtain ⟨r, t⟩ := out
  refine ⟨rfl, ?_⟩
  cases r with
  | none =>
      simp only [still, put, own, World.finish, World.state, World.serverAt, Function.update_self]
  | some r =>
      simp only [still, put, own, World.finish, World.state, World.serverAt, Function.update_self, World.cached,
        World.disk, hsess]

/-- A local event does the same to its client in every system where the client is the same, and nothing
to the rest. -/
theorem local_step (hi : e.touches (some i) = true) (hn : e.touches none = false) (h : d.own i = d'.own i) :
    (d.step P e).map still = (d'.step P e).map fun x => (d.put i (x.own i)).still := by
  obtain ⟨hproc, hup, hsess, hrep⟩ := Own.mk.inj h
  cases e with
  | call c =>
      obtain rfl : c.client = i := of_decide_eq_true hi
      have hlocal : c.op.remote = false := hn
      have hhandle : d.world.handle c = d'.world.handle c := by
        simp only [World.handle, hsess]
      simp only [step, World.perform, hup, hhandle]
      split
      · cases d'.world.handle c with
        | none => rfl
        | some fh =>
            simp only [Option.map_some]
            have hfinish := @finish_local _ _ P c.client _ ⟨P.root_path, c.junk⟩ c.path c.now c.faults c.net
              (fun r b l => c.op.sessions b r l)
              (Op.prog_local hlocal c.junk c.path (P.cache_path c.client) fh) d.world d'.world hproc hsess
              d.replies d'.replies
            refine congrArg some ?_
            rw [(hfinish []).1, hrep]
            exact (hfinish _).2
      · rfl
  | start j now junk faults =>
      obtain rfl : j = i := of_decide_eq_true hi
      have hfresh : d.world.fresh j = d'.world.fresh j := by
        simp only [World.fresh, World.disk, hproc]
      have hmain : (Client.main (P.cache_path j) >>= fun _ => (pure { ret := 0 } : Prog clientSig Result)).Uses
          (Cmd.Sends fun _ => False) := Prog.Uses.bind Client.main_sends fun _ => trivial
      have hfinish := (@finish_local _ _ P j _ ⟨P.root_path, junk⟩ [] now faults [] (fun _ _ l => l) hmain
        { d.world with
          clients := Function.update d.world.clients j (d.world.fresh j)
          sessions := Function.update d.world.sessions j fun _ => [] }
        { d'.world with
          clients := Function.update d'.world.clients j (d'.world.fresh j)
          sessions := Function.update d'.world.sessions j fun _ => [] }
        (by simp only [Function.update_self, hfresh]) (by simp only [Function.update_self])
        d.replies d'.replies (d.replies j)).2
      rw [Function.update_eq_self, hrep, Function.update_eq_self] at hfinish
      refine congrArg some (hfinish.trans ?_)
      simp only [put, Function.update_idem]
  | late k now h => cases hi

/-- Events without a common party change places, except that the server's clock is left at another
time. -/
theorem commuting (P : Params ι) :
    Commuting (fun (d : Diary ι) e => (d.step P e).map still) Event.touches := by
  have hone : ∀ (e f : Event ι) (i : ι), e.touches (some i) = true → e.touches none = false →
      f.touches (some i) = false → ∀ d : Diary ι,
        ((d.step P e).map still).bind (fun x => (x.step P f).map still) =
          ((d.step P f).map still).bind fun x => (x.step P e).map still := by
    intro e f i hi hn hf d
    have hself : (d.step P e).map still = _ := local_step hi hn (Eq.refl (d.own i))
    cases hse : d.step P e with
    | none =>
        cases hsf : d.step P f with
        | none => rfl
        | some y =>
            have hy : (y.step P e).map still = _ := local_step hi hn (own_of_step hf hsf)
            rw [hse, Option.map_none] at hy
            simp only [Option.map_none, Option.bind_none, Option.map_some, Option.bind_some, still_step, hy]
    | some x =>
        rw [hse, Option.map_some, Option.map_some] at hself
        have hx : x.still = (d.put i (x.own i)).still := Option.some.inj hself
        have hxf : (x.step P f).map still = (d.step P f).map fun y => (y.put i (x.own i)).still := by
          rw [← still_step, hx, still_step, put_step hf, Option.map_map]
          rfl
        simp only [Option.map_some, Option.bind_some, still_step, hxf]
        cases hsf : d.step P f with
        | none => rfl
        | some y =>
            have hy : (y.step P e).map still = _ := local_step hi hn (own_of_step hf hsf)
            rw [hse, Option.map_some] at hy
            simp only [Option.map_some, Option.bind_some, still_step, hy]
  intro e f hmeet d
  cases hn : e.touches none with
  | false =>
      obtain ⟨k, hk⟩ := e.exists_touches
      cases k with
      | none => rw [hn] at hk; cases hk
      | some i => exact hone e f i hk hn (hmeet _ hk) d
  | true =>
      have hfn := hmeet none hn
      obtain ⟨k, hk⟩ := f.exists_touches
      cases k with
      | none => rw [hfn] at hk; cases hk
      | some i =>
          refine (hone f e i hk hfn ?_ d).symm
          by_contra he
          have hfi := hmeet (some i) (by simpa using he)
          rw [hk] at hfi
          cases hfi

/-- Steps without regard to the clock lead where the steps lead, without regard to the clock. -/
theorem foldlM_still (es : List (Event ι)) (d : Diary ι) :
    es.foldlM (fun (d : Diary ι) e => (d.step P e).map still) d.still =
      (es.foldlM (fun (d : Diary ι) e => d.step P e) d).map still := by
  induction es generalizing d with
  | nil => rfl
  | cons e es ih =>
      rw [List.foldlM_cons, List.foldlM_cons, still_step]
      cases hs : d.step P e with
      | none => rfl
      | some x => exact ih x

/-- Two schedules in which every client does the same in the same order, and in which the server is
reached in the same order, have the same outcome: every operation hands back the same, and the system is
left the same but for the server's clock. -/
theorem reordered_runs_agree {us vs : List (Event ι)} {d₁ : Diary ι}
    (hview : ∀ k, seen Event.touches k us = seen Event.touches k vs)
    (h : Run (fun (d : Diary ι) e => d.step P e) (fun _ _ => True) d us d₁) :
    ∃ d₂, Run (fun (d : Diary ι) e => d.step P e) (fun _ _ => True) d vs d₂ ∧ d₂.still = d₁.still := by
  have hfold := (commuting P).foldlM_eq Event.exists_touches hview d.still
  rw [foldlM_still, foldlM_still, h.foldlM_eq] at hfold
  obtain ⟨d₂, hd₂, hstill⟩ := Option.map_eq_some_iff.mp hfold.symm
  exact ⟨d₂, Run.of_foldlM (by simpa using hd₂), hstill⟩

/-- A session of one client, seen from the outside, with a write of the given byte in it. -/
private def sampleSession (i : Bool) (sec : Nat) (b : UInt8) : Fin 4 → Event (Bool)
  | 0 => .call (World.sampleCall i sec .openF [])
  | 1 => .call (World.sampleCall i (sec + 2) (.write 0 [b] 0) [])
  | 2 => .call (World.sampleCall i (sec + 4) (.read 0 1 0) [])
  | 3 => .call (World.sampleCall i (sec + 6) (.release 0) [])

/-- Two clients that take turns, against the same clients with their local operations moved. -/
theorem reordered_runs_agree_sample : ∃ us vs : List (Event (Bool)), ∃ d₁ d₂ : Diary (Bool),
    us.map (fun e => e.touches (some true)) ≠ vs.map (fun e => e.touches (some true)) ∧
      Run (fun (d : Diary (Bool)) e => d.step sample e) (fun _ _ => True) ⟨sampleBoot, fun _ => []⟩ us d₁ ∧
      Run (fun (d : Diary (Bool)) e => d.step sample e) (fun _ _ => True) ⟨sampleBoot, fun _ => []⟩ vs d₂ ∧
      (d₁.world.served sample sampleFile).map (·.bytes) = some [8] ∧ d₂.still = d₁.still := by
  let f := sampleSession false 1 7
  let t := sampleSession true 2 8
  have h : (([f 0, t 0, f 1, t 1, f 2, t 2, f 3, t 3].foldlM (fun (d : Diary (Bool)) e => d.step sample e)
      ⟨sampleBoot, fun _ => []⟩).bind fun d => (d.world.served sample sampleFile).map (·.bytes)) = some [8] := by
    decide +kernel
  obtain ⟨d₁, hfold, hserved⟩ := Option.bind_eq_some_iff.mp h
  have hrun : Run (fun (d : Diary (Bool)) e => d.step sample e) (fun _ _ => True) ⟨sampleBoot, fun _ => []⟩
      [f 0, t 0, f 1, t 1, f 2, t 2, f 3, t 3] d₁ := Run.of_foldlM (by simpa using hfold)
  have hview : ∀ k, seen Event.touches k [f 0, t 0, f 1, t 1, f 2, t 2, f 3, t 3] =
      seen Event.touches k [f 0, f 1, f 2, t 0, f 3, t 1, t 2, t 3] := by
    intro k
    cases k with
    | none => rfl
    | some i => cases i <;> rfl
  obtain ⟨d₂, hrun', hstill⟩ := reordered_runs_agree hview hrun
  exact ⟨_, _, d₁, d₂, by decide, hrun, hrun', hserved, hstill⟩

end Diary

end Afs
