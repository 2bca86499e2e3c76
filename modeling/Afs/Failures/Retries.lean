import Afs.Ops.Retrying
import Afs.Ops.Parts
import Afs.Ops.Script

/-!
# Calls one after another share the retry counters

`afs_FETCH`, `afs_GETATTR` and `afs_STORE` repeat their request in a loop that counts in two members
of the client. Each of them finds the counters as the class initialises them and leaves them so, however
its attempts end and whatever stops the process behind the loop.
-/

namespace Afs

open Posix Interaction

/-- A call of one of the functions with a retry loop. -/
inductive Retrier where
  | fetch (path cache_path : Path)
  | getattr (path : Path) (stats : Stat)
  | store (path cache_path : Path) (buf : Bytes) (size : Int32)

namespace Retrier

/-- The function, without its result. -/
def prog : Retrier → Prog clientSig Unit
  | .fetch path cache_path => Client.afsFetch path cache_path >>= fun _ => pure ()
  | .getattr path stats => Client.afsGetattr path stats >>= fun _ => pure ()
  | .store path cache_path buf size => Client.afsStore path cache_path buf size >>= fun _ => pure ()

/-- The size that `afs_STORE` is given is negative: the constructor of its `std::string` throws. -/
def Throws : Retrier → Prop
  | .fetch .. | .getattr .. => False
  | .store _ _ _ size => size < 0

end Retrier

/-- A call and what it meets: the server as other clients left it, what happens to the attempts, and the
failures of the client's own system calls. -/
structure Turn where
  call : Retrier
  env : Env
  server : Proc
  inflight : List Request
  net : List Delivery
  faults : List Fault

/-- How a call ends: whether it returns or the process ends, its rounds, and the client behind it. -/
structure Turn.Outcome where
  returned : Bool
  rounds : List Round
  client : ClientProc

/-- The state in which a call finds the client. -/
def Turn.state (t : Turn) (c : ClientProc) : St where
  client := { c with proc := { c.proc with faults := t.faults } }
  server := t.server
  inflight := t.inflight
  net := t.net

/-- A call on a client. -/
def Turn.outcome (t : Turn) (c : ClientProc) : Turn.Outcome :=
  let out := t.call.prog.run t.env.timing (t.state c, [])
  ⟨out.1.isSome, out.2.2, out.2.1.client⟩

/-- Calls one after another on one client, as long as the process lives. -/
def Turn.outcomes : List Turn → ClientProc → List (Turn × Turn.Outcome)
  | [], _ => []
  | t :: ts, c =>
    let o := t.outcome c
    (t, o) :: if o.returned then Turn.outcomes ts o.client else []

/-- The call begins with its loop, which runs through these rounds to its end. -/
def Turn.Loops (t : Turn) (c : ClientProc) (rounds : List Round) : Prop :=
  ∃ (r : Request) (f : Option r.Reply → Prog clientSig Unit) (a : Option r.Reply) (u : St),
    t.call.prog = Client.retried r >>= f ∧ t.env.Loops r (t.state c) rounds a u

/-- The loop of the call ends at its first success or after six failures with two to six seconds between
them, or the call throws in front of its loop; and the counters are as the class initialises them. -/
structure Turn.Outcome.Ends (t : Turn) (c : ClientProc) (o : Turn.Outcome) : Prop where
  rounds : t.Loops c o.rounds ∧ Env.Backoff 2 5 o.rounds ∨
    t.call.Throws ∧ o.rounds = [] ∧ o.returned = false
  rested : o.client.Rested

/-- The commands that neither loop nor send. -/
def Cmd.Unlooped : Cmd → Prop
  | .retried _ | .rpc _ => False
  | .sys _ | .errno | .get _ | .put .. | .table | .setTable _ => True

section Calls

variable (env : Env) {α : Type} {p : Prog clientSig α} {s : St} {l : List Round}

/-- What follows the loop has no rounds of its own and leaves the counters alone. -/
private theorem timing_unlooped (hp : p.Uses Cmd.Unlooped) (hs : s.client.Rested) :
    (p.run env.timing (s, l)).2.2 = l ∧ (p.run env.timing (s, l)).2.1.client.Rested := by
  have hkeeps : ∀ (c : Cmd) (x : St × List Round), c.Unlooped →
      x.2 = l ∧ x.1.client.Rested →
        (env.timing c x).2.2 = l ∧ (env.timing c x).2.1.client.Rested := by
    intro c x hc hx
    cases c with
    | rpc r | retried r => exact hc.elim
    | _ => exact ⟨(List.append_nil x.2).trans hx.1, hx.2.retries, hx.2.interval⟩
  exact Prog.Uses.invariant hp hkeeps ⟨rfl, hs⟩

private theorem record_unlooped {path cache_path : Path} {value : Int64} :
    (Client.record path cache_path value).Uses Cmd.Unlooped := by
  refine Prog.Uses.call trivial fun _ => Prog.Uses.call trivial fun fptr => ?_
  split
  · trivial
  · exact Prog.Uses.call trivial fun _ => Prog.Uses.call trivial fun _ =>
      Prog.Uses.call trivial fun _ => trivial

private theorem errno_unlooped {f : Int → α} :
    (Client.errno >>= fun e => pure (f e)).Uses Cmd.Unlooped :=
  Prog.Uses.call trivial fun _ => trivial

/-- A loop, and what follows it. -/
private theorem timing_retried {r : Request} {f : Option r.Reply → Prog clientSig α}
    (hf : ∀ a, (f a).Uses Cmd.Unlooped) (hs : s.client.Rested) :
    (∃ a u, env.Loops r s ((Client.retried r >>= f).run env.timing (s, [])).2.2 a u) ∧
      Env.Backoff 2 5 ((Client.retried r >>= f).run env.timing (s, [])).2.2 ∧
      ((Client.retried r >>= f).run env.timing (s, [])).2.1.client.Rested := by
  have hloops := Env.loops_exec env r s
  obtain ⟨hrounds, hrested⟩ := hloops.backoff hs
  obtain ⟨hlog, hend⟩ := timing_unlooped env (l := [] ++ env.roundsOf (.retried r) s)
    (hf (env.exec (.retried r) s).1) hrested
  have hsame : ((Client.retried r >>= f).run env.timing (s, [])).2.2 = env.roundsOf (.retried r) s := by
    rw [Prog.run_call_bind]
    exact hlog
  rw [hsame]
  exact ⟨⟨_, _, hloops⟩, hrounds, hend⟩

end Calls

/-- A function is its loop and what follows it, or it throws. -/
theorem Retrier.prog_cases (call : Retrier) :
    (∃ (r : Request) (f : Option r.Reply → Prog clientSig Unit),
      call.prog = Client.retried r >>= f ∧ ∀ a, (f a).Uses Cmd.Unlooped) ∨
      call.Throws ∧ call.prog = .halt := by
  cases call with
  | fetch path cache_path =>
      refine Or.inl ⟨_, _, Prog.bind_assoc .., fun status => Prog.Uses.bind ?_ fun _ => trivial⟩
      cases status with
      | some reply => exact record_unlooped.bind fun _ => trivial
      | none => exact errno_unlooped
  | getattr path stats =>
      refine Or.inl ⟨_, _, Prog.bind_assoc .., fun status => Prog.Uses.bind ?_ fun _ => trivial⟩
      cases status with
      | some reply =>
          dsimp only
          split <;> trivial
      | none => exact errno_unlooped
  | store path cache_path buf size =>
      by_cases hsize : size < 0
      · refine Or.inr ⟨hsize, ?_⟩
        simp only [Retrier.prog, Client.afsStore, if_pos hsize, Prog.halt_bind]
      · simp only [Retrier.prog, Client.afsStore, if_neg hsize]
        refine Or.inl ⟨_, _, Prog.bind_assoc .., fun status => Prog.Uses.bind ?_ fun _ => trivial⟩
        cases status with
        | some reply => exact record_unlooped.bind fun _ => trivial
        | none => trivial

/-- One call on a client with rested counters. -/
theorem Turn.outcome_ends (t : Turn) {c : ClientProc} (hc : c.Rested) :
    (t.outcome c).Ends t c := by
  have hs : (t.state c).client.Rested := ⟨hc.retries, hc.interval⟩
  rcases t.call.prog_cases with ⟨r, f, heq, hf⟩ | ⟨hthrows, heq⟩
  · obtain ⟨⟨a, u, hloops⟩, hrounds, hrested⟩ := timing_retried t.env hf hs
    unfold Turn.outcome
    rw [heq]
    exact ⟨Or.inl ⟨⟨r, f, a, u, heq, hloops⟩, hrounds⟩, hrested⟩
  · unfold Turn.outcome
    rw [heq]
    exact ⟨Or.inr ⟨hthrows, rfl, rfl⟩, hs⟩

/-- Every call of a sequence on a new client runs its loop to the end in its bounds, and none inherits
counters from the calls before it. -/
theorem retries_restored (c : ClientProc) (ts : List Turn) :
    ∀ x ∈ Turn.outcomes ts c.resetRetries, ∃ d, x.2 = x.1.outcome d ∧ x.2.Ends x.1 d := by
  have hstart := c.rested_resetRetries
  generalize c.resetRetries = d at hstart
  induction ts generalizing d with
  | nil => exact fun x hx => absurd hx List.not_mem_nil
  | cons t ts ih =>
      intro x hx
      have hends := t.outcome_ends hstart
      rcases List.mem_cons.mp hx with rfl | hrest
      · exact ⟨d, rfl, hends⟩
      · split at hrest
        · exact ih _ hends.rested x hrest
        · cases hrest

/-- A request for attributes that is lost six times, and one that is lost once. -/
private def lostTurns : List Turn :=
  [List.replicate 6 (.lost 110), [.lost 110]].map fun net =>
    { call := .getattr sampleFile (dirAttr.stat 0 0), env := ⟨sample.root_path, .zero⟩,
      server := sampleBoot.server, inflight := [], net, faults := [] }

/-- The second call waits two seconds, as if the first one had not been made. -/
theorem retries_restored_sample :
    ∃ x, (Turn.outcomes lostTurns (sampleBoot.clients true).resetRetries)[1]? = some x ∧
      x.2.rounds = [⟨false, some 2000⟩, ⟨true, none⟩] ∧ ∃ d, x.2 = x.1.outcome d ∧ x.2.Ends x.1 d := by
  have h : ((Turn.outcomes lostTurns (sampleBoot.clients true).resetRetries)[1]?).map
      (fun x => x.2.rounds) = some [⟨false, some 2000⟩, ⟨true, none⟩] := by
    decide +kernel
  obtain ⟨x, hx, hrounds⟩ := Option.map_eq_some_iff.mp h
  exact ⟨x, hx, hrounds, retries_restored _ lostTurns x (List.mem_of_getElem? hx)⟩

end Afs
