import Afs.Ops.Events
import Afs.Ops.Spares

/-!
# Properties of the server that requests under way keep

A request may reach the server long after its client gave it up. What holds of the server's files holds on if
it is kept by the handler of every request that is sent, those that are still under way among them.
-/

namespace Afs

open Posix Interaction

variable {I : Fs → Prop} {R : Request → Prop}

/-- The server's files are so, and the requests under way are such. -/
def St.Upholds (I : Fs → Prop) (R : Request → Prop) (s : St) : Prop := I s.server.fs ∧ ∀ r ∈ s.inflight, R r

section Programs

variable {env : Env} {s : St} {r : Request} {α : Type} {p : Prog clientSig α}

private theorem attempt_upholds (hR : ∀ r, R r → r.Keeps env.root_path I) (hr : R r) (h : s.Upholds I R) :
    (env.attempt r s).2.Upholds I R := by
  unfold Env.attempt
  split
  · exact ⟨hR r hr _ _ h.1, h.2⟩
  · exact ⟨hR r hr _ _ h.1, h.2⟩
  · exact ⟨hR r hr _ _ h.1, h.2⟩
  · refine ⟨h.1, fun r' hr' => ?_⟩
    rcases List.mem_cons.mp hr' with rfl | hold
    · exact hr
    · exact h.2 r' hold
  · exact h

private theorem retryLoop_upholds (hR : ∀ r, R r → r.Keeps env.root_path I) (hr : R r) (n : Nat)
    (h : s.Upholds I R) : (env.retryLoop r n s).2.Upholds I R := by
  induction n generalizing s with
  | zero => exact h
  | succ n ih =>
      have hattempt := attempt_upholds hR hr h
      simp only [Env.retryLoop]
      split
      · next heq => rwa [heq] at hattempt
      · next heq =>
        rw [heq] at hattempt
        split
        · exact ih hattempt
        · exact hattempt

/-- A program that sends only such requests, whatever becomes of them. -/
theorem Env.run_upholds (env : Env) (hR : ∀ r, R r → r.Keeps env.root_path I)
    (hp : p.Uses (Cmd.Sends R)) (h : s.Upholds I R) : (p.run env.exec s).2.Upholds I R := by
  refine Prog.Uses.invariant (I := St.Upholds I R) hp (fun c s hc hs => ?_) h
  cases c with
  | rpc r => exact attempt_upholds hR hc hs
  | retried r => exact retryLoop_upholds hR hc _ hs
  | sys c | errno | get filename | put key value | table | setTable ht => exact hs

/-- A release without the modified flag is three calls that stay at the client. -/
theorem release_unflagged {junk : Junk} {path dir : Path} {fh : Int}
    (h : s.client.ht.get path ≠ modifiedFlag) :
    ((Client.afsRelease junk path dir fh).run env.exec s).2 =
      (env.exec (.sys (.lstat (getLocalPath path dir))) s).2 := by
  unfold Client.afsRelease
  rw [Prog.run_call_bind, Prog.run_call_bind]
  simp only [Env.exec, h, if_false]
  rfl

/-- An operation that sends only such requests, unless it is a release without the flag. -/
theorem Op.run_upholds (env : Env) {op : Op} {junk : Junk} {path dir : Path} {fh : Int}
    (hR : ∀ r, R r → r.Keeps env.root_path I)
    (hsent : ∀ r, op.Requests path r → (∀ k, op = .release k → s.client.ht.get path = modifiedFlag) → R r)
    (h : s.Upholds I R) : ((op.prog junk path dir fh).run env.exec s).2.Upholds I R := by
  by_cases hflag : ∀ k, op = .release k → s.client.ht.get path = modifiedFlag
  · exact env.run_upholds hR ((op.prog_bounded junk path dir fh).mono
      fun c hc => hc.sends.mono fun r hr => hsent r hr hflag) h
  · push Not at hflag
    obtain ⟨k, rfl, hne⟩ := hflag
    simp only [Op.prog, Prog.pure_eq]
    rw [Prog.run_bind_ret, release_unflagged hne]
    exact h

end Programs

namespace World

variable {ι : Type} [DecidableEq ι] {P : Params ι} {w w' : World ι} {e : Event ι}

@[simp] theorem inflight_finish (i : ι) (p : Path)
    (next : Result → Option Bytes → List Session → List Session) (out : Option Result × St) :
    (w.finish P i p next out).inflight = out.2.inflight := by
  unfold finish
  split <;> rfl

/-- One step: it is enough to look at what an operation does. -/
theorem step_upholds (hR : ∀ r, R r → r.Keeps P.root_path I)
    (hclock : ∀ (s : Fs) now, I s → I { s with clock := now })
    (hcall : ∀ c fh, e = .call c → w.handle c = some fh →
      (w.state c.client c.now c.faults c.net).Upholds I R →
        ((c.op.prog c.junk c.path (P.cache_path c.client) fh).run (Env.exec ⟨P.root_path, c.junk⟩)
          (w.state c.client c.now c.faults c.net)).2.Upholds I R)
    (hs : w.step P e = some w') (h : I w.server.fs ∧ ∀ r ∈ w.inflight, R r) :
    I w'.server.fs ∧ ∀ r ∈ w'.inflight, R r := by
  cases e with
  | call c =>
      obtain ⟨x, hperf, rfl⟩ := Option.map_eq_some_iff.mp hs
      obtain ⟨-, fh, hfh, rfl⟩ := perform_eq_some.mp hperf
      rw [server_finish, inflight_finish]
      exact hcall c fh rfl hfh ⟨hclock _ c.now h.1, h.2⟩
  | start i now junk faults =>
      obtain rfl := Option.some.inj hs
      rw [server_finish, inflight_finish]
      exact Env.run_upholds ⟨P.root_path, junk⟩ hR (Prog.Uses.bind Client.main_sends fun _ => trivial)
        ⟨hclock _ now h.1, h.2⟩
  | late k now x =>
      simp only [step] at hs
      split at hs
      · cases hs
      · next r hr =>
        obtain rfl := Option.some.inj hs
        refine ⟨?_, fun r' hmem => h.2 r' (List.eraseIdx_subset hmem)⟩
        exact hR r (h.2 r (List.mem_of_getElem? hr)) x.junk
          ⟨(w.serverAt now).fs, (w.serverAt now).errno, x.faults⟩ (hclock _ now h.1)

end World

end Afs
