import Afs.Ops.Calm

/-!
# Remote calls whose attempts may fail

An attempt runs the handler or not, and its answer arrives or not. The loop around the attempts ends
with the first answer that arrives with an OK status, or gives up.
-/

namespace Afs

open Posix Interaction

/-- How the handler runs in an attempt, if it runs. -/
def Delivery.handling : Delivery → Option Handling
  | .done h | .replyLost h _ => some h
  | .late _ | .lost _ => none

/-- No call of a handler fails. -/
def Delivery.Faultless (d : Delivery) : Prop := ∀ h, d.handling = some h → h.faults = []

/-- What a remote call leaves alone at the client: everything but the error number and the retry
counters. -/
structure ClientProc.Waits (c d : ClientProc) : Prop where
  fs : d.proc.fs = c.proc.fs
  faults : d.proc.faults = c.proc.faults
  table : d.ht = c.ht

theorem ClientProc.Waits.trans {c d e : ClientProc} (h : c.Waits d) (k : d.Waits e) : c.Waits e :=
  ⟨k.fs.trans h.fs, k.faults.trans h.faults, k.table.trans h.table⟩

/-- What a remote call depends on is the same. -/
structure St.Alike (s t : St) : Prop where
  server : t.server = s.server
  net : t.net = s.net
  inflight : t.inflight = s.inflight
  retries : t.client.retries = s.client.retries

namespace Env

variable {env : Env} {r : Request} {s t : St} {m : r.Reply}

/-- An attempt uses up what the network has for it. -/
theorem attempt_net (env : Env) (r : Request) (s : St) : (env.attempt r s).2.net = s.net.tail := by
  unfold attempt
  split
  · next h => simp only [h, List.tail_nil]
  all_goals next h => simp only [h, List.tail_cons]

theorem attempt_client (env : Env) (r : Request) (s : St) :
    s.client.Waits (env.attempt r s).2.client ∧
      (env.attempt r s).2.client.retries = s.client.retries := by
  unfold attempt
  split <;> exact ⟨⟨rfl, rfl, rfl⟩, rfl⟩

/-- An answer that arrives is the one of a handler that ran. -/
theorem attempt_some (h : env.attempt r s = (some m, t)) :
    ∃ (x : Handling) (v : Proc) (a : Response r.Reply),
      (s.net = [] ∧ x.faults = [] ∨ ∃ net, s.net = .done x :: net) ∧
      env.serve r x s.server = (some a, v) ∧ a.ok = true ∧ a.reply = m ∧ t.server = v := by
  have hanswer : ∀ (x : Handling) (net : List Delivery),
      (((env.serve r x s.server).1.bind fun m => if m.ok then some m.reply else none : Option r.Reply),
        ({ s with server := (env.serve r x s.server).2, net := net } : St)) = (some m, t) →
      ∃ v a, env.serve r x s.server = (some a, v) ∧ a.ok = true ∧ a.reply = m ∧ t.server = v := by
    intro x net hx
    obtain ⟨hm, ht⟩ := Prod.mk.inj hx
    obtain ⟨a, ha, hok⟩ := Option.bind_eq_some_iff.mp hm
    split at hok
    · next htrue =>
      exact ⟨_, a, Prod.ext ha rfl, htrue, Option.some.inj hok, by rw [← ht]⟩
    · cases hok
  unfold attempt at h
  split at h
  · next hn =>
    obtain ⟨v, a, ha⟩ := hanswer _ _ h
    exact ⟨_, v, a, Or.inl ⟨hn, rfl⟩, ha⟩
  · next x net hn =>
    obtain ⟨v, a, ha⟩ := hanswer _ _ h
    exact ⟨x, v, a, Or.inr ⟨net, hn⟩, ha⟩
  · cases h
  · cases h
  · cases h

theorem retryLoop_client (env : Env) (r : Request) (n : Nat) (s : St) :
    s.client.Waits (env.retryLoop r n s).2.client := by
  induction n generalizing s with
  | zero => exact ⟨rfl, rfl, rfl⟩
  | succ n ih =>
      have hone := (attempt_client env r s).1
      simp only [retryLoop]
      split
      · next heq =>
        rw [heq] at hone
        exact ⟨hone.fs, hone.faults, hone.table⟩
      · next t heq =>
        rw [heq] at hone
        have hretry : s.client.Waits (t.client.retryReq false).2 := by
          unfold ClientProc.retryReq
          split <;> exact ⟨hone.fs, hone.faults, hone.table⟩
        split
        · exact hretry.trans (ih { t with client := (t.client.retryReq false).2 })
        · exact hretry

theorem attempt_alike (env : Env) (r : Request) (h : s.Alike t) :
    (env.attempt r s).1 = (env.attempt r t).1 ∧ (env.attempt r s).2.Alike (env.attempt r t).2 := by
  unfold attempt
  rw [h.net, h.server]
  split <;> refine ⟨rfl, ⟨?_, ?_, ?_, ?_⟩⟩
  all_goals first | rfl | exact h.server | exact h.inflight | exact h.retries | simp only [h.inflight]

/-- A remote call looks neither at the client's process nor at its table. -/
theorem retryLoop_alike (env : Env) (r : Request) (n : Nat) (h : s.Alike t) :
    (env.retryLoop r n s).1 = (env.retryLoop r n t).1 ∧
      (env.retryLoop r n s).2.Alike (env.retryLoop r n t).2 := by
  induction n generalizing s t with
  | zero => exact ⟨rfl, h⟩
  | succ n ih =>
      obtain ⟨hres, hnext⟩ := attempt_alike env r h
      simp only [retryLoop]
      cases hs : env.attempt r s with
      | mk x s' =>
        cases ht : env.attempt r t with
        | mk y t' =>
          simp only [hs, ht] at hres hnext
          subst hres
          cases x with
          | some m => exact ⟨rfl, hnext.server, hnext.net, hnext.inflight, rfl⟩
          | none =>
              simp only [ClientProc.retryReq, hnext.retries, Bool.false_or, decide_eq_true_eq]
              by_cases hover : s'.client.retries > 5
              · simp only [hover, if_true, Bool.false_eq_true, if_false]
                exact ⟨trivial, hnext.server, hnext.net, hnext.inflight, rfl⟩
              · simp only [hover, if_false, if_true]
                exact ih ⟨hnext.server, hnext.net, hnext.inflight, rfl⟩

/-- Nor does the error number that it leaves depend on more than the one before it. -/
theorem retryLoop_errno (env : Env) (r : Request) (n : Nat) (h : s.Alike t)
    (he : t.client.proc.errno = s.client.proc.errno) :
    (env.retryLoop r n t).2.client.proc.errno = (env.retryLoop r n s).2.client.proc.errno := by
  induction n generalizing s t with
  | zero => exact he
  | succ n ih =>
      obtain ⟨hres, hnext⟩ := attempt_alike env r h
      have herr : (env.attempt r t).2.client.proc.errno = (env.attempt r s).2.client.proc.errno := by
        unfold attempt
        rw [h.net]
        split <;> first | exact he | rfl
      simp only [retryLoop]
      cases hs : env.attempt r s with
      | mk x s' =>
        cases ht : env.attempt r t with
        | mk y t' =>
          simp only [hs, ht] at hres hnext herr
          subst hres
          cases x with
          | some m => exact herr
          | none =>
              simp only [ClientProc.retryReq, hnext.retries, Bool.false_or, decide_eq_true_eq]
              by_cases hover : s'.client.retries > 5
              · simp only [hover, if_true, Bool.false_eq_true, if_false]
                exact herr
              · simp only [hover, if_false, if_true]
                exact ih ⟨hnext.server, hnext.net, hnext.inflight, rfl⟩ herr

theorem exec_retried_alike (env : Env) (r : Request) (h : s.Alike t) :
    (env.exec (.retried r) s).1 = (env.exec (.retried r) t).1 ∧
      (env.exec (.retried r) s).2.Alike (env.exec (.retried r) t).2 := by
  simp only [exec, ← h.retries]
  exact retryLoop_alike env r _ h

theorem exec_retried_errno (env : Env) (r : Request) (h : s.Alike t)
    (he : t.client.proc.errno = s.client.proc.errno) :
    (env.exec (.retried r) t).2.client.proc.errno =
      (env.exec (.retried r) s).2.client.proc.errno := by
  simp only [exec, h.retries]
  exact retryLoop_errno env r _ h he

/-- The last step of a loop that got an answer: an attempt at a state that earlier attempts, all of
them failed, led to. -/
theorem retryLoop_some {n : Nat} {I : St → Prop}
    (hstep : ∀ s, I s → ∀ c, I { (env.attempt r s).2 with client := c }) (hs : I s)
    (h : env.retryLoop r n s = (some m, t)) :
    ∃ u u', I u ∧ env.attempt r u = (some m, u') ∧ t.server = u'.server ∧
      t.inflight = u'.inflight := by
  induction n generalizing s with
  | zero => cases h
  | succ n ih =>
      simp only [retryLoop] at h
      split at h
      · next m' u' heq =>
        obtain ⟨hm, rfl⟩ := Prod.mk.inj h
        obtain rfl := Option.some.inj hm
        exact ⟨s, u', hs, heq, rfl, rfl⟩
      · next u' heq =>
        split at h
        · have hnext := hstep s hs (u'.client.retryReq false).2
          rw [heq] at hnext
          exact ih hnext h
        · cases h

end Env

end Afs
