import Afs.Ops.Attempts

/-!
# The rounds of the retry loop

`retry_req` counts the failed attempts in the member `retries` and sleeps for `interval * retries`
milliseconds before the next one. The loop is given here without a bound on its rounds; from every
value of the counters it ends, and from their first values it makes at most six rounds.
-/

namespace Afs

open Posix Interaction

/-- `sleep_time` of `retry_req`, in milliseconds, where it sleeps. -/
def ClientProc.sleepTime (c : ClientProc) (is_ok : Bool) : Option Int :=
  if is_ok || c.retries > 5 then none else some (c.interval * (c.retries + 1))

/-- A round of the loop: the outcome of the attempt, and how long `retry_req` sleeps behind it. -/
structure Round where
  is_ok : Bool
  sleep_time : Option Int
deriving DecidableEq

/-- The counters have the values that `AfsClient` gives them. -/
structure ClientProc.Rested (c : ClientProc) : Prop where
  retries : c.retries = 1
  interval : c.interval = 1000

theorem ClientProc.rested_resetRetries (c : ClientProc) : c.resetRetries.Rested := ⟨rfl, rfl⟩

namespace Env

/-- The loop `do … while (retry_req(is_ok))` from its first attempt to its end, with its rounds. -/
inductive Loops (env : Env) (r : Request) :
    St → List Round → Option r.Reply → St → Prop where
  | ok {s t : St} {m : r.Reply} (h : env.attempt r s = (some m, t)) :
      Loops env r s [⟨true, none⟩] (some m) { t with client := t.client.resetRetries }
  | exhausted {s t : St} {c : ClientProc} (h : env.attempt r s = (none, t))
      (hc : t.client.retryReq false = (false, c)) :
      Loops env r s [⟨false, t.client.sleepTime false⟩] none { t with client := c }
  | again {s t u : St} {c : ClientProc} {rounds : List Round} {a : Option r.Reply}
      (h : env.attempt r s = (none, t)) (hc : t.client.retryReq false = (true, c))
      (hrest : Loops env r { t with client := c } rounds a u) :
      Loops env r s (⟨false, t.client.sleepTime false⟩ :: rounds) a u

/-- The rounds of the loop with a bound. -/
def rounds (env : Env) (r : Request) : Nat → St → List Round
  | 0, _ => []
  | n + 1, s =>
    match env.attempt r s with
    | (some _, _) => [⟨true, none⟩]
    | (none, t) =>
      let (again, c) := t.client.retryReq false
      ⟨false, t.client.sleepTime false⟩ ::
        if again then env.rounds r n { t with client := c } else []

/-- The rounds of a command. -/
def roundsOf (env : Env) : Cmd → St → List Round
  | .retried r, s => env.rounds r ((6 - s.client.retries).toNat + 1) s
  | .sys _, _ | .errno, _ | .rpc _, _ | .get _, _ | .put .., _ | .table, _ | .setTable _, _ => []

/-- The machine of a client program, with the rounds of its loops. -/
def timing (env : Env) : Machine clientSig (St × List Round) :=
  fun c x => ((env.exec c x.1).1, (env.exec c x.1).2, x.2 ++ env.roundsOf c x.1)

/-- A failed attempt leaves the counters to `retry_req`. -/
theorem attempt_interval (env : Env) (r : Request) (s : St) :
    (env.attempt r s).2.client.interval = s.client.interval := by
  unfold attempt
  split <;> rfl

end Env

/-- `retry_req` gives up and puts the counters back, or it counts on. -/
theorem ClientProc.retryReq_cases (c : ClientProc) :
    5 < c.retries ∧ c.retryReq false = (false, c.resetRetries) ∧ c.sleepTime false = none ∨
      c.retries ≤ 5 ∧ c.retryReq false = (true, { c with retries := c.retries + 1 }) ∧
        c.sleepTime false = some (c.interval * (c.retries + 1)) := by
  unfold retryReq sleepTime
  simp only [Bool.false_or, decide_eq_true_eq]
  by_cases h : c.retries > 5
  · rw [if_pos h, if_pos h]
    exact Or.inl ⟨h, rfl, rfl⟩
  · rw [if_neg h, if_neg h]
    exact Or.inr ⟨by omega, rfl, rfl⟩

namespace Env

variable {env : Env} {r : Request} {s t : St} {l : List Round} {a : Option r.Reply}

/-- With a bound that exceeds what the counter still allows, the bound is not what ends the loop. -/
private theorem loops_retryLoop {n : Nat} (hn : (6 - s.client.retries).toNat < n) :
    Loops env r s (env.rounds r n s) (env.retryLoop r n s).1 (env.retryLoop r n s).2 := by
  induction n generalizing s with
  | zero => omega
  | succ n ih =>
      have hcount := (attempt_client env r s).2
      cases h : env.attempt r s with
      | mk x t =>
        rw [h] at hcount
        cases x with
        | some m =>
            simp only [Env.rounds, retryLoop, h]
            exact Loops.ok h
        | none =>
            rcases t.client.retryReq_cases with ⟨-, hreq, -⟩ | ⟨hle, hreq, -⟩
            · simp only [Env.rounds, retryLoop, h, hreq, Bool.false_eq_true, if_false]
              exact Loops.exhausted h hreq
            · simp only [Env.rounds, retryLoop, h, hreq, if_true]
              refine Loops.again h hreq (ih ?_)
              change t.client.retries = s.client.retries at hcount
              change (6 - (t.client.retries + 1)).toNat < n
              omega

/-- The command of a loop runs the loop to its end. -/
theorem loops_exec (env : Env) (r : Request) (s : St) :
    Loops env r s (env.roundsOf (.retried r) s) (env.exec (.retried r) s).1
      (env.exec (.retried r) s).2 :=
  loops_retryLoop (Nat.lt_succ_self _)

/-- `n` failed rounds, slept behind for `k` seconds, for `k + 1` seconds, and so on. -/
def failedRounds (k n : Nat) : List Round :=
  (List.range' k n).map fun i : Nat => ⟨false, some (1000 * (i : Int))⟩

/-- At most `n` failed rounds and then one that succeeds, or `n` failed ones and another. -/
def Backoff (k n : Nat) (l : List Round) : Prop :=
  (∃ i ≤ n, l = failedRounds k i ++ [⟨true, none⟩]) ∨ l = failedRounds k n ++ [⟨false, none⟩]

theorem Backoff.cons {k n : Nat} (h : Backoff (k + 1) n l) :
    Backoff k (n + 1) (⟨false, some (1000 * (k : Int))⟩ :: l) := by
  rcases h with ⟨i, hi, rfl⟩ | rfl
  · refine Or.inl ⟨i + 1, by omega, ?_⟩
    simp only [failedRounds, List.range'_succ, List.map_cons, List.cons_append]
  · apply Or.inr
    simp only [failedRounds, List.range'_succ, List.map_cons, List.cons_append]

/-- A loop that starts after `k` failed attempts. -/
private theorem Loops.backoff_from (h : Loops env r s l a t) :
    ∀ k : Nat, k ≤ 5 → s.client.retries = k + 1 → s.client.interval = 1000 →
      Backoff (k + 2) (5 - k) l ∧ t.client.Rested := by
  induction h with
  | ok h =>
      intro k _ _ _
      exact ⟨Or.inl ⟨0, by omega, rfl⟩, ClientProc.rested_resetRetries _⟩
  | @exhausted s t c h hc =>
      intro k hk hretries _
      have hcount := (attempt_client env r s).2
      rw [h, hretries] at hcount
      rcases t.client.retryReq_cases with ⟨hgt, hreq, hsleep⟩ | ⟨-, hreq, -⟩
      · obtain rfl := (Prod.mk.inj (hreq.symm.trans hc)).2
        obtain rfl : k = 5 := by
          change t.client.retries = (k : Int) + 1 at hcount
          omega
        rw [hsleep]
        exact ⟨Or.inr rfl, ClientProc.rested_resetRetries _⟩
      · cases (Prod.mk.inj (hreq.symm.trans hc)).1
  | @again s t u c rounds a h hc hrest ih =>
      intro k hk hretries hinterval
      have hcount := (attempt_client env r s).2
      have hsame := attempt_interval env r s
      rw [h] at hcount hsame
      have hnow : t.client.retries = (k : Int) + 1 := hcount.trans hretries
      have hunit : t.client.interval = 1000 := hsame.trans hinterval
      rcases t.client.retryReq_cases with ⟨-, hreq, -⟩ | ⟨hle, hreq, hsleep⟩
      · cases (Prod.mk.inj (hreq.symm.trans hc)).1
      · obtain rfl := (Prod.mk.inj (hreq.symm.trans hc)).2
        have hnext : t.client.retries + 1 = ((k + 1 : Nat) : Int) + 1 := by omega
        obtain ⟨hrounds, hend⟩ := ih (k + 1) (by omega) hnext hunit
        have htime : t.client.interval * (t.client.retries + 1) = 1000 * ((k + 2 : Nat) : Int) := by
          rw [hunit, hnow]
          omega
        have hleft : 5 - k = 5 - (k + 1) + 1 := by omega
        rw [hsleep, htime, hleft]
        exact ⟨hrounds.cons, hend⟩

/-- The loop from the first values of its counters: it stops at the first success, or after six
failures with two to six seconds between them, and puts the counters back. -/
theorem Loops.backoff (h : Loops env r s l a t) (hs : s.client.Rested) :
    Backoff 2 5 l ∧ t.client.Rested :=
  h.backoff_from 0 (by omega) hs.retries hs.interval

end Env

end Afs
