import Mathlib.Logic.Function.Basic
import Mathlib.Data.List.Induction
import Afs.Ops.Retrying
import Afs.Ops.Script

/-!
# Loops that share the retry counters

Several calls may be in their loops at once, on the one pair of counters that the client has. A step is
an attempt of one of them together with the reset or the call of `retry_req` behind it. What becomes of a call
is compared with what becomes of it alone.
-/

namespace Afs

open Posix Interaction

/-- How far a call has come: its failed attempts, and how it ended. -/
inductive Progress where
  | running (failed : Nat)
  | succeeded (failed : Nat)
  | gaveUp (failed : Nat)
deriving DecidableEq

namespace Progress

/-- The attempts that the call has made. -/
def attempts : Progress → Nat
  | running n | gaveUp n => n
  | succeeded n => n + 1

/-- An attempt, when the sixth failed one of a call is its last. -/
def next : Progress → Bool → Progress
  | running n, true => succeeded n
  | running n, false => if n = 5 then gaveUp 6 else running (n + 1)
  | succeeded n, _ => succeeded n
  | gaveUp n, _ => gaveUp n

/-- At most six attempts, and a sixth failed one before giving up. -/
def Bounded : Progress → Prop
  | running n | succeeded n => n ≤ 5
  | gaveUp n => n = 6

theorem Bounded.next {p : Progress} (h : p.Bounded) (is_ok : Bool) : (p.next is_ok).Bounded := by
  cases p with
  | running n =>
      cases is_ok with
      | true => exact h
      | false =>
          change n ≤ 5 at h
          change Bounded (if n = 5 then gaveUp 6 else running (n + 1))
          split
          · rfl
          · change n + 1 ≤ 5
            omega
  | succeeded n => exact h
  | gaveUp n => exact h

end Progress

variable {κ : Type} [DecidableEq κ]

/-- Calls on one client. -/
structure Callers (κ : Type) where
  client : ClientProc
  calls : κ → Progress

namespace Callers

/-- All calls are in front of their first attempt, on a client with the counters that the class gives it. -/
def start (c : ClientProc) : Callers κ := ⟨c.resetRetries, fun _ => .running 0⟩

/-- An attempt of a call with this outcome, and what the loop does behind it. A call that has ended
makes none. -/
def step (σ : Callers κ) (e : κ × Bool) : Callers κ :=
  match σ.calls e.1 with
  | .running n =>
    if e.2 then
      { client := σ.client.resetRetries, calls := Function.update σ.calls e.1 (.succeeded n) }
    else
      let (again, c) := σ.client.retryReq e.2
      { client := c
        calls := Function.update σ.calls e.1 (if again then .running (n + 1) else .gaveUp (n + 1)) }
  | .succeeded _ | .gaveUp _ => σ

/-- The attempts of a schedule, one after another. -/
def run (c : ClientProc) (es : List (κ × Bool)) : Callers κ := es.foldl step (start c)

/-- In every state reached each call has come as far as with its own attempts alone; none makes more
than six attempts, and none gives up before its sixth failed one. -/
def Apart (c : ClientProc) (es : List (κ × Bool)) : Prop :=
  ∀ front, front <+: es → ∀ x,
    (run c front).calls x = (run c (front.filter fun e => e.1 = x)).calls x ∧
      ((run c front).calls x).attempts ≤ 6 ∧ ∀ n, (run c front).calls x = .gaveUp n → n = 6

end Callers

/-- The calls as each of them should come on by its own attempts, and the failed attempts of all of
them since one ended last. -/
structure Ledger (κ : Type) where
  pending : Nat
  calls : κ → Progress

namespace Ledger

/-- An attempt of a call that has not ended. -/
def step (l : Ledger κ) (e : κ × Bool) : Ledger κ where
  calls := Function.update l.calls e.1 ((l.calls e.1).next e.2)
  pending := match l.calls e.1, (l.calls e.1).next e.2 with
    | .running _, .running _ => l.pending + 1
    | .running _, _ => 0
    | _, _ => l.pending

/-- The ledger of a schedule. -/
def of (es : List (κ × Bool)) : Ledger κ := es.foldl step ⟨0, fun _ => .running 0⟩

end Ledger

/-- Every failed attempt of a call that is still running by its own account is its sixth failed one exactly
when it is the sixth failed one of all calls since a call ended last. -/
def InStep (es : List (κ × Bool)) : Prop :=
  ∀ front x rest n, es = front ++ (x, false) :: rest → (Ledger.of front).calls x = .running n →
    (n = 5 ↔ (Ledger.of front).pending = 5)

section Facts

variable {c : ClientProc} {es : List (κ × Bool)} {e : κ × Bool} {x : κ}

theorem Callers.run_concat : run c (es ++ [e]) = (run c es).step e := List.foldl_concat ..

theorem Ledger.of_concat : Ledger.of (es ++ [e]) = (Ledger.of es).step e := List.foldl_concat ..

theorem Ledger.step_calls_ne {l : Ledger κ} (h : e.1 ≠ x) : (l.step e).calls x = l.calls x :=
  Function.update_of_ne h.symm ..

theorem Ledger.bounded (es : List (κ × Bool)) (x : κ) : ((Ledger.of es).calls x).Bounded := by
  induction es using List.reverseRecOn with
  | nil => exact Nat.zero_le 5
  | append_singleton es e ih =>
      rw [Ledger.of_concat]
      by_cases h : e.1 = x
      · subst h
        simp only [step, Function.update_self]
        exact ih.next e.2
      · rwa [step_calls_ne h]

/-- The last attempt of a schedule, and those before it. -/
theorem inStep_concat : InStep (es ++ [e]) ↔
    InStep es ∧ ∀ n, e.2 = false → (Ledger.of es).calls e.1 = .running n →
      (n = 5 ↔ (Ledger.of es).pending = 5) := by
  constructor
  · intro h
    refine ⟨fun front x rest n heq => h front x (rest ++ [e]) n ?_, fun n he => h es e.1 [] n ?_⟩
    · rw [heq, List.append_assoc, List.cons_append]
    · rw [← he]
  · rintro ⟨h, hlast⟩ front x rest n heq hrun
    rcases List.eq_nil_or_concat rest with rfl | ⟨rest', e', rfl⟩
    · obtain ⟨rfl, he⟩ := List.append_inj' heq rfl
      obtain rfl := (List.cons.inj he).1
      exact hlast n rfl hrun
    · have hsplit : es ++ [e] = (front ++ (x, false) :: rest') ++ [e'] := by
        rw [heq, List.append_assoc, List.concat_eq_append, List.cons_append]
      obtain ⟨rfl, -⟩ := List.append_inj' hsplit rfl
      exact h front x rest' n rfl hrun

/-- The counters are those of the ledger, and the calls have come as far. -/
structure Callers.Follows (σ : Callers κ) (l : Ledger κ) : Prop where
  calls : σ.calls = l.calls
  retries : σ.client.retries = (l.pending : Int) + 1
  pending : l.pending ≤ 5

theorem Callers.follows_start : (start c : Callers κ).Follows (Ledger.of []) := ⟨rfl, rfl, Nat.zero_le 5⟩

/-- A call that has ended makes no attempt. -/
theorem Callers.Follows.ended {σ : Callers κ} {l : Ledger κ} (h : σ.Follows l)
    (hend : ∀ n, l.calls e.1 ≠ .running n) : (σ.step e).Follows (l.step e) := by
  have hcalls : l.calls = (l.step e).calls := by
    ext y
    by_cases hy : e.1 = y
    · subst hy
      simp only [Ledger.step, Function.update_self]
      cases hp : l.calls e.1 with
      | running n => exact absurd hp (hend n)
      | succeeded n | gaveUp n => rfl
    · rw [Ledger.step_calls_ne hy]
  have hpending : (l.step e).pending = l.pending := by
    simp only [Ledger.step]
    cases hp : l.calls e.1 with
    | running n => exact absurd hp (hend n)
    | succeeded n | gaveUp n => rfl
  have hstep : σ.step e = σ := by
    unfold step
    rw [h.calls]
    cases hp : l.calls e.1 with
    | running n => exact absurd hp (hend n)
    | succeeded n | gaveUp n => rfl
  rw [hstep]
  exact ⟨h.calls.trans hcalls, hpending ▸ h.retries, hpending ▸ h.pending⟩

/-- A call that succeeds puts the counters back. -/
theorem Callers.Follows.succeeded {σ : Callers κ} {l : Ledger κ} {n : Nat} (h : σ.Follows l)
    (hrun : l.calls x = .running n) : (σ.step (x, true)).Follows (l.step (x, true)) := by
  have hσ : σ.calls x = .running n := by rw [h.calls, hrun]
  have hstep : σ.step (x, true) =
      ⟨σ.client.resetRetries, Function.update σ.calls x (.succeeded n)⟩ := by
    simp only [step, hσ, if_true]
  have hledger : l.step (x, true) = ⟨0, Function.update l.calls x (.succeeded n)⟩ := by
    simp only [Ledger.step, hrun, Progress.next]
  rw [hstep, hledger, h.calls]
  exact ⟨rfl, rfl, Nat.zero_le 5⟩

/-- A failed attempt in the code: what counts is how many failed before it, whoever made them. -/
theorem Callers.step_failed {σ : Callers κ} {n q : Nat} (hrun : σ.calls x = .running n)
    (hq : σ.client.retries = (q : Int) + 1) :
    σ.step (x, false) =
      if 5 ≤ q then ⟨σ.client.resetRetries, Function.update σ.calls x (.gaveUp (n + 1))⟩
      else ⟨{ σ.client with retries := σ.client.retries + 1 },
        Function.update σ.calls x (.running (n + 1))⟩ := by
  rcases σ.client.retryReq_cases with ⟨hgt, hreq, -⟩ | ⟨hle, hreq, -⟩
  · rw [if_pos (by omega)]
    simp only [step, hrun, hreq, Bool.false_eq_true, if_false]
  · rw [if_neg (by omega)]
    simp only [step, hrun, hreq, Bool.false_eq_true, if_false, if_true]

/-- The same by the call's own account. -/
theorem Ledger.step_failed {l : Ledger κ} {n : Nat} (hrun : l.calls x = .running n) :
    l.step (x, false) =
      if n = 5 then ⟨0, Function.update l.calls x (.gaveUp 6)⟩
      else ⟨l.pending + 1, Function.update l.calls x (.running (n + 1))⟩ := by
  by_cases hn : n = 5
  · simp only [step, hrun, Progress.next, if_pos hn]
  · simp only [step, hrun, Progress.next, if_neg hn]

/-- A failed attempt comes out as by the call's own account exactly when it is the sixth of all where it is
the sixth of the call. -/
theorem Callers.Follows.failed {σ : Callers κ} {l : Ledger κ} {n : Nat} (h : σ.Follows l)
    (hrun : l.calls x = .running n) :
    ((σ.step (x, false)).calls x = (l.step (x, false)).calls x ↔ (n = 5 ↔ l.pending = 5)) ∧
      ((n = 5 ↔ l.pending = 5) → (σ.step (x, false)).Follows (l.step (x, false))) := by
  have hσ : σ.calls x = .running n := by rw [h.calls, hrun]
  have hle := h.pending
  rw [step_failed hσ h.retries, Ledger.step_failed hrun]
  by_cases hn : n = 5 <;> by_cases hp : l.pending = 5
  · rw [if_pos hn, if_pos (by omega)]
    refine ⟨?_, fun _ => ⟨by rw [h.calls, hn], rfl, Nat.zero_le 5⟩⟩
    simp only [Function.update_self, hn, hp]
  · rw [if_pos hn, if_neg (by omega)]
    simp only [Function.update_self, hn, hp, reduceCtorEq, true_iff, false_imp_iff, and_self]
  · rw [if_neg hn, if_pos (by omega)]
    simp only [Function.update_self, hn, hp, reduceCtorEq, false_iff, not_true_eq_false, false_imp_iff,
      and_self]
  · rw [if_neg hn, if_neg (by omega)]
    refine ⟨?_, fun _ => ⟨by rw [h.calls], ?_, ?_⟩⟩
    · simp only [Function.update_self, hn, hp]
    · have hretries := h.retries
      change σ.client.retries + 1 = ((l.pending + 1 : Nat) : Int) + 1
      omega
    · change l.pending + 1 ≤ 5
      omega

/-- As long as the attempts are in step, the code keeps the ledger. -/
theorem Callers.follows_run (h : InStep es) : (run c es).Follows (Ledger.of es) := by
  induction es using List.reverseRecOn with
  | nil => exact follows_start
  | append_singleton es e ih =>
      obtain ⟨hbefore, hlast⟩ := inStep_concat.mp h
      have hfollows := ih hbefore
      rw [run_concat, Ledger.of_concat]
      cases hp : (Ledger.of es).calls e.1 with
      | succeeded n | gaveUp n => exact hfollows.ended fun m hm => by cases hp.symm.trans hm
      | running n =>
          obtain ⟨x, is_ok⟩ := e
          cases is_ok with
          | true => exact hfollows.succeeded hp
          | false => exact (hfollows.failed hp).2 (hlast n rfl hp)

/-- A call's own account looks at its own attempts only. -/
theorem Ledger.calls_filter (es : List (κ × Bool)) (x : κ) :
    (Ledger.of (es.filter fun e => e.1 = x)).calls x = (Ledger.of es).calls x := by
  induction es using List.reverseRecOn with
  | nil => rfl
  | append_singleton es e ih =>
      rw [List.filter_append, Ledger.of_concat]
      by_cases he : e.1 = x
      · subst he
        rw [List.filter_singleton, decide_eq_true rfl, cond_true, Ledger.of_concat]
        simp only [step, Function.update_self]
        rw [ih]
      · rw [List.filter_singleton, decide_eq_false he, cond_false, List.append_nil,
          step_calls_ne he, ih]

/-- With one call alone, all failed attempts are its own. -/
theorem Ledger.pending_alone {n : Nat} (halone : ∀ e ∈ es, e.1 = x)
    (hrun : (Ledger.of es).calls x = .running n) : (Ledger.of es).pending = n := by
  induction es using List.reverseRecOn generalizing n with
  | nil => exact Progress.running.inj hrun
  | append_singleton es e ih =>
      have hbefore : ∀ e' ∈ es, e'.1 = x := fun e' he' => halone e' (List.mem_append_left _ he')
      obtain rfl : e.1 = x := halone e (List.mem_append_right es (List.mem_singleton_self e))
      rw [Ledger.of_concat] at hrun ⊢
      obtain ⟨x, is_ok⟩ := e
      cases hp : (Ledger.of es).calls x with
      | succeeded m | gaveUp m =>
          simp only [step, Function.update_self, hp, Progress.next, reduceCtorEq] at hrun
      | running m =>
          cases is_ok with
          | true => simp only [step, Function.update_self, hp, Progress.next, reduceCtorEq] at hrun
          | false =>
              rw [Ledger.step_failed hp] at hrun ⊢
              split at hrun
              · simp only [Function.update_self, reduceCtorEq] at hrun
              · next hm =>
                simp only [Function.update_self, Progress.running.injEq] at hrun
                rw [if_neg hm, ih hbefore hp, hrun]

theorem inStep_alone (halone : ∀ e ∈ es, e.1 = x) : InStep es := by
  intro front y rest n heq hrun
  obtain rfl : y = x := halone (y, false) (heq ▸ List.mem_append_right front List.mem_cons_self)
  have hfront : ∀ e ∈ front, e.1 = y := fun e he => halone e (heq ▸ List.mem_append_left _ he)
  rw [Ledger.pending_alone hfront hrun]

/-- What becomes of a call alone is its own account. -/
theorem Callers.calls_alone (c : ClientProc) (es : List (κ × Bool)) (x : κ) :
    (run c (es.filter fun e => e.1 = x)).calls x = (Ledger.of es).calls x := by
  have halone : ∀ e ∈ es.filter fun e => e.1 = x, e.1 = x := fun e he =>
    of_decide_eq_true (List.mem_filter.mp he).2
  rw [(follows_run (inStep_alone halone)).calls, Ledger.calls_filter]

theorem InStep.of_prefix {front : List (κ × Bool)} (h : InStep es) (hf : front <+: es) :
    InStep front := by
  obtain ⟨rest, rfl⟩ := hf
  intro front' x rest' n heq
  refine h front' x (rest' ++ rest) n ?_
  rw [heq, List.append_assoc, List.cons_append]

/-- The calls keep apart exactly when every sixth failed attempt of a call is the sixth of all since one
ended last, and the other way round. -/
theorem retries_apart_iff (c : ClientProc) (es : List (κ × Bool)) :
    Callers.Apart c es ↔ InStep es := by
  constructor
  · intro h
    induction es using List.reverseRecOn with
    | nil => exact fun front x rest n heq => by cases front <;> cases heq
    | append_singleton es e ih =>
        have hbefore : InStep es := ih fun front hf => h front (hf.trans (List.prefix_append es [e]))
        refine inStep_concat.mpr ⟨hbefore, fun n he hrun => ?_⟩
        obtain ⟨x, is_ok⟩ := e
        obtain rfl : is_ok = false := he
        have hfollows : (Callers.run c es).Follows (Ledger.of es) := Callers.follows_run hbefore
        have hsame := (h (es ++ [(x, false)]) (List.prefix_refl _) x).1
        rw [Callers.calls_alone, Callers.run_concat, Ledger.of_concat] at hsame
        exact (hfollows.failed hrun).1.mp hsame
  · intro h front hf x
    have hcalls : (Callers.run c front).calls x = (Ledger.of front).calls x := by
      rw [(Callers.follows_run (h.of_prefix hf)).calls]
    have hbounded := Ledger.bounded front x
    rw [Callers.calls_alone, hcalls]
    refine ⟨rfl, ?_, fun n hn => ?_⟩
    · cases hp : (Ledger.of front).calls x with
      | running n | succeeded n | gaveUp n =>
          rw [hp] at hbounded
          simp only [Progress.Bounded] at hbounded
          simp only [Progress.attempts]
          omega
    · rw [hn] at hbounded
      exact hbounded

/-- Two calls whose attempts fail in turn: the second one gives up behind its third. -/
theorem retries_interfere : ¬ Callers.Apart (sampleBoot.clients true)
    [(true, false), (false, false), (true, false), (false, false), (true, false), (false, false)] := by
  intro h
  have hthird := (h _ (List.prefix_refl _) false).2.2 3 rfl
  cases hthird

end Facts

/-- Calls with their requests in the loop on one client. -/
structure Looping (κ : Type) where
  st : St
  calls : κ → Progress

section Loops

variable {env : Env} {r : Request} {req : κ → Request} {σ : Looping κ} {τ : Callers κ} {x : κ}

/-- An attempt of a call over the network, and what the loop does behind it. -/
def Looping.step (env : Env) (req : κ → Request) (σ : Looping κ) (x : κ) : Looping κ :=
  match σ.calls x with
  | .running n =>
    match env.attempt (req x) σ.st with
    | (some _, t) =>
      { st := { t with client := t.client.resetRetries }
        calls := Function.update σ.calls x (.succeeded n) }
    | (none, t) =>
      let (again, c) := t.client.retryReq false
      { st := { t with client := c }
        calls := Function.update σ.calls x (if again then .running (n + 1) else .gaveUp (n + 1)) }
  | .succeeded _ | .gaveUp _ => σ

/-- The same calls, and the same counter. -/
structure Looping.Counts (σ : Looping κ) (τ : Callers κ) : Prop where
  calls : τ.calls = σ.calls
  retries : τ.client.retries = σ.st.client.retries

/-- An attempt over the network is an attempt with the outcome that the network gives it. -/
theorem Looping.Counts.step (h : σ.Counts τ) :
    ∃ is_ok, (σ.step env req x).Counts (τ.step (x, is_ok)) := by
  have hcount := (Env.attempt_client env (req x) σ.st).2
  cases hp : σ.calls x with
  | succeeded n | gaveUp n =>
      refine ⟨true, ?_⟩
      simp only [Looping.step, Callers.step, h.calls, hp]
      exact h
  | running n =>
      cases ha : env.attempt (req x) σ.st with
      | mk a t =>
        rw [ha] at hcount
        have hsame : τ.client.retries = t.client.retries := h.retries.trans hcount.symm
        cases a with
        | some m =>
            refine ⟨true, ?_⟩
            simp only [Looping.step, Callers.step, h.calls, hp, ha, if_true]
            exact ⟨rfl, rfl⟩
        | none =>
            refine ⟨false, ?_⟩
            rcases t.client.retryReq_cases with ⟨hgt, hreq, -⟩ | ⟨hle, hreq, -⟩
            · rcases τ.client.retryReq_cases with ⟨-, hreq', -⟩ | ⟨hle', -, -⟩
              · simp only [Looping.step, Callers.step, h.calls, hp, ha, hreq, hreq',
                  Bool.false_eq_true, if_false]
                exact ⟨rfl, rfl⟩
              · omega
            · rcases τ.client.retryReq_cases with ⟨hgt', -, -⟩ | ⟨-, hreq', -⟩
              · omega
              · simp only [Looping.step, Callers.step, h.calls, hp, ha, hreq, hreq', hsame,
                  Bool.false_eq_true, if_false, if_true]
                exact ⟨rfl, rfl⟩

/-- Every interleaving of loops over the network is a schedule of attempts with their outcomes. -/
theorem Looping.counts_run (h : σ.Counts τ) (xs : List κ) :
    ∃ es : List (κ × Bool), es.map Prod.fst = xs ∧
      (xs.foldl (Looping.step env req) σ).Counts (es.foldl Callers.step τ) := by
  induction xs generalizing σ τ with
  | nil => exact ⟨[], rfl, h⟩
  | cons x xs ih =>
      have hone : ∃ is_ok, (σ.step env req x).Counts (τ.step (x, is_ok)) := h.step
      obtain ⟨is_ok, hstep⟩ := hone
      obtain ⟨es, rfl, hrest⟩ := ih hstep
      exact ⟨(x, is_ok) :: es, rfl, hrest⟩

/-- A loop that nobody interrupts makes its rounds as steps of its call, and the call ends with it. -/
theorem Env.Loops.steps {s t : St} {l : List Round} {a : Option (req x).Reply}
    (h : Env.Loops env (req x) s l a t) :
    ∀ (calls : κ → Progress) (n : Nat), calls x = .running n →
      ∃ p, (∀ m, p ≠ .running m) ∧
        (List.replicate l.length x).foldl (Looping.step env req) ⟨s, calls⟩ =
          ⟨t, Function.update calls x p⟩ := by
  induction h with
  | ok h =>
      intro calls n hn
      refine ⟨.succeeded n, fun m hm => Progress.noConfusion hm, ?_⟩
      simp only [List.length_singleton, List.replicate_one, List.foldl_cons, List.foldl_nil,
        Looping.step, hn, h]
  | exhausted h hc =>
      intro calls n hn
      refine ⟨.gaveUp (n + 1), fun m hm => Progress.noConfusion hm, ?_⟩
      simp only [List.length_singleton, List.replicate_one, List.foldl_cons, List.foldl_nil,
        Looping.step, hn, h, hc, Bool.false_eq_true, if_false]
  | again h hc hrest ih =>
      intro calls n hn
      obtain ⟨p, hp, hfold⟩ := ih (Function.update calls x (.running (n + 1))) (n + 1)
        (Function.update_self ..)
      refine ⟨p, hp, ?_⟩
      rw [Function.update_idem] at hfold
      rw [List.length_cons, List.replicate_succ, List.foldl_cons, ← hfold]
      simp only [Looping.step, hn, h, hc, if_true]

end Loops

end Afs
