import Afs.Ops.Attempts
import Afs.Model.System

/-!
# What an event does to the parts of the system

An operation runs its program at one client and leaves the other clients alone, and so does a start.
A request executed late touches the server only.
-/

namespace Afs

open Posix Interaction

namespace World

variable {ι : Type} [DecidableEq ι] {P : Params ι} {w w' : World ι}

/-- The state in which a started client runs. -/
def started (w : World ι) (i : ι) (now : Timespec) (faults : List Fault) : St where
  client := { w.fresh i with proc := { (w.fresh i).proc with faults := faults } }
  server := w.serverAt now
  inflight := w.inflight
  net := []

section Finish

variable (i : ι) (p : Path) (next : Result → Option Bytes → List Session → List Session)
  (out : Option Result × St)

@[simp] theorem server_finish : (w.finish P i p next out).server = out.2.server := by
  unfold finish
  split <;> rfl

@[simp] theorem clients_finish_self : (w.finish P i p next out).clients i = out.2.client := by
  unfold finish
  split <;> exact Function.update_self ..

theorem clients_finish_of_ne {j : ι} (h : j ≠ i) :
    (w.finish P i p next out).clients j = w.clients j := by
  unfold finish
  split <;> exact Function.update_of_ne h ..

@[simp] theorem up_finish_self : (w.finish P i p next out).up i = out.1.isSome := by
  unfold finish
  split <;> exact Function.update_self ..

theorem sessions_finish_of_ne {j : ι} (h : j ≠ i) :
    (w.finish P i p next out).sessions j = w.sessions j := by
  unfold finish
  split <;> exact Function.update_of_ne h ..

theorem sessions_finish_self (r : Result) (t : St) :
    ∃ b, (w.finish P i p next (some r, t)).sessions i =
      Function.update (w.sessions i) p (next r b (w.sessions i p)) :=
  ⟨_, Function.update_self ..⟩

theorem sessions_finish_none {q : Path} (hnext : q = p → ∀ r b, next r b [] = [])
    (hq : w.sessions i q = []) : (w.finish P i p next out).sessions i q = [] := by
  unfold finish
  split
  · change Function.update w.sessions i (fun _ => []) i q = []
    rw [Function.update_self]
  · change Function.update w.sessions i _ i q = []
    rw [Function.update_self]
    by_cases hp : q = p
    · subst hp
      rw [Function.update_self, hq]
      exact hnext rfl ..
    · rw [Function.update_of_ne hp]
      exact hq

end Finish

/-- An operation that is possible: its client runs and its session is open. -/
theorem perform_eq_some {c : Call ι} {x : Option Result × World ι} :
    w.perform P c = some x ↔ w.up c.client = true ∧ ∃ fh, w.handle c = some fh ∧
      x = (((c.op.prog c.junk c.path (P.cache_path c.client) fh).run
          (Env.exec ⟨P.root_path, c.junk⟩) (w.state c.client c.now c.faults c.net)).1,
        w.finish P c.client c.path (fun r b l => c.op.sessions b r l)
          ((c.op.prog c.junk c.path (P.cache_path c.client) fh).run
            (Env.exec ⟨P.root_path, c.junk⟩) (w.state c.client c.now c.faults c.net))) := by
  unfold perform
  by_cases hup : w.up c.client = true
  · simp only [hup, if_true, true_and, Option.map_eq_some_iff]
    constructor
    · rintro ⟨fh, hfh, rfl⟩
      exact ⟨fh, hfh, rfl⟩
    · rintro ⟨fh, hfh, rfl⟩
      exact ⟨fh, hfh, rfl⟩
  · simp only [hup, Bool.false_eq_true, if_false, reduceCtorEq, false_and]

/-- What an operation that takes place hands back and leaves at its client and at the server. -/
theorem perform_run {c : Call ι} {x : Option Result} (h : w.perform P c = some (x, w')) :
    ∃ fh t, w.handle c = some fh ∧
      (c.op.prog c.junk c.path (P.cache_path c.client) fh).run (Env.exec ⟨P.root_path, c.junk⟩)
        (w.state c.client c.now c.faults c.net) = (x, t) ∧
      w'.clients c.client = t.client ∧ w'.server = t.server ∧ w'.up c.client = x.isSome := by
  obtain ⟨-, fh, hfh, hout⟩ := perform_eq_some.mp h
  obtain ⟨rfl, rfl⟩ := Prod.mk.inj hout
  exact ⟨fh, _, hfh, rfl, clients_finish_self .., server_finish .., up_finish_self ..⟩

/-- A run of the program of an operation in an open session is a step of the system. -/
theorem perform_of_run {c : Call ι} {fh : Int} {x : Option Result} {t : St}
    (hup : w.up c.client = true) (hfh : w.handle c = some fh)
    (hrun : (c.op.prog c.junk c.path (P.cache_path c.client) fh).run
      (Env.exec ⟨P.root_path, c.junk⟩) (w.state c.client c.now c.faults c.net) = (x, t)) :
    ∃ w', w.perform P c = some (x, w') ∧ w'.clients c.client = t.client ∧ w'.server = t.server := by
  refine ⟨_, perform_eq_some.mpr ⟨hup, fh, hfh, by rw [hrun]⟩, ?_, ?_⟩
  · rw [clients_finish_self]
  · rw [server_finish]

/-- A start runs `main` in the started state. -/
theorem step_start (i : ι) (now : Timespec) (junk : Junk) (faults : List Fault) :
    ∃ w', w.step P (.start i now junk faults) = some w' ∧
      w'.clients i = ((Client.main (P.cache_path i)).run (Env.exec ⟨P.root_path, junk⟩)
        (w.started i now faults)).2.client ∧
      (∀ j, j ≠ i → w'.clients j = w.clients j) ∧
      w'.up i = ((Client.main (P.cache_path i)).run (Env.exec ⟨P.root_path, junk⟩)
        (w.started i now faults)).1.isSome ∧
      w'.server = ((Client.main (P.cache_path i)).run (Env.exec ⟨P.root_path, junk⟩)
        (w.started i now faults)).2.server := by
  let v : World ι :=
    { w with
      clients := Function.update w.clients i (w.fresh i)
      sessions := Function.update w.sessions i fun _ => [] }
  have hv : v.state i now faults [] = w.started i now faults := by
    simp only [v, state, started, Function.update_self]
    rfl
  have hrun : ∀ s : St, ((Client.main (P.cache_path i) >>= fun _ => pure { ret := 0 } :
      Prog clientSig Result).run (Env.exec ⟨P.root_path, junk⟩) s).2 =
        ((Client.main (P.cache_path i)).run (Env.exec ⟨P.root_path, junk⟩) s).2 ∧
      ((Client.main (P.cache_path i) >>= fun _ => pure { ret := 0 } :
        Prog clientSig Result).run (Env.exec ⟨P.root_path, junk⟩) s).1.isSome =
        ((Client.main (P.cache_path i)).run (Env.exec ⟨P.root_path, junk⟩) s).1.isSome := by
    intro s
    rw [Prog.run_bind]
    split
    · next heq => simp [heq]
    · next heq => simp [heq]
  refine ⟨_, rfl, ?_, ?_, ?_, ?_⟩
  · rw [clients_finish_self, (hrun _).1, hv]
  · intro j hj
    rw [clients_finish_of_ne _ _ _ _ hj]
    exact Function.update_of_ne hj ..
  · rw [up_finish_self, (hrun _).2, hv]
  · rw [server_finish, (hrun _).1, hv]

/-- What an event does to a client: nothing, or a run of an operation, or a start. -/
theorem client_step {e : Event ι} (h : w.step P e = some w') (i : ι) :
    w'.clients i = w.clients i ∨
      (∃ c fh, e = .call c ∧ c.client = i ∧ w.handle c = some fh ∧
        w'.clients i = ((c.op.prog c.junk c.path (P.cache_path i) fh).run
          (Env.exec ⟨P.root_path, c.junk⟩) (w.state i c.now c.faults c.net)).2.client) ∨
      ∃ now junk faults, e = .start i now junk faults ∧
        w'.clients i = ((Client.main (P.cache_path i)).run (Env.exec ⟨P.root_path, junk⟩)
          (w.started i now faults)).2.client := by
  cases e with
  | call c =>
      obtain ⟨x, hperf, rfl⟩ := Option.map_eq_some_iff.mp h
      obtain ⟨-, fh, hfh, rfl⟩ := perform_eq_some.mp hperf
      by_cases hi : c.client = i
      · subst hi
        exact Or.inr (Or.inl ⟨c, fh, rfl, rfl, hfh, clients_finish_self ..⟩)
      · exact Or.inl (clients_finish_of_ne _ _ _ _ (Ne.symm hi))
  | start j now junk faults =>
      obtain ⟨v, hv, hself, hother, -⟩ := step_start (w := w) (P := P) j now junk faults
      obtain rfl := Option.some.inj (hv.symm.trans h)
      by_cases hi : j = i
      · subst hi
        exact Or.inr (Or.inr ⟨now, junk, faults, rfl, hself⟩)
      · exact Or.inl (hother i (Ne.symm hi))
  | late k now x =>
      simp only [step] at h
      split at h
      · cases h
      · obtain rfl := Option.some.inj h
        exact Or.inl rfl

end World

end Afs
