import Afs.Core.Prog
import Afs.Core.Runs

/-!
# Programs that take turns on one state

A pool is a family of programs over one shared state. An event picks a program, lets the
environment act, and executes the next command of that program. Every interleaving of the
commands is a run of the pool.
-/

namespace Interaction

variable {σ : Sig} {ι E S α : Type}

/-- The command that a program issues next. -/
def Prog.pending : Prog σ α → Option σ.Cmd
  | .op c _ => some c
  | _ => none

@[simp] theorem Prog.pending_op (c : σ.Cmd) (k : σ.Res c → Prog σ α) :
    (Prog.op c k).pending = some c := rfl

/-- Programs, each with what is left of it, over one state. -/
structure Pool (σ : Sig) (ι S α : Type) where
  /-- What each program still has to do. -/
  prog : ι → Prog σ α
  /-- The state they share. -/
  state : S

namespace Pool

/-- The value that a program returned, once it has. -/
def result (P : Pool σ ι S α) (i : ι) : Option α :=
  match P.prog i with
  | .ret a => some a
  | _ => none

theorem result_eq_some {P : Pool σ ι S α} {i : ι} {a : α} :
    P.result i = some a ↔ P.prog i = .ret a := by
  unfold result
  cases P.prog i <;> simp

variable [DecidableEq ι] (m : Machine σ S) (act : E → S → S)

/-- One command of program `i`, after the environment did `e`. A program that has ended takes no
further step. -/
def step (P : Pool σ ι S α) : ι × E → Option (Pool σ ι S α)
  | (i, e) =>
    match P.prog i with
    | .op c k =>
      let out := m c (act e P.state)
      some ⟨Function.update P.prog i (k out.1), out.2⟩
    | _ => none

variable {m act}

/-- The step of a program that has a command left. -/
theorem step_of_op {P : Pool σ ι S α} {i : ι} {e : E} {c : σ.Cmd} {k : σ.Res c → Prog σ α}
    (h : P.prog i = .op c k) :
    P.step m act (i, e) =
      some ⟨Function.update P.prog i (k (m c (act e P.state)).1), (m c (act e P.state)).2⟩ := by
  simp only [step, h]

/-- A program that returned takes no step. -/
theorem step_of_ret {P : Pool σ ι S α} {i : ι} {e : E} {a : α} (h : P.prog i = .ret a) :
    P.step m act (i, e) = none := by simp only [step, h]

end Pool

end Interaction
