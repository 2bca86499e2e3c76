import Afs.Core.Prog

/-!
# A program beside another one

Two programs on one state take turns, command by command. `steps` moves one of them by a number of
commands, and the other runs with such moves before its own commands. `Passes` says what holds of the
first program whenever it is the other one's turn: it takes the other's actions as a relation, and a ghost
value tells how far the other has come.
-/

namespace Interaction

namespace Prog

variable {σ : Sig} {α S G : Type}

/-- A machine that leaves something beside its state alone. -/
def beside (m : Machine σ S) : Machine σ (G × S) := fun c x => ((m c x.2).1, x.1, (m c x.2).2)

/-- A program and its state one command later. Behind its end nothing moves. -/
def step (m : Machine σ S) : Prog σ α × S → Prog σ α × S
  | (.op c k, s) => (k (m c s).1, (m c s).2)
  | (.ret a, s) => (.ret a, s)
  | (.halt, s) => (.halt, s)

/-- A program and its state after the next `n` commands. -/
def steps (m : Machine σ S) : Nat → Prog σ α × S → Prog σ α × S
  | 0, x => x
  | n + 1, x => steps m n (step m x)

/-- Whenever the program has made its next commands, `j` of them together with `n` earlier ones, and the
actions `R` have come between, the assertion for `j` holds. -/
def Passes (m : Machine σ S) (R : G × S → G × S → Prop) (Q : Nat → G × S → Prop) :
    Prog σ α → Nat → G × S → Prop
  | .op c k, n, x => ∀ y, R x y → Q n y ∧ (k (m c y.2).1).Passes m R Q (n + 1) (y.1, (m c y.2).2)
  | .ret _, n, x => ∀ y, R x y → ∀ j, n ≤ j → Q j y
  | .halt, n, x => ∀ y, R x y → ∀ j, n ≤ j → Q j y

namespace Passes

variable {m : Machine σ S} {R : G × S → G × S → Prop} {Q : Nat → G × S → Prop} {n : Nat}
  {x y : G × S} {p : Prog σ α}

/-- The rule for one command, from every state that actions may have led to. -/
theorem call {c : σ.Cmd} {f : σ.Res c → Prog σ α}
    (h : ∀ y, R x y → Q n y ∧ (f (m c y.2).1).Passes m R Q (n + 1) (y.1, (m c y.2).2)) :
    (Prog.call c >>= f).Passes m R Q n x := h

theorem ret {a : α} (h : ∀ y, R x y → ∀ j, n ≤ j → Q j y) :
    (Prog.ret a : Prog σ α).Passes m R Q n x := h

/-- The assertion for now. -/
theorem now (h : p.Passes m R Q n x) (hxy : R x y) : Q n y := by
  cases p with
  | ret a => exact h y hxy n (Nat.le_refl n)
  | halt => exact h y hxy n (Nat.le_refl n)
  | op c k => exact (h y hxy).1

/-- Actions come between. -/
theorem act (htrans : ∀ z, R y z → R x z) (h : p.Passes m R Q n x) : p.Passes m R Q n y := by
  cases p with
  | ret a => exact fun z hz => h z (htrans z hz)
  | halt => exact fun z hz => h z (htrans z hz)
  | op c k => exact fun z hz => h z (htrans z hz)

/-- The next command. -/
theorem step (hrefl : ∀ x, R x x) (h : p.Passes m R Q n x) :
    (Prog.step m (p, x.2)).1.Passes m R Q (n + 1) (x.1, (Prog.step m (p, x.2)).2) := by
  cases p with
  | ret a => exact fun y hy j hj => h y hy j (Nat.le_of_succ_le hj)
  | halt => exact fun y hy j hj => h y hy j (Nat.le_of_succ_le hj)
  | op c k => exact (h x (hrefl x)).2

/-- Any number of commands. -/
theorem steps (hrefl : ∀ x, R x x) (k : Nat) (h : p.Passes m R Q n x) :
    (Prog.steps m k (p, x.2)).1.Passes m R Q (n + k) (x.1, (Prog.steps m k (p, x.2)).2) := by
  induction k generalizing p n x with
  | zero => exact h
  | succ k ih =>
      have hnext := ih (h.step hrefl)
      rw [Nat.add_assoc, Nat.add_comm 1 k] at hnext
      exact hnext

end Passes

end Prog

end Interaction
