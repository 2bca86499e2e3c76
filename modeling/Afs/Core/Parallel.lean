import Afs.Core.Pool

/-!
# Programs beside each other, each with a value of its own

A program of a pool keeps a ghost value: what it knows of the shared state and what belongs to it.
`Abides` looks at one program alone: whatever the state is in which its value is right, the next
command does what `M` admits and leaves it with a value for the rest. An invariant over all values
that such commands keep then holds in every interleaving.
-/

namespace Interaction

open Transition

variable {σ : Sig} {ι E S G α β : Type}

/-- In every state that agrees with the program's value, the next command makes a move that `M` admits,
and so on; what is returned satisfies `Q`. -/
def Prog.Abides (m : Machine σ S) (act : E → S → S) (ok : σ.Cmd → E → Prop) (L : G → S → Prop)
    (M : G → S → G → S → Prop) (Q : α → G → Prop) : Prog σ α → G → Prop
  | .ret a, g => Q a g
  | .halt, _ => True
  | .op c k, g => ∀ s e, ok c e → L g s →
      ∃ g', M g s g' (m c (act e s)).2 ∧ (k (m c (act e s)).1).Abides m act ok L M Q g'

namespace Prog.Abides

variable {m : Machine σ S} {act : E → S → S} {ok : σ.Cmd → E → Prop} {L : G → S → Prop}
  {M : G → S → G → S → Prop} {Q : α → G → Prop} {g : G}

theorem ret {a : α} (h : Q a g) : (Prog.ret a : Prog σ α).Abides m act ok L M Q g := h

/-- The rule for one command. -/
theorem call {c : σ.Cmd} {f : σ.Res c → Prog σ α}
    (h : ∀ s e, ok c e → L g s →
      ∃ g', M g s g' (m c (act e s)).2 ∧ (f (m c (act e s)).1).Abides m act ok L M Q g') :
    (Prog.call c >>= f).Abides m act ok L M Q g := h

/-- Sequencing. -/
theorem bind {p : Prog σ α} {f : α → Prog σ β} {Q' : β → G → Prop} (hp : p.Abides m act ok L M Q g)
    (hf : ∀ a g', Q a g' → (f a).Abides m act ok L M Q' g') :
    (p >>= f).Abides m act ok L M Q' g := by
  induction p generalizing g with
  | ret a => exact hf a g hp
  | halt => trivial
  | op c k ih =>
      intro s e he hs
      obtain ⟨g', hm, hk⟩ := hp s e he hs
      exact ⟨g', hm, ih _ hk⟩

/-- Another account of the same commands. -/
theorem mono {p : Prog σ α} {ok' : σ.Cmd → E → Prop} {L' : G → S → Prop} {M' : G → S → G → S → Prop}
    {Q' : α → G → Prop} (hp : p.Abides m act ok L M Q g) (hok : ∀ c e, ok' c e → ok c e)
    (hL : ∀ g s, L' g s → L g s) (hM : ∀ g s g' t, L' g s → M g s g' t → M' g s g' t)
    (hQ : ∀ a g, Q a g → Q' a g) : p.Abides m act ok' L' M' Q' g := by
  induction p generalizing g with
  | ret a => exact hQ a g hp
  | halt => trivial
  | op c k ih =>
      intro s e he hs
      obtain ⟨g', hm, hk⟩ := hp s e (hok c e he) (hL g s hs)
      exact ⟨g', hM g s g' _ hs hm, ih _ hk⟩

end Prog.Abides

variable [DecidableEq ι] {m : Machine σ S} {act : E → S → S} {ok : ι → σ.Cmd → E → Prop}
  {L : ι → G → S → Prop} {M : ι → G → S → G → S → Prop} {Q : ι → α → G → Prop} {P₀ P : Pool σ ι S α}
  {es : List (ι × E)} {γ₀ : ι → G}

/-- An interleaving whose events are as the commands of each program ask for. -/
def Pool.AdmitsEach (ok : ι → σ.Cmd → E → Prop) (P : Pool σ ι S α) (x : ι × E) : Prop :=
  ∀ c, (P.prog x.1).pending = some c → ok x.1 c x.2

/-- The same where all programs ask for the same. -/
def Pool.Admits (ok : σ.Cmd → E → Prop) (P : Pool σ ι S α) (x : ι × E) : Prop :=
  P.AdmitsEach (fun _ => ok) x

/-- The values of all programs after any interleaving: the invariant holds, and what a program returned
fits its value. -/
theorem Pool.abides_run (I : (ι → G) → S → Prop) (hL : ∀ γ s i, I γ s → L i (γ i) s)
    (hM : ∀ γ s i g' t, I γ s → M i (γ i) s g' t → I (Function.update γ i g') t)
    (hI : I γ₀ P₀.state) (hp : ∀ i, (P₀.prog i).Abides m act (ok i) (L i) (M i) (Q i) (γ₀ i))
    (h : Run (Pool.step m act) (Pool.AdmitsEach ok) P₀ es P) :
    ∃ γ, I γ P.state ∧ ∀ i a, P.result i = some a → Q i a (γ i) := by
  have hall : ∃ γ, I γ P.state ∧ ∀ i, (P.prog i).Abides m act (ok i) (L i) (M i) (Q i) (γ i) := by
    refine h.invariant
      (fun P => ∃ γ, I γ P.state ∧ ∀ i, (P.prog i).Abides m act (ok i) (L i) (M i) (Q i) (γ i))
      ⟨γ₀, hI, hp⟩ ?_
    rintro P ⟨i, e⟩ P' ⟨γ, hγ, hprog⟩ hadm hstep
    cases hi : P.prog i with
    | ret a => simp only [Pool.step, hi, reduceCtorEq] at hstep
    | halt => simp only [Pool.step, hi, reduceCtorEq] at hstep
    | op c k =>
        rw [Pool.step_of_op hi] at hstep
        obtain rfl := Option.some.inj hstep
        have hthis := hprog i
        rw [hi] at hthis
        obtain ⟨g', hm, hk⟩ := hthis P.state e (hadm c (by rw [hi]; rfl)) (hL γ P.state i hγ)
        refine ⟨Function.update γ i g', hM γ _ i g' _ hγ hm, fun j => ?_⟩
        by_cases hj : j = i
        · subst hj
          simp only [Function.update_self]
          exact hk
        · simp only [Function.update_of_ne hj]
          exact hprog j
  obtain ⟨γ, hγ, hprog⟩ := hall
  refine ⟨γ, hγ, fun i a ha => ?_⟩
  have hret := hprog i
  rw [Pool.result_eq_some.mp ha] at hret
  exact hret

end Interaction
