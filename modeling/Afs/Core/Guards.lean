import Afs.Core.Steps

/-!
# Programs whose commands answer as promised

`Guarded` looks at a program as a tree: as long as the results of its commands are among those that
`R` allows, every command that it issues satisfies `A`, it halts only if `H` holds, and what it
returns satisfies `Q`. No machine is involved, so nothing is assumed about the order of results; on a
machine whose results are allowed the promises are kept.
-/

namespace Interaction

namespace Prog

variable {σ : Sig} {α β : Type} {R : (c : σ.Cmd) → σ.Res c → Prop} {A : σ.Cmd → Prop} {H : Prop}

/-- Commands, halts and returned values of a program whose results are allowed by `R`. -/
def Guarded (R : (c : σ.Cmd) → σ.Res c → Prop) (A : σ.Cmd → Prop) (H : Prop) (Q : α → Prop) :
    Prog σ α → Prop
  | .ret a => Q a
  | .halt => H
  | .op c k => A c ∧ ∀ r, R c r → (k r).Guarded R A H Q

/-- One command, with a result that is allowed. -/
theorem Guarded.call {c : σ.Cmd} {f : σ.Res c → Prog σ α} {Q : α → Prop} (hc : A c)
    (hf : ∀ r, R c r → (f r).Guarded R A H Q) : (Prog.call c >>= f).Guarded R A H Q :=
  ⟨hc, hf⟩

/-- Sequencing: what the first part returns is what the second part starts from. -/
theorem Guarded.bind {p : Prog σ α} {f : α → Prog σ β} {P : α → Prop} {Q : β → Prop}
    (hp : p.Guarded R A H P) (hf : ∀ a, P a → (f a).Guarded R A H Q) : (p >>= f).Guarded R A H Q := by
  induction p with
  | ret a => exact hf a hp
  | halt => exact hp
  | op c k ih => exact ⟨hp.1, fun r hr => ih r (hp.2 r hr)⟩

/-- Promises that cannot be broken. -/
theorem Guarded.any (hA : ∀ c, A c) (hH : H) {Q : α → Prop} (hQ : ∀ a, Q a) (p : Prog σ α) :
    p.Guarded R A H Q := by
  induction p with
  | ret a => exact hQ a
  | halt => exact hH
  | op c k ih => exact ⟨hA c, fun r _ => ih r⟩

section Machine

variable {S : Type} {m : Machine σ S} {p : Prog σ α} {Q : α → Prop}

/-- On a machine with allowed results every command satisfies `A`. -/
theorem Guarded.meets (hp : p.Guarded R A H Q) (hm : ∀ c s, R c (m c s).1) (s : S) :
    p.Meets m (fun c _ => A c) s := by
  induction p generalizing s with
  | ret a => trivial
  | halt => trivial
  | op c k ih => exact ⟨hp.1, ih _ (hp.2 _ (hm c s)) _⟩

/-- On a machine with allowed results the returned value satisfies `Q`. -/
theorem Guarded.of_run (hp : p.Guarded R A H Q) (hm : ∀ c s, R c (m c s).1) {s t : S} {a : α}
    (h : p.run m s = (some a, t)) : Q a := by
  induction p generalizing s with
  | ret b =>
      obtain ⟨hb, -⟩ := Prod.mk.inj h
      exact Option.some.inj hb ▸ hp
  | halt => cases h
  | op c k ih => exact ih _ (hp.2 _ (hm c s)) h

end Machine

end Prog

end Interaction
