import Afs.Core.Steps

/-!
# Programs followed by a ghost value

A relation says which results a command may give under a ghost value, and what becomes of the value.
`Tracks` follows a program through all results that the relation admits, up to what it returns. A machine
whose commands keep to the relation ends in such a result. One ghost value of use is whether all commands
so far satisfied a condition on the states that they found.
-/

namespace Interaction

namespace Prog

variable {σ : Sig} {α β S G : Type} {next : (c : σ.Cmd) → G → σ.Res c → G → Prop}

/-- Whatever results the relation admits, the program returns only with `Q`. -/
def Tracks (next : (c : σ.Cmd) → G → σ.Res c → G → Prop) (Q : α → G → Prop) : Prog σ α → G → Prop
  | .ret a, g => Q a g
  | .halt, _ => True
  | .op c k, g => ∀ r g', next c g r g' → (k r).Tracks next Q g'

namespace Tracks

variable {Q : α → G → Prop} {g : G}

/-- One command, with every result that is admitted. -/
theorem call {c : σ.Cmd} {f : σ.Res c → Prog σ α} (h : ∀ r g', next c g r g' → (f r).Tracks next Q g') :
    (Prog.call c >>= f).Tracks next Q g := h

/-- Sequencing. -/
theorem bind {p : Prog σ α} {f : α → Prog σ β} {P : α → G → Prop} {Q : β → G → Prop}
    (hp : p.Tracks next P g) (hf : ∀ a g', P a g' → (f a).Tracks next Q g') :
    (p >>= f).Tracks next Q g := by
  induction p generalizing g with
  | ret a => exact hf a g hp
  | halt => trivial
  | op c k ih => exact fun r g' hr => ih r (hp r g' hr)

/-- A machine that keeps to the relation, as far as its commands satisfy `H`. -/
theorem of_run {m : Machine σ S} {H : σ.Cmd → S → Prop} {f : S → G} {p : Prog σ α} {s t : S} {a : α}
    (hp : p.Tracks next Q (f s)) (hm : p.Meets m H s)
    (hnext : ∀ c s, H c s → next c (f s) (m c s).1 (f (m c s).2)) (h : p.run m s = (some a, t)) :
    Q a (f t) := by
  induction p generalizing s with
  | ret b =>
      obtain ⟨hb, rfl⟩ := Prod.mk.inj h
      exact Option.some.inj hb ▸ hp
  | halt => cases h
  | op c k ih => exact ih _ (hp _ _ (hnext c s hm.1)) hm.2 h

end Tracks

/-- A machine that notes whether all commands so far satisfied `C`. -/
def noting (m : Machine σ S) (C : σ.Cmd → S → Prop) : Machine σ (S × Prop) :=
  fun c x => ((m c x.1).1, (m c x.1).2, x.2 ∧ C c x.1)

section Noting

variable {m : Machine σ S} {C : σ.Cmd → S → Prop} {s : S} {b : Prop}

/-- The note changes neither the result nor the state, and is about the commands of the run. -/
theorem run_noting (p : Prog σ α) :
    (p.run (noting m C) (s, b)).1 = (p.run m s).1 ∧ (p.run (noting m C) (s, b)).2.1 = (p.run m s).2 ∧
      ((p.run (noting m C) (s, b)).2.2 ↔ b ∧ p.Meets m C s) := by
  induction p generalizing s b with
  | ret a => exact ⟨rfl, rfl, (and_iff_left trivial).symm⟩
  | halt => exact ⟨rfl, rfl, (and_iff_left trivial).symm⟩
  | op c k ih =>
      obtain ⟨hres, hstate, hnote⟩ := ih (m c s).1 (s := (m c s).2) (b := b ∧ C c s)
      exact ⟨hres, hstate, hnote.trans and_assoc⟩

/-- Other conditions are not affected by the note. -/
theorem Meets.noting {H : σ.Cmd → S → Prop} {p : Prog σ α} (hp : p.Meets m H s) :
    p.Meets (noting m C) (fun c x => H c x.1) (s, b) := by
  induction p generalizing s b with
  | ret a => trivial
  | halt => trivial
  | op c k ih => exact ⟨hp.1, ih _ hp.2⟩

end Noting

end Prog

end Interaction
