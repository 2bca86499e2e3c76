import Mathlib.Logic.Function.Basic

/-!
# Programs as trees of commands

A program is a finite tree: it returns, it halts the process, or it issues one command and
continues with the result. A machine gives every command its effect on a state; `run` executes
a whole program on a machine. `Yields` is total correctness of such a run, with the rules that
compose it along `bind`.
-/

namespace Interaction

/-- The commands of a machine and the type of the result of each. -/
structure Sig where
  /-- The commands. -/
  Cmd : Type
  /-- What a command hands back to the program. -/
  Res : Cmd → Type

/-- The effect of every command on a state. -/
abbrev Machine (σ : Sig) (S : Type) := (c : σ.Cmd) → S → σ.Res c × S

/-- A program over the commands of `σ` that returns an `α`. -/
inductive Prog (σ : Sig) (α : Type) where
  /-- Normal return. -/
  | ret (a : α)
  /-- The process ends here and nothing is returned. -/
  | halt
  /-- One command; the rest of the program depends on its result. -/
  | op (c : σ.Cmd) (k : σ.Res c → Prog σ α)

namespace Prog

variable {σ : Sig} {α β S : Type}

/-- Sequencing: a halted program stays halted. -/
def bind : Prog σ α → (α → Prog σ β) → Prog σ β
  | .ret a, f => f a
  | .halt, _ => .halt
  | .op c k, f => .op c fun r => (k r).bind f

instance : Monad (Prog σ) where
  pure := .ret
  bind := Prog.bind

@[simp] theorem pure_eq (a : α) : (pure a : Prog σ α) = .ret a := rfl

@[simp] theorem ret_bind (a : α) (f : α → Prog σ β) : (Prog.ret a >>= f) = f a := rfl

@[simp] theorem halt_bind (f : α → Prog σ β) : ((Prog.halt : Prog σ α) >>= f) = .halt := rfl

@[simp] theorem op_bind (c : σ.Cmd) (k : σ.Res c → Prog σ α) (f : α → Prog σ β) :
    (Prog.op c k >>= f) = .op c fun r => k r >>= f := rfl

theorem bind_assoc {γ : Type} (p : Prog σ α) (f : α → Prog σ β) (g : β → Prog σ γ) :
    (p >>= f) >>= g = p >>= fun a => f a >>= g := by
  induction p with
  | ret a => rfl
  | halt => rfl
  | op c k ih => simp only [op_bind, ih]

theorem bind_ret (p : Prog σ α) : (p >>= fun a => .ret a) = p := by
  induction p with
  | ret a => rfl
  | halt => rfl
  | op c k ih => simp only [op_bind, ih]

/-- The program that issues one command and returns its result. -/
def call (c : σ.Cmd) : Prog σ (σ.Res c) := .op c .ret

/-- Execute a program to its end; `none` is the outcome of a halted process. -/
def run (m : Machine σ S) : Prog σ α → S → Option α × S
  | .ret a, s => (some a, s)
  | .halt, s => (none, s)
  | .op c k, s => (k (m c s).1).run m (m c s).2

@[simp] theorem run_ret (m : Machine σ S) (a : α) (s : S) :
    (Prog.ret a : Prog σ α).run m s = (some a, s) := rfl

@[simp] theorem run_halt (m : Machine σ S) (s : S) :
    (Prog.halt : Prog σ α).run m s = (none, s) := rfl

@[simp] theorem run_op (m : Machine σ S) (c : σ.Cmd) (k : σ.Res c → Prog σ α) (s : S) :
    (Prog.op c k).run m s = (k (m c s).1).run m (m c s).2 := rfl

@[simp] theorem run_call_bind (m : Machine σ S) (c : σ.Cmd) (f : σ.Res c → Prog σ α) (s : S) :
    (call c >>= f).run m s = (f (m c s).1).run m (m c s).2 := rfl

@[simp] theorem run_call (m : Machine σ S) (c : σ.Cmd) (s : S) :
    (call c).run m s = (some (m c s).1, (m c s).2) := rfl

/-- A sequence runs its first part and then, unless that halted, its second part. -/
theorem run_bind (m : Machine σ S) (p : Prog σ α) (f : α → Prog σ β) (s : S) :
    (p >>= f).run m s = match p.run m s with
      | (some a, t) => (f a).run m t
      | (none, t) => (none, t) := by
  induction p generalizing s with
  | ret a => rfl
  | halt => rfl
  | op c k ih => simpa only [op_bind, run_op] using ih (m c s).1 (m c s).2

/-- A value made from the result does not change where a program ends. -/
theorem run_bind_ret (m : Machine σ S) (p : Prog σ α) (f : α → β) (s : S) :
    ((p >>= fun a => .ret (f a)).run m s).2 = (p.run m s).2 := by
  rw [run_bind]
  split
  · next heq => rw [heq, run_ret]
  · next heq => rw [heq]

/-- Execute a program to its end while the environment acts before each of its commands. There is
no outcome when the program halts, or when the actions are not as many as the commands. -/
def interleave {E : Type} (m : Machine σ S) (act : E → S → S) :
    Prog σ α → List E → S → Option (α × S)
  | .ret a, [], s => some (a, s)
  | .op c k, e :: es, s => (k (m c (act e s)).1).interleave m act es (m c (act e s)).2
  | _, _, _ => none

section Interleave

variable {E : Type} {m : Machine σ S} {act : E → S → S} {es : List E} {s : S} {x : α × S}

/-- The first command of an interleaved program and the action before it. -/
theorem interleave_op {c : σ.Cmd} {k : σ.Res c → Prog σ α}
    (h : (Prog.op c k).interleave m act es s = some x) :
    ∃ e es', es = e :: es' ∧
      (k (m c (act e s)).1).interleave m act es' (m c (act e s)).2 = some x := by
  cases es with
  | nil => cases h
  | cons e es' => exact ⟨e, es', rfl, h⟩

theorem interleave_ret {a : α} (h : (Prog.ret a : Prog σ α).interleave m act es s = some x) :
    es = [] ∧ x = (a, s) := by
  cases es with
  | nil => exact ⟨rfl, (Option.some.inj h).symm⟩
  | cons e es' => cases h

theorem interleave_halt : (Prog.halt : Prog σ α).interleave m act es s ≠ some x := by
  cases es <;> exact nofun

end Interleave

/-- Every command that the program may issue satisfies `A`, whatever the commands before it
returned. -/
def Uses (A : σ.Cmd → Prop) : Prog σ α → Prop
  | .ret _ => True
  | .halt => True
  | .op c k => A c ∧ ∀ r, (k r).Uses A

section Uses

variable {A : σ.Cmd → Prop}

@[simp] theorem uses_ret (a : α) : (Prog.ret a : Prog σ α).Uses A := trivial

@[simp] theorem uses_halt : (Prog.halt : Prog σ α).Uses A := trivial

theorem Uses.call {c : σ.Cmd} {f : σ.Res c → Prog σ α} (hc : A c) (hf : ∀ r, (f r).Uses A) :
    (Prog.call c >>= f).Uses A := ⟨hc, hf⟩

theorem Uses.after {c : σ.Cmd} {f : σ.Res c → Prog σ α} (h : (Prog.call c >>= f).Uses A)
    (r : σ.Res c) : (f r).Uses A := h.2 r

theorem Uses.one {c : σ.Cmd} (hc : A c) : (Prog.call c).Uses A := ⟨hc, fun _ => trivial⟩

theorem Uses.bind {p : Prog σ α} {f : α → Prog σ β} (hp : p.Uses A) (hf : ∀ a, (f a).Uses A) :
    (p >>= f).Uses A := by
  induction p with
  | ret a => exact hf a
  | halt => trivial
  | op c k ih => exact ⟨hp.1, fun r => ih r (hp.2 r)⟩

theorem Uses.mono {A' : σ.Cmd → Prop} {p : Prog σ α} (hp : p.Uses A) (h : ∀ c, A c → A' c) :
    p.Uses A' := by
  induction p with
  | ret a => trivial
  | halt => trivial
  | op c k ih => exact ⟨h c hp.1, fun r => ih r (hp.2 r)⟩

/-- Nothing is asked of the commands. -/
theorem Uses.any (p : Prog σ α) : p.Uses fun _ => True := by
  induction p with
  | ret a => trivial
  | halt => trivial
  | op c k ih => exact ⟨trivial, ih⟩

/-- What every command of a program preserves, its run preserves. -/
theorem Uses.invariant {m : Machine σ S} {I : S → Prop} {p : Prog σ α} (hp : p.Uses A)
    (h : ∀ c s, A c → I s → I (m c s).2) {s : S} (hs : I s) : I (p.run m s).2 := by
  induction p generalizing s with
  | ret a => exact hs
  | halt => exact hs
  | op c k ih => exact ih _ (hp.2 _) (h c s hp.1 hs)

/-- Runs on two machines stay related when every command of the program returns the same on both
and keeps the relation. -/
theorem Uses.related {T : Type} {m : Machine σ S} {m' : Machine σ T} {R : S → T → Prop}
    {p : Prog σ α} (hp : p.Uses A)
    (h : ∀ c s t, A c → R s t → (m c s).1 = (m' c t).1 ∧ R (m c s).2 (m' c t).2) {s : S} {t : T}
    (hs : R s t) : (p.run m s).1 = (p.run m' t).1 ∧ R (p.run m s).2 (p.run m' t).2 := by
  induction p generalizing s t with
  | ret a => exact ⟨rfl, hs⟩
  | halt => exact ⟨rfl, hs⟩
  | op c k ih =>
      obtain ⟨hres, hnext⟩ := h c s t hp.1 hs
      simp only [run_op, hres]
      exact ih _ (hp.2 _) hnext

end Uses

/-- Total correctness of one run: it returns, and the result and final state satisfy `Q`. -/
def Yields (m : Machine σ S) (p : Prog σ α) (s : S) (Q : α → S → Prop) : Prop :=
  ∃ a t, p.run m s = (some a, t) ∧ Q a t

variable {m : Machine σ S} {s : S}

theorem Yields.ret {a : α} {Q : α → S → Prop} (h : Q a s) : Yields m (.ret a) s Q :=
  ⟨a, s, rfl, h⟩

/-- A command step: continue from the result and state the machine gives. -/
theorem Yields.call {c : σ.Cmd} {f : σ.Res c → Prog σ α} {Q : α → S → Prop}
    {r : σ.Res c} {t : S} (hc : m c s = (r, t)) (h : Yields m (f r) t Q) :
    Yields m (Prog.call c >>= f) s Q := by
  obtain ⟨a, u, hr, hq⟩ := h
  exact ⟨a, u, by rw [run_call_bind, hc]; exact hr, hq⟩

/-- A command step whose result is not looked into. -/
theorem Yields.next {c : σ.Cmd} {f : σ.Res c → Prog σ α} {Q : α → S → Prop}
    (h : Yields m (f (m c s).1) (m c s).2 Q) : Yields m (Prog.call c >>= f) s Q := h

/-- Sequencing: whatever the first part guarantees is what the second part may assume. -/
theorem Yields.bind {p : Prog σ α} {f : α → Prog σ β} {P : α → S → Prop} {Q : β → S → Prop}
    (hp : Yields m p s P) (hf : ∀ a t, P a t → Yields m (f a) t Q) :
    Yields m (p >>= f) s Q := by
  obtain ⟨a, t, hr, ha⟩ := hp
  obtain ⟨b, u, hs, hb⟩ := hf a t ha
  exact ⟨b, u, by rw [run_bind, hr]; exact hs, hb⟩

theorem Yields.mono {p : Prog σ α} {P Q : α → S → Prop} (hp : Yields m p s P)
    (h : ∀ a t, P a t → Q a t) : Yields m p s Q := by
  obtain ⟨a, t, hr, ha⟩ := hp
  exact ⟨a, t, hr, h a t ha⟩

/-- The guarantee of a terminating run, read at the actual result of `run`. -/
theorem Yields.of_run {p : Prog σ α} {Q : α → S → Prop} (h : Yields m p s Q)
    {a : α} {t : S} (hr : p.run m s = (some a, t)) : Q a t := by
  obtain ⟨b, u, hs, hq⟩ := h
  obtain ⟨hb, rfl⟩ := Prod.mk.inj (hs.symm.trans hr)
  exact Option.some.inj hb ▸ hq

end Prog

end Interaction
