import Afs.Core.Prog

/-!
# Runs looked at command by command

A condition may be asked of every command of one run, in the state that the command finds. Programs
put together from single commands and from whole blocks preserve under such a condition what each
of these preserves, also where a block breaks it on the way. A process that is stopped leaves the
state after the commands it has issued so far.
-/

namespace Interaction

namespace Prog

variable {σ : Sig} {α β S : Type} {m : Machine σ S} {H : σ.Cmd → S → Prop} {I : S → Prop} {s : S}

/-- Every command of the run satisfies `H` in the state that it finds. -/
def Meets (m : Machine σ S) (H : σ.Cmd → S → Prop) : Prog σ α → S → Prop
  | .ret _, _ => True
  | .halt, _ => True
  | .op c k, s => H c s ∧ (k (m c s).1).Meets m H (m c s).2

@[simp] theorem meets_ret (a : α) : (Prog.ret a : Prog σ α).Meets m H s := trivial

/-- Nothing is asked of the commands. -/
theorem meets_true (p : Prog σ α) : p.Meets m (fun _ _ => True) s := by
  induction p generalizing s with
  | ret a => trivial
  | halt => trivial
  | op c k ih => exact ⟨trivial, ih _⟩

theorem meets_call_bind {c : σ.Cmd} {f : σ.Res c → Prog σ α} :
    (call c >>= f).Meets m H s ↔ H c s ∧ (f (m c s).1).Meets m H (m c s).2 := Iff.rfl

/-- The condition can be checked by running the program. -/
def decidableMeets (m : Machine σ S) [∀ c s, Decidable (H c s)] :
    (p : Prog σ α) → (s : S) → Decidable (p.Meets m H s)
  | .ret _, _ => .isTrue trivial
  | .halt, _ => .isTrue trivial
  | .op c k, s =>
    haveI := decidableMeets m (k (m c s).1) (m c s).2
    inferInstanceAs (Decidable (H c s ∧ (k (m c s).1).Meets m H (m c s).2))

instance [∀ c s, Decidable (H c s)] (p : Prog σ α) : Decidable (p.Meets m H s) :=
  decidableMeets m p s

/-- The condition on a sequence is one on its first part, and on its second part from where the
first one returns. -/
theorem Meets.of_bind {p : Prog σ α} {f : α → Prog σ β} (h : (p >>= f).Meets m H s) :
    p.Meets m H s ∧ ∀ a t, p.run m s = (some a, t) → (f a).Meets m H t := by
  induction p generalizing s with
  | ret a =>
      refine ⟨trivial, fun b t ht => ?_⟩
      obtain ⟨hb, rfl⟩ := Prod.mk.inj ht
      exact Option.some.inj hb ▸ h
  | halt => exact ⟨trivial, fun b t ht => by cases ht⟩
  | op c k ih =>
      obtain ⟨hk, hf⟩ := ih (m c s).1 h.2
      exact ⟨⟨h.1, hk⟩, hf⟩

/-- A sequence meets the condition when its parts do, the second one from where the first one
returns. -/
theorem Meets.bind_of_run {p : Prog σ α} {f : α → Prog σ β} (hp : p.Meets m H s)
    (hf : ∀ a t, p.run m s = (some a, t) → (f a).Meets m H t) : (p >>= f).Meets m H s := by
  induction p generalizing s with
  | ret a => exact hf a s rfl
  | halt => trivial
  | op c k ih => exact ⟨hp.1, ih _ hp.2 fun a t ht => hf a t ht⟩

theorem Meets.bind {p : Prog σ α} {f : α → Prog σ β} (hp : p.Meets m H s)
    (hf : ∀ a t, (f a).Meets m H t) : (p >>= f).Meets m H s :=
  hp.bind_of_run fun a t _ => hf a t

/-- From every state in which `I` holds, a run whose commands satisfy `H` ends with `I`. -/
def Keeps (m : Machine σ S) (H : σ.Cmd → S → Prop) (I : S → Prop) (p : Prog σ α) : Prop :=
  ∀ s, p.Meets m H s → I s → I (p.run m s).2

theorem Keeps.bind {p : Prog σ α} {f : α → Prog σ β} (hp : p.Keeps m H I)
    (hf : ∀ a, (f a).Keeps m H I) : (p >>= f).Keeps m H I := by
  intro s hs hi
  obtain ⟨hp', hf'⟩ := hs.of_bind
  have hmid := hp s hp' hi
  rw [run_bind]
  split
  · next a t heq =>
    rw [heq] at hmid
    exact hf a t (hf' a t heq) hmid
  · next t heq =>
    rw [heq] at hmid
    exact hmid

theorem Meets.mono {H' : σ.Cmd → S → Prop} {p : Prog σ α} (hp : p.Meets m H s)
    (h : ∀ c s, H c s → H' c s) : p.Meets m H' s := by
  induction p generalizing s with
  | ret a => trivial
  | halt => trivial
  | op c k ih => exact ⟨h c s hp.1, ih _ hp.2⟩

/-- What every command that satisfies `H` preserves, a run of such commands preserves. -/
theorem Meets.invariant {p : Prog σ α} (hp : p.Meets m H s)
    (h : ∀ c s, H c s → I s → I (m c s).2) (hs : I s) : I (p.run m s).2 := by
  induction p generalizing s with
  | ret a => exact hs
  | halt => exact hs
  | op c k ih => exact ih _ hp.2 (h c s hp.1 hs)

/-- What is asked of the commands whatever their state, the commands of every run satisfy. -/
theorem Uses.meets {A : σ.Cmd → Prop} {p : Prog σ α} (hp : p.Uses A) :
    p.Meets m (fun c _ => A c) s := by
  induction p generalizing s with
  | ret a => trivial
  | halt => trivial
  | op c k ih => exact ⟨hp.1, ih _ (hp.2 _)⟩

/-- A run from `N` in which some command does not satisfy `H` ends with `I`. -/
def Leads (m : Machine σ S) (H : σ.Cmd → S → Prop) (N I : S → Prop) (p : Prog σ α) : Prop :=
  ∀ s, N s → ¬ p.Meets m H s → I (p.run m s).2

namespace Leads

variable {N : S → Prop}

theorem of_meets {p : Prog σ α} (h : ∀ s, N s → p.Meets m H s) : p.Leads m H N I :=
  fun s hn hno => absurd (h s hn) hno

/-- A command that satisfies `H`. -/
theorem call {c : σ.Cmd} {f : σ.Res c → Prog σ α} (hc : ∀ s, H c s) (hn : ∀ s, N s → N (m c s).2)
    (hf : ∀ r, (f r).Leads m H N I) : (Prog.call c >>= f).Leads m H N I :=
  fun s hs hno => hf _ _ (hn s hs) fun hmeets => hno (meets_call_bind.mpr ⟨hc s, hmeets⟩)

/-- A command that may be the one that does not satisfy `H`, as the only one. -/
theorem last {c : σ.Cmd} {f : σ.Res c → Prog σ α} (hf : ∀ r s, (f r).Meets m H s)
    (h : ∀ s, N s → ¬ H c s → I ((f (m c s).1).run m (m c s).2).2) :
    (Prog.call c >>= f).Leads m H N I := by
  intro s hs hno
  refine h s hs fun hc => hno ?_
  exact meets_call_bind.mpr ⟨hc, hf _ _⟩

/-- The rest of a sequence preserves `I`. -/
theorem bind_left {p : Prog σ α} {f : α → Prog σ β} (hp : p.Leads m H N I)
    (hf : ∀ a s, (f a).Meets m H s) (h : ∀ a s, I s → I ((f a).run m s).2) :
    (p >>= f).Leads m H N I := by
  intro s hs hno
  have hend : I (p.run m s).2 := hp s hs fun hmeets => hno (hmeets.bind hf)
  rw [run_bind]
  split
  · next a t heq =>
    rw [heq] at hend
    exact h a t hend
  · next t heq =>
    rw [heq] at hend
    exact hend

/-- The first part of a sequence satisfies `H`. -/
theorem bind_right {p : Prog σ α} {f : α → Prog σ β} (hp : ∀ s, p.Meets m H s)
    (hn : ∀ s, N s → N (p.run m s).2) (hf : ∀ a, (f a).Leads m H N I) :
    (p >>= f).Leads m H N I := by
  intro s hs hno
  have hmid := hn s hs
  rw [run_bind]
  split
  · next a t heq =>
    rw [heq] at hmid
    refine hf a t hmid fun hmeets => hno ?_
    exact (hp s).bind_of_run fun b u hb => by
      obtain ⟨hab, rfl⟩ := Prod.mk.inj (heq.symm.trans hb)
      exact Option.some.inj hab ▸ hmeets
  · next t heq =>
    refine absurd ((hp s).bind_of_run fun b u hb => ?_) hno
    cases heq.symm.trans hb

end Leads

/-- Programs put together from commands in `A` and blocks in `B`. -/
inductive Made (A : σ.Cmd → Prop) (B : Prog σ Unit → Prop) : Prog σ α → Prop where
  | ret (a : α) : Made A B (.ret a)
  | halt : Made A B .halt
  | op (c : σ.Cmd) (k : σ.Res c → Prog σ α) (hc : A c) (hk : ∀ r, Made A B (k r)) :
      Made A B (.op c k)
  | block (b : Prog σ Unit) (f : Unit → Prog σ α) (hb : B b) (hf : Made A B (f ())) :
      Made A B (b >>= f)

namespace Made

variable {A : σ.Cmd → Prop} {B : Prog σ Unit → Prop}

theorem call {c : σ.Cmd} {f : σ.Res c → Prog σ α} (hc : A c) (hf : ∀ r, (f r).Made A B) :
    (Prog.call c >>= f).Made A B := op c f hc hf

theorem bind {p : Prog σ α} {f : α → Prog σ β} (hp : p.Made A B) (hf : ∀ a, (f a).Made A B) :
    (p >>= f).Made A B := by
  induction hp with
  | ret a => exact hf a
  | halt => exact halt
  | op c k hc _ ih => exact op c _ hc ih
  | block b g hb _ ih =>
      rw [bind_assoc]
      exact block b _ hb ih

/-- What the commands and the commands of the blocks satisfy. -/
theorem uses {A' : σ.Cmd → Prop} {p : Prog σ α} (hp : p.Made A B) (hA : ∀ c, A c → A' c)
    (hB : ∀ b, B b → b.Uses A') : p.Uses A' := by
  induction hp with
  | ret a => trivial
  | halt => trivial
  | op c k hc _ ih => exact ⟨hA c hc, ih⟩
  | block b f hb _ ih => exact (hB b hb).bind fun _ => ih

/-- What the commands and the blocks preserve, the program preserves. -/
theorem keeps {p : Prog σ α} (hp : p.Made A B) (hA : ∀ c s, A c → H c s → I s → I (m c s).2)
    (hB : ∀ b, B b → b.Keeps m H I) : p.Keeps m H I := by
  induction hp with
  | ret a => exact fun s _ hi => hi
  | halt => exact fun s _ hi => hi
  | op c k hc _ ih => exact fun s hs hi => ih _ _ hs.2 (hA c s hc hs.1 hi)
  | block b f hb _ ih => exact (hB b hb).bind fun _ => ih

/-- The same without a condition on the run. -/
theorem invariant {p : Prog σ α} (hp : p.Made A B) (hA : ∀ c s, A c → I s → I (m c s).2)
    (hB : ∀ b s, B b → I s → I (b.run m s).2) (hs : I s) : I (p.run m s).2 :=
  hp.keeps (H := fun _ _ => True) (fun c s hc _ hi => hA c s hc hi)
    (fun b hb s _ hi => hB b s hb hi) s (meets_true p) hs

end Made

/-- The program never halts the process. -/
def Total : Prog σ α → Prop
  | .ret _ => True
  | .halt => False
  | .op _ k => ∀ r, (k r).Total

theorem Total.call {c : σ.Cmd} {f : σ.Res c → Prog σ α} (hf : ∀ r, (f r).Total) :
    (Prog.call c >>= f).Total := hf

theorem Total.bind {p : Prog σ α} {f : α → Prog σ β} (hp : p.Total) (hf : ∀ a, (f a).Total) :
    (p >>= f).Total := by
  induction p with
  | ret a => exact hf a
  | halt => exact hp.elim
  | op c k ih => exact fun r => ih r (hp r)

/-- A program that never halts returns with what its commands preserve. -/
theorem Uses.yields {A : σ.Cmd → Prop} {p : Prog σ α} (hp : p.Uses A) (ht : p.Total)
    (h : ∀ c s, A c → I s → I (m c s).2) (hs : I s) : Yields m p s fun _ t => I t := by
  induction p generalizing s with
  | ret a => exact Yields.ret hs
  | halt => exact ht.elim
  | op c k ih =>
      obtain ⟨a, t, hr, hi⟩ := ih _ (hp.2 _) (ht _) (h c s hp.1 hs)
      exact ⟨a, t, hr, hi⟩

/-- A machine that keeps a list of what its commands are tagged with. -/
def logged {τ : Type} (m : Machine σ S) (tag : σ.Cmd → Option τ) : Machine σ (S × List τ) :=
  fun c x => ((m c x.1).1, (m c x.1).2, (tag c).elim x.2 fun t => x.2 ++ [t])

section Logged

variable {τ : Type} {tag : σ.Cmd → Option τ} {l : List τ}

/-- The list changes neither the result nor the state. -/
theorem run_logged (p : Prog σ α) :
    (p.run (logged m tag) (s, l)).1 = (p.run m s).1 ∧
      (p.run (logged m tag) (s, l)).2.1 = (p.run m s).2 := by
  induction p generalizing s l with
  | ret a => exact ⟨rfl, rfl⟩
  | halt => exact ⟨rfl, rfl⟩
  | op c k ih => exact ih _

/-- The list only grows. -/
theorem prefix_run_logged (p : Prog σ α) : l <+: (p.run (logged m tag) (s, l)).2.2 := by
  induction p generalizing s l with
  | ret a => exact List.prefix_refl l
  | halt => exact List.prefix_refl l
  | op c k ih =>
      refine List.IsPrefix.trans ?_ (ih _)
      cases tag c with
      | none => exact List.prefix_refl l
      | some t => exact List.prefix_append l [t]

/-- What all tags of a run satisfy, the list goes on to satisfy. -/
theorem Meets.run_logged {T : τ → Prop} {p : Prog σ α}
    (hp : p.Meets m (fun c _ => ∀ t ∈ tag c, T t) s) (hl : ∀ t ∈ l, T t) :
    ∀ t ∈ (p.run (logged m tag) (s, l)).2.2, T t := by
  induction p generalizing s l with
  | ret a => exact hl
  | halt => exact hl
  | op c k ih =>
      refine ih _ hp.2 ?_
      cases htag : tag c with
      | none => exact hl
      | some u =>
          intro t ht
          rcases List.mem_append.mp ht with hold | hnew
          · exact hl t hold
          · exact List.mem_singleton.mp hnew ▸ hp.1 u htag

end Logged

/-- The state when the process is stopped behind its first `n` commands, and `cut` says which part of the
next one is carried out, if any. -/
def stopped (m : Machine σ S) (cut : σ.Cmd → Option σ.Cmd) : Nat → Prog σ α → S → S
  | _, .ret _, s => s
  | _, .halt, s => s
  | 0, .op c _, s => (cut c).elim s fun d => (m d s).2
  | n + 1, .op c k, s => (k (m c s).1).stopped m cut n (m c s).2

variable {cut : σ.Cmd → Option σ.Cmd}

/-- What every command of a program preserves holds wherever it is stopped. -/
theorem Uses.stopped {A : σ.Cmd → Prop} {p : Prog σ α} (hp : p.Uses A)
    (hcut : ∀ c d, A c → cut c = some d → A d) (h : ∀ c s, A c → I s → I (m c s).2) (hs : I s)
    (n : Nat) : I (p.stopped m cut n s) := by
  induction p generalizing n s with
  | ret a => cases n <;> exact hs
  | halt => cases n <;> exact hs
  | op c k ih =>
      cases n with
      | zero =>
          unfold Prog.stopped
          cases hd : cut c with
          | none => exact hs
          | some d => exact h d s (hcut c d hp.1 hd) hs
      | succ n => exact ih _ (hp.2 _) (h c s hp.1 hs) n

/-- A result that is only passed on takes no command. -/
theorem stopped_bind_ret (p : Prog σ α) (f : α → β) (n : Nat) :
    (p >>= fun a => .ret (f a)).stopped m cut n s = p.stopped m cut n s := by
  induction p generalizing n s with
  | ret a => cases n <;> rfl
  | halt => cases n <;> rfl
  | op c k ih =>
      cases n with
      | zero => rfl
      | succ n => exact ih _ n

/-- The program of a process that is stopped behind its first `n` commands. -/
def first (cut : σ.Cmd → Option σ.Cmd) : Nat → Prog σ α → Prog σ Unit
  | _, .ret _ => .ret ()
  | _, .halt => .halt
  | 0, .op c _ => (cut c).elim (.ret ()) fun d => .op d fun _ => .ret ()
  | n + 1, .op c k => .op c fun r => (k r).first cut n

theorem stopped_eq_first (p : Prog σ α) (n : Nat) :
    p.stopped m cut n s = ((p.first cut n).run m s).2 := by
  induction p generalizing n s with
  | ret a => cases n <;> rfl
  | halt => cases n <;> rfl
  | op c k ih =>
      cases n with
      | zero =>
          unfold stopped first
          cases cut c <;> rfl
      | succ n => exact ih _ n

theorem first_call_zero {c : σ.Cmd} {f : σ.Res c → Prog σ α} (hc : cut c = none) :
    (call c >>= f).first cut 0 = .ret () := by
  change (cut c).elim _ _ = _
  rw [hc]
  rfl

theorem first_call_cut {c d : σ.Cmd} {f : σ.Res c → Prog σ α} (hc : cut c = some d) :
    (call c >>= f).first cut 0 = (call d >>= fun _ => .ret ()) := by
  change (cut c).elim _ _ = _
  rw [hc]
  rfl

theorem first_call_succ {c : σ.Cmd} {f : σ.Res c → Prog σ α} (n : Nat) :
    (call c >>= f).first cut (n + 1) = call c >>= fun r => (f r).first cut n := rfl

/-- Every run of the program returns after `n` commands. -/
def Takes : Nat → Prog σ α → Prop
  | 0, .ret _ => True
  | n + 1, .op _ k => ∀ r, (k r).Takes n
  | _, _ => False

/-- A sequence that is stopped in its first part. -/
theorem Takes.stopped_bind {k n : Nat} {p : Prog σ α} (hp : p.Takes k) (f : α → Prog σ β)
    (hn : n < k) : (p >>= f).stopped m cut n s = p.stopped m cut n s := by
  induction p generalizing k n s with
  | ret a =>
      cases k with
      | zero => omega
      | succ k => exact hp.elim
  | halt => cases k <;> exact hp.elim
  | op c g ih =>
      cases n with
      | zero => rfl
      | succ n =>
          cases k with
          | zero => omega
          | succ k => exact ih _ (hp _) (by omega)

/-- A sequence that is stopped in its second part. -/
theorem Takes.stopped_bind_add {k : Nat} {p : Prog σ α} (hp : p.Takes k) {f : α → Prog σ β}
    {a : α} {t : S} (hr : p.run m s = (some a, t)) (n : Nat) :
    (p >>= f).stopped m cut (k + n) s = (f a).stopped m cut n t := by
  induction p generalizing k s with
  | ret b =>
      cases k with
      | zero =>
          obtain ⟨hb, rfl⟩ := Prod.mk.inj hr
          obtain rfl := Option.some.inj hb
          rw [Nat.zero_add]
          rfl
      | succ k => exact hp.elim
  | halt => cases k <;> exact hp.elim
  | op c g ih =>
      cases k with
      | zero => exact hp.elim
      | succ k =>
          rw [Nat.succ_add]
          exact ih _ (hp _) hr

end Prog

end Interaction
