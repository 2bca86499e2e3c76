import Mathlib.Data.List.Induction
import Mathlib.Order.Monotone.Basic

/-!
# Runs of a transition system

A system is a partial step function on states and events. A run is a list of events, each allowed
in the state it meets. The rules here turn what one step preserves into what a whole run
preserves: invariants, simulation by a function on abstract states, and ghost values that only
grow along a run.
-/

namespace Transition

variable {S E A G : Type}

/-- The events lead from `s` to the last state, and each of them was allowed by `ok` where it
happened. -/
inductive Run (step : S → E → Option S) (ok : S → E → Prop) (s : S) : List E → S → Prop where
  | nil : Run step ok s [] s
  | snoc {es : List E} {t u : S} {e : E} :
      Run step ok s es t → ok t e → step t e = some u → Run step ok s (es ++ [e]) u

namespace Run

variable {step : S → E → Option S} {ok ok' : S → E → Prop} {s t u : S} {es fs : List E} {e : E}

/-- One event is a run. -/
theorem single (ho : ok s e) (hs : step s e = some t) : Run step ok s [e] t :=
  show Run step ok s ([] ++ [e]) t from snoc nil ho hs

/-- Runs compose. -/
theorem append (h : Run step ok s es t) (k : Run step ok t fs u) :
    Run step ok s (es ++ fs) u := by
  induction k with
  | nil =>
      rw [List.append_nil]
      exact h
  | snoc _ ho hs ih =>
      rw [← List.append_assoc]
      exact snoc ih ho hs

/-- A run in front of an event. -/
theorem cons (ho : ok s e) (hs : step s e = some t) (k : Run step ok t es u) :
    Run step ok s (e :: es) u := (single ho hs).append k

/-- The last event of a run and the state it met. -/
theorem of_snoc (h : Run step ok s (es ++ [e]) u) :
    ∃ t, Run step ok s es t ∧ ok t e ∧ step t e = some u := by
  generalize hl : es ++ [e] = l at h
  cases h with
  | nil => exact absurd hl (by simp)
  | snoc hr ho hs =>
      obtain ⟨rfl, he⟩ := List.append_inj' hl rfl
      obtain ⟨rfl⟩ := List.singleton_inj.mp he
      exact ⟨_, hr, ho, hs⟩

/-- Steps are functions, so the events determine where a run ends. -/
theorem unique (h : Run step ok s es t) (k : Run step ok s es u) : t = u := by
  induction h generalizing u with
  | nil =>
      generalize hl : ([] : List E) = l at k
      cases k with
      | nil => rfl
      | snoc _ _ _ => exact absurd hl (by simp)
  | snoc _ _ hs ih =>
      obtain ⟨m, hr, _, hs'⟩ := k.of_snoc
      rw [← ih hr, hs] at hs'
      exact Option.some.inj hs'

/-- A run in which more is allowed. -/
theorem mono (h : Run step ok s es t) (himp : ∀ s e, ok s e → ok' s e) :
    Run step ok' s es t := by
  induction h with
  | nil => exact nil
  | snoc _ ho hs ih => exact ih.snoc (himp _ _ ho) hs

/-- What the start satisfies and every allowed step keeps holds after every run. -/
theorem invariant (h : Run step ok s es t) (I : S → Prop) (h0 : I s)
    (hI : ∀ s e t, I s → ok s e → step s e = some t → I t) : I t := by
  induction h with
  | nil => exact h0
  | snoc _ ho hs ih => exact hI _ _ _ ih ho hs

/-- A relation to an abstract state that every step keeps, when the abstract state moves by
`next`, relates the end of every run to the abstract events' outcome. -/
theorem simulation (h : Run step ok s es t) (R : S → A → Prop) (next : A → E → A) {a : A}
    (h0 : R s a) (hR : ∀ s e t a, R s a → ok s e → step s e = some t → R t (next a e)) :
    R t (es.foldl next a) := by
  induction h with
  | nil => exact h0
  | snoc _ ho hs ih =>
      rw [List.foldl_append]
      exact hR _ _ _ _ ih ho hs

/-- An invariant that also speaks about the events so far. -/
theorem invariant_past (h : Run step ok s es t) (I : List E → S → Prop) (h0 : I [] s)
    (hI : ∀ es t e u, Run step ok s es t → I es t → ok t e → step t e = some u → I (es ++ [e]) u) :
    I es t := by
  induction h with
  | nil => exact h0
  | snoc hr ho hs ih => exact hI _ _ _ _ hr ih ho hs

/-- What no step makes smaller is as at first exactly when every step has left it as it was. -/
theorem unchanged_iff [PartialOrder A] (h : Run step ok s es t) (f : S → A) {C : S → E → Prop}
    (I : S → Prop) (h0 : I s)
    (hI : ∀ s e t, I s → ok s e → step s e = some t → I t ∧ f s ≤ f t ∧ (f t = f s ↔ C s e)) :
    f t = f s ↔ Run step (fun s e => ok s e ∧ C s e) s es t := by
  have hall : I t ∧ f s ≤ f t ∧ (f t = f s ↔ Run step (fun s e => ok s e ∧ C s e) s es t) := by
    induction h with
    | nil => exact ⟨h0, le_refl _, iff_of_true rfl nil⟩
    | @snoc es t u e hr ho hs ih =>
        obtain ⟨hi, hle, hiff⟩ := ih
        obtain ⟨hi', hle', hiff'⟩ := hI _ _ _ hi ho hs
        refine ⟨hi', hle.trans hle', ?_⟩
        constructor
        · intro heq
          have hmid : f t = f s := le_antisymm (heq ▸ hle') hle
          exact (hiff.mp hmid).snoc ⟨ho, hiff'.mp (heq.trans hmid.symm)⟩ hs
        · intro hrun
          obtain ⟨v, hv, hc, hvs⟩ := hrun.of_snoc
          obtain rfl := hr.unique (hv.mono fun _ _ hc => hc.1)
          exact (hiff'.mpr hc.2).trans (hiff.mpr hv)
  exact hall.2.2

/-- A run seen through a function that commutes with the steps. -/
theorem project {step' : A → E → Option A} (h : Run step ok s es t) (f : S → A)
    (hf : ∀ s e t, step s e = some t → step' (f s) e = some (f t)) :
    Run step' (fun _ _ => True) (f s) es (f t) := by
  induction h with
  | nil => exact nil
  | snoc _ _ hs ih => exact ih.snoc trivial (hf _ _ _ hs)

/-- A run can be found by executing it. -/
theorem of_foldlM [∀ s e, Decidable (ok s e)]
    (h : es.foldlM (fun s e => if ok s e then step s e else none) s = some t) :
    Run step ok s es t := by
  induction es generalizing s with
  | nil =>
      obtain rfl := Option.some.inj h
      exact nil
  | cons e es ih =>
      rw [List.foldlM_cons] at h
      obtain ⟨u, hu, hrest⟩ := Option.bind_eq_some_iff.mp h
      split at hu
      · exact cons ‹_› hu (ih hrest)
      · cases hu

/-- What executing the events gives is where a run over them ends. -/
theorem foldlM_eq (h : Run step ok s es t) : es.foldlM step s = some t := by
  induction h with
  | nil => rfl
  | snoc _ _ hs ih => rw [List.foldlM_append, ih]; exact (by simpa using hs)

/-- Two systems whose steps are possible in the same cases and keep a relation have related
runs. -/
theorem transfer {step' : A → E → Option A} (h : Run step ok s es t) (R : S → A → Prop) {a : A}
    (h0 : R s a) (hR : ∀ s a e, R s a → Option.Rel R (step s e) (step' a e)) :
    ∃ b, Run step' (fun _ _ => True) a es b ∧ R t b := by
  induction h with
  | nil => exact ⟨a, nil, h0⟩
  | @snoc es t u e hr ho hs ih =>
      obtain ⟨b, hb, hrb⟩ := ih
      have hrel := hR t b e hrb
      rw [hs] at hrel
      cases hb' : step' b e with
      | none => rw [hb'] at hrel; cases hrel
      | some c =>
          rw [hb'] at hrel
          cases hrel with
          | some hc => exact ⟨c, hb.snoc trivial hb', hc⟩

/-- The same from the second system to the first. -/
theorem transfer_back {step' : A → E → Option A} {a b : A} (h : Run step' (fun _ _ => True) a es b)
    (R : S → A → Prop) (h0 : R s a)
    (hR : ∀ s a e, R s a → Option.Rel R (step s e) (step' a e)) :
    ∃ t, Run step (fun _ _ => True) s es t ∧ R t b := by
  refine h.transfer (fun a s => R s a) h0 fun a s e hsa => ?_
  have hrel := hR s a e hsa
  revert hrel
  cases step s e <;> cases step' a e <;> intro hrel <;> cases hrel
  · exact Option.Rel.none
  · exact Option.Rel.some ‹_›

/-- A ghost value that every step can move upwards, keeping an invariant over the events so far,
can be chosen along the whole run as a monotone sequence. -/
theorem exists_monotone [Preorder G] (h : Run step ok s es t) (I : List E → S → G → Prop) {g : G}
    (h0 : I [] s g)
    (hI : ∀ es t g e u, I es t g → ok t e → step t e = some u →
      ∃ g', g ≤ g' ∧ I (es ++ [e]) u g') :
    ∃ γ : ℕ → G, Monotone γ ∧ I es t (γ es.length) ∧
      ∀ k u, k ≤ es.length → Run step ok s (es.take k) u → I (es.take k) u (γ k) := by
  induction h with
  | nil =>
      refine ⟨fun _ => g, monotone_const, h0, ?_⟩
      intro k u _ hr
      rw [List.take_nil] at hr ⊢
      generalize hl : ([] : List E) = l at hr
      cases hr with
      | nil => exact h0
      | snoc _ _ _ => exact absurd hl (by simp)
  | @snoc es t u e hr ho hs ih =>
      obtain ⟨γ, hm, hlast, hall⟩ := ih
      obtain ⟨g', hle, hI'⟩ := hI es t _ e u hlast ho hs
      refine ⟨fun k => if k ≤ es.length then γ k else g', ?_, ?_, ?_⟩
      · intro a b hab
        by_cases hb : b ≤ es.length
        · simp only [hb, le_trans hab hb, if_true]
          exact hm hab
        · by_cases ha : a ≤ es.length
          · simp only [hb, ha, if_true, if_false]
            exact (hm ha).trans hle
          · simp only [hb, ha, if_false, le_refl]
      · simp only [List.length_append, List.length_singleton,
          Nat.not_succ_le_self, if_false]
        exact hI'
      · intro k v hk hv
        rw [List.length_append, List.length_singleton] at hk
        by_cases hle' : k ≤ es.length
        · rw [List.take_append_of_le_length hle'] at hv ⊢
          simp only [hle', if_true]
          exact hall k v hle' hv
        · have hk' : k = es.length + 1 := by omega
          subst hk'
          rw [List.take_of_length_le (by simp)] at hv ⊢
          obtain ⟨t', hr', _, hs'⟩ := hv.of_snoc
          simp only [Nat.not_succ_le_self, if_false]
          have hdet := hr'.unique hr
          subst hdet
          rw [hs] at hs'
          exact Option.some.inj hs' ▸ hI'

end Run

end Transition
