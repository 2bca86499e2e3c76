import Afs.Core.Runs

/-!
# Events that do not meet

Every event touches some of the parties of a system. If events without a common party commute, a list
of events is determined by what each party sees of it: two lists that look the same to every party have
the same outcome.
-/

namespace Transition

variable {S E K : Type} {step : S → E → Option S} {touches : E → K → Bool}

/-- What a party sees of a list of events. -/
def seen (touches : E → K → Bool) (k : K) (es : List E) : List E := es.filter fun e => touches e k

section Seen

variable {e f : E} {k : K} {es fs : List E}

theorem seen_cons (h : touches e k = true) : seen touches k (e :: es) = e :: seen touches k es :=
  List.filter_cons_of_pos h

theorem seen_cons_of_not (h : ¬ touches e k = true) : seen touches k (e :: es) = seen touches k es :=
  List.filter_cons_of_neg h

theorem seen_append : seen touches k (es ++ fs) = seen touches k es ++ seen touches k fs :=
  List.filter_append ..

theorem mem_seen : f ∈ seen touches k es ↔ f ∈ es ∧ touches f k = true := List.mem_filter

end Seen

/-- Events without a common party may change places. -/
def Commuting (step : S → E → Option S) (touches : E → K → Bool) : Prop :=
  ∀ e f, (∀ k, touches e k = true → touches f k = false) →
    ∀ s, (step s e).bind (step · f) = (step s f).bind (step · e)

/-- An event moves in front of events that it does not meet. -/
theorem Commuting.foldlM_front (h : Commuting step touches) {e : E} {as : List E} (bs : List E)
    (has : ∀ f ∈ as, ∀ k, touches e k = true → touches f k = false) (s : S) :
    (as ++ e :: bs).foldlM step s = (e :: (as ++ bs)).foldlM step s := by
  induction as generalizing s with
  | nil => rfl
  | cons f as ih =>
      have hrest := ih fun g hg => has g (List.mem_cons_of_mem _ hg)
      have hswap := h e f (has f List.mem_cons_self) s
      calc ((f :: as) ++ e :: bs).foldlM step s
          = (step s f).bind fun t => (e :: (as ++ bs)).foldlM step t := by
            rw [List.cons_append, List.foldlM_cons]
            exact congrArg (Option.bind (step s f)) (funext hrest)
        _ = ((step s f).bind (step · e)).bind fun t => (as ++ bs).foldlM step t := by
            rw [Option.bind_assoc]
            rfl
        _ = ((step s e).bind (step · f)).bind fun t => (as ++ bs).foldlM step t := by rw [hswap]
        _ = (e :: ((f :: as) ++ bs)).foldlM step s := by
            rw [Option.bind_assoc]
            rfl

/-- Two lists of events that every party sees alike have the same outcome. -/
theorem Commuting.foldlM_eq (h : Commuting step touches) (hsome : ∀ e, ∃ k, touches e k = true)
    {us vs : List E} (hview : ∀ k, seen touches k us = seen touches k vs) (s : S) :
    us.foldlM step s = vs.foldlM step s := by
  induction us generalizing vs s with
  | nil =>
      cases vs with
      | nil => rfl
      | cons f vs =>
          obtain ⟨k, hk⟩ := hsome f
          have hv := hview k
          rw [seen_cons hk] at hv
          cases hv
  | cons e us ih =>
      have hmem : e ∈ vs := by
        obtain ⟨k, hk⟩ := hsome e
        have hin : e ∈ seen touches k (e :: us) := mem_seen.mpr ⟨List.mem_cons_self, hk⟩
        rw [hview k] at hin
        exact (mem_seen.mp hin).1
      obtain ⟨as, bs, rfl, hnot⟩ := List.eq_append_cons_of_mem hmem
      have hfree : ∀ k, touches e k = true → seen touches k as = [] := by
        intro k hk
        have hv := hview k
        rw [seen_cons hk, seen_append, seen_cons hk] at hv
        cases ha : seen touches k as with
        | nil => rfl
        | cons f fs =>
            rw [ha] at hv
            have he : e = f := (List.cons.inj hv).1
            have hf : f ∈ seen touches k as := by rw [ha]; exact List.mem_cons_self
            exact absurd (he ▸ (mem_seen.mp hf).1) hnot
      have hmeets : ∀ f ∈ as, ∀ k, touches e k = true → touches f k = false := by
        intro f hf k hk
        by_contra htouch
        have hin : f ∈ seen touches k as := mem_seen.mpr ⟨hf, by simpa using htouch⟩
        rw [hfree k hk] at hin
        cases hin
      rw [h.foldlM_front bs hmeets, List.foldlM_cons, List.foldlM_cons]
      refine congrArg (Option.bind (step s e)) (funext fun t => ih (fun k => ?_) t)
      have hv := hview k
      rw [seen_append] at hv ⊢
      by_cases hk : touches e k = true
      · rw [seen_cons hk, seen_cons hk, hfree k hk, List.nil_append] at hv
        rw [hfree k hk, List.nil_append]
        exact (List.cons.inj hv).2
      · rwa [seen_cons_of_not hk, seen_cons_of_not hk] at hv

end Transition
