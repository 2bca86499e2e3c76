import Afs.Ops.Script
import Afs.Core.Versions

/-!
# Versions of a shared file

The versions of a path are the bytes it starts with and the bytes after every store. Whatever the
times say, an open keeps an old copy or takes the latest version, and a store publishes the copy it
sends. So clean copies are versions, and no client goes back to an older one.
-/

namespace Afs

open Posix Interaction Transition

namespace World

variable {ι : Type} [DecidableEq ι] (P : Params ι)

/-- The server's bytes of a path, if it has any. -/
def bytes (w : World ι) (p : Path) : List Bytes := (w.served P p).toList.map (·.bytes)

/-- The system and the versions of `p` after one more operation. -/
def record (p : Path) (x : World ι × List Bytes) (c : Call ι) : World ι × List Bytes :=
  match x.1.call P c with
  | none => x
  | some w => (w, x.2 ++ if c.path = p ∧ x.1.stores c then w.bytes P p else [])

/-- The versions of `p`: the bytes at the start, and the bytes after every store. -/
def versions (w : World ι) (p : Path) (cs : List (Call ι)) : List Bytes :=
  (cs.foldl (record P p) (w, w.bytes P p)).2

/-- The clean copy of a client: its cached bytes, unless they are modified. -/
def clean (w : World ι) (p : Path) (i : ι) : Option Bytes :=
  if w.recorded i p = modifiedFlag then none else w.cached P i p

end World

namespace View

variable {ι : Type} (v : View ι)

/-- The clean copy of a client. -/
def clean (i : ι) : Option Bytes := if v.recorded i = modifiedFlag then none else v.cached i

/-- The latest version is the server's, and every clean copy is a version. -/
structure Versioned (vs : List Bytes) (pos : ι → ℕ) : Prop where
  last : v.served.map (·.1) = vs.getLast?
  placed : Versions.Placed vs v.clean pos

variable [DecidableEq ι] {v} {vs : List Bytes} {pos : ι → ℕ} {i : ι} {now : Timespec}

private theorem clean_next_of_ne {op : Op} {j : ι} (h : j ≠ i) :
    (v.next i now op).clean j = v.clean j := by
  simp only [clean, recorded_next_of_ne _ _ _ h, cached_next_of_ne _ _ _ h]

private theorem clean_next_self {op : Op} :
    (v.next i now op).clean i =
      if ((v.copies i).next now op).recorded = modifiedFlag then none
      else ((v.copies i).next now op).cached := by
  have h := copies_next_self v i now op
  rw [← h]
  rfl

/-- An operation that leaves the client's copy and record as they are. -/
private theorem Versioned.same {op : Op} (h : v.Versioned vs pos)
    (hn : (v.copies i).next now op = v.copies i) : (v.next i now op).Versioned vs pos := by
  refine ⟨?_, h.placed.drop fun j b hb => ?_⟩
  · rw [served_next, hn]
    exact h.last
  · by_cases hj : j = i
    · subst hj
      rwa [clean_next_self, hn] at hb
    · rwa [clean_next_of_ne hj] at hb

/-- One operation on a shared file: the positions only move forward. -/
theorem Versioned.next (h : v.Versioned vs pos) (now : Timespec) {op : Op} (hop : op.Shares)
    (hf : (v.copies i).Fits op) :
    ∃ pos', pos ≤ pos' ∧ (v.next i now op).Versioned
      (vs ++ if v.stores i op then
        (v.next i now op).served.toList.map (·.1) else []) pos' := by
  cases op with
  | openF =>
      simp only [stores, Bool.false_eq_true, if_false, List.append_nil]
      by_cases hst : (v.copies i).stale = true
      · obtain ⟨⟨b, t⟩, hb⟩ := Option.ne_none_iff_exists'.mp hf
        have hn : (v.copies i).next now .openF = ⟨some (b, t), some b, Int64.ofNat t.tv_nsec⟩ := by
          simp only [Copies.next, hst, if_true, Copies.fetched, hb]
        have hlast : vs.getLast? = some b := by
          rw [← h.last]
          exact congrArg (Option.map (·.1)) hb
        obtain ⟨hp, hle⟩ := h.placed.refresh (v.next i now .openF).clean hlast i
          (by rw [clean_next_self, hn, if_neg (time_ne_modifiedFlag t)])
          (fun j hj => clean_next_of_ne hj)
        refine ⟨_, hle, ?_, hp⟩
        rw [served_next, hn, hlast]
        rfl
      · exact ⟨pos, le_refl _, h.same (by simp only [Copies.next, hst, Bool.false_eq_true, if_false])⟩
  | write k buffer offset =>
      simp only [stores, Bool.false_eq_true, if_false, List.append_nil]
      by_cases hb : buffer = []
      · exact ⟨pos, le_refl _, h.same (by simp only [Copies.next, hb, if_true])⟩
      · refine ⟨pos, le_refl _, ?_, h.placed.drop fun j b hj => ?_⟩
        · simp only [served_next, Copies.next, hb, if_false]
          exact h.last
        · by_cases hji : j = i
          · subst hji
            simp only [clean_next_self, Copies.next, hb, if_false, if_true, reduceCtorEq] at hj
          · rwa [clean_next_of_ne hji] at hj
  | release k =>
      by_cases hm : v.recorded i = modifiedFlag
      · obtain ⟨b, hb⟩ := Option.ne_none_iff_exists'.mp hf
        have hn : (v.copies i).next now (.release k) =
            ⟨some (b, now), some b, Int64.ofNat now.tv_nsec⟩ := by
          change v.cached i = some b at hb
          simp only [Copies.next, copies, hm, if_true, Copies.stored, hb, Option.map_some]
        have hv : (v.next i now (.release k)).served = some (b, now) := by
          rw [served_next, hn]
        simp only [stores, hm, decide_true, if_true, hv, Option.toList_some, List.map_cons,
          List.map_nil]
        obtain ⟨hp, hle⟩ := h.placed.publish (v.next i now (.release k)).clean i
          (by rw [clean_next_self, hn, if_neg (time_ne_modifiedFlag now)])
          (fun j hj => clean_next_of_ne hj)
        refine ⟨_, hle, ?_, hp⟩
        rw [hv, List.getLast?_concat]
        rfl
      · simp only [stores, hm, decide_false, Bool.false_eq_true, if_false, List.append_nil]
        exact ⟨pos, le_refl _, h.same (if_neg hm)⟩
  | read | fsync | getattr =>
      simp only [stores, Bool.false_eq_true, if_false, List.append_nil]
      exact ⟨pos, le_refl _, h.same rfl⟩
  | _ => exact absurd hop not_false

end View

namespace World

variable {ι : Type} [DecidableEq ι] {P : Params ι} {p : Path} {w₀ w : World ι}
  {cs : List (Call ι)}

/-- What is known after some operations: the system is live, and `pos` places the clean copies
among the versions so far. -/
private structure Following (P : Params ι) (p : Path) (w₀ : World ι) (cs : List (Call ι))
    (w : World ι) (pos : ι → ℕ) : Prop where
  live : w.Live P {p}
  fold : cs.foldl (record P p) (w₀, w₀.bytes P p) = (w, w₀.versions P p cs)
  versioned : (w.view P p).Versioned (w₀.versions P p cs) pos

omit [DecidableEq ι] in
private theorem bytes_eq (w : World ι) :
    w.bytes P p = (w.view P p).served.toList.map (·.1) := by
  simp only [bytes, view]
  cases w.served P p <;> rfl

private theorem Following.next {pos : ι → ℕ} {c : Call ι} {w' : World ι}
    (hU : Names {p}) (h : Following P p w₀ cs w pos) (hc : c.Shares {p})
    (hs : w.call P c = some w') :
    ∃ pos', pos ≤ pos' ∧ Following P p w₀ (cs ++ [c]) w' pos' := by
  obtain ⟨hlive, hview, -⟩ := h.live.call hU hc hs
  obtain rfl : c.path = p := hc.path
  have hsess := inSession_of_call hs
  have hfits := (h.live.views _ rfl).fits hc.op
    (by simpa only [view, List.length_map] using hsess : c.op.InSession _)
  obtain ⟨pos', hle, hv⟩ := h.versioned.next c.now hc.op hfits.copies
  have hstep : record P c.path (w, w₀.versions P c.path cs) c =
      (w', w₀.versions P c.path cs ++
        if (w.view P c.path).stores c.client c.op then
          ((w.view P c.path).next c.client c.now c.op).served.toList.map (·.1) else []) := by
    simp only [record, hs, true_and, bytes_eq, hview]
    rfl
  have hfold := congrArg (List.foldl (record P c.path) · [c]) h.fold
  rw [← List.foldl_append, List.foldl_cons, List.foldl_nil, hstep] at hfold
  have hvs : w₀.versions P c.path (cs ++ [c]) = _ := congrArg Prod.snd hfold
  refine ⟨pos', hle, hlive, hfold.trans (congrArg (Prod.mk w') hvs.symm), ?_⟩
  rw [hview, hvs]
  exact hv

/-- Along every run of clients that share a file, every clean copy is a version of the file, at a
position that never decreases for any client. -/
theorem clean_copies_are_monotone_versions (hp : RootLevel p) (hdb : p ≠ databasePath)
    (h0 : w₀.Start P {p}) (hr : Run (World.call P) (fun _ c => c.Shares {p}) w₀ cs w) :
    ∃ pos : ℕ → ι → ℕ, Monotone pos ∧
      ∀ k u, k ≤ cs.length → Run (World.call P) (fun _ c => c.Shares {p}) w₀ (cs.take k) u →
        ∀ i b, u.cached P i p = some b → u.recorded i p ≠ modifiedFlag →
          (w₀.versions P p (cs.take k))[pos k i]? = some b := by
  have hU := names_singleton hp hdb
  have hserved : (w₀.view P p).served ≠ none := (h0.live.views p rfl).served
  have hstart : Following P p w₀ [] w₀ fun _ => 0 := by
    have hne : w₀.bytes P p ≠ [] := by
      rw [bytes_eq]
      obtain ⟨x, hx⟩ := Option.ne_none_iff_exists'.mp hserved
      simp [hx]
    refine ⟨h0.live, rfl, ?_, ?_⟩
    · simp only [versions, List.foldl_nil, bytes_eq]
      cases (w₀.view P p).served <;> rfl
    · refine (Versions.Placed.init hne).drop fun i b hb => ?_
      simp only [View.clean, view, h0.cached i p rfl, ite_self, reduceCtorEq] at hb
  obtain ⟨pos, hm, -, hall⟩ := hr.exists_monotone (Following P p w₀) hstart
    fun es t g e u hI ho hs => hI.next hU ho hs
  refine ⟨pos, hm, fun k u hk hru i b hb hflag => ?_⟩
  refine (hall k u hk hru).versioned.placed.holds i b ?_
  exact (if_neg hflag).trans hb

/-- One client keeps its copy of the first version while the other publishes a second one. -/
def turns : List (Bool × Timespec × Op) :=
  [(false, sampleTime 1 0, .openF), (true, sampleTime 2 0, .openF),
    (true, sampleTime 3 0, .write 0 [7, 8] 0), (true, sampleTime 4 0, .release 0)]

theorem clean_copies_are_monotone_versions_turns :
    ∃ w, Run (World.call sample) (fun _ c => c.Shares {sampleFile}) sampleBoot
        (sampleCalls turns) w ∧
      ∃ pos : ℕ → Bool → ℕ, Monotone pos ∧ ∀ k u, k ≤ (sampleCalls turns).length →
        Run (World.call sample) (fun _ c => c.Shares {sampleFile}) sampleBoot
          ((sampleCalls turns).take k) u →
        ∀ i b, u.cached sample i sampleFile = some b →
          u.recorded i sampleFile ≠ modifiedFlag →
          (sampleBoot.versions sample sampleFile
            ((sampleCalls turns).take k))[pos k i]? = some b := by
  obtain ⟨w, hr, -, -⟩ := exists_sharing_run (l := turns) rfl
  exact ⟨w, hr, clean_copies_are_monotone_versions rootLevel_sampleFile (by decide)
    start_sampleBoot hr⟩

end World

end Afs
