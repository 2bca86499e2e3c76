import Afs.Ops.Boot

/-!
# Clients that share existing files

The part of the system in which programs open, read, write and close files that exist on the
server, with no failures. A file that is open somewhere has a cached copy there, so every such
operation finds what it expects, and runs can be followed on the views of the paths.
-/

namespace Afs

open Posix Interaction Transition

/-- The operations of programs that share existing files; no write reaches two gigabytes. -/
def Op.Shares : Op → Prop
  | .openF | .read .. | .release _ | .fsync _ | .getattr => True
  | .write _ buffer offset => offset + buffer.length < 2 ^ 31
  | _ => False

/-- An operation of this kind on a path in use, during which nothing fails. -/
structure Call.Shares {ι : Type} (U : Set Path) (c : Call ι) : Prop where
  path : c.path ∈ U
  quiet : c.Quiet
  op : c.op.Shares

/-- The sessions that an operation needs are open. -/
def Op.InSession (n : Nat) (op : Op) : Prop := ∀ k, op.session = some k → k < n

/-- The file is at the server, and wherever it is open it is cached. -/
structure View.Live {ι : Type} (v : View ι) : Prop where
  served : v.served ≠ none
  cached : ∀ i, v.sessions i ≠ [] → v.cached i ≠ none

/-- Whether the operation of client `i` sends the file to the server: a release that finds the
modified flag. -/
def View.stores {ι : Type} (v : View ι) (i : ι) : Op → Bool
  | .release _ => v.recorded i = modifiedFlag
  | _ => false

/-- The same, asked of the system. -/
def World.stores {ι : Type} (w : World ι) (c : Call ι) : Bool :=
  match c.op with
  | .release _ => w.recorded c.client c.path = modifiedFlag
  | _ => false

namespace Copies

variable {c : Copies} {op : Op} {now : Timespec}

theorem served_next_ne_none (h : c.served ≠ none) (hop : op.Shares) (hf : c.Fits op) :
    (c.next now op).served ≠ none := by
  obtain ⟨⟨b, t⟩, hb⟩ := Option.ne_none_iff_exists'.mp h
  cases op with
  | openF =>
      simp only [next]
      split
      · simp only [fetched, hb, ne_eq, reduceCtorEq, not_false_iff]
      · exact h
  | write k buffer offset =>
      simp only [next]
      split <;> exact h
  | release k =>
      simp only [next]
      split
      · exact fun hn => hf (Option.map_eq_none_iff.mp hn)
      · exact h
  | read | fsync | getattr => exact h
  | _ => exact absurd hop not_false

theorem cached_next_ne_none (h : c.cached ≠ none) (hop : op.Shares) :
    (c.next now op).cached ≠ none := by
  cases op with
  | openF =>
      simp only [next]
      split
      · unfold fetched
        split
        · exact h
        · exact Option.some_ne_none _
      · exact h
  | write k buffer offset =>
      simp only [next]
      split
      · exact h
      · simpa only [ne_eq, Option.map_eq_none_iff] using h
  | release k =>
      simp only [next]
      split <;> exact h
  | read | fsync | getattr => exact h
  | _ => exact absurd hop not_false

/-- After an open the file is cached. -/
theorem cached_open_ne_none (h : c.served ≠ none) : (c.next now .openF).cached ≠ none := by
  obtain ⟨⟨b, t⟩, hb⟩ := Option.ne_none_iff_exists'.mp h
  simp only [next]
  split
  · simp only [fetched, hb, ne_eq, reduceCtorEq, not_false_iff]
  · next hs =>
    intro hn
    simp only [stale, hn, not_true_eq_false] at hs

end Copies

namespace View

variable {ι : Type} [DecidableEq ι] {v : View ι} {i : ι} {op : Op} {now : Timespec}

/-- Only a store changes the server's file. -/
theorem served_next_of_not_stores (hop : op.Shares) (hs : v.stores i op = false) :
    (v.next i now op).served = v.served := by
  cases op with
  | openF =>
      simp only [served_next, Copies.next]
      split
      · simp only [Copies.fetched]
        split <;> rfl
      · rfl
  | write k buffer offset =>
      simp only [served_next, Copies.next]
      split <;> rfl
  | release k =>
      simp only [served_next, Copies.next]
      exact congrArg Copies.served (if_neg (of_decide_eq_false hs))
  | read | fsync | getattr => rfl
  | _ => exact absurd hop not_false

omit [DecidableEq ι] in
theorem Live.fits (h : v.Live) (hop : op.Shares) (hs : op.InSession (v.sessions i).length) :
    v.Fits i op := by
  refine ⟨?_, hs⟩
  have hopen : ∀ k, op.session = some k → v.cached i ≠ none := fun k hk =>
    h.cached i (List.ne_nil_of_length_pos (Nat.zero_lt_of_lt (hs k hk)))
  cases op with
  | openF | getattr => exact h.served
  | read k _ _ | release k => exact hopen k rfl
  | write k buffer offset => exact ⟨hopen k rfl, hop⟩
  | fsync k => exact trivial
  | _ => exact absurd hop not_false

theorem Live.next (h : v.Live) (hop : op.Shares) (hs : op.InSession (v.sessions i).length) :
    (v.next i now op).Live := by
  have hf := (h.fits hop hs).copies
  refine ⟨Copies.served_next_ne_none h.served hop hf, fun j hj => ?_⟩
  by_cases hji : j = i
  · subst hji
    change ((v.next j now op).copies j).cached ≠ none
    rw [copies_next_self]
    rw [sessions_next_self] at hj
    cases op with
    | openF => exact Copies.cached_open_ne_none h.served
    | read k _ _ | write k _ _ | release k | fsync k =>
        have hk : k < (v.sessions j).length := hs k rfl
        exact Copies.cached_next_ne_none
          (h.cached j (List.ne_nil_of_length_pos (Nat.zero_lt_of_lt hk))) hop
    | getattr => exact Copies.cached_next_ne_none (h.cached j hj) hop
    | _ => exact absurd hop not_false
  · rw [cached_next_of_ne _ _ _ hji]
    rw [sessions_next_of_ne _ _ _ hji] at hj
    exact h.cached j hj

end View

namespace World

variable {ι : Type} (P : Params ι) (U : Set Path)

/-- A sound system whose paths in use are all live. -/
structure Live (w : World ι) : Prop where
  sound : w.Sound P U
  views : ∀ p ∈ U, (w.view P p).Live

/-- The start of a system in which clients will share the files of `U`: these are at the server,
and no client has a copy or an open session of any. -/
structure Start (w : World ι) : Prop where
  sound : w.Sound P U
  served : ∀ p ∈ U, w.served P p ≠ none
  cached : ∀ i, ∀ p ∈ U, w.cached P i p = none
  sessions : ∀ i, ∀ p ∈ U, w.sessions i p = []

variable {P U} {w w' : World ι} {c : Call ι}

theorem Start.live (h : w.Start P U) : w.Live P U where
  sound := h.sound
  views p hp := by
    refine ⟨?_, fun i hi => absurd ?_ hi⟩
    · simpa only [view, ne_eq, Option.map_eq_none_iff] using h.served p hp
    · simp only [view, h.sessions i p hp, List.map_nil]

variable [DecidableEq ι]

/-- A step in which a client completes an operation. -/
def call (P : Params ι) (w : World ι) (c : Call ι) : Option (World ι) := w.step P (.call c)

theorem call_eq_some : w.call P c = some w' ↔ ∃ r, w.perform P c = some (r, w') := by
  simp only [call, step, Option.map_eq_some_iff, Prod.exists, exists_eq_right]

/-- A session operation that takes place has its session. -/
theorem inSession_of_call (h : w.call P c = some w') :
    c.op.InSession (w.sessions c.client c.path).length := by
  intro k hk
  obtain ⟨r, hr⟩ := call_eq_some.mp h
  unfold perform at hr
  split at hr
  · obtain ⟨fh, hfh, -⟩ := Option.map_eq_some_iff.mp hr
    simp only [handle, hk] at hfh
    obtain ⟨s, hs, -⟩ := Option.map_eq_some_iff.mp hfh
    exact (List.getElem?_eq_some_iff.mp hs).1
  · cases hr

/-- An operation on a shared file succeeds and moves the view of its path only. -/
theorem Live.perform (hU : Names U) (hw : w.Live P U) (hc : c.Shares U)
    (hs : c.op.InSession (w.sessions c.client c.path).length) :
    ∃ r w', w.perform P c = some (some r, w') ∧ w'.Live P U ∧
      w'.view P c.path = (w.view P c.path).next c.client c.now c.op ∧
      (∀ q ∈ U, q ≠ c.path → w'.view P q = w.view P q) ∧
      ((w.view P c.path).copies c.client).Answers r c.op := by
  have hs' : c.op.InSession ((w.view P c.path).sessions c.client).length := by
    simpa only [view, List.length_map] using hs
  obtain ⟨r, w', hperf, hsound, hview, hother, hans⟩ :=
    perform_view hU hw.sound hc.path hc.quiet ((hw.views _ hc.path).fits hc.op hs')
  refine ⟨r, w', hperf, ⟨hsound, fun q hq => ?_⟩, hview, hother, hans⟩
  by_cases hne : q = c.path
  · subst hne
    rw [hview]
    exact (hw.views _ hq).next hc.op hs'
  · rw [hother q hq hne]
    exact hw.views q hq

/-- The same for an operation known to take place. -/
theorem Live.call (hU : Names U) (hw : w.Live P U) (hc : c.Shares U) (h : w.call P c = some w') :
    w'.Live P U ∧ w'.view P c.path = (w.view P c.path).next c.client c.now c.op ∧
      ∀ q ∈ U, q ≠ c.path → w'.view P q = w.view P q := by
  obtain ⟨r, u, hperf, hlive, hview, hother, -⟩ := hw.perform hU hc (inSession_of_call h)
  obtain ⟨r', hr'⟩ := call_eq_some.mp h
  obtain rfl : u = w' := (Prod.mk.inj (Option.some.inj (hperf.symm.trans hr'))).2
  exact ⟨hlive, hview, hother⟩

/-- Every run of sharing clients stays live. -/
theorem Live.run {ok : World ι → Call ι → Prop} (hU : Names U) (hw : w.Live P U)
    (hok : ∀ w c, ok w c → c.Shares U) {cs : List (Call ι)}
    (h : Run (World.call P) ok w cs w') : w'.Live P U :=
  h.invariant _ hw fun _ _ _ hs ho hst => (hs.call hU (hok _ _ ho) hst).1

end World

end Afs
