import Afs.Ops.Script

/-!
# The last close wins

With one open session per client and path, a client's copy during a session is what the session
opened with its writes applied, and the record is the modified flag exactly if one of them wrote
something. So a release that ends such a session leaves these bytes at the server, whatever other
clients stored in between.
-/

namespace Afs

open Posix Interaction Transition

/-- The copy and the record of a client between its sessions and during one: the record of a closed
file is a time; an open file's copy is what the session says, flagged if the session wrote. -/
def Tracks (cached : Option Bytes) (recorded : Int64) : List Log → Prop
  | [] => cached ≠ none → recorded ≠ modifiedFlag
  | [l] => cached = some l.bytes ∧ (recorded = modifiedFlag ↔ l.dirty = true)
  | _ => False

theorem Log.bytes_write (l : Log) (offset : Nat) (buffer : Bytes) :
    (l.write offset buffer).bytes = overwrite l.bytes offset buffer := by
  simp only [Log.bytes, Log.write, overwriteAll_append, overwriteAll_singleton]

theorem Log.dirty_write (l : Log) (offset : Nat) (buffer : Bytes) :
    (l.write offset buffer).dirty = (l.dirty || decide (buffer ≠ [])) := by
  simp only [Log.dirty, Log.write, List.any_append, List.any_cons, List.any_nil, Bool.or_false]

private theorem eq_singleton {c r} {ls : List Log} {k : Nat} (h : Tracks c r ls)
    (hk : k < ls.length) : k = 0 ∧ ∃ l, ls = [l] := by
  match ls, h with
  | [], _ => simp at hk
  | [l], _ => exact ⟨by simpa using hk, l, rfl⟩

namespace Copies

variable {c : Copies} {ls : List Log} {now : Timespec}

private theorem tracks_open (h : Tracks c.cached c.recorded []) (hf : c.Fits .openF) :
    Tracks (c.next now .openF).cached (c.next now .openF).recorded
      (Op.openF.logs (c.next now .openF).cached []) := by
  obtain ⟨⟨b, t⟩, hb⟩ := Option.ne_none_iff_exists'.mp hf
  simp only [Copies.next, Op.logs, List.nil_append]
  split
  · simp only [fetched, hb, Option.getD_some]
    exact ⟨rfl, iff_of_false (time_ne_modifiedFlag t) Bool.false_ne_true⟩
  · next hst =>
    cases hc : c.cached with
    | none => simp only [stale, hc, not_true_eq_false] at hst
    | some d => exact ⟨rfl, iff_of_false (h (by simp [hc])) Bool.false_ne_true⟩

/-- One operation of the client keeps the relation between copy, record and session. -/
theorem tracks_next {op : Op} (h : Tracks c.cached c.recorded ls) (hop : op.Shares)
    (hf : c.Fits op) (hs : op.InSession ls.length) (hone : op = .openF → ls = []) :
    Tracks (c.next now op).cached (c.next now op).recorded
      (op.logs (c.next now op).cached ls) := by
  cases op with
  | openF =>
      obtain rfl := hone rfl
      exact tracks_open h hf
  | write k buffer offset =>
      obtain ⟨rfl, l, rfl⟩ := eq_singleton h (hs k rfl)
      obtain ⟨hcached, hflag⟩ := h
      simp only [Op.logs, List.modify_cons, if_true, Tracks, Log.bytes_write, Log.dirty_write]
      by_cases hb : buffer = []
      · subst hb
        simpa [Copies.next, overwrite] using ⟨hcached, hflag⟩
      · simp only [Copies.next, hb, if_false, hcached, Option.map_some, ne_eq, not_false_iff,
          decide_true, Bool.or_true, and_self]
  | release k =>
      obtain ⟨rfl, l, rfl⟩ := eq_singleton h (hs k rfl)
      simp only [Op.logs, List.eraseIdx_cons_zero, Copies.next]
      split
      · exact fun _ => time_ne_modifiedFlag now
      · next hm => exact fun _ => hm
  | read | fsync | getattr => exact h
  | _ => exact absurd hop not_false

end Copies

namespace World

variable {ι : Type} {P : Params ι} {U : Set Path} {w w₀ : World ι} {c : Call ι}

/-- A client opens a path only when it has no open session on it. -/
def Single (w : World ι) (c : Call ι) : Prop :=
  c.op = .openF → w.sessions c.client c.path = []

/-- A live system in which every copy follows its session. -/
structure Tracked (P : Params ι) (U : Set Path) (w : World ι) : Prop where
  live : w.Live P U
  tracks : ∀ p ∈ U, ∀ i,
    Tracks ((w.view P p).cached i) ((w.view P p).recorded i) ((w.view P p).sessions i)

theorem Start.tracked (h : w.Start P U) : w.Tracked P U where
  live := h.live
  tracks p hp i := by
    simp only [view, h.sessions i p hp, List.map_nil, h.cached i p hp]
    exact fun hn => absurd rfl hn

variable [DecidableEq ι]

theorem Tracked.call {w' : World ι} (hU : Names U) (h : w.Tracked P U) (hc : c.Shares U)
    (hone : w.Single c) (hs : w.call P c = some w') : w'.Tracked P U := by
  obtain ⟨hlive, hview, hother⟩ := h.live.call hU hc hs
  refine ⟨hlive, fun q hq i => ?_⟩
  by_cases hne : q = c.path
  · subst hne
    have hsess : c.op.InSession ((w.view P c.path).sessions c.client).length := by
      simpa only [view, List.length_map] using inSession_of_call hs
    rw [hview]
    by_cases hi : i = c.client
    · subst hi
      rw [View.sessions_next_self, View.cached_next_self, View.recorded_next_self]
      refine Copies.tracks_next (h.tracks _ hq c.client) hc.op
        ((h.live.views _ hq).fits hc.op hsess).copies hsess fun ho => ?_
      simp only [view, hone ho, List.map_nil]
    · rw [View.cached_next_of_ne _ _ _ hi, View.recorded_next_of_ne _ _ _ hi,
        View.sessions_next_of_ne _ _ _ hi]
      exact h.tracks _ hq i
  · rw [hother q hq hne]
    exact h.tracks q hq i

theorem Tracked.run {ok : World ι → Call ι → Prop} {w' : World ι} {cs : List (Call ι)}
    (hU : Names U) (h : w.Tracked P U) (hok : ∀ w c, ok w c → c.Shares U ∧ w.Single c)
    (hr : Run (World.call P) ok w cs w') : w'.Tracked P U :=
  hr.invariant _ h fun _ _ _ ht ho hs => ht.call hU (hok _ _ ho).1 (hok _ _ ho).2 hs

/-- Operations other than stores of `p` leave the server's `p`. -/
private theorem served_run {p : Path} {x : Option (Bytes × Timespec)} {w' : World ι}
    {cs : List (Call ι)} (hU : Names U) (hp : p ∈ U) (h : w.Live P U)
    (hx : (w.view P p).served = x)
    (hr : Run (World.call P)
      (fun w d => (d.Shares U ∧ w.Single d) ∧ ¬ (d.path = p ∧ w.stores d = true)) w cs w') :
    w'.Live P U ∧ (w'.view P p).served = x := by
  refine hr.invariant (fun w => w.Live P U ∧ (w.view P p).served = x) ⟨h, hx⟩ ?_
  rintro s d t ⟨hs, hsx⟩ ⟨⟨hd, -⟩, hns⟩ hst
  obtain ⟨hlive, hview, hother⟩ := hs.call hU hd hst
  refine ⟨hlive, ?_⟩
  by_cases hne : p = d.path
  · subst hne
    rw [hview, View.served_next_of_not_stores hd.op, hsx]
    exact Bool.eq_false_iff.mpr fun hs' => hns ⟨rfl, hs'⟩
  · rw [hother p hp hne, hsx]

/-- A release that ends a session with a write of some bytes leaves the session's bytes at the
server and a server time in the client's table, and until the next store of the path an open by a
client without a copy caches these bytes. -/
theorem release_stores_session {cs : List (Call ι)} {s : Session} (hU : Names U)
    (h0 : w₀.Start P U)
    (hr : Run (World.call P) (fun w d => d.Shares U ∧ w.Single d) w₀ cs w)
    (hc : c.Shares U) (hop : c.op = .release 0) (hs : w.sessions c.client c.path = [s])
    (hd : s.dirty = true) :
    ∃ w', w.call P c = some w' ∧
      (∃ f, w'.served P c.path = some f ∧ f.bytes = s.bytes ∧
        w'.recorded c.client c.path = Int64.ofNat f.mtim.tv_nsec) ∧
      w'.recorded c.client c.path ≠ modifiedFlag ∧
      ∀ (ds : List (Call ι)) (u : World ι),
        Run (World.call P) (fun w d => (d.Shares U ∧ w.Single d) ∧
          ¬ (d.path = c.path ∧ w.stores d = true)) w' ds u →
        ∀ d : Call ι, d.Shares U → d.path = c.path → d.op = .openF →
          u.cached P d.client c.path = none →
          ∃ u', u.call P d = some u' ∧ u'.cached P d.client c.path = some s.bytes := by
  have hw := h0.tracked.run hU (fun _ _ ho => ho) hr
  have hp := hc.path
  have htracks := hw.tracks _ hp c.client
  have hlog : (w.view P c.path).sessions c.client = [s.toLog] := by
    simp only [view, hs, List.map_cons, List.map_nil]
  rw [hlog] at htracks
  obtain ⟨hcached, hflag⟩ := htracks
  obtain ⟨r, w', hperf, hlive, hview, -, -⟩ := hw.live.perform hU hc (by
    rw [hop, hs]
    exact fun k hk => by simp [Op.session] at hk; simp [← hk])
  have hn : ((w.view P c.path).copies c.client).next c.now (.release 0) =
      ⟨some (s.bytes, c.now), some s.bytes, Int64.ofNat c.now.tv_nsec⟩ := by
    simp only [Copies.next, View.copies, hflag.mpr hd, if_true, Copies.stored, hcached,
      Option.map_some]
  have hserved : (w'.view P c.path).served = some (s.bytes, c.now) := by
    rw [hview, View.served_next, hop, hn]
  have hrecorded : w'.recorded c.client c.path = Int64.ofNat c.now.tv_nsec := by
    have h : w'.recorded c.client c.path = _ :=
      congrArg (fun v : View ι => v.recorded c.client) hview
    simpa only [View.recorded_next_self, hop, hn] using h
  refine ⟨w', call_eq_some.mpr ⟨_, hperf⟩, ?_, ?_, ?_⟩
  · obtain ⟨f, hf, hbt⟩ := Option.map_eq_some_iff.mp hserved
    obtain ⟨hb, ht⟩ := Prod.mk.inj hbt
    exact ⟨f, hf, hb, by rw [ht, hrecorded]⟩
  · rw [hrecorded]
    exact time_ne_modifiedFlag c.now
  · intro ds u hru d hd' hpath hopen hnone
    obtain ⟨hulive, husrv⟩ := served_run hU hp hlive hserved hru
    obtain ⟨r, u', hperf', -, hview', -, -⟩ := hulive.perform hU hd' (by
      rw [hopen]
      exact fun k hk => by simp [Op.session] at hk)
    refine ⟨u', call_eq_some.mpr ⟨_, hperf'⟩, ?_⟩
    have h : u'.cached P d.client d.path = _ :=
      congrArg (fun v : View ι => v.cached d.client) hview'
    have hcopies : (u.view P c.path).copies d.client =
        ⟨some (s.bytes, c.now), none, u.recorded d.client c.path⟩ := by
      simp only [View.copies, husrv]
      simp only [view, hnone]
    simpa only [View.cached_next_self, hpath, hopen, hcopies, Copies.next, Copies.stale, if_true,
      Copies.fetched] using h

/-- A session of the first client around a whole session of the second one. -/
def overlap : List (Bool × Timespec × Op) :=
  [(false, sampleTime 1 0, .openF), (false, sampleTime 2 0, .write 0 [9] 1), (true, sampleTime 3 0, .openF),
    (true, sampleTime 4 0, .write 0 [7, 8] 0), (true, sampleTime 5 0, .release 0)]

/-- The end of the session. -/
def overlapEnd : Call (Bool) where
  client := false
  path := sampleFile
  op := .release 0
  now := sampleTime 6 0
  junk := .zero

private theorem exists_overlap_run :
    ∃ w s, Run (World.call sample) (fun w d => d.Shares {sampleFile} ∧ w.Single d) sampleBoot
        (sampleCalls overlap) w ∧ w.sessions false sampleFile = [s] ∧
      s.toLog = ⟨[1], [(1, [9])]⟩ := by
  obtain ⟨w, hr, -, hv⟩ := exists_sample_run (l := overlap)
    (fun v c => c.op.Shares ∧ (c.op = .openF → v.sessions c.client = []))
    (fun w d => d.Shares {sampleFile} ∧ w.Single d) (fun w c ht hp hq => by
      obtain ⟨hop, hone⟩ := of_decide_eq_true ht
      refine ⟨⟨hp, hq, hop⟩, fun ho => ?_⟩
      rw [hp]
      exact List.map_eq_nil_iff.mp (hone ho)) rfl
  have hlog : (w.sessions false sampleFile).map Session.toLog = [⟨[1], [(1, [9])]⟩] :=
    congrFun (congrArg View.sessions hv) false
  obtain ⟨s, hs, hl⟩ := List.map_eq_singleton_iff.mp hlog
  exact ⟨w, s, hr, hs, hl⟩

/-- The first client's release overrides what the second one stored meanwhile. -/
theorem release_stores_session_overlap :
    ∃ w w' : World (Bool),
      Run (World.call sample) (fun w d => d.Shares {sampleFile} ∧ w.Single d) sampleBoot
        (sampleCalls overlap) w ∧
      w.call sample overlapEnd = some w' ∧
      ∃ f, w'.served sample sampleFile = some f ∧ f.bytes = [1, 9] := by
  obtain ⟨w, s, hr, hs, hl⟩ := exists_overlap_run
  obtain ⟨w', hcall, ⟨f, hf, hb, -⟩, -⟩ := release_stores_session (P := sample) names_sampleFile
    start_sampleBoot hr (c := overlapEnd) ⟨rfl, ⟨rfl, rfl⟩, trivial⟩ rfl hs (by rw [hl]; decide)
  exact ⟨w, w', hr, hcall, f, hf, by rw [hb, hl]; decide⟩

end World

end Afs
