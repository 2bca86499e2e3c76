import Afs.Concurrency.Release
import Afs.Ops.Script

/-!
# Writes lost by a release

A client that works alone keeps the law that an unflagged copy is what the server has. A release
with writes between its calls keeps it in some orders of the calls and breaks it in others;
`ReleaseKeeps` tells which.
-/

namespace Afs

open Posix Interaction Transition

variable {env : Env} {junk : Junk} {cache_path p : Path} {s t : St} {c : Copies} {b : Bytes}

/-- The server has the cached bytes, or the modified flag says that it may not. -/
def Copies.Lawful (c : Copies) : Prop :=
  c.recorded = modifiedFlag ∨ ∀ b, c.cached = some b → c.served.map (·.1) = some b

/-- When a release among complete writes keeps the law, from the cached bytes at the start and the
writes before each of its calls: it finds no flag, or a write after the reply's time was recorded
sets the flag again, or the writes up to that point neither made the file longer once its length
had been taken nor changed a byte once the copy had been opened. -/
def Copies.ReleaseKeeps (c : Copies) (b : Bytes) (acts : List Writes) : Prop :=
  (c.recorded ≠ modifiedFlag ∧ ¬ Writes.Dirty (acts.take 2).flatten) ∨
  Writes.Dirty (acts.drop 7).flatten ∨
  ((overwriteAll b (acts.take 1).flatten).length < 2 ^ 31 ∧
    (overwriteAll b (acts.take 4).flatten).length =
      (overwriteAll b (acts.take 1).flatten).length ∧
    overwriteAll b (acts.take 7).flatten = overwriteAll b (acts.take 4).flatten)

/-- Writes without bytes change nothing. -/
theorem overwriteAll_of_not_dirty {ws : Writes} (h : ¬ ws.Dirty) (b : Bytes) :
    overwriteAll b ws = b := by
  induction ws with
  | nil => rfl
  | cons w ws ih =>
      have hw : w.2 = [] := by
        by_contra hne
        exact h ⟨w, List.mem_cons_self, hne⟩
      have hrest : ¬ Writes.Dirty ws := fun ⟨w', hw', hne⟩ =>
        h ⟨w', List.mem_cons_of_mem _ hw', hne⟩
      rw [← List.singleton_append, overwriteAll_append, overwriteAll_singleton, hw, overwrite_nil,
        ih hrest]

theorem wrote_of_not_dirty {ws : Writes} (h : ¬ ws.Dirty) (c : Copies) : c.wrote ws = c := by
  cases c
  simp only [Copies.wrote, h, if_false, overwriteAll_of_not_dirty h, Option.map_id']

/-- What a release sends is what the cache holds in the end exactly when no write got in between. -/
theorem sentBytes_eq_iff (ws us : Writes) (hpos : 0 ≤ (Int32.ofInt b.length).toInt) :
    sentBytes b.length (overwriteAll b ws) = overwriteAll b (ws ++ us) ↔
      b.length < 2 ^ 31 ∧ (overwriteAll b ws).length = b.length ∧
        overwriteAll b (ws ++ us) = overwriteAll b ws := by
  have hcut := toInt_ofInt_le b.length
  have hlt := (Int32.ofInt b.length).toInt_lt
  have hle := le_length_overwriteAll b ws
  have hle' := le_length_overwriteAll (overwriteAll b ws) us
  rw [← overwriteAll_append] at hle'
  unfold sentBytes
  constructor
  · intro h
    have hlen := congrArg List.length h
    rw [List.length_take] at hlen
    refine ⟨by omega, by omega, ?_⟩
    rw [← h]
    exact List.take_of_length_le (by omega)
  · rintro ⟨hshort, hsame, hkeep⟩
    have hsize : (Int32.ofInt b.length).toInt = b.length :=
      Int32.toInt_ofInt_of_le (by omega) (by omega)
    rw [hkeep, hsize, Int.toNat_natCast, ← hsame, List.take_length]

/-- A release among complete writes keeps the law exactly under `ReleaseKeeps`. -/
theorem Stands.release_lawful_iff {junk' : Junk} {fh : Int} {acts : List Writes} {r : Int}
    (hs : Stands env cache_path p s c b) (hlaw : c.Lawful)
    (hacts : ∀ ws ∈ acts, Writes.Below ws)
    (h : (Client.afsRelease junk' p cache_path fh).interleave env.exec
      (Client.writes env junk p cache_path) acts s = some (r, t)) :
    (t.copies env cache_path p).Lawful ↔ c.ReleaseKeeps b acts := by
  rcases hs.release_among hacts h with ⟨w0, w1, rfl, hm, ht⟩ |
    ⟨w0, w1, w2, w3, w4, w5, w6, later, now, rfl, hm, hpos, ht⟩
  · have hclean : ¬ Writes.Dirty (w0 ++ w1) := by
      intro hd
      exact hm (if_pos hd)
    rw [wrote_of_not_dirty hclean] at hm ht
    rw [ht]
    refine iff_of_true hlaw (Or.inl ⟨hm, ?_⟩)
    simpa using hclean
  · have hflag : ¬ (c.recorded ≠ modifiedFlag ∧ ¬ Writes.Dirty (w0 ++ w1)) := by
      rintro ⟨hne, hclean⟩
      rw [wrote_of_not_dirty hclean] at hm
      exact hne hm
    have hkeeps : c.ReleaseKeeps b (w0 :: w1 :: w2 :: w3 :: w4 :: w5 :: w6 :: later) ↔
        Writes.Dirty later.flatten ∨
          sentBytes (overwriteAll b w0).length (overwriteAll b (w0 ++ w1 ++ w2 ++ w3)) =
            overwriteAll b (w0 ++ w1 ++ w2 ++ w3 ++ w4 ++ w5 ++ w6) := by
      have hiff := sentBytes_eq_iff (w1 ++ w2 ++ w3) (w4 ++ w5 ++ w6) hpos
      simp only [← overwriteAll_append, ← List.append_assoc] at hiff
      rw [hiff]
      simp only [Copies.ReleaseKeeps, List.take_succ_cons, List.take_zero, List.drop_succ_cons,
        List.drop_zero, List.flatten_cons, List.flatten_nil, List.append_nil, hflag, false_or,
        ← List.append_assoc]
    rw [ht, hkeeps]
    by_cases hd : Writes.Dirty later.flatten
    · exact iff_of_true (Or.inl (if_pos hd)) (Or.inl hd)
    · rw [wrote_of_not_dirty hd]
      simp only [Copies.Lawful, time_ne_modifiedFlag, hd, false_or, Option.some.injEq,
        Option.map_some, forall_eq']

/-- When a client that works alone may start an operation: it creates absent files, opens present
ones in any number of sessions, and unlinks only closed ones. -/
def Op.Orderly (served : Bool) (idle : Bool) : Op → Prop
  | .create => served = false ∧ idle = true
  | .openF | .getattr => served = true
  | .write _ buffer offset => offset + buffer.length < 2 ^ 31
  | .read .. | .release _ | .fsync _ => True
  | .unlink => idle = true
  | _ => False

instance (served idle : Bool) : (op : Op) → Decidable (op.Orderly served idle)
  | .create => inferInstanceAs (Decidable (served = false ∧ idle = true))
  | .openF | .getattr => inferInstanceAs (Decidable (served = true))
  | .write _ buffer offset => inferInstanceAs (Decidable (offset + buffer.length < 2 ^ 31))
  | .read .. | .release _ | .fsync _ => .isTrue trivial
  | .unlink => inferInstanceAs (Decidable (idle = true))
  | .truncate _ | .chown .. | .chmod _ | .utimens .. | .mkdir _ | .rmdir | .readdir =>
    .isFalse not_false

/-- What a client that works alone keeps of a file. -/
structure Copies.Kept (c : Copies) (idle : Bool) : Prop where
  lawful : c.Lawful
  /-- Nothing is cached of an absent file. -/
  absent : c.served = none → c.cached = none
  /-- An open file is there and cached. -/
  opened : idle = false → c.served ≠ none ∧ c.cached ≠ none

namespace Copies.Kept

variable {ls : List Log} {op : Op} {now : Timespec}

theorem fits (h : c.Kept ls.isEmpty) (hop : op.Orderly c.served.isSome ls.isEmpty)
    (hs : op.InSession ls.length) : c.Fits op := by
  have hopen : ∀ k, op.session = some k → c.cached ≠ none := by
    intro k hk
    have hne : ls ≠ [] := List.ne_nil_of_length_pos (Nat.zero_lt_of_lt (hs k hk))
    exact (h.opened (by simpa using hne)).2
  cases op with
  | create =>
      have hserved : c.served = none := by simpa using hop.1
      exact ⟨hserved, h.absent hserved⟩
  | openF | getattr => exact Option.isSome_iff_ne_none.mp hop
  | read k _ _ | release k => exact hopen k rfl
  | write k buffer offset => exact ⟨hopen k rfl, hop⟩
  | fsync k | unlink => exact trivial
  | _ => exact absurd hop not_false

/-- One operation keeps the law. -/
theorem next (h : c.Kept ls.isEmpty) (hop : op.Orderly c.served.isSome ls.isEmpty)
    (hs : op.InSession ls.length) :
    (c.next now op).Kept (op.logs (c.next now op).cached ls).isEmpty := by
  have hf := h.fits hop hs
  cases op with
  | create =>
      refine ⟨Or.inr fun b hb => hb, fun hn => absurd hn (Option.some_ne_none _), fun _ => ?_⟩
      exact ⟨Option.some_ne_none _, Option.some_ne_none _⟩
  | openF =>
      obtain ⟨⟨b, t⟩, hb⟩ := Option.ne_none_iff_exists'.mp hf
      simp only [Copies.next]
      split
      · simp only [Copies.fetched, hb]
        refine ⟨Or.inr fun d hd => hd, fun hn => absurd hn (Option.some_ne_none _), fun _ => ?_⟩
        exact ⟨Option.some_ne_none _, Option.some_ne_none _⟩
      · next hst =>
        refine ⟨h.lawful, h.absent, fun _ => ⟨hf, fun hn => hst ?_⟩⟩
        simp only [Copies.stale, hn]
  | write k buffer offset =>
      have hempty : (ls.modify k (Log.write offset buffer)).isEmpty = ls.isEmpty := by
        rw [Bool.eq_iff_iff, List.isEmpty_iff_length_eq_zero, List.isEmpty_iff_length_eq_zero,
          List.length_modify]
      simp only [Copies.next, Op.logs, hempty]
      split
      · exact h
      · refine ⟨Or.inl rfl, ?_, ?_⟩
        · intro hn
          simp only [h.absent hn, Option.map_none]
        · intro hi
          exact ⟨(h.opened hi).1, by simpa using (h.opened hi).2⟩
  | release k =>
      have hcached : c.cached ≠ none := hf
      have hserved : c.served ≠ none := fun hn => hf (h.absent hn)
      simp only [Copies.next]
      split
      · refine ⟨Or.inr ?_, ?_, fun _ => ⟨by simpa [Copies.stored] using hcached, hcached⟩⟩
        · intro b hb
          have hb' : c.cached = some b := hb
          simp only [Copies.stored, hb', Option.map_some]
        · intro hn
          exact Option.map_eq_none_iff.mp hn
      · exact ⟨h.lawful, h.absent, fun _ => ⟨hserved, hf⟩⟩
  | unlink =>
      have hidle : ls.isEmpty = true := hop
      refine ⟨Or.inr fun b hb => absurd hb.symm (Option.some_ne_none b), fun _ => rfl, fun hi => ?_⟩
      exact Bool.noConfusion (hidle.symm.trans hi)
  | read | fsync | getattr => exact h
  | _ => exact absurd hop not_false

end Copies.Kept

namespace World

variable {ι : Type} {P : Params ι} {U : Set Path} {w w₀ : World ι} {i : ι}

/-- A complete operation of client `i`, the only one at work, with nothing failing. -/
structure Orderly (P : Params ι) (U : Set Path) (i : ι) (w : World ι) (c : Call ι) : Prop where
  client : c.client = i
  path : c.path ∈ U
  quiet : c.Quiet
  op : c.op.Orderly (w.served P c.path).isSome (w.sessions i c.path).isEmpty

/-- The system with what client `i` keeps of every file. -/
structure Kept (P : Params ι) (U : Set Path) (i : ι) (w : World ι) : Prop where
  sound : w.Sound P U
  views : ∀ p ∈ U, ((w.view P p).copies i).Kept ((w.view P p).sessions i).isEmpty

theorem Kept.start (hw : w₀.Sound P U) (hcached : ∀ p ∈ U, w₀.cached P i p = none)
    (hsess : ∀ p ∈ U, w₀.sessions i p = []) : w₀.Kept P U i where
  sound := hw
  views p hp := by
    have hnone : ((w₀.view P p).copies i).cached = none := hcached p hp
    have hidle : ((w₀.view P p).sessions i).isEmpty = true := by
      simp only [view, hsess p hp, List.map_nil, List.isEmpty_nil]
    refine ⟨Or.inr ?_, fun _ => hnone, fun hi => Bool.noConfusion (hidle.symm.trans hi)⟩
    intro b hb
    exact absurd (hb.symm.trans hnone) (Option.some_ne_none b)

variable [DecidableEq ι]

theorem Kept.call {c : Call ι} {w' : World ι} (hU : Names U) (h : w.Kept P U i)
    (hc : w.Orderly P U i c) (hs : w.call P c = some w') : w'.Kept P U i := by
  obtain rfl := hc.client
  have hkept := h.views _ hc.path
  have hop : c.op.Orderly ((w.view P c.path).copies c.client).served.isSome
      ((w.view P c.path).sessions c.client).isEmpty := by
    simpa only [View.copies, view, Option.isSome_map, List.isEmpty_map] using hc.op
  have hin : c.op.InSession ((w.view P c.path).sessions c.client).length := by
    simpa only [view, List.length_map] using inSession_of_call hs
  obtain ⟨r, u, hperf, hsound, hview, hother, -⟩ :=
    perform_view hU h.sound hc.path hc.quiet ⟨hkept.fits hop hin, hin⟩
  obtain ⟨r', hr'⟩ := call_eq_some.mp hs
  obtain rfl : u = w' := (Prod.mk.inj (Option.some.inj (hperf.symm.trans hr'))).2
  refine ⟨hsound, fun q hq => ?_⟩
  by_cases hne : q = c.path
  · subst hne
    rw [hview, View.copies_next_self, View.sessions_next_self]
    exact hkept.next hop hin
  · rw [hother q hq hne]
    exact h.views q hq

/-- After a run of complete operations of one client, with any number of open sessions, a release
of an open file runs with complete writes between its calls. When it has finished, the server has
the cached bytes or the file is flagged, exactly under `ReleaseKeeps`. -/
theorem release_among_writes_iff {cs : List (Call ι)} {p : Path} {now : Timespec}
    {junk junk' junk'' : Junk} {fh : Int} {acts : List Writes} {r : Int} {t : St}
    (hU : Names U) (hw : w₀.Sound P U) (hcached : ∀ p ∈ U, w₀.cached P i p = none)
    (hsess : ∀ p ∈ U, w₀.sessions i p = [])
    (hr : Run (World.call P) (Orderly P U i) w₀ cs w) (hp : p ∈ U) (hopen : w.sessions i p ≠ [])
    (hacts : ∀ ws ∈ acts, Writes.Below ws)
    (h : (Client.afsRelease junk' p (P.cache_path i) fh).interleave
      (Env.exec ⟨P.root_path, junk⟩)
      (Client.writes ⟨P.root_path, junk⟩ junk'' p (P.cache_path i)) acts (w.state i now [] []) =
        some (r, t)) :
    ∃ b, w.cached P i p = some b ∧
      ((t.copies ⟨P.root_path, junk⟩ (P.cache_path i) p).Lawful ↔
        ((w.view P p).copies i).ReleaseKeeps b acts) := by
  have hkept : w.Kept P U i := hr.invariant _ (.start hw hcached hsess)
    fun _ _ _ hk ho hst => hk.call hU ho hst
  have hone := hkept.views p hp
  have hidle : ((w.view P p).sessions i).isEmpty = false := by
    simpa only [view, List.isEmpty_map, List.isEmpty_eq_false_iff] using hopen
  obtain ⟨b, hb⟩ := Option.ne_none_iff_exists'.mp (hone.opened hidle).2
  have hshort := (hkept.sound.short i p hp).cached b hb
  have hstands : Stands ⟨P.root_path, junk⟩ (P.cache_path i) p (w.state i now [] [])
      ((w.view P p).copies i) b :=
    { ready := hkept.sound.ready hU hp i now junk
      copies := rfl
      cached := hb
      below := by omega }
  exact ⟨b, hb, hstands.release_lawful_iff hone.lawful hacts h⟩

/-- Two sessions on the file, one of which wrote. -/
def overlapped : List (Bool × Timespec × Op) :=
  [(false, sampleTime 1 0, .openF), (false, sampleTime 2 0, .openF),
    (false, sampleTime 3 0, .write 0 [9] 0)]

/-- The other session is released among writes of the first. -/
def overlappedRelease (acts : List Writes) (w : World (Bool)) : Option (Int × St) :=
  (w.handle (sampleCall false 4 (.release 1) [])).bind fun fh =>
    (Client.afsRelease .zero sampleFile (sample.cache_path false) fh).interleave
      (Env.exec ⟨sample.root_path, .zero⟩)
      (Client.writes ⟨sample.root_path, .zero⟩ .zero sampleFile (sample.cache_path false)) acts
      (w.state false (sampleTime 4 0) [] [])

private theorem exists_overlapped_release (acts : List Writes) (c : Copies)
    (h : (((sampleCalls overlapped).foldlM (World.call sample) sampleBoot).bind fun w =>
      (overlappedRelease acts w).map fun x =>
        x.2.copies ⟨sample.root_path, .zero⟩ (sample.cache_path false) sampleFile) = some c) :
    ∃ w r t, Run (World.call sample) (Orderly sample {sampleFile} false) sampleBoot
        (sampleCalls overlapped) w ∧ w.sessions false sampleFile ≠ [] ∧
      overlappedRelease acts w = some (r, t) ∧
      t.copies ⟨sample.root_path, .zero⟩ (sample.cache_path false) sampleFile = c := by
  obtain ⟨w, hr, -, hv⟩ := exists_sample_run (l := overlapped)
    (fun v c => c.client = false ∧ c.op.Orderly v.served.isSome (v.sessions false).isEmpty)
    (Orderly sample {sampleFile} false) (fun w c ht hp hq => by
      obtain ⟨hi, hop⟩ := of_decide_eq_true ht
      refine ⟨hi, hp, hq, ?_⟩
      simpa only [view, Option.isSome_map, List.isEmpty_map, hp] using hop) rfl
  rw [hr.foldlM_eq, Option.bind_some, Option.map_eq_some_iff] at h
  obtain ⟨⟨r, t⟩, hrel, hc⟩ := h
  refine ⟨w, r, t, hr, ?_, hrel, hc⟩
  intro hn
  have hlogs := congrFun (congrArg View.sessions hv) false
  simp only [view, hn, List.map_nil] at hlogs
  exact absurd hlogs.symm (List.cons_ne_nil _ _)

/-- A write after the reply's time was recorded sets the flag again. -/
theorem release_among_writes_iff_later :
    ∃ w r t, Run (World.call sample) (Orderly sample {sampleFile} false) sampleBoot
        (sampleCalls overlapped) w ∧
      overlappedRelease [[], [], [], [], [], [], [], [(0, [7])], [], [], []] w = some (r, t) ∧
      (t.copies ⟨sample.root_path, .zero⟩ (sample.cache_path false) sampleFile).Lawful := by
  obtain ⟨w, r, t, hr, hopen, hrel, -⟩ := exists_overlapped_release
    [[], [], [], [], [], [], [], [(0, [7])], [], [], []]
    ⟨some ([9], sampleTime 4 0), some [7], modifiedFlag⟩ (by decide +kernel)
  obtain ⟨fh, -, hplay⟩ := Option.bind_eq_some_iff.mp hrel
  obtain ⟨b, -, hiff⟩ := release_among_writes_iff names_sampleFile start_sampleBoot.sound
    (start_sampleBoot.cached false) (fun _ _ => rfl) hr rfl hopen (by decide) hplay
  exact ⟨w, r, t, hr, hrel, hiff.mpr (Or.inr (Or.inl (by decide)))⟩

/-- A write between the server's reply and the record of its time: in the end the server has the
bytes that were read before, and the flag is gone. -/
theorem release_loses_write :
    ∃ w r t, Run (World.call sample) (Orderly sample {sampleFile} false) sampleBoot
        (sampleCalls overlapped) w ∧
      overlappedRelease [[], [], [], [], [], [], [(0, [7])], [], [], [], []] w = some (r, t) ∧
      t.copies ⟨sample.root_path, .zero⟩ (sample.cache_path false) sampleFile =
        ⟨some ([9], sampleTime 4 0), some [7], 0⟩ ∧
      ¬ (t.copies ⟨sample.root_path, .zero⟩ (sample.cache_path false) sampleFile).Lawful := by
  obtain ⟨w, r, t, hr, -, hrel, hc⟩ := exists_overlapped_release
    [[], [], [], [], [], [], [(0, [7])], [], [], [], []] ⟨some ([9], sampleTime 4 0), some [7], 0⟩
    (by decide +kernel)
  refine ⟨w, r, t, hr, hrel, hc, ?_⟩
  rw [hc]
  rintro (hflag | hsame)
  · exact absurd hflag (by decide)
  · exact absurd (hsame _ rfl) (by decide)

end World

end Afs
