import Afs.Ops.Script

/-!
# A client alone refines a map of files

With no other client at work, the cached copies, the server's files and the records together act as
a plain map from paths to byte strings: reads return what the map holds, and a path without an open
session has the map's contents at the server. The map is what the system is for; `Mirrors` relates
it to the two copies.
-/

namespace Afs

open Posix Interaction Transition

/-- A plain map from paths to byte strings. -/
abbrev FileMap := Path → Option Bytes

/-- One entry of the map after an operation on it. -/
def Op.apply (x : Option Bytes) : Op → Option Bytes
  | .create => some []
  | .write _ buffer offset => x.map (overwrite · offset buffer)
  | .unlink => none
  | _ => x

/-- The map after an operation. -/
def FileMap.next {ι : Type} (M : FileMap) (c : Call ι) : FileMap :=
  Function.update M c.path (c.op.apply (M c.path))

/-- How the copies of a file stand for an entry of the map: a cached copy has the entry's bytes,
and the server has them unless a session wrote. -/
structure Mirrors (x : Option Bytes) (c : Copies) (ls : List Log) : Prop where
  /-- What is cached is the entry. -/
  cached : ∀ b, c.cached = some b → x = some b
  /-- Without an open session the server has the entry. -/
  closed : ls = [] → c.served.map (·.1) = x
  /-- A session is the only one, works on a copy, and unsent bytes are flagged. -/
  opened : ls ≠ [] → ls.length = 1 ∧ c.cached ≠ none ∧ c.served ≠ none ∧
    (c.recorded = modifiedFlag ∨ c.served.map (·.1) = x)

/-- When a client alone may start an operation on a path with these copies and sessions. -/
def Op.Alone (served : Bool) (idle : Bool) : Op → Prop
  | .create => served = false ∧ idle = true
  | .openF => served = true ∧ idle = true
  | .write _ buffer offset => offset + buffer.length < 2 ^ 31
  | .read .. | .release _ => True
  | .unlink => idle = true
  | _ => False

instance (served idle : Bool) : (op : Op) → Decidable (op.Alone served idle)
  | .create => inferInstanceAs (Decidable (served = false ∧ idle = true))
  | .openF => inferInstanceAs (Decidable (served = true ∧ idle = true))
  | .write _ buffer offset => inferInstanceAs (Decidable (offset + buffer.length < 2 ^ 31))
  | .read .. | .release _ => .isTrue trivial
  | .unlink => inferInstanceAs (Decidable (idle = true))
  | .fsync _ | .getattr | .truncate _ | .chown .. | .chmod _ | .utimens .. | .mkdir _ | .rmdir
  | .readdir => .isFalse not_false

namespace Mirrors

variable {x : Option Bytes} {c : Copies} {ls : List Log} {op : Op} {now : Timespec}

/-- The operation meets what it expects. -/
theorem fits (h : Mirrors x c ls) (hop : op.Alone c.served.isSome ls.isEmpty)
    (hs : op.InSession ls.length) : c.Fits op := by
  have hopen : ∀ k, op.session = some k → c.cached ≠ none := fun k hk =>
    (h.opened (List.ne_nil_of_length_pos (Nat.zero_lt_of_lt (hs k hk)))).2.1
  cases op with
  | create =>
      have hserved : c.served = none := by simpa using hop.1
      refine ⟨hserved, ?_⟩
      have hx := h.closed (List.isEmpty_iff.mp hop.2)
      rw [hserved, Option.map_none] at hx
      cases hc : c.cached with
      | none => rfl
      | some b => exact absurd (hx.trans (h.cached b hc)) (by simp)
  | openF => exact Option.isSome_iff_ne_none.mp hop.1
  | read k _ _ | release k => exact hopen k rfl
  | write k buffer offset => exact ⟨hopen k rfl, hop⟩
  | unlink => exact trivial
  | _ => exact absurd hop not_false

private theorem next_open (h : Mirrors x c []) (hf : c.Fits .openF) :
    Mirrors x (c.next now .openF) (Op.openF.logs (c.next now .openF).cached []) := by
  obtain ⟨⟨b, t⟩, hb⟩ := Option.ne_none_iff_exists'.mp hf
  have hx : x = some b := by
    rw [← h.closed rfl, hb]
    rfl
  simp only [Copies.next, Op.logs, List.nil_append]
  split
  · simp only [Copies.fetched, hb]
    refine ⟨fun d hd => hx.trans hd, fun hn => absurd hn (List.cons_ne_nil _ _), fun _ => ?_⟩
    exact ⟨rfl, Option.some_ne_none _, Option.some_ne_none _, Or.inr hx.symm⟩
  · next hst =>
    refine ⟨h.cached, fun hn => absurd hn (List.cons_ne_nil _ _), fun _ => ?_⟩
    refine ⟨rfl, fun hn => ?_, hf, Or.inr (h.closed rfl)⟩
    simp only [Copies.stale, hn, not_true_eq_false] at hst

private theorem next_write {k offset : Nat} {buffer : Bytes} (h : Mirrors x c ls)
    (hs : k < ls.length) :
    Mirrors (x.map (overwrite · offset buffer)) (c.next now (.write k buffer offset))
      (ls.modify k (Log.write offset buffer)) := by
  have hne : ls ≠ [] := List.ne_nil_of_length_pos (Nat.zero_lt_of_lt hs)
  obtain ⟨hlen, hcached, hserved, hflag⟩ := h.opened hne
  have hmod : ls.modify k (Log.write offset buffer) ≠ [] :=
    List.ne_nil_of_length_pos (by rw [List.length_modify]; omega)
  simp only [Copies.next]
  split
  · next hb =>
    subst hb
    simp only [overwrite_nil, Option.map_id']
    exact ⟨h.cached, fun hn => absurd hn hmod, fun _ => ⟨by rw [List.length_modify, hlen],
      hcached, hserved, hflag⟩⟩
  · refine ⟨fun d hd => ?_, fun hn => absurd hn hmod, fun _ => ⟨by rw [List.length_modify, hlen],
      fun hn => hcached (Option.map_eq_none_iff.mp hn), hserved, Or.inl rfl⟩⟩
    obtain ⟨b, hb, rfl⟩ := Option.map_eq_some_iff.mp hd
    rw [h.cached b hb, Option.map_some]

private theorem next_release {k : Nat} (h : Mirrors x c ls) (hs : k < ls.length) :
    Mirrors x (c.next now (.release k)) (ls.eraseIdx k) := by
  have hne : ls ≠ [] := List.ne_nil_of_length_pos (Nat.zero_lt_of_lt hs)
  obtain ⟨hlen, hcached, hserved, hflag⟩ := h.opened hne
  obtain ⟨b, hb⟩ := Option.ne_none_iff_exists'.mp hcached
  have hnil : ls.eraseIdx k = [] :=
    List.length_eq_zero_iff.mp (by rw [List.length_eraseIdx_of_lt hs, hlen])
  simp only [Copies.next, hnil]
  split
  · refine ⟨h.cached, fun _ => ?_, fun hn => absurd rfl hn⟩
    simp only [Copies.stored, hb, Option.map_some, h.cached b hb]
  · next hm => exact ⟨h.cached, fun _ => hflag.resolve_left hm, fun hn => absurd rfl hn⟩

/-- One operation moves the copies and the entry together. -/
theorem next (h : Mirrors x c ls) (hop : op.Alone c.served.isSome ls.isEmpty)
    (hs : op.InSession ls.length) :
    Mirrors (op.apply x) (c.next now op) (op.logs (c.next now op).cached ls) := by
  have hf := h.fits hop hs
  cases op with
  | create =>
      obtain rfl := List.isEmpty_iff.mp hop.2
      refine ⟨fun b hb => hb, fun hn => absurd hn (List.cons_ne_nil _ _), fun _ => ?_⟩
      exact ⟨rfl, Option.some_ne_none _, Option.some_ne_none _, Or.inr rfl⟩
  | openF =>
      obtain rfl := List.isEmpty_iff.mp hop.2
      exact h.next_open hf
  | write k buffer offset => exact h.next_write (hs k rfl)
  | release k => exact h.next_release (hs k rfl)
  | read => exact h
  | unlink =>
      obtain rfl := List.isEmpty_iff.mp hop
      refine ⟨fun b hb => ?_, fun _ => rfl, fun hn => absurd rfl hn⟩
      simp only [Copies.next, reduceCtorEq] at hb
  | _ => exact absurd hop not_false

end Mirrors

namespace World

variable {ι : Type} [DecidableEq ι] {P : Params ι} {U : Set Path} {w w₀ : World ι} {i : ι}

/-- An operation of client `i`, the only one at work, on a path in use: it creates absent files,
opens present ones, has one session per path at a time, and unlinks only closed paths. -/
structure Alone (P : Params ι) (U : Set Path) (i : ι) (w : World ι) (c : Call ι) : Prop where
  client : c.client = i
  path : c.path ∈ U
  quiet : c.Quiet
  op : c.op.Alone (w.served P c.path).isSome (w.sessions i c.path).isEmpty

/-- The system stands for a map of files. -/
structure Refines (P : Params ι) (U : Set Path) (i : ι) (w : World ι) (M : FileMap) : Prop where
  sound : w.Sound P U
  mirrors : ∀ p ∈ U, Mirrors (M p) ((w.view P p).copies i) ((w.view P p).sessions i)

omit [DecidableEq ι] in
private theorem alone_view {c : Call ι} (h : Alone P U i w c) :
    c.op.Alone ((w.view P c.path).copies c.client).served.isSome
      ((w.view P c.path).sessions c.client).isEmpty := by
  have hop := h.op
  rw [← h.client] at hop
  simpa only [View.copies, view, Option.isSome_map, List.isEmpty_map] using hop

/-- An operation that takes place moves the system and the map together. -/
theorem Refines.perform {M : FileMap} {c : Call ι} (hU : Names U) (h : w.Refines P U i M)
    (hc : w.Alone P U i c) (hs : c.op.InSession (w.sessions i c.path).length) :
    ∃ r w', w.perform P c = some (some r, w') ∧ w'.Refines P U i (M.next c) ∧
      ((w.view P c.path).copies i).Answers r c.op := by
  have hop := alone_view hc
  obtain rfl := hc.client
  have hmir := h.mirrors _ hc.path
  have hs' : c.op.InSession ((w.view P c.path).sessions c.client).length := by
    simpa only [view, List.length_map] using hs
  obtain ⟨r, w', hperf, hsound, hview, hother, hans⟩ :=
    perform_view hU h.sound hc.path hc.quiet ⟨hmir.fits hop hs', hs'⟩
  refine ⟨r, w', hperf, ⟨hsound, fun q hq => ?_⟩, hans⟩
  by_cases hne : q = c.path
  · subst hne
    rw [hview, View.copies_next_self, View.sessions_next_self, FileMap.next, Function.update_self]
    exact hmir.next hop hs'
  · rw [hother q hq hne, FileMap.next, Function.update_of_ne hne]
    exact h.mirrors q hq

theorem Refines.call {M : FileMap} {c : Call ι} {w' : World ι} (hU : Names U)
    (h : w.Refines P U i M) (hc : w.Alone P U i c) (hs : w.call P c = some w') :
    w'.Refines P U i (M.next c) := by
  have hsess := inSession_of_call hs
  rw [hc.client] at hsess
  obtain ⟨r, u, hperf, hu, -⟩ := h.perform hU hc hsess
  obtain ⟨r', hr'⟩ := call_eq_some.mp hs
  obtain rfl : u = w' := (Prod.mk.inj (Option.some.inj (hperf.symm.trans hr'))).2
  exact hu

/-- A client alone, starting with nothing cached, acts as a plain map of files: every read returns
the map's bytes, and every path without an open session has the map's contents at the server. -/
theorem alone_refines_map {cs : List (Call ι)} (hU : Names U) (hw : w₀.Sound P U)
    (hcached : ∀ p ∈ U, w₀.cached P i p = none) (hsess : ∀ p ∈ U, w₀.sessions i p = [])
    (hr : Run (World.call P) (Alone P U i) w₀ cs w) :
    let M := cs.foldl FileMap.next fun p => (w₀.served P p).map (·.bytes)
    (∀ p ∈ U, w.sessions i p = [] → (w.served P p).map (·.bytes) = M p) ∧
      ∀ c : Call ι, w.Alone P U i c → ∀ k size offset, c.op = .read k size offset →
        k < (w.sessions i c.path).length →
        ∃ r w' b, w.perform P c = some (some r, w') ∧ M c.path = some b ∧
          r.data = slice b offset size ∧ r.ret = (slice b offset size).length := by
  intro M
  have hstart : w₀.Refines P U i fun p => (w₀.served P p).map (·.bytes) := by
    refine ⟨hw, fun p hp => ⟨fun b hb => ?_, fun _ => ?_, fun hn => absurd ?_ hn⟩⟩
    · simp only [View.copies, view, hcached p hp, reduceCtorEq] at hb
    · simp only [View.copies, view, Option.map_map]
      rfl
    · simp only [view, hsess p hp, List.map_nil]
  have hend : w.Refines P U i M := hr.simulation (Refines P U i) FileMap.next hstart
    fun s c t N hs ho hst => hs.call hU ho hst
  refine ⟨fun p hp hp0 => ?_, fun c hc k size offset hop hk => ?_⟩
  · have hx := (hend.mirrors p hp).closed (by simp only [view, hp0, List.map_nil])
    rw [← hx]
    simp only [View.copies, view, Option.map_map]
    rfl
  · have hin : c.op.InSession (w.sessions i c.path).length := by
      rw [hop]
      intro j hj
      obtain rfl : k = j := Option.some.inj hj
      exact hk
    obtain ⟨r, w', hperf, -, hans⟩ := hend.perform hU hc hin
    have hmir := hend.mirrors _ hc.path
    have hne : (w.view P c.path).sessions i ≠ [] := by
      refine List.ne_nil_of_length_pos ?_
      simp only [view, List.length_map]
      omega
    obtain ⟨b, hb⟩ := Option.ne_none_iff_exists'.mp (hmir.opened hne).2.1
    rw [hop] at hans
    exact ⟨r, w', b, hperf, hmir.cached b hb, hans b hb⟩

/-- A file written, unlinked and created again. -/
def recreate : List (Bool × Timespec × Op) :=
  [(false, sampleTime 1 0, .openF), (false, sampleTime 2 0, .write 0 [9] 1), (false, sampleTime 3 0, .release 0),
    (false, sampleTime 4 0, .unlink), (false, sampleTime 5 0, .create),
    (false, sampleTime 6 0, .write 0 [3, 4] 0), (false, sampleTime 7 0, .release 0)]

private theorem exists_recreate_run :
    ∃ w, Run (World.call sample) (Alone sample {sampleFile} false) sampleBoot (sampleCalls recreate) w ∧
      w.sessions false sampleFile = [] := by
  obtain ⟨w, hr, -, hv⟩ := exists_sample_run (l := recreate)
    (fun v c => c.client = false ∧
      c.op.Alone v.served.isSome (v.sessions false).isEmpty)
    (Alone sample {sampleFile} false) (fun w c ht hp hq => by
      obtain ⟨hi, hop⟩ := of_decide_eq_true ht
      refine ⟨hi, hp, hq, ?_⟩
      simpa only [view, Option.isSome_map, List.isEmpty_map, hp] using hop) rfl
  exact ⟨w, hr, List.map_eq_nil_iff.mp (congrFun (congrArg View.sessions hv) false)⟩

/-- In the end the server has what was written into the new file. -/
theorem alone_refines_map_recreate :
    ∃ w, Run (World.call sample) (Alone sample {sampleFile} false) sampleBoot (sampleCalls recreate) w ∧
      (w.served sample sampleFile).map (·.bytes) = some [3, 4] := by
  obtain ⟨w, hr, hs⟩ := exists_recreate_run
  refine ⟨w, hr, ?_⟩
  exact (alone_refines_map names_sampleFile start_sampleBoot.sound (start_sampleBoot.cached false)
    (fun _ _ => rfl) hr).1 sampleFile rfl hs

end World

end Afs
