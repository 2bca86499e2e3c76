import Afs.Consistency.Solo

/-!
# Clients that take turns

Several clients may use a file one after another: each of them opens it when no session is open anywhere,
and closes it before the next one does. If every file that reaches the server gets a nanosecond part that is
greater than what the others recorded, the whole system acts as one plain map of files, so that a file
written by one client and closed is what the next client reads.
-/

namespace Afs

open Posix Interaction Transition

/-- The bytes that an operation puts into the caller's buffer. -/
def Op.output (r : Result) : Op → Bytes
  | .read .. => r.data
  | _ => []

/-- The bytes that an operation on a plain file gives. -/
def Op.gives (x : Option Bytes) : Op → Bytes
  | .read _ size offset => slice (x.getD []) offset size
  | _ => []

/-- A map of files and what was read from it so far, after one more operation. -/
def FileMap.serve {ι : Type} (x : FileMap × List Bytes) (c : Call ι) : FileMap × List Bytes :=
  (x.1.next c, x.2 ++ [c.op.gives (x.1 c.path)])

/-- The system and what its operations have put into buffers so far. -/
structure Transcript (ι : Type) where
  world : World ι
  outputs : List Bytes

/-- One operation. -/
def Transcript.step {ι : Type} [DecidableEq ι] (P : Params ι) (d : Transcript ι) (c : Call ι) :
    Option (Transcript ι) :=
  (d.world.perform P c).map fun out => ⟨out.2, d.outputs ++ [out.1.elim [] fun r => c.op.output r]⟩

namespace View

variable {ι : Type} {v : View ι} {x : Option Bytes} {i : ι} {op : Op} {now : Timespec}

/-- How a file across the system stands for an entry of a map: the server has it while nobody has the file
open, the only client that has it open works on it, and a copy elsewhere is the server's or can be told from
it by the record. -/
structure Stands (x : Option Bytes) (v : View ι) : Prop where
  idle : (∀ j, v.sessions j = []) → v.served.map (·.1) = x
  opened : ∀ j, v.sessions j ≠ [] → (∀ k, k ≠ j → v.sessions k = []) ∧ (v.sessions j).length = 1 ∧
    v.served ≠ none ∧ v.cached j ≠ none ∧ v.cached j = x ∧
      (v.recorded j = modifiedFlag ∨ v.served.map (·.1) = x)
  closed : ∀ j, v.sessions j = [] → ∀ b b' t, v.cached j = some b → v.served = some (b', t) →
    b = b' ∨ (v.recorded j).toInt < t.tv_nsec

/-- What a client may do to a file when clients take turns: it starts when nobody has the file open, has no
copy of a file that it creates, and what reaches the server gets a nanosecond part that the others will
notice. -/
structure Turn (v : View ι) (i : ι) (now : Timespec) (op : Op) : Prop where
  alone : op.Alone v.served.isSome true
  session : op.InSession (v.sessions i).length
  start : op.session = none → ∀ j, v.sessions j = []
  gone : op = .create → v.cached i = none
  later : op = .create ∨ v.stores i op = true → ∀ j, j ≠ i → v.cached j ≠ none →
    (v.recorded j).toInt < now.tv_nsec

/-- A client with an open session. -/
private theorem Stands.session {k : Nat} (h : v.Stands x) (hk : k < (v.sessions i).length) :
    (∀ j, j ≠ i → v.sessions j = []) ∧ (v.sessions i).length = 1 ∧ v.served ≠ none ∧ v.cached i ≠ none ∧
      v.cached i = x ∧ (v.recorded i = modifiedFlag ∨ v.served.map (·.1) = x) :=
  h.opened i (List.ne_nil_of_length_pos (Nat.zero_lt_of_lt hk))

/-- The operation meets what it expects. -/
theorem Stands.fits (h : v.Stands x) (hc : v.Turn i now op) : v.Fits i op := by
  refine ⟨?_, hc.session⟩
  have hcached : ∀ k, op.session = some k → v.cached i ≠ none := fun k hk =>
    (h.session (hc.session k hk)).2.2.2.1
  have hop := hc.alone
  cases op with
  | create =>
      have hserved : v.served = none := by simpa using hop.1
      exact ⟨hserved, hc.gone rfl⟩
  | openF => exact Option.isSome_iff_ne_none.mp hop.1
  | read k _ _ | release k => exact hcached k rfl
  | write k buffer offset => exact ⟨hcached k rfl, hop⟩
  | unlink => exact trivial
  | _ => exact absurd hop not_false

/-- What a read gives is in the entry. -/
theorem Stands.output {r : Result} (h : v.Stands x) (hc : v.Turn i now op)
    (ha : (v.copies i).Answers r op) : op.output r = op.gives x := by
  cases op with
  | read k size offset =>
      obtain ⟨-, -, -, hne, hx, -⟩ := h.session (hc.session k rfl)
      obtain ⟨b, hb⟩ := Option.ne_none_iff_exists'.mp hne
      rw [Op.gives, ← hx, hb]
      exact (ha b hb).1
  | _ => rfl

variable [DecidableEq ι]

/-- The view after an operation stands for an entry if the part of its client does, and no other client has
the file open or a copy that would be taken for the server's. -/
private theorem Stands.of_next {x' : Option Bytes} {c' : Copies} {ls' : List Log}
    (hc' : (v.copies i).next now op = c') (hls' : op.logs c'.cached (v.sessions i) = ls')
    (hothers : ∀ j, j ≠ i → v.sessions j = [])
    (hidle : ls' = [] → c'.served.map (·.1) = x' ∧ (∀ b b' t, c'.cached = some b → c'.served = some (b', t) →
      b = b' ∨ c'.recorded.toInt < t.tv_nsec))
    (hopen : ls' ≠ [] → ls'.length = 1 ∧ c'.served ≠ none ∧ c'.cached ≠ none ∧ c'.cached = x' ∧
      (c'.recorded = modifiedFlag ∨ c'.served.map (·.1) = x'))
    (hrest : ∀ j, j ≠ i → ∀ b b' t, v.cached j = some b → c'.served = some (b', t) →
      b = b' ∨ (v.recorded j).toInt < t.tv_nsec) : (v.next i now op).Stands x' := by
  subst hc' hls'
  refine ⟨fun hall => ?_, fun j hj => ?_, fun j hj b b' t hb hs => ?_⟩
  · exact (hidle (by simpa only [sessions_next_self] using hall i)).1
  · have hji : j = i := by
      by_contra hne
      rw [sessions_next_of_ne _ _ _ hne] at hj
      exact hj (hothers j hne)
    subst hji
    refine ⟨fun k hk => by rw [sessions_next_of_ne _ _ _ hk]; exact hothers k hk, ?_⟩
    simpa only [sessions_next_self, cached_next_self, recorded_next_self, served_next] using
      hopen (by simpa only [sessions_next_self] using hj)
  · by_cases hji : j = i
    · subst hji
      rw [sessions_next_self] at hj
      rw [cached_next_self] at hb
      rw [recorded_next_self]
      exact (hidle hj).2 b b' t hb hs
    · rw [cached_next_of_ne _ _ _ hji] at hb
      rw [recorded_next_of_ne _ _ _ hji]
      exact hrest j hji b b' t hb hs

/-- An open gets the server's bytes. -/
private theorem Stands.next_open (h : v.Stands x) (hall : ∀ j, v.sessions j = [])
    (hserved : v.served ≠ none) : (v.next i now .openF).Stands x := by
  obtain ⟨⟨b, t⟩, hb⟩ := Option.ne_none_iff_exists'.mp hserved
  have hx : x = some b := by
    rw [← h.idle hall, hb]
    rfl
  have hnew : ((v.copies i).next now .openF).served = some (b, t) ∧
      ((v.copies i).next now .openF).cached = some b := by
    simp only [Copies.next]
    split
    · simp only [Copies.fetched, copies, hb, and_self]
    · next hst =>
      refine ⟨hb, ?_⟩
      cases hd : v.cached i with
      | none => simp only [Copies.stale, copies, hd, not_true_eq_false] at hst
      | some d =>
          simp only [Copies.stale, copies, hd, hb, decide_eq_true_eq] at hst
          rcases h.closed i (hall i) d b t hd hb with rfl | hlt
          · exact hd
          · exact absurd hlt hst
  refine Stands.of_next rfl rfl (fun j _ => hall j) (fun hn => ?_) (fun _ => ?_) fun j hj d d' t' hd hs => ?_
  · simp only [Op.logs, List.append_eq_nil_iff, reduceCtorEq, and_false] at hn
  · rw [hnew.1, hnew.2, hx, hall i]
    exact ⟨rfl, Option.some_ne_none _, Option.some_ne_none _, rfl, Or.inr rfl⟩
  · rw [hnew.1, ← hb] at hs
    exact h.closed j (hall j) d d' t' hd hs

/-- The end of a session brings the bytes to the server. -/
private theorem Stands.next_release {k : Nat} (h : v.Stands x) (hk : k < (v.sessions i).length)
    (hlater : v.stores i (.release k) = true → ∀ j, j ≠ i → v.cached j ≠ none →
      (v.recorded j).toInt < now.tv_nsec) : (v.next i now (.release k)).Stands x := by
  obtain ⟨hothers, hlen, -, hne, hx, hflag⟩ := h.session hk
  obtain ⟨b, hb⟩ := Option.ne_none_iff_exists'.mp hne
  have hnil : (v.sessions i).eraseIdx k = [] :=
    List.length_eq_zero_iff.mp (by rw [List.length_eraseIdx_of_lt hk, hlen])
  by_cases hm : v.recorded i = modifiedFlag
  · have hn : (v.copies i).next now (.release k) = ⟨some (b, now), some b, Int64.ofNat now.tv_nsec⟩ := by
      simp only [Copies.next, copies, hm, if_true, Copies.stored, hb, Option.map_some]
    refine Stands.of_next hn rfl hothers (fun _ => ⟨?_, fun d d' t hd hs => ?_⟩) (fun ho => absurd hnil ho)
      fun j hj d d' t hd hs => ?_
    · rw [← hx, hb]
      rfl
    · exact Or.inl ((Option.some.inj hd).symm.trans (Prod.mk.inj (Option.some.inj hs)).1)
    · obtain ⟨-, rfl⟩ := Prod.mk.inj (Option.some.inj hs)
      exact Or.inr (hlater (decide_eq_true hm) j hj (by simp [hd]))
  · have hn : (v.copies i).next now (.release k) = v.copies i := if_neg hm
    have hserved := hflag.resolve_left hm
    refine Stands.of_next hn rfl hothers (fun _ => ⟨hserved, fun d d' t hd hs => ?_⟩)
      (fun ho => absurd hnil ho) fun j hj d d' t hd hs => h.closed j (hothers j hj) d d' t hd hs
    have hs' : v.served = some (d', t) := hs
    rw [hs', ← hx, show v.cached i = some d from hd] at hserved
    exact Or.inl (Option.some.inj hserved).symm

/-- A write changes the bytes that its client works on. -/
private theorem Stands.next_write {k offset : Nat} {buffer : Bytes} (h : v.Stands x)
    (hk : k < (v.sessions i).length) :
    (v.next i now (.write k buffer offset)).Stands (x.map (overwrite · offset buffer)) := by
  obtain ⟨hothers, hlen, hserved, hne, hx, hflag⟩ := h.session hk
  have hsame : ((v.copies i).next now (.write k buffer offset)).served = v.served := by
    simp only [Copies.next]
    split <;> rfl
  have hcached : ((v.copies i).next now (.write k buffer offset)).cached =
      x.map (overwrite · offset buffer) := by
    simp only [Copies.next, ← hx]
    split
    · next hb => simp only [hb, overwrite_nil, Option.map_id', copies]
    · rfl
  refine Stands.of_next rfl rfl hothers (fun hn => ?_) (fun _ => ?_) fun j hj d d' t hd hs => ?_
  · have := congrArg List.length hn
    simp only [Op.logs, List.length_modify, hlen, List.length_nil] at this
    omega
  · refine ⟨by simp only [Op.logs, List.length_modify, hlen], by rwa [hsame], ?_, hcached, ?_⟩
    · rw [hcached, ← hx]
      exact fun hn => hne (Option.map_eq_none_iff.mp hn)
    · rw [hsame]
      simp only [Copies.next]
      split
      · next hb =>
        simp only [hb, overwrite_nil, Option.map_id']
        exact hflag
      · exact Or.inl rfl
  · rw [hsame] at hs
    exact h.closed j (hothers j hj) d d' t hd hs

/-- One operation moves the file across the system and the entry together. -/
theorem Stands.next (h : v.Stands x) (hc : v.Turn i now op) : (v.next i now op).Stands (op.apply x) := by
  have hop := hc.alone
  cases op with
  | openF => exact h.next_open (hc.start rfl) (Option.isSome_iff_ne_none.mp hop.1)
  | create =>
      have hall := hc.start rfl
      refine Stands.of_next rfl rfl (fun j _ => hall j) (fun hn => ?_) (fun _ => ?_)
        fun j hj d d' t hd hs => ?_
      · simp only [Op.logs, List.append_eq_nil_iff, reduceCtorEq, and_false] at hn
      · rw [hall i]
        exact ⟨rfl, Option.some_ne_none _, Option.some_ne_none _, rfl, Or.inr rfl⟩
      · obtain ⟨-, rfl⟩ := Prod.mk.inj (Option.some.inj hs)
        exact Or.inr (hc.later (Or.inl rfl) j hj (by simp [hd]))
  | write k buffer offset => exact h.next_write (hc.session k rfl)
  | release k => exact h.next_release (hc.session k rfl) fun hs => hc.later (Or.inr hs)
  | read k size offset =>
      obtain ⟨hothers, hlen, hserved, hne, hx, hflag⟩ := h.session (hc.session k rfl)
      have hsame : (v.copies i).next now (.read k size offset) = v.copies i := rfl
      refine Stands.of_next hsame rfl hothers (fun hn => ?_)
        (fun _ => ⟨hlen, hserved, hne, hx, hflag⟩) fun j hj d d' t hd hs =>
          h.closed j (hothers j hj) d d' t hd hs
      have := congrArg List.length hn
      simp only [Op.logs, hlen, List.length_nil] at this
      omega
  | unlink =>
      have hall := hc.start rfl
      refine Stands.of_next rfl rfl (fun j _ => hall j) (fun _ => ⟨rfl, fun d d' t hd => ?_⟩)
        (fun ho => absurd (hall i) ho) fun j hj d d' t hd hs => ?_
      · simp only [Copies.next, reduceCtorEq] at hd
      · simp only [Copies.next, reduceCtorEq] at hs
  | _ => exact absurd hop not_false

end View

namespace World

variable {ι : Type} [DecidableEq ι] {P : Params ι} {U : Set Path} {w w₀ : World ι}

/-- An operation of a client whose turn it is, on a path in use, during which nothing fails. -/
structure Turn (P : Params ι) (U : Set Path) (w : World ι) (c : Call ι) : Prop where
  path : c.path ∈ U
  quiet : c.Quiet
  alone : c.op.Alone (w.served P c.path).isSome true
  start : c.op.session = none → ∀ j, w.sessions j c.path = []
  gone : c.op = .create → w.cached P c.client c.path = none
  later : c.op = .create ∨ w.stores c = true → ∀ j, j ≠ c.client → w.cached P j c.path ≠ none →
    (w.recorded j c.path).toInt < c.now.tv_nsec

/-- The whole system stands for a map of files. -/
structure Stands (P : Params ι) (U : Set Path) (w : World ι) (M : FileMap) : Prop where
  sound : w.Sound P U
  view : ∀ p ∈ U, (w.view P p).Stands (M p)

omit [DecidableEq ι] in
/-- The same, of the file. -/
private theorem Turn.view {c : Call ι} (h : w.Turn P U c)
    (hs : c.op.InSession (w.sessions c.client c.path).length) :
    (w.view P c.path).Turn c.client c.now c.op where
  alone := by
    have hop := h.alone
    rwa [← Option.isSome_map (f := fun f : File => (f.bytes, f.mtim))] at hop
  session := by simpa only [World.view, List.length_map] using hs
  start hn j := by simp only [World.view, h.start hn j, List.map_nil]
  gone := h.gone
  later hl := h.later <| hl.imp id fun hstores => by
    unfold stores View.stores at *
    split at hstores
    · exact hstores
    · cases hstores

/-- An operation of a client whose turn it is moves the system and the map together, and gives what the map
gives. -/
theorem Stands.step {M : FileMap} {c : Call ι} {d d' : Transcript ι} (hU : Names U) (h : d.world.Stands P U M)
    (hc : d.world.Turn P U c) (hs : d.step P c = some d') :
    d'.world.Stands P U (M.next c) ∧ d'.outputs = d.outputs ++ [c.op.gives (M c.path)] := by
  obtain ⟨out, hout, rfl⟩ := Option.map_eq_some_iff.mp hs
  have hturn := hc.view (inSession_of_call (P := P) (call_eq_some.mpr ⟨out.1, hout⟩))
  have hstands := h.view _ hc.path
  obtain ⟨r, w', hperf, hsound, hview, hother, hans⟩ :=
    perform_view hU h.sound hc.path hc.quiet (hstands.fits hturn)
  obtain rfl : (some r, w') = out := Option.some.inj (hperf.symm.trans hout)
  refine ⟨⟨hsound, fun q hq => ?_⟩, ?_⟩
  · by_cases hne : q = c.path
    · subst hne
      rw [hview, FileMap.next, Function.update_self]
      exact hstands.next hturn
    · rw [hother q hq hne, FileMap.next, Function.update_of_ne hne]
      exact h.view q hq
  · simp only [Option.elim_some, hstands.output hturn hans]

omit [DecidableEq ι] in
/-- At the start nothing is cached and no file is open. -/
theorem Sound.stands (hw : w₀.Sound P U) (hcached : ∀ i, ∀ p ∈ U, w₀.cached P i p = none)
    (hsess : ∀ i, ∀ p ∈ U, w₀.sessions i p = []) :
    w₀.Stands P U fun p => (w₀.served P p).map (·.bytes) := by
  refine ⟨hw, fun p hp => ⟨fun _ => ?_, fun j hj => absurd ?_ hj, fun j _ b b' t hb _ => ?_⟩⟩
  · simp only [World.view, Option.map_map]
    rfl
  · simp only [World.view, hsess j p hp, List.map_nil]
  · have hnone : (w₀.view P p).cached j = none := hcached j p hp
    rw [hnone] at hb
    cases hb

/-- The run lemma: what clients that take turns read is what a plain map gives. -/
theorem Stands.run {M : FileMap} {cs : List (Call ι)} {d : Transcript ι} (hU : Names U) (h : w₀.Stands P U M)
    (hr : Run (Transcript.step P) (fun d c => d.world.Turn P U c) ⟨w₀, []⟩ cs d) :
    d.world.Stands P U (cs.foldl FileMap.serve (M, [])).1 ∧
      d.outputs = (cs.foldl FileMap.serve (M, [])).2 :=
  hr.simulation (fun d x => d.world.Stands P U x.1 ∧ d.outputs = x.2) FileMap.serve ⟨h, rfl⟩
    fun s c t x hx ho hst => by
      obtain ⟨hnext, hout⟩ := hx.1.step hU ho hst
      exact ⟨hnext, by rw [hout, hx.2, FileMap.serve]⟩

/-- Clients that take turns act as one plain map of files: everything that is read is what the map gives,
and a file that nobody has open is at the server as it is in the map. -/
theorem turns_refine_map {cs : List (Call ι)} {d : Transcript ι} (hU : Names U) (hw : w₀.Sound P U)
    (hcached : ∀ i, ∀ p ∈ U, w₀.cached P i p = none) (hsess : ∀ i, ∀ p ∈ U, w₀.sessions i p = [])
    (hr : Run (Transcript.step P) (fun d c => d.world.Turn P U c) ⟨w₀, []⟩ cs d) :
    let x := cs.foldl FileMap.serve (fun p => (w₀.served P p).map (·.bytes), [])
    d.outputs = x.2 ∧
      ∀ p ∈ U, (∀ i, d.world.sessions i p = []) → (d.world.served P p).map (·.bytes) = x.1 p := by
  intro x
  obtain ⟨hstands, hout⟩ := (hw.stands hcached hsess).run hU hr
  refine ⟨hout, fun p hp hidle => ?_⟩
  rw [← (hstands.view p hp).idle fun i => by simp only [World.view, hidle i, List.map_nil]]
  simp only [World.view, Option.map_map]
  rfl

end World

/-- A run of the system, with what was read. -/
theorem Transcript.run_of_calls {ι : Type} [DecidableEq ι] {P : Params ι} {ok : World ι → Call ι → Prop}
    {w w' : World ι} {cs : List (Call ι)} (h : Run (World.call P) ok w cs w') :
    ∃ d : Transcript ι, d.world = w' ∧ Run (Transcript.step P) (fun d c => ok d.world c) ⟨w, []⟩ cs d := by
  induction h with
  | nil => exact ⟨_, rfl, Run.nil⟩
  | @snoc es t u e hr ho hs ih =>
      obtain ⟨d, rfl, hd⟩ := ih
      obtain ⟨r, hperf⟩ := World.call_eq_some.mp hs
      exact ⟨_, rfl, hd.snoc ho (congrArg (Option.map _) hperf)⟩

instance (v : View (Bool)) (i : Bool) (now : Timespec) (op : Op) :
    Decidable (v.Turn i now op) :=
  decidable_of_iff (op.Alone v.served.isSome true ∧ op.InSession (v.sessions i).length ∧
      (op.session = none → ∀ j, v.sessions j = []) ∧ (op = .create → v.cached i = none) ∧
      (op = .create ∨ v.stores i op = true → ∀ j, j ≠ i → v.cached j ≠ none →
        (v.recorded j).toInt < now.tv_nsec))
    ⟨fun ⟨alone, session, start, gone, later⟩ => ⟨alone, session, start, gone, later⟩,
      fun h => ⟨h.alone, h.session, h.start, h.gone, h.later⟩⟩

/-- A system of two clients whose server holds no file. -/
def emptyBoot : World (Bool) := World.boot sample []

/-- Operations on the sample file in which clients take turns, from a server without files. -/
private theorem exists_turns {l : List (Bool × Timespec × Op)} {v : View (Bool)}
    (h : View.script (fun v c => decide (v.Turn c.client c.now c.op)) ⟨none, fun _ => none, fun _ => -1,
      fun _ => []⟩ (sampleCalls l) = some v) :
    emptyBoot.Sound sample {sampleFile} ∧ ∃ d : Transcript (Bool),
      Run (Transcript.step sample) (fun d c => d.world.Turn sample {sampleFile} c) ⟨emptyBoot, []⟩
        (sampleCalls l) d ∧ d.world.view sample sampleFile = v := by
  have hsound : emptyBoot.Sound sample {sampleFile} :=
    World.sound_boot names_sampleFile (fun e he => absurd he List.not_mem_nil)
      fun e he => absurd he List.not_mem_nil
  refine ⟨hsound, ?_⟩
  have hcs : ∀ c ∈ sampleCalls l, c.path = sampleFile ∧ c.Quiet := by
    intro c hc
    obtain ⟨e, -, rfl⟩ := List.mem_map.mp hc
    exact ⟨rfl, rfl, rfl⟩
  have hturn : ∀ (w : World (Bool)) (c : Call (Bool)),
      decide ((w.view sample sampleFile).Turn c.client c.now c.op) = true → c.path = sampleFile → c.Quiet →
        w.Turn sample {sampleFile} c := by
    intro w c ht hp hq
    have hturn := of_decide_eq_true ht
    rw [← hp] at hturn
    refine ⟨hp, hq, ?_, fun hn j => List.map_eq_nil_iff.mp (hturn.start hn j), hturn.gone, fun hl => ?_⟩
    · have halone := hturn.alone
      rwa [World.view, Option.isSome_map] at halone
    · refine hturn.later (hl.imp id fun hs => ?_)
      unfold World.stores at hs
      unfold View.stores
      split at hs
      · exact hs
      · cases hs
  have hview : emptyBoot.view sample sampleFile = ⟨none, fun _ => none, fun _ => -1, fun _ => []⟩ :=
    World.view_boot rootLevel_sampleFile fun e he => absurd he List.not_mem_nil
  rw [← hview] at h
  obtain ⟨w, hrun, -, hv⟩ := World.exists_run names_sampleFile rfl hturn hcs hsound h
  obtain ⟨d, rfl, hd⟩ := Transcript.run_of_calls hrun
  exact ⟨d, hd, hv⟩

/-- A client makes a file of one byte, and another one reads it, writes it anew and closes it. -/
def passedOn : List (Bool × Timespec × Op) :=
  [(false, sampleTime 1 1, .create), (false, sampleTime 2 2, .write 0 [7] 0),
    (false, sampleTime 3 3, .release 0), (true, sampleTime 4 4, .openF), (true, sampleTime 5 5, .read 0 8 0),
    (true, sampleTime 6 6, .write 0 [8, 9] 1), (true, sampleTime 7 7, .release 0),
    (false, sampleTime 8 8, .openF), (false, sampleTime 9 9, .read 0 8 0)]

/-- Each of the two clients reads what the other one has written. -/
theorem World.turns_refine_map_passedOn : ∃ d : Transcript (Bool),
    Run (Transcript.step sample) (fun d c => d.world.Turn sample {sampleFile} c) ⟨emptyBoot, []⟩
      (sampleCalls passedOn) d ∧
      d.outputs = [[], [], [], [], [7], [], [], [], [7, 8, 9]] := by
  obtain ⟨hsound, d, hr, -⟩ := exists_turns (l := passedOn) rfl
  exact ⟨d, hr, (World.turns_refine_map names_sampleFile hsound (fun i p hp => hp ▸ rfl) (fun _ _ _ => rfl)
    hr).1⟩

/-! A copy of a file made in pieces, and read in pieces of other sizes. -/

/-- Writes of one piece behind the other. -/
def puts : Nat → List Bytes → List Op
  | _, [] => []
  | offset, b :: bs => .write 0 b offset :: puts (offset + b.length) bs

/-- Reads of one piece behind the other. -/
def gets : Nat → List Nat → List Op
  | _, [] => []
  | offset, n :: ns => .read 0 n offset :: gets (offset + n) ns

/-- An entry and what was read from it so far, after one more operation. -/
def Op.serve (x : Option Bytes × List Bytes) (op : Op) : Option Bytes × List Bytes :=
  (op.apply x.1, x.2 ++ [op.gives x.1])

/-- Writes behind the end append their pieces. -/
private theorem foldl_puts (ws : List Bytes) (b : Bytes) (os : List Bytes) :
    ∃ os', (puts b.length ws).foldl Op.serve (some b, os) = (some (b ++ ws.flatten), os') ∧
      os'.flatten = os.flatten := by
  induction ws generalizing b os with
  | nil => exact ⟨os, by simp [puts], rfl⟩
  | cons d ws ih =>
      have happend : overwrite b b.length d = b ++ d := by
        unfold overwrite
        split
        · next hd => rw [hd, List.append_nil]
        · exact splice_length b d
      obtain ⟨os', hfold, hflat⟩ := ih (b ++ d) (os ++ [[]])
      refine ⟨os', ?_, by rw [hflat]; simp⟩
      rw [List.length_append] at hfold
      simp only [puts, List.foldl_cons, Op.serve, Op.apply, Op.gives, Option.map_some, happend, hfold,
        List.flatten_cons, List.append_assoc]

/-- Reads one behind the other give a part of the file in one piece. -/
private theorem foldl_gets (ns : List Nat) (b : Bytes) (offset : Nat) (os : List Bytes) :
    ∃ os', (gets offset ns).foldl Op.serve (some b, os) = (some b, os') ∧
      os'.flatten = os.flatten ++ slice b offset ns.sum := by
  induction ns generalizing offset os with
  | nil => exact ⟨os, rfl, by simp [slice]⟩
  | cons n ns ih =>
      obtain ⟨os', hfold, hflat⟩ := ih (offset + n) (os ++ [slice b offset n])
      refine ⟨os', hfold, ?_⟩
      rw [hflat, List.flatten_append, List.flatten_singleton, List.append_assoc, List.sum_cons]
      simp only [slice, List.take_add, List.drop_drop]

namespace FileMap

variable {ι : Type} {M : FileMap}

/-- One answer for each operation. -/
private theorem length_serve (cs : List (Call ι)) : (cs.foldl serve (M, [])).2.length = cs.length := by
  induction cs using List.reverseRecOn with
  | nil => rfl
  | append_singleton cs c ih => simp [serve, ih]

/-- What a path's operations do and give is a matter of these operations alone. -/
private theorem serve_filter (p : Path) (cs : List (Call ι)) :
    ((cs.filter fun c => c.path = p).map (·.op)).foldl Op.serve (M p, []) =
      ((cs.foldl serve (M, [])).1 p,
        ((cs.zip (cs.foldl serve (M, [])).2).filter fun x => x.1.path = p).map (·.2)) := by
  induction cs using List.reverseRecOn with
  | nil => rfl
  | append_singleton cs c ih =>
      rw [List.filter_append, List.map_append, List.foldl_append, ih, List.foldl_append]
      simp only [List.foldl_cons, List.foldl_nil, serve, next]
      rw [List.zip_append (length_serve cs).symm]
      by_cases hp : c.path = p
      · subst hp
        simp [Op.serve]
      · simp [hp, Ne.symm hp]

end FileMap

namespace World

variable {ι : Type} [DecidableEq ι] {P : Params ι} {U : Set Path} {w₀ : World ι}

/-- Where clients take turns, a file that was created, written in pieces and closed, and then opened and read
in pieces, by whichever clients and with whatever else done to other files meanwhile, is read as it was
written, no matter how it was cut on either side. -/
theorem pieces_arrive {cs : List (Call ι)} {d : Transcript ι} {p : Path} {ws : List Bytes} {ns : List Nat}
    (hU : Names U) (hw : w₀.Sound P U) (hcached : ∀ i, ∀ q ∈ U, w₀.cached P i q = none)
    (hsess : ∀ i, ∀ q ∈ U, w₀.sessions i q = [])
    (hr : Run (Transcript.step P) (fun d c => d.world.Turn P U c) ⟨w₀, []⟩ cs d)
    (hops : (cs.filter fun c => c.path = p).map (·.op) =
      .create :: puts 0 ws ++ .release 0 :: .openF :: gets 0 ns) :
    (((cs.zip d.outputs).filter fun x => x.1.path = p).map (·.2)).flatten = ws.flatten.take ns.sum := by
  obtain ⟨-, hout⟩ := (hw.stands hcached hsess).run hU hr
  have hfilter := FileMap.serve_filter (M := fun q => (w₀.served P q).map (·.bytes)) p cs
  rw [← hout, hops] at hfilter
  obtain ⟨os₁, hputs, hflat₁⟩ := foldl_puts ws [] [[]]
  obtain ⟨os₂, hgets, hflat₂⟩ := foldl_gets ns ws.flatten 0 (os₁ ++ [[]] ++ [[]])
  have hsplit : (Op.create :: puts 0 ws ++ .release 0 :: .openF :: gets 0 ns).foldl Op.serve
      ((w₀.served P p).map (·.bytes), []) = (some ws.flatten, os₂) := by
    rw [List.foldl_append]
    change List.foldl Op.serve (List.foldl Op.serve (some [], [[]]) (puts ([] : Bytes).length ws))
      (.release 0 :: .openF :: gets 0 ns) = _
    rw [hputs]
    exact hgets
  rw [hsplit] at hfilter
  rw [← (Prod.mk.inj hfilter).2, hflat₂]
  simp [hflat₁, slice]

/-- A file of four bytes, written in two pieces by one client and read in two by the other one. -/
def pieces : List (Bool × Timespec × Op) :=
  [(false, sampleTime 1 1, .create), (false, sampleTime 2 2, .write 0 [1] 0),
    (false, sampleTime 3 3, .write 0 [2, 3, 4] 1), (false, sampleTime 4 4, .release 0),
    (true, sampleTime 5 5, .openF), (true, sampleTime 6 6, .read 0 2 0), (true, sampleTime 7 7, .read 0 5 2)]

/-- The four bytes arrive. -/
theorem pieces_arrive_sample : ∃ d : Transcript (Bool),
    Run (Transcript.step sample) (fun d c => d.world.Turn sample {sampleFile} c) ⟨emptyBoot, []⟩
      (sampleCalls pieces) d ∧
      ((((sampleCalls pieces).zip d.outputs).filter fun x => x.1.path = sampleFile).map (·.2)).flatten =
        [1, 2, 3, 4] := by
  obtain ⟨hsound, d, hr, -⟩ := exists_turns (l := pieces) rfl
  have hops : ((sampleCalls pieces).filter fun c => c.path = sampleFile).map (·.op) =
      .create :: puts 0 [[1], [2, 3, 4]] ++ .release 0 :: .openF :: gets 0 [2, 5] := by
    decide
  exact ⟨d, hr, pieces_arrive names_sampleFile hsound (fun i p hp => hp ▸ rfl) (fun _ _ _ => rfl) hr hops⟩

end World

end Afs
