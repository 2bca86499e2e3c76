import Afs.Concurrency.Refinement

/-!
# Bytes and time of a reply

A fetch takes the bytes and the time of its file in two calls, and a store writes and takes the
time in two. As long as nobody else changes the bytes in between, the reply describes the file as
it was at one instant. A store that falls between the read and the second `fstat` of a fetch makes
the fetch pair its own later time with the bytes from before.
-/

namespace Afs

open Posix Interaction Transition

/-- Handlers at work, with the last call that each of them made. -/
structure Traced (ι : Type) where
  /-- The handlers. -/
  pool : Pool procSig ι Proc Exchange
  /-- The last calls. -/
  last : ι → Option ProcCmd

/-- A call after which the time of the file is still to be taken. -/
def ProcCmd.MovesBytes : Option ProcCmd → Prop
  | some (.sys (.read ..)) | some (.sys (.write ..)) => True
  | _ => False

/-- A call disturbs nobody and is not disturbed: a read finds the length that it asks for, a write
covers the file, and while another handler waits to take its time the bytes stay. -/
def ProcCmd.Undisturbed (bytes : Bytes) (waiting : Prop) : Option ProcCmd → Prop
  | some (.sys (.read _ n)) => bytes.length = n
  | some (.sys (.write _ mem n)) =>
    bytes.length ≤ n ∧ (waiting → overwrite bytes 0 (mem.take n) = bytes)
  | some (.sys (.openF _ fl _)) => fl.trunc → waiting → bytes = []
  | _ => True

namespace Traced

variable {ι : Type} [DecidableEq ι] (H : Handlers ι)

/-- The handlers before their first calls. -/
def start (s : Proc) : Traced ι := ⟨H.start s, fun _ => none⟩

/-- One call of one handler. -/
def step (W : Traced ι) (e : ι × Timespec) : Option (Traced ι) :=
  (Handlers.step W.pool e).map fun P =>
    ⟨P, Function.update W.last e.1 (W.pool.prog e.1).pending⟩

/-- The bytes of the file. -/
def bytes (W : Traced ι) : Bytes := ((content H.path W.pool.state).map (·.bytes)).getD []

/-- Another handler has read or written and not taken the time yet. -/
def Waiting (W : Traced ι) (i : ι) : Prop := ∃ j, j ≠ i ∧ ProcCmd.MovesBytes (W.last j)

/-- The call of handler `i` disturbs nobody and is not disturbed. -/
def Undisturbed (W : Traced ι) (e : ι × Timespec) : Prop :=
  ProcCmd.Undisturbed (W.bytes H) (W.Waiting e.1) (W.pool.prog e.1).pending

end Traced

namespace Handlers

variable {ι : Type} [DecidableEq ι] (H : Handlers ι)

/-- At some instant after the first call of handler `i` and before its last one the file has these
bytes and this time. -/
def Together (s : Proc) (es : List (ι × Timespec)) (i : ι) (d : Bytes) (time : Int64) : Prop :=
  ∃ es₁ es₂ P f, es = es₁ ++ es₂ ∧ Run step (fun _ _ => True) (H.start s) es₁ P ∧
    i ∈ es₁.map Prod.fst ∧ i ∈ es₂.map Prod.fst ∧
    content H.path P.state = some f ∧ f.bytes = d ∧ time = Int64.ofNat f.mtim.tv_nsec

variable {H}

theorem Together.snoc {s : Proc} {es : List (ι × Timespec)} {i : ι} {d : Bytes} {time : Int64}
    (h : H.Together s es i d time) (e : ι × Timespec) : H.Together s (es ++ [e]) i d time := by
  obtain ⟨es₁, es₂, P, f, rfl, hr, h1, h2, hf⟩ := h
  refine ⟨es₁, es₂ ++ [e], P, f, List.append_assoc .., hr, h1, ?_, hf⟩
  rw [List.map_append, List.mem_append]
  exact Or.inl h2

/-- Every time is later than the one that the file has. -/
def Later (H : Handlers ι) (P : Pool procSig ι Proc Exchange) (e : ι × Timespec) : Prop :=
  ∀ f ∈ content H.path P.state, f.mtim < e.2

/-- The instant right before a call of handler `i` that is not its first. -/
theorem Together.before {s : Proc} {es : List (ι × Timespec)} {i : ι} {now : Timespec}
    {P : Pool procSig ι Proc Exchange} {f : Content}
    (hr : Run step (fun _ _ => True) (H.start s) es P) (hi : i ∈ es.map Prod.fst)
    (hf : content H.path P.state = some f) :
    H.Together s (es ++ [(i, now)]) i f.bytes (Int64.ofNat f.mtim.tv_nsec) :=
  ⟨es, [(i, now)], P, f, rfl, hr, hi, by simp, hf, rfl, rfl⟩

end Handlers

/-- A time is taken from the file as it is, by a handler that holds its bytes. -/
theorem Job.next_timed {job : Job} {junk : Junk} {now t : Timespec} {file file' : Option Content}
    {φ : Phase} {d : Bytes} (h : job.next junk now file φ = some (file', .timed d t)) :
    φ = .held d ∧ ∃ f, file = some f ∧ t = f.mtim := by
  cases file <;> cases job <;> cases φ <;> cases h
  all_goals exact ⟨rfl, _, rfl, rfl⟩

/-- A reply without an error repeats what the handler holds and the time it took. -/
theorem Job.next_done {job : Job} {junk : Junk} {now : Timespec} {file file' : Option Content}
    {φ : Phase} {x : Exchange} (h : job.next junk now file φ = some (file', .done x))
    (he : x.error = 0) : ∃ t, φ = .timed x.bytes t ∧ x.time = Int64.ofNat t.tv_nsec := by
  cases file <;> cases job <;> cases φ <;> cases h
  all_goals first | exact absurd he (by decide) | exact ⟨_, rfl, rfl⟩

/-- An undisturbed call leaves the bytes for those who wait, and afterwards the file has the bytes
that the handler holds. -/
theorem Left.undisturbed {job : Job} {junk : Junk} {path : Path} {fd : Int} {φ φ' : Phase}
    {q : Prog procSig Exchange} {now : Timespec} {f : Content} {file' : Option Content}
    {waiting : Prop} (hl : Left job junk path fd φ q)
    (hn : job.next junk now (some f) φ = some (file', φ'))
    (hu : ProcCmd.Undisturbed f.bytes waiting q.pending) :
    ∃ f', file' = some f' ∧ (waiting → f'.bytes = f.bytes) ∧
      ∀ d, φ' = .held d → f'.bytes = d ∧ ProcCmd.MovesBytes q.pending := by
  cases hl with
  | start root_path request_path hpath =>
      cases job with
      | fetch =>
          obtain ⟨rfl, rfl⟩ := Prod.mk.inj (Option.some.inj hn)
          exact ⟨f, rfl, fun _ => rfl, nofun⟩
      | store u =>
          obtain ⟨k, hq, -⟩ := Job.store_left junk root_path request_path u
          rw [hq] at hu
          obtain ⟨rfl, rfl⟩ := Prod.mk.inj (Option.some.inj hn)
          exact ⟨_, rfl, fun hw => (hu rfl hw).symm, nofun⟩
  | done x => cases job <;> cases hn
  | timed d t k h =>
      have hn' : some (some f, Phase.done ⟨0, d, Int64.ofNat t.tv_nsec⟩) = some (file', φ') := by
        cases job <;> exact hn
      obtain ⟨rfl, rfl⟩ := Prod.mk.inj (Option.some.inj hn')
      exact ⟨f, rfl, fun _ => rfl, nofun⟩
  | fetched d k hj h | stored d k u hj h =>
      subst hj
      obtain ⟨rfl, rfl⟩ := Prod.mk.inj (Option.some.inj hn)
      exact ⟨f, rfl, fun _ => rfl, nofun⟩
  | placed n k hj h =>
      subst hj
      obtain ⟨rfl, rfl⟩ := Prod.mk.inj (Option.some.inj hn)
      refine ⟨f, rfl, fun _ => rfl, ?_⟩
      rintro d ⟨⟩
      have hlen : f.bytes.length = n := hu
      subst hlen
      rw [List.take_length, fill_of_length (junk.length_heap _)]
      exact ⟨rfl, trivial⟩
  | sized n k hj h | fetchOpened k hj h =>
      subst hj
      obtain ⟨rfl, rfl⟩ := Prod.mk.inj (Option.some.inj hn)
      exact ⟨f, rfl, fun _ => rfl, nofun⟩
  | storeOpened mem n k u hj hcount hm h =>
      subst hj
      obtain ⟨rfl, rfl⟩ := Prod.mk.inj (Option.some.inj hn)
      obtain ⟨hlen, hkeep⟩ := hu
      rw [hcount, ← List.prefix_iff_eq_take.mp hm] at hkeep
      refine ⟨_, rfl, hkeep, ?_⟩
      rintro d ⟨⟩
      exact ⟨overwrite_zero_of_le (hcount ▸ hlen), trivial⟩

/-- Without a file nobody comes to hold bytes of it. -/
theorem Job.next_held {job : Job} {junk : Junk} {now : Timespec} {file file' : Option Content}
    {φ : Phase} {d : Bytes} (h : job.next junk now file φ = some (file', .held d)) :
    ∃ f, file = some f := by
  cases file with
  | some f => exact ⟨f, rfl⟩
  | none => cases job <;> cases φ <;> cases h

namespace Traced

variable {ι : Type} [DecidableEq ι] (H : Handlers ι)

/-- What is known of a handler in a phase, from the events so far. -/
structure Knows (s : Proc) (es : List (ι × Timespec)) (file : Option Content)
    (last : Option ProcCmd) (i : ι) (φ : Phase) : Prop where
  /-- A handler past its start made a call. -/
  begun : φ ≠ .start → i ∈ es.map Prod.fst
  /-- The file has the bytes that a handler holds. -/
  held : ∀ d, φ = .held d → ∃ f, file = some f ∧ f.bytes = d ∧ ProcCmd.MovesBytes last
  /-- Bytes and time belong together. -/
  timed : ∀ d t, φ = .timed d t → H.Together s es i d (Int64.ofNat t.tv_nsec)
  /-- So they do in a reply. -/
  done : ∀ x, φ = .done x → x.error = 0 → H.Together s es i x.bytes x.time

variable {H}

/-- A handler that does not move learns nothing, and what it holds is still in the file. -/
theorem Knows.other {s : Proc} {es : List (ι × Timespec)} {file file' : Option Content}
    {last : Option ProcCmd} {i : ι} {φ : Phase} (h : Knows H s es file last i φ)
    (e : ι × Timespec)
    (hfile : ∀ f, file = some f → ProcCmd.MovesBytes last →
      ∃ f', file' = some f' ∧ f'.bytes = f.bytes) :
    Knows H s (es ++ [e]) file' last i φ where
  begun hne := by
    rw [List.map_append, List.mem_append]
    exact Or.inl (h.begun hne)
  held d hd := by
    obtain ⟨f, hf, hb, hm⟩ := h.held d hd
    obtain ⟨f', hf', hb'⟩ := hfile f hf hm
    exact ⟨f', hf', hb'.trans hb, hm⟩
  timed d t ht := (h.timed d t ht).snoc e
  done x hx he := (h.done x hx he).snoc e

/-- What the handler that moves knows afterwards. -/
theorem Knows.next {s : Proc} {es : List (ι × Timespec)} {P : Pool procSig ι Proc Exchange}
    {file' : Option Content} {last : Option ProcCmd} {i : ι} {now : Timespec} {φ φ' : Phase}
    (hr : Run Handlers.step (fun _ _ => True) (H.start s) es P)
    (h : Knows H s es (content H.path P.state) last i φ)
    (hn : (H.job i).next (H.junk i) now (content H.path P.state) φ = some (file', φ'))
    (hheld : ∀ d, φ' = .held d →
      ∃ f, file' = some f ∧ f.bytes = d ∧ ProcCmd.MovesBytes (P.prog i).pending) :
    Knows H s (es ++ [(i, now)]) file' (P.prog i).pending i φ' where
  begun _ := by simp
  held := hheld
  timed d t ht := by
    subst ht
    obtain ⟨rfl, f, hf, rfl⟩ := Job.next_timed hn
    obtain ⟨g, hg, rfl, -⟩ := h.held d rfl
    obtain rfl := Option.some.inj (hg.symm.trans hf)
    exact Handlers.Together.before hr (h.begun nofun) hg
  done x hx he := by
    subst hx
    obtain ⟨t, rfl, ht⟩ := Job.next_done hn he
    rw [ht]
    exact (h.timed x.bytes t rfl).snoc _

/-- The handlers without their record of last calls. -/
theorem run_pool {ok : Traced ι → ι × Timespec → Prop} {V W : Traced ι}
    {es : List (ι × Timespec)} (h : Run step ok V es W) :
    Run Handlers.step (fun _ _ => True) V.pool es W.pool := by
  apply h.project Traced.pool
  intro V e W hs
  obtain ⟨P, hP, rfl⟩ := Option.map_eq_some_iff.mp hs
  exact hP

/-- Everything known of every handler. -/
def Known (H : Handlers ι) (s : Proc) (es : List (ι × Timespec)) (W : Traced ι) : Prop :=
  ∃ fd T, H.Agrees fd W.pool T ∧
    ∀ i, Knows H s es (content H.path W.pool.state) (W.last i) i (T.phase i)

theorem known_start {s : Proc} (hr : H.Ready s) : Known H s [] (start H s) :=
  ⟨_, _, H.agrees_start hr, fun _ => ⟨fun h => absurd rfl h, nofun, nofun, nofun⟩⟩

/-- An undisturbed call keeps what is known. -/
theorem Known.step {s : Proc} {es : List (ι × Timespec)} {V W : Traced ι} {e : ι × Timespec}
    (hr : Run Handlers.step (fun _ _ => True) (H.start s) es V.pool) (h : Known H s es V)
    (hu : V.Undisturbed H e) (hs : V.step e = some W) : Known H s (es ++ [e]) W := by
  obtain ⟨fd, T, ha, hk⟩ := h
  obtain ⟨P, hP, rfl⟩ := Option.map_eq_some_iff.mp hs
  have hrel := H.step_rel e ⟨fd, ha⟩
  rw [hP] at hrel
  cases hT : T.step H e with
  | none => rw [hT] at hrel; cases hrel
  | some T' =>
      rw [hT] at hrel
      cases hrel with
      | some hrel =>
      obtain ⟨fd', ha'⟩ := hrel
      obtain ⟨i, now⟩ := e
      obtain ⟨out, hn, rfl⟩ := Option.map_eq_some_iff.mp hT
      obtain ⟨file', φ'⟩ := out
      rw [← ha.file] at hn
      have hcont : content H.path P.state = file' := ha'.file
      have hquiet : ∀ f, content H.path V.pool.state = some f →
          ∃ f', file' = some f' ∧ (V.Waiting i → f'.bytes = f.bytes) ∧
            ∀ d, φ' = .held d → f'.bytes = d ∧ ProcCmd.MovesBytes (V.pool.prog i).pending := by
        intro f hf
        simp only [Undisturbed, bytes, hf, Option.map_some, Option.getD_some] at hu
        exact (ha.left i).undisturbed (hf ▸ hn) hu
      refine ⟨fd', _, ha', ?_⟩
      intro j
      rw [hcont]
      by_cases hj : j = i
      · subst hj
        simp only [Function.update_self]
        apply Knows.next hr (hk j) hn
        intro d hd
        subst hd
        obtain ⟨f, hf⟩ := Job.next_held hn
        obtain ⟨f', hf', -, hb⟩ := hquiet f hf
        obtain ⟨hb', hm⟩ := hb d rfl
        exact ⟨f', hf', hb', hm⟩
      · simp only [Function.update_of_ne hj]
        apply (hk j).other
        intro f hf hm
        obtain ⟨f', hf', hkeep, -⟩ := hquiet f hf
        exact ⟨f', hf', hkeep ⟨j, hj, hm⟩⟩

/-- In every interleaving of undisturbed calls, a reply without an error describes the file at an
instant between the first and the last call of its handler. -/
theorem reply_at_an_instant {s : Proc} (hr : H.Ready s) {es : List (ι × Timespec)}
    {W : Traced ι} (h : Run step (Undisturbed H) (start H s) es W) {i : ι} {x : Exchange}
    (hx : W.pool.result i = some x) (he : x.error = 0) :
    H.Together s es i x.bytes x.time := by
  have hknown : Known H s es W := by
    apply h.invariant_past (Known H s) (known_start hr)
    intro es V e U hV hI hu hs
    exact hI.step (run_pool hV) hu hs
  obtain ⟨fd, T, ha, hk⟩ := hknown
  have hret := Pool.result_eq_some.mp hx
  exact (hk i).done x ((hret ▸ ha.left i).of_ret) he

end Traced

/-! A fetch and a store of the sample file. -/

instance (bytes : Bytes) (waiting : Prop) [Decidable waiting] (c : Option ProcCmd) :
    Decidable (ProcCmd.Undisturbed bytes waiting c) := by
  unfold ProcCmd.Undisturbed
  split <;> infer_instance

instance (c : Option ProcCmd) : Decidable (ProcCmd.MovesBytes c) := by
  unfold ProcCmd.MovesBytes
  split <;> infer_instance

instance (W : Traced Bool) (i : Bool) : Decidable (W.Waiting i) :=
  inferInstanceAs (Decidable (∃ j, j ≠ i ∧ ProcCmd.MovesBytes (W.last j)))

instance (H : Handlers Bool) (W : Traced Bool) (e : Bool × Timespec) :
    Decidable (W.Undisturbed H e) :=
  inferInstanceAs (Decidable (ProcCmd.Undisturbed (W.bytes H) (W.Waiting e.1) _))

/-- A fetch that reads what a store has just written. -/
theorem Traced.reply_at_an_instant_turns :
    ∃ es : List (Bool × Timespec), sampleHandlers.Together sampleBoot.server es false [2]
      (Int64.ofNat 2) := by
  have hsome : (((sampleTurns [false, true, true, false, true, false, false, false, false]).foldlM
      (fun W e => if Traced.Undisturbed sampleHandlers W e then Traced.step W e else none)
      (Traced.start sampleHandlers sampleBoot.server)).bind fun W => W.pool.result false) =
      some ⟨0, [2], Int64.ofNat 2⟩ := by
    decide
  obtain ⟨W, hW, hx⟩ := Option.bind_eq_some_iff.mp hsome
  exact ⟨_, Traced.reply_at_an_instant ready_sampleHandlers (Run.of_foldlM hW) hx rfl⟩

instance (H : Handlers Bool) (P : Pool procSig Bool Proc Exchange) (e : Bool × Timespec) :
    Decidable (H.Later P e) := by
  unfold Handlers.Later
  infer_instance

/-- A fetch reads, a whole store runs, and then the fetch takes its time: at no instant of the run
did the file have the bytes and the time of the reply. -/
theorem Handlers.fetch_mixes_old_bytes_with_new_time :
    ∃ (es : List (Bool × Timespec)) (P : Pool procSig Bool Proc Exchange) (x : Exchange),
      Run step sampleHandlers.Later (sampleHandlers.start sampleBoot.server) es P ∧
      P.result false = some x ∧ x.error = 0 ∧
      ∀ es₁ es₂ Q f, es = es₁ ++ es₂ →
        Run step (fun _ _ => True) (sampleHandlers.start sampleBoot.server) es₁ Q →
        content sampleHandlers.path Q.state = some f →
        ¬ (f.bytes = x.bytes ∧ x.time = Int64.ofNat f.mtim.tv_nsec) := by
  have hsome : (((sampleTurns [false, false, false, false, true, true, true, true, false, false]
      ).foldlM (fun P e => if sampleHandlers.Later P e then step P e else none)
      (sampleHandlers.start sampleBoot.server)).bind fun P => P.result false) =
      some ⟨0, [1], Int64.ofNat 5⟩ := by
    decide
  obtain ⟨P, hP, hx⟩ := Option.bind_eq_some_iff.mp hsome
  refine ⟨_, P, _, Run.of_foldlM hP, hx, rfl, ?_⟩
  intro es₁ es₂ Q f hes hQ hf hbad
  have hall : ∀ k < 11, (((sampleTurns [false, false, false, false, true, true, true, true, false,
      false]).take k).foldlM step (sampleHandlers.start sampleBoot.server)).all (fun Q =>
        (content sampleHandlers.path Q.state).all fun f =>
          ¬ (f.bytes = [1] ∧ Int64.ofNat 5 = Int64.ofNat f.mtim.tv_nsec)) = true := by
    decide
  have hlen := congrArg List.length hes
  have hk := hall es₁.length (by simp [sampleTurns] at hlen; omega)
  rw [hes, List.take_left, hQ.foldlM_eq, Option.all_some, hf, Option.all_some] at hk
  exact of_decide_eq_true hk hbad

end Afs
