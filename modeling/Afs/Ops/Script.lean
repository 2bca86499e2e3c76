import Afs.Ops.Sharing

/-!
# Scripts

A list of operations on one path can be played on a view, checking at every operation that it
meets what it expects. What can be played on the view of a sound system is a run of that system,
which ends in the view that was played.
-/

namespace Afs

open Posix Interaction Transition

instance (c : Copies) : (op : Op) → Decidable (c.Fits op)
  | .create => inferInstanceAs (Decidable (c.served = none ∧ c.cached = none))
  | .openF | .getattr => inferInstanceAs (Decidable (c.served ≠ none))
  | .read .. | .release _ => inferInstanceAs (Decidable (c.cached ≠ none))
  | .write _ buffer offset =>
    inferInstanceAs (Decidable (c.cached ≠ none ∧ offset + buffer.length < 2 ^ 31))
  | .fsync _ | .unlink => .isTrue trivial
  | .truncate _ | .chown .. | .chmod _ | .utimens .. | .mkdir _ | .rmdir | .readdir =>
    .isFalse not_false

instance : (op : Op) → Decidable op.Shares
  | .openF | .read .. | .release _ | .fsync _ | .getattr => .isTrue trivial
  | .write _ buffer offset => inferInstanceAs (Decidable (offset + buffer.length < 2 ^ 31))
  | .create | .unlink | .truncate _ | .chown .. | .chmod _ | .utimens .. | .mkdir _ | .rmdir
  | .readdir => .isFalse not_false

instance (n : Nat) (op : Op) : Decidable (op.InSession n) :=
  match h : op.session with
  | none => .isTrue fun k hk => by rw [h] at hk; cases hk
  | some k =>
    decidable_of_iff (k < n)
      ⟨fun hlt j hj => by rw [h] at hj; exact Option.some.inj hj ▸ hlt, fun hall => hall k h⟩

namespace View

variable {ι : Type} [DecidableEq ι]

/-- Play operations on a view as long as each meets what it expects and passes the given test. -/
def script (test : View ι → Call ι → Bool) (v : View ι) : List (Call ι) → Option (View ι)
  | [] => some v
  | c :: cs =>
    if (v.copies c.client).Fits c.op ∧ c.op.InSession (v.sessions c.client).length ∧
        test v c = true then
      (v.next c.client c.now c.op).script test cs
    else none

end View

namespace World

variable {ι : Type} {P : Params ι} {U : Set Path} {p : Path}

/-- The view of a path in a fresh system. -/
theorem view_boot {files : List (Path × Bytes × Timespec)} (hp : RootLevel p)
    (hfiles : ∀ e ∈ files, RootLevel e.1) :
    (boot P files).view P p =
      ⟨(files.find? fun e => e.1 = p).map (·.2), fun _ => none, fun _ => -1, fun _ => []⟩ := by
  simp only [view, served_boot hp hfiles, cached_boot _ hp, Option.map_map]
  rfl

/-- A fresh system that holds the files of `U` can be shared. -/
theorem start_boot {files : List (Path × Bytes × Timespec)} (hU : Names U)
    (hfiles : ∀ e ∈ files, RootLevel e.1 ∧ e.2.1.length < 2 ^ 31)
    (hall : ∀ p ∈ U, files.find? (fun e => e.1 = p) ≠ none) : (boot P files).Start P U where
  sound := sound_boot hU (fun e he => (hfiles e he).1) fun e he => (hfiles e he).2
  served p hp := by
    rw [served_boot (hU.level p hp) fun e he => (hfiles e he).1]
    exact fun hn => hall p hp (Option.map_eq_none_iff.mp hn)
  cached i p hp := cached_boot i (hU.level p hp)
  sessions _ _ _ := rfl

variable [DecidableEq ι]

/-- What can be played on a view is a run of the system. -/
theorem exists_run (hU : Names U) (hp : p ∈ U) {test : View ι → Call ι → Bool}
    {ok : World ι → Call ι → Prop}
    (hok : ∀ w c, test (w.view P p) c = true → c.path = p → c.Quiet → ok w c)
    {cs : List (Call ι)} (hcs : ∀ c ∈ cs, c.path = p ∧ c.Quiet) {w : World ι} {v : View ι}
    (hw : w.Sound P U) (h : (w.view P p).script test cs = some v) :
    ∃ w', Run (World.call P) ok w cs w' ∧ w'.Sound P U ∧ w'.view P p = v := by
  induction cs generalizing w with
  | nil => exact ⟨w, Run.nil, hw, Option.some.inj h⟩
  | cons c cs ih =>
      obtain ⟨hpath, hq⟩ := hcs c List.mem_cons_self
      subst hpath
      simp only [View.script] at h
      split at h
      · next hc =>
        obtain ⟨hf, hs, ht⟩ := hc
        obtain ⟨r, u, hperf, hu, hview, -⟩ := perform_view hU hw hp hq ⟨hf, hs⟩
        rw [← hview] at h
        obtain ⟨w', hrun, hw', hv⟩ := ih (fun c' hc' => hcs c' (List.mem_cons_of_mem _ hc')) hu h
        exact ⟨w', Run.cons (hok w c ht rfl hq) (call_eq_some.mpr ⟨_, hperf⟩) hrun, hw', hv⟩
      · cases h

/-- A single path can always be used. -/
theorem names_singleton (hp : RootLevel p) (hdb : p ≠ databasePath) : Names {p} where
  level _ h := h ▸ hp
  ne_database _ h := h ▸ hdb
  hash p' h q' k hne := absurd (h.trans k.symm) hne
  ne_tmp p' h q' k := by
    rw [Set.mem_singleton_iff.mp h, Set.mem_singleton_iff.mp k]
    exact ne_append_tmp p

end World

/-! A small system for examples: two clients and one file. -/

/-- Unset memory that happens to be zero, and directories read in the order of their entries. -/
def Junk.zero : Junk where
  info := dirAttr.stat 0 0
  stats := dirAttr.stat 0 0
  heap n := List.replicate n 0
  length_heap _ := List.length_replicate
  beyond := []
  order names := names
  order_perm := List.Perm.refl

/-- Where its server and its clients keep their files. -/
def sample : Params (Bool) := ⟨cstr "/srv", fun _ => cstr "/cache"⟩

/-- Its file. -/
def sampleFile : Path := cstr "/f"

/-- A time given by seconds and nanoseconds. -/
def sampleTime (sec nsec : Nat) : Timespec :=
  ⟨sec, nsec % 1000000000, Nat.mod_lt _ (Nat.succ_pos _)⟩

/-- Operations on the file during which nothing fails. -/
def sampleCalls (l : List (Bool × Timespec × Op)) : List (Call (Bool)) :=
  l.map fun e => { client := e.1, path := sampleFile, op := e.2.2, now := e.2.1, junk := .zero }

/-- A call of the sample system whose attempts meet the given fate. -/
def World.sampleCall (client : Bool) (sec : Nat) (op : Op) (net : List Delivery) : Call (Bool) :=
  { client, path := sampleFile, op, now := sampleTime sec 0, junk := .zero, net }

/-- The system after its first start, with one byte in the file. -/
def sampleBoot : World (Bool) := World.boot sample [(sampleFile, [1], sampleTime 0 500)]

theorem rootLevel_sampleFile : RootLevel sampleFile :=
  ⟨cstr "f", by decide, by decide, by decide, by decide, by decide⟩

theorem names_sampleFile : Names {sampleFile} :=
  World.names_singleton rootLevel_sampleFile (by decide)

private theorem rootLevel_of_mem :
    ∀ e ∈ [(sampleFile, ([1] : Bytes), sampleTime 0 500)], RootLevel e.1 ∧ e.2.1.length < 2 ^ 31 := by
  intro e he
  rw [List.mem_singleton] at he
  rw [he]
  exact ⟨rootLevel_sampleFile, by decide⟩

theorem start_sampleBoot : sampleBoot.Start sample {sampleFile} := by
  refine World.start_boot names_sampleFile rootLevel_of_mem fun p hp => ?_
  rw [Set.mem_singleton_iff.mp hp]
  decide

/-- A script of the sample system that can be played is a run. -/
theorem exists_sample_run (test : View (Bool) → Call (Bool) → Bool)
    (ok : World (Bool) → Call (Bool) → Prop)
    (hok : ∀ w c, test (w.view sample sampleFile) c = true → c.path = sampleFile → c.Quiet → ok w c)
    {l : List (Bool × Timespec × Op)} {v : View (Bool)}
    (h : View.script test ⟨some ([1], sampleTime 0 500), fun _ => none, fun _ => -1, fun _ => []⟩
      (sampleCalls l) = some v) :
    ∃ w, Transition.Run (World.call sample) ok sampleBoot (sampleCalls l) w ∧
      w.Sound sample {sampleFile} ∧ w.view sample sampleFile = v := by
  have hcs : ∀ c ∈ sampleCalls l, c.path = sampleFile ∧ c.Quiet := by
    intro c hc
    obtain ⟨e, -, rfl⟩ := List.mem_map.mp hc
    exact ⟨rfl, rfl, rfl⟩
  refine World.exists_run names_sampleFile rfl hok hcs start_sampleBoot.sound ?_
  rw [sampleBoot, World.view_boot rootLevel_sampleFile fun e he => (rootLevel_of_mem e he).1]
  exact h

/-- The same for clients that share the file. -/
theorem exists_sharing_run {l : List (Bool × Timespec × Op)} {v : View (Bool)}
    (h : View.script (fun _ c => c.op.Shares) ⟨some ([1], sampleTime 0 500), fun _ => none,
      fun _ => -1, fun _ => []⟩ (sampleCalls l) = some v) :
    ∃ w, Transition.Run (World.call sample) (fun _ c => c.Shares {sampleFile}) sampleBoot
        (sampleCalls l) w ∧ w.Sound sample {sampleFile} ∧ w.view sample sampleFile = v :=
  exists_sample_run _ _ (fun _ _ ht hp hq => ⟨hp, hq, of_decide_eq_true ht⟩) h

end Afs
