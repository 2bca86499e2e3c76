import Afs.Ops.Boot
import Afs.Ops.Events
import Afs.Ops.Parts
import Afs.Ops.Script
import Afs.Table.Lookup

/-!
# One entry for every hash

The table is keyed by the hash of a name alone. Two names keep separate entries in every reachable
table exactly when their hashes differ: recording one then leaves the other, and so does every
complete operation on the one.
-/

namespace Afs

open Posix Interaction Transition

/-- The command changes no entry of the table but the one of `path`. -/
def Cmd.Records (path : Path) : Cmd → Prop
  | .put key _ => key = hashKey path
  | .setTable _ => False
  | .sys _ | .errno | .rpc _ | .retried _ | .get _ | .table => True

theorem Client.record_records {path cache_path : Path} {value : Int64} :
    (Client.record path cache_path value).Uses (Cmd.Records path) := by
  refine Prog.Uses.call rfl fun _ => Prog.Uses.call trivial fun fptr => ?_
  split
  · exact trivial
  · exact Prog.Uses.call trivial fun _ => Prog.Uses.call trivial fun _ =>
      Prog.Uses.call trivial fun _ => trivial

/-- An operation changes no entry but the one of its own path. -/
theorem Op.prog_records (junk : Junk) (path cache_path : Path) (fh : Int) (op : Op) :
    (op.prog junk path cache_path fh).Uses (Cmd.Records path) := by
  refine (op.prog_made junk path cache_path fh).uses (fun c hc => ?_) ?_
  · cases c with
    | put key value | table | setTable ht => exact hc.elim
    | _ => trivial
  · rintro b ⟨value, rfl⟩
    exact Client.record_records

/-- A command that changes the entry of one name leaves the entries of names with other hashes. -/
private theorem exec_get {env : Env} {p q : Path} (hne : hashfilename p ≠ hashfilename q) {c : Cmd}
    {s : St} (hc : c.Records p) :
    (env.exec c s).2.client.ht.get q = s.client.ht.get q := by
  cases c with
  | put key value =>
      obtain rfl := hc
      exact HashTable.get_put_of_ne _ (hashKey_ne hne.symm) value
  | setTable ht => exact hc.elim
  | rpc r =>
      have h := (Env.attempt_client env r s).1.table
      exact congrArg (fun ht => HashTable.get ht q) h
  | retried r =>
      have h := (Env.retryLoop_client env r ((6 - s.client.retries).toNat + 1) s).table
      exact congrArg (fun ht => HashTable.get ht q) h
  | sys c | errno | get filename | table => rfl

namespace World

variable {ι : Type} [DecidableEq ι] {P : Params ι} {w : World ι} {p q : Path}

/-- A complete operation leaves the entries of names with other hashes, whatever fails in it. -/
theorem perform_recorded {c : Call ι} {x : Option Result × World ι}
    (hne : hashfilename c.path ≠ hashfilename q) (h : w.perform P c = some x) :
    x.2.recorded c.client q = w.recorded c.client q := by
  obtain ⟨-, fh, -, rfl⟩ := perform_eq_some.mp h
  simp only [recorded, clients_finish_self]
  exact (Op.prog_records c.junk c.path (P.cache_path c.client) fh c.op).invariant
    (I := fun s : St => s.client.ht.get q = (w.clients c.client).ht.get q)
    (fun d s hd hs => (exec_get hne hd).trans hs) rfl

variable (P) (p q)

/-- The entries of two names are independent in every run exactly when their hashes differ. -/
theorem entries_apart_iff (i : ι) :
    ((∀ w, Reachable P w → ∀ value,
        ((w.clients i).ht.put (hashKey p) value).get q = w.recorded i q) ∧
      ∀ w c x, Reachable P w → c.client = i → c.path = p → w.perform P c = some x →
        (x.2.recorded i q = modifiedFlag ↔ w.recorded i q = modifiedFlag)) ↔
      hashfilename p ≠ hashfilename q := by
  constructor
  · rintro ⟨hput, -⟩ heq
    have h := hput (boot P []) ⟨[], [], Run.nil⟩ 0
    have hkey : hashKey p = hashKey q := congrArg UInt64.toInt64 heq
    rw [hkey, HashTable.get_put_self, recorded_boot] at h
    exact absurd h (by decide)
  · intro hne
    refine ⟨fun w _ value => HashTable.get_put_of_ne _ (hashKey_ne hne.symm) value, ?_⟩
    intro w c x _ hi hp h
    subst hi
    subst hp
    rw [perform_recorded hne h]

end World

namespace World

/-- Two names with one hash: `97 * 33 + 98 = 98 * 33 + 65`. -/
def twinFiles : Path × Path := (cstr "/ab", cstr "/bA")

/-- Both files are opened and the second is written. -/
def twinRun : List (Event (Bool)) :=
  [.call { sampleCall false 1 .openF [] with path := twinFiles.1 },
    .call { sampleCall false 2 .openF [] with path := twinFiles.2 },
    .call { sampleCall false 3 (.write 0 [7] 0) [] with path := twinFiles.2 }]

/-- Releasing the first file takes the modified flag of the second, and then the release of the
second sends nothing: its bytes stay in the cache. -/
theorem release_clears_other_flag :
    twinFiles.1 ≠ twinFiles.2 ∧ ∃ w₁ w₂ w₃,
      Run (World.step sample) (fun _ _ => True)
        (boot sample [(twinFiles.1, [1], sampleTime 0 500), (twinFiles.2, [2], sampleTime 0 500)])
        twinRun w₁ ∧
      w₁.recorded false twinFiles.2 = modifiedFlag ∧
      w₁.step sample (.call { sampleCall false 4 (.release 0) [] with path := twinFiles.1 }) =
        some w₂ ∧
      w₂.recorded false twinFiles.2 = 0 ∧
      w₂.step sample (.call { sampleCall false 5 (.release 0) [] with path := twinFiles.2 }) =
        some w₃ ∧
      w₃.cached sample false twinFiles.2 = some [7] ∧
      (w₃.served sample twinFiles.2).map (·.bytes) = some [2] := by
  have h : ((twinRun.foldlM (World.step sample)
      (boot sample [(twinFiles.1, [1], sampleTime 0 500), (twinFiles.2, [2], sampleTime 0 500)])).bind
        fun w₁ => (w₁.step sample
            (.call { sampleCall false 4 (.release 0) [] with path := twinFiles.1 })).bind fun w₂ =>
          (w₂.step sample
            (.call { sampleCall false 5 (.release 0) [] with path := twinFiles.2 })).map fun w₃ =>
              (w₁.recorded false twinFiles.2, w₂.recorded false twinFiles.2,
                w₃.cached sample false twinFiles.2,
                (w₃.served sample twinFiles.2).map (·.bytes))) =
      some (modifiedFlag, 0, some [7], some [2]) := by
    decide +kernel
  obtain ⟨w₁, hfold, h⟩ := Option.bind_eq_some_iff.mp h
  obtain ⟨w₂, hfirst, h⟩ := Option.bind_eq_some_iff.mp h
  obtain ⟨w₃, hsecond, h⟩ := Option.map_eq_some_iff.mp h
  obtain ⟨hflag, hcleared, hcached, hserved⟩ := by simpa only [Prod.mk.injEq] using h
  exact ⟨by decide, w₁, w₂, w₃, Run.of_foldlM (by simpa only [if_true] using hfold), hflag, hfirst,
    hcleared, hsecond, hcached, hserved⟩

end World

end Afs
