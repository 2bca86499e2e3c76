import Afs.Core.Runs
import Afs.Ops.View

/-!
# Fresh systems

The system right after its processes were started for the first time: the server's directory holds
the given files, and every client has an empty cache directory and an empty table. Such a system is
sound for all paths that can be used side by side.
-/

namespace Posix

/-- The attributes of a directory that the owner made. -/
def dirAttr : Attr := ⟨0o40770, 0, 0, 0, 0, .zero⟩

/-- A regular file with the given contents and time. -/
def plainFile (b : Bytes) (t : Timespec) : File := ⟨⟨0o100770, 0, 0, 0, 0, t⟩, b⟩

namespace Fs

/-- The file system that has one directory and the listed files. -/
def holding (dir : Path) (files : List (Path × File)) : Fs where
  tree p :=
    if p = dir then some .dir
    else (files.findIdx? fun e => e.1 = p).map .file
  dirs _ := dirAttr
  node i := (files[i]?.map (·.2)).getD (plainFile [] .zero)
  next := files.length
  listing := files.map (·.1)
  fds := []
  clock := .zero
  tree_lt p i h := by
    split at h
    · cases h
    · obtain ⟨j, hj, he⟩ := Option.map_eq_some_iff.mp h
      obtain ⟨hlt, -⟩ := List.findIdx?_eq_some_iff_getElem.mp hj
      cases he
      exact hlt
  tree_inj p q i hp hq := by
    split at hp
    · cases hp
    split at hq
    · cases hq
    obtain ⟨j, hj, hje⟩ := Option.map_eq_some_iff.mp hp
    obtain ⟨k, hk, hke⟩ := Option.map_eq_some_iff.mp hq
    cases hje
    cases hke
    obtain ⟨hj', hp', -⟩ := List.findIdx?_eq_some_iff_getElem.mp hj
    obtain ⟨hk', hq', -⟩ := List.findIdx?_eq_some_iff_getElem.mp hk
    exact (of_decide_eq_true hp').symm.trans (of_decide_eq_true hq')

/-- A name stands for the first file listed under it. -/
theorem look_holding {dir p : Path} (h : p ≠ dir) (files : List (Path × File)) :
    (holding dir files).look p = (files.find? fun e => e.1 = p).map (·.2) := by
  cases hi : files.findIdx? fun e => e.1 = p with
  | none =>
      have hn : files.find? (fun e => e.1 = p) = none := by
        rw [List.find?_eq_none]
        intro e he
        rw [List.findIdx?_eq_none_iff.mp hi e he]
        exact Bool.false_ne_true
      simp only [look, holding, h, if_false, hi, Option.map_none, hn]
  | some i =>
      obtain ⟨hlt, hp, hmin⟩ := List.findIdx?_eq_some_iff_getElem.mp hi
      have hs : files.find? (fun e => e.1 = p) = some files[i] := by
        rw [List.find?_eq_some_iff_getElem]
        exact ⟨hp, i, hlt, rfl, fun j hj => by simpa using hmin j hj⟩
      simp only [look, holding, h, if_false, hi, Option.map_some, hs,
        List.getElem?_eq_getElem hlt, Option.getD_some]

theorem isDir_holding_self (dir : Path) (files : List (Path × File)) :
    (holding dir files).isDir dir = true := by
  simp only [isDir, holding, if_true]

theorem isDir_holding {dir p : Path} (h : p ≠ dir) (files : List (Path × File)) :
    (holding dir files).isDir p = false := by
  simp only [isDir, holding, h, if_false]
  cases files.findIdx? fun e => e.1 = p <;> rfl

end Fs

end Posix

namespace Afs

open Posix Transition

theorem base_append_ne (dir : Path) {p : Path} (h : p ≠ []) : base dir ++ p ≠ base dir :=
  fun he => h (List.append_right_eq_self.mp he)

/-- A client's process after its very first start. -/
def ClientProc.boot (cache_path : Path) : ClientProc where
  proc := ⟨Fs.holding (base cache_path) [], 0, []⟩
  ht := initHt
  retries := 1
  interval := 1000

namespace World

variable {ι : Type} (P : Params ι)

/-- The system after its first start, with these files at the server. -/
def boot (files : List (Path × Bytes × Timespec)) : World ι where
  server := ⟨Fs.holding (base P.root_path)
    (files.map fun e => (getServerPath e.1 P.root_path, plainFile e.2.1 e.2.2)), 0, []⟩
  inflight := []
  clients i := ClientProc.boot (P.cache_path i)
  up _ := true
  sessions _ _ := []

variable {P} {U : Set Path} {files : List (Path × Bytes × Timespec)}

@[simp] theorem recorded_boot (i : ι) (p : Path) : (boot P files).recorded i p = -1 := rfl

theorem cached_boot (i : ι) {p : Path} (hp : RootLevel p) :
    (boot P files).cached P i p = none := by
  have hne : getLocalPath p (P.cache_path i) ≠ base (P.cache_path i) := by
    rw [getLocalPath_eq hp]
    exact base_append_ne _ hp.ne_nil
  simp only [cached, disk, boot, ClientProc.boot, Fs.look_holding hne, List.find?_nil,
    Option.map_none]

/-- The server holds the files listed first under each path. -/
theorem served_boot {p : Path} (hp : RootLevel p) (hfiles : ∀ e ∈ files, RootLevel e.1) :
    (boot P files).served P p =
      (files.find? fun e => e.1 = p).map fun e => plainFile e.2.1 e.2.2 := by
  have hne : getServerPath p P.root_path ≠ base P.root_path := by
    rw [getServerPath_eq hp]
    exact base_append_ne _ hp.ne_nil
  simp only [served, boot, Fs.look_holding hne]
  clear hne
  induction files with
  | nil => rfl
  | cons e files ih =>
      have he : getServerPath e.1 P.root_path = getServerPath p P.root_path ↔ e.1 = p := by
        rw [getServerPath_eq hp, getServerPath_eq (hfiles e List.mem_cons_self),
          List.append_cancel_left_eq]
      simp only [List.map_cons, List.find?_cons, he]
      cases decide (e.1 = p) with
      | true => rfl
      | false => exact ih fun e' h => hfiles e' (List.mem_cons_of_mem _ h)

/-- A fresh system is sound. -/
theorem sound_boot (hU : Names U) (hfiles : ∀ e ∈ files, RootLevel e.1)
    (hlen : ∀ e ∈ files, e.2.1.length < 2 ^ 31) : (boot P files).Sound P U where
  up _ := rfl
  faults := rfl
  cache i := ⟨Fs.isDir_holding_self _ _,
    fun name => Fs.isDir_holding (base_append_ne _ (List.cons_ne_nil _ _)) _⟩
  root := Fs.isDir_holding_self _ _
  plain p hp := by
    apply Fs.isDir_holding
    rw [getServerPath_eq (hU.level p hp)]
    exact base_append_ne _ (hU.level p hp).ne_nil
  short i p hp := by
    refine ⟨fun b t hb => ?_, fun b hb => ?_⟩
    · simp only [View.copies, view, served_boot (hU.level p hp) hfiles, Option.map_map] at hb
      obtain ⟨e, he, hbt⟩ := Option.map_eq_some_iff.mp hb
      obtain ⟨rfl, -⟩ := Prod.mk.inj hbt
      exact hlen e (List.mem_of_find?_eq_some he)
    · simp only [View.copies, view, cached_boot i (hU.level p hp)] at hb
      cases hb

/-- The states that any events lead to from a fresh system. -/
def Reachable [DecidableEq ι] (P : Params ι) (w : World ι) : Prop :=
  ∃ files es, Run (World.step P) (fun _ _ => True) (boot P files) es w

end World

end Afs
