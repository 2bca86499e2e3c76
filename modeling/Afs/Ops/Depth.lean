import Afs.Core.Contents
import Afs.Ops.Boot
import Afs.Ops.Events
import Afs.Ops.Layout
import Afs.Ops.Parts

/-!
# Paths at any depth

A path is a list of names. No operation makes a directory in the cache, so a cache directory that
was empty at first holds files directly under it and nothing else, whatever fails: there is no copy
of a file in a subdirectory.
-/

namespace Afs

open Posix Interaction Transition

/-- The path with these components. -/
def pathOf (names : List Path) : Path := names.flatMap (slash :: ·)

/-- The name of a directory entry. -/
def EntryName (name : Path) : Prop := name ≠ [] ∧ slash ∉ name ∧ name.length ≤ NAME_MAX ∧ 0 ∉ name

/-- The path of a file or directory under the mount point. -/
def UserPath (p : Path) : Prop := ∃ names, names ≠ [] ∧ (∀ n ∈ names, EntryName n) ∧ p = pathOf names

theorem RootLevel.userPath {p : Path} (h : RootLevel p) : UserPath p := by
  obtain ⟨name, rfl, hne, hs, hl⟩ := h
  refine ⟨[name], List.cons_ne_nil _ _, ?_, (List.append_nil _).symm⟩
  intro n hn
  obtain rfl := List.mem_singleton.mp hn
  exact ⟨hne, hs, hl⟩

theorem UserPath.absolute {p : Path} (h : UserPath p) : ∃ rest, p = slash :: rest := by
  obtain ⟨names, hne, -, rfl⟩ := h
  obtain ⟨name, names, rfl⟩ := List.exists_cons_of_ne_nil hne
  exact ⟨name ++ pathOf names, rfl⟩

/-- A path is root-level, or goes on below its first component. -/
theorem UserPath.cases {p : Path} (h : UserPath p) :
    RootLevel p ∨ ∃ name rest, EntryName name ∧ p = slash :: (name ++ slash :: rest) := by
  obtain ⟨names, hne, hall, rfl⟩ := h
  cases names with
  | nil => exact absurd rfl hne
  | cons name names =>
      have hname := hall name List.mem_cons_self
      cases names with
      | nil => exact Or.inl ⟨name, List.append_nil _, hname⟩
      | cons name' names => exact Or.inr ⟨name, _, hname, rfl⟩

/-- Nothing under the cache directory is a directory, with separators behind its name or without. -/
theorem FlatDir.isDir_user {dir p : Path} {s : Fs} (h : FlatDir dir s) (hp : UserPath p) :
    s.isDir (getLocalPath p dir) = false ∧ s.isDir (trimmed (getLocalPath p dir)) = false := by
  obtain ⟨names, hne, hall, rfl⟩ := hp
  obtain ⟨name, names, rfl⟩ := List.exists_cons_of_ne_nil hne
  obtain ⟨hname, hslash, -⟩ := hall name List.mem_cons_self
  obtain ⟨b, name, rfl⟩ := List.exists_cons_of_ne_nil hname
  have hlocal : getLocalPath (pathOf ((b :: name) :: names)) dir =
      base dir ++ slash :: b :: (name ++ pathOf names).take (MAX_PATH_LENGTH - 2) := rfl
  rw [hlocal]
  refine ⟨h.flat _, ?_⟩
  have hb : b ≠ slash := fun he => hslash (he ▸ List.mem_cons_self)
  rw [List.append_cons, trimmed_append _ ⟨b, List.mem_cons_self, hb⟩, ← List.append_cons]
  exact h.flat _

/-- A cache directory that holds files directly under it only. -/
structure CacheDir (dir : Path) (s : Fs) : Prop extends FlatDir dir s where
  /-- There is no file further down. -/
  shallow : ∀ name, slash ∈ name → s.look (base dir ++ slash :: name) = none

theorem CacheDir.congr {dir : Path} {s t : Fs} (h : CacheDir dir s) (hd : t.isDir = s.isDir)
    (hl : t.look = s.look) : CacheDir dir t :=
  ⟨h.toFlatDir.congr hd, fun name hn => by rw [hl]; exact h.shallow name hn⟩

/-- The directory of a name further down is missing. -/
theorem CacheDir.parent_missing {dir name : Path} {s : Fs} (h : CacheDir dir s)
    (hn : slash ∈ name) : s.isDir (parent (base dir ++ slash :: name)) = false := by
  obtain ⟨front, back, rfl, hback⟩ : ∃ front back, name = front ++ slash :: back ∧ slash ∉ back := by
    obtain ⟨back, front, hr, hnot⟩ := List.eq_append_cons_of_mem (List.mem_reverse.mpr hn)
    refine ⟨front.reverse, back.reverse, ?_, fun hm => hnot (List.mem_reverse.mp hm)⟩
    rw [← List.reverse_reverse name, hr]
    simp
  have he : base dir ++ slash :: (front ++ slash :: back) =
      (base dir ++ slash :: front) ++ slash :: back := by simp
  rw [he, parent_append _ hback]
  exact h.flat front

/-- The command uses only names directly under the cache directory's separator, in the ways of
operations. -/
def Cmd.InCache (dir : Path) : Cmd → Prop
  | .sys c => ∃ rest, c.Own (base dir ++ slash :: rest) (base dir ++ slash :: (rest ++ cstr "_tmp"))
  | .errno | .rpc _ | .retried _ | .get _ | .put .. | .table | .setTable _ => True

theorem getLocalPath_cons (rest dir : Path) :
    getLocalPath (slash :: rest) dir = base dir ++ slash :: rest.take (MAX_PATH_LENGTH - 1) := rfl

theorem getLocalTmpPath_cons (rest dir : Path) :
    getLocalTmpPath (slash :: rest) dir =
      base dir ++ slash :: (rest.take (MAX_PATH_LENGTH - 1) ++ cstr "_tmp") := List.append_assoc ..

theorem getLocalPath_ne_getLocalTmpPath (p dir : Path) : getLocalPath p dir ≠ getLocalTmpPath p dir := by
  unfold getLocalPath getLocalTmpPath
  exact ne_append_tmp _

/-- Beside a copy there is room for its temporary file. -/
theorem CacheDir.room {dir rest : Path} {s : Fs} (h : CacheDir dir s)
    (hl : s.look (getLocalPath (slash :: rest) dir) ≠ none) :
    s.isDir (getLocalTmpPath (slash :: rest) dir) = false ∧
      s.isDir (parent (getLocalTmpPath (slash :: rest) dir)) = true := by
  have hname : slash ∉ rest.take (MAX_PATH_LENGTH - 1) := fun hmem => hl (h.shallow _ hmem)
  rw [getLocalTmpPath_cons]
  refine ⟨h.flat _, ?_⟩
  rw [parent_append]
  · exact h.root
  · rw [List.mem_append, not_or]
    exact ⟨hname, by decide⟩

section Programs

variable {env : Env} {dir rest : Path} {s : St}

/-- A name that no file has is not renamed. -/
private theorem rename_none {s : Fs} {p q : Path} {r : Int} {t : Fs} (hl : s.look p = none)
    (hd : s.isDir p = false) : s.rename p q ≠ .ok (r, t) := by
  intro h
  simp only [Fs.rename, Fs.tree_eq_none hl hd] at h
  cases h

private theorem sys_cacheDir {c : Sys} (hc : (Cmd.sys c).InCache dir) {v : Proc}
    (h : CacheDir dir v.fs) : CacheDir dir (c.exec v).2.fs := by
  obtain ⟨rest, hown⟩ := hc
  refine ⟨h.toFlatDir.congr (Sys.exec_isDir ?_), fun name hname => ?_⟩
  · cases c with
    | rmdir p | remove p =>
        obtain rfl := hown
        exact h.flat rest
    | mkdir p mode => exact hown.elim
    | _ => trivial
  · rcases c.exec_cases v with ⟨-, hs⟩ | ⟨limit, hp⟩
    · rw [hs]
      exact h.shallow name hname
    · refine Sys.perform_missing ?_ (h.shallow name hname) (h.parent_missing hname) hp
      rintro p rfl
      obtain ⟨rfl, hq⟩ := hown
      obtain rfl : name = rest := List.cons.inj (List.append_cancel_left hq) |>.2
      exact rename_none (h.shallow _ (List.mem_append_left _ hname)) (h.flat _) hp

/-- A command of an operation keeps the shape of the cache directory. -/
theorem exec_cacheDir {c : Cmd} (hc : c.InCache dir) (h : CacheDir dir s.disk) :
    CacheDir dir (env.exec c s).2.disk := by
  cases c with
  | sys c => exact sys_cacheDir hc h
  | rpc r =>
      have hw := (Env.attempt_client env r s).1.fs
      change CacheDir dir (env.attempt r s).2.client.proc.fs
      rw [hw]
      exact h
  | retried r =>
      have hw := (Env.retryLoop_client env r ((6 - s.client.retries).toNat + 1) s).fs
      change CacheDir dir (env.retryLoop r _ s).2.client.proc.fs
      rw [hw]
      exact h
  | errno | get filename | put key value | table | setTable ht => exact h

theorem dump_inCache : (Client.dump dir).Uses (Cmd.InCache dir) := by
  refine Prog.Uses.call ⟨cstr "database.txt", Or.inl rfl⟩ fun fptr => ?_
  split
  · exact trivial
  · exact Prog.Uses.call trivial fun _ => Prog.Uses.call ⟨[], trivial⟩ fun _ =>
      Prog.Uses.call ⟨[], trivial⟩ fun _ => trivial

theorem main_inCache : (Client.main dir).Uses (Cmd.InCache dir) := by
  refine Prog.Uses.call ⟨cstr "database.txt", Or.inl rfl⟩ fun fd =>
    Prog.Uses.call ⟨[], trivial⟩ fun _ =>
      Prog.Uses.call ⟨cstr "database.txt", Or.inl rfl⟩ fun fptr => ?_
  split
  · exact Prog.Uses.one trivial
  · refine Prog.Uses.call ⟨[], trivial⟩ fun res => Prog.Uses.call ⟨[], trivial⟩ fun got => ?_
    split
    · exact trivial
    · exact Prog.Uses.call trivial fun _ => Prog.Uses.call ⟨[], trivial⟩ fun _ => trivial

/-- An operation uses no names outside of the cache directory. -/
theorem Op.prog_inCache (junk : Junk) (rest dir : Path) (fh : Int) (op : Op) :
    (op.prog junk (slash :: rest) dir fh).Uses (Cmd.InCache dir) := by
  refine (op.prog_made junk (slash :: rest) dir fh).uses (fun c hc => ?_) ?_
  · cases c with
    | sys c =>
        rw [getLocalPath_cons, getLocalTmpPath_cons] at hc
        exact ⟨_, hc⟩
    | _ => trivial
  · rintro b ⟨value, rfl⟩
    exact Prog.Uses.call trivial fun _ => dump_inCache

end Programs

/-- The kernel passes on paths that start with a separator. -/
def Event.Absolute {ι : Type} : Event ι → Prop
  | .call c => ∃ rest, c.path = slash :: rest
  | .start .. | .late .. => True

instance {ι : Type} : (e : Event ι) → Decidable e.Absolute
  | .call _ => decidable_of_iff _ List.head?_eq_some_iff
  | .start .. | .late .. => .isTrue trivial

namespace World

variable {ι : Type} [DecidableEq ι] {P : Params ι} {w w' : World ι} {i : ι}

/-- The states that the mounted file systems can lead to, whatever fails. -/
def Mounted (P : Params ι) (w : World ι) : Prop :=
  ∃ files es, Run (World.step P) (fun _ e => e.Absolute) (boot P files) es w

/-- An event keeps the shape of a cache directory. -/
theorem step_cacheDir {e : Event ι} (h : CacheDir (P.cache_path i) (w.disk i)) (he : e.Absolute)
    (hs : w.step P e = some w') : CacheDir (P.cache_path i) (w'.disk i) := by
  have hrun : ∀ {α : Type} {p : Prog clientSig α} {env : Env} {s : St},
      p.Uses (Cmd.InCache (P.cache_path i)) → CacheDir (P.cache_path i) s.disk →
      CacheDir (P.cache_path i) (p.run env.exec s).2.disk := fun hp h =>
    hp.invariant (I := fun s : St => CacheDir (P.cache_path i) s.disk)
      (fun c s hc h => exec_cacheDir hc h) h
  unfold disk at *
  rcases client_step hs i with hsame | ⟨c, fh, rfl, hi, -, hclient⟩ | ⟨now, junk, faults, rfl, hclient⟩
  · rw [hsame]
    exact h
  · obtain ⟨rest, hrest⟩ := he
    rw [hclient, hrest]
    exact hrun (Op.prog_inCache _ _ _ _ _) h
  · rw [hclient]
    exact hrun main_inCache (CacheDir.congr h rfl rfl)

omit [DecidableEq ι] in
theorem cacheDir_boot (files : List (Path × Bytes × Timespec)) (i : ι) :
    CacheDir (P.cache_path i) ((boot P files).disk i) where
  root := Fs.isDir_holding_self _ _
  flat name := Fs.isDir_holding (base_append_ne _ (List.cons_ne_nil _ _)) _
  shallow name _ := by
    simp only [disk, boot, ClientProc.boot,
      Fs.look_holding (base_append_ne _ (List.cons_ne_nil _ _)), List.find?_nil, Option.map_none]

/-- In every state that the mounted file systems lead to, the cache directories hold files directly
under them and nothing else. -/
theorem Mounted.cacheDir (h : w.Mounted P) (i : ι) : CacheDir (P.cache_path i) (w.disk i) := by
  obtain ⟨files, es, hr⟩ := h
  exact hr.invariant (fun w => CacheDir (P.cache_path i) (w.disk i)) (cacheDir_boot files i)
    fun w e w' hw he hs => step_cacheDir hw he hs

end World

end Afs
