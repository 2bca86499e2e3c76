import Afs.Core.Names
import Afs.Model.Common
import Mathlib.Data.List.TakeWhile

/-!
# Names of root-level files

A root-level path is a separator and one name of bounded length. Below a directory such paths, the
temporary files made from them and the database file are children of the directory, and the names
built from different paths are different.
-/

namespace Afs

open Posix

/-- The longest name of a directory entry. -/
def NAME_MAX : Nat := 255

/-- The path of a file directly under the mount point. A name has neither a separator nor the zero byte
that ends a string. -/
def RootLevel (p : Path) : Prop :=
  ∃ name : Path, p = slash :: name ∧ name ≠ [] ∧ slash ∉ name ∧ name.length ≤ NAME_MAX ∧ 0 ∉ name

/-- The directory part of what the path builders make. -/
def base (dir : Path) : Path := dir.take MAX_PATH_LENGTH

/-- The last component ends at the last separator. -/
theorem parent_append (dir : Path) {name : Path} (h : slash ∉ name) :
    parent (dir ++ slash :: name) = dir := by
  have hall : ∀ b ∈ name.reverse, (b != slash) = true := by
    intro b hb
    simp only [bne_iff_ne, ne_eq]
    rintro rfl
    exact h (List.mem_reverse.mp hb)
  unfold parent
  rw [List.reverse_append, List.reverse_cons, List.append_assoc,
    List.dropWhile_append_of_pos hall]
  simp

/-- Separators are cut off behind the last other byte. -/
theorem trimmed_append (dir : Path) {rest : Path} (h : ∃ b ∈ rest, b ≠ slash) :
    trimmed (dir ++ rest) = dir ++ trimmed rest := by
  obtain ⟨b, hb, hne⟩ := h
  have hrest : rest.reverse.dropWhile (· == slash) ≠ [] := by
    intro he
    have hall := List.dropWhile_eq_nil_iff.mp he b (List.mem_reverse.mpr hb)
    exact hne (beq_iff_eq.mp hall)
  unfold trimmed
  rw [List.reverse_append, List.dropWhile_append, if_neg (by simpa using hrest), List.reverse_append,
    List.reverse_reverse]

theorem rootLevel_length {p : Path} (h : RootLevel p) : p.length ≤ MAX_PATH_LENGTH := by
  obtain ⟨name, rfl, _, _, hl, _⟩ := h
  rw [List.length_cons]
  simp only [NAME_MAX, MAX_PATH_LENGTH] at *
  omega

theorem getLocalPath_eq {p : Path} (h : RootLevel p) (dir : Path) :
    getLocalPath p dir = base dir ++ p := by
  rw [getLocalPath, base, List.take_of_length_le (rootLevel_length h)]

/-- The path of a file is a string. -/
theorem str_of_rootLevel {p : Path} (h : RootLevel p) : CString.str p = p := by
  obtain ⟨name, rfl, _, _, _, hzero⟩ := h
  apply CString.str_of_ne_zero
  rintro b hb rfl
  exact (List.mem_cons.mp hb).elim (by decide) hzero

theorem getServerPath_eq {p : Path} (h : RootLevel p) (dir : Path) :
    getServerPath p dir = base dir ++ p := by
  rw [getServerPath, base, str_of_rootLevel h, List.take_of_length_le (rootLevel_length h)]

theorem getLocalTmpPath_eq {p : Path} (h : RootLevel p) (dir : Path) :
    getLocalTmpPath p dir = base dir ++ (p ++ cstr "_tmp") := by
  rw [getLocalTmpPath, base, List.take_of_length_le (rootLevel_length h), List.append_assoc]

theorem parent_base {p : Path} (h : RootLevel p) (dir : Path) : parent (base dir ++ p) = base dir := by
  obtain ⟨name, rfl, _, hs, _⟩ := h
  exact parent_append _ hs

theorem parent_base_tmp {p : Path} (h : RootLevel p) (dir : Path) :
    parent (base dir ++ (p ++ cstr "_tmp")) = base dir := by
  obtain ⟨name, rfl, _, hs, _⟩ := h
  rw [List.cons_append]
  apply parent_append
  rw [List.mem_append, not_or]
  exact ⟨hs, by decide⟩

/-- The database file lies directly in the cache directory. -/
theorem rootLevel_database : RootLevel databasePath :=
  ⟨cstr "database.txt", by decide, by decide, by decide, by decide, by decide⟩

theorem RootLevel.ne_nil {p : Path} (h : RootLevel p) : p ≠ [] := by
  obtain ⟨name, rfl, _⟩ := h
  exact List.cons_ne_nil _ _

/-- Different root-level paths have different cached copies. -/
theorem getLocalPath_ne {p q : Path} (hp : RootLevel p) (hq : RootLevel q) (hne : p ≠ q)
    (dir : Path) : getLocalPath p dir ≠ getLocalPath q dir := by
  rw [getLocalPath_eq hp, getLocalPath_eq hq]
  exact fun he => hne (List.append_cancel_left he)

/-- A cached copy is a temporary file only if its name is built like one. -/
theorem getLocalPath_ne_tmp {p q : Path} (hp : RootLevel p) (hq : RootLevel q)
    (hne : q ≠ p ++ cstr "_tmp") (dir : Path) : getLocalPath q dir ≠ getLocalTmpPath p dir := by
  rw [getLocalPath_eq hq, getLocalTmpPath_eq hp]
  exact fun he => hne (List.append_cancel_left he)

theorem ne_append_tmp (p : Path) : p ≠ p ++ cstr "_tmp" := by
  intro he
  have hl := congrArg List.length he
  rw [List.length_append] at hl
  have : (cstr "_tmp").length = 4 := by decide
  omega

/-- The database file is no temporary file: the last characters differ. -/
theorem database_ne_tmp (p : Path) : databasePath ≠ p ++ cstr "_tmp" := by
  intro he
  have hl := congrArg List.getLast? he
  rw [List.getLast?_append_of_ne_nil _ (by decide)] at hl
  revert hl
  decide

/-- No other path, however long, has the database file as its cached copy. -/
theorem getLocalPath_ne_database {p : Path} (hne : p ≠ databasePath) (dir : Path) :
    getLocalPath p dir ≠ getLocalPath databasePath dir := by
  intro he
  have htake : p.take MAX_PATH_LENGTH = databasePath := List.append_cancel_left he
  have hlen := congrArg List.length htake
  rw [List.length_take] at hlen
  have hdb : databasePath.length = 13 := by decide
  simp only [MAX_PATH_LENGTH] at *
  apply hne
  rw [← htake, List.take_of_length_le (by omega)]

/-- No temporary file is the database file. -/
theorem getLocalTmpPath_ne_database (p dir : Path) :
    getLocalTmpPath p dir ≠ getLocalPath databasePath dir := by
  intro he
  rw [getLocalTmpPath, List.append_assoc] at he
  exact database_ne_tmp _ (List.append_cancel_left he).symm

/-- A directory that holds files and no directories. -/
structure FlatDir (dir : Path) (s : Fs) : Prop where
  /-- The directory exists. -/
  root : s.isDir (base dir) = true
  /-- Nothing under it is a directory. -/
  flat : ∀ name, s.isDir (base dir ++ slash :: name) = false

theorem FlatDir.congr {dir : Path} {s t : Fs} (h : FlatDir dir s) (he : t.isDir = s.isDir) :
    FlatDir dir t := ⟨by rw [he]; exact h.root, fun name => by rw [he]; exact h.flat name⟩

theorem FlatDir.isDir_local {dir p : Path} {s : Fs} (h : FlatDir dir s) (hp : RootLevel p) :
    s.isDir (getLocalPath p dir) = false := by
  rw [getLocalPath_eq hp]
  obtain ⟨name, rfl, _⟩ := hp
  exact h.flat name

theorem FlatDir.isDir_tmp {dir p : Path} {s : Fs} (h : FlatDir dir s) (hp : RootLevel p) :
    s.isDir (getLocalTmpPath p dir) = false := by
  rw [getLocalTmpPath_eq hp]
  obtain ⟨name, rfl, _⟩ := hp
  exact h.flat (name ++ cstr "_tmp")

theorem FlatDir.parent_local {dir p : Path} {s : Fs} (h : FlatDir dir s) (hp : RootLevel p) :
    s.isDir (parent (getLocalPath p dir)) = true := by
  rw [getLocalPath_eq hp, parent_base hp]
  exact h.root

theorem FlatDir.parent_tmp {dir p : Path} {s : Fs} (h : FlatDir dir s) (hp : RootLevel p) :
    s.isDir (parent (getLocalTmpPath p dir)) = true := by
  rw [getLocalTmpPath_eq hp, parent_base_tmp hp]
  exact h.root

end Afs
