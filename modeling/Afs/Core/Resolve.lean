import Afs.Core.Syscall
import Mathlib.Data.List.Basic

/-!
# Where a path string leads

A file system without symbolic links follows a path one component at a time. A component that is
empty or a single dot stays, two dots lead to the directory above, and every other component is a
name inside the place reached so far, which must be a directory. What the components amount to does
not depend on the place they are followed from.
-/

namespace Posix

/-- A place in a tree without symbolic links: the names that lead to it from the top, the last one
first. -/
abbrev Place := List Path

/-- The component that stays. -/
def dot : Path := [46]

/-- The component that leads to the directory above. -/
def dotdot : Path := [46, 46]

/-- One component, seen from a place. The top has itself above it. -/
def Place.enter (l : Place) (c : Path) : Place :=
  if c = [] ∨ c = dot then l else if c = dotdot then l.tail else c :: l

/-- Follow components; each of them is looked up in a directory. -/
def Place.walk (dir : Place → Bool) (l : Place) : List Path → Option Place
  | [] => some l
  | c :: cs => if dir l then (l.enter c).walk dir cs else none

/-- The place that a path string leads to, with the directories `dir` and a process working in
`cwd`. The empty string leads nowhere. -/
def resolve (dir : Place → Bool) (cwd : Place) (p : Path) : Option Place :=
  if p = [] then none
  else (if p.head? = some slash then [] else cwd : Place).walk dir (p.splitOn slash)

/-- The place is the given one or inside its subtree. -/
def Place.Inside (root l : Place) : Prop := root <:+ l

instance (root l : Place) : Decidable (root.Inside l) :=
  inferInstanceAs (Decidable (root <:+ l))

/-- What components amount to: steps up and then names, the last name first. -/
structure Relative where
  /-- Steps up. -/
  ups : Nat
  /-- Names. -/
  names : List Path

namespace Relative

/-- One component more: two dots take back the last name, or go up once more. -/
def enter (r : Relative) (c : Path) : Relative :=
  if c = [] ∨ c = dot then r
  else if c = dotdot then
    match r.names with
    | [] => { r with ups := r.ups + 1 }
    | _ :: ns => { r with names := ns }
  else { r with names := c :: r.names }

/-- The place reached from `l`. -/
def apply (r : Relative) (l : Place) : Place := r.names ++ l.drop r.ups

/-- What a path amounts to. -/
def ofPath (p : Path) : Relative := (p.splitOn slash).foldl enter ⟨0, []⟩

theorem apply_enter (r : Relative) (c : Path) (l : Place) :
    (r.enter c).apply l = (r.apply l).enter c := by
  unfold enter Place.enter
  split
  · rfl
  · split
    · cases hn : r.names with
      | nil =>
          simp only [apply, hn, List.nil_append, List.tail_drop]
      | cons n ns => simp only [apply, hn, List.cons_append, List.tail_cons]
    · rfl

theorem apply_foldl (r : Relative) (cs : List Path) (l : Place) :
    (cs.foldl enter r).apply l = cs.foldl Place.enter (r.apply l) := by
  induction cs generalizing r with
  | nil => rfl
  | cons c cs ih => simp only [List.foldl_cons, ih, apply_enter]

/-- Components can be summed up before they are followed. -/
theorem apply_ofPath (p : Path) (l : Place) :
    (ofPath p).apply l = (p.splitOn slash).foldl Place.enter l := by
  unfold ofPath
  rw [apply_foldl]
  simp only [apply, List.nil_append, List.drop_zero]

/-- The steps up are undone by names that lead back. -/
theorem inside_apply_iff (r : Relative) (l : Place) :
    l.Inside (r.apply l) ↔ l.take r.ups <:+ r.names := by
  unfold Place.Inside apply
  conv_lhs => lhs; rw [← List.take_append_drop r.ups l]
  exact List.suffix_append_self_iff

end Relative

namespace Place

variable {dir : Place → Bool} {l m : Place}

/-- A walk that arrives arrives where its components lead. -/
theorem eq_of_walk {cs : List Path} (h : l.walk dir cs = some m) : m = cs.foldl enter l := by
  induction cs generalizing l with
  | nil => exact (Option.some.inj h).symm
  | cons c cs ih =>
      simp only [walk] at h
      split at h
      · exact ih h
      · cases h

/-- A walk goes through the place in its middle. -/
theorem walk_append (cs ds : List Path) :
    l.walk dir (cs ++ ds) = (l.walk dir cs).bind fun m => m.walk dir ds := by
  induction cs generalizing l with
  | nil => rfl
  | cons c cs ih =>
      simp only [List.cons_append, walk]
      split
      · exact ih
      · rfl

/-- A walk that goes on starts in a directory. -/
theorem dir_of_walk {cs : List Path} (hcs : cs ≠ []) (h : l.walk dir cs = some m) :
    dir l = true := by
  cases cs with
  | nil => exact absurd rfl hcs
  | cons c cs =>
      simp only [walk] at h
      split at h
      · assumption
      · cases h

end Place

/-- A separator stands between the two parts, or the second is empty. -/
def Joins (root p : Path) : Prop :=
  p = [] ∨ p.head? = some slash ∨ root.getLast? = some slash

instance (root p : Path) : Decidable (Joins root p) := by
  unfold Joins
  infer_instance

variable {dir : Place → Bool} {cwd l : Place} {root p : Path}

/-- A path that continues another one leads on from the place of the first. -/
theorem resolve_append (hroot : root ≠ []) (hj : Joins root p)
    (h : resolve dir cwd (root ++ p) = some l) :
    ∃ r, resolve dir cwd root = some r ∧ l = (Relative.ofPath p).apply r := by
  simp only [resolve, List.append_eq_nil_iff, hroot, false_and, if_false,
    List.head?_append_of_ne_nil _ hroot] at h ⊢
  generalize (if root.head? = some slash then [] else cwd : Place) = start at h ⊢
  rcases hj with rfl | hhead | hlast
  · rw [List.append_nil] at h
    exact ⟨l, h, (Relative.apply_ofPath [] l).symm⟩
  · obtain ⟨q, rfl⟩ : ∃ q, p = slash :: q := by
      cases p with
      | nil => cases hhead
      | cons c q => exact ⟨q, by rw [Option.some.inj hhead]⟩
    rw [List.splitOn_append_cons_self, Place.walk_append] at h
    obtain ⟨r, hr, hl⟩ := Option.bind_eq_some_iff.mp h
    refine ⟨r, hr, ?_⟩
    have hsplit : (slash :: q).splitOn slash = [] :: q.splitOn slash :=
      List.splitOn_append_cons_self [] q
    rw [Relative.apply_ofPath, hsplit, List.foldl_cons]
    exact Place.eq_of_walk hl
  · obtain ⟨front, rfl⟩ : ∃ front, root = front ++ [slash] := by
      obtain ⟨front, hf⟩ := List.getLast?_eq_some_iff.mp hlast
      exact ⟨front, hf⟩
    rw [List.append_assoc, List.singleton_append, List.splitOn_append_cons_self,
      Place.walk_append] at h
    obtain ⟨r, hr, hl⟩ := Option.bind_eq_some_iff.mp h
    refine ⟨r, ?_, ?_⟩
    · rw [List.splitOn_append_cons_self, Place.walk_append, hr, List.splitOn_nil]
      have hd := Place.dir_of_walk (List.splitOn_ne_nil slash p) hl
      simp only [Option.bind_some, Place.walk, hd, if_true]
      rfl
    · rw [Relative.apply_ofPath]
      exact Place.eq_of_walk hl

/-- The paths that a call is given. -/
def Sys.paths : Sys → List Path
  | .openF p .. | .lstat p | .truncate p _ | .unlink p | .remove p | .mkdir p _ | .rmdir p
  | .chmod p _ | .lchown p .. | .utimens p .. | .readdir p => [p]
  | .rename p q => [p, q]
  | .close _ | .fstat _ | .read .. | .pread .. | .write .. | .pwrite .. | .lseek .. | .ftruncate ..
  | .fsync _ => []

/-- The paths that a command of a process is given. -/
def ProcCmd.paths : ProcCmd → List Path
  | .sys c => c.paths
  | .errno => []

/-- The command is given no other path than `q`. -/
def ProcCmd.Names (q : Path) (c : ProcCmd) : Prop := ∀ p ∈ c.paths, p = q

section Names

variable {q : Path} {c : Sys}

theorem ProcCmd.names_of_eq (h : c.paths = [q]) : ProcCmd.Names q (.sys c) := by
  intro p hp
  change p ∈ c.paths at hp
  rw [h] at hp
  exact List.mem_singleton.mp hp

theorem ProcCmd.names_of_nil (h : c.paths = []) : ProcCmd.Names q (.sys c) := by
  intro p hp
  change p ∈ c.paths at hp
  rw [h] at hp
  exact absurd hp List.not_mem_nil

theorem ProcCmd.names_errno : ProcCmd.Names q .errno := by
  intro p hp
  exact absurd hp List.not_mem_nil

end Names

end Posix
