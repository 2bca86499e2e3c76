import Afs.Core.Resolve
import Afs.Ops.Script

/-!
# What a request can reach at the server

Every handler passes one path to the system, the one that `getServerPath` builds. The builder joins
two strings and looks at neither, so where the result leads is decided by what the string in the
request, its bytes before the first zero, amounts to. Steps up that are not undone lead out of the
exported directory, and so does a path that runs on from the name of that directory without a separator.
-/

namespace Afs

open Posix Interaction

/-- The path that a request carries. -/
def Request.path : Request → Path
  | .create path | .getattr path | .unlink path | .chmod path _ | .mkdir path _ | .rmdir path
  | .fetch path | .ls path => path
  | .store r => r.path

namespace Server

variable {junk : Junk} {root_path q : Path}

private theorem errorReply_names {p : Prog procSig Int} (hp : p.Uses (ProcCmd.Names q)) :
    (errorReply p).Uses (ProcCmd.Names q) := by
  apply Prog.Uses.bind hp
  intro r
  split
  · exact Prog.Uses.call ProcCmd.names_errno fun _ => trivial
  · exact trivial

/-- A handler passes the path of `getServerPath` to the system and no other. -/
theorem handle_names (r : Request) :
    (handle junk root_path r).Uses (ProcCmd.Names (getServerPath r.path root_path)) := by
  cases r with
  | create path =>
      apply Prog.Uses.call (ProcCmd.names_of_eq rfl)
      intro fd
      split
      · exact Prog.Uses.call ProcCmd.names_errno fun _ => trivial
      · apply Prog.Uses.call (ProcCmd.names_of_eq rfl)
        intro res
        exact Prog.Uses.call (ProcCmd.names_of_nil rfl) fun _ => trivial
  | store x =>
      apply Prog.Uses.call (ProcCmd.names_of_eq rfl)
      intro fd
      split
      · exact Prog.Uses.call ProcCmd.names_errno fun _ => trivial
      · apply Prog.Uses.call (ProcCmd.names_of_nil rfl)
        intro n
        apply Prog.Uses.call (ProcCmd.names_of_eq rfl)
        intro res
        exact Prog.Uses.call (ProcCmd.names_of_nil rfl) fun _ => trivial
  | getattr path =>
      apply Prog.Uses.call (ProcCmd.names_of_eq rfl)
      intro res
      split
      · exact Prog.Uses.call ProcCmd.names_errno fun _ => trivial
      · exact trivial
  | unlink path => exact errorReply_names (.one (ProcCmd.names_of_eq rfl))
  | chmod path mode => exact errorReply_names (.one (ProcCmd.names_of_eq rfl))
  | rmdir path => exact errorReply_names (.one (ProcCmd.names_of_eq rfl))
  | mkdir path mode =>
      apply Prog.Uses.call (ProcCmd.names_of_eq rfl)
      intro res
      split
      · exact Prog.Uses.call ProcCmd.names_errno fun _ => trivial
      · exact trivial
  | fetch path =>
      apply Prog.Uses.call (ProcCmd.names_of_eq rfl)
      intro fd
      split
      · exact trivial
      · apply Prog.Uses.call (ProcCmd.names_of_nil rfl)
        intro info
        apply Prog.Uses.call (ProcCmd.names_of_nil rfl)
        intro n
        apply Prog.Uses.call (ProcCmd.names_of_nil rfl)
        intro got
        apply Prog.Uses.call (ProcCmd.names_of_nil rfl)
        intro stats
        apply Prog.Uses.call (ProcCmd.names_of_nil rfl)
        intro c
        split <;> exact trivial
  | ls path =>
      apply Prog.Uses.call (ProcCmd.names_of_eq rfl)
      intro dp
      split <;> exact trivial

/-- The part of a request's path that `getServerPath` appends. -/
def appended (r : Request) : Path := (CString.str r.path).take MAX_PATH_LENGTH

/-- The steps up in the request's path that lead above the exported directory are undone by names
that lead back down to it. -/
def StaysUnder (root : Place) (r : Request) : Prop :=
  root.take (Relative.ofPath (appended r)).ups <:+ (Relative.ofPath (appended r)).names

instance (root : Place) (r : Request) : Decidable (StaysUnder root r) := by
  unfold StaysUnder
  infer_instance

/-- A path that never has more steps up than names before them stays under every directory. -/
theorem staysUnder_of_ups_eq_zero (root : Place) {r : Request}
    (h : (Relative.ofPath (appended r)).ups = 0) : StaysUnder root r := by
  unfold StaysUnder
  rw [h]
  exact List.nil_suffix

/-- A handler names the exported directory or something inside it exactly when the steps up in the
request's path are undone, as long as a separator stands between the two parts. -/
theorem handle_inside_iff (hroot : root_path ≠ []) (hlen : root_path.length ≤ MAX_PATH_LENGTH)
    (r : Request) (hj : Joins root_path (appended r)) :
    (handle junk root_path r).Uses (fun c : ProcCmd => ∀ q ∈ c.paths, ∀ dir cwd l,
      resolve dir cwd q = some l → ∃ root, resolve dir cwd root_path = some root ∧
        (root.Inside l ↔ StaysUnder root r)) := by
  refine (handle_names r).mono fun c hc q hq dir cwd l hl => ?_
  rw [hc q hq, getServerPath, List.take_of_length_le hlen] at hl
  obtain ⟨root, hr, rfl⟩ := resolve_append hroot hj hl
  exact ⟨root, hr, Relative.inside_apply_iff _ _⟩

/-- A path that begins with a separator and climbs no higher than it went down. -/
theorem handle_inside_iff_sample :
    Joins (cstr "/srv") (appended (.fetch (cstr "/a/../b"))) ∧
    (handle Junk.zero (cstr "/srv") (.fetch (cstr "/a/../b"))).Uses
      (fun c : ProcCmd => ∀ q ∈ c.paths, ∀ dir cwd l, resolve dir cwd q = some l →
        ∃ root, resolve dir cwd (cstr "/srv") = some root ∧
          (root.Inside l ↔ StaysUnder root (.fetch (cstr "/a/../b")))) ∧
    StaysUnder [cstr "srv"] (.fetch (cstr "/a/../b")) :=
  ⟨by decide, handle_inside_iff (by decide) (by decide) _ (by decide), by decide⟩

/-- Two dots lead to a neighbour of the exported directory, and so does a path without a leading
separator. What stands behind a zero byte does not count. -/
theorem handle_leaves_root :
    resolve (fun _ => true) [] (cstr "/srv") = some [cstr "srv"] ∧
    resolve (fun _ => true) [] (getServerPath (cstr "/../etc") (cstr "/srv")) = some [cstr "etc"] ∧
    resolve (fun _ => true) [] (getServerPath (cstr "x") (cstr "/srv")) = some [cstr "srvx"] ∧
    resolve (fun _ => true) [] (getServerPath (cstr "/.." ++ 0 :: cstr "x") (cstr "/srv")) = some [] ∧
    ¬ Place.Inside [cstr "srv"] [cstr "etc"] ∧ ¬ Place.Inside [cstr "srv"] [cstr "srvx"] ∧
    ¬ Place.Inside [cstr "srv"] [] := by
  decide

end Server

end Afs
