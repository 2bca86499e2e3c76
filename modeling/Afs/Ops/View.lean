import Afs.Ops.Copies
import Afs.Core.Runs

/-!
# The system seen one file at a time

`View` is one file across the system: the server's bytes and every client's copy, record and open
sessions. A complete operation on a path moves the view of that path as `View.next` says and no
view of another path in use, so that properties of runs can be proved on views.
-/

namespace Afs

open Posix Interaction

/-- Paths that can be used side by side: root-level, none the database file, no two with one hash,
and none the temporary file of another. -/
structure Names (U : Set Path) : Prop where
  level : ∀ p ∈ U, RootLevel p
  ne_database : ∀ p ∈ U, p ≠ databasePath
  hash : ∀ p ∈ U, ∀ q ∈ U, p ≠ q → hashfilename p ≠ hashfilename q
  ne_tmp : ∀ p ∈ U, ∀ q ∈ U, q ≠ p ++ cstr "_tmp"

/-- One file across the system. -/
structure View (ι : Type) where
  /-- The server's bytes and their modification time. -/
  served : Option (Bytes × Timespec)
  /-- The cached bytes of every client. -/
  cached : ι → Option Bytes
  /-- The value in every client's table. -/
  recorded : ι → Int64
  /-- The open sessions of every client. -/
  sessions : ι → List Log

/-- The open sessions after an operation that succeeded and left `cached` in the cache. -/
def Op.logs (cached : Option Bytes) (l : List Log) : Op → List Log
  | .create | .openF => l ++ [⟨cached.getD [], []⟩]
  | .write k buffer offset => l.modify k (Log.write offset buffer)
  | .release k => l.eraseIdx k
  | _ => l

namespace View

variable {ι : Type} [DecidableEq ι]

/-- The file between one client and the server. -/
def copies (v : View ι) (i : ι) : Copies := ⟨v.served, v.cached i, v.recorded i⟩

/-- The view after an operation of client `i`. -/
def next (v : View ι) (i : ι) (now : Timespec) (op : Op) : View ι :=
  let c := (v.copies i).next now op
  { served := c.served
    cached := Function.update v.cached i c.cached
    recorded := Function.update v.recorded i c.recorded
    sessions := Function.update v.sessions i (op.logs c.cached (v.sessions i)) }

/-- The operation meets what it expects, and its session is open. -/
structure Fits (v : View ι) (i : ι) (op : Op) : Prop where
  /-- The files. -/
  copies : (v.copies i).Fits op
  /-- The session. -/
  session : ∀ k, op.session = some k → k < (v.sessions i).length

variable (v : View ι) (i : ι) (now : Timespec) (op : Op)

@[simp] theorem copies_next_self : (v.next i now op).copies i = (v.copies i).next now op := by
  simp only [copies, next, Function.update_self]

@[simp] theorem sessions_next_self :
    (v.next i now op).sessions i = op.logs ((v.copies i).next now op).cached (v.sessions i) :=
  Function.update_self ..

@[simp] theorem cached_next_self :
    (v.next i now op).cached i = ((v.copies i).next now op).cached :=
  Function.update_self ..

@[simp] theorem recorded_next_self :
    (v.next i now op).recorded i = ((v.copies i).next now op).recorded :=
  Function.update_self ..

@[simp] theorem served_next : (v.next i now op).served = ((v.copies i).next now op).served := rfl

variable {i} {j : ι} (h : j ≠ i)
include h

@[simp] theorem cached_next_of_ne : (v.next i now op).cached j = v.cached j :=
  Function.update_of_ne h ..

@[simp] theorem recorded_next_of_ne : (v.next i now op).recorded j = v.recorded j :=
  Function.update_of_ne h ..

@[simp] theorem sessions_next_of_ne : (v.next i now op).sessions j = v.sessions j :=
  Function.update_of_ne h ..

end View

namespace World

variable {ι : Type} (P : Params ι)

/-- The view of a path. -/
def view (w : World ι) (p : Path) : View ι where
  served := (w.served P p).map fun f => (f.bytes, f.mtim)
  cached i := w.cached P i p
  recorded i := w.recorded i p
  sessions i := (w.sessions i p).map Session.toLog

/-- What the operations on the paths of `U` rely on, and keep. -/
structure Sound (U : Set Path) (w : World ι) : Prop where
  /-- Every client's process runs. -/
  up : ∀ i, w.up i = true
  /-- No faults are left over at the server. -/
  faults : w.server.faults = []
  /-- The cache directories are there and hold files only. -/
  cache : ∀ i, FlatDir (P.cache_path i) (w.disk i)
  /-- The exported directory is there. -/
  root : w.server.fs.isDir (base P.root_path) = true
  /-- No path in use is a directory of the server. -/
  plain : ∀ p ∈ U, w.server.fs.isDir (getServerPath p P.root_path) = false
  /-- No copy has two gigabytes. -/
  short : ∀ i, ∀ p ∈ U, ((w.view P p).copies i).Short

end World

/-- An operation during which nothing fails. -/
structure Call.Quiet {ι : Type} (c : Call ι) : Prop where
  /-- No system call of the client fails. -/
  faults : c.faults = []
  /-- No message is lost, and no call of the server fails. -/
  net : c.net = []

instance {ι : Type} (c : Call ι) : Decidable c.Quiet :=
  decidable_of_iff (c.faults.isEmpty = true ∧ c.net.isEmpty = true)
    ⟨fun h => ⟨List.isEmpty_iff.mp h.1, List.isEmpty_iff.mp h.2⟩,
      fun h => ⟨List.isEmpty_iff.mpr h.faults, List.isEmpty_iff.mpr h.net⟩⟩

section

variable {ι : Type} {P : Params ι} {U : Set Path} {w : World ι} {c : Call ι}

/-- A sound world is ready for every operation on a path in use. -/
theorem World.Sound.ready {p : Path} (hU : Names U) (hw : w.Sound P U) (hp : p ∈ U) (i : ι)
    (now : Timespec) (junk : Junk) :
    Ready ⟨P.root_path, junk⟩ (P.cache_path i) p (w.state i now [] []) where
  calm := ⟨rfl, hw.faults, rfl⟩
  cache := hw.cache i
  root := hw.root
  plain := hw.plain p hp
  level := hU.level p hp
  ne_database := hU.ne_database p hp

private theorem handle_of_fits (hf : (w.view P c.path).Fits c.client c.op) :
    ∃ fh, w.handle c = some fh := by
  unfold World.handle
  cases hs : c.op.session with
  | none => exact ⟨0, rfl⟩
  | some k =>
      have hk := hf.session k hs
      simp only [World.view, List.length_map] at hk
      exact ⟨(w.sessions c.client c.path)[k].fh, by
        simp only [List.getElem?_eq_getElem hk, Option.map_some]⟩

/-- The sessions of the system follow the logs of the view. -/
private theorem map_sessions {op : Op} {co : Copies} {r : Result} (hf : co.Fits op)
    (ha : co.Answers r op) (b : Option Bytes) (l : List Session) :
    (op.sessions b r l).map Session.toLog = op.logs b (l.map Session.toLog) := by
  cases op with
  | create | openF =>
      simp only [Op.sessions, Op.logs, Copies.Answers] at ha ⊢
      simp only [ha, if_true, List.map_append, List.map_cons, List.map_nil]
  | write k buffer offset =>
      simp only [Op.sessions, Op.logs, Copies.Answers] at ha ⊢
      have hr : 0 ≤ r.ret := by omega
      rw [if_pos hr]
      apply List.ext_getElem?
      intro n
      simp only [List.getElem?_map, List.getElem?_modify]
      cases l[n]? with
      | none => rfl
      | some x => split <;> rfl
  | release k =>
      simp only [Op.sessions, Op.logs]
      rw [List.eraseIdx_eq_take_drop_succ, List.eraseIdx_eq_take_drop_succ, List.map_append,
        List.map_take, List.map_drop]
  | _ => rfl

end

section

variable {ι : Type} [DecidableEq ι] {P : Params ι} {U : Set Path} {w : World ι} {i : ι}
  {p : Path} {r : Result} {t : St}
  {next : Result → Option Bytes → List Session → List Session}

/-- The cached bytes of a client after one of its programs. -/
private theorem cached_finish (q : Path) (j : ι) :
    (w.finish P i p next (some r, t)).cached P j q =
      if j = i then (t.disk.look (getLocalPath q (P.cache_path i))).map (·.bytes)
      else w.cached P j q := by
  simp only [World.finish, World.cached, World.disk]
  split
  · next h => rw [h, Function.update_self]
  · next h => rw [Function.update_of_ne h]

/-- The records of a client after one of its programs. -/
private theorem recorded_finish (q : Path) (j : ι) :
    (w.finish P i p next (some r, t)).recorded j q =
      if j = i then t.client.ht.get q else w.recorded j q := by
  simp only [World.finish, World.recorded]
  split
  · next h => rw [h, Function.update_self]
  · next h => rw [Function.update_of_ne h]

/-- The sessions after a program that returned. -/
private theorem sessions_finish (q : Path) (j : ι) :
    (w.finish P i p next (some r, t)).sessions j q =
      if j = i ∧ q = p then
        next r ((t.disk.look (getLocalPath p (P.cache_path i))).map (·.bytes)) (w.sessions i p)
      else w.sessions j q := by
  have hc : (w.finish P i p next (some r, t)).cached P i p = _ := cached_finish p i
  rw [if_pos rfl] at hc
  simp only [← hc, World.finish]
  by_cases hj : j = i
  · subst hj
    by_cases hq : q = p
    · subst hq
      simp only [Function.update_self, and_self, if_true]
      rfl
    · simp only [Function.update_self, Function.update_of_ne hq, hq, and_false, if_false]
  · simp only [Function.update_of_ne hj, hj, false_and, if_false]

end

variable {ι : Type} [DecidableEq ι] {P : Params ι} {U : Set Path} {w : World ι} {c : Call ι}

/-- The views after a program that did to one file what `next` says and touched no other. -/
private theorem view_finish (hU : Names U) (hp : c.path ∈ U)
    {r : Result} {t : St} {s : St} (hs : s = w.state c.client c.now c.faults c.net)
    (htt : Touches ⟨P.root_path, c.junk⟩ (P.cache_path c.client) c.path s t)
    (hcc : t.copies ⟨P.root_path, c.junk⟩ (P.cache_path c.client) c.path =
      ((w.view P c.path).copies c.client).next c.now c.op)
    (hf : ((w.view P c.path).copies c.client).Fits c.op)
    (ha : ((w.view P c.path).copies c.client).Answers r c.op) {w' : World ι}
    (hw' : w' = w.finish P c.client c.path (fun r b l => c.op.sessions b r l) (some r, t)) :
    w'.view P c.path = (w.view P c.path).next c.client c.now c.op ∧
      ∀ q ∈ U, q ≠ c.path → w'.view P q = w.view P q := by
  subst hs hw'
  have hserved := congrArg Copies.served hcc
  have hcached := congrArg Copies.cached hcc
  have hrecorded := congrArg Copies.recorded hcc
  simp only [St.copies] at hserved hcached hrecorded
  constructor
  · have hsess : ∀ j, ((w.finish P c.client c.path (fun r b l => c.op.sessions b r l)
        (some r, t)).sessions j c.path).map Session.toLog =
        ((w.view P c.path).next c.client c.now c.op).sessions j := by
      intro j
      rw [sessions_finish]
      by_cases hj : j = c.client
      · subst hj
        rw [if_pos ⟨rfl, rfl⟩, map_sessions hf ha, View.sessions_next_self, hcached]
        rfl
      · rw [if_neg (fun hh => hj hh.1), View.sessions_next_of_ne _ _ _ hj]
        rfl
    simp only [World.view, View.mk.injEq, View.next] at hsess ⊢
    refine ⟨hserved, funext fun j => ?_, funext fun j => ?_, funext hsess⟩
    · rw [cached_finish, hcached]
      by_cases hj : j = c.client
      · subst hj
        rw [if_pos rfl, Function.update_self]
        rfl
      · rw [if_neg hj, Function.update_of_ne hj]
    · rw [recorded_finish, hrecorded]
      by_cases hj : j = c.client
      · subst hj
        rw [if_pos rfl, Function.update_self]
        rfl
      · rw [if_neg hj, Function.update_of_ne hj]
  · intro q hq hne
    have hlp := hU.level _ hp
    have hlq := hU.level q hq
    simp only [World.view, View.mk.injEq]
    refine ⟨?_, funext fun j => ?_, funext fun j => ?_, funext fun j => ?_⟩
    · have hl : getServerPath q P.root_path ≠ getServerPath c.path P.root_path := by
        rw [getServerPath_eq hlq, getServerPath_eq hlp]
        exact fun he => hne (List.append_cancel_left he)
      exact congrArg (Option.map _) (htt.server.look _ (by simpa using hl))
    · rw [cached_finish]
      split
      · next hj =>
        subst hj
        have hl : getLocalPath q (P.cache_path c.client) ∉
            [getLocalPath c.path (P.cache_path c.client),
              getLocalTmpPath c.path (P.cache_path c.client),
              getLocalPath databasePath (P.cache_path c.client)] := by
          simp only [List.mem_cons, List.not_mem_nil, or_false, not_or]
          exact ⟨getLocalPath_ne hlq hlp hne _,
            getLocalPath_ne_tmp hlp hlq (hU.ne_tmp _ hp q hq) _,
            getLocalPath_ne hlq rootLevel_database (hU.ne_database q hq) _⟩
        exact congrArg (Option.map _) (htt.effect.disk.look _ hl)
      · rfl
    · rw [recorded_finish]
      split
      · next hj =>
        subst hj
        exact htt.table q (hashKey_ne (hU.hash q hq _ hp hne))
      · rfl
    · rw [sessions_finish, if_neg (fun hh => hne hh.2)]

/-- A quiet operation on a path in use succeeds, keeps the system sound, moves the view of its path
as `View.next` says, and no other view. -/
theorem World.perform_view (hU : Names U) (hw : w.Sound P U) (hp : c.path ∈ U) (hq : c.Quiet)
    (hf : (w.view P c.path).Fits c.client c.op) :
    ∃ r w', w.perform P c = some (some r, w') ∧ w'.Sound P U ∧
      w'.view P c.path = (w.view P c.path).next c.client c.now c.op ∧
      (∀ q ∈ U, q ≠ c.path → w'.view P q = w.view P q) ∧
      ((w.view P c.path).copies c.client).Answers r c.op := by
  obtain ⟨fh, hfh⟩ := handle_of_fits hf
  have hready := hw.ready hU hp c.client c.now c.junk
  rw [← hq.faults, ← hq.net] at hready
  obtain ⟨r, t, hrun, htt, hcc, ha⟩ :=
    Op.prog_yields c.junk fh hready (hw.short c.client c.path hp) hf.copies
  obtain ⟨hview, hother⟩ := view_finish (r := r) hU hp rfl htt hcc hf.copies ha rfl
  refine ⟨r, _, ?_, ?_, hview, hother, ha⟩
  · simp only [World.perform, hw.up, if_true, hfh, Option.map_some, hrun]
  have hcalm := htt.effect.calm
  refine ⟨?_, hcalm.server, ?_, ?_, ?_, ?_⟩
  · intro j
    simp only [World.finish, Option.isSome_some]
    by_cases hj : j = c.client
    · rw [hj, Function.update_self]
    · rw [Function.update_of_ne hj, hw.up]
  · intro j
    simp only [World.finish, World.disk]
    by_cases hj : j = c.client
    · subst hj
      rw [Function.update_self]
      exact (hw.cache c.client).congr htt.effect.disk.isDir
    · rw [Function.update_of_ne hj]
      exact hw.cache j
  · exact (congrFun htt.server.isDir _).trans hw.root
  · intro q hq
    exact (congrFun htt.server.isDir _).trans (hw.plain q hq)
  · intro j q hq
    by_cases hne : q = c.path
    · subst hne
      rw [hview]
      by_cases hj : j = c.client
      · subst hj
        rw [View.copies_next_self]
        exact (hw.short _ _ hp).next hf.copies c.now
      · have hold := hw.short j _ hp
        have hnew := (hw.short c.client _ hp).next hf.copies c.now
        refine ⟨hnew.served, fun b hb => hold.cached b ?_⟩
        simpa only [View.copies, View.cached_next_of_ne _ _ _ hj] using hb
    · rw [hother q hq hne]
      exact hw.short j q hq

end Afs
