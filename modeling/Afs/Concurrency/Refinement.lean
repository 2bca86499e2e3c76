import Afs.Concurrency.Handlers
import Afs.Ops.Script

/-!
# The handlers refine the smaller machine

A handler that has its file open is in a phase that says which call comes next and what the
descriptor stands for. Descriptors of different handlers differ, so a call of one leaves the
others in their phases.
-/

namespace Afs

open Posix Interaction

/-- What is left of a handler in a phase, given its descriptor. -/
inductive Left (job : Job) (junk : Junk) (path : Path) (fd : Int) :
    Phase → Prog procSig Exchange → Prop where
  | start (root_path request_path : Path) (h : path = getServerPath request_path root_path) :
      Left job junk path fd .start (job.prog junk root_path request_path)
  | done (x : Exchange) : Left job junk path fd (.done x) (.ret x)
  | timed (d : Bytes) (t : Timespec) (k : Int → Prog procSig Exchange)
      (h : ∀ r, Left job junk path fd (.done ⟨0, d, Int64.ofNat t.tv_nsec⟩) (k r)) :
      Left job junk path fd (.timed d t) (.op (.sys (.close fd)) k)
  | fetched (d : Bytes) (k : Option Stat → Prog procSig Exchange) (hj : job = .fetch)
      (h : ∀ st : Stat, Left job junk path fd (.timed d st.st_mtim) (k (some st))) :
      Left job junk path fd (.held d) (.op (.sys (.fstat fd)) k)
  | stored (d : Bytes) (k : Option Stat → Prog procSig Exchange) (u : Upload)
      (hj : job = .store u)
      (h : ∀ st : Stat, Left job junk path fd (.timed d st.st_mtim) (k (some st))) :
      Left job junk path fd (.held d) (.op (.sys (.lstat path)) k)
  | placed (n : Nat) (k : Option Bytes → Prog procSig Exchange) (hj : job = .fetch)
      (h : ∀ d : Bytes, Left job junk path fd (.held (fill (junk.heap n) (some d)))
        (k (some d))) :
      Left job junk path fd (.placed n) (.op (.sys (.read fd n)) k)
  | sized (n : Nat) (k : Int → Prog procSig Exchange) (hj : job = .fetch)
      (h : ∀ r, Left job junk path fd (.placed n) (k r)) :
      Left job junk path fd (.sized n) (.op (.sys (.lseek fd 0)) k)
  | fetchOpened (k : Option Stat → Prog procSig Exchange) (hj : job = .fetch)
      (h : ∀ (st : Stat) (n : Nat), st.st_size = n →
        Left job junk path fd (.sized n) (k (some st))) :
      Left job junk path fd .opened (.op (.sys (.fstat fd)) k)
  | storeOpened (mem : Bytes) (n : Nat) (k : Int → Prog procSig Exchange) (u : Upload)
      (hj : job = .store u) (hn : n = u.bytes.length) (hm : u.bytes <+: mem)
      (h : ∀ r, Left job junk path fd (.held u.bytes) (k r)) :
      Left job junk path fd .opened (.op (.sys (.write fd mem n)) k)

/-- What the descriptor of a handler stands for in a phase. -/
def Phase.Owns (path : Path) (s : Fs) (fd : Int) : Phase → Prop
  | .start | .done _ => True
  | .opened | .placed _ => s.Holds fd path 0 false
  | .sized _ | .held _ | .timed .. => ∃ off, s.Holds fd path off false

/-- A handler that has its file open. -/
def Phase.IsOpen : Phase → Prop
  | .start | .done _ => False
  | _ => True

variable {junk : Junk} {root_path request_path : Path}

theorem Upload.length_bytes (u : Upload) : u.bytes.length = u.size.toInt.toNat := by
  have := u.fits
  rw [Upload.bytes, List.length_take]
  omega

/-- The size of an upload as the count of a write. -/
theorem Upload.sizeT_size (u : Upload) : sizeT u.size.toInt = u.bytes.length := by
  have hlt := u.size.toInt_lt
  have hfit := u.fits
  rw [u.length_bytes, sizeT]
  omega

/-- A fetch opens its file and, if it cannot, replies at once. -/
theorem Job.fetch_left (junk : Junk) (root_path request_path : Path) : ∃ k : Int → Prog procSig Exchange,
    Job.fetch.prog junk root_path request_path =
      .op (.sys (.openF (getServerPath request_path root_path) {} 0)) k ∧
    k (-1) = .ret ⟨-1, [], 0⟩ ∧
    ∀ fd ≠ -1, Left .fetch junk (getServerPath request_path root_path) fd .opened (k fd) := by
  refine ⟨_, rfl, rfl, ?_⟩
  intro fd hfd
  simp only [Prog.bind, hfd, if_false]
  apply Left.fetchOpened _ rfl
  intro st n hn
  obtain ⟨_, _, _, _, _, _, _, _, _, _, _⟩ := st
  subst hn
  apply Left.sized _ _ rfl
  intro _
  apply Left.placed _ _ rfl
  intro d
  apply Left.fetched _ _ rfl
  intro st'
  apply Left.timed
  intro _
  have hneg : ¬ (n : Int) < 0 := by omega
  simp only [Prog.bind, hneg, if_false, Option.getD_some]
  exact Left.done _

/-- A store opens its file. -/
theorem Job.store_left (junk : Junk) (root_path request_path : Path) (u : Upload) :
    ∃ k : Int → Prog procSig Exchange, (Job.store u).prog junk root_path request_path =
      .op (.sys (.openF (getServerPath request_path root_path) { creat := true, trunc := true }
        S_IRWXUG)) k ∧
    ∀ fd ≠ -1, Left (.store u) junk (getServerPath request_path root_path) fd .opened (k fd) := by
  refine ⟨_, rfl, ?_⟩
  intro fd hfd
  simp only [Prog.bind, hfd, if_false]
  refine Left.storeOpened _ _ _ u rfl u.sizeT_size ?_ ?_
  · exact (List.take_prefix _ _).trans (List.prefix_append _ _)
  · intro _
    apply Left.stored _ _ u rfl
    intro st
    apply Left.timed
    intro _
    exact Left.done _

/-- Only a handler that has replied has nothing left to do. -/
theorem Left.of_ret {job : Job} {path : Path} {fd : Int} {φ : Phase} {x : Exchange}
    (hl : Left job junk path fd φ (.ret x)) : φ = .done x := by
  generalize hq : Prog.ret x = q at hl
  cases hl with
  | start root_path request_path _ => cases job <;> cases hq
  | done y => rw [Prog.ret.inj hq]
  | _ => cases hq

theorem Left.of_done {job : Job} {path : Path} {fd : Int} {q : Prog procSig Exchange}
    {x : Exchange} (hl : Left job junk path fd (.done x) q) : q = .ret x := by
  cases hl
  rfl

/-- The file of the server as the smaller machine has it. -/
def content (path : Path) (s : Proc) : Option Content := (s.fs.look path).map Content.ofFile

/-- One call of a handler takes it from one phase to another. -/
structure Moves (job : Job) (junk : Junk) (path : Path) (s s' : Proc) (fd fd' : Int)
    (φ φ' : Phase) (q' : Prog procSig Exchange) : Prop where
  /-- The next call will behave normally, too. -/
  faults : s'.faults = []
  /-- Directories stay. -/
  isDir : s'.fs.isDir = s.fs.isDir
  /-- A file that exists stays. -/
  file : s.fs.look path ≠ none → s'.fs.look path ≠ none
  /-- The rest of the handler belongs to the new phase. -/
  left : Left job junk path fd' φ' q'
  /-- So does the descriptor. -/
  owns : φ'.Owns path s'.fs fd'
  /-- Other descriptors are left alone, and they are not the one of this handler. -/
  keeps : ∀ g q o a, (φ.IsOpen → g ≠ fd) → s.fs.Holds g q o a →
    s'.fs.Holds g q o a ∧ (φ'.IsOpen → g ≠ fd')

/-- A call on the handler's own descriptor. -/
private theorem Moves.of_steps {job : Job} {path : Path} {s : Proc} {t : Fs} {fd : Int}
    {φ φ' : Phase} {q' : Prog procSig Exchange} {files : Path → Option File}
    (hf : s.faults = []) (hs : s.fs.Steps t files)
    (hfile : s.fs.look path ≠ none → files path ≠ none) (hopen : φ.IsOpen)
    (hk : s.fs.Keeps t fd) (hl : Left job junk path fd φ' q') (ho : φ'.Owns path t fd) :
    Moves job junk path s { s with fs := t } fd fd φ φ' q' where
  faults := hf
  isDir := hs.isDir
  file := by
    rw [hs.look]
    exact hfile
  left := hl
  owns := ho
  keeps g q o a hne hg := ⟨hk g q o a (hne hopen) hg, fun _ => hne hopen⟩

/-- A call that opened the descriptor. -/
private theorem Moves.of_open {job : Job} {path : Path} {s : Proc} {t : Fs} {fd fd' : Int}
    {q' : Prog procSig Exchange} {files : Path → Option File}
    (hf : s.faults = []) (hs : s.fs.Steps t files)
    (hfile : s.fs.look path ≠ none → files path ≠ none)
    (hk : ∀ g q o a, s.fs.Holds g q o a → g ≠ fd' ∧ t.Holds g q o a)
    (hl : Left job junk path fd' .opened q') (ho : t.Holds fd' path 0 false) :
    Moves job junk path s { s with fs := t } fd fd' .start .opened q' where
  faults := hf
  isDir := hs.isDir
  file := by
    rw [hs.look]
    exact hfile
  left := hl
  owns := ho
  keeps g q o a _ hg := ⟨(hk g q o a hg).2, fun _ => (hk g q o a hg).1⟩

/-- A handler with another descriptor stays in its phase. -/
theorem Moves.keeps_owns {job : Job} {path : Path} {s s' : Proc} {fd fd' g : Int}
    {φ φ' ψ : Phase} {q' : Prog procSig Exchange}
    (hm : Moves job junk path s s' fd fd' φ φ' q') (ho : ψ.Owns path s.fs g)
    (hne : ψ.IsOpen → φ.IsOpen → g ≠ fd) : ψ.Owns path s'.fs g := by
  cases ψ with
  | start | done x => trivial
  | opened | placed n => exact (hm.keeps g path 0 false (hne trivial) ho).1
  | sized n | held d | timed d t =>
      obtain ⟨off, hh⟩ := ho
      exact ⟨off, (hm.keeps g path off false (hne trivial) hh).1⟩

theorem content_of_steps {path : Path} {s : Proc} {t : Fs} {files : Path → Option File}
    (hs : s.fs.Steps t files) :
    content path { s with fs := t } = (files path).map Content.ofFile := by
  rw [content, hs.look]

theorem content_of_look {path : Path} {s : Proc} {f : File} (h : s.fs.look path = some f) :
    content path s = some (.ofFile f) := by rw [content, h, Option.map_some]

/-- A handler with a phase after this one has a call left, and the call leads there. -/
theorem Left.moves {job : Job} {path : Path} {s : Proc} {fd : Int} {φ φ' : Phase}
    {q : Prog procSig Exchange} {file : Option Content} (hl : Left job junk path fd φ q)
    (ho : φ.Owns path s.fs fd) (hf : s.faults = []) (hd : s.fs.isDir path = false)
    (hp : s.fs.look path = none → s.fs.isDir (parent path) = true)
    (hn : job.next junk s.fs.clock (content path s) φ = some (file, φ')) :
    ∃ (c : ProcCmd) (k : c.Res → Prog procSig Exchange) (r : c.Res) (s' : Proc) (fd' : Int),
      q = .op c k ∧ ProcCmd.exec c s = (r, s') ∧ content path s' = file ∧
      Moves job junk path s s' fd fd' φ φ' (k r) := by
  cases hl with
  | start root_path request_path hpath =>
      subst hpath
      generalize hpath : getServerPath request_path root_path = path at *
      cases job with
      | fetch =>
          obtain ⟨k, hq, hfail, hk⟩ := Job.fetch_left junk root_path request_path
          rw [hpath] at hq hk
          cases hlook : s.fs.look path with
          | none =>
              rw [content, hlook] at hn
              obtain ⟨rfl, rfl⟩ := Prod.mk.inj (Option.some.inj hn)
              refine ⟨.sys (.openF path {} 0), k, -1, { s with errno := s.fs.absent path }, fd, hq,
                Sys.exec_error hf (Fs.openFile_missing hlook hd {} rfl 0), ?_, ?_⟩
              · rw [content, hlook, Option.map_none]
              · rw [hfail]
                exact ⟨hf, rfl, id, Left.done _, trivial, fun g q o a _ hg => ⟨hg, False.elim⟩⟩
          | some f =>
              rw [content_of_look hlook] at hn
              obtain ⟨rfl, rfl⟩ := Prod.mk.inj (Option.some.inj hn)
              obtain ⟨fd', t, hopen, h0, hh, hs, hkeep⟩ := Fs.openFile_of_look hlook {} rfl 0
              refine ⟨.sys (.openF path {} 0), k, fd', _, fd', hq, Sys.exec_ok hf hopen, ?_,
                Moves.of_open hf hs id hkeep (hk fd' (by omega)) hh⟩
              rw [content_of_steps hs, hlook, Option.map_some]
      | store u =>
          obtain ⟨k, hq, hk⟩ := Job.store_left junk root_path request_path u
          rw [hpath] at hq hk
          obtain ⟨rfl, rfl⟩ := Prod.mk.inj (Option.some.inj hn)
          obtain ⟨fd', t, f, hopen, h0, hh, hs, hb, hm, hkeep⟩ :=
            Fs.openFile_trunc hd hp { creat := true, trunc := true } rfl rfl S_IRWXUG
          refine ⟨.sys (.openF path { creat := true, trunc := true } S_IRWXUG), k, fd', _, fd', hq,
            Sys.exec_ok hf hopen, ?_, Moves.of_open hf hs ?_ hkeep (hk fd' (by omega)) hh⟩
          · rw [content_of_steps hs, Function.update_self, Option.map_some, Content.ofFile, hb, hm]
          · intro _
            rw [Function.update_self]
            exact Option.some_ne_none f
  | done x => cases job <;> cases hn
  | timed d t k h =>
      obtain ⟨off, hh⟩ := ho
      obtain ⟨t1, hc, hs, hk⟩ := Fs.close_of_holds hh
      have hn' : some (content path s, Phase.done ⟨0, d, Int64.ofNat t.tv_nsec⟩) =
          some (file, φ') := by
        cases job <;> exact hn
      obtain ⟨rfl, rfl⟩ := Prod.mk.inj (Option.some.inj hn')
      exact ⟨.sys (.close fd), k, 0, _, fd, rfl, Sys.exec_ok hf hc, content_of_steps hs,
        Moves.of_steps hf hs id trivial hk (h 0) trivial⟩
  | fetched d k hj h =>
      subst hj
      obtain ⟨off, hh⟩ := ho
      obtain ⟨f, hlook⟩ := Fs.look_of_holds hh
      obtain ⟨i, hst⟩ := Fs.fstat_of_holds hh hlook
      have hperf : Sys.perform none (.fstat fd) s.fs = .ok (some (f.stat i), s.fs) := by
        simp only [Sys.perform, hst]
        rfl
      rw [content_of_look hlook] at hn
      obtain ⟨rfl, rfl⟩ := Prod.mk.inj (Option.some.inj hn)
      exact ⟨.sys (.fstat fd), k, _, _, fd, rfl, Sys.exec_ok hf hperf, content_of_look hlook,
        Moves.of_steps hf (Fs.Steps.refl _) id trivial (fun _ _ _ _ _ hg => hg) (h (f.stat i))
          ⟨off, hh⟩⟩
  | stored d k u hj h =>
      subst hj
      obtain ⟨off, hh⟩ := ho
      obtain ⟨f, hlook⟩ := Fs.look_of_holds hh
      obtain ⟨i, hst⟩ := Fs.lstat_of_look hlook
      have hperf : Sys.perform none (.lstat path) s.fs = .ok (some (f.stat i), s.fs) := by
        simp only [Sys.perform, hst]
        rfl
      rw [content_of_look hlook] at hn
      obtain ⟨rfl, rfl⟩ := Prod.mk.inj (Option.some.inj hn)
      exact ⟨.sys (.lstat path), k, _, _, fd, rfl, Sys.exec_ok hf hperf, content_of_look hlook,
        Moves.of_steps hf (Fs.Steps.refl _) id trivial (fun _ _ _ _ _ hg => hg) (h (f.stat i))
          ⟨off, hh⟩⟩
  | placed n k hj h =>
      subst hj
      obtain ⟨f, hlook⟩ := Fs.look_of_holds ho
      obtain ⟨t, hrd, hs, hk, hh⟩ := Fs.read_of_holds ho hlook n
      have hperf : Sys.perform none (.read fd n) s.fs = .ok (some (slice f.bytes 0 n), t) := by
        simp only [Sys.perform, Option.elim_none, hrd]
        rfl
      rw [content_of_look hlook] at hn
      obtain ⟨rfl, rfl⟩ := Prod.mk.inj (Option.some.inj hn)
      refine ⟨.sys (.read fd n), k, _, _, fd, rfl, Sys.exec_ok hf hperf, ?_,
        Moves.of_steps hf hs id trivial hk (h (slice f.bytes 0 n)) ⟨_, hh⟩⟩
      rw [content_of_steps hs, hlook, Option.map_some]
  | sized n k hj h =>
      subst hj
      obtain ⟨off, hh⟩ := ho
      obtain ⟨t, hsk, hs, hk, hh'⟩ := Fs.lseek_of_holds hh 0
      obtain ⟨rfl, rfl⟩ := Prod.mk.inj (Option.some.inj hn)
      exact ⟨.sys (.lseek fd 0), k, _, _, fd, rfl, Sys.exec_ok hf hsk, content_of_steps hs,
        Moves.of_steps hf hs id trivial hk (h _) hh'⟩
  | fetchOpened k hj h =>
      subst hj
      obtain ⟨f, hlook⟩ := Fs.look_of_holds ho
      obtain ⟨i, hst⟩ := Fs.fstat_of_holds ho hlook
      have hperf : Sys.perform none (.fstat fd) s.fs = .ok (some (f.stat i), s.fs) := by
        simp only [Sys.perform, hst]
        rfl
      rw [content_of_look hlook] at hn
      obtain ⟨rfl, rfl⟩ := Prod.mk.inj (Option.some.inj hn)
      exact ⟨.sys (.fstat fd), k, _, _, fd, rfl, Sys.exec_ok hf hperf, content_of_look hlook,
        Moves.of_steps hf (Fs.Steps.refl _) id trivial (fun _ _ _ _ _ hg => hg)
          (h (f.stat i) f.bytes.length rfl) ⟨0, ho⟩⟩
  | storeOpened mem n k u hj hcount hm h =>
      subst hj
      obtain ⟨f, hlook⟩ := Fs.look_of_holds ho
      obtain ⟨t, g, hw, hs, hb, hmt, hk, hh⟩ := Fs.write_of_holds ho hlook u.bytes
      rw [content_of_look hlook] at hn
      obtain ⟨rfl, rfl⟩ := Prod.mk.inj (Option.some.inj hn)
      refine ⟨.sys (.write fd mem n), k, _, _, fd, rfl,
        Sys.exec_ok hf (perform_write hcount hm hw), ?_,
        Moves.of_steps hf hs ?_ trivial hk (h _) ⟨_, hh⟩⟩
      · rw [content_of_steps hs, Function.update_self, Option.map_some, Content.ofFile, hb, hmt]
        rfl
      · intro _
        rw [Function.update_self]
        exact Option.some_ne_none g

/-- A handler without a phase after this one has replied. -/
theorem Left.ends {job : Job} {path : Path} {s : Proc} {fd : Int} {φ : Phase}
    {q : Prog procSig Exchange} (hl : Left job junk path fd φ q) (ho : φ.Owns path s.fs fd)
    (hn : job.next junk s.fs.clock (content path s) φ = none) : ∃ x, φ = .done x ∧ q = .ret x := by
  have hfile : ∀ off, s.fs.Holds fd path off false → ∃ f, content path s = some f := by
    intro off hh
    obtain ⟨f, hf⟩ := Fs.look_of_holds hh
    exact ⟨_, content_of_look hf⟩
  cases hl with
  | start root_path request_path hpath =>
      cases job with
      | fetch => cases hc : content path s <;> rw [hc] at hn <;> cases hn
      | store u => cases hn
  | done x => exact ⟨x, rfl, rfl⟩
  | timed d t k h => cases job <;> cases hn
  | fetched d k hj h =>
      obtain ⟨off, hh⟩ := ho
      obtain ⟨f, hf⟩ := hfile off hh
      subst hj
      rw [hf] at hn
      cases hn
  | stored d k u hj h =>
      obtain ⟨off, hh⟩ := ho
      obtain ⟨f, hf⟩ := hfile off hh
      subst hj
      rw [hf] at hn
      cases hn
  | placed n k hj h =>
      obtain ⟨f, hf⟩ := hfile 0 ho
      subst hj
      rw [hf] at hn
      cases hn
  | sized n k hj h =>
      subst hj
      cases hn
  | fetchOpened k hj h =>
      obtain ⟨f, hf⟩ := hfile 0 ho
      subst hj
      rw [hf] at hn
      cases hn
  | storeOpened mem n k u hj hcount hm h =>
      obtain ⟨f, hf⟩ := hfile 0 ho
      subst hj
      rw [hf] at hn
      cases hn

/-- What an open handler's descriptor stands for. -/
theorem Phase.Owns.holds {path : Path} {s : Fs} {fd : Int} {φ : Phase}
    (h : φ.Owns path s fd) (hopen : φ.IsOpen) : ∃ off, s.Holds fd path off false := by
  cases φ with
  | start | done x => exact hopen.elim
  | opened | placed n => exact ⟨0, h⟩
  | sized n | held d | timed d t => exact h

namespace Handlers

variable {ι : Type} (H : Handlers ι)

/-- The pool and the smaller machine agree, when handler `i` works with descriptor `fd i`. -/
structure Agrees (fd : ι → Int) (P : Pool procSig ι Proc Exchange) (T : Traffic ι) : Prop where
  /-- No call will fail. -/
  faults : P.state.faults = []
  /-- The path is not a directory. -/
  isDir : P.state.fs.isDir H.path = false
  /-- A missing file can be created. -/
  parent : P.state.fs.look H.path = none → P.state.fs.isDir (parent H.path) = true
  /-- The file. -/
  file : content H.path P.state = T.file
  /-- Every handler is in its phase. -/
  left : ∀ i, Left (H.job i) (H.junk i) H.path (fd i) (T.phase i) (P.prog i)
  /-- Its descriptor is what the phase says. -/
  owns : ∀ i, (T.phase i).Owns H.path P.state.fs (fd i)
  /-- No two handlers share a descriptor. -/
  apart : ∀ i j, (T.phase i).IsOpen → (T.phase j).IsOpen → fd i = fd j → i = j

theorem agrees_start {s : Proc} (hr : H.Ready s) :
    H.Agrees (fun _ => 0) (H.start s) (Traffic.start (content H.path s)) where
  faults := hr.faults
  isDir := hr.isDir
  parent := hr.parent
  file := rfl
  left _ := Left.start _ _ rfl
  owns _ := trivial
  apart _ _ h _ _ := h.elim

variable [DecidableEq ι]

/-- A step of the pool is a step of the smaller machine, and the other way round. -/
theorem step_rel {P : Pool procSig ι Proc Exchange} {T : Traffic ι} (e : ι × Timespec)
    (h : ∃ fd, H.Agrees fd P T) :
    Option.Rel (fun P T => ∃ fd, H.Agrees fd P T) (step P e) (T.step H e) := by
  obtain ⟨fd, h⟩ := h
  obtain ⟨i, now⟩ := e
  have hfile : content H.path (setClock now P.state) = T.file := h.file
  have howns : (T.phase i).Owns H.path (setClock now P.state).fs (fd i) := h.owns i
  cases hn : (H.job i).next (H.junk i) now T.file (T.phase i) with
  | none =>
      rw [← hfile] at hn
      obtain ⟨x, -, hret⟩ := (h.left i).ends howns hn
      rw [hfile] at hn
      simp only [step, Pool.step_of_ret hret, Traffic.step, hn, Option.map_none]
      exact Option.Rel.none
  | some out =>
      obtain ⟨file, φ'⟩ := out
      rw [← hfile] at hn
      obtain ⟨c, k, r, s', fd', hop, hexec, hcont, hm⟩ :=
        (h.left i).moves howns h.faults h.isDir h.parent hn
      rw [hfile] at hn
      simp only [step, Pool.step_of_op hop, Traffic.step, hn, Option.map_some, hexec]
      have hother : ∀ j, j ≠ i → (T.phase j).Owns H.path s'.fs (fd j) ∧
          ((T.phase j).IsOpen → φ'.IsOpen → fd j ≠ fd') := by
        intro j hj
        refine ⟨hm.keeps_owns (h.owns j) fun ho hi he => hj (h.apart j i ho hi he), ?_⟩
        intro ho hi
        obtain ⟨off, hh⟩ := (h.owns j).holds ho
        exact (hm.keeps _ _ _ _ (fun hi he => hj (h.apart j i ho hi he)) hh).2 hi
      refine Option.Rel.some ⟨Function.update fd i fd', ⟨hm.faults, ?_, ?_, hcont, ?_, ?_, ?_⟩⟩
      · rw [hm.isDir]
        exact h.isDir
      · intro hl
        rw [hm.isDir]
        exact h.parent (not_imp_not.mp hm.file hl)
      · intro j
        by_cases hj : j = i
        · subst hj
          simpa only [Function.update_self] using hm.left
        · simpa only [Function.update_of_ne hj] using h.left j
      · intro j
        by_cases hj : j = i
        · subst hj
          simpa only [Function.update_self] using hm.owns
        · simpa only [Function.update_of_ne hj] using (hother j hj).1
      · intro j l
        by_cases hj : j = i <;> by_cases hl : l = i
        · intro _ _ _
          exact hj.trans hl.symm
        · subst hj
          simp only [Function.update_self, Function.update_of_ne hl]
          exact fun hi ho he => absurd he.symm ((hother l hl).2 ho hi)
        · subst hl
          simp only [Function.update_self, Function.update_of_ne hj]
          exact fun ho hi he => absurd he ((hother j hj).2 ho hi)
        · simp only [Function.update_of_ne hj, Function.update_of_ne hl]
          exact h.apart j l

end Handlers

/-! Two handlers of the sample file. -/

/-- A fetch, and a store of one byte. -/
def sampleHandlers : Handlers Bool where
  job i := if i then .store ⟨1, [2], by decide⟩ else .fetch
  junk _ := .zero
  root_path := sample.root_path
  request_path := sampleFile

theorem ready_sampleHandlers : sampleHandlers.Ready sampleBoot.server where
  faults := rfl
  isDir := by decide
  parent h := by cases h

/-- The calls of the two handlers in order, at times one nanosecond apart. -/
def sampleTurns (l : List Bool) : List (Bool × Timespec) :=
  l.zipIdx.map fun e => (e.1, sampleTime 1 e.2)

end Afs
