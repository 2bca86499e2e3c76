import Afs.Core.Beside
import Afs.Core.Readers
import Afs.Core.Descriptors
import Afs.Ops.Attempts
import Afs.Ops.ClientOps

/-!
# A thread beside a reading one

Two threads of a client have one table of descriptors and two error numbers. While one of them reads a
cached file, the other one finds at most a descriptor more than it left. The rules here step its program
command by command and follow the copy, its own descriptors, and the descriptor of the reader.
-/

namespace Afs

open Posix Interaction

/-- The machine of a thread whose error number is kept beside the state. -/
def Env.other (env : Env) : Machine clientSig (Int × St) := fun c x =>
  let out := env.exec c (x.2.withErrno x.1)
  (out.1, out.2.client.proc.errno, out.2.withErrno x.2.client.proc.errno)

/-- What the other thread finds: the descriptor that the reader has opened, if it has, its own error
number, and the state. -/
abbrev Moment := Option Int × Int × St

namespace Moment

/-- The client's disk. -/
abbrev disk (x : Moment) : Fs := x.2.2.disk

/-- What the reader does meanwhile: it sets its own error number, and opens the copy once. -/
def Acts (copy : Path) (x y : Moment) : Prop :=
  ∃ e t, y.2 = (x.2.1, (x.2.2.withDisk t).withErrno e) ∧
    (y.1 = x.1 ∧ t = x.disk ∨
      x.1 = none ∧ ∃ fd, y.1 = some fd ∧ x.disk.openFile copy {} 0 = .ok (fd, t))

/-- What the reader sees after `n` commands of the other thread: the copy has the bytes of that stage,
and an open descriptor is on the copy, or on a file without a name that has the bytes `lost`. -/
structure Shows (copy : Path) (lost : Option Bytes) (stage : Nat → Option Bytes) (n : Nat) (x : Moment) :
    Prop where
  faults : x.2.2.client.proc.faults = []
  plain : x.disk.isDir copy = false
  content : (x.disk.look copy).map (·.bytes) = stage n
  reader : ∀ fd, x.1 = some fd → x.disk.Reads fd copy lost

variable {copy : Path} {lost : Option Bytes} {stage : Nat → Option Bytes} {x y z : Moment} {n : Nat}

theorem Acts.refl (copy : Path) (x : Moment) : Acts copy x x :=
  ⟨x.2.2.client.proc.errno, x.disk, rfl, Or.inl ⟨rfl, rfl⟩⟩

theorem Acts.trans (h : Acts copy x y) (k : Acts copy y z) : Acts copy x z := by
  obtain ⟨e, t, hy, hxy⟩ := h
  obtain ⟨e', t', hz, hyz⟩ := k
  have hdisk : y.disk = t := congrArg (fun v => v.2.disk) hy
  refine ⟨e', t', by rw [hz, hy]; rfl, ?_⟩
  rw [hdisk] at hyz
  rcases hxy with ⟨hg, rfl⟩ | ⟨hg, fd, hfd, ho⟩
  · rwa [hg] at hyz
  · rcases hyz with ⟨hg', rfl⟩ | ⟨hn, -⟩
    · exact Or.inr ⟨hg, fd, hg'.trans hfd, ho⟩
    · rw [hfd] at hn
      cases hn

end Moment

/-- Between commands of the other thread: it is as if it had come from `u` alone, but for the disk and the
error numbers. The names stand for `files`, and `own` are the descriptors that it has open. -/
structure Amid (copy : Path) (lost : Option Bytes) (u : St) (files : Path → Option File)
    (own : List (Int × Path × Nat × Bool)) (x : Moment) : Prop where
  alike : u.Alike x.2.2
  table : x.2.2.client.ht = u.client.ht
  faults : x.2.2.client.proc.faults = []
  plain : u.disk.isDir copy = false
  isDir : x.disk.isDir = u.disk.isDir
  look : x.disk.look = files
  own : ∀ h ∈ own, x.disk.Holds h.1 h.2.1 h.2.2.1 h.2.2.2 ∧ x.1 ≠ some h.1
  reader : ∀ fd, x.1 = some fd → x.disk.Reads fd copy lost

/-- Whenever it is the reader's turn, the program of the other thread has come to the stage that its number
of commands says. -/
abbrev Stages {α : Type} (env : Env) (copy : Path) (lost : Option Bytes) (stage : Nat → Option Bytes)
    (p : Prog clientSig α) (n : Nat) (x : Moment) : Prop :=
  p.Passes env.other (Moment.Acts copy) (Moment.Shows copy lost stage) n x

namespace Amid

variable {copy : Path} {lost : Option Bytes} {u : St} {files : Path → Option File}
  {own : List (Int × Path × Nat × Bool)} {x y : Moment} {env : Env} {stage : Nat → Option Bytes} {n : Nat}
  {α : Type}

/-- A descriptor from an open that succeeds is not the reader's. -/
theorem fresh {q : Path} {fl : Flags} {mode : Nat} {fd : Int} {t : Fs}
    (h : Amid copy lost u files own x) (ho : x.disk.openFile q fl mode = .ok (fd, t)) :
    x.1 ≠ some fd := by
  intro he
  exact (Fs.held_openFile ho).2.1 (h.reader fd he).getFd

/-- The reader's actions change nothing of this. -/
theorem act (h : Amid copy lost u files own x) (hxy : Moment.Acts copy x y) :
    Amid copy lost u files own y := by
  obtain ⟨e, t, hy, hopen⟩ := hxy
  have hdisk : y.disk = t := congrArg (fun v => v.2.disk) hy
  have halike : u.Alike y.2.2 := by
    rw [hy]
    exact ⟨h.alike.server, h.alike.net, h.alike.inflight, h.alike.retries⟩
  have htable : y.2.2.client.ht = u.client.ht := by
    rw [hy]
    exact h.table
  have hfaults : y.2.2.client.proc.faults = [] := by
    rw [hy]
    exact h.faults
  rcases hopen with ⟨hg, rfl⟩ | ⟨hg, fd, hfd, ho⟩
  · refine ⟨halike, htable, hfaults, h.plain, by rw [hdisk, h.isDir], by rw [hdisk, h.look], ?_, ?_⟩
    · rw [hdisk, hg]
      exact h.own
    · rw [hdisk, hg]
      exact h.reader
  · have hex : ∃ f, x.disk.look copy = some f := by
      cases hl : x.disk.look copy with
      | some f => exact ⟨f, rfl⟩
      | none =>
          cases hd : x.disk.isDir copy with
          | false =>
              rw [Fs.openFile_missing hl hd {} rfl 0] at ho
              cases ho
          | true =>
              unfold Fs.isDir at hd
              split at hd
              · next hdir =>
                simp only [Fs.openFile, hdir] at ho
                cases ho
              · cases hd
    obtain ⟨f, hf⟩ := hex
    obtain ⟨fd', t', ho', -, hh, hs, hk⟩ := Fs.openFile_of_look hf {} rfl 0
    obtain ⟨rfl, rfl⟩ := Prod.mk.inj (Except.ok.inj (ho.symm.trans ho'))
    refine ⟨halike, htable, hfaults, h.plain, by rw [hdisk, hs.isDir, h.isDir], by rw [hdisk, hs.look, h.look],
      fun g hg' => ?_, fun g hg' => ?_⟩
    · obtain ⟨hne, hold⟩ := hk _ _ _ _ (h.own g hg').1
      rw [hdisk, hfd]
      exact ⟨hold, fun he => hne (Option.some.inj he).symm⟩
    · obtain rfl := Option.some.inj (hfd.symm.trans hg')
      rw [hdisk]
      exact hh.reads lost

/-- What the reader sees of this. -/
theorem shows (h : Amid copy lost u files own x)
    (hstage : (files copy).map (·.bytes) = stage n) : x.Shows copy lost stage n :=
  ⟨h.faults, by rw [h.isDir, h.plain], by rw [h.look, hstage], h.reader⟩

/-- A file that the names stand for, on the disk. -/
theorem look_eq {q : Path} {f : File} (h : Amid copy lost u files own x) (hq : files q = some f) :
    x.disk.look q = some f := by rw [h.look, hq]

/-- The end of the program. -/
theorem finish {a : α} (h : Amid copy lost u files own x)
    (hstage : ∀ j, n ≤ j → (files copy).map (·.bytes) = stage j) :
    Stages env copy lost stage (Prog.ret a : Prog clientSig α) n x :=
  Prog.Passes.ret fun _ hy j hj => (h.act hy).shows (hstage j hj)

/-- A system call that succeeds wherever the other facts hold. -/
theorem call_sys {c : Sys} {f : c.Res → Prog clientSig α} (h : Amid copy lost u files own x)
    (hstage : (files copy).map (·.bytes) = stage n)
    (hk : ∀ y, Amid copy lost u files own y → ∃ r t files' own', c.perform none y.disk = .ok (r, t) ∧
      (∀ fd, y.1 = some fd → c.LeavesReader fd copy lost y.disk) ∧ y.disk.Steps t files' ∧
      (∀ h ∈ own', t.Holds h.1 h.2.1 h.2.2.1 h.2.2.2 ∧ y.1 ≠ some h.1) ∧
      ∀ z, Amid copy lost u files' own' z →
        Stages env copy lost stage (f r) (n + 1) z) :
    Stages env copy lost stage (Client.sys c >>= f) n x := by
  refine Prog.Passes.call fun y hy => ?_
  have hnow := h.act hy
  obtain ⟨r, t, files', own', hp, hleaves, hs, hown, hnext⟩ := hk y hnow
  have hexec : env.other (.sys c) y.2 = (r, y.2.1, y.2.2.withDisk t) := by
    have hf : (y.2.2.withErrno y.2.1).client.proc.faults = [] := hnow.faults
    simp only [Env.other, Env.exec_sys (s := y.2.2.withErrno y.2.1) hf hp]
    rfl
  rw [hexec]
  refine ⟨hnow.shows hstage, hnext _ ?_⟩
  exact
    { alike := ⟨hnow.alike.server, hnow.alike.net, hnow.alike.inflight, hnow.alike.retries⟩
      table := hnow.table
      faults := hnow.faults
      plain := hnow.plain
      isDir := hs.isDir.trans hnow.isDir
      look := hs.look
      own := hown
      reader := fun fd hfd => Sys.perform_reads (hleaves fd hfd) (hnow.reader fd hfd) hp }

section Calls

variable {q : Path} {g : File} {fd : Int} {rest : List (Int × Path × Nat × Bool)} {off : Nat} {app : Bool}

/-- Other files are made or emptied. -/
theorem call_make {f : Int → Prog clientSig α} {mode : Nat} (h : Amid copy lost u files own x)
    (hstage : (files copy).map (·.bytes) = stage n) (hd : u.disk.isDir q = false)
    (hpar : u.disk.isDir (parent q) = true)
    (hk : ∀ fd g z, 0 ≤ fd → (∀ o ∈ own, o.1 ≠ fd) → g.bytes = [] →
      Amid copy lost u (Function.update files q (some g)) ((fd, q, 0, false) :: own) z →
        Stages env copy lost stage (f fd) (n + 1) z) :
    Stages env copy lost stage (Client.sys (.openF q { creat := true, trunc := true } mode) >>= f) n x := by
  refine h.call_sys hstage fun y hy => ?_
  obtain ⟨fd, t, g, ho, h0, hh, hs, hg, -, hk'⟩ := Fs.openFile_trunc (s := y.disk)
    (by rw [hy.isDir, hd]) (fun _ => by rw [hy.isDir, hpar]) { creat := true, trunc := true } rfl rfl mode
  rw [hy.look] at hs
  refine ⟨(fd : Int), t, _, _, ho, fun _ _ => trivial, hs, ?_,
    fun z hz => hk fd g z h0 (fun o hm => (hk' _ _ _ _ (hy.own o hm).1).1) hg hz⟩
  rw [List.forall_mem_cons]
  exact ⟨⟨hh, hy.fresh ho⟩, fun o hm => ⟨(hk' _ _ _ _ (hy.own o hm).1).2, (hy.own o hm).2⟩⟩

/-- A file that is there is opened with `O_APPEND`. -/
theorem call_open {f : Int → Prog clientSig α} {mode : Nat} (h : Amid copy lost u files own x)
    (hstage : (files copy).map (·.bytes) = stage n) (hq : files q = some g)
    (hk : ∀ fd z, 0 ≤ fd → (∀ o ∈ own, o.1 ≠ fd) → Amid copy lost u files ((fd, q, 0, true) :: own) z →
      Stages env copy lost stage (f fd) (n + 1) z) :
    Stages env copy lost stage (Client.sys (.openF q { append := true } mode) >>= f) n x := by
  refine h.call_sys hstage fun y hy => ?_
  obtain ⟨fd, t, ho, h0, hh, hs, hk'⟩ := Fs.openFile_of_look (hy.look_eq hq) { append := true } rfl mode
  rw [hy.look] at hs
  refine ⟨(fd : Int), t, _, _, ho, fun _ _ => trivial, hs, ?_,
    fun z hz => hk fd z h0 (fun o hm => (hk' _ _ _ _ (hy.own o hm).1).1) hz⟩
  rw [List.forall_mem_cons]
  exact ⟨⟨hh, hy.fresh ho⟩, fun o hm => ⟨(hk' _ _ _ _ (hy.own o hm).1).2, (hy.own o hm).2⟩⟩

theorem call_lstat {f : Option Stat → Prog clientSig α} (h : Amid copy lost u files own x)
    (hstage : (files copy).map (·.bytes) = stage n) (hq : files q = some g)
    (hk : ∀ i z, Amid copy lost u files own z →
      Stages env copy lost stage (f (some (g.stat i))) (n + 1) z) :
    Stages env copy lost stage (Client.sys (.lstat q) >>= f) n x := by
  refine h.call_sys hstage fun y hy => ?_
  obtain ⟨i, hst⟩ := Fs.lstat_of_look (hy.look_eq hq)
  have hs := Fs.Steps.refl y.disk
  rw [hy.look] at hs
  exact ⟨some (g.stat i), y.disk, _, own, perform_lstat hst, fun _ _ => trivial, hs, hy.own,
    fun z hz => hk i z hz⟩

theorem call_fsync {f : Int → Prog clientSig α} (h : Amid copy lost u files ((fd, q, off, app) :: rest) x)
    (hstage : (files copy).map (·.bytes) = stage n)
    (hk : ∀ z, Amid copy lost u files ((fd, q, off, app) :: rest) z →
      Stages env copy lost stage (f 0) (n + 1) z) :
    Stages env copy lost stage (Client.sys (.fsync fd) >>= f) n x := by
  refine h.call_sys hstage fun y hy => ?_
  have hs := Fs.Steps.refl y.disk
  rw [hy.look] at hs
  exact ⟨(0 : Int), y.disk, _, _, Fs.fsync_of_holds (hy.own _ List.mem_cons_self).1, fun _ _ => trivial, hs,
    hy.own, hk⟩

/-- Descriptors other than the first. -/
private theorem others {t : Fs} (h : Amid copy lost u files ((fd, q, off, app) :: rest) x)
    (hne : ∀ o ∈ rest, o.1 ≠ fd) (hk : x.disk.Keeps t fd) :
    ∀ o ∈ rest, t.Holds o.1 o.2.1 o.2.2.1 o.2.2.2 ∧ x.1 ≠ some o.1 := by
  intro o hm
  obtain ⟨hh, hr⟩ := h.own o (List.mem_cons_of_mem _ hm)
  exact ⟨hk _ _ _ _ (hne o hm) hh, hr⟩

/-- The first descriptor is not the reader's. -/
private theorem reader_ne (h : Amid copy lost u files ((fd, q, off, app) :: rest) x) :
    ∀ r, x.1 = some r → r ≠ fd := by
  rintro r hr rfl
  exact (h.own _ List.mem_cons_self).2 hr

theorem call_read {f : Option Bytes → Prog clientSig α} {m : Nat}
    (h : Amid copy lost u files ((fd, q, off, app) :: rest) x)
    (hstage : (files copy).map (·.bytes) = stage n) (hq : files q = some g) (hne : ∀ o ∈ rest, o.1 ≠ fd)
    (hk : ∀ z, Amid copy lost u files ((fd, q, off + (slice g.bytes off m).length, app) :: rest) z →
      Stages env copy lost stage (f (some (slice g.bytes off m))) (n + 1) z) :
    Stages env copy lost stage (Client.sys (.read fd m) >>= f) n x := by
  refine h.call_sys hstage fun y hy => ?_
  obtain ⟨hh, hr⟩ := hy.own _ List.mem_cons_self
  obtain ⟨t, hread, hs, hk', hh'⟩ := Fs.read_of_holds hh (hy.look_eq hq) m
  rw [hy.look] at hs
  have hp : Sys.perform none (.read fd m) y.disk = .ok (some (slice g.bytes off m), t) := by
    change (y.disk.read fd m).map _ = _
    rw [hread]
    rfl
  refine ⟨_, t, _, _, hp, hy.reader_ne, hs, ?_, hk⟩
  rw [List.forall_mem_cons]
  exact ⟨⟨hh', hr⟩, hy.others hne hk'⟩

/-- A write of the start of a memory into an empty file. -/
theorem call_fill {f : Int → Prog clientSig α} {d mem : Bytes} {m : Nat}
    (h : Amid copy lost u files ((fd, q, 0, app) :: rest) x)
    (hstage : (files copy).map (·.bytes) = stage n) (hq : files q = some g) (hg : g.bytes = [])
    (hm : m = d.length) (hd : d <+: mem) (hne : ∀ o ∈ rest, o.1 ≠ fd)
    (hk : ∀ g' z, g'.bytes = d →
      Amid copy lost u (Function.update files q (some g')) ((fd, q, d.length, app) :: rest) z →
        Stages env copy lost stage (f d.length) (n + 1) z) :
    Stages env copy lost stage (Client.sys (.write fd mem m) >>= f) n x := by
  refine h.call_sys hstage fun y hy => ?_
  obtain ⟨hh, hr⟩ := hy.own _ List.mem_cons_self
  obtain ⟨t, g', hw, hs, hg', -, hk', hh'⟩ := Fs.write_of_empty hh (hy.look_eq hq) hg d
  rw [hy.look] at hs
  refine ⟨(d.length : Int), t, _, _, perform_write hm hd hw,
    fun r hr' => ⟨hy.reader_ne r hr', hh.named⟩, hs, ?_, fun z hz => hk g' z hg' hz⟩
  rw [List.forall_mem_cons]
  exact ⟨⟨hh', hr⟩, hy.others hne hk'⟩

theorem call_pwrite {f : Int → Prog clientSig α} {d : Bytes} {at_ : Nat}
    (h : Amid copy lost u files ((fd, q, off, app) :: rest) x)
    (hstage : (files copy).map (·.bytes) = stage n) (hq : files q = some g) (hd : d ≠ [])
    (hk : ∀ g' z, g'.bytes = splice g.bytes at_ d →
      Amid copy lost u (Function.update files q (some g')) ((fd, q, off, app) :: rest) z →
        Stages env copy lost stage (f d.length) (n + 1) z) :
    Stages env copy lost stage (Client.sys (.pwrite fd d d.length at_) >>= f) n x := by
  refine h.call_sys hstage fun y hy => ?_
  obtain ⟨hh, -⟩ := hy.own _ List.mem_cons_self
  obtain ⟨t, hw, hs, hk'⟩ := Fs.pwrite_of_holds hh (hy.look_eq hq) hd at_
  rw [hy.look] at hs
  exact ⟨(d.length : Int), t, _, _, perform_pwrite hw, fun _ _ => hh.named, hs,
    fun o hm => ⟨hk' _ _ _ _ (hy.own o hm).1, (hy.own o hm).2⟩, fun z hz => hk _ z rfl hz⟩

theorem call_close {f : Int → Prog clientSig α} (h : Amid copy lost u files ((fd, q, off, app) :: rest) x)
    (hstage : (files copy).map (·.bytes) = stage n) (hne : ∀ o ∈ rest, o.1 ≠ fd)
    (hk : ∀ z, Amid copy lost u files rest z →
      Stages env copy lost stage (f 0) (n + 1) z) :
    Stages env copy lost stage (Client.sys (.close fd) >>= f) n x := by
  refine h.call_sys hstage fun y hy => ?_
  obtain ⟨t, hc, hs, hk'⟩ := Fs.close_of_holds (hy.own _ List.mem_cons_self).1
  rw [hy.look] at hs
  exact ⟨(0 : Int), t, _, _, hc, hy.reader_ne, hs, hy.others hne hk', hk⟩

/-- The copy goes; from here on a reader that has it open is on a file without a name. -/
theorem call_remove {f : Int → Prog clientSig α} (h : Amid copy lost u files [] x)
    (hstage : (files copy).map (·.bytes) = stage n) (hq : files copy = some g) (hlost : lost = some g.bytes)
    (hk : ∀ z, Amid copy lost u (Function.update files copy none) [] z →
      Stages env copy lost stage (f 0) (n + 1) z) :
    Stages env copy lost stage (Client.sys (.remove copy) >>= f) n x := by
  refine h.call_sys hstage fun y hy => ?_
  obtain ⟨t, hun, hs, -⟩ := Fs.unlink_of_look (hy.look_eq hq)
  rw [← Fs.remove_eq_unlink (by rw [hy.isDir, hy.plain])] at hun
  rw [hy.look] at hs
  refine ⟨(0 : Int), t, _, [], hun, fun _ _ _ => ?_, hs, List.forall_mem_nil _, hk⟩
  rw [hy.look_eq hq, hlost, Option.map_some]

/-- Another file takes the free name of the copy. -/
theorem call_rename {f : Int → Prog clientSig α} (h : Amid copy lost u files [] x)
    (hstage : (files copy).map (·.bytes) = stage n) (hq : files q = some g) (hfree : files copy = none)
    (hne : q ≠ copy)
    (hk : ∀ z, Amid copy lost u (Function.update (Function.update files q none) copy (some g)) [] z →
      Stages env copy lost stage (f 0) (n + 1) z) :
    Stages env copy lost stage (Client.sys (.rename q copy) >>= f) n x := by
  refine h.call_sys hstage fun y hy => ?_
  obtain ⟨t, hrn, hs⟩ := Fs.rename_of_look (hy.look_eq hq) (by rw [hy.isDir, hy.plain]) hne
  rw [hy.look] at hs
  refine ⟨(0 : Int), t, _, [], hrn, fun _ _ => ⟨hne, fun _ => ?_⟩, hs, List.forall_mem_nil _, hk⟩
  rw [hy.look, hfree]

/-- A file is emptied through a descriptor. -/
theorem call_ftruncate {f : Int → Prog clientSig α}
    (h : Amid copy lost u files ((fd, q, off, app) :: rest) x)
    (hstage : (files copy).map (·.bytes) = stage n) (hq : files q = some g)
    (hk : ∀ g' z, g'.bytes = [] →
      Amid copy lost u (Function.update files q (some g')) ((fd, q, off, app) :: rest) z →
        Stages env copy lost stage (f 0) (n + 1) z) :
    Stages env copy lost stage (Client.sys (.ftruncate fd 0) >>= f) n x := by
  refine h.call_sys hstage fun y hy => ?_
  obtain ⟨hh, -⟩ := hy.own _ List.mem_cons_self
  obtain ⟨t, htr, hs, hk'⟩ := Fs.ftruncate_zero_of_holds hh (hy.look_eq hq)
  rw [hy.look] at hs
  exact ⟨(0 : Int), t, _, _, htr, fun _ _ => hh.named, hs,
    fun o hm => ⟨hk' _ _ _ _ (hy.own o hm).1, (hy.own o hm).2⟩, fun z hz => hk _ z rfl hz⟩

/-- A call that fails for a reason of its own sets the error number of its thread. -/
theorem call_fails {c : Sys} {f : c.Res → Prog clientSig α} (h : Amid copy lost u files own x)
    (hstage : (files copy).map (·.bytes) = stage n)
    (hc : ∀ y, Amid copy lost u files own y → ∃ e, c.perform none y.disk = .error e)
    (hk : ∀ z, Amid copy lost u files own z → Stages env copy lost stage (f c.failed) (n + 1) z) :
    Stages env copy lost stage (Client.sys c >>= f) n x := by
  refine Prog.Passes.call fun y hy => ?_
  have hnow := h.act hy
  obtain ⟨e, he⟩ := hc y hnow
  have hexec : env.other (.sys c) y.2 = (c.failed, e, y.2.2) := by
    have hf : (y.2.2.withErrno y.2.1).client.proc.faults = [] := hnow.faults
    simp only [Env.other, Env.exec_sys_error (s := y.2.2.withErrno y.2.1) hf he]
    rfl
  rw [hexec]
  refine ⟨hnow.shows hstage, hk _ ?_⟩
  exact
    { alike := hnow.alike
      table := hnow.table
      faults := hnow.faults
      plain := hnow.plain
      isDir := hnow.isDir
      look := hnow.look
      own := hnow.own
      reader := hnow.reader }

/-- A remote call in its retry loop gives what it would have given alone. -/
theorem call_retried {r : Request} {f : Option r.Reply → Prog clientSig α}
    (h : Amid copy lost u files own x) (hstage : (files copy).map (·.bytes) = stage n)
    (hk : ∀ z, Amid copy lost (env.exec (.retried r) u).2 files own z →
      Stages env copy lost stage (f (env.exec (.retried r) u).1) (n + 1) z) :
    Stages env copy lost stage (Client.retried r >>= f) n x := by
  refine Prog.Passes.call fun y hy => ?_
  have hnow := h.act hy
  have halike : u.Alike (y.2.2.withErrno y.2.1) :=
    ⟨hnow.alike.server, hnow.alike.net, hnow.alike.inflight, hnow.alike.retries⟩
  obtain ⟨hres, hnext⟩ := Env.exec_retried_alike env r halike
  have hwaits : (y.2.2.withErrno y.2.1).client.Waits
      (env.exec (.retried r) (y.2.2.withErrno y.2.1)).2.client := Env.retryLoop_client env _ _ _
  have halone : u.client.Waits (env.exec (.retried r) u).2.client := Env.retryLoop_client env _ _ _
  refine ⟨hnow.shows hstage, ?_⟩
  change Stages env copy lost stage (f (env.exec (.retried r) (y.2.2.withErrno y.2.1)).1) (n + 1) _
  rw [← hres]
  refine hk _ ?_
  have hdisk : Moment.disk (y.1, (env.other (.retried r) y.2).2) = Moment.disk y := hwaits.fs
  have hold : (env.exec (.retried r) u).2.disk = u.disk := halone.fs
  exact
    { alike := ⟨hnext.server, hnext.net, hnext.inflight, hnext.retries⟩
      table := (hwaits.table.trans hnow.table).trans halone.table.symm
      faults := hwaits.faults.trans hnow.faults
      plain := by rw [hold, hnow.plain]
      isDir := (congrArg Fs.isDir hdisk).trans (hnow.isDir.trans (congrArg Fs.isDir hold.symm))
      look := (congrArg Fs.look hdisk).trans hnow.look
      own := fun o hm => ⟨hdisk ▸ (hnow.own o hm).1, (hnow.own o hm).2⟩
      reader := fun fd hfd => hdisk ▸ hnow.reader fd hfd }

end Calls

/-- The order of the descriptors does not matter. -/
theorem swap {a b : Int × Path × Nat × Bool} {rest : List (Int × Path × Nat × Bool)}
    (h : Amid copy lost u files (a :: b :: rest) x) : Amid copy lost u files (b :: a :: rest) x :=
  { h with own := fun o hm => h.own o ((List.Perm.swap a b rest).mem_iff.mp hm) }

theorem call_get {p : Path} {f : Int64 → Prog clientSig α} (h : Amid copy lost u files own x)
    (hstage : (files copy).map (·.bytes) = stage n)
    (hk : ∀ z, Amid copy lost u files own z →
      Stages env copy lost stage (f (u.client.ht.get p)) (n + 1) z) :
    Stages env copy lost stage (Client.get p >>= f) n x := by
  refine Prog.Passes.call fun y hy => ?_
  have hnow := h.act hy
  refine ⟨hnow.shows hstage, ?_⟩
  change Stages env copy lost stage (f (y.2.2.client.ht.get p)) (n + 1) y
  rw [hnow.table]
  exact hk y hnow

theorem call_table {f : HashTable → Prog clientSig α} (h : Amid copy lost u files own x)
    (hstage : (files copy).map (·.bytes) = stage n)
    (hk : ∀ z, Amid copy lost u files own z → Stages env copy lost stage (f u.client.ht) (n + 1) z) :
    Stages env copy lost stage (Client.table >>= f) n x := by
  refine Prog.Passes.call fun y hy => ?_
  have hnow := h.act hy
  refine ⟨hnow.shows hstage, ?_⟩
  change Stages env copy lost stage (f y.2.2.client.ht) (n + 1) y
  rw [hnow.table]
  exact hk y hnow

theorem call_put {key value : Int64} {f : Unit → Prog clientSig α} (h : Amid copy lost u files own x)
    (hstage : (files copy).map (·.bytes) = stage n)
    (hk : ∀ z, Amid copy lost (u.withTable (u.client.ht.put key value)) files own z →
      Stages env copy lost stage (f ()) (n + 1) z) :
    Stages env copy lost stage (Client.put key value >>= f) n x := by
  refine Prog.Passes.call fun y hy => ?_
  have hnow := h.act hy
  refine ⟨hnow.shows hstage, hk _ ?_⟩
  exact
    { alike := ⟨hnow.alike.server, hnow.alike.net, hnow.alike.inflight, hnow.alike.retries⟩
      table := congrArg (HashTable.put · key value) hnow.table
      faults := hnow.faults
      plain := hnow.plain
      isDir := hnow.isDir
      look := hnow.look
      own := hnow.own
      reader := hnow.reader }

/-- A value is recorded and the table is written out. -/
theorem call_record {p dir : Path} {value : Int64} {f : Unit → Prog clientSig α}
    (h : Amid copy lost u files own x) (hdir : FlatDir dir u.disk)
    (hne : getLocalPath databasePath dir ≠ copy)
    (hstage : ∀ j, j < 5 → (files copy).map (·.bytes) = stage (n + j))
    (hk : ∀ g z, Amid copy lost (u.withTable (u.client.ht.put (hashKey p) value))
        (Function.update files (getLocalPath databasePath dir) (some g)) own z →
      Stages env copy lost stage (f ()) (n + 5) z) :
    Stages env copy lost stage (Client.record p dir value >>= f) n x := by
  have hstay : ∀ (g : Option File) j, j < 5 →
      (Function.update files (getLocalPath databasePath dir) g copy).map (·.bytes) = stage (n + j) := by
    intro g j hj
    rw [Function.update_of_ne hne.symm]
    exact hstage j hj
  simp only [Client.record, Client.dump, Prog.bind_assoc, Prog.pure_eq]
  refine h.call_put (hstage 0 (by omega)) fun z1 h1 => ?_
  refine h1.call_make (hstage 1 (by omega)) (hdir.isDir_local rootLevel_database)
    (hdir.parent_local rootLevel_database) fun fd g z2 h0 hfd hg h2 => ?_
  have hopen : fd ≠ -1 := by omega
  simp only [hopen, if_false]
  refine h2.call_table (hstay _ 2 (by omega)) fun z3 h3 => ?_
  refine h3.call_fill (hstay _ 3 (by omega)) (Function.update_self ..) hg rfl List.prefix_rfl hfd
    fun g' z4 _ h4 => ?_
  rw [Function.update_idem] at h4
  exact h4.call_close (hstay _ 4 (by omega)) hfd fun z5 h5 => hk g' z5 h5

end Amid

end Afs
