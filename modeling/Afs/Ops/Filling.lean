import Afs.Core.Faults
import Afs.Ops.Opening
import Afs.Ops.Replies
import Afs.Ops.Writing

/-!
# A write whose calls fail

The calls of a write up to the positioned write may fail or move only a part of their bytes. The
temporary file is then made or not, gets some bytes of the copy, and some bytes of the buffer. What
follows goes on as if nothing had happened.
-/

namespace Afs

open Posix Interaction

/-- The fault that the call number `k` meets. -/
def fault (fs : List Fault) (k : Nat) : Fault := (fs.drop k).headD .ok

/-- After `k` calls: the faults still to come, the names, and the error number if it must be set. -/
structure Midway (fs : List Fault) (k : Nat) (E : Prop) (dirs : Path → Bool)
    (files : Path → Option File) (u : St) : Prop where
  faults : u.client.proc.faults = fs.drop k
  isDir : u.disk.isDir = dirs
  look : u.disk.look = files
  errno : E → 0 < u.client.proc.errno

namespace Midway

variable {env : Env} {fs : List Fault} {k : Nat} {E : Prop} {dirs : Path → Bool}
  {files : Path → Option File} {u : St} {c : Sys}

theorem weaken (h : Midway fs k True dirs files u) : Midway fs k E dirs files u :=
  ⟨h.faults, h.isDir, h.look, fun _ => h.errno trivial⟩

variable {α : Type} {f : c.Res → Prog clientSig α} {Q : α → St → Prop}

/-- A call that succeeds. -/
theorem call_ok (h : Midway fs k E dirs files u) {r : c.Res} {t : Fs}
    (hout : (fault fs k).outcome c u.disk = .ok (r, t))
    (hf : ∀ v, v.disk = t → Midway fs (k + 1) E t.isDir t.look v → Prog.Yields env.exec (f r) v Q) :
    Prog.Yields env.exec (Client.sys c >>= f) u Q := by
  have hexec : c.exec u.client.proc = (r, ⟨t, u.client.proc.errno, u.client.proc.faults.tail⟩) := by
    rw [Sys.exec_eq, h.faults]
    change c.finish _ ((fault fs k).outcome c u.disk) = _
    rw [hout]
    rfl
  refine Prog.Yields.call (r := r) (t := { u with client := { u.client with
    proc := ⟨t, u.client.proc.errno, u.client.proc.faults.tail⟩ } }) ?_ (hf _ rfl ?_)
  · simp only [Env.exec, hexec]
  · refine ⟨?_, rfl, rfl, h.errno⟩
    change u.client.proc.faults.tail = _
    rw [h.faults, List.tail_drop]

/-- A call that fails. -/
theorem call_fails (h : Midway fs k E dirs files u) (hreal : ∀ f ∈ fs, f.Real)
    (hout : ∃ e, (fault fs k).outcome c u.disk = .error e)
    (hf : ∀ v, v.disk = u.disk → Midway fs (k + 1) True dirs files v →
      Prog.Yields env.exec (f c.failed) v Q) :
    Prog.Yields env.exec (Client.sys c >>= f) u Q := by
  obtain ⟨e, hout⟩ := hout
  have hexec : c.exec u.client.proc = (c.failed, ⟨u.disk, e, u.client.proc.faults.tail⟩) := by
    rw [Sys.exec_eq, h.faults]
    change c.finish _ ((fault fs k).outcome c u.disk) = _
    rw [hout]
    rfl
  have hpos := (Fault.outcome_errno (real_headD fun f hf => hreal f (List.mem_of_mem_drop hf)) hout).1
  refine Prog.Yields.call (r := c.failed) (t := { u with client := { u.client with
    proc := ⟨u.disk, e, u.client.proc.faults.tail⟩ } }) ?_ (hf _ rfl ?_)
  · simp only [Env.exec, hexec]
  · refine ⟨?_, h.isDir, h.look, fun _ => hpos⟩
    change u.client.proc.faults.tail = _
    rw [h.faults, List.tail_drop]

/-- A call that changes no file, whatever it gives. -/
theorem call_idle (h : Midway fs k E dirs files u) (hreal : ∀ f ∈ fs, f.Real) (hc : c.ReadsOnly)
    (hf : ∀ r v, Midway fs (k + 1) E dirs files v → Prog.Yields env.exec (f r) v Q) :
    Prog.Yields env.exec (Client.sys c >>= f) u Q := by
  have hlook := Sys.exec_readsOnly hc u.client.proc
  have hdirs : (c.exec u.client.proc).2.fs.isDir = u.client.proc.fs.isDir := by
    apply Sys.exec_isDir
    cases c <;> trivial
  apply Prog.Yields.next
  apply hf
  constructor
  · change (c.exec u.client.proc).2.faults = _
    rw [Sys.exec_tail, h.faults, List.tail_drop]
  · exact hdirs.trans h.isDir
  · exact hlook.trans h.look
  · intro hE
    refine Sys.exec_errno_pos c (fun f hf => ?_) (h.errno hE)
    rw [h.faults] at hf
    exact hreal f (List.mem_of_mem_drop hf)

end Midway

/-- The part of a write after its temporary file was opened. -/
def Client.fillFrom (junk : Junk) (path cache_path : Path) (buffer : Bytes) (offset : Nat) (fd : Int) :
    Prog clientSig Int := do
  Client.copyToTmp junk (getLocalPath path cache_path) fd
  let ret_code : Int ← Client.sys (.pwrite fd buffer buffer.length offset)
  let _ ← Client.sys (.fsync fd)
  let _ ← Client.sys (.close fd)
  return ret_code

theorem Client.fillTmp_eq (junk : Junk) (path cache_path : Path) (buffer : Bytes) (offset : Nat) :
    Client.fillTmp junk path cache_path buffer offset = (do
      let fd : Int ← Client.sys (.openF (getLocalTmpPath path cache_path)
        { creat := true, trunc := true } S_IRWXUG)
      Client.fillFrom junk path cache_path buffer offset fd) := rfl

section Stalled

variable {env : Env} {junk : Junk} {path cache_path : Path} {buffer : Bytes} {offset : Nat}
  {fs : List Fault} {k : Nat} {E : Prop} {dirs : Path → Bool} {files : Path → Option File} {u : St}

/-- A write through no descriptor fails. -/
theorem outcome_write_bad (f : Fault) (mem : Bytes) (n : Nat) (s : Fs) :
    ∃ e, f.outcome (.write (-1) mem n) s = .error e := by
  unfold Fault.outcome
  split
  · exact ⟨_, rfl⟩
  · simp only [Sys.perform]
    split
    · exact ⟨_, rfl⟩
    · exact ⟨EBADF, rfl⟩

theorem outcome_pwrite_bad (f : Fault) (mem : Bytes) (n off : Nat) (s : Fs) :
    ∃ e, f.outcome (.pwrite (-1) mem n off) s = .error e := by
  unfold Fault.outcome
  split
  · exact ⟨_, rfl⟩
  · simp only [Sys.perform]
    split
    · exact ⟨_, rfl⟩
    · exact ⟨EBADF, rfl⟩

/-- Without the temporary file nothing is copied, and the write of the buffer fails. -/
theorem fillFrom_stalled (h : Midway fs k E dirs files u) (hreal : ∀ f ∈ fs, f.Real) :
    Prog.Yields env.exec (Client.fillFrom junk path cache_path buffer offset (-1)) u fun rc v =>
      rc = -1 ∧ Midway fs (k + 8) True dirs files v := by
  have hcopy : Prog.Yields env.exec (Client.copyToTmp junk (getLocalPath path cache_path) (-1)) u
      fun _ v => Midway fs (k + 5) E dirs files v := by
    unfold Client.copyToTmp
    refine h.call_idle hreal (by trivial) fun res v1 h1 => ?_
    refine h1.call_idle hreal (by exact ⟨rfl, rfl⟩) fun fd_main v2 h2 => ?_
    refine h2.call_idle hreal (by trivial) fun got v3 h3 => ?_
    refine h3.call_fails hreal (outcome_write_bad _ _ _ _) fun v4 _ h4 => ?_
    refine h4.call_idle hreal (by trivial) fun _ v5 h5 => ?_
    exact Prog.Yields.ret h5.weaken
  unfold Client.fillFrom
  apply Prog.Yields.bind hcopy
  intro _ v h
  refine h.call_fails hreal (outcome_pwrite_bad _ _ _ _ _) fun v6 _ h6 => ?_
  refine h6.call_idle hreal (by trivial) fun _ v7 h7 => ?_
  refine h7.call_idle hreal (by trivial) fun _ v8 h8 => ?_
  exact Prog.Yields.ret ⟨rfl, h8⟩

end Stalled

/-! The calls that fill a temporary file that was opened. -/

namespace Midway

variable {env : Env} {fs : List Fault} {k : Nat} {E : Prop} {dirs : Path → Bool}
  {files : Path → Option File} {u : St} {α : Type} {Q : α → St → Prop} {l tmp : Path} {f : File}
  {fd : Int} {off : Nat}

/-- Synchronising and closing another descriptor leave the descriptor. -/
theorem call_leaves (h : Midway fs k E dirs files u) (hreal : ∀ f ∈ fs, f.Real)
    (hfd : u.disk.Holds fd tmp off false) {c : Sys} {f : c.Res → Prog clientSig α}
    (hc : c = .fsync fd ∨ ∃ g, g ≠ fd ∧ c = .close g)
    (hf : ∀ r v, Midway fs (k + 1) E dirs files v → v.disk.Holds fd tmp off false →
      Prog.Yields env.exec (f r) v Q) :
    Prog.Yields env.exec (Client.sys c >>= f) u Q := by
  have hkeeps : ∀ r t, (fault fs k).outcome c u.disk = .ok (r, t) →
      t.isDir = u.disk.isDir ∧ t.look = u.disk.look ∧ t.Holds fd tmp off false := by
    intro r t hout
    unfold Fault.outcome at hout
    split at hout
    · cases hout
    · rcases hc with rfl | ⟨g, hg, rfl⟩
      · simp only [Sys.perform, Fs.fsync] at hout
        split at hout
        · cases hout
        · obtain ⟨-, rfl⟩ := Prod.mk.inj (Except.ok.inj hout)
          exact ⟨rfl, rfl, hfd⟩
      · simp only [Sys.perform, Fs.close] at hout
        split at hout
        · cases hout
        · next o ho =>
          obtain ⟨-, rfl⟩ := Prod.mk.inj (Except.ok.inj hout)
          refine ⟨rfl, rfl, Fs.holds_setFd_other ?_ hg.symm hfd⟩
          rw [ho]
          exact Option.some_ne_none _
  cases hout : (fault fs k).outcome c u.disk with
  | error e =>
      refine h.call_fails hreal ⟨e, hout⟩ fun v hv hm => hf _ v hm.weaken ?_
      rw [hv]
      exact hfd
  | ok x =>
      obtain ⟨hdirs, hlook, hholds⟩ := hkeeps x.1 x.2 hout
      refine h.call_ok hout fun v hv hm => hf _ v ?_ (hv ▸ hholds)
      rw [hdirs, hlook, h.isDir, h.look] at hm
      exact hm

/-- The length of the copy, or the one of an unset structure. -/
theorem call_lstat (h : Midway fs k E dirs files u) (hreal : ∀ f ∈ fs, f.Real)
    (hl : files l = some f) {c : Option Stat → Prog clientSig α}
    (hc : ∀ res v, (∀ d : Stat, (res.getD d).st_size =
        if (fault fs k).error = none then (f.bytes.length : Int) else d.st_size) →
      v.disk = u.disk → Midway fs (k + 1) E dirs files v → Prog.Yields env.exec (c res) v Q) :
    Prog.Yields env.exec (Client.sys (.lstat l) >>= c) u Q := by
  cases he : (fault fs k).error with
  | some e =>
      refine h.call_fails hreal ⟨e, Fault.outcome_of_error he⟩ fun v hv hm => ?_
      exact hc none v (fun d => by rw [he]; rfl) hv hm.weaken
  | none =>
      obtain ⟨i, hst⟩ := Fs.lstat_of_look (h.look ▸ hl : u.disk.look l = some f)
      have hout : (fault fs k).outcome (.lstat l) u.disk = .ok (some (f.stat i), u.disk) := by
        rw [Fault.outcome_of_fine he]
        simp only [Sys.perform, hst]
        rfl
      refine h.call_ok hout fun v hv hm => ?_
      refine hc (some (f.stat i)) v (fun d => by rw [he]; rfl) hv ?_
      rw [h.isDir, h.look] at hm
      exact hm

/-- The copy opened to be read, or no descriptor. -/
theorem call_openOld (h : Midway fs k E dirs files u) (hreal : ∀ f ∈ fs, f.Real)
    (hl : files l = some f) (hfd : u.disk.Holds fd tmp off false) {c : Int → Prog clientSig α}
    (hc : ∀ g v, g ≠ fd → (if (fault fs k).error = none then v.disk.Holds g l 0 true else g = -1) →
      v.disk.Holds fd tmp off false → Midway fs (k + 1) E dirs files v →
      Prog.Yields env.exec (c g) v Q) :
    Prog.Yields env.exec (Client.sys (.openF l { append := true } S_IRWXUG) >>= c) u Q := by
  cases he : (fault fs k).error with
  | some e =>
      refine h.call_fails hreal ⟨e, Fault.outcome_of_error he⟩ fun v hv hm => ?_
      refine hc (-1) v ?_ (by rw [he]; rfl) (by rw [hv]; exact hfd) hm.weaken
      rintro rfl
      exact Fs.getFd_ne_none hfd rfl
  | none =>
      have hlook : u.disk.look l = some f := h.look ▸ hl
      obtain ⟨g, t, ho, -, hg, hs, hk⟩ := Fs.openFile_of_look hlook { append := true } rfl S_IRWXUG
      have hout : (fault fs k).outcome (.openF l { append := true } S_IRWXUG) u.disk =
          .ok ((g : Int), t) := by
        rw [Fault.outcome_of_fine he]
        exact ho
      obtain ⟨hne, hfd'⟩ := hk fd tmp off false hfd
      refine h.call_ok hout fun v hv hm => ?_
      refine hc g v hne.symm ?_ (by rw [hv]; exact hfd') ?_
      · rw [he, if_pos rfl, hv]
        exact hg
      · rw [hs.isDir, hs.look, h.isDir, h.look] at hm
        exact hm

/-- What a read from the copy gives: nothing, or as much as it moves. -/
theorem call_readOld (h : Midway fs k E dirs files u) (hreal : ∀ f ∈ fs, f.Real)
    (hl : files l = some f) (hfd : u.disk.Holds fd tmp off false) {g : Int} {opened : Prop}
    [Decidable opened] (hne : g ≠ fd) (hg : if opened then u.disk.Holds g l 0 true else g = -1)
    {n : Nat} {c : Option Bytes → Prog clientSig α}
    (hc : ∀ v, v.disk.Holds fd tmp off false → Midway fs (k + 1) E dirs files v →
      Prog.Yields env.exec (c (if opened ∧ (fault fs k).error = none then
        some (f.bytes.take ((fault fs k).moved n)) else none)) v Q) :
    Prog.Yields env.exec (Client.sys (.read g n) >>= c) u Q := by
  by_cases ho : opened
  · rw [if_pos ho] at hg
    cases he : (fault fs k).error with
    | some e =>
        refine h.call_fails hreal ⟨e, Fault.outcome_of_error he⟩ fun v hv hm => ?_
        have hres := hc v (by rw [hv]; exact hfd) hm.weaken
        rw [he, if_neg (fun hn => by cases hn.2)] at hres
        exact hres
    | none =>
        have hlook : u.disk.look l = some f := h.look ▸ hl
        obtain ⟨t, hr, hs, hk, -⟩ := Fs.read_of_holds hg hlook ((fault fs k).moved n)
        have hout : (fault fs k).outcome (.read g n) u.disk =
            .ok (some (f.bytes.take ((fault fs k).moved n)), t) := by
          rw [Fault.outcome_of_fine he]
          change (u.disk.read g ((fault fs k).moved n)).map _ = _
          rw [hr]
          rfl
        refine h.call_ok hout fun v hv hm => ?_
        have hkeep := hk fd tmp off false hne.symm hfd
        rw [hs.isDir, hs.look, h.isDir, h.look] at hm
        have hres := hc v (by rw [hv]; exact hkeep) hm
        simpa only [ho, he, and_self, if_true] using hres
  · rw [if_neg ho] at hg
    subst hg
    have hbad : ∃ e, (fault fs k).outcome (.read (-1) n) u.disk = .error e := by
      unfold Fault.outcome
      split <;> exact ⟨_, rfl⟩
    refine h.call_fails hreal hbad fun v hv hm => ?_
    have hres := hc v (by rw [hv]; exact hfd) hm.weaken
    rw [if_neg (fun hn => ho hn.1)] at hres
    exact hres

/-- What a write puts into the empty temporary file. -/
theorem call_writeTmp (h : Midway fs k E dirs files u) (hreal : ∀ f ∈ fs, f.Real) {x : File}
    (hx : files tmp = some x) (hb : x.bytes = []) (hfd : u.disk.Holds fd tmp 0 false) {mem : Bytes}
    {n : Nat} (hn : mem.length = n) {c : Int → Prog clientSig α}
    (hc : ∀ r v y off, v.disk.Holds fd tmp off false →
      y.bytes = (if (fault fs k).error = none then mem.take ((fault fs k).moved n) else []) →
      Midway fs (k + 1) E dirs (Function.update files tmp (some y)) v →
      Prog.Yields env.exec (c r) v Q) :
    Prog.Yields env.exec (Client.sys (.write fd mem n) >>= c) u Q := by
  subst hn
  cases he : (fault fs k).error with
  | some e =>
      refine h.call_fails hreal ⟨e, Fault.outcome_of_error he⟩ fun v hv hm => ?_
      refine hc _ v x 0 (by rw [hv]; exact hfd) (by rw [he, hb]; rfl) ?_
      rw [← hx, Function.update_eq_self]
      exact hm.weaken
  | none =>
      have hlook : u.disk.look tmp = some x := h.look ▸ hx
      obtain ⟨t, y, hw, hs, hy, -, -, hfd'⟩ :=
        Fs.write_of_empty hfd hlook hb (limited (fault fs k).bound (mem.take mem.length))
      have hout : (fault fs k).outcome (.write fd mem mem.length) u.disk =
          .ok (((limited (fault fs k).bound (mem.take mem.length)).length : Int), t) := by
        rw [Fault.outcome_of_fine he]
        simp only [Sys.perform, Nat.lt_irrefl, if_false]
        exact hw
      refine h.call_ok hout fun v hv hm => ?_
      refine hc _ v y _ (by rw [hv]; exact hfd') ?_ ?_
      · rw [he, if_pos rfl, hy, List.take_length, Fault.limited_eq]
      · rw [hs.isDir, hs.look, h.isDir, h.look] at hm
        exact hm

/-- What the positioned write puts into the temporary file, and what it returns. -/
theorem call_pwriteTmp (h : Midway fs k E dirs files u) (hreal : ∀ f ∈ fs, f.Real) {x : File}
    (hx : files tmp = some x) (hfd : u.disk.Holds fd tmp off false) {buffer : Bytes} {offset : Nat}
    {c : Int → Prog clientSig α}
    (hc : ∀ rc v y, v.disk.Holds fd tmp off false →
      (if (fault fs k).error = none then rc = ((fault fs k).moved buffer.length : Int) ∧
        y.bytes = overwrite x.bytes offset (buffer.take ((fault fs k).moved buffer.length))
      else rc = -1 ∧ y.bytes = x.bytes) →
      Midway fs (k + 1) (rc = -1) dirs (Function.update files tmp (some y)) v →
      Prog.Yields env.exec (c rc) v Q) :
    Prog.Yields env.exec (Client.sys (.pwrite fd buffer buffer.length offset) >>= c) u Q := by
  have hsame : Function.update files tmp (some x) = files := by rw [← hx, Function.update_eq_self]
  cases he : (fault fs k).error with
  | some e =>
      refine h.call_fails hreal ⟨e, Fault.outcome_of_error he⟩ fun v hv hm => ?_
      refine hc (-1) v x (by rw [hv]; exact hfd) ?_ ?_
      · rw [he, if_neg (Option.some_ne_none e)]
        exact ⟨rfl, rfl⟩
      · rw [hsame]
        exact hm.weaken
  | none =>
      have hlook : u.disk.look tmp = some x := h.look ▸ hx
      have hle := (fault fs k).moved_le buffer.length
      obtain ⟨t, y, hw, hs, hy, hfd'⟩ : ∃ t y, u.disk.pwrite fd
          (buffer.take ((fault fs k).moved buffer.length)) offset =
            .ok (((fault fs k).moved buffer.length : Int), t) ∧
          u.disk.Steps t (Function.update u.disk.look tmp (some y)) ∧
          y.bytes = overwrite x.bytes offset (buffer.take ((fault fs k).moved buffer.length)) ∧
          t.Holds fd tmp off false := by
        by_cases hd : buffer.take ((fault fs k).moved buffer.length) = []
        · have hzero : (fault fs k).moved buffer.length = 0 := by
            have hlen := congrArg List.length hd
            rw [List.length_take, List.length_nil] at hlen
            omega
          refine ⟨u.disk, x, ?_, ?_, ?_, hfd⟩
          · obtain ⟨i, hi, -⟩ := hfd
            simp only [Fs.pwrite, hi, hzero]
            rfl
          · rw [← hlook, Function.update_eq_self]
            exact Fs.Steps.refl _
          · rw [hd, overwrite_nil]
        · obtain ⟨t, hw, hs, hk⟩ := Fs.pwrite_of_holds hfd hlook hd offset
          refine ⟨t, _, ?_, hs, ?_, hk _ _ _ _ hfd⟩
          · rw [hw, List.length_take, Nat.min_eq_left hle]
          · rw [Fs.stamped_bytes, overwrite_of_ne_nil _ _ hd]
      have hout : (fault fs k).outcome (.pwrite fd buffer buffer.length offset) u.disk =
          .ok (((fault fs k).moved buffer.length : Int), t) := by
        rw [Fault.outcome_of_fine he]
        simp only [Sys.perform, Nat.lt_irrefl, if_false]
        rw [List.take_length, Fault.limited_eq]
        exact hw
      refine h.call_ok hout fun v hv hm => ?_
      refine hc _ v y (by rw [hv]; exact hfd') ?_ ?_
      · rw [he, if_pos rfl]
        exact ⟨rfl, hy⟩
      · rw [hs.isDir, hs.look, h.isDir, h.look] at hm
        exact ⟨hm.faults, hm.isDir, hm.look, fun hneg => by omega⟩

end Midway

/-- What the temporary file holds of the copy, when its calls meet the faults from number `k` on: the
length comes from `lstat`, the bytes from an open and a read, and a write moves them. -/
def Client.oldCopied (junk : Junk) (fs : List Fault) (k : Nat) (old : Bytes) : Bytes :=
  let size := sizeT (if (fault fs k).error = none then (old.length : Int) else junk.info.st_size)
  let got := if (fault fs (k + 1)).error = none ∧ (fault fs (k + 2)).error = none then
    some (old.take ((fault fs (k + 2)).moved size)) else none
  let mem := fill (junk.heap size) got
  if (fault fs (k + 3)).error = none then mem.take ((fault fs (k + 3)).moved size) else []

/-- What the temporary file holds after the positioned write, if it was opened; otherwise it is what
it was. -/
def Client.tmpContent (junk : Junk) (fs : List Fault) (leftover : Option Bytes) (old buffer : Bytes)
    (offset : Nat) : Option Bytes :=
  if (fault fs 0).error = none then
    some (if (fault fs 6).error = none then
      overwrite (Client.oldCopied junk fs 1 old) offset
        (buffer.take ((fault fs 6).moved buffer.length))
    else Client.oldCopied junk fs 1 old)
  else leftover

/-- What the positioned write returns. -/
def Client.tmpResult (fs : List Fault) (buffer : Bytes) : Int :=
  if (fault fs 0).error = none ∧ (fault fs 6).error = none then
    (fault fs 6).moved buffer.length
  else -1

/-- Without faults the copy in the temporary file is complete. -/
theorem oldCopied_of_fine {junk : Junk} {fs : List Fault} {k : Nat} {old : Bytes}
    (hlen : old.length < 2 ^ 64) (h : ∀ j < 4, fault fs (k + j) = .ok) :
    Client.oldCopied junk fs k old = old := by
  have h0 : fault fs k = .ok := h 0 (by decide)
  have h1 := h 1 (by decide)
  have h2 := h 2 (by decide)
  have h3 := h 3 (by decide)
  simp only [Client.oldCopied, h0, h1, h2, h3, Fault.error_ok, Fault.moved_ok, and_self, if_true, sizeT_natCast hlen,
    List.take_length]
  rw [fill_of_length (junk.length_heap _), List.take_length]

section Filled

variable {env : Env} {junk : Junk} {p dir l tmp : Path} {buffer : Bytes} {offset : Nat}
  {fs : List Fault} {k : Nat} {E : Prop} {dirs : Path → Bool} {files : Path → Option File} {u s : St}
  {f x : File} {fd : Int}

/-- The buffer for the copy has the length that was asked for, whatever was read into it. -/
theorem length_filled (junk : Junk) (n : Nat) {old : Bytes} {opened : Prop} [Decidable opened] :
    (fill (junk.heap n) (if opened ∧ (fault fs k).error = none then
      some (old.take ((fault fs k).moved n)) else none)).length = n := by
  rw [length_fill, junk.length_heap]
  intro d hd
  rw [junk.length_heap]
  split at hd
  · rw [← Option.some.inj hd]
    exact (List.length_take_le _ _).trans (Fault.moved_le _ _)
  · cases hd

theorem copyToTmp_faulty (h : Midway fs k E dirs files u) (hreal : ∀ f ∈ fs, f.Real)
    (hl : files l = some f) (hx : files tmp = some x) (hb : x.bytes = [])
    (hfd : u.disk.Holds fd tmp 0 false) :
    Prog.Yields env.exec (Client.copyToTmp junk l fd) u fun _ v =>
      ∃ y off, y.bytes = Client.oldCopied junk fs k f.bytes ∧ v.disk.Holds fd tmp off false ∧
        Midway fs (k + 5) E dirs (Function.update files tmp (some y)) v := by
  unfold Client.copyToTmp
  refine h.call_lstat hreal hl fun res v1 hres hv1 h1 => ?_
  have hsize := hres junk.info
  rw [← hv1] at hfd
  refine h1.call_openOld hreal hl hfd fun g v2 hne hg hfd2 h2 => ?_
  refine h2.call_readOld hreal hl hfd2 hne hg fun v3 hfd3 h3 => ?_
  rw [hsize]
  generalize hn : sizeT (if (fault fs k).error = none then (f.bytes.length : Int)
    else junk.info.st_size) = n
  generalize hgot : (if (fault fs (k + 1)).error = none ∧ (fault fs (k + 1 + 1)).error = none then
    some (f.bytes.take ((fault fs (k + 1 + 1)).moved n)) else none) = got
  have hlen : (fill (junk.heap n) got).length = n := by
    rw [← hgot]
    exact length_filled junk n
  refine h3.call_writeTmp hreal hx hb hfd3 hlen fun r v4 y off hfd4 hy h4 => ?_
  refine h4.call_leaves hreal hfd4 (Or.inr ⟨g, hne, rfl⟩) fun _ v5 h5 hfd5 => ?_
  refine Prog.Yields.ret ⟨y, off, ?_, hfd5, h5⟩
  unfold Client.oldCopied
  simp only [hn, hgot]
  exact hy

/-- Behind the copy of the old contents comes the positioned write. -/
theorem fillFrom_copied {c : Bytes} (hreal : ∀ f ∈ fs, f.Real)
    (hcopy : Prog.Yields env.exec (Client.copyToTmp junk (getLocalPath p dir) fd) u fun _ v =>
      ∃ y off, y.bytes = c ∧ v.disk.Holds fd tmp off false ∧
        Midway fs (k + 5) E dirs (Function.update files tmp (some y)) v) :
    Prog.Yields env.exec (Client.fillFrom junk p dir buffer offset fd) u fun rc v =>
      ∃ y, (if (fault fs (k + 5)).error = none then
        rc = ((fault fs (k + 5)).moved buffer.length : Int) ∧
          y.bytes = overwrite c offset (buffer.take ((fault fs (k + 5)).moved buffer.length))
        else rc = -1 ∧ y.bytes = c) ∧
      Midway fs (k + 8) (rc = -1) dirs (Function.update files tmp (some y)) v := by
  unfold Client.fillFrom
  apply Prog.Yields.bind hcopy
  rintro _ v ⟨x', off, rfl, hfd', h'⟩
  refine h'.call_pwriteTmp hreal (Function.update_self ..) hfd' fun rc v6 y hfd6 hy h6 => ?_
  rw [Function.update_idem] at h6
  refine h6.call_leaves hreal hfd6 (Or.inl rfl) fun _ v7 h7 hfd7 => ?_
  refine h7.call_idle hreal (by trivial) fun _ v8 h8 => ?_
  exact Prog.Yields.ret ⟨y, hy, h8⟩

/-- The first part of a write, when at most its calls up to the positioned write meet faults. -/
theorem fillTmp_faulty (hreal : ∀ f ∈ fs, f.Real) (hfs : s.client.proc.faults = fs)
    (hlen : fs.length ≤ 7) (hl : s.disk.look (getLocalPath p dir) = some f)
    (htmp : s.disk.isDir (getLocalTmpPath p dir) = false)
    (hpar : s.disk.isDir (parent (getLocalTmpPath p dir)) = true)
    (hne : getLocalPath p dir ≠ getLocalTmpPath p dir) :
    Prog.Yields env.exec (Client.fillTmp junk p dir buffer offset) s fun rc v =>
      rc = Client.tmpResult fs buffer ∧ v.client.proc.faults = [] ∧ v.disk.isDir = s.disk.isDir ∧
      (rc = -1 → 0 < v.client.proc.errno) ∧
      (∀ q, q ≠ getLocalTmpPath p dir → v.disk.look q = s.disk.look q) ∧
      (v.disk.look (getLocalTmpPath p dir)).map (·.bytes) = Client.tmpContent junk fs
        ((s.disk.look (getLocalTmpPath p dir)).map (·.bytes)) f.bytes buffer offset := by
  have hstart : Midway fs 0 False s.disk.isDir s.disk.look s := ⟨hfs, rfl, rfl, False.elim⟩
  have hend : fs.drop 9 = [] := List.drop_eq_nil_of_le (by omega)
  rw [Client.fillTmp_eq]
  cases he : (fault fs 0).error with
  | some e =>
      refine hstart.call_fails hreal ⟨e, Fault.outcome_of_error he⟩ fun u _ h => ?_
      refine (fillFrom_stalled h hreal).mono ?_
      rintro rc v ⟨rfl, hv⟩
      refine ⟨?_, hv.faults.trans hend, hv.isDir, fun _ => hv.errno trivial, ?_, ?_⟩
      · rw [Client.tmpResult, if_neg fun hn => by rw [he] at hn; cases hn.1]
      · intro q _
        rw [hv.look]
      · rw [hv.look, Client.tmpContent, he]
        rfl
  | none =>
      obtain ⟨fd, t, x, ho, -, hfd, hs, hb, -, -⟩ :=
        Fs.openFile_trunc htmp (fun _ => hpar) { creat := true, trunc := true } rfl rfl S_IRWXUG
      have hout : (fault fs 0).outcome
          (.openF (getLocalTmpPath p dir) { creat := true, trunc := true } S_IRWXUG) s.disk =
            .ok ((fd : Int), t) := by
        rw [Fault.outcome_of_fine he]
        exact ho
      refine hstart.call_ok hout fun u hu h => ?_
      rw [hs.isDir, hs.look] at h
      have hl' : Function.update s.disk.look (getLocalTmpPath p dir) (some x) (getLocalPath p dir) =
          some f := by
        rw [Function.update_of_ne hne, hl]
      refine (fillFrom_copied hreal
        (copyToTmp_faulty h hreal hl' (Function.update_self ..) hb (hu ▸ hfd))).mono ?_
      rintro rc v ⟨y, hy, hv⟩
      rw [Function.update_idem] at hv
      refine ⟨?_, hv.faults.trans hend, hv.isDir, hv.errno, ?_, ?_⟩
      · unfold Client.tmpResult
        simp only [he, true_and]
        split at hy
        · next he6 =>
          rw [if_pos he6]
          exact hy.1
        · next he6 =>
          rw [if_neg he6]
          exact hy.1
      · intro q hq
        rw [hv.look, Function.update_of_ne hq]
      · rw [hv.look, Function.update_self, Client.tmpContent, if_pos he, Option.map_some]
        split at hy
        · next he6 => rw [if_pos he6, hy.2]
        · next he6 => rw [if_neg he6, hy.2]

/-- The second part puts into the copy what the temporary file holds, if there is one. -/
theorem replaceCopy_local (hf : s.client.proc.faults = [])
    (hl : s.disk.look (getLocalPath p dir) = some f)
    (htmp : s.disk.isDir (getLocalTmpPath p dir) = false)
    (hne : getLocalPath p dir ≠ getLocalTmpPath p dir) :
    Prog.Yields env.exec (Client.replaceCopy p dir) s fun _ v =>
      v.client.proc.faults = [] ∧ v.disk.isDir = s.disk.isDir ∧
      (0 < s.client.proc.errno → 0 < v.client.proc.errno) ∧
      v.disk.look (getLocalPath p dir) = s.disk.look (getLocalTmpPath p dir) := by
  unfold Client.replaceCopy
  have hdir := Fs.isDir_of_look hl
  obtain ⟨t, hun, hs, -⟩ := Fs.unlink_of_look hl
  rw [← Fs.remove_eq_unlink hdir] at hun
  refine Env.yields_sys hf hun ?_
  cases htl : s.disk.look (getLocalTmpPath p dir) with
  | none =>
      have hfree : t.look (getLocalTmpPath p dir) = none := by
        rw [hs.look, Function.update_of_ne hne.symm, htl]
      have hbad : Sys.perform none (.rename (getLocalTmpPath p dir) (getLocalPath p dir)) t =
          .error (t.absent (getLocalTmpPath p dir)) := by
        simp only [Sys.perform, Fs.rename, Fs.tree_eq_none hfree (by rw [hs.isDir]; exact htmp)]
      refine Env.yields_sys_error (s := s.withDisk t) hf hbad (Prog.Yields.ret ⟨hf, hs.isDir, ?_, ?_⟩)
      · exact fun _ => t.absent_pos _
      · change t.look _ = none
        rw [hs.look, Function.update_self]
  | some g =>
      have hg : t.look (getLocalTmpPath p dir) = some g := by
        rw [hs.look, Function.update_of_ne hne.symm, htl]
      obtain ⟨t', hrn, hs'⟩ := Fs.rename_of_look hg (by rw [hs.isDir]; exact hdir) hne.symm
      refine Env.yields_sys (s := s.withDisk t) hf hrn (Prog.Yields.ret ⟨hf, ?_, id, ?_⟩)
      · exact hs'.isDir.trans hs.isDir
      · exact (congrFun hs'.look _).trans (Function.update_self ..)

/-- Recording a value leaves a positive error number positive. -/
theorem record_errno (env : Env) (p dir : Path) (value : Int64) (hf : s.client.proc.faults = [])
    (h : 0 < s.client.proc.errno) :
    0 < ((Client.record p dir value).run env.exec s).2.client.proc.errno := by
  have huses : (Client.record p dir value).Uses (Cmd.Sends fun _ => False) := Client.record_sends
  refine (huses.invariant (m := env.exec)
    (I := fun u : St => u.client.proc.faults = [] ∧ 0 < u.client.proc.errno) ?_ ⟨hf, h⟩).2
  rintro c u hc ⟨hu, hpos⟩
  cases c with
  | rpc r | retried r => exact hc.elim
  | sys c => exact ⟨Sys.exec_faults hu c, Sys.exec_errno_pos c (by simp [hu]) hpos⟩
  | errno | get q | put key v | table | setTable ht => exact ⟨hu, hpos⟩

/-- What a write leaves when its calls up to the positioned write meet faults. -/
theorem afsWrite_faulty (hb : buffer ≠ []) (hreal : ∀ f ∈ fs, f.Real)
    (hfs : s.client.proc.faults = fs) (hlen : fs.length ≤ 7) (hdir : FlatDir dir s.disk)
    (hl : s.disk.look (getLocalPath p dir) = some f)
    (htmp : s.disk.isDir (getLocalTmpPath p dir) = false)
    (hpar : s.disk.isDir (parent (getLocalTmpPath p dir)) = true)
    (hne : getLocalPath p dir ≠ getLocalTmpPath p dir) :
    Prog.Yields env.exec (Client.afsWrite junk p dir buffer offset) s fun r t =>
      (if Client.tmpResult fs buffer = -1 then r < 0 else r = Client.tmpResult fs buffer) ∧
      t.client.ht = s.client.ht.put (hashKey p) modifiedFlag ∧
      (t.disk.look (getLocalPath p dir)).map (·.bytes) =
        if p = databasePath then some (dumpText t.client.ht)
        else Client.tmpContent junk fs ((s.disk.look (getLocalTmpPath p dir)).map (·.bytes)) f.bytes
          buffer offset := by
  have htable : ((Client.afsWrite junk p dir buffer offset).run env.exec s).2.client.ht =
      s.client.ht.put (hashKey p) modifiedFlag := afsWrite_table hb
  suffices hrest : Prog.Yields env.exec (Client.afsWrite junk p dir buffer offset) s fun r t =>
      (if Client.tmpResult fs buffer = -1 then r < 0 else r = Client.tmpResult fs buffer) ∧
      (t.disk.look (getLocalPath p dir)).map (·.bytes) =
        if p = databasePath then some (dumpText t.client.ht)
        else Client.tmpContent junk fs ((s.disk.look (getLocalTmpPath p dir)).map (·.bytes)) f.bytes
          buffer offset by
    obtain ⟨r, t, hrun, hr, hcontent⟩ := hrest
    rw [hrun] at htable
    exact ⟨r, t, hrun, hr, htable, hcontent⟩
  rw [Client.afsWrite_eq hb]
  apply Prog.Yields.bind (fillTmp_faulty hreal hfs hlen hl htmp hpar hne)
  rintro rc u ⟨rfl, hu, hudir, huerr, hul, hutmp⟩
  have htmp' : u.disk.isDir (getLocalTmpPath p dir) = false := by rw [hudir, htmp]
  apply Prog.Yields.bind (replaceCopy_local hu ((hul _ hne).trans hl) htmp' hne)
  rintro _ v ⟨hv, hvdir, hverr, hvl⟩
  have hflat : FlatDir dir v.disk := hdir.congr (hvdir.trans hudir)
  have hrecord : Prog.Yields env.exec (Client.record p dir modifiedFlag) v fun _ t =>
      (0 < v.client.proc.errno → 0 < t.client.proc.errno) ∧
      (t.disk.look (getLocalPath p dir)).map (·.bytes) =
        if p = databasePath then some (dumpText t.client.ht)
        else (u.disk.look (getLocalTmpPath p dir)).map (·.bytes) := by
    obtain ⟨x, t, hrun, he, -, -, hdb⟩ := record_local (p := p) hv hflat modifiedFlag
    refine ⟨x, t, hrun, fun hpos => ?_, ?_⟩
    · have herr := record_errno env p dir modifiedFlag hv hpos
      rwa [hrun] at herr
    · by_cases hp : p = databasePath
      · rw [if_pos hp, hp]
        exact hdb
      · rw [if_neg hp, he.disk.look _ (List.not_mem_cons_of_ne_of_not_mem
          (getLocalPath_ne_database hp dir) List.not_mem_nil), hvl]
  apply Prog.Yields.bind hrecord
  rintro _ t ⟨hterr, ht⟩
  rw [hutmp] at ht
  split
  · next hneg =>
    refine Prog.Yields.call (r := t.client.proc.errno) (t := t) rfl (Prog.Yields.ret ⟨?_, ht⟩)
    have hpos := hterr (hverr (huerr hneg))
    omega
  · exact Prog.Yields.ret ⟨rfl, ht⟩

end Filled

end Afs
