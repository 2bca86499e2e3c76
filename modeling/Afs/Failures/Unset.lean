import Afs.Consistency.Subdirectories
import Afs.Failures.Writes

/-!
# Structures that nobody filled in

`afs_OPEN`, `afs_WRITE` and `afs_RELEASE` each have a local `struct stat` that only a successful call
fills in, and each uses it afterwards without a look at the call's result. Two runs that differ in
what these structures held at first are compared.
-/

namespace Afs

open Posix Interaction

/-- The request that a command sends. -/
def Cmd.request : Cmd → Option Request
  | .rpc r | .retried r => some r
  | .sys _ | .errno | .get _ | .put .. | .table | .setTable _ => none

/-- What can be seen of the run of an operation. -/
structure Seen (α : Type) where
  /-- What it returns, unless the process ended. -/
  result : Option α
  /-- The files on the client's disk, with their bytes. -/
  files : Path → Option Bytes
  /-- The table. -/
  table : HashTable
  /-- The requests in the order in which they were sent. -/
  requests : List Request

section Observed

variable {α : Type} (env : Env)

/-- The machine of a client program, with the list of its requests. -/
def Env.asking : Machine clientSig (St × List Request) := Prog.logged env.exec Cmd.request

/-- What can be seen of a run from a state. -/
def observed (p : Prog clientSig α) (s : St) : Seen α where
  result := (p.run env.asking (s, [])).1
  files q := ((p.run env.asking (s, [])).2.1.disk.look q).map (·.bytes)
  table := (p.run env.asking (s, [])).2.1.client.ht
  requests := (p.run env.asking (s, [])).2.2

/-- A program with an unset structure runs alike for all contents of this structure. -/
def St.Indifferent (p : Stat → Prog clientSig α) (s : St) : Prop :=
  ∀ a b, observed env (p a) s = observed env (p b) s

variable {env} {p : Stat → Prog clientSig α} {s : St}

/-- The same run cannot be told apart. -/
theorem St.indifferent_of_run
    (h : ∀ a b, (p a).run env.asking (s, []) = (p b).run env.asking (s, [])) :
    s.Indifferent env p := by
  intro a b
  unfold observed
  rw [h a b]

/-- The requests of a program are among those that its commands send. -/
theorem requests_of_sends {prog : Prog clientSig α} {R : Request → Prop} {l : List Request}
    (hp : prog.Uses (Cmd.Sends R)) (hl : ∀ r ∈ l, R r) :
    ∀ r ∈ (prog.run env.asking (s, l)).2.2, R r := by
  refine (hp.mono fun c hc r hr => ?_).meets.run_logged hl
  cases c with
  | rpc r' | retried r' => exact Option.some.inj hr ▸ hc
  | _ => cases hr

end Observed

/-- Memory with these contents of the second structure. -/
def Junk.withStats (junk : Junk) (a : Stat) : Junk := { junk with stats := a }

/-- Memory with these contents of the first structure. -/
def Junk.withInfo (junk : Junk) (a : Stat) : Junk := { junk with info := a }

section Open

variable {env : Env} {junk : Junk} {p dir : Path} {s : St} {l : List Request}

/-- The copy opens, and no attributes come from the server. -/
def St.Unattributed (env : Env) (p dir : Path) (s : St) : Prop :=
  ((Sys.openF (getLocalPath p dir) { append := true } S_IRWXUG).exec s.client.proc).1 ≠ (-1 : Int) ∧
    ∀ reply ∈ (s.asked env p).1, reply.err ≠ 0

instance : Decidable (s.Unattributed env p dir) := inferInstanceAs (Decidable (_ ∧ _))

/-- The state behind the first call of an open. -/
def St.opened (p dir : Path) (s : St) : St :=
  { s with client := { s.client with
    proc := ((Sys.openF (getLocalPath p dir) { append := true } S_IRWXUG).exec s.client.proc).2 } }

/-- The request for the attributes is answered as without the open copy. -/
theorem asked_opened (env : Env) : ((s.opened p dir).asked env p).1 = (s.asked env p).1 := by
  have halike : s.Alike (s.opened p dir) := ⟨rfl, rfl, rfl, rfl⟩
  exact (Env.exec_retried_alike env (.getattr p) halike).1.symm

/-- Attributes that come overwrite the structure. -/
theorem afsGetattr_filled {a b : Stat} {reply : GetattrRes}
    (hreply : (env.exec (.retried (.getattr p)) s).1 = some reply) (herr : reply.err = 0) :
    (Client.afsGetattr p a).run env.asking (s, l) = (Client.afsGetattr p b).run env.asking (s, l) := by
  have hask : (env.asking (.retried (.getattr p)) (s, l)).1 = some reply := hreply
  unfold Client.afsGetattr
  rw [Prog.run_call_bind, Prog.run_call_bind, hask]
  simp only [herr, ne_eq, not_true_eq_false, if_false]

/-- Without attributes the structure is handed on. -/
theorem afsGetattr_unfilled (a : Stat)
    (hreply : ∀ reply ∈ (env.exec (.retried (.getattr p)) s).1, reply.err ≠ 0) :
    ∃ rc, (Client.afsGetattr p a).run env.asking (s, l) =
      (some (rc, a), (env.asking (.retried (.getattr p)) (s, l)).2) := by
  have hask : (env.asking (.retried (.getattr p)) (s, l)).1 =
      (env.exec (.retried (.getattr p)) s).1 := rfl
  unfold Client.afsGetattr
  rw [Prog.run_call_bind, hask]
  cases hm : (env.exec (.retried (.getattr p)) s).1 with
  | none => exact ⟨-(env.asking .errno (env.asking (.retried (.getattr p)) (s, l)).2).1, rfl⟩
  | some reply =>
      simp only [if_pos (hreply reply hm)]
      exact ⟨_, rfl⟩

/-- Where the structure is filled in or not looked at, the decision does not depend on it. -/
theorem openCopy_alike (h : ¬ s.Unattributed env p dir) (a b : Stat) :
    (Client.openCopy (junk.withStats a) p dir).run env.asking (s, l) =
      (Client.openCopy (junk.withStats b) p dir).run env.asking (s, l) := by
  unfold Client.openCopy
  rw [Prog.run_call_bind, Prog.run_call_bind]
  by_cases hfd : (env.asking (.sys (.openF (getLocalPath p dir) { append := true } S_IRWXUG))
      (s, l)).1 = (-1 : Int)
  · rw [if_pos hfd, if_pos hfd]
  · rw [if_neg hfd, if_neg hfd]
    obtain ⟨reply, hreply, herr⟩ : ∃ reply ∈ (s.asked env p).1, reply.err = 0 := by
      by_contra hnone
      exact h ⟨hfd, fun reply hreply herr => hnone ⟨reply, hreply, herr⟩⟩
    have hasked : (env.exec (.retried (.getattr p)) (s.opened p dir)).1 = some reply :=
      (asked_opened env).trans hreply
    have hnext : (env.asking (.sys (.openF (getLocalPath p dir) { append := true } S_IRWXUG))
        (s, l)).2 = (s.opened p dir, l) := rfl
    have hsame := afsGetattr_filled (l := l) (a := (junk.withStats a).stats)
      (b := (junk.withStats b).stats) hasked herr
    rw [hnext, Prog.run_bind, Prog.run_bind, hsame]

/-- Without attributes the decision compares what stood in the structure with the entry. -/
theorem openCopy_unfilled (h : s.Unattributed env p dir) (a : Stat) :
    (Client.openCopy (junk.withStats a) p dir).run env.asking (s, l) =
      (some (((Sys.openF (getLocalPath p dir) { append := true } S_IRWXUG).exec s.client.proc).1,
        decide (a.st_mtime > (s.client.ht.get p).toInt)),
        ((s.opened p dir).asked env p).2, l ++ [.getattr p]) := by
  obtain ⟨hfd, hnone⟩ := h
  have hopen : (env.asking (.sys (.openF (getLocalPath p dir) { append := true } S_IRWXUG))
      (s, l)).1 ≠ (-1 : Int) := hfd
  have hnext : (env.asking (.sys (.openF (getLocalPath p dir) { append := true } S_IRWXUG))
      (s, l)).2 = (s.opened p dir, l) := rfl
  have hasked : ∀ reply ∈ (env.exec (.retried (.getattr p)) (s.opened p dir)).1, reply.err ≠ 0 := by
    intro reply hreply
    exact hnone reply (asked_opened env ▸ hreply)
  obtain ⟨rc, hrun⟩ := afsGetattr_unfilled (l := l) (junk.withStats a).stats hasked
  have htable : ((s.opened p dir).asked env p).2.client.ht = s.client.ht :=
    (Env.retryLoop_client env (.getattr p) ((6 - (s.opened p dir).client.retries).toNat + 1)
      (s.opened p dir)).table
  unfold Client.openCopy
  rw [Prog.run_call_bind, if_neg hopen, hnext, Prog.run_bind, hrun]
  change Prog.run _ (Client.get p >>= _) _ = _
  have hentry : (env.asking (.get p) (env.asking (.retried (.getattr p)) (s.opened p dir, l)).2).1 =
      s.client.ht.get p := congrArg (fun ht => HashTable.get ht p) htable
  rw [Prog.run_call_bind, hentry]
  rfl

/-- Emptying a file that is open gives zero. -/
theorem ftruncate_result {f : Fault} {fd r : Int} {n : Nat} {t u : Fs}
    (h : f.outcome (.ftruncate fd n) t = .ok (r, u)) : r = 0 := by
  unfold Fault.outcome at h
  split at h
  · cases h
  · simp only [Sys.perform, Fs.ftruncate] at h
    split at h
    · cases h
    · exact (Prod.mk.inj (Except.ok.inj h)).1.symm

/-- An open that is not told to fetch succeeds and asks for the attributes only. -/
theorem afsOpen_keeps_asking (junk : Junk) (h : s.Unattributed env p dir) {a : Stat} (fh : Int)
    (ha : ¬ a.st_mtime > (s.client.ht.get p).toInt) :
    (observed env (Client.afsOpen (junk.withStats a) p dir fh) s).result =
        some (0, ((Sys.openF (getLocalPath p dir) { append := true } S_IRWXUG).exec s.client.proc).1) ∧
      (observed env (Client.afsOpen (junk.withStats a) p dir fh) s).requests = [.getattr p] := by
  unfold observed Client.afsOpen
  rw [Prog.run_bind, openCopy_unfilled h a, decide_eq_false ha]
  exact ⟨rfl, rfl⟩

/-- An open that is told to fetch fails, or asks for the file too. -/
theorem afsOpen_fetches_asking (junk : Junk) (h : s.Unattributed env p dir) {a : Stat} (fh : Int)
    (hreal : ∀ f ∈ s.client.proc.faults, f.Real) (ha : a.st_mtime > (s.client.ht.get p).toInt) :
    (∃ e fd, 0 < e ∧
      (observed env (Client.afsOpen (junk.withStats a) p dir fh) s).result = some (-e, fd)) ∨
      [.getattr p, .fetch p] <+:
        (observed env (Client.afsOpen (junk.withStats a) p dir fh) s).requests := by
  unfold observed Client.afsOpen
  rw [Prog.run_bind, openCopy_unfilled h a, decide_eq_true ha]
  generalize ((Sys.openF (getLocalPath p dir) { append := true } S_IRWXUG).exec s.client.proc).1 = fd
  have hv : ∀ f ∈ ((s.opened p dir).asked env p).2.client.proc.faults, f.Real := by
    have hwaits := Env.retryLoop_client env (.getattr p) ((6 - (s.opened p dir).client.retries).toNat + 1)
      (s.opened p dir)
    intro f hf
    have hmem : f ∈ (s.opened p dir).client.proc.faults := hwaits.faults ▸ hf
    change f ∈ ((Sys.openF _ _ _).exec s.client.proc).2.faults at hmem
    rw [Sys.exec_tail] at hmem
    exact hreal f (List.mem_of_mem_tail hmem)
  generalize ((s.opened p dir).asked env p).2 = v at hv
  simp only [if_true, Client.fetchNewCopy]
  rcases (Sys.ftruncate fd 0).exec_cases_real hv with ⟨r, t, hout, he⟩ | ⟨e, hpos, -, he⟩
  · right
    have hcond : ¬ (env.asking (.sys (.ftruncate fd 0)) (v, [] ++ [.getattr p])).1 < (0 : Int) := by
      change ¬ ((Sys.ftruncate fd 0).exec v.client.proc).1 < (0 : Int)
      rw [he, ftruncate_result hout]
      exact Int.lt_irrefl 0
    rw [Prog.bind_assoc, Prog.run_call_bind, if_neg hcond, Prog.bind_assoc, Client.afsFetch,
      Prog.bind_assoc, Prog.run_call_bind]
    exact Prog.prefix_run_logged _
  · left
    refine ⟨e, fh, hpos, ?_⟩
    have hcond : (env.asking (.sys (.ftruncate fd 0)) (v, [] ++ [.getattr p])).1 < (0 : Int) := by
      change ((Sys.ftruncate fd 0).exec v.client.proc).1 < (0 : Int)
      rw [he]
      exact (by decide : (-1 : Int) < 0)
    have herrno : (env.asking (.sys (.ftruncate fd 0)) (v, [] ++ [.getattr p])).2.1.client.proc.errno =
        e := by
      change ((Sys.ftruncate fd 0).exec v.client.proc).2.errno = e
      rw [he]
    rw [Prog.bind_assoc, Prog.run_call_bind, if_pos hcond, ← herrno]
    rfl

/-- An open depends on the unset structure exactly when its copy opens and no attributes come. -/
theorem afsOpen_indifferent_iff (junk : Junk) (fh : Int) (hreal : ∀ f ∈ s.client.proc.faults, f.Real) :
    s.Indifferent env (fun a => Client.afsOpen (junk.withStats a) p dir fh) ↔
      ¬ s.Unattributed env p dir := by
  constructor
  · intro hsame h
    obtain ⟨kept, hkept⟩ : ∃ a : Stat, ¬ a.st_mtime > (s.client.ht.get p).toInt :=
      ⟨{ junk.stats with st_mtim := .ofSec (s.client.ht.get p).toInt }, Int.lt_irrefl _⟩
    obtain ⟨fetched, hfetched⟩ : ∃ a : Stat, a.st_mtime > (s.client.ht.get p).toInt :=
      ⟨{ junk.stats with st_mtim := .ofSec ((s.client.ht.get p).toInt + 1) }, Int.lt_succ _⟩
    obtain ⟨hresult, hrequests⟩ := afsOpen_keeps_asking junk h fh hkept
    have hobs := hsame kept fetched
    rcases afsOpen_fetches_asking junk h fh hreal hfetched with ⟨e, fd, he, hneg⟩ | hmore
    · rw [← hobs, hresult] at hneg
      have hret := congrArg Prod.fst (Option.some.inj hneg)
      simp only at hret
      omega
    · rw [← hobs, hrequests] at hmore
      have hlen := hmore.length_le
      simp at hlen
  · intro h
    apply St.indifferent_of_run
    intro a b
    unfold Client.afsOpen
    rw [Prog.run_bind, Prog.run_bind, openCopy_alike h a b]
    rfl

end Open

section Release

variable {env : Env} {junk : Junk} {p dir : Path} {s : St}

/-- A release finds the flag, and the length of the copy cannot be had. -/
def St.Unmeasured (p dir : Path) (s : St) : Prop :=
  s.client.ht.get p = modifiedFlag ∧
    ((Sys.lstat (getLocalPath p dir)).exec s.client.proc).1 = none

/-- A release depends on the unset structure exactly when it finds the flag and its `lstat` fails. A
negative length then ends the process, and any other is sent. -/
theorem afsRelease_indifferent_iff (junk : Junk) (fh : Int) :
    s.Indifferent env (fun a => Client.afsRelease (junk.withInfo a) p dir fh) ↔
      ¬ s.Unmeasured p dir := by
  constructor
  · rintro hsame ⟨hflag, hstat⟩
    have hnone : (env.asking (.sys (.lstat (getLocalPath p dir))) (s, [])).1 = none := hstat
    have hget : (env.asking (.get p) (env.asking (.sys (.lstat (getLocalPath p dir))) (s, [])).2).1 =
        modifiedFlag := hflag
    have hnegative : (observed env (Client.afsRelease (junk.withInfo { junk.info with st_size := -1 })
        p dir fh) s).requests = [] := by
      have hlt : (Int32.ofInt (-1) : Int32) < 0 := by decide
      unfold observed Client.afsRelease
      rw [Prog.run_call_bind, hnone, Prog.run_call_bind, hget, if_pos rfl, Prog.run_call_bind,
        Prog.run_call_bind, Prog.run_call_bind, Client.afsStore]
      simp only [Option.getD_none, Junk.withInfo, hlt, if_true]
      rfl
    have hempty : (observed env (Client.afsRelease (junk.withInfo { junk.info with st_size := 0 })
        p dir fh) s).requests ≠ [] := by
      have hnot : ¬ (Int32.ofInt 0 : Int32) < 0 := by decide
      unfold observed Client.afsRelease
      rw [Prog.run_call_bind, hnone, Prog.run_call_bind, hget, if_pos rfl, Prog.run_call_bind,
        Prog.run_call_bind, Prog.run_call_bind, Client.afsStore]
      simp only [Option.getD_none, Junk.withInfo, hnot, if_false]
      rw [Prog.bind_assoc, Prog.run_call_bind]
      exact (Prog.prefix_run_logged _).ne_nil (List.cons_ne_nil _ _)
    rw [← hsame { junk.info with st_size := -1 }, hnegative] at hempty
    exact hempty rfl
  · intro h
    apply St.indifferent_of_run
    intro a b
    unfold Client.afsRelease
    refine (Prog.run_call_bind ..).trans (Eq.trans ?_ (Prog.run_call_bind ..).symm)
    cases hstat : (env.asking (.sys (.lstat (getLocalPath p dir))) (s, [])).1 with
    | none =>
        have hget : (env.asking (.get p) (env.asking (.sys (.lstat (getLocalPath p dir)))
            (s, [])).2).1 ≠ modifiedFlag := fun hflag => h ⟨hflag, hstat⟩
        refine (Prog.run_call_bind ..).trans (Eq.trans ?_ (Prog.run_call_bind ..).symm)
        rw [if_neg hget, if_neg hget]
    | some info => rfl

/-- A store request that carries a first part of these bytes. -/
def Request.Carries (b : Bytes) : Request → Prop
  | .store r => r.buf <+: b
  | _ => False

/-- A store sends a first part of its buffer. -/
theorem afsStore_carries {b buf : Bytes} {size : Int32} (h : buf <+: b) :
    (Client.afsStore p dir buf size).Uses (Cmd.Sends (Request.Carries b)) := by
  unfold Client.afsStore
  split
  · exact trivial
  · refine Prog.Uses.call ((List.take_prefix _ _).trans h) fun status => ?_
    split
    · exact Prog.Uses.bind Client.record_sends fun _ => trivial
    · exact trivial

/-- A release of a copy whose length can be had sends bytes of the copy only. -/
theorem afsRelease_carries {fh : Int} {f : File} (hf : s.client.proc.faults = [])
    (hl : s.disk.look (getLocalPath p dir) = some f) :
    ∀ r ∈ (observed env (Client.afsRelease junk p dir fh) s).requests, r.Carries f.bytes := by
  obtain ⟨i, hst⟩ := Fs.lstat_of_look hl
  have hstat : env.asking (.sys (.lstat (getLocalPath p dir))) (s, []) = (some (f.stat i), s, []) := by
    have hexec : env.exec (.sys (.lstat (getLocalPath p dir))) s = (some (f.stat i), s) :=
      Env.exec_sys hf (perform_lstat hst)
    change ((env.exec (.sys _) s).1, (env.exec (.sys _) s).2, []) = _
    rw [hexec]
  change ∀ r ∈ ((Client.afsRelease junk p dir fh).run env.asking (s, [])).2.2, _
  unfold Client.afsRelease
  rw [Prog.run_call_bind, hstat, Prog.run_call_bind]
  split
  · obtain ⟨rc, u, hclose, he⟩ := exec_close (s := s) env fh hf
    have hlook : u.disk.look (getLocalPath p dir) = some f := by
      rw [he.disk.look _ List.not_mem_nil, hl]
    obtain ⟨fd, t, ho, -, hh, hs, -⟩ := Fs.openFile_of_look hlook { append := true } rfl S_IRWXUG
    obtain ⟨v, hr, -⟩ := Fs.read_of_holds hh (hs.look ▸ hlook) (sizeT (f.stat i).st_size)
    have hread : (env.exec (.sys (.read fd (sizeT (f.stat i).st_size))) (u.withDisk t)).1 =
        some (f.bytes.take (sizeT (f.stat i).st_size)) := by
      have hperform : Sys.perform none (.read fd (sizeT (f.stat i).st_size)) t =
          .ok (some (f.bytes.take (sizeT (f.stat i).st_size)), v) := by
        change (t.read fd (sizeT (f.stat i).st_size)).map _ = _
        rw [hr]
        rfl
      rw [Env.exec_sys (s := u.withDisk t) he.faults hperform]
    have hclosed : env.asking (.sys (.close fh)) (env.asking (.get p) (s, [])).2 = (rc, u, []) := by
      change ((env.exec (.sys _) s).1, (env.exec (.sys _) s).2, []) = _
      rw [hclose]
    have hopened : env.asking (.sys (.openF (getLocalPath p dir) { append := true } S_IRWXUG)) (u, []) =
        ((fd : Int), u.withDisk t, []) := by
      have hexec : env.exec (.sys (.openF (getLocalPath p dir) { append := true } S_IRWXUG)) u =
          ((fd : Int), u.withDisk t) := Env.exec_sys he.faults ho
      change ((env.exec (.sys _) u).1, (env.exec (.sys _) u).2, []) = _
      rw [hexec]
    have hgot : (env.asking (.sys (.read fd (sizeT (f.stat i).st_size))) (u.withDisk t, [])).1 =
        some (f.bytes.take (sizeT (f.stat i).st_size)) := hread
    have hbuffer : fill (junk.heap (sizeT (f.stat i).st_size))
        (some (f.bytes.take (sizeT (f.stat i).st_size))) <+: f.bytes := by
      rw [fill_of_length]
      · exact List.take_prefix _ _
      · rw [junk.length_heap, List.length_take]
        simp only [File.stat_size, sizeT]
        omega
    rw [Prog.run_call_bind, hclosed, Prog.run_call_bind, hopened, Prog.run_call_bind]
    simp only [Option.getD_some]
    rw [hgot]
    exact requests_of_sends (Prog.Uses.bind (afsStore_carries hbuffer) fun _ => trivial)
      (List.forall_mem_nil _)
  · exact List.forall_mem_nil _

/-- A release of a copy that was not modified sends nothing. -/
theorem afsRelease_silent {fh : Int} (h : s.client.ht.get p ≠ modifiedFlag) :
    (observed env (Client.afsRelease junk p dir fh) s).requests = [] := by
  have hget : (env.asking (.get p) (env.asking (.sys (.lstat (getLocalPath p dir))) (s, [])).2).1 ≠
      modifiedFlag := h
  unfold observed Client.afsRelease
  rw [Prog.run_call_bind, Prog.run_call_bind, if_neg hget]
  rfl

end Release

/-! A write whose `lstat` fails, and no other call of its own accord. -/

/-- The faults of a write in which at most the `lstat` fails. -/
def lstatFaults : Option Int → List Fault
  | none => []
  | some e => [.ok, .fail e]

theorem fault_lstatFaults (o : Option Int) (k : Nat) (hk : k ≠ 1) : fault (lstatFaults o) k = .ok := by
  cases o with
  | none => simp [fault, lstatFaults]
  | some e =>
      match k, hk with
      | 0, _ => rfl
      | k + 2, _ => simp [fault, lstatFaults]

section Write

variable {env : Env} {junk : Junk} {p dir l tmp : Path} {buffer : Bytes} {offset : Nat} {s u : St}
  {fs : List Fault} {E : Prop} {dirs : Path → Bool} {files : Path → Option File} {x : File} {fd : Int}

/-- Where the length cannot be had, the number of bytes put into the temporary file is the unset one. -/
theorem copyToTmp_unmeasured (env : Env) (junk : Junk) (h : Midway fs 1 E dirs files u)
    (hreal : ∀ f ∈ fs, f.Real)
    (hstat : ∃ e, (fault fs 1).outcome (.lstat l) u.disk = .error e)
    (hfine : ∀ k, k ≠ 1 → fault fs k = .ok) (hdir : dirs l = false) (hx : files tmp = some x)
    (hb : x.bytes = []) (hfd : u.disk.Holds fd tmp 0 false) :
    ∃ c : Bytes, c.length = sizeT junk.info.st_size ∧
      Prog.Yields env.exec (Client.copyToTmp junk l fd) u fun _ v =>
        ∃ y off, y.bytes = c ∧ v.disk.Holds fd tmp off false ∧
          Midway fs 6 E dirs (Function.update files tmp (some y)) v := by
  cases hl : files l with
  | some f =>
      refine ⟨_, ?_, copyToTmp_faulty h hreal hl hx hb hfd⟩
      have herr : (fault fs 1).error ≠ none := by
        intro hn
        obtain ⟨e, he⟩ := hstat
        obtain ⟨i, hst⟩ := Fs.lstat_of_look (h.look ▸ hl : u.disk.look l = some f)
        rw [Fault.outcome_of_fine hn] at he
        simp only [Sys.perform, hst] at he
        cases he
      have h4 : fault fs (1 + 3) = .ok := hfine 4 (by decide)
      unfold Client.oldCopied
      simp only [if_neg herr, h4, Fault.error_ok, Fault.moved_ok, if_true]
      rw [List.length_take, length_filled]
      exact Nat.min_self _
  | none =>
      refine ⟨junk.heap (sizeT junk.info.st_size), junk.length_heap _, ?_⟩
      have hlook : u.disk.look l = none := h.look ▸ hl
      have hnodir : u.disk.isDir l = false := h.isDir ▸ hdir
      unfold Client.copyToTmp
      refine h.call_fails hreal hstat fun v1 hv1 h1 => ?_
      have hmissing : ∃ e, (fault fs 2).outcome (.openF l { append := true } S_IRWXUG) v1.disk =
          .error e := by
        refine ⟨u.disk.absent l, ?_⟩
        rw [hfine 2 (by decide), hv1]
        exact Fs.openFile_missing hlook hnodir _ rfl _
      refine h1.call_fails hreal hmissing fun v2 hv2 h2 => ?_
      have hclosed : ∃ e, (fault fs 3).outcome (.read (-1) (sizeT junk.info.st_size)) v2.disk =
          .error e := by
        rw [hfine 3 (by decide)]
        exact ⟨EBADF, rfl⟩
      refine h2.call_fails hreal hclosed fun v3 hv3 h3 => ?_
      have hfd3 : v3.disk.Holds fd tmp 0 false := by
        rw [hv3, hv2, hv1]
        exact hfd
      refine h3.call_writeTmp hreal hx hb hfd3 (junk.length_heap _) fun r v4 y off hfd4 hy h4 => ?_
      have hfour : fault fs (1 + 1 + 1 + 1) = .ok := hfine 4 (by decide)
      rw [hfour, Fault.error_ok, if_pos rfl, Fault.moved_ok] at hy
      have hne : (-1 : Int) ≠ fd := fun he => Fs.getFd_ne_none hfd (he ▸ rfl)
      refine h4.call_leaves hreal hfd4 (Or.inr ⟨-1, hne, rfl⟩) fun _ v5 h5 hfd5 => ?_
      refine Prog.Yields.ret ⟨y, off, ?_, hfd5, h5.weaken⟩
      rw [hy]
      exact List.take_of_length_le (Nat.le_of_eq (junk.length_heap _))

/-- The first part of such a write. -/
theorem fillTmp_unmeasured {o : Option Int} (hreal : ∀ f ∈ lstatFaults o, f.Real)
    (hfs : s.client.proc.faults = lstatFaults o)
    (hstat : o ≠ none ∨ s.disk.look (getLocalPath p dir) = none)
    (hdir : s.disk.isDir (getLocalPath p dir) = false)
    (htrimmed : s.disk.isDir (trimmed (getLocalPath p dir)) = false)
    (htmp : s.disk.isDir (getLocalTmpPath p dir) = false)
    (hpar : s.disk.isDir (parent (getLocalTmpPath p dir)) = true) :
    Prog.Yields env.exec (Client.fillTmp junk p dir buffer offset) s fun rc v =>
      rc = buffer.length ∧ v.client.proc.faults = [] ∧ v.disk.isDir = s.disk.isDir ∧
      ∃ (y : File) (c : Bytes), v.disk.look =
          Function.update s.disk.look (getLocalTmpPath p dir) (some y) ∧
        y.bytes = overwrite c offset buffer ∧ c.length = sizeT junk.info.st_size := by
  have hfine := fault_lstatFaults o
  have hne := getLocalPath_ne_getLocalTmpPath p dir
  have hstart : Midway (lstatFaults o) 0 False s.disk.isDir s.disk.look s :=
    ⟨hfs, rfl, rfl, False.elim⟩
  obtain ⟨fd, t, x, ho, -, hfd, hs, hb, -, -⟩ :=
    Fs.openFile_trunc htmp (fun _ => hpar) { creat := true, trunc := true } rfl rfl S_IRWXUG
  have hout : (fault (lstatFaults o) 0).outcome
      (.openF (getLocalTmpPath p dir) { creat := true, trunc := true } S_IRWXUG) s.disk =
        .ok ((fd : Int), t) := by
    rw [hfine 0 (by decide)]
    exact ho
  rw [Client.fillTmp_eq]
  refine hstart.call_ok hout fun u hu h => ?_
  rw [hs.isDir, hs.look] at h
  have hfails : ∃ e, (fault (lstatFaults o) 1).outcome (.lstat (getLocalPath p dir)) u.disk =
      .error e := by
    cases o with
    | some e => exact ⟨e, rfl⟩
    | none =>
        have hmissing : u.disk.look (getLocalPath p dir) = none := by
          rw [h.look, Function.update_of_ne hne]
          exact hstat.resolve_left fun hn => hn rfl
        refine ⟨u.disk.absent (getLocalPath p dir), ?_⟩
        change (u.disk.lstat (getLocalPath p dir)).map _ = _
        rw [Fs.lstat_missing hmissing (by rw [h.isDir]; exact hdir) (by rw [h.isDir]; exact htrimmed)]
        rfl
  obtain ⟨c, hc, hcopy⟩ := copyToTmp_unmeasured env junk h hreal hfails hfine hdir
    (Function.update_self ..) hb (hu ▸ hfd)
  refine (fillFrom_copied hreal hcopy).mono ?_
  rintro rc v ⟨y, hy, hv⟩
  rw [hfine (1 + 5) (by decide), Fault.error_ok, if_pos rfl, Fault.moved_ok, List.take_length] at hy
  rw [Function.update_idem] at hv
  have hrest : (lstatFaults o).drop (0 + 1 + 8) = [] := by cases o <;> rfl
  exact ⟨hy.1, hv.faults.trans hrest, hv.isDir, y, c, hv.look, hy.2, hc⟩

/-- The temporary file takes the place of the copy, whether there was one or not. -/
theorem replaceCopy_moves {y : File} (hf : s.client.proc.faults = [])
    (hdir : s.disk.isDir (getLocalPath p dir) = false)
    (hy : s.disk.look (getLocalTmpPath p dir) = some y) :
    Prog.Yields env.exec (Client.replaceCopy p dir) s fun _ v =>
      v.client.proc.faults = [] ∧ v.disk.isDir = s.disk.isDir ∧ v.disk.look = Function.update
        (Function.update s.disk.look (getLocalTmpPath p dir) none) (getLocalPath p dir) (some y) := by
  have hne := (getLocalPath_ne_getLocalTmpPath p dir).symm
  unfold Client.replaceCopy
  cases hl : s.disk.look (getLocalPath p dir) with
  | none =>
      have hrm : Sys.perform none (.remove (getLocalPath p dir)) s.disk =
          .error (s.disk.absent (getLocalPath p dir)) := by
        simp only [Sys.perform, Fs.remove_eq_unlink hdir, Fs.unlink_missing hl hdir]
      obtain ⟨t, hrn, hs⟩ := Fs.rename_of_look hy hdir hne
      refine Env.yields_sys_error hf hrm ?_
      exact Env.yields_sys (s := s.withErrno (s.disk.absent (getLocalPath p dir))) hf hrn
        (Prog.Yields.ret ⟨hf, hs.isDir, hs.look⟩)
  | some f =>
      obtain ⟨t, hun, hs, -⟩ := Fs.unlink_of_look hl
      rw [← Fs.remove_eq_unlink hdir] at hun
      have hy' : t.look (getLocalTmpPath p dir) = some y := by
        rw [hs.look, Function.update_of_ne hne, hy]
      obtain ⟨t', hrn, hs'⟩ := Fs.rename_of_look hy' (by rw [hs.isDir]; exact hdir) hne
      refine Env.yields_sys hf hun ?_
      refine Env.yields_sys (s := s.withDisk t) hf hrn
        (Prog.Yields.ret ⟨hf, hs'.isDir.trans hs.isDir, ?_⟩)
      refine hs'.look.trans ?_
      rw [hs.look, Function.update_comm hne.symm, Function.update_idem]

/-- What a write leaves whose `lstat` fails: the copy is the buffer over as many bytes as the unset
length says. -/
theorem afsWrite_unmeasured (env : Env) (junk : Junk) (offset : Nat) {o : Option Int}
    (hreal : ∀ f ∈ lstatFaults o, f.Real)
    (hfs : s.client.proc.faults = lstatFaults o) (hflat : FlatDir dir s.disk) (hp : RootLevel p)
    (hb : buffer ≠ []) (hstat : o ≠ none ∨ ¬ s.HasCopy p dir) :
    Prog.Yields env.exec (Client.afsWrite junk p dir buffer offset) s fun r t =>
      r = buffer.length ∧ t.client.ht = s.client.ht.put (hashKey p) modifiedFlag ∧
      (t.disk.look (getLocalPath databasePath dir)).map (·.bytes) = some (dumpText t.client.ht) ∧
      ∃ (y : File) (c : Bytes), y.bytes = overwrite c offset buffer ∧
        c.length = sizeT junk.info.st_size ∧
        ∀ q, q ≠ getLocalPath databasePath dir → t.disk.look q = Function.update (Function.update
          s.disk.look (getLocalTmpPath p dir) none) (getLocalPath p dir) (some y) q := by
  have htable : ((Client.afsWrite junk p dir buffer offset).run env.exec s).2.client.ht =
      s.client.ht.put (hashKey p) modifiedFlag := afsWrite_table hb
  have hdir := hflat.isDir_local hp
  have hmissing : o ≠ none ∨ s.disk.look (getLocalPath p dir) = none := hstat.imp_right not_not.mp
  suffices hrest : Prog.Yields env.exec (Client.afsWrite junk p dir buffer offset) s fun r t =>
      r = buffer.length ∧
      (t.disk.look (getLocalPath databasePath dir)).map (·.bytes) = some (dumpText t.client.ht) ∧
      ∃ (y : File) (c : Bytes), y.bytes = overwrite c offset buffer ∧
        c.length = sizeT junk.info.st_size ∧
        ∀ q, q ≠ getLocalPath databasePath dir → t.disk.look q = Function.update (Function.update
          s.disk.look (getLocalTmpPath p dir) none) (getLocalPath p dir) (some y) q by
    obtain ⟨r, t, hrun, hr, hdb, hfiles⟩ := hrest
    rw [hrun] at htable
    exact ⟨r, t, hrun, hr, htable, hdb, hfiles⟩
  rw [Client.afsWrite_eq hb]
  apply Prog.Yields.bind (fillTmp_unmeasured hreal hfs hmissing hdir
    (hflat.isDir_user hp.userPath).2 (hflat.isDir_tmp hp) (hflat.parent_tmp hp))
  rintro _ u ⟨rfl, hu, hudir, y, c, hulook, hy, hc⟩
  apply Prog.Yields.bind (replaceCopy_moves hu (by rw [hudir]; exact hdir)
    (by rw [hulook, Function.update_self]))
  rintro _ v ⟨hv, hvdir, hvlook⟩
  apply Prog.Yields.bind (record_local hv (hflat.congr (hvdir.trans hudir)) modifiedFlag)
  rintro _ t ⟨he, ht, -, hdb⟩
  have hret : ¬ ((buffer.length : Int) = -1) := by omega
  rw [if_neg hret]
  refine Prog.Yields.ret ⟨rfl, hdb, y, c, hy, hc, fun q hq => ?_⟩
  rw [he.disk.look q (List.not_mem_cons_of_ne_of_not_mem hq List.not_mem_nil), hvlook, hulook,
    Function.update_idem]

/-! Where the temporary file cannot be made, nothing is copied, whatever the length. -/

/-- The state behind a call that failed. -/
def St.failing (e : Int) (s : St) : St :=
  { s with client := { s.client with proc := ⟨s.disk, e, s.client.proc.faults.tail⟩ } }

theorem asking_fails {c : Sys} {e : Int} {log : List Request}
    (h : (s.client.proc.faults.headD .ok).outcome c s.disk = .error e) :
    env.asking (.sys c) (s, log) = (c.failed, s.failing e, log) := by
  have hexec : c.exec s.client.proc = (c.failed, ⟨s.disk, e, s.client.proc.faults.tail⟩) := by
    rw [Sys.exec_eq]
    change c.finish _ ((s.client.proc.faults.headD .ok).outcome c s.disk) = _
    rw [h]
    rfl
  change ((c.exec s.client.proc).1, ({ s with client := { s.client with
    proc := (c.exec s.client.proc).2 } }, log)) = _
  rw [hexec]
  rfl

/-- The copy of a missing file to no descriptor. -/
theorem copyToTmp_nowhere {log : List Request} {e : Int} (a : Stat)
    (hstat : (s.client.proc.faults.headD .ok).outcome (.lstat l) s.disk = .error e)
    (hf : s.client.proc.faults.tail = []) (hl : s.disk.look l = none) (hd : s.disk.isDir l = false) :
    (Client.copyToTmp (junk.withInfo a) l (-1)).run env.asking (s, log) =
      (some (), ((((s.failing e).failing (s.disk.absent l)).failing EBADF).failing EBADF).failing EBADF,
        log) := by
  have hone : (s.failing e).client.proc.faults = [] := hf
  have hopen : ((s.failing e).client.proc.faults.headD .ok).outcome
      (.openF l { append := true } S_IRWXUG) (s.failing e).disk = .error (s.disk.absent l) := by
    rw [hone]
    exact Fs.openFile_missing hl hd _ rfl _
  generalize s.disk.absent l = missing at hopen ⊢
  have hread : (((s.failing e).failing missing).client.proc.faults.headD .ok).outcome
      (.read (-1) (sizeT a.st_size)) ((s.failing e).failing missing).disk = .error EBADF := by
    change (((s.failing e).client.proc.faults.tail).headD .ok).outcome _ _ = _
    rw [hone]
    rfl
  have hwrite : ((((s.failing e).failing missing).failing EBADF).client.proc.faults.headD .ok).outcome
      (.write (-1) (junk.heap (sizeT a.st_size)) (sizeT a.st_size))
        (((s.failing e).failing missing).failing EBADF).disk = .error EBADF := by
    change (((s.failing e).client.proc.faults.tail.tail).headD .ok).outcome _ _ = _
    rw [hone]
    change (if (junk.heap (sizeT a.st_size)).length < sizeT a.st_size then Except.error EFAULT
      else _) = _
    rw [junk.length_heap, if_neg (Nat.lt_irrefl _)]
    rfl
  have hclose : (((((s.failing e).failing missing).failing EBADF).failing
      EBADF).client.proc.faults.headD .ok).outcome (.close (-1))
        ((((s.failing e).failing missing).failing EBADF).failing EBADF).disk = .error EBADF := by
    change (((s.failing e).client.proc.faults.tail.tail.tail).headD .ok).outcome _ _ = _
    rw [hone]
    rfl
  unfold Client.copyToTmp
  rw [Prog.run_call_bind, asking_fails hstat, Prog.run_call_bind, asking_fails hopen]
  simp only [Sys.failed, Option.getD_none, Junk.withInfo]
  rw [Prog.run_call_bind, asking_fails hread, Prog.run_call_bind]
  simp only [Sys.failed, fill]
  rw [asking_fails hwrite, Prog.run_call_bind]
  rw [asking_fails hclose]
  rfl

/-- A write below a directory, whose `lstat` and opens fail. -/
theorem afsWrite_nowhere {o : Option Int} (hfs : s.client.proc.faults = lstatFaults o)
    (hcache : CacheDir dir s.disk) {name rest : Path} (hname : EntryName name)
    (hp : UserPath (slash :: (name ++ slash :: rest))) (hb : buffer ≠ []) (a b : Stat) :
    (Client.afsWrite (junk.withInfo a) (slash :: (name ++ slash :: rest)) dir buffer offset).run
        env.asking (s, []) =
      (Client.afsWrite (junk.withInfo b) (slash :: (name ++ slash :: rest)) dir buffer offset).run
        env.asking (s, []) := by
  obtain ⟨hlook, hdir, -⟩ := hcache.nested hname rest
  obtain ⟨q, hq, hmem⟩ := getLocalPath_nested hname rest dir
  have hdeep : slash ∈ q ++ cstr "_tmp" := List.mem_append_left _ hmem
  have htmp : getLocalTmpPath (slash :: (name ++ slash :: rest)) dir =
      base dir ++ slash :: (q ++ cstr "_tmp") := by
    rw [getLocalTmpPath, ← getLocalPath, hq, List.append_assoc, List.cons_append]
  have hopen : (s.client.proc.faults.headD .ok).outcome
      (.openF (getLocalTmpPath (slash :: (name ++ slash :: rest)) dir)
        { creat := true, trunc := true } S_IRWXUG) s.disk =
          .error (s.disk.absent (getLocalTmpPath (slash :: (name ++ slash :: rest)) dir)) := by
    have hfirst : s.client.proc.faults.headD .ok = .ok := by
      rw [hfs]
      cases o <;> rfl
    rw [hfirst, htmp]
    change s.disk.openFile _ _ _ = _
    simp only [Fs.openFile, Fs.tree_eq_none (hcache.shallow _ hdeep) (hcache.flat _),
      hcache.parent_missing hdeep, if_true, Bool.false_eq_true, if_false]
  generalize s.disk.absent (getLocalTmpPath (slash :: (name ++ slash :: rest)) dir) = missing at hopen
  have hnodir := (hcache.toFlatDir.isDir_user hp).2
  obtain ⟨e, hstat⟩ : ∃ e, ((s.failing missing).client.proc.faults.headD .ok).outcome
      (.lstat (getLocalPath (slash :: (name ++ slash :: rest)) dir)) (s.failing missing).disk =
        .error e := by
    change ∃ e, (s.client.proc.faults.tail.headD .ok).outcome _ s.disk = .error e
    rw [hfs]
    cases o with
    | some e => exact ⟨e, rfl⟩
    | none =>
        refine ⟨s.disk.absent (getLocalPath (slash :: (name ++ slash :: rest)) dir), ?_⟩
        change (s.disk.lstat _).map _ = _
        rw [Fs.lstat_missing hlook hdir hnodir]
        rfl
  have hrest : (s.failing missing).client.proc.faults.tail = [] := by
    change s.client.proc.faults.tail.tail = []
    rw [hfs]
    cases o <;> rfl
  have hpos : buffer.length > 0 := List.length_pos_iff.mpr hb
  unfold Client.afsWrite
  rw [if_pos hpos, if_pos hpos]
  refine (Prog.run_call_bind ..).trans (Eq.trans ?_ (Prog.run_call_bind ..).symm)
  rw [asking_fails hopen]
  simp only [Sys.failed]
  rw [Prog.run_bind, Prog.run_bind, copyToTmp_nowhere a hstat hrest hlook hdir,
    copyToTmp_nowhere b hstat hrest hlook hdir]

/-- A write whose `lstat` succeeds. -/
theorem afsWrite_measured (hf : s.client.proc.faults = []) (hflat : FlatDir dir s.disk)
    (hp : RootLevel p) (hc : s.HasCopy p dir) (a b : Stat) :
    (Client.afsWrite (junk.withInfo a) p dir buffer offset).run env.asking (s, []) =
      (Client.afsWrite (junk.withInfo b) p dir buffer offset).run env.asking (s, []) := by
  obtain ⟨f, hl⟩ := Option.ne_none_iff_exists'.mp hc
  obtain ⟨fd, t, x, ho, -, -, hs, -, -, -⟩ := Fs.openFile_trunc (hflat.isDir_tmp hp)
    (fun _ => hflat.parent_tmp hp) { creat := true, trunc := true } rfl rfl S_IRWXUG
  obtain ⟨i, hst⟩ : ∃ i, t.lstat (getLocalPath p dir) = .ok (f.stat i) := by
    apply Fs.lstat_of_look
    rw [hs.look, Function.update_of_ne (getLocalPath_ne_getLocalTmpPath p dir), hl]
  have hopen : env.asking (.sys (.openF (getLocalTmpPath p dir)
      { creat := true, trunc := true } S_IRWXUG)) (s, []) = (fd, s.withDisk t, []) := by
    have hexec : env.exec (.sys (.openF (getLocalTmpPath p dir)
      { creat := true, trunc := true } S_IRWXUG)) s = ((fd : Int), s.withDisk t) :=
      Env.exec_sys hf ho
    change ((env.exec (.sys _) s).1, (env.exec (.sys _) s).2, []) = _
    rw [hexec]
  have hstat : (env.asking (.sys (.lstat (getLocalPath p dir))) (s.withDisk t, [])).1 =
      some (f.stat i) := by
    change (env.exec (.sys _) (s.withDisk t)).1 = _
    rw [Env.exec_sys (s := s.withDisk t) hf (perform_lstat hst)]
  unfold Client.afsWrite
  split
  · refine (Prog.run_call_bind ..).trans (Eq.trans ?_ (Prog.run_call_bind ..).symm)
    rw [hopen]
    unfold Client.copyToTmp
    rw [Prog.bind_assoc, Prog.bind_assoc]
    refine (Prog.run_call_bind ..).trans (Eq.trans ?_ (Prog.run_call_bind ..).symm)
    rw [hstat]
    rfl
  · rfl

/-- The bytes of a write come to depend on the unset structure: there are bytes to write, to a copy
directly under the mount point other than the table's file, and its `lstat` fails. -/
structure St.CopiesUnset (o : Option Int) (p dir : Path) (buffer : Bytes) (s : St) : Prop where
  bytes : buffer ≠ []
  level : RootLevel p
  own : p ≠ databasePath
  stat : o ≠ none ∨ ¬ s.HasCopy p dir

/-- What can be seen of a write. -/
theorem observed_write {r : Int} {t : St}
    (hrun : (Client.afsWrite junk p dir buffer offset).run env.exec s = (some r, t)) :
    observed env (Client.afsWrite junk p dir buffer offset) s =
      ⟨some r, fun q => (t.disk.look q).map (·.bytes), t.client.ht, []⟩ := by
  have huses : (Client.afsWrite junk p dir buffer offset).Uses (Cmd.Sends fun _ => False) :=
    Client.MadeFor.sends Client.afsWrite_made
  have hlogged : ((Client.afsWrite junk p dir buffer offset).run env.asking (s, [])).1 = _ ∧
      ((Client.afsWrite junk p dir buffer offset).run env.asking (s, [])).2.1 = _ :=
    Prog.run_logged _
  have hrequests : ∀ r ∈ ((Client.afsWrite junk p dir buffer offset).run env.asking (s, [])).2.2,
      False := requests_of_sends huses (List.forall_mem_nil _)
  rw [hrun] at hlogged
  unfold observed
  rw [hlogged.1, hlogged.2]
  exact congrArg (Seen.mk _ _ _) (List.eq_nil_iff_forall_not_mem.mpr hrequests)

/-- A write depends on the unset structure exactly when it copies as many bytes as that says. -/
theorem afsWrite_indifferent_iff (junk : Junk) {o : Option Int} (hreal : ∀ f ∈ lstatFaults o, f.Real)
    (hfs : s.client.proc.faults = lstatFaults o) (hcache : CacheDir dir s.disk) (hp : UserPath p)
    (hoff : offset + buffer.length < 2 ^ 63) :
    s.Indifferent env (fun a => Client.afsWrite (junk.withInfo a) p dir buffer offset) ↔
      ¬ s.CopiesUnset o p dir buffer := by
  constructor
  · rintro hsame ⟨hb, hroot, hown, hstat⟩
    have hlength : ∀ n : Nat, n < 2 ^ 64 → ∃ b : Bytes,
        (observed env (Client.afsWrite (junk.withInfo { junk.info with st_size := n }) p dir buffer
          offset) s).files (getLocalPath p dir) = some b ∧
        b.length = max n (offset + buffer.length) := by
      intro n hn
      obtain ⟨r, t, hrun, -, -, -, y, c, hy, hc, hfiles⟩ := afsWrite_unmeasured env
        (junk.withInfo { junk.info with st_size := n }) offset hreal hfs hcache.toFlatDir hroot hb hstat
      rw [observed_write hrun]
      refine ⟨y.bytes, ?_, ?_⟩
      · change (t.disk.look (getLocalPath p dir)).map (·.bytes) = _
        rw [hfiles _ (getLocalPath_ne_database hown dir), Function.update_self, Option.map_some]
      · rw [hy, overwrite_of_ne_nil _ _ hb, length_splice, hc]
        exact congrArg (max · _) (sizeT_natCast hn)
    obtain ⟨b, hb0, hlen0⟩ := hlength 0 (by decide)
    obtain ⟨b', hb1, hlen1⟩ := hlength (offset + buffer.length + 1) (by omega)
    rw [hsame _ { junk.info with st_size := (offset + buffer.length + 1 : Nat) }, hb1] at hb0
    obtain rfl := Option.some.inj hb0
    omega
  · intro h
    by_cases hb : buffer = []
    · subst hb
      exact St.indifferent_of_run fun a b => rfl
    · rcases hp.cases with hroot | ⟨name, rest, hname, rfl⟩
      · by_cases hstat : o ≠ none ∨ ¬ s.HasCopy p dir
        · obtain rfl : p = databasePath := not_not.mp fun hown => h ⟨hb, hroot, hown, hstat⟩
          intro a b
          obtain ⟨r, t, hrun, rfl, ht, hdb, y, c, -, -, hfiles⟩ := afsWrite_unmeasured env
            (junk.withInfo a) offset hreal hfs hcache.toFlatDir hroot hb hstat
          obtain ⟨r', t', hrun', rfl, ht', hdb', y', c', -, -, hfiles'⟩ := afsWrite_unmeasured env
            (junk.withInfo b) offset hreal hfs hcache.toFlatDir hroot hb hstat
          rw [observed_write hrun, observed_write hrun', ht, ht']
          congr 1
          ext1 q
          by_cases hq : q = getLocalPath databasePath dir
          · rw [hq, hdb, hdb', ht, ht']
          · rw [hfiles q hq, hfiles' q hq, Function.update_of_ne hq, Function.update_of_ne hq]
        · obtain ⟨ho, hc⟩ := not_or.mp hstat
          obtain rfl := not_not.mp ho
          exact St.indifferent_of_run fun a b =>
            afsWrite_measured hfs hcache.toFlatDir hroot (not_not.mp hc) a b
      · exact St.indifferent_of_run fun a b => afsWrite_nowhere hfs hcache hname hp hb a b

end Write

namespace World

variable {ι : Type} [DecidableEq ι] {P : Params ι} {w : World ι}

/-- The three operations with an unset structure, in every state that the mounted file systems lead to,
for every argument and outcome of the remote calls: an open, whatever its own calls do, and a write
and a release in which `lstat` may fail too. -/
theorem unset_stat_unseen_iff (hw : w.Mounted P) (i : ι) (now : Timespec) (net : List Delivery)
    (env : Env) (junk : Junk) {p : Path} (hp : UserPath p) (fh : Int) {faults : List Fault}
    (hreal : ∀ f ∈ faults, f.Real) {buffer : Bytes} {offset : Nat}
    (hoff : offset + buffer.length < 2 ^ 63) {o : Option Int} (ho : ∀ f ∈ lstatFaults o, f.Real) :
    let dir := P.cache_path i
    ((w.state i now faults net).Indifferent env
        (fun a => Client.afsOpen (junk.withStats a) p dir fh) ↔
      ¬ (w.state i now faults net).Unattributed env p dir) ∧
    ((w.state i now (lstatFaults o) net).Indifferent env
        (fun a => Client.afsWrite (junk.withInfo a) p dir buffer offset) ↔
      ¬ (w.state i now (lstatFaults o) net).CopiesUnset o p dir buffer) ∧
    ((w.state i now (lstatFaults o).tail net).Indifferent env
        (fun a => Client.afsRelease (junk.withInfo a) p dir fh) ∧
      (∀ a, ∀ r ∈ (observed env (Client.afsRelease (junk.withInfo a) p dir fh)
        (w.state i now (lstatFaults o).tail net)).requests, ∃ b ∈ w.cached P i p, r.Carries b) ↔
      ¬ (w.state i now (lstatFaults o).tail net).Unmeasured p dir) := by
  have hcache := hw.cacheDir i
  refine ⟨?_, ?_, ?_⟩
  · exact afsOpen_indifferent_iff junk fh hreal
  · exact afsWrite_indifferent_iff junk ho rfl hcache hp hoff
  · rw [← afsRelease_indifferent_iff junk fh]
    refine and_iff_left_of_imp fun hsame a r hr => ?_
    by_cases hflag : (w.state i now (lstatFaults o).tail net).client.ht.get p = modifiedFlag
    · have hmeasured : ((Sys.lstat (getLocalPath p (P.cache_path i))).exec
          (w.state i now (lstatFaults o).tail net).client.proc).1 ≠ none := fun hnone =>
        (afsRelease_indifferent_iff junk fh).mp hsame ⟨hflag, hnone⟩
      cases o with
      | some e => exact absurd rfl hmeasured
      | none =>
          obtain ⟨hdir, htrimmed⟩ := hcache.toFlatDir.isDir_user hp
          cases hl : (w.disk i).look (getLocalPath p (P.cache_path i)) with
          | none =>
              apply absurd _ hmeasured
              have hmissing : Sys.perform none (.lstat (getLocalPath p (P.cache_path i))) (w.disk i) =
                  .error ((w.disk i).absent (getLocalPath p (P.cache_path i))) := by
                simp only [Sys.perform]
                rw [Fs.lstat_missing hl hdir htrimmed]
                rfl
              exact congrArg Prod.fst
                (Sys.exec_error (s := (w.state i now [] net).client.proc) rfl hmissing)
          | some f =>
              refine ⟨f.bytes, ?_, afsRelease_carries rfl hl r hr⟩
              rw [World.cached, hl]
              rfl
    · rw [afsRelease_silent hflag] at hr
      exact absurd hr List.not_mem_nil

/-- A file without a copy in which six attempts fail: the open is indifferent, a write is not, and a
release sends nothing. -/
theorem unset_stat_unseen_sample :
    (sampleBoot.state false (sampleTime 1 0) [] (List.replicate 6 (.lost 110))).Indifferent
        ⟨cstr "/srv", .zero⟩
        (fun a => Client.afsOpen (Junk.zero.withStats a) sampleFile (cstr "/cache") 0) ∧
      ¬ (sampleBoot.state false (sampleTime 1 0) [.ok, .fail 5] (List.replicate 6 (.lost 110))).Indifferent
        ⟨cstr "/srv", .zero⟩
        (fun a => Client.afsWrite (Junk.zero.withInfo a) sampleFile (cstr "/cache") [7] 0) ∧
      (sampleBoot.state false (sampleTime 1 0) [.fail 5] (List.replicate 6 (.lost 110))).Indifferent
        ⟨cstr "/srv", .zero⟩
        (fun a => Client.afsRelease (Junk.zero.withInfo a) sampleFile (cstr "/cache") 0) := by
  have hboot : sampleBoot.Mounted sample := ⟨_, [], Transition.Run.nil⟩
  have hlstat : ∀ f ∈ lstatFaults (some 5), f.Real := by
    intro f hf
    rcases List.mem_cons.mp hf with rfl | hf
    · trivial
    · obtain rfl := List.mem_singleton.mp hf
      decide
  have hoff : 0 + ([7] : Bytes).length < 2 ^ 63 := by decide
  obtain ⟨hopen, hwrite, hrelease⟩ := unset_stat_unseen_iff hboot false (sampleTime 1 0)
    (List.replicate 6 (.lost 110)) ⟨cstr "/srv", .zero⟩ .zero rootLevel_sampleFile.userPath 0
    (List.forall_mem_nil _) hoff hlstat
  refine ⟨hopen.mpr ?_, fun hsame => hwrite.mp hsame ?_, (hrelease.mpr ?_).1⟩
  · rintro ⟨hfd, -⟩
    exact hfd (by decide +kernel)
  · exact ⟨List.cons_ne_nil _ _, rootLevel_sampleFile, by decide, Or.inl (Option.some_ne_none 5)⟩
  · rintro ⟨hflag, -⟩
    exact absurd hflag (by decide +kernel)

/-- A copy is there, and none of the six attempts to get the attributes is answered: whether the open
keeps the copy or fetches depends on what stood in its structure. -/
theorem unanswered_open_differs :
    ∃ w : World (Bool), w.Mounted sample ∧
      ¬ (w.state false (sampleTime 2 0) [] (List.replicate 6 (.lost 110))).Indifferent
        ⟨cstr "/srv", .zero⟩
        (fun a => Client.afsOpen (Junk.zero.withStats a) sampleFile (cstr "/cache") 0) := by
  let c : Event (Bool) := .call (sampleCall false 1 .openF [])
  obtain ⟨w, hstep, hw⟩ : ∃ w, sampleBoot.step sample c = some w ∧
      decide ((w.state false (sampleTime 2 0) [] (List.replicate 6 (.lost 110))).Unattributed
        ⟨cstr "/srv", .zero⟩ sampleFile (cstr "/cache")) = true := by
    have hrun : (sampleBoot.step sample c).any (fun w =>
        decide ((w.state false (sampleTime 2 0) [] (List.replicate 6 (.lost 110))).Unattributed
          ⟨cstr "/srv", .zero⟩ sampleFile (cstr "/cache"))) = true := by
      decide +kernel
    exact (Option.any_eq_true _ _).mp hrun
  refine ⟨w, ⟨[(sampleFile, [1], sampleTime 0 500)], [c], ?_⟩, fun hsame => ?_⟩
  · exact Transition.Run.cons ⟨_, rfl⟩ hstep Transition.Run.nil
  · exact (afsOpen_indifferent_iff .zero 0 (List.forall_mem_nil _)).mp hsame (of_decide_eq_true hw)

end World

end Afs
