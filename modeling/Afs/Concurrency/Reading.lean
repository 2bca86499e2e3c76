import Afs.Concurrency.Turns
import Afs.Model.System
import Afs.Ops.Depth
import Afs.Ops.Filling
import Afs.Ops.Opening
import Afs.Ops.Script

/-!
# A read beside a write or an open

A write takes the name of the copy away before the new copy gets it, and an open empties the copy before
it fills it. A read of another thread that falls between sees no copy or an empty one; everywhere else it
sees one complete version.
-/

namespace Afs

open Posix Interaction

/-- The copy after `n` commands of a write: it goes with the tenth and is back with the eleventh. -/
def Client.writeStage (old new : Bytes) (n : Nat) : Option Bytes :=
  if n < 10 then some old else if n = 10 then none else some new

/-- The copy after `n` commands of an open that fetches: the fourth empties it and the eleventh fills
it. -/
def Client.openStage (old new : Bytes) (n : Nat) : Option Bytes :=
  some (if n < 4 then old else if n < 11 then [] else new)

variable {env : Env} {junk : Junk} {p dir : Path} {s : St} {f : File} {x : Moment} {α : Type}

/-- A write beside a reader. -/
theorem afsWrite_stages {buffer : Bytes} {offset : Nat} {g : Int → α} (hb : buffer ≠ [])
    (hdir : FlatDir dir s.disk) (hp : p ≠ databasePath)
    (hl : s.disk.look (getLocalPath p dir) = some f) (hlen : f.bytes.length < 2 ^ 64)
    (htmp : s.disk.isDir (getLocalTmpPath p dir) = false)
    (hpar : s.disk.isDir (parent (getLocalTmpPath p dir)) = true)
    (h : Amid (getLocalPath p dir) (some f.bytes) s s.disk.look [] x) :
    Stages env (getLocalPath p dir) (some f.bytes)
      (Client.writeStage f.bytes (splice f.bytes offset buffer))
      (Client.afsWrite junk p dir buffer offset >>= fun r => .ret (g r)) 0 x := by
  have hne : getLocalPath p dir ≠ getLocalTmpPath p dir := getLocalPath_ne_getLocalTmpPath p dir
  have hdb := getLocalPath_ne_database hp dir
  have hpos : buffer.length > 0 := List.length_pos_iff.mpr hb
  simp only [Client.afsWrite, Client.copyToTmp, hpos, if_true, Prog.bind_assoc, Prog.pure_eq,
    Prog.ret_bind]
  have hold : ∀ (y : Option File) n, n < 10 → (Function.update s.disk.look (getLocalTmpPath p dir) y
      (getLocalPath p dir)).map (·.bytes) =
        Client.writeStage f.bytes (splice f.bytes offset buffer) n := by
    intro y n hn
    rw [Function.update_of_ne hne, hl, Client.writeStage, if_pos hn, Option.map_some]
  have hlook : ∀ y : Option File, Function.update s.disk.look (getLocalTmpPath p dir) y
      (getLocalPath p dir) = some f := by
    intro y
    rw [Function.update_of_ne hne, hl]
  refine h.call_make (by rw [hl]; rfl) htmp hpar fun fd g1 z1 h0 _ hg1 h1 => ?_
  refine h1.call_lstat (hold _ 1 (by omega)) (hlook _) fun i z2 h2 => ?_
  refine h2.call_open (hold _ 2 (by omega)) (hlook _) fun fdm z3 _ hfd h3 => ?_
  have hne1 : fd ≠ fdm := hfd _ List.mem_cons_self
  rw [Option.getD_some, sizeT_stat hlen]
  refine h3.call_read (hold _ 3 (by omega)) (hlook _) (List.forall_mem_singleton.mpr hne1)
    fun z4 h4 => ?_
  rw [slice_zero_length, fill_of_length (junk.length_heap _)]
  refine h4.swap.call_fill (hold _ 4 (by omega)) (Function.update_self ..) hg1 rfl List.prefix_rfl
    (List.forall_mem_singleton.mpr hne1.symm) fun g2 z5 hg2 h5 => ?_
  rw [Function.update_idem] at h5
  refine h5.swap.call_close (hold _ 5 (by omega)) (List.forall_mem_singleton.mpr hne1) fun z6 h6 => ?_
  refine h6.call_pwrite (hold _ 6 (by omega)) (Function.update_self ..) hb fun g3 z7 hg3 h7 => ?_
  rw [Function.update_idem] at h7
  rw [hg2] at hg3
  refine h7.call_fsync (hold _ 7 (by omega)) fun z8 h8 => ?_
  refine h8.call_close (hold _ 8 (by omega)) (List.forall_mem_nil _) fun z9 h9 => ?_
  refine h9.call_remove (hold _ 9 (by omega)) (hlook _) rfl fun z10 h10 => ?_
  have hnone : (Function.update (Function.update s.disk.look (getLocalTmpPath p dir) (some g3))
      (getLocalPath p dir) none) (getLocalPath p dir) = none := Function.update_self ..
  have hmade : (Function.update (Function.update s.disk.look (getLocalTmpPath p dir) (some g3))
      (getLocalPath p dir) none) (getLocalTmpPath p dir) = some g3 := by
    rw [Function.update_of_ne hne.symm, Function.update_self]
  refine h10.call_rename (by rw [hnone]; rfl) hmade hnone hne.symm fun z11 h11 => ?_
  have hnew : ∀ n, 10 < n → some g3.bytes =
      Client.writeStage f.bytes (splice f.bytes offset buffer) n := by
    intro n hn
    rw [hg3, Client.writeStage, if_neg (by omega), if_neg (by omega)]
  refine h11.call_record hdir hdb.symm (fun j _ => ?_) fun g4 z12 h12 => ?_
  · rw [Function.update_self, Option.map_some]
    exact hnew _ (by omega)
  have hr : ¬ ((buffer.length : Int) = -1) := by omega
  simp only [hr, if_false, Prog.ret_bind]
  refine h12.finish fun j hj => ?_
  rw [Function.update_of_ne hdb, Function.update_self, Option.map_some]
  exact hnew _ (by omega)

section Answered

variable {copy : Path} {lost : Option Bytes} {u : St} {files : Path → Option File}
  {own : List (Int × Path × Nat × Bool)} {stage : Nat → Option Bytes} {n : Nat}

/-- The request for the attributes, when an answer arrives. -/
private theorem Amid.call_getattr {reply : GetattrRes} {k : Int × Stat → Prog clientSig α}
    (h : Amid copy lost u files own x) (hstage : (files copy).map (·.bytes) = stage n)
    (ha : (u.asked env p).1 = some reply)
    (hk : ∀ rc z, Amid copy lost (u.asked env p).2 files own z →
      Stages env copy lost stage (k (rc, Client.seen junk (some reply))) (n + 1) z) :
    Stages env copy lost stage (Client.afsGetattr p junk.stats >>= k) n x := by
  simp only [Client.afsGetattr, Prog.bind_assoc, Prog.pure_eq]
  refine h.call_retried hstage fun z hz => ?_
  have hres : (env.exec (.retried (.getattr p)) u).1 = some reply := ha
  rw [hres]
  by_cases herr : reply.err = 0
  · have hseen := hk 0 z hz
    simp only [Client.seen, herr, ne_eq, not_true_eq_false, if_false] at hseen ⊢
    exact hseen
  · have hseen := hk (-reply.err.toInt) z hz
    simp only [Client.seen, herr, ne_eq, not_false_iff, if_true] at hseen ⊢
    exact hseen

/-- A fetch, when a reply arrives. -/
private theorem Amid.call_fetch {m : FetchReply} {k : Int × Option (Bytes × Int) → Prog clientSig α}
    (h : Amid copy lost u files own x) (hdir : FlatDir dir u.disk)
    (hne : getLocalPath databasePath dir ≠ copy)
    (hstage : ∀ j, j < 6 → (files copy).map (·.bytes) = stage (n + j))
    (hm : (env.exec (.retried (.fetch p)) u).1 = some m)
    (hk : ∀ v g z, Amid copy lost v (Function.update files (getLocalPath databasePath dir) (some g)) own z →
      Stages env copy lost stage (k (0, some (m.buf, m.size.toInt))) (n + 6) z) :
    Stages env copy lost stage (Client.afsFetch p dir >>= k) n x := by
  have hwaits : u.client.Waits (env.exec (.retried (.fetch p)) u).2.client :=
    Env.retryLoop_client env _ _ _
  have hdisk : (env.exec (.retried (.fetch p)) u).2.disk = u.disk := hwaits.fs
  simp only [Client.afsFetch, Prog.bind_assoc, Prog.pure_eq]
  refine h.call_retried (hstage 0 (by omega)) fun z hz => ?_
  rw [hm]
  simp only [Prog.bind_assoc, Prog.ret_bind]
  refine hz.call_record (hdisk.symm ▸ hdir) hne (fun j hj => ?_) fun g v hv => hk _ g v hv
  rw [hstage (j + 1) (by omega), Nat.add_assoc, Nat.add_comm 1 j]

/-- The end of an open. -/
private theorem Amid.call_rest {fd : Int} {off : Nat} {y : File} {a : α}
    (h : Amid copy lost u files [(fd, copy, off, true)] x) (hy : files copy = some y)
    (hstage : ∀ j, n ≤ j → some y.bytes = stage j) :
    Stages env copy lost stage (Client.sys (.fsync fd) >>= fun _ => Client.sys (.lstat copy) >>= fun _ =>
      .ret a) n x := by
  have hcopy : ∀ j, n ≤ j → (files copy).map (·.bytes) = stage j := by
    intro j hj
    rw [hy, Option.map_some]
    exact hstage j hj
  refine h.call_fsync (hcopy n (by omega)) fun z hz => ?_
  refine hz.call_lstat (hcopy (n + 1) (by omega)) hy fun _ v hv => ?_
  exact hv.finish fun j hj => hcopy j (by omega)

end Answered

/-- An open that is answered and fetches, beside a reader. -/
theorem afsOpen_stages {reply : GetattrRes} {m : FetchReply} {fh : Int} {g : Int × Int → α}
    (hdir : FlatDir dir s.disk) (hp : p ≠ databasePath)
    (hl : s.disk.look (getLocalPath p dir) = some f) (hnew : s.Newer env junk p)
    (ha : (s.asked env p).1 = some reply) (hm : (s.fetchedReply env p dir).1 = some m)
    (h : Amid (getLocalPath p dir) none s s.disk.look [] x) :
    Stages env (getLocalPath p dir) none (Client.openStage f.bytes
        (Client.written (m.buf ++ junk.beyond) (sizeT m.size.toInt)))
      (Client.afsOpen junk p dir fh >>= fun r => .ret (g r)) 0 x := by
  have hdb := getLocalPath_ne_database hp dir
  have hcopy : s.HasCopy p dir := by
    rw [St.HasCopy, hl]
    exact Option.some_ne_none f
  have hfrom : s.fetchFrom env p dir = (s.asked env p).2 := if_pos hcopy
  have hwaits : s.client.Waits (s.asked env p).2.client := Env.retryLoop_client env _ _ _
  have hdisk : (s.asked env p).2.disk = s.disk := hwaits.fs
  generalize hnb : Client.written (m.buf ++ junk.beyond) (sizeT m.size.toInt) = new
  have hold : ∀ n, n < 4 → (s.disk.look (getLocalPath p dir)).map (·.bytes) =
      Client.openStage f.bytes new n := by
    intro n hn
    rw [hl, Client.openStage, if_pos hn, Option.map_some]
  simp only [Client.afsOpen, Client.openCopy, Prog.bind_assoc, Prog.pure_eq, Prog.ret_bind]
  refine h.call_open (hold 0 (by omega)) hl fun fd z1 h0 _ h1 => ?_
  have hfd : fd ≠ -1 := by omega
  simp only [hfd, if_false, Prog.bind_assoc, Prog.ret_bind]
  refine h1.call_getattr (hold 1 (by omega)) ha fun rc z2 h2 => ?_
  refine h2.call_get (hold 2 (by omega)) fun z3 h3 => ?_
  have hfetch : (Client.seen junk (some reply)).st_mtime > ((s.asked env p).2.client.ht.get p).toInt := by
    rw [hwaits.table, ← ha]
    exact hnew
  simp only [hfetch, decide_true, if_true, Client.fetchNewCopy, Prog.bind_assoc]
  refine h3.call_ftruncate (hold 3 (by omega)) hl fun g1 z4 hg1 h4 => ?_
  simp only [Int.lt_irrefl, if_false, Prog.bind_assoc]
  have hempty : ∀ n, 4 ≤ n → n < 11 → some g1.bytes = Client.openStage f.bytes new n := by
    intro n hn hn'
    rw [hg1, Client.openStage, if_neg (by omega), if_pos hn']
  rw [St.fetchedReply, hfrom] at hm
  refine h4.call_fetch (hdisk.symm ▸ hdir) hdb.symm (fun j hj => ?_) hm fun v g2 z5 h5 => ?_
  · rw [Function.update_self, Option.map_some]
    exact hempty _ (by omega) (by omega)
  simp only [Int.lt_irrefl, if_false, Option.getD_some, Prog.bind_assoc, Prog.pure_eq, Prog.ret_bind]
  have hlook : Function.update (Function.update s.disk.look (getLocalPath p dir) (some g1))
      (getLocalPath databasePath dir) (some g2) (getLocalPath p dir) = some g1 := by
    rw [Function.update_of_ne hdb, Function.update_self]
  have hfull : ∀ n, 11 ≤ n → some new = Client.openStage f.bytes new n := by
    intro n hn
    rw [Client.openStage, if_neg (by omega), if_neg (by omega)]
  have hstage : (Function.update (Function.update s.disk.look (getLocalPath p dir) (some g1))
      (getLocalPath databasePath dir) (some g2) (getLocalPath p dir)).map (·.bytes) =
        Client.openStage f.bytes new 10 := by
    rw [hlook, Option.map_some]
    exact hempty 10 (by omega) (by omega)
  by_cases hlen : (m.buf ++ junk.beyond).length < sizeT m.size.toInt
  · refine h5.call_fails hstage (fun y hy => ⟨EFAULT, ?_⟩) fun z6 h6 => ?_
    · simp only [Sys.perform, hlen, if_true]
    · refine h6.call_rest hlook fun n hn => ?_
      rw [hg1, ← hfull n hn, ← hnb, Client.written, if_pos hlen]
  · have hcount : sizeT m.size.toInt =
        ((m.buf ++ junk.beyond).take (sizeT m.size.toInt)).length := by
      rw [List.length_take]
      omega
    refine h5.call_fill hstage hlook hg1 hcount (List.take_prefix _ _) (List.forall_mem_nil _)
      fun g3 z6 hg3 h6 => ?_
    refine h6.call_rest (Function.update_self ..) fun n hn => ?_
    rw [hg3, ← hfull n hn, ← hnb, Client.written, if_neg hlen]

/-- A read of one thread among commands of another one: `acts` says how many of them come before each
command of the read. Beside the state, the other thread has its program and its error number. -/
def Client.readAmong (env : Env) (p cache_path : Path) (size offset : Nat) (acts : List Nat)
    (x : Prog clientSig α × Int × St) : Option ((Int × Bytes) × Prog clientSig α × Int × St) :=
  (Client.afsRead p cache_path size offset).interleave (Prog.beside (Prog.beside env.exec))
    (Prog.steps env.other) acts x

section Read

variable {copy : Path} {lost : Option Bytes} {stage : Nat → Option Bytes} {q : Prog clientSig α} {n : Nat}
  {g : Option Int} {y : Int × St}

/-- The other thread leaves the reader's error number. -/
private theorem steps_errno (k : Nat) (x : Prog clientSig α × Int × St) :
    (Prog.steps env.other k x).2.2.client.proc.errno = x.2.2.client.proc.errno := by
  induction k generalizing x with
  | zero => rfl
  | succ k ih =>
      obtain ⟨q, y⟩ := x
      cases q with
      | ret a => exact ih _
      | halt => exact ih _
      | op c f => exact (ih _).trans rfl

/-- The reader's next command, and the commands of the other thread before it. -/
private theorem Stages.turn {β : Type} {c : Cmd} {k : c.Res → Prog clientSig β} {acts : List Nat}
    {v : β × Prog clientSig α × Int × St} (h : Stages env copy lost stage q n (g, y))
    (hrun : (Prog.call (σ := clientSig) c >>= k).interleave (Prog.beside (Prog.beside env.exec))
      (Prog.steps env.other) acts (q, y) = some v) :
    ∃ j acts' q' y', acts = j :: acts' ∧ Stages env copy lost stage q' (n + j) (g, y') ∧
      y'.2.client.proc.errno = y.2.client.proc.errno ∧
      (k (env.exec c y'.2).1).interleave (Prog.beside (Prog.beside env.exec)) (Prog.steps env.other)
        acts' (q', y'.1, (env.exec c y'.2).2) = some v := by
  obtain ⟨j, acts', rfl, hnext⟩ := Prog.interleave_op hrun
  exact ⟨j, acts', (Prog.steps env.other j (q, y)).1, (Prog.steps env.other j (q, y)).2, rfl,
    Prog.Passes.steps (x := (g, y)) (Moment.Acts.refl copy) j h, steps_errno j (q, y), hnext⟩

/-- A call of the reader that only looks. -/
private theorem Stages.look (h : Stages env copy lost stage q n (g, y)) {c : Sys}
    (hc : ∀ r t, c.perform none y.2.disk = .ok (r, t) → t = y.2.disk) :
    Stages env copy lost stage q n (g, y.1, (env.exec (.sys c) y.2).2) := by
  have hf : y.2.client.proc.faults = [] := (h.now (Moment.Acts.refl copy _)).faults
  refine h.act fun z hz => Moment.Acts.trans ?_ hz
  cases hp : c.perform none y.2.disk with
  | error e =>
      refine ⟨e, y.2.disk, ?_, Or.inl ⟨rfl, rfl⟩⟩
      rw [Env.exec_sys_error hf hp]
      rfl
  | ok x =>
      obtain ⟨r, t⟩ := x
      obtain rfl := hc r t hp
      refine ⟨y.2.client.proc.errno, y.2.disk, ?_, Or.inl ⟨rfl, rfl⟩⟩
      rw [Env.exec_sys hf hp]
      rfl

private theorem perform_lstat_still {l : Path} {s t : Fs} {r : Option Stat}
    (h : Sys.perform none (.lstat l) s = .ok (r, t)) : t = s := by
  obtain ⟨x, -, hx⟩ := map_eq_ok.mp h
  exact (Prod.mk.inj hx).2.symm

/-- The reader's open: without a copy it fails, and with one it gives a descriptor to read from. -/
private theorem Stages.open (h : Stages env copy lost stage q n (none, y)) :
    (stage n = none ∧ (env.exec (.sys (.openF copy {} 0)) y.2).1 = (-1 : Int) ∧
      Stages env copy lost stage q n (none, y.1, (env.exec (.sys (.openF copy {} 0)) y.2).2)) ∨
    ∃ fd : Int, stage n ≠ none ∧ (env.exec (.sys (.openF copy {} 0)) y.2).1 = fd ∧
      Stages env copy lost stage q n (some fd, y.1, (env.exec (.sys (.openF copy {} 0)) y.2).2) := by
  have hnow := h.now (Moment.Acts.refl copy _)
  have hcontent := hnow.content
  cases hl : y.2.disk.look copy with
  | none =>
      have ho : Sys.perform none (.openF copy {} 0) y.2.disk = .error (y.2.disk.absent copy) :=
        Fs.openFile_missing hl hnow.plain {} rfl 0
      have hstill := h.look (c := .openF copy {} 0) fun r t hp => by rw [ho] at hp; cases hp
      rw [hl] at hcontent
      refine Or.inl ⟨hcontent.symm, ?_, hstill⟩
      rw [Env.exec_sys_error hnow.faults ho]
      rfl
  | some f =>
      obtain ⟨fd, t, ho, -, -⟩ := Fs.openFile_of_look hl {} rfl 0
      have hexec : env.exec (.sys (.openF copy {} 0)) y.2 = ((fd : Int), y.2.withDisk t) :=
        Env.exec_sys hnow.faults ho
      rw [hl] at hcontent
      refine Or.inr ⟨fd, ?_, by rw [hexec], h.act fun z hz => Moment.Acts.trans ?_ hz⟩
      · rw [← hcontent]
        exact Option.some_ne_none _
      · rw [hexec]
        exact ⟨y.2.client.proc.errno, t, rfl, Or.inr ⟨rfl, fd, rfl, ho⟩⟩

/-- What a read gives beside a program that shows it these stages, in terms of the commands before its
`open` and before its `pread`. -/
theorem readAmong_stages {size offset : Nat} {acts : List Nat} {e : Int} {r : Int × Bytes}
    {v : Prog clientSig α × Int × St}
    (h : Stages env (getLocalPath p dir) lost stage q 0 (none, e, s))
    (hrun : Client.readAmong env p dir size offset acts (q, e, s) = some (r, v)) :
    stage (acts.take 2).sum = none ∧ r.1 < 0 ∨
      stage (acts.take 2).sum ≠ none ∧ ∃ d, (stage (acts.take 3).sum = some d ∨ lost = some d) ∧
        r = (((slice d offset size).length : Int), slice d offset size) := by
  obtain ⟨k1, acts1, q1, y1, rfl, h1, -, hrun1⟩ := h.turn hrun
  clear hrun
  have h1' := h1.look (c := .lstat (getLocalPath p dir)) fun r t => perform_lstat_still
  obtain ⟨k2, acts2, q2, y2, rfl, h2, -, hrun2⟩ := h1'.turn hrun1
  clear hrun1
  have hfirst : 0 + k1 + k2 = ((k1 :: k2 :: acts2).take 2).sum := by
    simp
  rw [hfirst] at h2
  rcases h2.open with ⟨hnone, hfd, h3⟩ | ⟨fd, hsome, hfd, h3⟩
  · refine Or.inl ⟨hnone, ?_⟩
    rw [hfd] at hrun2
    obtain ⟨k3, acts3, q3, y3, rfl, h4, -, hrun3⟩ := h3.turn hrun2
    have hbad : Sys.perform none (.pread (-1) size offset) y3.2.disk = .error EBADF := rfl
    have hexec : env.exec (.sys (.pread (-1) size offset)) y3.2 = (none, y3.2.withErrno EBADF) :=
      Env.exec_sys_error (h4.now (Moment.Acts.refl _ _)).faults hbad
    have h4' := h4.look (c := .pread (-1) size offset) fun r t hp => by rw [hbad] at hp; cases hp
    rw [hexec] at hrun3 h4'
    obtain ⟨k4, acts4, q4, y4, rfl, h5, herr4, hrun4⟩ := h4'.turn hrun3
    have hpos4 : 0 < y4.2.client.proc.errno := by
      rw [herr4]
      exact (by decide : (0 : Int) < EBADF)
    have hfaults : y4.2.client.proc.faults = [] := (h5.now (Moment.Acts.refl _ _)).faults
    have hpos : 0 < (env.exec (.sys (.lstat (getLocalPath p dir))) y4.2).2.client.proc.errno :=
      Sys.exec_errno_pos _ (by rw [hfaults]; exact List.forall_mem_nil _) hpos4
    have h5' := h5.look (c := .lstat (getLocalPath p dir)) fun r t => perform_lstat_still
    obtain ⟨k5, acts5, q5, y5, rfl, h6, herr5, hrun5⟩ := h5'.turn hrun4
    obtain ⟨-, hr⟩ := Prog.interleave_ret hrun5
    obtain ⟨rfl, -⟩ := Prod.mk.inj hr
    have herr : (env.exec .errno y5.2).1 = y5.2.client.proc.errno := rfl
    rw [herr, herr5]
    exact Int.neg_neg_of_pos hpos
  · rw [hfd] at hrun2
    obtain ⟨k3, acts3, q3, y3, rfl, h4, -, hrun3⟩ := h3.turn hrun2
    clear hrun2
    have hnow := h4.now (Moment.Acts.refl _ _)
    obtain ⟨d, hpread, hd⟩ := (hnow.reader fd rfl).pread size offset
    have hlast : ((k1 :: k2 :: k3 :: acts3).take 2).sum + k3 = ((k1 :: k2 :: k3 :: acts3).take 3).sum := by
      simp [Nat.add_assoc]
    rw [hnow.content, hlast] at hd
    refine Or.inr ⟨hsome, d, hd, ?_⟩
    have hp : Sys.perform none (.pread fd size offset) y3.2.disk =
        .ok (some (slice d offset size), y3.2.disk) := by
      change (y3.2.disk.pread fd size offset).map _ = _
      rw [hpread]
      rfl
    have hexec : (env.exec (.sys (.pread fd size offset)) y3.2).1 = some (slice d offset size) := by
      rw [Env.exec_sys hnow.faults hp]
    have h4' := h4.look (c := .pread fd size offset) fun r t hr => by
      rw [hp] at hr
      exact (Prod.mk.inj (Except.ok.inj hr)).2.symm
    rw [hexec] at hrun3
    obtain ⟨k4, acts4, q4, y4, rfl, -, -, hrun4⟩ := h4'.turn hrun3
    obtain ⟨-, hr⟩ := Prog.interleave_ret hrun4
    exact (Prod.mk.inj hr).1

end Read

/-- The read gives the requested slice of one of two versions. -/
def Client.OneVersion (old new : Bytes) (size offset : Nat) (r : Int × Bytes) : Prop :=
  ∃ d, (d = old ∨ d = new) ∧ r = (((slice d offset size).length : Int), slice d offset size)

/-- What an operation beside a read meets: a write can make its temporary file; an open is told a newer time
and gets a reply to its fetch. -/
def St.Replaces (env : Env) (junk : Junk) (p cache_path : Path) (s : St) : Op → Prop
  | .write .. => s.disk.isDir (getLocalTmpPath p cache_path) = false ∧
      s.disk.isDir (parent (getLocalTmpPath p cache_path)) = true
  | .openF => s.Newer env junk p ∧ (s.asked env p).1 ≠ none ∧ (s.fetchedReply env p cache_path).1 ≠ none
  | _ => False

instance (env : Env) (junk : Junk) (p cache_path : Path) (s : St) (op : Op) :
    Decidable (s.Replaces env junk p cache_path op) :=
  match op with
  | .write .. => inferInstanceAs (Decidable (_ ∧ _))
  | .openF => inferInstanceAs (Decidable (_ ∧ _ ∧ _))
  | .create | .read .. | .release _ | .fsync _ | .getattr | .truncate _ | .chown .. | .chmod _
  | .utimens .. | .unlink | .mkdir _ | .rmdir | .readdir => inferInstanceAs (Decidable False)

/-- When the calls of a read miss the gap of the operation beside it: its `open` does not fall between the
write's `remove` and `rename`; its `pread` does not fall between the open's `ftruncate` and `write`, or asks
for nothing of one of the versions. -/
def Op.MissedBy (old new : Bytes) (size offset : Nat) (acts : List Nat) : Op → Prop
  | .write _ buffer _ => buffer = [] ∨ (acts.take 2).sum ≠ 10
  | .openF => (acts.take 3).sum < 4 ∨ 10 < (acts.take 3).sum ∨
      slice old offset size = [] ∨ slice new offset size = []
  | _ => True

section Versions

variable {buffer : Bytes} {size offset at_ : Nat} {acts : List Nat} {k : Nat} {e fh : Int} {r : Int × Bytes}
  {v : Prog clientSig Result × Int × St}

/-- Before the other thread's first command. -/
private theorem amid_start (lost : Option Bytes) (hf : s.client.proc.faults = [])
    (hl : s.disk.look (getLocalPath p dir) = some f) :
    Amid (getLocalPath p dir) lost s s.disk.look [] (none, e, s) where
  alike := ⟨rfl, rfl, rfl, rfl⟩
  table := rfl
  faults := hf
  plain := Fs.isDir_of_look hl
  isDir := rfl
  look := rfl
  own := List.forall_mem_nil _
  reader fd hfd := by cases hfd

/-- A failed read gives no version. -/
private theorem not_oneVersion {old new : Bytes} (h : r.1 < 0) :
    ¬ Client.OneVersion old new size offset r := by
  rintro ⟨d, -, rfl⟩
  exact absurd h (Int.not_lt.mpr (Int.natCast_nonneg _))

/-- A read beside a write of at least one byte. -/
private theorem read_beside_write (hb : buffer ≠ []) (hf : s.client.proc.faults = [])
    (hdir : FlatDir dir s.disk) (hp : p ≠ databasePath)
    (hl : s.disk.look (getLocalPath p dir) = some f) (hlen : f.bytes.length < 2 ^ 64)
    (hop : s.Replaces env junk p dir (.write k buffer at_))
    (hrun : Client.readAmong env p dir size offset acts
      ((Op.write k buffer at_).prog junk p dir fh, e, s) = some (r, v)) :
    Client.OneVersion f.bytes (splice f.bytes at_ buffer) size offset r ↔ (acts.take 2).sum ≠ 10 := by
  have hstages : Stages env (getLocalPath p dir) (some f.bytes)
      (Client.writeStage f.bytes (splice f.bytes at_ buffer))
      ((Op.write k buffer at_).prog junk p dir fh) 0 (none, e, s) :=
    afsWrite_stages hb hdir hp hl hlen hop.1 hop.2 (amid_start _ hf hl)
  rcases readAmong_stages hstages hrun with ⟨hnone, hneg⟩ | ⟨hsome, d, hd, hr⟩
  · refine iff_of_false (not_oneVersion hneg) (not_not_intro ?_)
    unfold Client.writeStage at hnone
    split at hnone
    · cases hnone
    · split at hnone
      · next h => exact h
      · cases hnone
  · refine iff_of_true ⟨d, ?_, hr⟩ fun h => hsome ?_
    · rcases hd with hd | hd
      · unfold Client.writeStage at hd
        split at hd
        · exact Or.inl (Option.some.inj hd).symm
        · split at hd
          · cases hd
          · exact Or.inr (Option.some.inj hd).symm
      · exact Or.inl (Option.some.inj hd).symm
    · rw [h]
      rfl

/-- A read beside an open that fetches. -/
private theorem read_beside_open {m : FetchReply} (hf : s.client.proc.faults = [])
    (hdir : FlatDir dir s.disk) (hp : p ≠ databasePath)
    (hl : s.disk.look (getLocalPath p dir) = some f) (hop : s.Replaces env junk p dir .openF)
    (hm : (s.fetchedReply env p dir).1 = some m) {new : Bytes}
    (hnew : Client.written (m.buf ++ junk.beyond) (sizeT m.size.toInt) = new)
    (hrun : Client.readAmong env p dir size offset acts (Op.openF.prog junk p dir fh, e, s) =
      some (r, v)) :
    Client.OneVersion f.bytes new size offset r ↔ Op.openF.MissedBy f.bytes new size offset acts := by
  obtain ⟨hnewer, ha, -⟩ := hop
  obtain ⟨reply, ha⟩ := Option.ne_none_iff_exists'.mp ha
  have hstages : Stages env (getLocalPath p dir) none (Client.openStage f.bytes
      (Client.written (m.buf ++ junk.beyond) (sizeT m.size.toInt)))
      (Op.openF.prog junk p dir fh) 0 (none, e, s) :=
    afsOpen_stages hdir hp hl hnewer ha hm (amid_start _ hf hl)
  rw [hnew] at hstages
  rcases readAmong_stages hstages hrun with ⟨hnone, -⟩ | ⟨-, d, hd | hd, hr⟩
  · exact absurd hnone (Option.some_ne_none _)
  · obtain rfl := Option.some.inj hd
    by_cases h4 : (acts.take 3).sum < 4
    · rw [if_pos h4] at hr
      exact iff_of_true ⟨_, Or.inl rfl, hr⟩ (Or.inl h4)
    · by_cases h11 : (acts.take 3).sum < 11
      · rw [if_neg h4, if_pos h11] at hr
        have hnil : slice [] offset size = [] := by simp [slice]
        rw [hnil] at hr
        have hiff : Op.openF.MissedBy f.bytes new size offset acts ↔
            slice f.bytes offset size = [] ∨ slice new offset size = [] := by
          have h10 : ¬ 10 < (acts.take 3).sum := by omega
          simp only [Op.MissedBy, h4, h10, false_or]
        rw [hiff, hr]
        constructor
        · rintro ⟨w, hw, he⟩
          have hempty : slice w offset size = [] := (Prod.mk.inj he).2.symm
          rcases hw with rfl | rfl
          · exact Or.inl hempty
          · exact Or.inr hempty
        · rintro (h | h)
          · exact ⟨_, Or.inl rfl, by rw [h]⟩
          · exact ⟨_, Or.inr rfl, by rw [h]⟩
      · rw [if_neg h4, if_neg h11] at hr
        exact iff_of_true ⟨_, Or.inr rfl, hr⟩ (Or.inr (Or.inl (by omega)))
  · cases hd

/-- One thread of a client reads a cached file while another one writes it, or opens it and fetches, with
the system calls of the two in any order. The read gives the slice of the bytes before the other operation
or of those after it exactly when its calls miss the gap of that operation. The table's own file is dumped
to behind the gap, so that only a write of no bytes is taken beside a read of it. -/
theorem read_one_version_iff {op : Op} {old : Bytes} (hf : s.client.proc.faults = [])
    (hdir : FlatDir dir s.disk) (hdb : p = databasePath → ∃ k at_, op = .write k [] at_)
    (hold : (s.disk.look (getLocalPath p dir)).map (·.bytes) = some old) (hlen : old.length < 2 ^ 63)
    (hop : s.Replaces env junk p dir op)
    (hrun : Client.readAmong env p dir size offset acts (op.prog junk p dir fh, e, s) = some (r, v)) :
    ∃ new, (((op.prog junk p dir fh).run env.exec s).2.disk.look (getLocalPath p dir)).map (·.bytes) =
        some new ∧
      (Client.OneVersion old new size offset r ↔ op.MissedBy old new size offset acts) := by
  obtain ⟨f, hl, rfl⟩ := Option.map_eq_some_iff.mp hold
  cases op with
  | write k buffer at_ =>
      by_cases hb : buffer = []
      · subst hb
        have hnil : Client.afsWrite junk p dir [] at_ = .ret 0 := by
          simp only [Client.afsWrite, List.length_nil, gt_iff_lt, Nat.lt_irrefl, if_false, Prog.pure_eq]
        have hprog : (Op.write k [] at_).prog junk p dir fh = .ret { ret := 0 } := by
          simp only [Op.prog, hnil, Prog.ret_bind, Prog.pure_eq]
        rw [hprog] at hrun ⊢
        refine ⟨f.bytes, by rw [Prog.run_ret, hl, Option.map_some], iff_of_true ?_ (Or.inl rfl)⟩
        have hstages : Stages env (getLocalPath p dir) none (fun _ => some f.bytes)
            (Prog.ret { ret := 0 } : Prog clientSig Result) 0 (none, e, s) :=
          (amid_start none hf hl).finish fun _ _ => by rw [hl, Option.map_some]
        rcases readAmong_stages hstages hrun with ⟨hnone, -⟩ | ⟨-, d, hd | hd, hr⟩
        · cases hnone
        · exact ⟨d, Or.inl (Option.some.inj hd).symm, hr⟩
        · cases hd
      · have hp : p ≠ databasePath := fun he => by
          obtain ⟨_, _, hop⟩ := hdb he
          exact hb (Op.write.inj hop).2.1
        have hyields := @afsWrite_faulty env junk p dir buffer at_ [] s f hb (List.forall_mem_nil _) hf
          (by decide) hdir hl hop.1 hop.2 (getLocalPath_ne_getLocalTmpPath p dir)
        obtain ⟨rc, t, hrunw, -, -, hcontent⟩ := hyields
        refine ⟨splice f.bytes at_ buffer, ?_, ?_⟩
        · have hend : (((Op.write k buffer at_).prog junk p dir fh).run env.exec s).2 = t :=
            (Prog.run_bind_ret ..).trans (congrArg Prod.snd hrunw)
          have hfine : Client.oldCopied junk [] 1 f.bytes = f.bytes := by
            refine oldCopied_of_fine (by omega) fun j _ => ?_
            rw [fault, List.drop_nil, List.headD_nil]
          rw [hend, hcontent, if_neg hp]
          change some (overwrite (Client.oldCopied junk [] 1 f.bytes) at_ (buffer.take buffer.length)) = _
          rw [hfine, List.take_length, overwrite_of_ne_nil _ _ hb]
        · rw [read_beside_write hb hf hdir hp hl (by omega) hop hrun]
          simp only [Op.MissedBy, hb, false_or]
  | openF =>
      have hp : p ≠ databasePath := fun he => by
        obtain ⟨_, _, hop⟩ := hdb he
        cases hop
      obtain ⟨m, hm⟩ := Option.ne_none_iff_exists'.mp hop.2.2
      have hcopy : s.HasCopy p dir := by
        rw [St.HasCopy, hl]
        exact Option.some_ne_none f
      have hfetches : s.Fetches env junk p dir := by
        rw [St.Fetches, if_pos hcopy]
        exact hop.1
      obtain ⟨rc, t, hruno, -, -, -, g, hg, hcopied⟩ :=
        @afsOpen_answered env junk p dir s fh m hf hdir hfetches hm
      rw [Client.copied, if_neg hp, List.nil_append] at hcopied
      refine ⟨g.bytes, ?_, read_beside_open hf hdir hp hl hop hm hcopied.symm hrun⟩
      have hend : ((Op.openF.prog junk p dir fh).run env.exec s).2 = t :=
        (Prog.run_bind_ret ..).trans (congrArg Prod.snd hruno)
      rw [hend, hg, Option.map_some]
  | _ => exact hop.elim

/-- The bytes of the cached file after an operation alone. -/
def bytesAfter (op : Op) (w : World (Bool)) : Option Bytes :=
  (((op.prog .zero sampleFile (sample.cache_path false) 3).run (Env.exec ⟨sample.root_path, .zero⟩)
    (w.state false (sampleTime 5 900) [] [])).2.disk.look
      (getLocalPath sampleFile (sample.cache_path false))).map (·.bytes)

/-- A client opens its file; another one opens, writes and releases it. -/
def reopened : List (Bool × Timespec × Op) :=
  [(false, sampleTime 1 0, .openF), (true, sampleTime 2 900, .openF),
    (true, sampleTime 3 900, .write 0 [9] 0), (true, sampleTime 4 900, .release 0)]

/-- The first client reads a byte beside an operation. -/
def readBeside (op : Op) (acts : List Nat) (w : World (Bool)) :
    Option ((Int × Bytes) × Prog clientSig Result × Int × St) :=
  Client.readAmong ⟨sample.root_path, .zero⟩ sampleFile (sample.cache_path false) 1 0 acts
    (op.prog .zero sampleFile (sample.cache_path false) 3, 0, w.state false (sampleTime 5 900) [] [])

private theorem exists_read_beside {op : Op} {acts : List Nat} {r : Int × Bytes} {b : Bytes}
    (h : (((sampleCalls reopened).foldlM (World.call sample) sampleBoot).bind fun w : World (Bool) =>
      (readBeside op acts w).map fun x => (x.1, bytesAfter op w, decide
        ((w.state false (sampleTime 5 900) [] []).Replaces ⟨sample.root_path, .zero⟩ .zero sampleFile
          (sample.cache_path false) op))) = some (r, some b, true)) :
    ∃ (w : World (Bool)) (v : Prog clientSig Result × Int × St),
      Transition.Run (World.call sample) (fun _ c => c.Shares {sampleFile}) sampleBoot
        (sampleCalls reopened) w ∧ w.Sound sample {sampleFile} ∧
      w.cached sample false sampleFile = some [1] ∧ readBeside op acts w = some (r, v) ∧
      bytesAfter op w = some b ∧ (w.state false (sampleTime 5 900) [] []).Replaces
        ⟨sample.root_path, .zero⟩ .zero sampleFile (sample.cache_path false) op := by
  obtain ⟨w, hr, hw, hv⟩ := exists_sharing_run (l := reopened) rfl
  rw [hr.foldlM_eq, Option.bind_some, Option.map_eq_some_iff] at h
  obtain ⟨⟨r', v⟩, hread, hx⟩ := h
  simp only [Prod.mk.injEq, decide_eq_true_eq] at hx
  obtain ⟨rfl, hb, hop⟩ := hx
  have hcached : (w.view sample sampleFile).cached false = some [1] := by
    rw [hv]
    rfl
  exact ⟨w, v, hr, hw, hcached, hread, hb, hop⟩

/-- A write that has nine of its commands before the read's `open`, and an open that has eleven before its
`pread`. -/
theorem read_one_version_iff_around :
    (∃ (w : World (Bool)) (r : Int × Bytes) (v : Prog clientSig Result × Int × St) (new : Bytes),
      readBeside (.write 0 [9] 0) [4, 5, 3, 0] w = some (r, v) ∧
        bytesAfter (.write 0 [9] 0) w = some new ∧ Client.OneVersion [1] new 1 0 r) ∧
    ∃ (w : World (Bool)) (r : Int × Bytes) (v : Prog clientSig Result × Int × St) (new : Bytes),
      readBeside .openF [0, 2, 9, 0] w = some (r, v) ∧ bytesAfter .openF w = some new ∧
        Client.OneVersion [1] new 1 0 r := by
  constructor
  · obtain ⟨w, v, -, hw, hcached, hread, -, hop⟩ :=
      @exists_read_beside (.write 0 [9] 0) [4, 5, 3, 0] (1, [1]) [9] (by decide +kernel)
    obtain ⟨new, hnew, hiff⟩ := read_one_version_iff (p := sampleFile)
      (s := w.state false (sampleTime 5 900) [] []) rfl (hw.cache false) (fun h => absurd h (by decide))
      hcached (by decide) hop hread
    exact ⟨w, _, v, new, hread, hnew, hiff.mpr (Or.inr (by decide))⟩
  · obtain ⟨w, v, -, hw, hcached, hread, -, hop⟩ :=
      @exists_read_beside .openF [0, 2, 9, 0] (1, [9]) [9] (by decide +kernel)
    obtain ⟨new, hnew, hiff⟩ := read_one_version_iff (p := sampleFile)
      (s := w.state false (sampleTime 5 900) [] []) rfl (hw.cache false) (fun h => absurd h (by decide))
      hcached (by decide) hop hread
    exact ⟨w, _, v, new, hread, hnew, hiff.mpr (Or.inr (Or.inl (by decide)))⟩

/-- A read whose `open` falls between the write's `remove` and `rename` fails, and one whose `pread` falls
between the open's `ftruncate` and `write` gives nothing. -/
theorem read_in_the_gap :
    (∃ (w : World (Bool)) (v : Prog clientSig Result × Int × St),
      Transition.Run (World.call sample) (fun _ c => c.Shares {sampleFile}) sampleBoot
        (sampleCalls reopened) w ∧ w.cached sample false sampleFile = some [1] ∧
      readBeside (.write 0 [9] 0) [0, 10, 0, 0, 0] w = some ((-2, []), v) ∧
      bytesAfter (.write 0 [9] 0) w = some [9] ∧ ¬ Client.OneVersion [1] [9] 1 0 (-2, [])) ∧
    ∃ (w : World (Bool)) (v : Prog clientSig Result × Int × St),
      Transition.Run (World.call sample) (fun _ c => c.Shares {sampleFile}) sampleBoot
        (sampleCalls reopened) w ∧ w.cached sample false sampleFile = some [1] ∧
      readBeside .openF [0, 0, 5, 0] w = some ((0, []), v) ∧ bytesAfter .openF w = some [9] ∧
      ¬ Client.OneVersion [1] [9] 1 0 (0, []) := by
  constructor
  · obtain ⟨w, v, hr, -, hcached, hread, hb, -⟩ :=
      @exists_read_beside (.write 0 [9] 0) [0, 10, 0, 0, 0] (-2, []) [9] (by decide +kernel)
    exact ⟨w, v, hr, hcached, hread, hb, not_oneVersion (by decide)⟩
  · obtain ⟨w, v, hr, -, hcached, hread, hb, -⟩ :=
      @exists_read_beside .openF [0, 0, 5, 0] (0, []) [9] (by decide +kernel)
    refine ⟨w, v, hr, hcached, hread, hb, ?_⟩
    rintro ⟨d, rfl | rfl, hd⟩
    · exact absurd hd (by decide)
    · exact absurd hd (by decide)

end Versions

end Afs
