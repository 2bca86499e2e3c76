import Afs.Ops.Attempts
import Afs.Ops.ClientOps

/-!
# Opening a file whatever the network does

The client's own calls meet no faults here, but the attempts of the remote calls may have any outcome
and the handlers any faults. An open then asks for the attributes, decides whether it fetches, and
ends in one of four ways: it keeps the copy, it takes the bytes of a reply, it gives up because no
reply came, or it cannot make a copy at all.
-/

namespace Afs

open Posix Interaction

/-- A client program whose own calls do not fail changed at most the listed names of its disk. -/
structure DiskEffect (s t : St) (ps : List Path) : Prop where
  /-- The disk outside the listed names. -/
  disk : s.disk.Only t.disk ps
  /-- Still no faults of the client's calls. -/
  faults : t.client.proc.faults = []

namespace DiskEffect

variable {s t u : St} {ps qs : List Path}

theorem step (hf : s.client.proc.faults = []) {t : Fs} (h : s.disk.Only t ps) :
    DiskEffect s (s.withDisk t) ps := ⟨h, hf⟩

theorem trans (h : DiskEffect s t ps) (k : DiskEffect t u qs) : DiskEffect s u (ps ++ qs) :=
  ⟨h.disk.trans k.disk, k.faults⟩

theorem mono (h : DiskEffect s t ps) (hs : ps ⊆ qs) : DiskEffect s t qs := ⟨h.disk.mono hs, h.faults⟩

/-- A remote call leaves the disk. -/
theorem of_waits (hf : s.client.proc.faults = []) (h : s.client.Waits t.client) :
    DiskEffect s t ps := by
  refine ⟨?_, h.faults.trans hf⟩
  unfold St.disk
  rw [h.fs]
  exact Fs.Only.refl _ _

end DiskEffect

namespace Client

/-- The attributes that an open looks at after it asked for them. -/
def seen (junk : Junk) : Option GetattrRes → Stat
  | some reply => if reply.err ≠ 0 then junk.stats else statOfReply reply
  | none => junk.stats

/-- What a write of `n` bytes from a memory puts into an empty file. -/
def written (mem : Bytes) (n : Nat) : Bytes := if mem.length < n then [] else mem.take n

/-- What an open puts into the copy from a reply, with the table that it has written out. The copy of
the database file's own path begins with this table. -/
def copied (junk : Junk) (path : Path) (ht : HashTable) (m : FetchReply) : Bytes :=
  (if path = databasePath then dumpText ht else []) ++
    written (m.buf ++ junk.beyond) (sizeT m.size.toInt)

end Client

section Opening

variable (env : Env) (junk : Junk) (path cache_path : Path) (s : St)

/-- The answer to the request for the attributes, if one arrives, and the state after it. -/
def St.asked : Option GetattrRes × St := env.exec (.retried (.getattr path)) s

/-- The copy is there. -/
def St.HasCopy : Prop := s.disk.look (getLocalPath path cache_path) ≠ none

instance : Decidable (s.HasCopy path cache_path) := by unfold St.HasCopy; infer_instance

/-- The time that an open sees is greater than the recorded value. -/
def St.Newer : Prop :=
  (Client.seen junk (s.asked env path).1).st_mtime > (s.client.ht.get path).toInt

instance : Decidable (s.Newer env junk path) := by unfold St.Newer; infer_instance

/-- A copy can be made. -/
def St.CanCreate : Prop :=
  s.disk.isDir (getLocalPath path cache_path) = false ∧
    s.disk.isDir (parent (getLocalPath path cache_path)) = true

/-- An open fetches: it has no copy but can make one, or the time that it sees is newer. -/
def St.Fetches : Prop :=
  if s.HasCopy path cache_path then s.Newer env junk path else s.CanCreate path cache_path

/-- The state in which an open makes its attempts to fetch, up to the client's disk: without a copy the
attributes were not asked for, and the error number is the one of the first try to open the copy. -/
def St.fetchFrom : St :=
  if s.HasCopy path cache_path then (s.asked env path).2
  else s.withErrno (s.disk.absent (getLocalPath path cache_path))

/-- The answer to the fetch, if one arrives, and the state after it. -/
def St.fetchedReply : Option FetchReply × St :=
  env.exec (.retried (.fetch path)) (s.fetchFrom env path cache_path)

end Opening

section Programs

variable {env : Env} {junk : Junk} {p dir : Path} {s : St}

/-- Recording a value, when only the client's own calls are known not to fail. -/
theorem record_local (hf : s.client.proc.faults = []) (hl : FlatDir dir s.disk) (value : Int64) :
    Prog.Yields env.exec (Client.record p dir value) s fun _ t =>
      DiskEffect s t [getLocalPath databasePath dir] ∧
      t.client.ht = s.client.ht.put (hashKey p) value ∧ s.disk.KeepsAll t.disk ∧
      (t.disk.look (getLocalPath databasePath dir)).map (·.bytes) = some (dumpText t.client.ht) := by
  unfold Client.record
  refine Prog.Yields.call (t := s.withTable (s.client.ht.put (hashKey p) value)) (r := ()) rfl ?_
  refine (dump_local (s := s.withTable (s.client.ht.put (hashKey p) value)) hf hl).mono ?_
  rintro _ t ⟨he, hk, hb⟩
  refine ⟨⟨he.disk, he.faults⟩, he.table, hk, ?_⟩
  rw [hb, he.table]

/-- A write through a descriptor that appends. -/
theorem yields_write_append {α : Type} {Q : α → St → Prop} {fd : Int} {l : Path} {f : File}
    {mem : Bytes} {n : Nat} {k : Int → Prog clientSig α} (hf : s.client.proc.faults = [])
    (hh : s.disk.Holds fd l 0 true) (hl : s.disk.look l = some f)
    (hk : ∀ r t g, DiskEffect s t [l] → t.client.ht = s.client.ht → t.disk.look l = some g →
      g.bytes = f.bytes ++ Client.written mem n → Prog.Yields env.exec (k r) t Q) :
    Prog.Yields env.exec (Client.sys (.write fd mem n) >>= k) s Q := by
  unfold Client.written at hk
  by_cases hlen : mem.length < n
  · have he : Sys.perform none (.write fd mem n) s.disk = .error EFAULT := by
      simp only [Sys.perform, hlen, if_true]
    refine Env.yields_sys_error hf he (hk _ _ f ⟨Fs.Only.refl _ _, hf⟩ rfl hl ?_)
    rw [if_pos hlen, List.append_nil]
  · obtain ⟨t, g, hw, hs, hgb⟩ := Fs.write_append hh hl (mem.take n)
    have hn : n = (mem.take n).length := by
      rw [List.length_take]
      omega
    refine Env.yields_sys hf (perform_write hn (List.take_prefix n mem) hw)
      (hk _ _ g (.step hf hs.only) rfl ?_ ?_)
    · exact (congrFun hs.look _).trans (Function.update_self ..)
    · rw [hgb, if_neg hlen]

/-- Synchronising touches no file, whether the descriptor is open or not. -/
theorem yields_fsync {α : Type} {Q : α → St → Prop} {fd : Int} {k : Int → Prog clientSig α}
    (hf : s.client.proc.faults = [])
    (hk : ∀ r t, DiskEffect s t [] → t.client.ht = s.client.ht → t.disk.look = s.disk.look →
      Prog.Yields env.exec (k r) t Q) :
    Prog.Yields env.exec (Client.sys (.fsync fd) >>= k) s Q := by
  cases hg : s.disk.getFd fd with
  | none =>
      have he : Sys.perform none (.fsync fd) s.disk = .error EBADF := by
        simp only [Sys.perform, Fs.fsync, hg]
      exact Env.yields_sys_error hf he (hk _ _ ⟨Fs.Only.refl _ _, hf⟩ rfl rfl)
  | some o =>
      have he : Sys.perform none (.fsync fd) s.disk = .ok ((0 : Int), s.disk) := by
        simp only [Sys.perform, Fs.fsync, hg]
      exact Env.yields_sys hf he (hk _ _ ⟨Fs.Only.refl _ _, hf⟩ rfl rfl)

/-- The fetch is answered as it would be without the open copy. -/
private theorem fetchedReply_of_alike {u : St} (ha : (s.fetchFrom env p dir).Alike u)
    (he : u.client.proc.errno = (s.fetchFrom env p dir).client.proc.errno) :
    (env.exec (.retried (.fetch p)) u).1 = (s.fetchedReply env p dir).1 ∧
      (env.exec (.retried (.fetch p)) u).2.client.proc.errno =
        (s.fetchedReply env p dir).2.client.proc.errno :=
  ⟨(Env.exec_retried_alike env _ ha).1.symm, Env.exec_retried_errno env _ ha he⟩

/-- Asking for the attributes gives what an open sees. -/
theorem afsGetattr_run (env : Env) (junk : Junk) (p : Path) (s : St) :
    ∃ rc, (Client.afsGetattr p junk.stats).run env.exec s =
      (some (rc, Client.seen junk (s.asked env p).1), (s.asked env p).2) := by
  unfold Client.afsGetattr St.asked
  rw [Prog.run_call_bind]
  generalize env.exec (.retried (.getattr p)) s = out
  obtain ⟨answer, t⟩ := out
  cases answer with
  | none => exact ⟨_, rfl⟩
  | some reply =>
      simp only [Client.seen]
      split
      · exact ⟨_, rfl⟩
      · exact ⟨_, rfl⟩

/-- With a copy, an open decides by the attributes that it sees. -/
theorem openCopy_present_run (hf : s.client.proc.faults = []) (hc : s.HasCopy p dir) :
    Prog.Yields env.exec (Client.openCopy junk p dir) s fun r t =>
      r.2 = decide (s.Newer env junk p) ∧ DiskEffect s t [] ∧ t.client.ht = s.client.ht ∧
      (s.asked env p).2.Alike t ∧
      t.client.proc.errno = (s.asked env p).2.client.proc.errno ∧
      t.disk.Holds r.1 (getLocalPath p dir) 0 true := by
  obtain ⟨f, hlook⟩ := Option.ne_none_iff_exists'.mp hc
  unfold Client.openCopy
  obtain ⟨fd, t1, ho, h0, hh1, hs1, -⟩ := Fs.openFile_of_look hlook { append := true } rfl S_IRWXUG
  refine Env.yields_sys hf ho ?_
  have hfd : fd ≠ -1 := by omega
  simp only [hfd, if_false]
  have halike : s.Alike (s.withDisk t1) := ⟨rfl, rfl, rfl, rfl⟩
  obtain ⟨hres, hnext⟩ := Env.exec_retried_alike env (.getattr p) halike
  have herr := Env.exec_retried_errno env (.getattr p) halike rfl
  have hwaits : (s.withDisk t1).client.Waits ((s.withDisk t1).asked env p).2.client :=
    Env.retryLoop_client env _ _ _
  obtain ⟨rc, hrun⟩ := afsGetattr_run env junk p (s.withDisk t1)
  refine Prog.Yields.bind (P := fun a t => a = (rc, Client.seen junk (s.asked env p).1) ∧
    t = ((s.withDisk t1).asked env p).2) ⟨_, _, hrun, ?_, rfl⟩ ?_
  · exact congrArg (fun x => (rc, Client.seen junk x)) hres.symm
  · rintro _ _ ⟨rfl, rfl⟩
    refine Prog.Yields.call (r := s.client.ht.get p) (t := ((s.withDisk t1).asked env p).2) ?_ ?_
    · exact Prod.ext (congrArg (fun ht => HashTable.get ht p) hwaits.table) rfl
    · refine Prog.Yields.ret ⟨rfl, ?_, hwaits.table, hnext, herr, ?_⟩
      · have he1 : DiskEffect (s.withDisk t1) ((s.withDisk t1).asked env p).2 [] :=
          DiskEffect.of_waits hf hwaits
        exact (DiskEffect.step (s := s) hf hs1.only_nil).trans he1
      · have hdisk : ((s.withDisk t1).asked env p).2.disk = t1 := hwaits.fs
        rw [hdisk]
        exact hh1

/-- An open that fetches works on a descriptor of a copy. -/
theorem openCopy_fetches (hf : s.client.proc.faults = []) (h : s.Fetches env junk p dir) :
    Prog.Yields env.exec (Client.openCopy junk p dir) s fun r t =>
      r.2 = true ∧ DiskEffect s t [getLocalPath p dir] ∧ t.client.ht = s.client.ht ∧
      (env.exec (.retried (.fetch p)) t).1 = (s.fetchedReply env p dir).1 ∧
      (env.exec (.retried (.fetch p)) t).2.client.proc.errno =
        (s.fetchedReply env p dir).2.client.proc.errno ∧
      t.disk.Holds r.1 (getLocalPath p dir) 0 true ∧
      ∃ f, t.disk.look (getLocalPath p dir) = some f := by
  by_cases hc : s.HasCopy p dir
  · obtain ⟨f, hlook⟩ := Option.ne_none_iff_exists'.mp hc
    simp only [St.Fetches, hc, if_true] at h
    refine (openCopy_present_run hf hc).mono ?_
    rintro r t ⟨hr, he, ht, ha, herr, hh⟩
    have hfrom : s.fetchFrom env p dir = (s.asked env p).2 := if_pos hc
    rw [← hfrom] at ha herr
    obtain ⟨h1, h2⟩ := fetchedReply_of_alike ha herr
    refine ⟨by rw [hr]; exact decide_eq_true h, he.mono (List.nil_subset _), ht, h1, h2, hh, f, ?_⟩
    rw [he.disk.look _ List.not_mem_nil, hlook]
  · simp only [St.Fetches, hc, if_false] at h
    obtain ⟨hdir, hpar⟩ := h
    have hlook : s.disk.look (getLocalPath p dir) = none := not_not.mp hc
    have hfrom : s.fetchFrom env p dir = s.withErrno (s.disk.absent (getLocalPath p dir)) := if_neg hc
    unfold Client.openCopy
    refine Env.yields_sys_error hf
      (Fs.openFile_missing hlook hdir { append := true } rfl S_IRWXUG) ?_
    simp only [Sys.failed, if_true]
    obtain ⟨fd, t1, ho, -, hh1, hs1, -⟩ := Fs.openFile_creat hlook hdir hpar
      { creat := true, append := true } rfl S_IRWXUG
    refine Env.yields_sys (s := s.withErrno (s.disk.absent (getLocalPath p dir))) hf ho ?_
    have halike : (s.fetchFrom env p dir).Alike
        ((s.withErrno (s.disk.absent (getLocalPath p dir))).withDisk t1) := by
      rw [hfrom]
      exact ⟨rfl, rfl, rfl, rfl⟩
    obtain ⟨h1, h2⟩ := fetchedReply_of_alike halike (by rw [hfrom]; rfl)
    refine Prog.Yields.ret ⟨rfl, ⟨hs1.only, hf⟩, rfl, h1, h2, hh1, s.disk.newFile S_IRWXUG, ?_⟩
    exact (congrFun hs1.look _).trans (Function.update_self ..)

/-- The fetching part of an open that gets a reply: the copy holds what the reply's size takes of its
buffer, and the reply's time is recorded, whatever its error field says. -/
private theorem fetchNewCopy_answered {fd : Int} {f : File} {m : FetchReply}
    (hf : s.client.proc.faults = []) (hl : FlatDir dir s.disk)
    (hh : s.disk.Holds fd (getLocalPath p dir) 0 true)
    (hlook : s.disk.look (getLocalPath p dir) = some f)
    (hm : (env.exec (.retried (.fetch p)) s).1 = some m) :
    Prog.Yields env.exec (Client.fetchNewCopy junk p dir fd) s fun r t =>
      r = none ∧ DiskEffect s t [getLocalPath p dir, getLocalPath databasePath dir] ∧
      t.client.ht = s.client.ht.put (hashKey p) m.time ∧
      ∃ g, t.disk.look (getLocalPath p dir) = some g ∧
        g.bytes = Client.copied junk p t.client.ht m := by
  unfold Client.fetchNewCopy
  obtain ⟨t1, htr, hs1, hk1⟩ := Fs.ftruncate_zero_of_holds hh hlook
  refine Env.yields_sys hf htr ?_
  simp only [Int.lt_irrefl, if_false]
  have halike : s.Alike (s.withDisk t1) := ⟨rfl, rfl, rfl, rfl⟩
  have hres := (Env.exec_retried_alike env (.fetch p) halike).1
  have hwaits : (s.withDisk t1).client.Waits
      (env.exec (.retried (.fetch p)) (s.withDisk t1)).2.client := Env.retryLoop_client env _ _ _
  generalize hu : (env.exec (.retried (.fetch p)) (s.withDisk t1)).2 = u at hwaits
  have hdisk : u.disk = t1 := hwaits.fs
  have hexec : env.exec (.retried (.fetch p)) (s.withDisk t1) = (some m, u) :=
    Prod.ext (hres.symm.trans hm) hu
  have hfetch : Prog.Yields env.exec (Client.afsFetch p dir) (s.withDisk t1) fun r t =>
      r = (0, some (m.buf, m.size.toInt)) ∧ DiskEffect u t [getLocalPath databasePath dir] ∧
      t.client.ht = s.client.ht.put (hashKey p) m.time ∧ u.disk.KeepsAll t.disk ∧
      (t.disk.look (getLocalPath databasePath dir)).map (·.bytes) =
        some (dumpText t.client.ht) := by
    unfold Client.afsFetch
    refine Prog.Yields.call hexec ?_
    have hflat : FlatDir dir u.disk := hdisk ▸ hl.congr hs1.isDir
    refine Prog.Yields.bind (record_local (hwaits.faults.trans hf) hflat m.time) ?_
    rintro _ t ⟨he, ht, hk, hb⟩
    exact Prog.Yields.ret ⟨rfl, he, by rw [ht, hwaits.table]; rfl, hk, hb⟩
  refine Prog.Yields.bind hfetch ?_
  rintro _ v ⟨rfl, he2, ht2, hk2, hb2⟩
  simp only [Int.lt_irrefl, if_false, Option.getD_some]
  obtain ⟨x, hlook2, hx⟩ : ∃ x, v.disk.look (getLocalPath p dir) = some x ∧
      x.bytes = if p = databasePath then dumpText v.client.ht else [] := by
    by_cases hdb : p = databasePath
    · subst hdb
      obtain ⟨x, hx, hxb⟩ := Option.map_eq_some_iff.mp hb2
      exact ⟨x, hx, by rw [if_pos rfl, hxb]⟩
    · refine ⟨s.disk.stamped f [], ?_, by rw [if_neg hdb, Fs.stamped_bytes]⟩
      rw [he2.disk.look _ (List.not_mem_cons_of_ne_of_not_mem (getLocalPath_ne_database hdb dir)
        List.not_mem_nil), hdisk, hs1.look, Function.update_self]
  have hh2 := hk2 _ _ _ _ (hdisk ▸ hk1 _ _ _ _ hh)
  refine yields_write_append he2.faults hh2 hlook2 ?_
  intro _ t g he3 ht3 hlook3 hg
  refine yields_fsync he3.faults fun _ z he4 ht4 hlook4 =>
    Prog.Yields.ret ⟨rfl, ?_, ?_, g, ?_, by rw [hg, hx, Client.copied, ht4, ht3]⟩
  · have he1 : DiskEffect s u [getLocalPath p dir] :=
      ⟨by rw [hdisk]; exact hs1.only, hwaits.faults.trans hf⟩
    exact (((he1.trans he2).trans he3).trans he4).mono (by simp)
  · rw [ht4, ht3, ht2]
  · rw [hlook4, hlook3]

/-- The fetching part of an open that gets no reply: the copy is empty by then. It gives up when the
error number is positive, and otherwise goes on with a buffer and a size that nobody set. -/
private theorem fetchNewCopy_unanswered {fd : Int} {f : File} (hf : s.client.proc.faults = [])
    (hh : s.disk.Holds fd (getLocalPath p dir) 0 true)
    (hlook : s.disk.look (getLocalPath p dir) = some f)
    (hm : (env.exec (.retried (.fetch p)) s).1 = none) :
    Prog.Yields env.exec (Client.fetchNewCopy junk p dir fd) s fun r t =>
      DiskEffect s t [getLocalPath p dir] ∧ t.client.ht = s.client.ht ∧
      ∃ g, t.disk.look (getLocalPath p dir) = some g ∧
        if 0 < (env.exec (.retried (.fetch p)) s).2.client.proc.errno then
          r = some (-ENOENT) ∧ g.bytes = []
        else r = none ∧ g.bytes = Client.written (junk.beyond ++ junk.beyond) (sizeT (-2)) := by
  unfold Client.fetchNewCopy
  obtain ⟨t1, htr, hs1, hk1⟩ := Fs.ftruncate_zero_of_holds hh hlook
  refine Env.yields_sys hf htr ?_
  simp only [Int.lt_irrefl, if_false]
  have halike : s.Alike (s.withDisk t1) := ⟨rfl, rfl, rfl, rfl⟩
  have hres := (Env.exec_retried_alike env (.fetch p) halike).1
  have herr := Env.exec_retried_errno env (.fetch p) halike rfl
  have hwaits : (s.withDisk t1).client.Waits
      (env.exec (.retried (.fetch p)) (s.withDisk t1)).2.client := Env.retryLoop_client env _ _ _
  generalize hu : (env.exec (.retried (.fetch p)) (s.withDisk t1)).2 = u at hwaits herr
  have hdisk : u.disk = t1 := hwaits.fs
  have hexec : env.exec (.retried (.fetch p)) (s.withDisk t1) = (none, u) :=
    Prod.ext (hres.symm.trans hm) hu
  have hfetch : Prog.Yields env.exec (Client.afsFetch p dir) (s.withDisk t1) fun r t =>
      r = (-u.client.proc.errno, none) ∧ t = u := by
    unfold Client.afsFetch
    refine Prog.Yields.call hexec ?_
    exact Prog.Yields.call (r := u.client.proc.errno) (t := u) rfl (Prog.Yields.ret ⟨rfl, rfl⟩)
  refine Prog.Yields.bind hfetch ?_
  rintro _ t ⟨rfl, ht⟩
  rw [ht, ← herr]
  have he1 : DiskEffect s u [getLocalPath p dir] :=
    ⟨by rw [hdisk]; exact hs1.only, hwaits.faults.trans hf⟩
  have hlook1 : u.disk.look (getLocalPath p dir) = some (s.disk.stamped f []) := by
    rw [hdisk, hs1.look, Function.update_self]
  by_cases hpos : 0 < u.client.proc.errno
  · have hneg : -u.client.proc.errno < 0 := by omega
    simp only [hneg, if_true, hpos]
    exact Prog.Yields.ret ⟨he1, hwaits.table, _, hlook1, rfl, rfl⟩
  · have hneg : ¬ -u.client.proc.errno < 0 := by omega
    simp only [hneg, if_false, hpos, Option.getD_none]
    refine yields_write_append he1.faults (hdisk ▸ hk1 _ _ _ _ hh) hlook1 ?_
    intro _ t g he3 ht3 hlook3 hg
    rw [Fs.stamped_bytes, List.nil_append] at hg
    refine yields_fsync he3.faults fun _ z he4 ht4 hlook4 =>
      Prog.Yields.ret ⟨?_, ?_, g, by rw [hlook4, hlook3], rfl, hg⟩
    · exact ((he1.trans he3).trans he4).mono (by simp)
    · rw [ht4, ht3]
      exact hwaits.table

/-- The last call of an open. -/
private theorem yields_lstat {α : Type} {Q : α → St → Prop} {l : Path} {f : File}
    {k : Option Stat → Prog clientSig α} (hf : s.client.proc.faults = [])
    (hl : s.disk.look l = some f) (hk : ∀ r, Prog.Yields env.exec (k r) s Q) :
    Prog.Yields env.exec (Client.sys (.lstat l) >>= k) s Q := by
  obtain ⟨i, hst⟩ := Fs.lstat_of_look hl
  exact Env.yields_sys hf (perform_lstat hst) (hk _)

/-- An open that does not fetch changes nothing and succeeds. -/
theorem afsOpen_keeps {fh : Int} (hf : s.client.proc.faults = []) (hc : s.HasCopy p dir)
    (hn : ¬ s.Newer env junk p) :
    Prog.Yields env.exec (Client.afsOpen junk p dir fh) s fun r t =>
      r.1 = 0 ∧ DiskEffect s t [] ∧ t.client.ht = s.client.ht := by
  obtain ⟨f, hlook⟩ := Option.ne_none_iff_exists'.mp hc
  unfold Client.afsOpen
  refine Prog.Yields.bind (openCopy_present_run hf hc) ?_
  rintro ⟨fd, b⟩ t ⟨hr, he, ht, -⟩
  have hb : b = false := by simpa only [hn, decide_false] using hr
  subst hb
  simp only [Bool.false_eq_true, if_false]
  refine yields_lstat he.faults (by rw [he.disk.look _ List.not_mem_nil, hlook]) fun _ => ?_
  exact Prog.Yields.ret ⟨rfl, he, ht⟩

/-- An open that fetches and gets a reply succeeds with what the reply gives. -/
theorem afsOpen_answered {fh : Int} {m : FetchReply} (hf : s.client.proc.faults = [])
    (hl : FlatDir dir s.disk) (h : s.Fetches env junk p dir)
    (hm : (s.fetchedReply env p dir).1 = some m) :
    Prog.Yields env.exec (Client.afsOpen junk p dir fh) s fun r t =>
      r.1 = 0 ∧ DiskEffect s t [getLocalPath p dir, getLocalPath databasePath dir] ∧
      t.client.ht = s.client.ht.put (hashKey p) m.time ∧
      ∃ g, t.disk.look (getLocalPath p dir) = some g ∧
        g.bytes = Client.copied junk p t.client.ht m := by
  unfold Client.afsOpen
  refine Prog.Yields.bind (openCopy_fetches hf h) ?_
  rintro ⟨fd, b⟩ t ⟨rfl, he, ht, hres, -, hh, f, hlook⟩
  simp only [if_true]
  refine Prog.Yields.bind (fetchNewCopy_answered he.faults (hl.congr he.disk.isDir) hh hlook
    (hres.trans hm)) ?_
  rintro _ u ⟨rfl, he2, ht2, g, hlook2, hg⟩
  refine yields_lstat he2.faults hlook2 fun _ => Prog.Yields.ret ⟨rfl, ?_, ?_, g, hlook2, hg⟩
  · exact (he.trans he2).mono (by simp)
  · rw [ht2, ht]

/-- An open that fetches and gets no reply leaves an empty copy and fails, if the error number happens
to be positive. -/
theorem afsOpen_unanswered {fh : Int} (hf : s.client.proc.faults = [])
    (h : s.Fetches env junk p dir) (hm : (s.fetchedReply env p dir).1 = none) :
    Prog.Yields env.exec (Client.afsOpen junk p dir fh) s fun r t =>
      DiskEffect s t [getLocalPath p dir] ∧ t.client.ht = s.client.ht ∧
      ∃ g, t.disk.look (getLocalPath p dir) = some g ∧
        if 0 < (s.fetchedReply env p dir).2.client.proc.errno then r.1 = -ENOENT ∧ g.bytes = []
        else r.1 = 0 ∧ g.bytes = Client.written (junk.beyond ++ junk.beyond) (sizeT (-2)) := by
  unfold Client.afsOpen
  refine Prog.Yields.bind (openCopy_fetches hf h) ?_
  rintro ⟨fd, b⟩ t ⟨rfl, he, ht, hres, herr, hh, f, hlook⟩
  simp only [if_true]
  refine Prog.Yields.bind (fetchNewCopy_unanswered he.faults hh hlook (hres.trans hm)) ?_
  rintro early u ⟨he2, ht2, g, hlook2, hg⟩
  have hboth : DiskEffect s u [getLocalPath p dir] := (he.trans he2).mono (by simp)
  rw [herr] at hg
  split at hg
  · next hpos =>
    obtain ⟨rfl, hb⟩ := hg
    exact Prog.Yields.ret ⟨hboth, ht2.trans ht, g, hlook2, by simp only [hpos, if_true, hb, and_self]⟩
  · next hpos =>
    obtain ⟨rfl, hb⟩ := hg
    refine yields_lstat he2.faults hlook2 fun _ => Prog.Yields.ret ⟨hboth, ht2.trans ht, g, hlook2, ?_⟩
    simp only [hpos, if_false, hb, and_self]

/-- Where there is no file and none can be made, no attempt to open succeeds. -/
private theorem openFile_stuck {s : Fs} {l : Path} (hlook : s.look l = none)
    (hn : ¬ (s.isDir l = false ∧ s.isDir (parent l) = true)) (fl : Flags) (mode : Nat) :
    ∃ e, Sys.perform none (.openF l fl mode) s = .error e := by
  simp only [Sys.perform, Fs.openFile]
  split
  · exact ⟨_, rfl⟩
  · next i hi =>
    rw [Fs.look_of_tree hi] at hlook
    cases hlook
  · next hfree =>
    have hd : s.isDir l = false := by simp only [Fs.isDir, hfree]
    have hpar : s.isDir (parent l) = false := by simpa only [hd, true_and, Bool.not_eq_true] using hn
    simp only [hpar, Bool.false_eq_true, if_false, ite_self]
    exact ⟨_, rfl⟩

/-- An open that cannot make a copy fails and changes nothing. -/
theorem afsOpen_stuck {fh : Int} (hf : s.client.proc.faults = []) (hc : ¬ s.HasCopy p dir)
    (hn : ¬ s.CanCreate p dir) :
    Prog.Yields env.exec (Client.afsOpen junk p dir fh) s fun r t =>
      r.1 = -EBADF ∧ t.disk = s.disk ∧ t.client.ht = s.client.ht := by
  have hlook : s.disk.look (getLocalPath p dir) = none := not_not.mp hc
  unfold Client.afsOpen Client.openCopy
  obtain ⟨e, he⟩ := openFile_stuck hlook hn { append := true } S_IRWXUG
  obtain ⟨e', he'⟩ := openFile_stuck hlook hn { creat := true, append := true } S_IRWXUG
  rw [Prog.bind_assoc]
  refine Env.yields_sys_error hf he ?_
  simp only [Sys.failed, if_true]
  rw [Prog.bind_assoc]
  refine Env.yields_sys_error (s := s.withErrno e) hf he' ?_
  have hbad : Sys.perform none (.ftruncate (-1) 0) s.disk = .error EBADF := rfl
  simp only [Prog.pure_eq, Prog.ret_bind, if_true, Client.fetchNewCopy]
  rw [Prog.bind_assoc]
  refine Env.yields_sys_error (s := (s.withErrno e).withErrno e') hf hbad ?_
  exact Prog.Yields.call (r := EBADF) (t := ((s.withErrno e).withErrno e').withErrno EBADF) rfl
    (Prog.Yields.ret ⟨rfl, rfl, rfl⟩)

end Programs

end Afs
