import Afs.Ops.Calm
import Afs.Ops.Layout

/-!
# What the client's operations do

Total correctness of every operation of a client run without interruption in a calm state: its
result, the cached copy and the recorded value of the file it works on, what the server holds
afterwards, and that nothing else changed.
-/

namespace Afs

open Posix Interaction

variable {env : Env} {s : St} {cache_path p : Path}

/-- Rewriting the database file leaves the text of the table in it, and touches no other file and
no other descriptor. -/
theorem dump_local (hf : s.client.proc.faults = []) (hl : FlatDir cache_path s.disk) :
    Prog.Yields env.exec (Client.dump cache_path) s fun _ t =>
      LocalEffect s t [getLocalPath databasePath cache_path] ∧ s.disk.KeepsAll t.disk ∧
      (t.disk.look (getLocalPath databasePath cache_path)).map (·.bytes) =
        some (dumpText s.client.ht) := by
  unfold Client.dump
  obtain ⟨fd, t1, f1, ho, h0, hh1, hs1, hb1, -, hk1⟩ :=
    Fs.openFile_trunc (hl.isDir_local rootLevel_database)
      (fun _ => hl.parent_local rootLevel_database) { creat := true, trunc := true }
      rfl rfl 0o666
  refine Env.yields_sys hf ho ?_
  have hfd : fd ≠ -1 := by omega
  simp only [hfd, if_false]
  refine Prog.Yields.call (t := s.withDisk t1) (r := s.client.ht) rfl ?_
  have hl1 : t1.look (getLocalPath databasePath cache_path) = some f1 := by
    rw [hs1.look, Function.update_self]
  obtain ⟨t2, f2, hw, hs2, hb2, -, hk2, hh2⟩ :=
    Fs.write_of_empty hh1 hl1 hb1 (dumpText s.client.ht)
  refine Env.yields_sys (s := s.withDisk t1) hf (perform_write rfl List.prefix_rfl hw) ?_
  obtain ⟨t3, hcl, hs3, hk3⟩ := Fs.close_of_holds hh2
  refine Env.yields_sys (s := (s.withDisk t1).withDisk t2) hf hcl (Prog.Yields.ret ⟨?_, ?_, ?_⟩)
  · exact LocalEffect.disk_step (s := s) hf
      (((hs1.only.trans hs2.only).trans hs3.only_nil).mono (by simp))
  · intro fd' q o a hh
    obtain ⟨hne, hh1'⟩ := hk1 fd' q o a hh
    exact hk3 fd' q o a hne (hk2 fd' q o a hne hh1')
  · change (t3.look _).map _ = _
    rw [hs3.look, hs2.look, Function.update_self, Option.map_some, hb2]

/-- Rewriting the database file touches no other file and no other descriptor. -/
theorem dump_yields (hc : Calm s) (hl : FlatDir cache_path s.disk) :
    Prog.Yields env.exec (Client.dump cache_path) s fun _ t =>
      Effect s t [getLocalPath databasePath cache_path] ∧ t.client.ht = s.client.ht ∧
      t.server = s.server ∧ s.disk.KeepsAll t.disk :=
  (dump_local hc.client hl).mono fun _ _ ⟨he, hk, _⟩ => ⟨he.effect hc, he.table, he.server, hk⟩

/-- Recording a value changes the table and the database file, and no descriptor. -/
theorem record_yields (hc : Calm s) (hl : FlatDir cache_path s.disk) (value : Int64) :
    Prog.Yields env.exec (Client.record p cache_path value) s fun _ t =>
      Effect s t [getLocalPath databasePath cache_path] ∧
      t.client.ht = s.client.ht.put (hashKey p) value ∧ t.server = s.server ∧
      s.disk.KeepsAll t.disk := by
  unfold Client.record
  refine Prog.Yields.call (t := s.withTable (s.client.ht.put (hashKey p) value)) (r := ()) rfl ?_
  refine (dump_yields (s := s.withTable (s.client.ht.put (hashKey p) value))
    (hc.withTable _) hl).mono ?_
  rintro _ t ⟨he, ht, hs, hk⟩
  exact ⟨⟨he.disk, he.calm, he.inflight⟩, ht, hs, hk⟩

/-- The length that `lstat` reports, converted for a buffer. -/
theorem sizeT_stat {f : File} (h : f.bytes.length < 2 ^ 64) (i : Nat) :
    sizeT (f.stat i).st_size = f.bytes.length := sizeT_natCast h

/-- Reading a whole file through a fresh descriptor. -/
theorem perform_read_all {t u : Fs} {fd : Int} {f : File}
    (h : t.read fd f.bytes.length = .ok (slice f.bytes 0 f.bytes.length, u)) :
    Sys.perform none (.read fd f.bytes.length) t = .ok (some f.bytes, u) := by
  simp only [Sys.perform, Option.elim_none, h, slice_zero_length]
  rfl

theorem perform_lstat {t : Fs} {q : Path} {st : Stat} (h : t.lstat q = .ok st) :
    Sys.perform none (.lstat q) t = .ok (some st, t) := by
  simp only [Sys.perform, h]
  rfl

/-- The copy into the temporary file ends with the old contents in it. -/
theorem copyToTmp_yields {junk : Junk} {fd : Int} {client_path tmp : Path} {f g : File}
    (hc : Calm s) (hf : s.disk.look client_path = some f) (hlen : f.bytes.length < 2 ^ 64)
    (hh : s.disk.Holds fd tmp 0 false) (hg : s.disk.look tmp = some g) (hgb : g.bytes = []) :
    Prog.Yields env.exec (Client.copyToTmp junk client_path fd) s fun _ t =>
      Effect s t [tmp] ∧ t.client.ht = s.client.ht ∧ t.server = s.server ∧
      (∃ g', t.disk.look tmp = some g' ∧ g'.bytes = f.bytes) ∧
      t.disk.Holds fd tmp f.bytes.length false := by
  unfold Client.copyToTmp
  obtain ⟨i, hst⟩ := Fs.lstat_of_look hf
  refine Env.yields_sys hc.client (perform_lstat hst) ?_
  obtain ⟨fdm, t1, ho, -, hh1, hs1, hk1⟩ :=
    Fs.openFile_of_look hf { append := true } rfl S_IRWXUG
  refine Env.yields_sys hc.client ho ?_
  obtain ⟨hne, hfd1⟩ := hk1 fd tmp 0 false hh
  have hl1 : t1.look client_path = some f := by rw [hs1.look, hf]
  obtain ⟨t2, hrd, hs2, hk2, hh2⟩ := Fs.read_of_holds hh1 hl1 f.bytes.length
  rw [Option.getD_some, sizeT_stat hlen]
  refine Env.yields_sys (hc.withDisk t1).client (perform_read_all hrd) ?_
  rw [fill_of_length (junk.length_heap _)]
  have hg2 : t2.look tmp = some g := by rw [hs2.look, hs1.look, hg]
  obtain ⟨t3, g', hw, hs3, hb3, -, hk3, hh3⟩ :=
    Fs.write_of_empty (hk2 fd tmp 0 false hne hfd1) hg2 hgb f.bytes
  refine Env.yields_sys ((hc.withDisk t1).withDisk t2).client
    (perform_write rfl List.prefix_rfl hw) ?_
  obtain ⟨t4, hcl, hs4, hk4⟩ := Fs.close_of_holds (hk3 fdm _ _ _ (Ne.symm hne) hh2)
  refine Env.yields_sys (((hc.withDisk t1).withDisk t2).withDisk t3).client hcl
    (Prog.Yields.ret ⟨⟨?_, hc.withDisk t4, rfl⟩, rfl, rfl, ⟨g', ?_, hb3⟩, ?_⟩)
  · exact (((hs1.only_nil.trans hs2.only_nil).trans hs3.only).trans hs4.only_nil).mono (by simp)
  · change t4.look tmp = some g'
    rw [hs4.look, hs3.look, Function.update_self]
  · exact hk4 fd tmp _ _ hne hh3

/-- A write of no bytes does nothing. -/
theorem afsWrite_nil (junk : Junk) (offset : Nat) :
    Prog.Yields env.exec (Client.afsWrite junk p cache_path [] offset) s fun r t =>
      r = 0 ∧ t = s := by
  simp only [Client.afsWrite, List.length_nil, gt_iff_lt, Nat.lt_irrefl, if_false]
  exact Prog.Yields.ret ⟨rfl, rfl⟩

/-- A write replaces the cached copy by one with the bytes at the offset replaced, and records the
modified flag. -/
theorem afsWrite_yields {f : File} {buffer : Bytes} (junk : Junk) (offset : Nat) (hc : Calm s)
    (hl : FlatDir cache_path s.disk) (hp : RootLevel p) (hdb : p ≠ databasePath)
    (hf : s.disk.look (getLocalPath p cache_path) = some f) (hlen : f.bytes.length < 2 ^ 64)
    (hb : buffer ≠ []) :
    Prog.Yields env.exec (Client.afsWrite junk p cache_path buffer offset) s fun r t =>
      r = buffer.length ∧
      Effect s t [getLocalPath p cache_path, getLocalTmpPath p cache_path,
        getLocalPath databasePath cache_path] ∧
      t.client.ht = s.client.ht.put (hashKey p) modifiedFlag ∧ t.server = s.server ∧
      ∃ g, t.disk.look (getLocalPath p cache_path) = some g ∧
        g.bytes = splice f.bytes offset buffer := by
  have hne : getLocalPath p cache_path ≠ getLocalTmpPath p cache_path :=
    getLocalPath_ne_tmp hp hp (ne_append_tmp p) cache_path
  have hnd : getLocalPath p cache_path ≠ getLocalPath databasePath cache_path :=
    getLocalPath_ne hp rootLevel_database hdb cache_path
  have hpos : buffer.length > 0 := List.length_pos_iff.mpr hb
  simp only [Client.afsWrite, hpos, if_true]
  obtain ⟨fd, t1, f1, ho, h0, hh1, hs1, hb1, -, -⟩ :=
    Fs.openFile_trunc (hl.isDir_tmp hp) (fun _ => hl.parent_tmp hp)
      { creat := true, trunc := true } rfl rfl S_IRWXUG
  refine Env.yields_sys hc.client ho ?_
  have hf1 : t1.look (getLocalPath p cache_path) = some f := by
    rw [hs1.look, Function.update_of_ne hne, hf]
  have hg1 : t1.look (getLocalTmpPath p cache_path) = some f1 := by
    rw [hs1.look, Function.update_self]
  refine Prog.Yields.bind (copyToTmp_yields (s := s.withDisk t1) (hc.withDisk t1) hf1 hlen hh1 hg1
    hb1) ?_
  rintro _ u ⟨he2, ht2, hv2, ⟨f2, hf2, hb2⟩, hh2⟩
  have hp2 : u.disk.look (getLocalPath p cache_path) = some f := by
    rw [he2.disk.look _ (by simpa using hne)]
    exact hf1
  obtain ⟨t3, hw, hs3, hk3⟩ := Fs.pwrite_of_holds hh2 hf2 hb offset
  refine Env.yields_sys he2.calm.client (perform_pwrite hw) ?_
  have hh3 := hk3 _ _ _ _ hh2
  refine Env.yields_sys (he2.calm.withDisk t3).client (Fs.fsync_of_holds hh3) ?_
  obtain ⟨t4, hcl, hs4, -⟩ := Fs.close_of_holds hh3
  refine Env.yields_sys ((he2.calm.withDisk t3).withDisk t3).client hcl ?_
  have hp4 : t4.look (getLocalPath p cache_path) = some f := by
    rw [hs4.look, hs3.look, Function.update_of_ne hne, hp2]
  have hg4 : t4.look (getLocalTmpPath p cache_path) =
      some (u.disk.stamped f2 (splice f2.bytes offset buffer)) := by
    rw [hs4.look, hs3.look, Function.update_self]
  obtain ⟨t5, hun, hs5, -⟩ := Fs.unlink_of_look hp4
  rw [← Fs.remove_eq_unlink (Fs.isDir_of_look hp4)] at hun
  refine Env.yields_sys (((he2.calm.withDisk t3).withDisk t3).withDisk t4).client hun ?_
  have hg5 : t5.look (getLocalTmpPath p cache_path) =
      some (u.disk.stamped f2 (splice f2.bytes offset buffer)) := by
    rw [hs5.look, Function.update_of_ne (Ne.symm hne), hg4]
  have hd5 : t5.isDir (getLocalPath p cache_path) = false := by
    rw [hs5.isDir]
    exact Fs.isDir_of_look hp4
  obtain ⟨t6, hrn, hs6⟩ := Fs.rename_of_look hg5 hd5 (Ne.symm hne)
  refine Env.yields_sys ((((he2.calm.withDisk t3).withDisk t3).withDisk t4).withDisk t5).client hrn ?_
  have hu6 : u.disk.Only t6 [getLocalPath p cache_path, getLocalTmpPath p cache_path] := by
    have h6 : t5.Only t6 [getLocalPath p cache_path, getLocalTmpPath p cache_path] := by
      refine ⟨fun q hq => ?_, hs6.isDir, hs6.clock⟩
      simp only [List.mem_cons, List.not_mem_nil, or_false, not_or] at hq
      rw [hs6.look, Function.update_of_ne hq.1, Function.update_of_ne hq.2]
    exact (((hs3.only.trans hs4.only_nil).trans hs5.only).trans h6).mono (by simp)
  have he6 : Effect s (u.withDisk t6)
      [getLocalPath p cache_path, getLocalTmpPath p cache_path] :=
    (((Effect.disk_step hc hs1.only).trans he2).trans (Effect.disk_step he2.calm hu6)).mono
      (by simp)
  refine Prog.Yields.bind (record_yields (s := u.withDisk t6) he6.calm
    (hl.congr he6.disk.isDir) modifiedFlag) ?_
  rintro _ v ⟨he7, ht7, hv7, -⟩
  have hr : ¬ ((buffer.length : Int) = -1) := by omega
  simp only [hr, if_false]
  refine Prog.Yields.ret ⟨rfl, (he6.trans he7).mono (by simp), ?_, hv7.trans hv2, ?_⟩
  · rw [ht7]
    exact congrArg (fun ht => HashTable.put ht _ _) ht2
  · refine ⟨u.disk.stamped f2 (splice f2.bytes offset buffer), ?_, by simp [hb2]⟩
    rw [he7.disk.look _ (by simpa using hnd)]
    exact (congrFun hs6.look _).trans (Function.update_self ..)

/-- A read returns the slice of the cached copy and changes no file and no record. -/
theorem afsRead_yields {f : File} (size offset : Nat) (hc : Calm s)
    (hf : s.disk.look (getLocalPath p cache_path) = some f) :
    Prog.Yields env.exec (Client.afsRead p cache_path size offset) s fun r t =>
      r = (((slice f.bytes offset size).length : Int), slice f.bytes offset size) ∧
      Effect s t [] ∧ t.client.ht = s.client.ht ∧ t.server = s.server := by
  unfold Client.afsRead
  obtain ⟨i, hst⟩ := Fs.lstat_of_look hf
  refine Env.yields_sys hc.client (perform_lstat hst) ?_
  obtain ⟨fd, t1, ho, -, hh1, hs1, -⟩ := Fs.openFile_of_look hf {} rfl 0
  refine Env.yields_sys hc.client ho ?_
  have hf1 : t1.look (getLocalPath p cache_path) = some f := by rw [hs1.look, hf]
  have hrd : Sys.perform none (.pread fd size offset) t1 =
      .ok (some (slice f.bytes offset size), t1) := by
    simp only [Sys.perform, Option.elim_none, Fs.pread_of_holds hh1 hf1]
    rfl
  refine Env.yields_sys (hc.withDisk t1).client hrd ?_
  obtain ⟨j, hst'⟩ := Fs.lstat_of_look hf1
  refine Env.yields_sys ((hc.withDisk t1).withDisk t1).client (perform_lstat hst') ?_
  exact Prog.Yields.ret ⟨rfl, Effect.disk_step hc hs1.only_nil, rfl, rfl⟩

/-- Synchronising a descriptor, open or not, changes no file and no record. -/
theorem afsFsync_yields {fh : Int} (hc : Calm s) :
    Prog.Yields env.exec (Client.afsFsync fh) s fun _ t =>
      Effect s t [] ∧ t.client.ht = s.client.ht ∧ t.server = s.server := by
  unfold Client.afsFsync
  cases hg : s.disk.getFd fh with
  | none =>
      refine Env.yields_sys_error (e := EBADF) hc.client (by simp only [Sys.perform, Fs.fsync, hg]) ?_
      simp only [Sys.failed, if_true]
      refine Prog.Yields.call (t := s.withErrno EBADF) rfl (Prog.Yields.ret ?_)
      exact ⟨⟨Fs.Only.refl _ _, hc.withErrno _, rfl⟩, rfl, rfl⟩
  | some o =>
      refine Env.yields_sys (r := (0 : Int)) (t := s.disk) hc.client
        (by simp only [Sys.perform, Fs.fsync, hg]) ?_
      exact Prog.Yields.ret ⟨Effect.disk_step hc (Fs.Only.refl _ _), rfl, rfl⟩

/-- Asking for the attributes of a file that the server has gives the nanosecond part of its time
as the seconds, and changes nothing but the retry counters. -/
theorem afsGetattr_yields {stats : Stat} {g : File} (hc : Calm s)
    (hg : s.server.fs.look (getServerPath p env.root_path) = some g) :
    Prog.Yields env.exec (Client.afsGetattr p stats) s fun r t =>
      r.1 = 0 ∧ r.2.st_mtime = g.mtim.tv_nsec ∧ t = s.reset := by
  unfold Client.afsGetattr
  refine Env.yields_retried hc (Server.afsGetattr_yields env.root_path hc.server hg)
    (fun m t hm => ⟨hm.2.1, hm.1 ▸ hc.server⟩) ?_
  rintro m t ⟨rfl, -, herr, hmt⟩
  simp only [herr, ne_eq, not_true_eq_false, if_false]
  refine Prog.Yields.ret ⟨rfl, ?_, rfl⟩
  simp only [Client.statOfReply, Stat.st_mtime, Timespec.ofSec, hmt, toInt_mtime]

/-- Fetching a file that the server has returns its bytes and records its time. -/
theorem afsFetch_yields {g : File} (hc : Calm s) (hl : FlatDir cache_path s.disk)
    (hg : s.server.fs.look (getServerPath p env.root_path) = some g) :
    Prog.Yields env.exec (Client.afsFetch p cache_path) s fun r t =>
      r = (0, some (g.bytes, (Int32.ofInt g.bytes.length).toInt)) ∧
      Effect s t [getLocalPath databasePath cache_path] ∧
      t.client.ht = s.client.ht.put (hashKey p) (Int64.ofNat g.mtim.tv_nsec) ∧
      s.server.fs.Steps t.server.fs s.server.fs.look ∧ s.disk.KeepsAll t.disk := by
  unfold Client.afsFetch
  refine Env.yields_retried hc (Server.afsFetch_yields env.junk env.root_path hc.server hg)
    (fun m t hm => ⟨by rw [hm.2.2], hm.1⟩) ?_
  rintro m u ⟨hu, hsv, rfl⟩
  refine Prog.Yields.bind (record_yields (s := (s.withServer u).reset)
    (hc.withServer hu).reset hl (Int64.ofNat g.mtim.tv_nsec)) ?_
  rintro _ t ⟨he, ht, hv, hk⟩
  refine Prog.Yields.ret ⟨rfl, ⟨he.disk, he.calm, he.inflight⟩, ht, ?_, hk⟩
  rw [hv]
  exact hsv

/-- The request that stores these bytes under a path. -/
def StoreReq.whole (p : Path) (b : Bytes) : StoreReq := ⟨p, Int32.ofInt b.length, b⟩

theorem StoreReq.toInt_whole {p : Path} {b : Bytes} (h : b.length < 2 ^ 31) :
    (StoreReq.whole p b).size.toInt = b.length := Int32.toInt_ofInt_of_le (by omega) (by omega)

/-- The bytes that a release sends of what it read: as many as the length that it asked for before,
cut to the 32 bits of a request. -/
def sentBytes (size : Nat) (b : Bytes) : Bytes := b.take (Int32.ofInt size).toInt.toNat

theorem sentBytes_of_lt {b : Bytes} (h : b.length < 2 ^ 31) : sentBytes b.length b = b := by
  rw [sentBytes, Int32.toInt_ofInt_of_le (by omega) (by omega), Int.toNat_natCast, List.take_length]

/-- The size field of a request never exceeds the length that was cut down to it. -/
theorem toInt_ofInt_le (n : Nat) : (Int32.ofInt n).toInt.toNat ≤ n := by
  have hsize : (Int32.size : Int) = 2 ^ 32 := rfl
  have hle : (n : Int) % 2 ^ 32 ≤ n := by
    have := Nat.mod_le n (2 ^ 32)
    omega
  rw [Int32.toInt_ofInt, Int.bmod_def, hsize]
  split <;> omega

theorem length_sentBytes {b : Bytes} (h : 0 ≤ (Int32.ofInt b.length).toInt) :
    ((sentBytes b.length b).length : Int) = (Int32.ofInt b.length).toInt := by
  have hle := toInt_ofInt_le b.length
  rw [sentBytes, List.length_take]
  omega

theorem length_sentBytes_lt (b : Bytes) : (sentBytes b.length b).length < 2 ^ 31 := by
  have hlt := (Int32.ofInt b.length).toInt_lt
  rw [sentBytes, List.length_take]
  omega

/-- A store whose length is cut to a negative size ends the process. -/
theorem afsStore_halts {buf : Bytes} {size : Int32} (h : size.toInt < 0) :
    Client.afsStore p cache_path buf size = .halt := by
  have hneg : size < 0 := Int32.lt_iff_toInt_lt.mpr h
  unfold Client.afsStore
  rw [if_pos hneg]
  rfl

/-- A store of a whole buffer, unless its length is cut to a negative size. -/
theorem afsStore_eq {buf : Bytes} (hpos : 0 ≤ (Int32.ofInt buf.length).toInt) :
    Client.afsStore p cache_path buf (Int32.ofInt buf.length) =
      Client.retried (.store (.whole p (sentBytes buf.length buf))) >>= fun status =>
        match status with
        | some reply => Client.record p cache_path reply.time >>= fun _ => pure reply.error.toInt
        | none => pure (-(({} : StoreRes).error.toInt)) := by
  have hneg : ¬ Int32.ofInt buf.length < 0 := by
    rw [Int32.lt_iff_toInt_lt]
    exact Int.not_lt.mpr hpos
  have hwhole : StoreReq.whole p (sentBytes buf.length buf) =
      ⟨p, Int32.ofInt buf.length, buf.take (Int32.ofInt buf.length).toInt.toNat⟩ := by
    simp only [StoreReq.whole, length_sentBytes hpos, Int32.ofInt_toInt]
    rfl
  unfold Client.afsStore
  rw [if_neg hneg, hwhole]
  refine congrArg (Prog.bind _) (funext fun status => ?_)
  cases status <;> rfl

/-- A store of a buffer shorter than two gigabytes replaces the server's file and records the time
of the replacement. -/
theorem afsStore_yields {buf : Bytes} (hc : Calm s) (hl : FlatDir cache_path s.disk)
    (hlen : buf.length < 2 ^ 31) (hd : s.server.fs.isDir (getServerPath p env.root_path) = false)
    (hp : s.server.fs.look (getServerPath p env.root_path) = none →
      s.server.fs.isDir (parent (getServerPath p env.root_path)) = true) :
    Prog.Yields env.exec (Client.afsStore p cache_path buf (Int32.ofInt buf.length)) s fun r t =>
      r = 0 ∧ Effect s t [getLocalPath databasePath cache_path] ∧
      t.client.ht = s.client.ht.put (hashKey p) (Int64.ofNat s.server.fs.clock.tv_nsec) ∧
      ∃ g, s.server.fs.Steps t.server.fs (Function.update s.server.fs.look
        (getServerPath p env.root_path) (some g)) ∧
        g.bytes = buf ∧ g.mtim = s.server.fs.clock := by
  have hpos : 0 ≤ (Int32.ofInt buf.length).toInt := by
    have := StoreReq.toInt_whole (p := p) hlen
    simp only [StoreReq.whole] at this
    omega
  rw [afsStore_eq hpos, sentBytes_of_lt hlen]
  refine Env.yields_retried hc (Server.afsStore_yields env.junk env.root_path (.whole p buf)
    hc.server (StoreReq.toInt_whole hlen) hd hp) (fun m t hm => ⟨by rw [hm.2.1], hm.1⟩) ?_
  rintro m u ⟨hu, rfl, g, hsv, hgb, hgm⟩
  refine Prog.Yields.bind (record_yields (s := (s.withServer u).reset)
    (hc.withServer hu).reset hl (Int64.ofNat s.server.fs.clock.tv_nsec)) ?_
  rintro _ t ⟨he, ht, hv, -⟩
  refine Prog.Yields.ret ⟨rfl, ⟨he.disk, he.calm, he.inflight⟩, ht, g, ?_, hgb, hgm⟩
  rw [hv]
  exact hsv

/-- Releasing a file whose record is not the modified flag sends nothing. -/
theorem afsRelease_clean {junk : Junk} {fh : Int} (hc : Calm s)
    (hm : s.client.ht.get p ≠ modifiedFlag) :
    Prog.Yields env.exec (Client.afsRelease junk p cache_path fh) s fun r t =>
      r = 0 ∧ Effect s t [] ∧ t.client.ht = s.client.ht ∧ t.server = s.server := by
  unfold Client.afsRelease
  cases hst : s.disk.lstat (getLocalPath p cache_path) with
  | ok st =>
      refine Env.yields_sys hc.client (perform_lstat hst) ?_
      refine Prog.Yields.call (r := s.client.ht.get p) (t := s.withDisk s.disk) rfl ?_
      simp only [hm, if_false]
      exact Prog.Yields.ret ⟨rfl, Effect.disk_step hc (Fs.Only.refl _ _), rfl, rfl⟩
  | error e =>
      refine Env.yields_sys_error (e := e) hc.client (by simp only [Sys.perform, hst]; rfl) ?_
      refine Prog.Yields.call (r := s.client.ht.get p) (t := s.withErrno e) rfl ?_
      simp only [hm, if_false]
      exact Prog.Yields.ret ⟨rfl, ⟨Fs.Only.refl _ _, hc.withErrno e, rfl⟩, rfl, rfl⟩

/-- Closing whatever descriptor number leaves the files alone. -/
theorem exec_close (env : Env) (fh : Int) (hf : s.client.proc.faults = []) :
    ∃ (r : Int) (t : St), env.exec (.sys (.close fh)) s = (r, t) ∧ LocalEffect s t [] := by
  cases hg : s.disk.getFd fh with
  | none =>
      have herr : Sys.perform none (.close fh) s.disk = .error EBADF := by
        simp only [Sys.perform, Fs.close, hg]
      exact ⟨-1, s.withErrno EBADF, Env.exec_sys_error hf herr, .errno_step hf _⟩
  | some o =>
      have hok : Sys.perform none (.close fh) s.disk = .ok ((0 : Int), s.disk.setFd fh none) := by
        simp only [Sys.perform, Fs.close, hg]
      exact ⟨0, s.withDisk (s.disk.setFd fh none), Env.exec_sys hf hok,
        .disk_step hf ⟨fun _ _ => rfl, rfl, rfl⟩⟩

/-- Releasing a modified file comes down to storing its cached bytes. -/
theorem afsRelease_sends (env : Env) (junk : Junk) (fh : Int) {f : File}
    (hfaults : s.client.proc.faults = []) (hm : s.client.ht.get p = modifiedFlag)
    (hf : s.disk.look (getLocalPath p cache_path) = some f) (hlen : f.bytes.length < 2 ^ 64) :
    ∃ rc u, (Client.afsRelease junk p cache_path fh).run env.exec s =
        (Client.afsStore p cache_path f.bytes (Int32.ofInt f.bytes.length) >>= fun _ =>
          pure rc).run env.exec u ∧ LocalEffect s u [] := by
  unfold Client.afsRelease
  obtain ⟨i, hst⟩ := Fs.lstat_of_look hf
  rw [Prog.run_call_bind, Env.exec_sys hfaults (perform_lstat hst), Prog.run_call_bind]
  have hget : env.exec (.get p) (s.withDisk s.disk) = (modifiedFlag, s) := by rw [← hm]; rfl
  rw [hget, if_pos rfl, Option.getD_some, sizeT_stat hlen, File.stat_size]
  obtain ⟨rc, u, hclose, he⟩ := exec_close env fh hfaults
  rw [Prog.run_call_bind, hclose]
  have hf1 : u.disk.look (getLocalPath p cache_path) = some f := by
    rw [he.disk.look _ List.not_mem_nil, hf]
  obtain ⟨fd, t2, ho, -, hh2, hs2, -⟩ :=
    Fs.openFile_of_look hf1 { append := true } rfl S_IRWXUG
  have hopen : Sys.perform none (.openF (getLocalPath p cache_path) { append := true } S_IRWXUG)
      u.disk = .ok (fd, t2) := ho
  have hf2 : t2.look (getLocalPath p cache_path) = some f := by rw [hs2.look, hf1]
  obtain ⟨t3, hrd, hs3, -, -⟩ := Fs.read_of_holds hh2 hf2 f.bytes.length
  have hread : Sys.perform none (.read fd f.bytes.length) (u.withDisk t2).disk =
      .ok (some f.bytes, t3) := perform_read_all hrd
  have hu2 : (u.withDisk t2).client.proc.faults = [] := he.faults
  rw [Prog.run_call_bind, Env.exec_sys he.faults hopen, Prog.run_call_bind,
    Env.exec_sys hu2 hread, fill_of_length (junk.length_heap f.bytes.length)]
  refine ⟨rc, _, rfl, ?_⟩
  exact (he.trans (.disk_step he.faults (hs2.only_nil.trans hs3.only_nil))).mono (List.Subset.refl _)

/-- Releasing a modified file stores the cached bytes at the server and records the time of that
store in place of the flag. -/
theorem afsRelease_modified {junk : Junk} {fh : Int} {f : File} (hc : Calm s)
    (hl : FlatDir cache_path s.disk) (hm : s.client.ht.get p = modifiedFlag)
    (hf : s.disk.look (getLocalPath p cache_path) = some f) (hlen : f.bytes.length < 2 ^ 31)
    (hd : s.server.fs.isDir (getServerPath p env.root_path) = false)
    (hp : s.server.fs.look (getServerPath p env.root_path) = none →
      s.server.fs.isDir (parent (getServerPath p env.root_path)) = true) :
    Prog.Yields env.exec (Client.afsRelease junk p cache_path fh) s fun _ t =>
      Effect s t [getLocalPath databasePath cache_path] ∧
      t.client.ht = s.client.ht.put (hashKey p) (Int64.ofNat s.server.fs.clock.tv_nsec) ∧
      ∃ g, s.server.fs.Steps t.server.fs (Function.update s.server.fs.look
        (getServerPath p env.root_path) (some g)) ∧
        g.bytes = f.bytes ∧ g.mtim = s.server.fs.clock := by
  obtain ⟨rc, u, hrun, he⟩ := afsRelease_sends env junk fh hc.client hm hf (by omega)
  have hv := he.server
  obtain ⟨r, t, hstore, -, he', ht, g, hg⟩ := afsStore_yields (p := p) (he.effect hc).calm
    (hl.congr he.disk.isDir) hlen (by rw [hv]; exact hd) (by rw [hv]; exact hp)
  refine ⟨rc, t, ?_, (he.effect hc).trans he', ?_, g, ?_⟩
  · rw [hrun, Prog.run_bind, hstore]
    rfl
  · rw [ht, he.table, hv]
  · rw [← hv]
    exact hg

/-- The fetching part of an open, on a descriptor that appends to the cached copy. -/
theorem fetchNewCopy_yields {junk : Junk} {fd : Int} {f g : File} (hc : Calm s)
    (hl : FlatDir cache_path s.disk) (hp : RootLevel p) (hdb : p ≠ databasePath)
    (hh : s.disk.Holds fd (getLocalPath p cache_path) 0 true)
    (hf : s.disk.look (getLocalPath p cache_path) = some f)
    (hg : s.server.fs.look (getServerPath p env.root_path) = some g)
    (hlen : g.bytes.length < 2 ^ 31) :
    Prog.Yields env.exec (Client.fetchNewCopy junk p cache_path fd) s fun r t =>
      r = none ∧
      Effect s t [getLocalPath p cache_path, getLocalPath databasePath cache_path] ∧
      t.client.ht = s.client.ht.put (hashKey p) (Int64.ofNat g.mtim.tv_nsec) ∧
      s.server.fs.Steps t.server.fs s.server.fs.look ∧
      ∃ f', t.disk.look (getLocalPath p cache_path) = some f' ∧ f'.bytes = g.bytes := by
  have hnd : getLocalPath p cache_path ≠ getLocalPath databasePath cache_path :=
    getLocalPath_ne hp rootLevel_database hdb cache_path
  unfold Client.fetchNewCopy
  obtain ⟨t1, htr, hs1, hk1⟩ := Fs.ftruncate_zero_of_holds hh hf
  refine Env.yields_sys hc.client htr ?_
  simp only [Int.lt_irrefl, if_false]
  have he1 : Effect s (s.withDisk t1) [getLocalPath p cache_path] :=
    Effect.disk_step hc hs1.only
  refine Prog.Yields.bind (afsFetch_yields (s := s.withDisk t1) he1.calm
    (hl.congr he1.disk.isDir) hg) ?_
  rintro _ u ⟨rfl, he2, ht2, hv2, hk2⟩
  have hsize : (Int32.ofInt g.bytes.length).toInt = g.bytes.length :=
    Int32.toInt_ofInt_of_le (by omega) (by omega)
  simp only [Int.lt_irrefl, if_false, Option.getD_some]
  rw [hsize, sizeT_natCast (by omega)]
  have hf2 : u.disk.look (getLocalPath p cache_path) = some (s.disk.stamped f []) := by
    rw [he2.disk.look _ (by simpa using hnd)]
    exact (congrFun hs1.look _).trans (Function.update_self ..)
  have hh2 : u.disk.Holds fd (getLocalPath p cache_path) 0 true :=
    hk2 _ _ _ _ (hk1 _ _ _ _ hh)
  obtain ⟨t3, f3, hw, hs3, hb3, -, -, hh3⟩ := Fs.write_of_empty hh2 hf2 rfl g.bytes
  refine Env.yields_sys he2.calm.client (perform_write rfl (List.prefix_append _ _) hw) ?_
  refine Env.yields_sys (he2.calm.withDisk t3).client (Fs.fsync_of_holds hh3) ?_
  refine Prog.Yields.ret ⟨rfl, ?_, ht2, hv2, f3, ?_, hb3⟩
  · exact ((he1.trans he2).trans (Effect.disk_step he2.calm hs3.only)).mono (by simp)
  · exact (congrFun hs3.look _).trans (Function.update_self ..)

/-- What an open that fetched leaves behind: the server's bytes in the cache and the nanosecond
part of its time in the table. -/
def Fetched (cache_path p : Path) (g : File) (s t : St) : Prop :=
  Effect s t [getLocalPath p cache_path, getLocalPath databasePath cache_path] ∧
  t.client.ht = s.client.ht.put (hashKey p) (Int64.ofNat g.mtim.tv_nsec) ∧
  s.server.fs.Steps t.server.fs s.server.fs.look ∧
  ∃ f, t.disk.look (getLocalPath p cache_path) = some f ∧ f.bytes = g.bytes

/-- Without a cached copy an open starts from a new empty one and will fetch. -/
theorem openCopy_missing {junk : Junk} (hc : Calm s) (hl : FlatDir cache_path s.disk)
    (hp : RootLevel p) (hf : s.disk.look (getLocalPath p cache_path) = none) :
    Prog.Yields env.exec (Client.openCopy junk p cache_path) s fun r t =>
      r.2 = true ∧ Effect s t [getLocalPath p cache_path] ∧ t.client.ht = s.client.ht ∧
      t.server = s.server ∧ t.disk.Holds r.1 (getLocalPath p cache_path) 0 true ∧
      ∃ f, t.disk.look (getLocalPath p cache_path) = some f ∧ f.bytes = [] := by
  unfold Client.openCopy
  refine Env.yields_sys_error hc.client
    (Fs.openFile_missing hf (hl.isDir_local hp) { append := true } rfl S_IRWXUG) ?_
  simp only [Sys.failed, if_true]
  obtain ⟨fd, t1, ho, -, hh1, hs1, -⟩ := Fs.openFile_creat hf (hl.isDir_local hp)
    (hl.parent_local hp) { creat := true, append := true } rfl S_IRWXUG
  refine Env.yields_sys (hc.withErrno (s.disk.absent (getLocalPath p cache_path))).client ho ?_
  refine Prog.Yields.ret ⟨rfl, ⟨hs1.only, (hc.withErrno _).withDisk t1, rfl⟩, rfl, rfl, hh1,
    s.disk.newFile S_IRWXUG, ?_, rfl⟩
  exact (congrFun hs1.look _).trans (Function.update_self ..)

/-- With a cached copy an open fetches exactly when the nanosecond part at the server is greater
than the recorded value. -/
theorem openCopy_present {junk : Junk} {f g : File} (hc : Calm s)
    (hf : s.disk.look (getLocalPath p cache_path) = some f)
    (hg : s.server.fs.look (getServerPath p env.root_path) = some g) :
    Prog.Yields env.exec (Client.openCopy junk p cache_path) s fun r t =>
      r.2 = decide ((g.mtim.tv_nsec : Int) > (s.client.ht.get p).toInt) ∧ Effect s t [] ∧
      t.client.ht = s.client.ht ∧ t.server = s.server ∧
      t.disk.Holds r.1 (getLocalPath p cache_path) 0 true := by
  unfold Client.openCopy
  obtain ⟨fd, t1, ho, h0, hh1, hs1, -⟩ :=
    Fs.openFile_of_look hf { append := true } rfl S_IRWXUG
  refine Env.yields_sys hc.client ho ?_
  have hfd : fd ≠ -1 := by omega
  simp only [hfd, if_false]
  refine Prog.Yields.bind (afsGetattr_yields (s := s.withDisk t1) (hc.withDisk t1) hg) ?_
  rintro ⟨r, st⟩ u ⟨-, hst, rfl⟩
  simp only at hst
  refine Prog.Yields.call (r := s.client.ht.get p) (t := (s.withDisk t1).reset) rfl ?_
  refine Prog.Yields.ret ⟨?_, ?_, rfl, rfl, hh1⟩
  · rw [hst]
  · exact ⟨hs1.only_nil, (hc.withDisk t1).reset, rfl⟩

/-- The end of an open, once it is decided that it fetches. -/
theorem afsOpen_of_fetch {junk : Junk} {fh : Int} {g : File} (ps : List Path)
    (hp : RootLevel p) (hdb : p ≠ databasePath) (hl : FlatDir cache_path s.disk)
    (hg : s.server.fs.look (getServerPath p env.root_path) = some g)
    (hlen : g.bytes.length < 2 ^ 31) (hps : ps ⊆ [getLocalPath p cache_path])
    (h : Prog.Yields env.exec (Client.openCopy junk p cache_path) s fun r t =>
      r.2 = true ∧ Effect s t ps ∧ t.client.ht = s.client.ht ∧
      t.server = s.server ∧ t.disk.Holds r.1 (getLocalPath p cache_path) 0 true ∧
      ∃ f, t.disk.look (getLocalPath p cache_path) = some f) :
    Prog.Yields env.exec (Client.afsOpen junk p cache_path fh) s fun r t =>
      r.1 = 0 ∧ Fetched cache_path p g s t := by
  unfold Client.afsOpen
  refine Prog.Yields.bind h ?_
  rintro ⟨fd, b⟩ t ⟨rfl, he, ht, hv, hh, f, hf⟩
  simp only [if_true]
  refine Prog.Yields.bind (fetchNewCopy_yields (g := g) he.calm (hl.congr he.disk.isDir) hp hdb hh
    hf (by rw [hv]; exact hg) hlen) ?_
  rintro _ u ⟨rfl, he2, ht2, hv2, f2, hf2, hb2⟩
  obtain ⟨i, hst⟩ := Fs.lstat_of_look hf2
  refine Env.yields_sys he2.calm.client (perform_lstat hst) (Prog.Yields.ret ⟨rfl, ?_, ?_, ?_, f2, hf2, hb2⟩)
  · refine ((he.trans he2).trans (Effect.disk_step he2.calm (Fs.Only.refl _ []))).mono ?_
    intro q hq
    rw [List.append_nil, List.mem_append] at hq
    rcases hq with hq | hq
    · exact List.mem_cons.mpr (Or.inl (List.mem_singleton.mp (hps hq)))
    · exact hq
  · exact ht2.trans (congrArg (fun ht => HashTable.put ht _ _) ht)
  · rw [hv] at hv2
    exact hv2

/-- Opening a file without a cached copy fetches it. -/
theorem afsOpen_missing {junk : Junk} {fh : Int} {g : File} (hc : Calm s)
    (hl : FlatDir cache_path s.disk) (hp : RootLevel p) (hdb : p ≠ databasePath)
    (hf : s.disk.look (getLocalPath p cache_path) = none)
    (hg : s.server.fs.look (getServerPath p env.root_path) = some g)
    (hlen : g.bytes.length < 2 ^ 31) :
    Prog.Yields env.exec (Client.afsOpen junk p cache_path fh) s fun r t =>
      r.1 = 0 ∧ Fetched cache_path p g s t := by
  refine afsOpen_of_fetch [getLocalPath p cache_path] hp hdb hl hg hlen (List.Subset.refl _)
    ((openCopy_missing hc hl hp hf).mono ?_)
  rintro r t ⟨hr, he, ht, hv, hh, f, hf', -⟩
  exact ⟨hr, he, ht, hv, hh, f, hf'⟩

/-- Opening a cached file fetches it again when the server's nanosecond part is greater than the
recorded value. -/
theorem afsOpen_stale {junk : Junk} {fh : Int} {f g : File} (hc : Calm s)
    (hl : FlatDir cache_path s.disk) (hp : RootLevel p) (hdb : p ≠ databasePath)
    (hf : s.disk.look (getLocalPath p cache_path) = some f)
    (hg : s.server.fs.look (getServerPath p env.root_path) = some g)
    (hlen : g.bytes.length < 2 ^ 31)
    (hnew : (g.mtim.tv_nsec : Int) > (s.client.ht.get p).toInt) :
    Prog.Yields env.exec (Client.afsOpen junk p cache_path fh) s fun r t =>
      r.1 = 0 ∧ Fetched cache_path p g s t := by
  refine afsOpen_of_fetch [] hp hdb hl hg hlen (List.nil_subset _)
    ((openCopy_present hc hf hg).mono ?_)
  rintro r t ⟨hr, he, ht, hv, hh⟩
  refine ⟨by rw [hr]; exact decide_eq_true hnew, he, ht, hv, hh, f, ?_⟩
  rw [he.disk.look _ List.not_mem_nil, hf]

/-- Opening a cached file keeps the copy when the server's nanosecond part is not greater than the
recorded value. -/
theorem afsOpen_keep {junk : Junk} {fh : Int} {f g : File} (hc : Calm s)
    (hf : s.disk.look (getLocalPath p cache_path) = some f)
    (hg : s.server.fs.look (getServerPath p env.root_path) = some g)
    (hold : ¬ (g.mtim.tv_nsec : Int) > (s.client.ht.get p).toInt) :
    Prog.Yields env.exec (Client.afsOpen junk p cache_path fh) s fun r t =>
      r.1 = 0 ∧ Effect s t [] ∧ t.client.ht = s.client.ht ∧ t.server = s.server := by
  unfold Client.afsOpen
  refine Prog.Yields.bind (openCopy_present hc hf hg) ?_
  rintro ⟨fd, b⟩ t ⟨hr, he, ht, hv, hh⟩
  simp only at hr
  subst hr
  simp only [hold, decide_false, Bool.false_eq_true, if_false]
  have hf' : t.disk.look (getLocalPath p cache_path) = some f := by
    rw [he.disk.look _ List.not_mem_nil, hf]
  obtain ⟨i, hst⟩ := Fs.lstat_of_look hf'
  refine Env.yields_sys he.calm.client (perform_lstat hst) (Prog.Yields.ret ⟨rfl, ?_, ht, hv⟩)
  exact he.trans (Effect.disk_step he.calm (Fs.Only.refl _ []))

/-- Creating a file that the server does not have leaves an empty file there and records its time. The
copy is empty if it is new, and keeps its bytes otherwise. -/
theorem afsCreate_yields {fh : Int} (hc : Calm s) (hl : FlatDir cache_path s.disk)
    (hp : RootLevel p) (hg : s.server.fs.look (getServerPath p env.root_path) = none)
    (hd : s.server.fs.isDir (getServerPath p env.root_path) = false)
    (hpar : s.server.fs.isDir (parent (getServerPath p env.root_path)) = true) :
    Prog.Yields env.exec (Client.afsCreate p cache_path fh) s fun r t =>
      r.1 = 0 ∧ Effect s t [getLocalPath p cache_path, getLocalPath databasePath cache_path] ∧
      t.client.ht = s.client.ht.put (hashKey p) (Int64.ofNat s.server.fs.clock.tv_nsec) ∧
      (p ≠ databasePath → ∃ f, t.disk.look (getLocalPath p cache_path) = some f ∧
        f.bytes = ((s.disk.look (getLocalPath p cache_path)).map (·.bytes)).getD []) ∧
      ∃ g, s.server.fs.Steps t.server.fs (Function.update s.server.fs.look
        (getServerPath p env.root_path) (some g)) ∧
        g.bytes = [] ∧ g.mtim = s.server.fs.clock := by
  obtain ⟨fd, t1, ho, h0, honly, f, hf1, hb1⟩ : ∃ fd t, s.disk.openFile (getLocalPath p cache_path)
      { creat := true, append := true } S_IRWXUG = .ok (fd, t) ∧ 0 ≤ fd ∧
      s.disk.Only t [getLocalPath p cache_path] ∧
      ∃ f, t.look (getLocalPath p cache_path) = some f ∧
        f.bytes = ((s.disk.look (getLocalPath p cache_path)).map (·.bytes)).getD [] := by
    cases hf : s.disk.look (getLocalPath p cache_path) with
    | none =>
        obtain ⟨fd, t, ho, h0, -, hs, -⟩ := Fs.openFile_creat hf (hl.isDir_local hp)
          (hl.parent_local hp) { creat := true, append := true } rfl S_IRWXUG
        refine ⟨fd, t, ho, h0, hs.only, s.disk.newFile S_IRWXUG, ?_, rfl⟩
        rw [hs.look, Function.update_self]
    | some f =>
        obtain ⟨fd, t, ho, h0, -, hs, -⟩ :=
          Fs.openFile_of_look hf { creat := true, append := true } rfl S_IRWXUG
        refine ⟨fd, t, ho, h0, hs.only_nil.mono (List.nil_subset _), f, ?_, rfl⟩
        rw [hs.look, hf]
  unfold Client.afsCreate
  refine Env.yields_sys hc.client ho ?_
  have hfd : fd ≠ -1 := by omega
  simp only [hfd, if_false]
  have he1 : Effect s (s.withDisk t1) [getLocalPath p cache_path] := Effect.disk_step hc honly
  refine Env.yields_rpc he1.calm (Server.afsCreate_yields env.junk env.root_path hc.server hg
    hd hpar) (fun m t hm => ⟨by rw [hm.2.1], hm.1⟩) ?_
  rintro m u ⟨hu, rfl, g, hsv, hgb, hgm⟩
  refine Prog.Yields.bind (record_yields (s := (s.withDisk t1).withServer u)
    (he1.calm.withServer hu) (hl.congr he1.disk.isDir) (Int64.ofNat s.server.fs.clock.tv_nsec)) ?_
  rintro _ t ⟨he, ht, hv', -⟩
  refine Prog.Yields.ret ⟨rfl, ?_, ht, fun hdb => ⟨f, ?_, hb1⟩, g, ?_, hgb, hgm⟩
  · have he' : Effect (s.withDisk t1) t [getLocalPath databasePath cache_path] :=
      ⟨he.disk, he.calm, he.inflight⟩
    exact (he1.trans he').mono (by simp)
  · have hnd : getLocalPath p cache_path ≠ getLocalPath databasePath cache_path :=
      getLocalPath_ne hp rootLevel_database hdb cache_path
    rw [he.disk.look _ (by simpa using hnd)]
    exact hf1
  · rw [hv']
    exact hsv

/-- Unlinking removes the cached copy and the server's file, if they are there. -/
theorem afsUnlink_yields (hc : Calm s) (hl : FlatDir cache_path s.disk) (hp : RootLevel p)
    (hd : s.server.fs.isDir (getServerPath p env.root_path) = false) :
    Prog.Yields env.exec (Client.afsUnlink p cache_path) s fun r t =>
      r = 0 ∧ Effect s t [getLocalPath p cache_path] ∧ t.client.ht = s.client.ht ∧
      t.disk.look (getLocalPath p cache_path) = none ∧
      s.server.fs.Steps t.server.fs (Function.update s.server.fs.look
        (getServerPath p env.root_path) none) := by
  have hrest : ∀ u : St, Effect s u [getLocalPath p cache_path] → u.client.ht = s.client.ht →
      u.server = s.server → u.disk.look (getLocalPath p cache_path) = none →
      Prog.Yields env.exec (Client.rpc (.unlink p) >>= fun status =>
        pure (Client.errorOf status)) u fun r t =>
        r = 0 ∧ Effect s t [getLocalPath p cache_path] ∧ t.client.ht = s.client.ht ∧
        t.disk.look (getLocalPath p cache_path) = none ∧
        s.server.fs.Steps t.server.fs (Function.update s.server.fs.look
          (getServerPath p env.root_path) none) := by
    intro u he ht hv hn
    rw [← hv] at hd ⊢
    refine Env.yields_rpc he.calm (Server.afsUnlink_yields env.root_path he.calm.server hd)
      (fun m t hm => ⟨hm.2.1, hm.1⟩) ?_
    rintro m t ⟨hf, -, hs⟩
    exact Prog.Yields.ret ⟨rfl, ⟨he.disk, he.calm.withServer hf, he.inflight⟩, ht, hn, hs⟩
  unfold Client.afsUnlink
  cases hf : s.disk.look (getLocalPath p cache_path) with
  | none =>
      refine Env.yields_sys_error hc.client (Fs.unlink_missing hf (hl.isDir_local hp)) ?_
      exact hrest _ ⟨Fs.Only.refl _ _, hc.withErrno _, rfl⟩ rfl rfl hf
  | some f =>
      obtain ⟨t1, hu, hs1, -⟩ := Fs.unlink_of_look hf
      refine Env.yields_sys hc.client hu ?_
      refine hrest _ (Effect.disk_step hc hs1.only) rfl rfl ?_
      exact (congrFun hs1.look _).trans (Function.update_self ..)

end Afs
