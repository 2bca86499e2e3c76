import Afs.Ops.Confined
import Afs.Ops.Copies

/-!
# A release among writes

The mounted file system serves requests on several threads, so complete writes of one session can
fall between the calls of a release of another. The release reads the file once and overwrites the
flag when the server's reply arrives, whatever was written in between.
-/

namespace Afs

open Posix Interaction

/-- Complete writes, each an offset and a buffer. -/
abbrev Writes := List (Nat × Bytes)

/-- Whether some write has bytes. -/
def Writes.Dirty (ws : Writes) : Prop := ∃ w ∈ ws, w.2 ≠ []

instance (ws : Writes) : Decidable ws.Dirty := inferInstanceAs (Decidable (∃ w ∈ ws, w.2 ≠ []))

/-- Writes that end below the largest file size that `off_t` can express. -/
def Writes.Below (ws : Writes) : Prop := ∀ w ∈ ws, w.1 + w.2.length < 2 ^ 63

instance (ws : Writes) : Decidable ws.Below :=
  inferInstanceAs (Decidable (∀ w ∈ ws, w.1 + w.2.length < 2 ^ 63))

/-- A client runs complete writes one after the other. -/
def Client.writes (env : Env) (junk : Junk) (p cache_path : Path) (ws : Writes) (s : St) : St :=
  ws.foldl (fun s w => ((Client.afsWrite junk p cache_path w.2 w.1).run env.exec s).2) s

/-- The copies after complete writes: the cached bytes changed, and flagged. -/
def Copies.wrote (c : Copies) (ws : Writes) : Copies :=
  { c with
    cached := c.cached.map (overwriteAll · ws)
    recorded := if ws.Dirty then modifiedFlag else c.recorded }

/-- A file ready for operations, with these copies; the cached one is `b`. -/
structure Stands (env : Env) (cache_path p : Path) (s : St) (c : Copies) (b : Bytes) : Prop where
  ready : Ready env cache_path p s
  copies : s.copies env cache_path p = c
  cached : c.cached = some b
  /-- The length is one that `off_t` can express. -/
  below : b.length < 2 ^ 63

variable {env : Env} {junk : Junk} {cache_path p : Path} {s t : St} {c : Copies} {b : Bytes}

/-- The cached file. -/
theorem Stands.look (h : Stands env cache_path p s c b) :
    ∃ f, s.disk.look (getLocalPath p cache_path) = some f ∧ f.bytes = b := by
  have hc : (s.copies env cache_path p).cached = some b := by
    rw [h.copies]
    exact h.cached
  exact St.cached_eq_some hc

/-- A step that changes neither the copies nor what surrounds them. -/
theorem Stands.of_effect {ps : List Path} (h : Stands env cache_path p s c b) (he : Effect s t ps)
    (hps : getLocalPath p cache_path ∉ ps) (ht : t.client.ht = s.client.ht)
    (hv : t.server = s.server) : Stands env cache_path p t c b where
  ready :=
    { calm := he.calm
      cache := h.ready.cache.congr he.disk.isDir
      root := hv ▸ h.ready.root
      plain := hv ▸ h.ready.plain
      level := h.ready.level
      ne_database := h.ready.ne_database }
  copies := by
    rw [← h.copies]
    simp only [St.copies, hv, ht, he.disk.look _ hps]
  cached := h.cached
  below := h.below

theorem wrote_nil (c : Copies) : c.wrote [] = c := by
  have hd : ¬ Writes.Dirty [] := nofun
  cases c with
  | mk served cached recorded => cases cached <;> simp [Copies.wrote, hd]

theorem wrote_append (c : Copies) (ws us : Writes) : c.wrote (ws ++ us) = (c.wrote ws).wrote us := by
  have hd : Writes.Dirty (ws ++ us) ↔ ws.Dirty ∨ us.Dirty := by
    simp only [Writes.Dirty, List.mem_append, or_and_right, exists_or]
  simp only [Copies.wrote, Option.map_map, Copies.mk.injEq, true_and, hd]
  refine ⟨?_, ?_⟩
  · cases c.cached <;> simp
  · by_cases h1 : us.Dirty <;> by_cases h2 : ws.Dirty <;> simp [h1, h2]

/-- One complete write. -/
theorem Stands.write {w : Nat × Bytes} (h : Stands env cache_path p s c b) (junk : Junk)
    (hw : w.1 + w.2.length < 2 ^ 63) :
    Stands env cache_path p
      ((Client.afsWrite junk p cache_path w.2 w.1).run env.exec s).2 (c.wrote [w])
      (overwrite b w.1 w.2) := by
  obtain ⟨off, d⟩ := w
  obtain ⟨f, hf, hfb⟩ := h.look
  by_cases hd : d = []
  · subst hd
    have hnil : Prog.Yields env.exec (Client.afsWrite junk p cache_path [] off) s fun r t =>
        r = 0 ∧ t = s := afsWrite_nil junk off
    obtain ⟨r, t, hrun, -, rfl⟩ := hnil
    have hnot : ¬ Writes.Dirty [(off, [])] := by
      rintro ⟨w, hw, hne⟩
      rw [List.mem_singleton.mp hw] at hne
      exact hne rfl
    have hc : c.wrote [(off, [])] = c := by
      cases c
      simp [Copies.wrote, hnot]
    rw [hrun, hc, overwrite_nil]
    exact h
  · have hlen : f.bytes.length < 2 ^ 64 := by
      have := h.below
      rw [hfb]
      omega
    obtain ⟨r, t, hrun, -, he, ht, hv, g, hg, hgb⟩ := afsWrite_yields junk off h.ready.calm
      h.ready.cache h.ready.level h.ready.ne_database hf hlen hd
    have hdirty : Writes.Dirty [(off, d)] := ⟨_, List.mem_singleton_self _, hd⟩
    rw [hrun]
    refine ⟨⟨he.calm, h.ready.cache.congr he.disk.isDir, hv ▸ h.ready.root, hv ▸ h.ready.plain,
      h.ready.level, h.ready.ne_database⟩, ?_, ?_, ?_⟩
    · rw [← h.copies]
      simp only [St.copies, Copies.wrote, hv, ht, hg, hf, hgb, hfb, Option.map_some, hdirty, if_true,
        HashTable.get_put_self, overwriteAll_singleton, overwrite_of_ne_nil _ _ hd]
    · simp only [Copies.wrote, h.cached, Option.map_some, overwriteAll_singleton]
    · have hle := length_overwrite_le b off d
      have hb := h.below
      change (overwrite b off d).length < 2 ^ 63
      simp only at hw
      omega

/-- Complete writes: the copies follow, and the rest of the disk stays. -/
theorem Stands.writes {ws : Writes} (h : Stands env cache_path p s c b) (junk : Junk)
    (hws : ws.Below) :
    Stands env cache_path p (Client.writes env junk p cache_path ws s) (c.wrote ws)
        (overwriteAll b ws) ∧
      Fs.Frame (writeNames p cache_path) (writeFiles p cache_path) s.disk
        (Client.writes env junk p cache_path ws s).disk := by
  induction ws generalizing s c b with
  | nil =>
      rw [wrote_nil]
      exact ⟨h, Fs.Frame.refl _⟩
  | cons w ws ih =>
      have hone := h.write junk (hws w List.mem_cons_self)
      obtain ⟨hs, hframe⟩ := ih hone fun w' h => hws w' (List.mem_cons_of_mem _ h)
      rw [← List.singleton_append, wrote_append]
      exact ⟨hs, ((afsWrite_confined junk p w.2 w.1).run_frame s).trans hframe⟩

/-- The table takes a value. -/
theorem Stands.put (h : Stands env cache_path p s c b) (v : Int64) :
    Stands env cache_path p (s.withTable (s.client.ht.put (hashKey p) v))
      { c with recorded := v } b where
  ready := ⟨h.ready.calm.withTable _, h.ready.cache, h.ready.root, h.ready.plain, h.ready.level,
    h.ready.ne_database⟩
  copies := by
    rw [← h.copies]
    simp only [St.copies, St.withTable, HashTable.get_put_self]
  cached := h.cached
  below := h.below

/-- Recording a value among complete writes: the writes after the table access leave their flag. -/
theorem Stands.record_among {α : Type} {v : Int64} {f : Unit → Prog clientSig α}
    {acts : List Writes} {x : α × St} (hs : Stands env cache_path p s c b)
    (hacts : ∀ ws ∈ acts, Writes.Below ws)
    (h : (Client.record p cache_path v >>= f).interleave env.exec
      (Client.writes env junk p cache_path) acts s = some x) :
    ∃ w ws rest t, acts = w :: (ws ++ rest) ∧ ws.length = 4 ∧
      Stands env cache_path p t ({ c.wrote w with recorded := v }.wrote ws.flatten)
        (overwriteAll b (w ++ ws.flatten)) ∧
      (f ()).interleave env.exec (Client.writes env junk p cache_path) rest t = some x := by
  have hlocal : getLocalPath p cache_path ∉ [getLocalPath databasePath cache_path] := by
    simpa using getLocalPath_ne hs.ready.level rootLevel_database hs.ready.ne_database cache_path
  have hdb : getLocalPath databasePath cache_path ∉ writeNames p cache_path := by
    simp only [writeNames, List.mem_cons, List.not_mem_nil, or_false, not_or]
    exact ⟨getLocalPath_ne rootLevel_database hs.ready.level (Ne.symm hs.ready.ne_database) _,
      getLocalPath_ne_tmp hs.ready.level rootLevel_database (database_ne_tmp p) _⟩
  obtain ⟨w, acts', rfl, h1⟩ := Prog.interleave_op h
  clear h
  have hs0 := (hs.writes junk (hacts w List.mem_cons_self)).1
  generalize Client.writes env junk p cache_path w s = s0 at h1 hs0
  change Prog.interleave env.exec _ _ acts' (s0.withTable (s0.client.ht.put (hashKey p) v)) =
    some x at h1
  have hs1 := hs0.put v
  generalize s0.withTable (s0.client.ht.put (hashKey p) v) = s1 at h1 hs1
  obtain ⟨w1, acts, rfl, h2⟩ := Prog.interleave_op h1
  clear h1
  have hs2 := (hs1.writes junk (hacts w1 (by simp))).1
  generalize Client.writes env junk p cache_path w1 s1 = s2 at h2 hs2
  obtain ⟨fd, t2, f2, ho, h0, hh2, hst2, -, -, -⟩ :=
    Fs.openFile_trunc (hs2.ready.cache.isDir_local rootLevel_database)
      (fun _ => hs2.ready.cache.parent_local rootLevel_database)
      { creat := true, trunc := true } rfl rfl 0o666
  rw [Env.exec_sys (c := .openF _ { creat := true, trunc := true } 0o666) hs2.ready.calm.client ho] at h2
  have hs2' := hs2.of_effect (Effect.disk_step hs2.ready.calm hst2.only) hlocal rfl rfl
  have hfd : fd ≠ -1 := by omega
  simp only [Prog.bind, hfd, if_false] at h2
  change (s2.withDisk t2).disk.Holds _ _ _ _ at hh2
  generalize s2.withDisk t2 = s2' at h2 hs2' hh2
  obtain ⟨w2, acts', rfl, h3⟩ := Prog.interleave_op h2
  clear h2
  obtain ⟨hs3, hf3⟩ := hs2'.writes junk (hacts w2 (by simp))
  have hh3 := hf3.holds hdb hh2
  generalize Client.writes env junk p cache_path w2 s2' = s3 at h3 hs3 hh3
  have htable : env.exec .table s3 = (s3.client.ht, s3) := rfl
  rw [htable] at h3
  obtain ⟨w3, acts, rfl, h4⟩ := Prog.interleave_op h3
  clear h3
  obtain ⟨hs4, hf4⟩ := hs3.writes junk (hacts w3 (by simp))
  have hh4 := hf4.holds hdb hh3
  generalize Client.writes env junk p cache_path w3 s3 = s4 at h4 hs4 hh4
  obtain ⟨g, hg⟩ := Fs.look_of_holds hh4
  obtain ⟨t4, g', hw, hst4, -, -, -, hh4'⟩ := Fs.write_of_holds hh4 hg (dumpText s3.client.ht)
  rw [Env.exec_sys hs4.ready.calm.client (perform_write rfl List.prefix_rfl hw)] at h4
  have hs4' := hs4.of_effect (Effect.disk_step hs4.ready.calm hst4.only) hlocal rfl rfl
  change (s4.withDisk t4).disk.Holds _ _ _ _ at hh4'
  generalize s4.withDisk t4 = s4' at h4 hs4' hh4'
  obtain ⟨w4, acts', rfl, h5⟩ := Prog.interleave_op h4
  clear h4
  obtain ⟨hs5, hf5⟩ := hs4'.writes junk (hacts w4 (by simp))
  have hh5 := hf5.holds hdb hh4'
  generalize Client.writes env junk p cache_path w4 s4' = s5 at h5 hs5 hh5
  obtain ⟨t5, hcl, hst5, -⟩ := Fs.close_of_holds hh5
  rw [Env.exec_sys (c := .close fd) hs5.ready.calm.client hcl] at h5
  have hs5' := hs5.of_effect (Effect.disk_step hs5.ready.calm hst5.only_nil) List.not_mem_nil rfl rfl
  refine ⟨w, [w1, w2, w3, w4], acts', _, rfl, rfl, ?_, h5⟩
  simpa only [← wrote_append, ← overwriteAll_append, List.append_assoc, List.flatten_cons,
    List.flatten_nil, List.append_nil] using hs5'

/-- A store that succeeds at its first attempt. -/
theorem Stands.store (h : Stands env cache_path p s c b) (request : StoreReq)
    (hp : request.path = p) (hsize : request.size.toInt = request.buf.length) :
    ∃ reply t now, env.exec (.retried (.store request)) s = (some reply, t) ∧
      reply.time = Int64.ofNat now.tv_nsec ∧
      Stands env cache_path p t { c with served := some (request.buf, now) } b := by
  subst hp
  obtain ⟨m, u, ⟨hu, rfl, g, hst, hgb, hgm⟩, hexec⟩ := Env.exec_retried (r := .store request) h.ready.calm
    (Server.afsStore_yields env.junk env.root_path request h.ready.calm.server hsize h.ready.plain
      fun _ => h.ready.parent_server) (fun m t hm => ⟨by rw [hm.2.1], hm.1⟩)
  refine ⟨_, _, s.server.fs.clock, hexec, rfl, ⟨(h.ready.calm.withServer hu).reset, h.ready.cache,
    ?_, ?_, h.ready.level, h.ready.ne_database⟩, ?_, h.cached, h.below⟩
  · exact (congrFun hst.isDir _).trans h.ready.root
  · exact (congrFun hst.isDir _).trans h.ready.plain
  · rw [← h.copies]
    simp only [St.copies, St.withServer, St.reset, hst.look, Function.update_self, Option.map_some,
      hgb, hgm]
    rfl

/-- A store among complete writes. -/
theorem Stands.store_among {α : Type} {buf : Bytes} {size : Int32}
    {f : Int → Prog clientSig α} {acts : List Writes} {x : α × St}
    (hs : Stands env cache_path p s c b) (hacts : ∀ ws ∈ acts, Writes.Below ws)
    (hbuf : size.toInt.toNat ≤ buf.length)
    (h : (Client.afsStore p cache_path buf size >>= f).interleave env.exec
      (Client.writes env junk p cache_path) acts s = some x) :
    0 ≤ size.toInt ∧ ∃ w w' ws rest now r t, acts = w :: w' :: (ws ++ rest) ∧ ws.length = 4 ∧
      Stands env cache_path p t
        (Copies.wrote ⟨some (buf.take size.toInt.toNat, now), some (overwriteAll b (w ++ w')),
          Int64.ofNat now.tv_nsec⟩ ws.flatten)
        (overwriteAll b (w ++ w' ++ ws.flatten)) ∧
      (f r).interleave env.exec (Client.writes env junk p cache_path) rest t = some x := by
  unfold Client.afsStore at h
  by_cases hneg : size < 0
  · simp only [hneg, if_true] at h
    exact absurd h Prog.interleave_halt
  have hpos : 0 ≤ size.toInt := by
    rw [Int32.lt_iff_toInt_lt] at hneg
    exact Int.not_lt.mp hneg
  simp only [hneg, if_false] at h
  refine ⟨hpos, ?_⟩
  have hfit : size.toInt = (buf.take size.toInt.toNat).length := by
    rw [List.length_take]
    omega
  obtain ⟨w, acts', rfl, h1⟩ := Prog.interleave_op h
  clear h
  have hs0 := (hs.writes junk (hacts w (by simp))).1
  generalize Client.writes env junk p cache_path w s = s0 at h1 hs0
  obtain ⟨reply, s1, now, hexec, htime, hs1⟩ := hs0.store
    ⟨p, size, buf.take size.toInt.toNat⟩ rfl hfit
  rw [hexec] at h1
  change Prog.interleave env.exec _ ((Client.record p cache_path reply.time >>= fun _ =>
    pure reply.error.toInt) >>= f) acts' s1 = some x at h1
  rw [Prog.bind_assoc] at h1
  obtain ⟨w', ws, rest, t, rfl, hlen, hst, h2⟩ := hs1.record_among
    (fun ws hws => hacts ws (List.mem_cons_of_mem _ hws)) h1
  refine ⟨w, w', ws, rest, now, _, t, rfl, hlen, ?_, h2⟩
  rw [← overwriteAll_append, ← List.append_assoc] at hst
  simpa only [Copies.wrote, hs.cached, Option.map_some, htime, overwriteAll_append] using hst

/-- How a release among complete writes ends. `w0` are the writes before the length is
taken, `w1` those before the flag is read, up to `w3` those before the copy is opened, up to `w6`
those before the reply's time is recorded, and `later` those after it. -/
theorem Stands.release_among {junk' : Junk} {fh : Int} {acts : List Writes} {r : Int}
    (hs : Stands env cache_path p s c b) (hacts : ∀ ws ∈ acts, Writes.Below ws)
    (h : (Client.afsRelease junk' p cache_path fh).interleave env.exec
      (Client.writes env junk p cache_path) acts s = some (r, t)) :
    (∃ w0 w1, acts = [w0, w1] ∧ (c.wrote (w0 ++ w1)).recorded ≠ modifiedFlag ∧
      t.copies env cache_path p = c.wrote (w0 ++ w1)) ∨
    ∃ w0 w1 w2 w3 w4 w5 w6 later now, acts = w0 :: w1 :: w2 :: w3 :: w4 :: w5 :: w6 :: later ∧
      (c.wrote (w0 ++ w1)).recorded = modifiedFlag ∧
      0 ≤ (Int32.ofInt (overwriteAll b w0).length).toInt ∧
      t.copies env cache_path p =
        Copies.wrote
          ⟨some (sentBytes (overwriteAll b w0).length (overwriteAll b (w0 ++ w1 ++ w2 ++ w3)), now),
            some (overwriteAll b (w0 ++ w1 ++ w2 ++ w3 ++ w4 ++ w5 ++ w6)),
            Int64.ofNat now.tv_nsec⟩ later.flatten := by
  have hfiles : getLocalPath p cache_path ∉ writeFiles p cache_path := by
    simp only [writeFiles, List.mem_cons, List.not_mem_nil, or_false, not_or]
    exact ⟨getLocalPath_ne_tmp hs.ready.level hs.ready.level (ne_append_tmp p) _,
      getLocalPath_ne hs.ready.level rootLevel_database hs.ready.ne_database _⟩
  unfold Client.afsRelease at h
  obtain ⟨w0, acts', rfl, h1⟩ := Prog.interleave_op h
  clear h
  have hs0 := (hs.writes junk (hacts w0 (by simp))).1
  generalize Client.writes env junk p cache_path w0 s = s0 at h1 hs0
  obtain ⟨f0, hf0, hb0⟩ := hs0.look
  obtain ⟨i, hst⟩ := Fs.lstat_of_look hf0
  rw [Env.exec_sys (c := .lstat _) hs0.ready.calm.client (perform_lstat hst)] at h1
  change Prog.interleave env.exec _ _ acts' s0 = _ at h1
  obtain ⟨w1, acts, rfl, h2⟩ := Prog.interleave_op h1
  clear h1
  have hs1 := (hs0.writes junk (hacts w1 (by simp))).1
  generalize Client.writes env junk p cache_path w1 s0 = s1 at h2 hs1
  have hs1' := hs1
  rw [← wrote_append, ← overwriteAll_append] at hs1'
  have hget : s1.client.ht.get p = (c.wrote (w0 ++ w1)).recorded :=
    congrArg Copies.recorded hs1'.copies
  change Prog.interleave env.exec _ ((if s1.client.ht.get p = modifiedFlag then _ else _ :
    Prog clientSig Int)) acts s1 = _ at h2
  rw [hget] at h2
  by_cases hm : (c.wrote (w0 ++ w1)).recorded = modifiedFlag
  · rw [if_pos hm] at h2
    refine Or.inr ?_
    obtain ⟨w2, acts', rfl, h3⟩ := Prog.interleave_op h2
    clear h2
    have hs2 := (hs1.writes junk (hacts w2 (by simp))).1
    generalize Client.writes env junk p cache_path w2 s1 = s2 at h3 hs2
    obtain ⟨rc, s2', hexec, he⟩ := exec_close env fh hs2.ready.calm.client
    rw [hexec] at h3
    have hs2' := hs2.of_effect (he.effect hs2.ready.calm) List.not_mem_nil he.table he.server
    obtain ⟨w3, acts, rfl, h4⟩ := Prog.interleave_op h3
    clear h3
    have hs3 := (hs2'.writes junk (hacts w3 (by simp))).1
    change Prog.interleave env.exec _ _ acts _ = _ at h4
    generalize Client.writes env junk p cache_path w3 s2' = s3 at h4 hs3
    obtain ⟨f3, hf3, hb3⟩ := hs3.look
    obtain ⟨fd, t3, ho, -, hh3, hst3, -⟩ :=
      Fs.openFile_of_look hf3 { append := true } rfl S_IRWXUG
    rw [Env.exec_sys (c := .openF _ { append := true } S_IRWXUG) hs3.ready.calm.client ho] at h4
    have hs3' := hs3.of_effect (Effect.disk_step hs3.ready.calm hst3.only_nil) List.not_mem_nil
      rfl rfl
    have hf3' : (s3.withDisk t3).disk.look (getLocalPath p cache_path) = some f3 :=
      (congrFun hst3.look _).trans hf3
    change (s3.withDisk t3).disk.Holds _ _ _ _ at hh3
    generalize s3.withDisk t3 = s3' at h4 hs3' hf3' hh3
    obtain ⟨w4, acts', rfl, h5⟩ := Prog.interleave_op h4
    clear h4
    obtain ⟨hs4, hf4⟩ := hs3'.writes junk (hacts w4 (by simp))
    generalize Client.writes env junk p cache_path w4 s3' = s4 at h5 hs4 hf4
    obtain ⟨u, hrd, hsu⟩ := hf4.read_old hh3 hf3' hfiles f0.bytes.length
    have hperf : Sys.perform none (.read fd f0.bytes.length) s4.disk =
        .ok (some (slice f3.bytes 0 f0.bytes.length), u) := by
      simp only [Sys.perform, Option.elim_none, hrd]
      rfl
    have hn : sizeT ((some (f0.stat i)).getD junk'.info).st_size = f0.bytes.length :=
      sizeT_stat (by have := hs0.below; rw [hb0]; omega) i
    rw [hn, Env.exec_sys hs4.ready.calm.client hperf] at h5
    have hs4' := hs4.of_effect (Effect.disk_step hs4.ready.calm hsu.only_nil) List.not_mem_nil
      rfl rfl
    have hread : fill (junk'.heap f0.bytes.length) (some (slice f3.bytes 0 f0.bytes.length)) =
        (overwriteAll b (w0 ++ w1 ++ w2 ++ w3)).take (overwriteAll b w0).length := by
      have hle := le_length_overwriteAll (overwriteAll b w0) (w1 ++ w2 ++ w3)
      have hb : f3.bytes = overwriteAll b (w0 ++ w1 ++ w2 ++ w3) := by
        simp only [hb3, overwriteAll_append]
      simp only [← overwriteAll_append, ← List.append_assoc] at hle
      rw [fill_of_length, slice, List.drop_zero, hb, hb0]
      rw [junk'.length_heap, slice, List.drop_zero, List.length_take, hb, hb0]
      omega
    change Prog.interleave env.exec _ (Client.afsStore p cache_path
      (fill (junk'.heap f0.bytes.length) (some (slice f3.bytes 0 f0.bytes.length)))
      (Int32.ofInt f0.bytes.length) >>= fun _ => pure rc) acts' (s4.withDisk u) = _ at h5
    rw [hread, hb0] at h5
    have hfit : (Int32.ofInt (overwriteAll b w0).length).toInt.toNat ≤
        ((overwriteAll b (w0 ++ w1 ++ w2 ++ w3)).take (overwriteAll b w0).length).length := by
      have hle := le_length_overwriteAll (overwriteAll b w0) (w1 ++ w2 ++ w3)
      have hm' := toInt_ofInt_le (overwriteAll b w0).length
      simp only [← overwriteAll_append, ← List.append_assoc] at hle
      rw [List.length_take]
      omega
    obtain ⟨hpos, w5, w6, later, rest, now, _, t', rfl, -, hst, h6⟩ :=
      hs4'.store_among (fun ws hws => hacts ws (by simp [hws])) hfit h5
    obtain ⟨rfl, hx⟩ := Prog.interleave_ret h6
    obtain ⟨-, rfl⟩ := Prod.mk.inj hx
    refine ⟨w0, w1, w2, w3, w4, w5, w6, later, now, by rw [List.append_nil], hm, hpos, ?_⟩
    rw [hst.copies, List.take_take, Nat.min_eq_left (toInt_ofInt_le _)]
    simp only [sentBytes, overwriteAll_append]
  · rw [if_neg hm] at h2
    obtain ⟨rfl, hx⟩ := Prog.interleave_ret h2
    obtain ⟨-, rfl⟩ := Prod.mk.inj hx
    exact Or.inl ⟨w0, w1, rfl, hm, hs1'.copies⟩

end Afs
