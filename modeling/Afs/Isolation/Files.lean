import Afs.Failures.Restart
import Afs.Ops.Confined
import Afs.Ops.Depth
import Afs.Ops.Writing

/-!
# The client's own files among the user's

The temporary file of a write and the database file lie in the cache directory under names that a
user's files can have. A write of one file spares the copy of another, and the database file stays
what dumping the table makes it, exactly when the names do not clash.
-/

namespace Posix

variable {s : Fs} {q : Path} {b : Bytes}

/-- Files outside of the names that a program takes away or makes keep their bytes. -/
theorem Fs.Frame.has {N M : List Path} {t : Fs} (h : Fs.Frame N M s t) (hN : q ∉ N) (hM : q ∉ M)
    (hb : s.Has q b) : t.Has q b := by
  obtain ⟨i, hi, rfl⟩ := hb
  have hmine : ¬ s.Mine M i := by
    rintro (hn | ⟨q', hq', hi'⟩)
    · exact absurd (s.tree_lt q i hi) (Nat.not_lt.mpr hn)
    · exact hM (s.tree_inj q' q i hi' hi ▸ hq')
  exact ⟨i, h.tree q i hN hi, by rw [h.node i hmine]⟩

/-- After a rename without faults the old name is free. -/
theorem Sys.exec_rename_free {v : Proc} {p : Path} (hf : v.faults = []) (hp : v.fs.isDir p = false)
    (hq : v.fs.isDir q = false) (hne : p ≠ q) : ((Sys.rename p q).exec v).2.fs.look p = none := by
  cases hl : v.fs.look p with
  | none =>
      have he : Sys.perform none (.rename p q) v.fs = .error (v.fs.absent p) := by
        simp only [Sys.perform, Fs.rename, Fs.tree_eq_none hl hp]
      rw [Sys.exec_error hf he]
      exact hl
  | some f =>
      obtain ⟨t, hr, hs⟩ := Fs.rename_of_look hl hq hne
      have ho : Sys.perform none (.rename p q) v.fs = .ok (0, t) := hr
      rw [Sys.exec_ok hf ho]
      change t.look p = none
      rw [hs.look, Function.update_of_ne hne, Function.update_self]

end Posix

namespace Afs

open Posix Interaction Transition

/-- Below the first component there is another separator, also where a path is cut. -/
theorem take_of_deep {name rest : Path} (h : EntryName name) {n : Nat} (hn : NAME_MAX + 1 ≤ n) :
    (name ++ slash :: rest).take n = name ++ slash :: rest.take (n - name.length - 1) := by
  obtain ⟨-, -, hl⟩ := h
  have hsub : n - name.length = (n - name.length - 1) + 1 := by omega
  rw [List.take_append, List.take_of_length_le (by omega), hsub, List.take_succ_cons]
  simp

/-- No copy of a root-level file is the copy or the temporary file of another path, unless the names
say so. -/
theorem getLocalPath_ne_of_userPath {p q : Path} (hp : UserPath p) (hq : RootLevel q) (hne : p ≠ q)
    (dir : Path) : getLocalPath q dir ≠ getLocalPath p dir := by
  rcases hp.cases with hroot | ⟨name, rest, hname, rfl⟩
  · exact getLocalPath_ne hq hroot (Ne.symm hne) dir
  · rw [getLocalPath_eq hq, getLocalPath_cons, take_of_deep hname (by decide)]
    obtain ⟨n, rfl, -, hs, -⟩ := hq
    intro he
    have hn := List.cons.inj (List.append_cancel_left he)
    exact hs (hn.2 ▸ by simp)

theorem getLocalPath_ne_tmp_of_userPath {p q : Path} (hp : UserPath p) (hq : RootLevel q)
    (hne : q ≠ p ++ cstr "_tmp") (dir : Path) : getLocalPath q dir ≠ getLocalTmpPath p dir := by
  rcases hp.cases with hroot | ⟨name, rest, hname, rfl⟩
  · exact getLocalPath_ne_tmp hroot hq hne dir
  · rw [getLocalPath_eq hq, getLocalTmpPath_cons, take_of_deep hname (by decide)]
    obtain ⟨n, rfl, -, hs, -⟩ := hq
    intro he
    have hn := List.cons.inj (List.append_cancel_left he)
    exact hs (hn.2 ▸ by simp)

section Writes

variable {env : Env} {junk : Junk} {rest p q dir : Path} {buffer : Bytes} {offset : Nat} {s : St}
  {b : Bytes}

/-- A write leaves files with other names than its own three. -/
theorem afsWrite_has (hl : q ≠ getLocalPath p dir) (ht : q ≠ getLocalTmpPath p dir)
    (hd : q ≠ getLocalPath databasePath dir) (h : s.disk.Has q b) :
    ((Client.afsWrite junk p dir buffer offset).run env.exec s).2.disk.Has q b := by
  refine ((afsWrite_confined junk p buffer offset).run_frame s).has ?_ ?_ h
  · simp only [writeNames, List.mem_cons, List.not_mem_nil, or_false, not_or]
    exact ⟨hl, ht⟩
  · simp only [writeFiles, List.mem_cons, List.not_mem_nil, or_false, not_or]
    exact ⟨ht, hd⟩

/-- A write without faults comes to its record in a state that has no temporary file, whether there was
one before or not. -/
private theorem afsWrite_recorded (hf : s.client.proc.faults = []) (hl : CacheDir dir s.disk) (hb : buffer ≠ []) :
    ∃ u t, u.disk.look (getLocalTmpPath (slash :: rest) dir) = none ∧
      LocalEffect u t [getLocalPath databasePath dir] ∧
      (t.disk.look (getLocalPath databasePath dir)).map (·.bytes) = some (dumpText u.client.ht) ∧
      ((Client.afsWrite junk (slash :: rest) dir buffer offset).run env.exec s).2.disk = t.disk ∧
      u.client.ht = s.client.ht.put (hashKey (slash :: rest)) modifiedFlag := by
  have hkeep : ∀ c (u : St), c.Plain (fun _ => False) (getLocalPath (slash :: rest) dir)
      (getLocalTmpPath (slash :: rest) dir) →
      u.client.proc.faults = [] ∧ CacheDir dir u.disk ∧ u.client.ht = s.client.ht →
      (env.exec c u).2.client.proc.faults = [] ∧ CacheDir dir (env.exec c u).2.disk ∧
        (env.exec c u).2.client.ht = s.client.ht := by
    rintro c u hp ⟨hfu, hcache, hht⟩
    refine ⟨plain_faults hp hfu, exec_cacheDir ?_ hcache, (plain_rest hp).1.trans hht⟩
    cases c with
    | sys c =>
        rw [getLocalPath_cons, getLocalTmpPath_cons] at hp
        exact ⟨_, hp⟩
    | _ => trivial
  have hne : getLocalTmpPath (slash :: rest) dir ≠ getLocalPath (slash :: rest) dir := by
    intro he
    have hlen := congrArg List.length he
    rw [getLocalTmpPath_cons, getLocalPath_cons] at hlen
    simp only [List.length_append, List.length_cons] at hlen
    have htmp : (cstr "_tmp").length = 4 := by decide
    omega
  obtain ⟨rc, t, hfill, ht⟩ :=
    Client.fillTmp_uses.yields Client.fillTmp_total hkeep ⟨hf, hl, rfl⟩
  have hv := hkeep (.sys (.remove (getLocalPath (slash :: rest) dir))) t rfl ht
  obtain ⟨hu, hcu, htu⟩ := hkeep (.sys (.rename (getLocalTmpPath (slash :: rest) dir)
    (getLocalPath (slash :: rest) dir))) _ ⟨rfl, rfl⟩ hv
  have hfree := Sys.exec_rename_free hv.1
    (by rw [getLocalTmpPath_cons]; exact hv.2.1.flat _)
    (by rw [getLocalPath_cons]; exact hv.2.1.flat _) hne
  let u := (env.exec (.sys (.rename (getLocalTmpPath (slash :: rest) dir)
    (getLocalPath (slash :: rest) dir)))
      (env.exec (.sys (.remove (getLocalPath (slash :: rest) dir))) t).2).2.withTable
        (s.client.ht.put (hashKey (slash :: rest)) modifiedFlag)
  have hdump : Prog.Yields env.exec (Client.dump dir) u _ := dump_local hu hcu.toFlatDir
  obtain ⟨_, z, hrun, heff, -, htext⟩ := hdump
  refine ⟨u, z, hfree, heff, htext, ?_, rfl⟩
  rw [Client.afsWrite_eq hb, Prog.run_bind, hfill]
  change ((Client.dump dir >>= _).run env.exec (St.withTable _ _)).2.disk = z.disk
  rw [htu, Prog.run_bind, hrun]
  by_cases hrc : rc = -1
  · simp only [hrc, if_true]
    rfl
  · simp only [hrc, if_false]
    rfl

/-- Such a write leaves no temporary file. -/
theorem afsWrite_frees_tmp (hf : s.client.proc.faults = []) (hl : CacheDir dir s.disk) (hb : buffer ≠ []) :
    ((Client.afsWrite junk (slash :: rest) dir buffer offset).run env.exec s).2.disk.look
      (getLocalTmpPath (slash :: rest) dir) = none := by
  obtain ⟨u, t, hfree, heff, -, hrun, -⟩ := afsWrite_recorded hf hl hb
  rw [hrun, heff.disk.look _ (List.not_mem_cons_of_ne_of_not_mem
    (getLocalTmpPath_ne_database _ _) List.not_mem_nil)]
  exact hfree

/-- It leaves the text of the new table in the database file. -/
theorem afsWrite_writes_database (hf : s.client.proc.faults = []) (hl : CacheDir dir s.disk) (hb : buffer ≠ []) :
    (((Client.afsWrite junk (slash :: rest) dir buffer offset).run env.exec s).2.disk.look
      (getLocalPath databasePath dir)).map (·.bytes) =
        some (dumpText (s.client.ht.put (hashKey (slash :: rest)) modifiedFlag)) := by
  obtain ⟨u, t, -, -, htext, hrun, hht⟩ := afsWrite_recorded hf hl hb
  rw [hrun, htext, hht]

/-- Dumping leaves files with other names than the one of the database file. -/
theorem dump_has (hd : q ≠ getLocalPath databasePath dir) (h : s.disk.Has q b) :
    ((Client.dump dir).run env.exec s).2.disk.Has q b := by
  have hconf : Confined [] [getLocalPath databasePath dir] ∅ ∅
      (Client.dump dir >>= fun a => .ret a) :=
    dump_confined List.mem_cons_self fun _ _ => Confined.ret _
  rw [Prog.bind_ret] at hconf
  refine (hconf.run_frame s).has List.not_mem_nil ?_ h
  exact List.not_mem_cons_of_ne_of_not_mem hd List.not_mem_nil

end Writes

/-- A truncation of the database file itself. -/
theorem truncate_database (env : Env) (junk : Junk) (fh : Int) {dir : Path} {s : St}
    (hf : s.client.proc.faults = []) (h : s.disk.Has (getLocalPath databasePath dir) []) :
    (Op.prog junk databasePath dir fh (.truncate 5)).Meets env.exec (Cmd.DatabaseFine dir) s ∧
      ((Op.prog junk databasePath dir fh (.truncate 5)).run env.exec s).2.client.ht = s.client.ht ∧
      ((Op.prog junk databasePath dir fh (.truncate 5)).run env.exec s).2.disk.Has
        (getLocalPath databasePath dir) [0, 0, 0, 0, 0] := by
  obtain ⟨i, hi, hb⟩ := h
  have ho : Sys.perform none (.truncate (getLocalPath databasePath dir) 5) s.disk =
      .ok ((0 : Int), s.disk.setBytes i (resize (s.disk.node i).bytes 5)) := by
    simp only [Sys.perform, Fs.truncate, hi]
    rfl
  have hexec : env.exec (.sys (.truncate (getLocalPath databasePath dir) 5)) s =
      ((0 : Int), s.withDisk (s.disk.setBytes i (resize (s.disk.node i).bytes 5))) :=
    Env.exec_sys hf ho
  have hrun : (Op.prog junk databasePath dir fh (.truncate 5)).run env.exec s =
      (some { ret := 0 }, s.withDisk (s.disk.setBytes i (resize (s.disk.node i).bytes 5))) := by
    change (Client.afsTruncate databasePath dir 5 >>= _).run env.exec s = _
    rw [Prog.run_bind]
    unfold Client.afsTruncate
    rw [Prog.run_call_bind, hexec]
    rfl
  refine ⟨?_, by rw [hrun]; rfl, ?_⟩
  · change (Client.afsTruncate databasePath dir 5 >>= _).Meets env.exec (Cmd.DatabaseFine dir) s
    unfold Client.afsTruncate
    rw [Prog.bind_assoc]
    refine Prog.meets_call_bind.mpr ⟨fun _ => ⟨?_, ?_⟩, ?_⟩
    · simp only [Proc.undisturbed, hf]
    · rw [ho]
      rfl
    · rw [hexec]
      exact trivial
  · rw [hrun]
    refine ⟨i, hi, ?_⟩
    change (Function.update s.disk.node i _ i).bytes = _
    rw [Function.update_self]
    change resize (s.disk.node i).bytes 5 = _
    rw [hb]
    rfl

namespace World

variable {ι : Type} [DecidableEq ι] (P : Params ι) (i : ι) (p q : Path)

/-- Every write of `p` leaves the copy of `q` with its bytes. -/
def WritesSpare : Prop :=
  ∀ w, Mounted P w → ∀ b, w.cached P i q = some b → ∀ env junk buffer offset now faults net,
    ((((Client.afsWrite junk p (P.cache_path i) buffer offset).run (Env.exec env)
      (w.state i now faults net)).2.disk.look (getLocalPath q (P.cache_path i))).map (·.bytes)) =
        some b

/-- After every operation on `p` the database file is what dumping the table makes it, in runs where
it was so and the accesses to it succeed. -/
def OperationsSpareTable : Prop :=
  ∀ w₀ es w, Fresh P i w₀ → Run (World.step P) (KeepsDatabase P i) w₀ es w →
    ∀ env junk fh now faults net (op : Op),
      (op.prog junk p (P.cache_path i) fh).Meets (Env.exec env) (Cmd.DatabaseFine (P.cache_path i))
        (w.state i now faults net) →
      ((((op.prog junk p (P.cache_path i) fh).run (Env.exec env)
        (w.state i now faults net)).2.disk.look
          (getLocalPath databasePath (P.cache_path i))).map (·.bytes)) =
        some (dumpText ((op.prog junk p (P.cache_path i) fh).run (Env.exec env)
          (w.state i now faults net)).2.client.ht)

/-- Dumping the table leaves the copy of `p` with its bytes. -/
def DumpSpares : Prop :=
  ∀ w, Mounted P w → ∀ b, w.cached P i p = some b → ∀ env now faults net,
    ((((Client.dump (P.cache_path i)).run (Env.exec env)
      (w.state i now faults net)).2.disk.look (getLocalPath p (P.cache_path i))).map (·.bytes)) =
        some b

variable {P i p q}

/-- A client right after its first start. -/
theorem exists_fresh (P : Params ι) (i : ι) :
    ∃ w, Mounted P w ∧ w.Fresh P i ∧ w.cached P i databasePath = some [] := by
  obtain ⟨w, hs, -⟩ := step_start (w := boot P []) (P := P) i .zero .zero []
  have hnone : (boot P []).cached P i databasePath = none := cached_boot i rootLevel_database
  have hfresh : w.Fresh P i :=
    fresh_of_start (cacheDir_boot [] i).toFlatDir (Option.map_eq_none_iff.mp hnone) hs
  have hev : (Event.start i .zero .zero [] : Event ι).Absolute := trivial
  refine ⟨w, ⟨[], _, Run.single hev hs⟩, hfresh, ?_⟩
  exact Fs.has_iff.mp hfresh.2.has

/-- A client that has just created a file. -/
theorem exists_created (P : Params ι) (i : ι) (hq : RootLevel q) (hdb : q ≠ databasePath) :
    ∃ w, Mounted P w ∧ w.cached P i q = some [] := by
  let c : Call ι := { client := i, path := q, op := .create, now := .zero, junk := .zero }
  have hU := names_singleton hq hdb
  have hfit : ((boot P []).view P q).Fits i .create := by
    rw [view_boot hq (fun e he => absurd he List.not_mem_nil)]
    exact ⟨⟨rfl, rfl⟩, fun k hk => by cases hk⟩
  obtain ⟨r, w, hperf, -, hview, -⟩ := perform_view (c := c) hU
    (sound_boot hU (fun e he => absurd he List.not_mem_nil) fun e he => absurd he List.not_mem_nil)
    rfl ⟨rfl, rfl⟩ hfit
  have hs : (boot P []).step P (.call c) = some w := by
    simp only [step, hperf, Option.map_some]
  obtain ⟨name, hname, -⟩ := hq
  have hev : (Event.call c).Absolute := ⟨name, hname⟩
  refine ⟨w, ⟨[], _, Run.single hev hs⟩, ?_⟩
  have h := congrFun (congrArg View.cached hview) i
  rw [View.cached_next_self] at h
  exact h

/-- A file whose name a write of `p` builds for its temporary file loses its copy. -/
private theorem not_writesSpare_tmp (hp : UserPath p) (hq : RootLevel q) (he : q = p ++ cstr "_tmp") :
    ¬ WritesSpare P i p q := by
  intro hspare
  obtain ⟨w, hw, hcached⟩ := exists_created (q := q) P i hq (he ▸ (database_ne_tmp p).symm)
  have hroot : RootLevel p := by
    rcases hp.cases with hroot | ⟨name, rest, -, rfl⟩
    · exact hroot
    · obtain ⟨n, hn, -, hs, -⟩ := hq
      have hrest := (List.cons.inj (he.symm.trans hn)).2
      exact absurd (hrest ▸ by simp) hs
  have hlocal : getLocalPath q (P.cache_path i) = getLocalTmpPath p (P.cache_path i) := by
    rw [getLocalPath_eq hq, getLocalTmpPath_eq hroot, he]
  have h := hspare w hw [] hcached ⟨P.root_path, .zero⟩ .zero [0] 0 .zero [] []
  obtain ⟨name, rfl, -⟩ := hroot
  rw [hlocal, afsWrite_frees_tmp rfl (hw.cacheDir i) (List.cons_ne_nil _ _)] at h
  cases h

/-- The file with the name of the database file changes with every write. -/
private theorem not_writesSpare_database (hp : UserPath p) : ¬ WritesSpare P i p databasePath := by
  intro hspare
  obtain ⟨w, hw, hfresh, hcached⟩ := exists_fresh P i
  have h := hspare w hw [] hcached ⟨P.root_path, .zero⟩ .zero [0] 0 .zero [] []
  obtain ⟨rest, rfl⟩ := hp.absolute
  rw [afsWrite_writes_database rfl (hw.cacheDir i) (List.cons_ne_nil _ _)] at h
  have hht : (w.state i .zero [] []).client.ht = initHt := hfresh.1
  rw [hht] at h
  exact dumpText_put_ne _ _ _ (Option.some.inj h)

/-- Operations on the database file itself can leave it without the text of the table. -/
private theorem not_operationsSpareTable : ¬ OperationsSpareTable P i databasePath := by
  intro hspare
  obtain ⟨w, hw, hfresh, hcached⟩ := exists_fresh P i
  have hhas : (w.state i .zero [] []).disk.Has (getLocalPath databasePath (P.cache_path i)) [] :=
    hfresh.2.has
  obtain ⟨hmeets, hht, hzeros⟩ := truncate_database ⟨P.root_path, .zero⟩ .zero 0 rfl hhas
  have h := hspare w [] w hfresh Run.nil ⟨P.root_path, .zero⟩ .zero 0 .zero [] [] _ hmeets
  rw [Fs.has_iff.mp hzeros, hht] at h
  have hinit : (w.state i .zero [] []).client.ht = initHt := hfresh.1
  rw [hinit] at h
  exact absurd (Option.some.inj h) (by decide)

/-- The client's own files are apart from the copies of `p` and `q` exactly when neither is the
database file and a root-level `q` is not the temporary file of `p`. -/
theorem own_files_apart_iff (P : Params ι) (i : ι) (hp : UserPath p) (hq : UserPath q)
    (hne : p ≠ q) :
    (WritesSpare P i p q ∧ OperationsSpareTable P i p ∧ DumpSpares P i p) ↔
      p ≠ databasePath ∧ q ≠ databasePath ∧ (RootLevel q → q ≠ p ++ cstr "_tmp") := by
  constructor
  · rintro ⟨hwrites, htable, -⟩
    refine ⟨?_, ?_, fun hroot he => not_writesSpare_tmp hp hroot he hwrites⟩
    · rintro rfl
      exact not_operationsSpareTable htable
    · rintro rfl
      exact not_writesSpare_database hp hwrites
  · rintro ⟨hpd, hqd, htmp⟩
    refine ⟨?_, ?_, ?_⟩
    · intro w hw b hb env junk buffer offset now faults net
      apply Fs.has_iff.mp
      have hroot : RootLevel q := by
        rcases hq.cases with hroot | ⟨name, rest, hname, rfl⟩
        · exact hroot
        · have hnone := (hw.cacheDir i).shallow
            (name ++ slash :: rest.take (MAX_PATH_LENGTH - 1 - name.length - 1)) (by simp)
          rw [cached, getLocalPath_cons, take_of_deep hname (by decide), hnone] at hb
          cases hb
      exact afsWrite_has (getLocalPath_ne_of_userPath hp hroot hne _)
        (getLocalPath_ne_tmp_of_userPath hp hroot (htmp hroot) _) (getLocalPath_ne_database hqd _)
        (Fs.has_iff.mpr hb)
    · intro w₀ es w hfresh hr env junk fh now faults net op hmeets
      have hsaved := hr.invariant (fun w => (w.clients i).Saved (P.cache_path i)) hfresh.saved
        fun w e w' h he hs => step_saved h he hs
      have hafter := Op.keeps_saved hpd junk fh op _ hmeets ⟨hsaved.table, hsaved.database⟩
      exact Fs.has_iff.mp hafter.database.has
    · intro w hw b hb env now faults net
      exact Fs.has_iff.mp (dump_has (getLocalPath_ne_database hpd _) (Fs.has_iff.mpr hb))

/-- The sample file and another one stay apart. -/
theorem own_files_apart_sample :
    WritesSpare sample false sampleFile (cstr "/g") ∧
      OperationsSpareTable sample false sampleFile ∧ DumpSpares sample false sampleFile := by
  have hg : RootLevel (cstr "/g") := ⟨cstr "g", by decide, by decide, by decide, by decide, by decide⟩
  refine (own_files_apart_iff sample false rootLevel_sampleFile.userPath hg.userPath
    (by decide)).mpr ⟨by decide, by decide, fun _ => by decide⟩

/-- A file that is named like the temporary file of the sample file, with bytes written to it. -/
def tmpNamedRun : List (Event (Bool)) :=
  [.call { sampleCall false 1 .openF [] with path := cstr "/f_tmp" },
    .call { sampleCall false 2 (.write 0 [9] 0) [] with path := cstr "/f_tmp" },
    .call (sampleCall false 3 .openF [])]

/-- A write of the sample file takes its copy away, although its bytes were not sent yet. -/
theorem write_takes_tmp_named :
    ∃ w₁ w₂, Run (World.step sample) (fun _ _ => True)
        (boot sample [(sampleFile, [1], sampleTime 0 500), (cstr "/f_tmp", [2], sampleTime 0 500)])
        tmpNamedRun w₁ ∧
      w₁.cached sample false (cstr "/f_tmp") = some [9] ∧
      w₁.recorded false (cstr "/f_tmp") = modifiedFlag ∧
      w₁.step sample (.call (sampleCall false 4 (.write 0 [7] 0) [])) = some w₂ ∧
      w₂.cached sample false (cstr "/f_tmp") = none ∧
      (w₂.served sample (cstr "/f_tmp")).map (·.bytes) = some [2] := by
  have h : ((tmpNamedRun.foldlM (World.step sample)
      (boot sample [(sampleFile, [1], sampleTime 0 500),
        (cstr "/f_tmp", [2], sampleTime 0 500)])).bind fun w₁ =>
          (w₁.step sample (.call (sampleCall false 4 (.write 0 [7] 0) []))).map fun w₂ =>
            (w₁.cached sample false (cstr "/f_tmp"), w₁.recorded false (cstr "/f_tmp"),
              w₂.cached sample false (cstr "/f_tmp"),
              (w₂.served sample (cstr "/f_tmp")).map (·.bytes))) =
      some (some [9], modifiedFlag, none, some [2]) := by
    decide +kernel
  obtain ⟨w₁, hfold, h⟩ := Option.bind_eq_some_iff.mp h
  obtain ⟨w₂, hwrite, h⟩ := Option.map_eq_some_iff.mp h
  obtain ⟨hcached, hflag, hgone, hserved⟩ := by simpa only [Prod.mk.injEq] using h
  exact ⟨w₁, w₂, Run.of_foldlM (by simpa only [if_true] using hfold), hcached, hflag, hwrite, hgone,
    hserved⟩

end World

end Afs
