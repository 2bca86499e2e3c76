import Afs.Core.Sealed
import Afs.Ops.Events
import Afs.Ops.Parts
import Afs.Ops.Script
import Afs.Table.Database
import Afs.Failures.Resurface

/-!
# Restarts between operations

Between two operations the database file has exactly the text of the table in memory, as long as the
accesses to that file succeed: every operation that changes the table writes the file anew before it
goes on, and no operation on another file touches it. Hence a client that starts again has the table
of the one before it, whatever else failed.
-/

namespace Afs

open Posix Interaction Transition

/-- An access to the database file succeeds. -/
def Cmd.DatabaseFine (cache_path : Path) (c : Cmd) (s : St) : Prop :=
  match c with
  | .sys c => c.Concerns (getLocalPath databasePath cache_path) s.disk → c.Succeeds s.client.proc
  | _ => True

instance (cache_path : Path) (c : Cmd) (s : St) : Decidable (c.DatabaseFine cache_path s) := by
  cases c <;> simp only [Cmd.DatabaseFine] <;> infer_instance

/-- The database file is the text of the table. -/
structure ClientProc.Saved (cache_path : Path) (c : ClientProc) : Prop where
  /-- Keys are kept once and in their chains. -/
  table : c.ht.Regular
  /-- The text is there and nobody has the file open. -/
  database : c.proc.fs.Sealed (getLocalPath databasePath cache_path) (dumpText c.ht)

theorem ClientProc.Saved.of_waits {cache_path : Path} {c d : ClientProc} (h : c.Saved cache_path)
    (hw : c.Waits d) : d.Saved cache_path :=
  ⟨hw.table ▸ h.table, by rw [hw.fs, hw.table]; exact h.database⟩

section Programs

variable {env : Env} {cache_path path : Path} {s : St} {b : Bytes}

/-- A program goes on after a successful access to the database file. -/
private theorem database_step {α : Type} {c : Sys} {f : c.Res → Prog clientSig α} {r : c.Res}
    {t : Fs} (hm : (Client.sys c >>= f).Meets env.exec (Cmd.DatabaseFine cache_path) s)
    (hc : c.Concerns (getLocalPath databasePath cache_path) s.disk)
    (hp : c.perform none s.disk = .ok (r, t)) :
    ∃ u, (Client.sys c >>= f).run env.exec s = (f r).run env.exec u ∧
      (f r).Meets env.exec (Cmd.DatabaseFine cache_path) u ∧ u.disk = t ∧
      u.client.ht = s.client.ht := by
  obtain ⟨hfine, hrest⟩ := Prog.meets_call_bind.mp hm
  obtain ⟨hr, ht⟩ := Sys.exec_of_undisturbed (hfine hc).1 hp
  have hexec : (env.exec (.sys c) s).1 = r := hr
  rw [hexec] at hrest
  exact ⟨_, by rw [Prog.run_call_bind, hexec], hrest, ht, rfl⟩

/-- Dumping leaves the text of the table in the database file. -/
theorem dump_saves (hm : (Client.dump cache_path).Meets env.exec (Cmd.DatabaseFine cache_path) s)
    (h : s.disk.Sealed (getLocalPath databasePath cache_path) b) :
    ((Client.dump cache_path).run env.exec s).2.client.ht = s.client.ht ∧
      ((Client.dump cache_path).run env.exec s).2.disk.Sealed (getLocalPath databasePath cache_path)
        (dumpText s.client.ht) := by
  unfold Client.dump at *
  obtain ⟨fd, t1, ho, hfd, h1⟩ := h.openFile { creat := true, trunc := true } 0o666
  obtain ⟨u1, hrun1, hm1, rfl, ht1⟩ := database_step hm rfl ho
  rw [hrun1, if_neg hfd]
  rw [if_neg hfd] at hm1
  have htable : env.exec .table u1 = (u1.client.ht, u1) := rfl
  replace hm1 := (Prog.meets_call_bind.mp hm1).2
  rw [htable] at hm1
  rw [Prog.run_call_bind, htable]
  obtain ⟨t2, n, hw, h2⟩ := Fs.Held.write h1 (dumpText u1.client.ht)
  obtain ⟨u2, hrun2, hm2, rfl, ht2⟩ := database_step hm1 h1.isOpenOn
    (perform_write rfl List.prefix_rfl hw)
  obtain ⟨t3, hcl, h3⟩ := h2.close
  obtain ⟨u3, hrun3, -, rfl, ht3⟩ := database_step hm2 h2.isOpenOn hcl
  rw [hrun2, hrun3]
  have hht : u3.client.ht = s.client.ht := ht3.trans (ht2.trans ht1)
  exact ⟨hht, by rw [← ht1]; exact h3⟩

/-- Recording a value keeps the database file up to date. -/
theorem record_keeps (path : Path) (value : Int64) :
    (Client.record path cache_path value).Keeps env.exec (Cmd.DatabaseFine cache_path)
      fun s => s.client.Saved cache_path := by
  intro s hm h
  unfold Client.record at *
  rw [Prog.run_call_bind]
  obtain ⟨hht, hdb⟩ := dump_saves (Prog.meets_call_bind.mp hm).2 (b := dumpText s.client.ht)
    h.database
  refine ⟨?_, ?_⟩
  · rw [hht]
    exact h.table.put _ _
  · rw [hht]
    exact hdb

/-- A command outside of the recording block keeps the database file up to date. -/
private theorem plain_saved {R : Request → Prop} {c : Cmd} (hne : path ≠ databasePath)
    (hc : c.Plain R (getLocalPath path cache_path) (getLocalTmpPath path cache_path))
    (h : s.client.Saved cache_path) : (env.exec c s).2.client.Saved cache_path := by
  have hl := getLocalPath_ne_database hne cache_path
  have ht := getLocalTmpPath_ne_database path cache_path
  cases c with
  | sys c =>
      refine ⟨h.table, Sys.exec_sealed ?_ h.database⟩
      cases c with
      | openF p fl mode => rcases hc with rfl | rfl <;> assumption
      | truncate p n | unlink p | remove p => exact hc ▸ hl
      | rename p p' => exact ⟨hc.1 ▸ ht, hc.2 ▸ hl⟩
      | _ => trivial
  | rpc r => exact h.of_waits (Env.attempt_client env r s).1
  | retried r => exact h.of_waits (Env.retryLoop_client env r _ s)
  | errno | get filename => exact h
  | put key value | table | setTable ht => exact hc.elim

/-- An operation on another path keeps the database file up to date, whatever else fails. -/
theorem Op.keeps_saved {env : Env} {cache_path path : Path} (hne : path ≠ databasePath)
    (junk : Junk) (fh : Int) (op : Op) :
    (op.prog junk path cache_path fh).Keeps env.exec (Cmd.DatabaseFine cache_path)
      fun s => s.client.Saved cache_path := by
  refine (op.prog_made junk path cache_path fh).keeps ?_ ?_
  · intro c s hc _ h
    exact plain_saved hne hc h
  · rintro b ⟨value, rfl⟩
    exact record_keeps path value

/-- Loading the text of a table gives this table. -/
private theorem loadDatabase_loads {ht : HashTable} (hf : s.client.proc.faults = [])
    (hreg : ht.Regular) (h2 : s.disk.Sealed (getLocalPath databasePath cache_path) (dumpText ht)) :
    Prog.Yields env.exec (Client.loadDatabase cache_path) s fun _ t => t.client.ht = ht ∧
      t.disk.Sealed (getLocalPath databasePath cache_path) (dumpText ht) := by
  unfold Client.loadDatabase
  obtain ⟨fptr, t3, ho3, hfptr, h3⟩ := h2.openFile {} 0
  refine Env.yields_sys hf ho3 ?_
  rw [if_neg hfptr]
  replace h3 : t3.Held (getLocalPath databasePath cache_path) fptr 0 false (dumpText ht) := h3
  obtain ⟨st, hst, hsize⟩ := h3.fstat
  have hst' : Sys.perform none (.fstat fptr) t3 = .ok (some st, t3) := by
    simp only [Sys.perform, hst]
    rfl
  refine Env.yields_sys (s := s.withDisk t3) hf hst' ?_
  obtain ⟨t4, n, hrd, h4⟩ := h3.read
  have hrd' : Sys.perform none (.read fptr (dumpText ht).length) t3 =
      .ok (some (dumpText ht), t4) := by
    simp only [Sys.perform, Option.elim_none, hrd]
    rfl
  rw [Option.elim_some, hsize, Int.toNat_natCast]
  refine Env.yields_sys (s := s.withDisk t3) hf hrd' ?_
  simp only [Option.getD_some, readFromDatabase_dumpText hreg]
  refine Prog.Yields.call (r := ()) (t := (s.withDisk t4).withTable ht) rfl ?_
  obtain ⟨t5, hcl5, h5⟩ := h4.close
  exact Env.yields_sys (s := (s.withDisk t4).withTable ht) hf hcl5 (Prog.Yields.ret ⟨rfl, h5⟩)

variable (env)

/-- A start on the text of a table loads this table. -/
theorem main_loads {ht : HashTable} (hf : s.client.proc.faults = []) (hreg : ht.Regular)
    (h : s.disk.Sealed (getLocalPath databasePath cache_path) (dumpText ht)) :
    Prog.Yields env.exec (Client.main cache_path) s fun _ t => t.client.ht = ht ∧
      t.disk.Sealed (getLocalPath databasePath cache_path) (dumpText ht) := by
  unfold Client.main
  obtain ⟨fd, t1, ho, -, h1⟩ := h.openFile { creat := true, append := true } S_IRWXUG
  refine Env.yields_sys hf ho ?_
  obtain ⟨t2, hcl, h2⟩ := h1.close
  refine Env.yields_sys (s := s.withDisk t1) hf hcl ?_
  exact loadDatabase_loads (s := (s.withDisk t1).withDisk t2) hf hreg h2

/-- A start without a database file makes an empty one. -/
theorem main_makes (hf : s.client.proc.faults = []) (hl : FlatDir cache_path s.disk)
    (hfds : s.disk.fds = []) (hn : s.disk.look (getLocalPath databasePath cache_path) = none) :
    Prog.Yields env.exec (Client.main cache_path) s fun _ t => t.client.ht = initHt ∧
      t.disk.Sealed (getLocalPath databasePath cache_path) [] := by
  unfold Client.main
  obtain ⟨fd, t1, ho, h1⟩ := Fs.openFile_new hn (hl.isDir_local rootLevel_database)
    (hl.parent_local rootLevel_database) hfds
    (show Flags.creat { creat := true, append := true } = true from rfl) S_IRWXUG
  refine Env.yields_sys hf ho ?_
  obtain ⟨t2, hcl, h2⟩ := h1.close
  refine Env.yields_sys (s := s.withDisk t1) hf hcl ?_
  exact loadDatabase_loads (s := (s.withDisk t1).withDisk t2) hf regular_initHt h2

end Programs

namespace World

variable {ι : Type} [DecidableEq ι] {P : Params ι} {w w₀ w' : World ι} {i : ι}

/-- What is assumed of an event for client `i`: its operations are on other paths than the one of
the database file, and its accesses to that file succeed. -/
def KeepsDatabase (P : Params ι) (i : ι) (w : World ι) : Event ι → Prop
  | .call c => c.client = i → c.path ≠ databasePath ∧ ∀ fh ∈ w.handle c,
      (c.op.prog c.junk c.path (P.cache_path i) fh).Meets (Env.exec ⟨P.root_path, c.junk⟩)
        (Cmd.DatabaseFine (P.cache_path i)) (w.state i c.now c.faults c.net)
  | .start j _ _ faults => j = i → faults = []
  | .late .. => True

instance (i : ι) (e : Event ι) : Decidable (w.KeepsDatabase P i e) := by
  cases e <;> simp only [KeepsDatabase] <;> infer_instance

/-- A client that has just been started for the first time: its table is empty, and so is the
database file. -/
def Fresh (P : Params ι) (i : ι) (w : World ι) : Prop :=
  (w.clients i).ht = initHt ∧ (w.disk i).Sealed (getLocalPath databasePath (P.cache_path i)) []

omit [DecidableEq ι] in
theorem Fresh.saved (h : w.Fresh P i) : (w.clients i).Saved (P.cache_path i) := by
  obtain ⟨hht, hdb⟩ := h
  refine ⟨hht ▸ regular_initHt, ?_⟩
  rw [hht]
  exact hdb

/-- A start of a client whose database file is up to date. -/
theorem start_saved (h : (w.clients i).Saved (P.cache_path i)) (now : Timespec) (junk : Junk) :
    ∃ w', w.step P (.start i now junk []) = some w' ∧ w'.up i = true ∧
      (w'.clients i).ht = (w.clients i).ht ∧ (w'.clients i).Saved (P.cache_path i) := by
  obtain ⟨w', hs, hclient, -, hup, -⟩ := step_start (w := w) (P := P) i now junk []
  have hfresh : (w.started i now []).disk.Sealed (getLocalPath databasePath (P.cache_path i))
      (dumpText (w.clients i).ht) := by
    refine ⟨h.database.has, fun fd o ho => ?_⟩
    cases fd <;> cases ho
  obtain ⟨_, t, hrun, hht, hdb⟩ := main_loads ⟨P.root_path, junk⟩ (s := w.started i now [])
    rfl h.table hfresh
  rw [hrun] at hclient hup
  refine ⟨w', hs, hup, by rw [hclient, hht], ?_, ?_⟩
  · rw [hclient, hht]
    exact h.table
  · rw [hclient, hht]
    exact hdb

/-- An event keeps the database file of a client up to date. -/
theorem step_saved {e : Event ι} (h : (w.clients i).Saved (P.cache_path i))
    (he : w.KeepsDatabase P i e) (hs : w.step P e = some w') :
    (w'.clients i).Saved (P.cache_path i) := by
  rcases client_step hs i with hsame | ⟨c, fh, rfl, hi, hfh, hclient⟩ | ⟨now, junk, faults, rfl, -⟩
  · rw [hsame]
    exact h
  · obtain ⟨hne, hmeets⟩ := he hi
    rw [hclient]
    exact Op.keeps_saved hne c.junk fh c.op _ (hmeets fh hfh) ⟨h.table, h.database⟩
  · obtain rfl := he rfl
    obtain ⟨v, hv, -, -, hsaved⟩ := start_saved h now junk
    obtain rfl := Option.some.inj (hv.symm.trans hs)
    exact hsaved

/-- The first start of a client, on a cache directory without a database file. -/
theorem fresh_of_start (hl : FlatDir (P.cache_path i) (w.disk i))
    (hn : (w.disk i).look (getLocalPath databasePath (P.cache_path i)) = none) {now : Timespec}
    {junk : Junk} (hs : w.step P (.start i now junk []) = some w') : w'.Fresh P i := by
  obtain ⟨v, hv, hclient, -⟩ := step_start (w := w) (P := P) i now junk []
  obtain rfl := Option.some.inj (hv.symm.trans hs)
  obtain ⟨_, t, hrun, hht, hdb⟩ := main_makes ⟨P.root_path, junk⟩
    (s := w.started i now []) rfl ⟨hl.root, hl.flat⟩ rfl hn
  rw [hrun] at hclient
  refine ⟨by rw [hclient, hht], ?_⟩
  rw [disk, hclient]
  exact hdb

/-- Between any two operations the database file reads back as the table in memory, and a client
that starts then has this table: every file has the same entry. -/
theorem restart_is_transparent {es : List (Event ι)} (h0 : w₀.Fresh P i)
    (hr : Run (World.step P) (KeepsDatabase P i) w₀ es w) :
    (∃ f, (w.disk i).look (getLocalPath databasePath (P.cache_path i)) = some f ∧
      readFromDatabase f.bytes initHt = some (w.clients i).ht) ∧
    ∀ now junk, ∃ w', w.step P (.start i now junk []) = some w' ∧ w'.up i = true ∧
      ∀ f, w'.recorded i f = w.recorded i f := by
  have hsaved := hr.invariant (fun w => (w.clients i).Saved (P.cache_path i)) h0.saved
    fun w e w' h he hs => step_saved h he hs
  constructor
  · obtain ⟨f, hf, hb⟩ := hsaved.database.has.look
    exact ⟨f, hf, by rw [hb, readFromDatabase_dumpText hsaved.table]⟩
  · intro now junk
    obtain ⟨w', hs, hup, hht, -⟩ := start_saved hsaved now junk
    exact ⟨w', hs, hup, fun f => congrArg (fun ht => HashTable.get ht f) hht⟩

/-- A client whose write fails for lack of space, whose release gives up after six attempts, and
whose next open meets a server that refuses the file. -/
def troubledRun : List (Event (Bool)) :=
  [.call (sampleCall false 1 .openF [.lost 110, .replyLost { junk := .zero } 110]),
    .call { sampleCall false 2 (.write 0 [7] 0) [] with
      faults := [.ok, .ok, .ok, .short 0, .short 0, .ok, .fail 28] },
    .call (sampleCall false 3 (.release 0) (List.replicate 6 (.lost 110))),
    .call (sampleCall false 4 .openF
      [.done { junk := .zero }, .done { faults := [.fail 13], junk := .zero }])]

/-- After such a run, which leaves an entry for the file, the next start finds this entry. -/
theorem restart_is_transparent_troubled :
    ∃ w₀ w w', Run (World.step sample) (KeepsDatabase sample false) w₀ troubledRun w ∧
      w.recorded false sampleFile = 0 ∧
      w.step sample (.start false (sampleTime 5 0) .zero []) = some w' ∧
      w'.recorded false sampleFile = 0 := by
  have h : ((sampleBoot.step sample (.start false (sampleTime 0 0) .zero [])).bind fun w₀ =>
      (troubledRun.foldlM (fun (w : World (Bool)) e =>
        if w.KeepsDatabase sample false e then w.step sample e else none) w₀).map
          fun w => w.recorded false sampleFile) = some 0 := by
    decide +kernel
  obtain ⟨w₀, hstart, h⟩ := Option.bind_eq_some_iff.mp h
  obtain ⟨w, hfold, hrec⟩ := Option.map_eq_some_iff.mp h
  have hfresh : w₀.Fresh sample false :=
    fresh_of_start (start_sampleBoot.sound.cache false) rfl hstart
  have hr := Run.of_foldlM hfold
  obtain ⟨-, hrestart⟩ := restart_is_transparent hfresh hr
  obtain ⟨w', hs, -, hsame⟩ := hrestart (sampleTime 5 0) .zero
  exact ⟨w₀, w, w', hr, hrec, hs, (hsame sampleFile).trans hrec⟩

end World

end Afs
