import Afs.Ops.Depth
import Afs.Ops.Opening
import Afs.Table.Database

/-!
# Starting a client

A start makes the file of the table if it is not there and takes the table from the bytes that it
finds. It dies of a text that the parser cannot take, and otherwise leaves the file and the server
alone. Tables come from the parser and from insertions only, so every key is in one place.
-/

namespace Afs

open Posix Interaction Transition

section Starts

variable {env : Env} {dir : Path} {s : St}

/-- The bytes of the table's file; without a file a start makes an empty one. -/
def St.database (dir : Path) (s : St) : Bytes :=
  ((s.disk.look (getLocalPath databasePath dir)).map (·.bytes)).getD []

/-- What a start does after it has read the file of the table. -/
def Client.takeTable (fptr : Int) : Option HashTable → Prog clientSig Unit
  | none => .halt
  | some ht => do
    Prog.call (σ := clientSig) (.setTable ht)
    let _ ← Client.sys (.close fptr)
    return ()

/-- A start opens the file of the table, or makes it. -/
private theorem open_database (hl : FlatDir dir s.disk) :
    ∃ fd t f, s.disk.openFile (getLocalPath databasePath dir) { creat := true, append := true }
        S_IRWXUG = .ok (fd, t) ∧ t.Holds fd (getLocalPath databasePath dir) 0 true ∧
      s.disk.Only t [getLocalPath databasePath dir] ∧
      t.look (getLocalPath databasePath dir) = some f ∧ f.bytes = s.database dir := by
  unfold St.database
  cases hf : s.disk.look (getLocalPath databasePath dir) with
  | none =>
      obtain ⟨fd, t, ho, -, hh, hs, -⟩ := Fs.openFile_creat hf (hl.isDir_local rootLevel_database)
        (hl.parent_local rootLevel_database) { creat := true, append := true } rfl S_IRWXUG
      refine ⟨fd, t, s.disk.newFile S_IRWXUG, ho, hh, hs.only, ?_, rfl⟩
      rw [hs.look, Function.update_self]
  | some f =>
      obtain ⟨fd, t, ho, -, hh, hs, -⟩ :=
        Fs.openFile_of_look hf { creat := true, append := true } rfl S_IRWXUG
      exact ⟨fd, t, f, ho, hh, hs.only_nil.mono (List.nil_subset _), by rw [hs.look, hf], rfl⟩

/-- A start comes to where it takes the table out of the file's text. -/
theorem main_reads (env : Env) (hf : s.client.proc.faults = []) (hl : FlatDir dir s.disk) :
    ∃ fptr u, (Client.main dir).run env.exec s =
        (Client.takeTable fptr (readFromDatabase (s.database dir) initHt)).run env.exec u ∧
      DiskEffect s u [getLocalPath databasePath dir] ∧ u.server = s.server ∧
      (∃ off, u.disk.Holds fptr (getLocalPath databasePath dir) off false) ∧
      (u.disk.look (getLocalPath databasePath dir)).map (·.bytes) = some (s.database dir) := by
  unfold Client.main Client.loadDatabase
  obtain ⟨fd, t1, f, ho1, hh1, honly, hf1, hfb⟩ := open_database hl
  obtain ⟨t2, hcl, hs2, -⟩ := Fs.close_of_holds hh1
  have hf2 : t2.look (getLocalPath databasePath dir) = some f := by rw [hs2.look, hf1]
  obtain ⟨fptr, t3, ho3, h0, hh3, hs3, -⟩ := Fs.openFile_of_look hf2 {} rfl 0
  have hne : fptr ≠ -1 := by omega
  have hf3 : t3.look (getLocalPath databasePath dir) = some f := by rw [hs3.look, hf2]
  obtain ⟨i, hst⟩ := Fs.fstat_of_holds hh3 hf3
  obtain ⟨t4, hrd, hs4, -, hh4⟩ := Fs.read_of_holds hh3 hf3 f.bytes.length
  have hf4 : t4.look (getLocalPath databasePath dir) = some f := by rw [hs4.look, hf3]
  have hopen : Sys.perform none (.openF (getLocalPath databasePath dir)
      { creat := true, append := true } S_IRWXUG) s.disk = .ok (fd, t1) := ho1
  have hclose : Sys.perform none (.close fd) t1 = .ok ((0 : Int), t2) := hcl
  have hopen' : Sys.perform none (.openF (getLocalPath databasePath dir) {} 0) t2 =
      .ok (fptr, t3) := ho3
  have hstat : Sys.perform none (.fstat fptr) t3 = .ok (some (f.stat i), t3) := by
    simp only [Sys.perform, hst]
    rfl
  have hread : Sys.perform none (.read fptr f.bytes.length) t3 = .ok (some f.bytes, t4) :=
    perform_read_all hrd
  have hsize : (some (f.stat i)).elim 0 (fun st => st.st_size.toNat) = f.bytes.length := by
    rw [Option.elim_some, File.stat_size, Int.toNat_natCast]
  refine ⟨fptr, s.withDisk t4, ?_, ⟨?_, hf⟩, rfl, ⟨_, hh4⟩, ?_⟩
  · rw [Prog.run_call_bind, Env.exec_sys hf hopen, Prog.run_call_bind,
      Env.exec_sys (s := s.withDisk t1) hf hclose]
    simp only
    rw [Prog.run_call_bind, Env.exec_sys (s := (s.withDisk t1).withDisk t2) hf hopen']
    simp only [hne, if_false]
    rw [Prog.run_call_bind,
      Env.exec_sys (s := ((s.withDisk t1).withDisk t2).withDisk t3) hf hstat, Prog.run_call_bind, hsize,
      Env.exec_sys (s := (((s.withDisk t1).withDisk t2).withDisk t3).withDisk t3) hf hread,
      Option.getD_some, hfb]
    rfl
  · exact (((honly.trans hs2.only_nil).trans hs3.only_nil).trans hs4.only_nil).mono (by simp)
  · change (t4.look _).map _ = _
    rw [hf4, Option.map_some, hfb]

/-- What a start that succeeds leaves: the table that the file of the table holds, whose bytes it
leaves, and a server that it did not ask. -/
structure St.Started (dir : Path) (s t : St) : Prop where
  table : readFromDatabase (s.database dir) initHt = some t.client.ht
  effect : DiskEffect s t [getLocalPath databasePath dir]
  database : (t.disk.look (getLocalPath databasePath dir)).map (·.bytes) = some (s.database dir)
  server : t.server = s.server

theorem main_started (env : Env) (hf : s.client.proc.faults = []) (hl : FlatDir dir s.disk)
    (hr : ((Client.main dir).run env.exec s).1.isSome = true) :
    s.Started dir ((Client.main dir).run env.exec s).2 := by
  obtain ⟨fptr, u, hrun, he, hserver, ⟨off, hh⟩, hbytes⟩ := main_reads env hf hl
  rw [hrun] at hr ⊢
  cases hread : readFromDatabase (s.database dir) initHt with
  | none =>
      rw [hread] at hr
      cases hr
  | some ht =>
      obtain ⟨t, hcl, hs, -⟩ := Fs.close_of_holds hh
      have hclose : Sys.perform none (.close fptr) (u.withTable ht).disk = .ok ((0 : Int), t) := hcl
      have hrest : (Client.takeTable fptr (some ht)).run env.exec u =
          (some (), (u.withTable ht).withDisk t) := by
        unfold Client.takeTable
        rw [Prog.run_call_bind]
        change Prog.run env.exec (Client.sys (.close fptr) >>= fun _ => .ret ()) (u.withTable ht) = _
        rw [Prog.run_call_bind, Env.exec_sys (s := u.withTable ht) he.faults hclose]
        rfl
      rw [hrest]
      refine ⟨hread, ⟨?_, he.faults⟩, ?_, hserver⟩
      · exact (he.disk.trans hs.only_nil).mono (by simp)
      · change (t.look _).map _ = _
        rw [hs.look]
        exact hbytes

end Starts

/-! Tables stay regular. -/

/-- The lines of a text are insertions. -/
theorem regular_readFromDatabase {text : Bytes} {ht ht' : HashTable} (h : ht.Regular)
    (hr : readFromDatabase text ht = some ht') : ht'.Regular := by
  unfold readFromDatabase at hr
  generalize getlines text = lines at hr
  induction lines generalizing ht with
  | nil =>
      obtain rfl := Option.some.inj hr
      exact h
  | cons line lines ih =>
      rw [List.foldlM_cons] at hr
      obtain ⟨u, hu, hr⟩ := Option.bind_eq_some_iff.mp hr
      refine ih ?_ hr
      unfold readLine at hu
      split at hu
      · cases hu
      · split at hu
        · obtain rfl := Option.some.inj hu
          exact h.put _ _
        · cases hu

/-- A table that the command sets is regular. -/
def Cmd.SetsRegular : Cmd → Prop
  | .setTable ht => ht.Regular
  | .sys _ | .errno | .rpc _ | .retried _ | .get _ | .put .. | .table => True

theorem exec_regular {env : Env} {c : Cmd} {s : St} (hc : c.SetsRegular) (h : s.client.ht.Regular) :
    (env.exec c s).2.client.ht.Regular := by
  cases c with
  | put key value => exact h.put key value
  | setTable ht => exact hc
  | rpc r =>
      have he : (env.attempt r s).2.client.ht = s.client.ht := (Env.attempt_client env r s).1.table
      exact he ▸ h
  | retried r =>
      have he := (Env.retryLoop_client env r ((6 - s.client.retries).toNat + 1) s).table
      exact he ▸ h
  | sys c | errno | get filename | table => exact h

theorem main_setsRegular {dir : Path} : (Client.main dir).Uses Cmd.SetsRegular := by
  refine Prog.Uses.call trivial fun fd => Prog.Uses.call trivial fun _ =>
    Prog.Uses.call trivial fun fptr => ?_
  split
  · exact Prog.Uses.one regular_initHt
  · refine Prog.Uses.call trivial fun res => Prog.Uses.call trivial fun got => ?_
    split
    · exact trivial
    · next ht hread =>
      exact Prog.Uses.call (regular_readFromDatabase regular_initHt hread) fun _ =>
        Prog.Uses.call trivial fun _ => trivial

theorem Op.prog_setsRegular (junk : Junk) (path dir : Path) (fh : Int) (op : Op) :
    (op.prog junk path dir fh).Uses Cmd.SetsRegular := by
  refine (op.prog_made junk path dir fh).uses ?_ ?_
  · intro c hc
    cases c <;> first | exact hc.elim | trivial
  · rintro b ⟨value, rfl⟩
    refine Prog.Uses.call trivial fun _ => Prog.Uses.call trivial fun fptr => ?_
    split
    · exact trivial
    · exact Prog.Uses.call trivial fun _ => Prog.Uses.call trivial fun _ =>
        Prog.Uses.call trivial fun _ => trivial

namespace World

variable {ι : Type} [DecidableEq ι] {P : Params ι} {w w' : World ι} {i : ι}

theorem step_regular {e : Event ι} (h : (w.clients i).ht.Regular) (hs : w.step P e = some w') :
    (w'.clients i).ht.Regular := by
  rcases client_step hs i with hsame | ⟨c, fh, rfl, -, -, hclient⟩ | ⟨now, junk, faults, rfl, hclient⟩
  · rw [hsame]
    exact h
  · rw [hclient]
    exact (Op.prog_setsRegular _ _ _ _ _).invariant (I := fun s : St => s.client.ht.Regular)
      (fun c s hc h => exec_regular hc h) h
  · rw [hclient]
    exact main_setsRegular.invariant (I := fun s : St => s.client.ht.Regular)
      (fun c s hc h => exec_regular hc h) regular_initHt

/-- In every state that the mounted file systems lead to, the tables are regular. -/
theorem Mounted.regular (h : w.Mounted P) (i : ι) : (w.clients i).ht.Regular := by
  obtain ⟨files, es, hr⟩ := h
  exact hr.invariant (fun w => (w.clients i).ht.Regular) regular_initHt
    fun w e w' hw _ hs => step_regular hw hs

end World

end Afs
