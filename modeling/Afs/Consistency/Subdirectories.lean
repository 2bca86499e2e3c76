import Afs.Failures.Opens

/-!
# Files in subdirectories

The server has directories of any depth, the cache directory has none: no operation makes one. While
nothing fails, an open or a create of a file directly under the mount point works, and none of a file
further down does.
-/

namespace Afs

open Posix Interaction Transition

section Programs

variable {env : Env} {junk : Junk} {p dir name rest : Path} {s : St} {g : File}

/-- Asking for the attributes while nothing fails. -/
theorem St.asked_calm (hc : Calm s)
    (hg : s.server.fs.look (getServerPath p env.root_path) = some g) :
    ∃ a, s.asked env p = (some a, s.reset) ∧ a.err = 0 ∧
      a.mtime = Int32.ofNat g.mtim.tv_nsec := by
  obtain ⟨m, t, ⟨rfl, -, herr, htime⟩, he⟩ := Env.exec_retried hc
    (Server.afsGetattr_yields env.root_path hc.server hg)
    (r := .getattr p) (fun m t hm => ⟨hm.2.1, hm.1 ▸ hc.server⟩)
  exact ⟨m.reply, he, herr, htime⟩

/-- The time that an open sees while nothing fails. -/
theorem St.newer_iff_calm (hc : Calm s)
    (hg : s.server.fs.look (getServerPath p env.root_path) = some g) :
    s.Newer env junk p ↔ (s.client.ht.get p).toInt < g.mtim.tv_nsec := by
  obtain ⟨a, ha, herr, htime⟩ := St.asked_calm hc hg
  have hseen : (Client.seen junk (s.asked env p).1).st_mtime = g.mtim.tv_nsec := by
    rw [ha]
    simp only [Client.seen, herr, ne_eq, not_true_eq_false, if_false]
    simp only [Client.statOfReply, Stat.st_mtime, Timespec.ofSec, htime, toInt_mtime]
  unfold St.Newer
  rw [hseen]

/-- The reply that an open fetches while nothing fails. -/
theorem St.fetchedReply_calm (hc : Calm s)
    (hg : s.server.fs.look (getServerPath p env.root_path) = some g) :
    (s.fetchedReply env p dir).1 = some {
      error := 0
      buf := g.bytes
      size := Int32.ofInt g.bytes.length
      time := Int64.ofNat g.mtim.tv_nsec } := by
  have hfrom : Calm (s.fetchFrom env p dir) ∧
      (s.fetchFrom env p dir).server.fs.look (getServerPath p env.root_path) = some g := by
    unfold St.fetchFrom
    split
    · obtain ⟨a, ha, -⟩ := St.asked_calm hc hg
      rw [ha]
      exact ⟨hc.reset, hg⟩
    · exact ⟨hc.withErrno _, hg⟩
  obtain ⟨m, t, ⟨-, -, rfl⟩, he⟩ := Env.exec_retried hfrom.1
    (Server.afsFetch_yields env.junk env.root_path hfrom.1.server hfrom.2)
    (r := .fetch p) (fun m t hm => ⟨by rw [hm.2.2], hm.1⟩)
  exact congrArg Prod.fst he

/-- With a file at the server and while nothing fails, an open succeeds with the server's bytes when
it fetches and the copy is not the database file, or when it keeps a copy that has them already. -/
theorem St.opened_current_iff {t : St} {r : Int} (hc : Calm s)
    (hg : s.server.fs.look (getServerPath p env.root_path) = some g)
    (hlen : g.bytes.length < 2 ^ 31) (ho : s.Opened env junk p dir t r) :
    (r = 0 ∧ t.copy p dir = some g.bytes) ↔
      if s.Fetches env junk p dir then p ≠ databasePath
      else s.copy p dir = some g.bytes := by
  split
  · next h =>
    obtain ⟨hr, ht, hcopy⟩ := ho.answered h _ (St.fetchedReply_calm hc hg)
    rw [hcopy, ht, Option.some_inj, and_iff_right hr]
    exact (FetchReply.copied_eq_iff rfl).trans (FetchReply.fits_iff_of_short rfl hlen)
  · next h =>
    obtain ⟨hr, -, hlook⟩ := ho.kept h
    have hcopy : t.copy p dir = s.copy p dir := by rw [St.copy, hlook, St.copy]
    rw [hcopy]
    constructor
    · exact fun hb => hb.2
    · intro hb
      refine ⟨?_, hb⟩
      have hhas : s.HasCopy p dir := by
        intro hn
        rw [St.copy, hn] at hb
        cases hb
      rwa [if_pos hhas] at hr

/-- The copy of a file further down would be further down in the cache directory. -/
theorem getLocalPath_nested (hname : EntryName name) (rest dir : Path) :
    ∃ q, getLocalPath (slash :: (name ++ slash :: rest)) dir = base dir ++ slash :: q ∧
      slash ∈ q := by
  refine ⟨_, getLocalPath_cons _ dir, ?_⟩
  obtain ⟨-, -, hlen⟩ := hname
  have hpos : MAX_PATH_LENGTH - 1 - name.length = (MAX_PATH_LENGTH - 2 - name.length) + 1 := by
    simp only [MAX_PATH_LENGTH, NAME_MAX] at *
    omega
  rw [List.take_append, hpos, List.take_succ_cons]
  exact List.mem_append_right _ List.mem_cons_self

/-- There is no copy of a file further down. -/
theorem CacheDir.nested (h : CacheDir dir s.disk) (hname : EntryName name) (rest : Path) :
    s.disk.look (getLocalPath (slash :: (name ++ slash :: rest)) dir) = none ∧
      s.disk.isDir (getLocalPath (slash :: (name ++ slash :: rest)) dir) = false ∧
      s.disk.isDir (parent (getLocalPath (slash :: (name ++ slash :: rest)) dir)) = false := by
  obtain ⟨q, hq, hmem⟩ := getLocalPath_nested hname rest dir
  rw [hq]
  exact ⟨h.shallow q hmem, h.flat q, h.parent_missing hmem⟩

/-- An open of a file further down fails, whatever the network does. -/
theorem afsOpen_nested {fh : Int} (hf : s.client.proc.faults = []) (h : CacheDir dir s.disk)
    (hname : EntryName name) :
    Prog.Yields env.exec (Client.afsOpen junk (slash :: (name ++ slash :: rest)) dir fh) s
      fun r _ => r.1 = -EBADF := by
  obtain ⟨hlook, -, hpar⟩ := h.nested hname rest
  refine (afsOpen_stuck hf (not_not.mpr hlook) ?_).mono fun r t hr => hr.1
  rintro ⟨-, hp⟩
  rw [hpar] at hp
  cases hp

/-- A create of a file further down fails before it asks the server. -/
theorem afsCreate_nested {fh : Int} (hf : s.client.proc.faults = []) (h : CacheDir dir s.disk)
    (hname : EntryName name) :
    Prog.Yields env.exec (Client.afsCreate (slash :: (name ++ slash :: rest)) dir fh) s
      fun r _ => r.1 < 0 := by
  obtain ⟨hlook, hdir, hpar⟩ := h.nested hname rest
  unfold Client.afsCreate
  generalize getLocalPath (slash :: (name ++ slash :: rest)) dir = l at *
  have hopen : Sys.perform none (.openF l { creat := true, append := true } S_IRWXUG) s.disk =
      .error (s.disk.absent l) := by
    simp only [Sys.perform, Fs.openFile, Fs.tree_eq_none hlook hdir, hpar, if_true,
      Bool.false_eq_true, if_false]
  refine Env.yields_sys_error hf hopen ?_
  simp only [Sys.failed, if_true]
  exact Prog.Yields.call (r := s.disk.absent l) (t := s.withErrno (s.disk.absent l)) rfl
    (Prog.Yields.ret (Int.neg_neg_of_pos (s.disk.absent_pos l)))

/-- No faults stay behind at the server. -/
theorem Env.exec_server_faults (env : Env) (c : Cmd) (h : s.server.faults = []) :
    (env.exec c s).2.server.faults = [] := by
  have hattempt : ∀ (r : Request) (t : St), t.server.faults = [] →
      (env.attempt r t).2.server.faults = [] := by
    intro r t ht
    unfold Env.attempt
    split
    · rfl
    · rfl
    · rfl
    · exact ht
    · exact ht
  have hloop : ∀ (r : Request) (n : Nat) (t : St), t.server.faults = [] →
      (env.retryLoop r n t).2.server.faults = [] := by
    intro r n
    induction n with
    | zero => exact fun t ht => ht
    | succ n ih =>
        intro t ht
        have hone := hattempt r t ht
        simp only [Env.retryLoop]
        split
        · next heq => rwa [heq] at hone
        · next u heq =>
          rw [heq] at hone
          split
          · exact ih { u with client := (u.client.retryReq false).2 } hone
          · exact hone
  cases c with
  | rpc r => exact hattempt r s h
  | retried r => exact hloop r _ s h
  | sys c | errno | get filename | put key value | table | setTable ht => exact h

end Programs

/-- A directory with nothing in it. -/
structure EmptyDir (dir : Path) (s : Fs) : Prop where
  /-- The directory exists. -/
  root : s.isDir (base dir) = true
  /-- Every name under it is free. -/
  free : ∀ name, s.tree (base dir ++ slash :: name) = none

theorem EmptyDir.cacheDir {dir : Path} {s : Fs} (h : EmptyDir dir s) : CacheDir dir s where
  root := h.root
  flat name := by simp only [Fs.isDir, h.free name]
  shallow name _ := by simp only [Fs.look, h.free name]

namespace World

variable {ι : Type} [DecidableEq ι] {P : Params ι} {w w' : World ι} {i : ι} {p : Path}

/-- The states in which every cache directory contains only what the operations of its own client put
there. The server may have held anything at first, and anything may have failed. -/
def OwnCaches (P : Params ι) (w : World ι) : Prop :=
  ∃ v es, v.server.faults = [] ∧ (∀ i, EmptyDir (P.cache_path i) (v.disk i)) ∧
    Run (World.step P) (fun _ e => e.Absolute) v es w

theorem OwnCaches.cacheDir (h : w.OwnCaches P) (i : ι) :
    CacheDir (P.cache_path i) (w.disk i) := by
  obtain ⟨v, es, -, hempty, hr⟩ := h
  exact hr.invariant (fun w => CacheDir (P.cache_path i) (w.disk i)) (hempty i).cacheDir
    fun w e w' hw he hs => step_cacheDir hw he hs

/-- An event leaves no faults behind at the server. -/
theorem step_server_faults {e : Event ι} (h : w.server.faults = [])
    (hs : w.step P e = some w') : w'.server.faults = [] := by
  have hrun : ∀ {α : Type} (p : Prog clientSig α) (env : Env) (s : St), s.server.faults = [] →
      (p.run env.exec s).2.server.faults = [] := fun p env s h =>
    (Prog.Uses.any p).invariant (I := fun s : St => s.server.faults = [])
      (fun c s _ h => env.exec_server_faults c h) h
  cases e with
  | call c =>
      obtain ⟨x, hperf, rfl⟩ := Option.map_eq_some_iff.mp hs
      obtain ⟨-, fh, -, rfl⟩ := perform_eq_some.mp hperf
      rw [server_finish]
      exact hrun _ _ _ h
  | start j now junk faults =>
      obtain ⟨v, hv, -, -, -, hserver⟩ := step_start (w := w) (P := P) j now junk faults
      obtain rfl := Option.some.inj (hv.symm.trans hs)
      rw [hserver]
      exact hrun _ _ _ h
  | late k now x =>
      simp only [step] at hs
      split at hs
      · cases hs
      · obtain rfl := Option.some.inj hs
        rfl

theorem OwnCaches.server_faults (h : w.OwnCaches P) : w.server.faults = [] := by
  obtain ⟨v, es, hf, -, hr⟩ := h
  exact hr.invariant (fun w : World ι => w.server.faults = []) hf
    fun w e w' hw _ hs => step_server_faults hw hs

theorem OwnCaches.calm (h : w.OwnCaches P) (i : ι) (now : Timespec) :
    Calm (w.state i now [] []) := ⟨rfl, h.server_faults, rfl⟩

/-- An operation of a client on a path, during which nothing fails. -/
def undisturbed (i : ι) (p : Path) (now : Timespec) (junk : Junk) (op : Op) : Call ι :=
  { client := i, path := p, op, now, junk }

/-- While nothing fails, a file that the server has can be opened and then has the server's bytes in
the cache, and one that it does not have can be created. -/
structure Usable (P : Params ι) (w : World ι) (i : ι) (p : Path) (now : Timespec) (junk : Junk) :
    Prop where
  opens : ∀ g, w.served P p = some g → ∃ r w',
    w.perform P (undisturbed i p now junk .openF) = some (some r, w') ∧ r.ret = 0 ∧
      w'.cached P i p = some g.bytes
  creates : w.server.fs.tree (getServerPath p P.root_path) = none → ∃ r w',
    w.perform P (undisturbed i p now junk .create) = some (some r, w') ∧ r.ret = 0 ∧
      w'.served P p ≠ none

/-- An open finds the server's bytes in the copy or puts them there: where it fetches, the copy is not
the database file, and otherwise it has them already. -/
def OpensCurrent (P : Params ι) (w : World ι) (i : ι) (p : Path) (g : File) : Prop :=
  if w.cached P i p = none ∨ (w.recorded i p).toInt < g.mtim.tv_nsec then p ≠ databasePath
  else w.cached P i p = some g.bytes

instance (g : File) : Decidable (w.OpensCurrent P i p g) := by
  unfold OpensCurrent
  infer_instance

section Undisturbed

variable {now : Timespec} {junk : Junk} {env : Env} {s t : St} {r : Int × Int}

private theorem openF_run {dir : Path} {fh : Int}
    (h : (Client.afsOpen junk p dir fh).run env.exec s = (some r, t)) :
    (Op.openF.prog junk p dir fh).run env.exec s = (some { ret := r.1, fh := r.2 }, t) := by
  rw [Op.prog, Prog.run_bind, h]
  rfl

theorem create_run {dir : Path} {fh : Int}
    (h : (Client.afsCreate p dir fh).run env.exec s = (some r, t)) :
    (Op.create.prog junk p dir fh).run env.exec s = (some { ret := r.1, fh := r.2 }, t) := by
  rw [Op.prog, Prog.run_bind, h]
  rfl

/-- What an undisturbed operation that needs no session returns and leaves. -/
theorem perform_undisturbed {op : Op} {a : Result} (hup : w.up i = true)
    (hop : op.session = none)
    (hrun : (op.prog junk p (P.cache_path i) 0).run (Env.exec ⟨P.root_path, junk⟩)
      (w.state i now [] []) = (some a, t)) :
    w.perform P (undisturbed i p now junk op) =
      some (some a, w.finish P i p (fun r b l => op.sessions b r l) (some a, t)) := by
  refine perform_eq_some.mpr ⟨hup, 0, ?_, ?_⟩
  · simp only [handle, undisturbed, hop]
  · simp only [undisturbed, hrun]

/-- Whether an open of a file directly under the mount point finds or fetches the server's bytes. -/
theorem OwnCaches.opens_iff {g : File} (h : w.OwnCaches P) (hup : w.up i = true)
    (hp : RootLevel p) (hg : w.served P p = some g) (hlen : g.bytes.length < 2 ^ 31) :
    (∃ r w', w.perform P (undisturbed i p now junk .openF) = some (some r, w') ∧ r.ret = 0 ∧
        w'.cached P i p = some g.bytes) ↔ w.OpensCurrent P i p g := by
  have hcache := h.cacheDir i
  have hflat : FlatDir (P.cache_path i) (w.state i now [] []).disk := hcache.toFlatDir
  have hyields : Prog.Yields (Env.exec ⟨P.root_path, junk⟩)
      (Client.afsOpen junk p (P.cache_path i) 0) (w.state i now [] []) fun r t =>
        (w.state i now [] []).Opened ⟨P.root_path, junk⟩ junk p (P.cache_path i) t r.1 :=
    afsOpen_opened rfl hflat
  obtain ⟨r, t, hrun, ho⟩ := hyields
  rw [perform_undisturbed hup rfl (openF_run hrun)]
  have hfetch : (w.state i now [] []).Fetches ⟨P.root_path, junk⟩ junk p (P.cache_path i) ↔
      (w.cached P i p = none ∨ (w.recorded i p).toInt < g.mtim.tv_nsec) := by
    have hnewer : (w.state i now [] []).Newer ⟨P.root_path, junk⟩ junk p ↔
        (w.recorded i p).toInt < g.mtim.tv_nsec := St.newer_iff_calm (h.calm i now) hg
    have hcopy : (w.state i now [] []).HasCopy p (P.cache_path i) ↔ w.cached P i p ≠ none :=
      not_congr Option.map_eq_none_iff.symm
    unfold St.Fetches
    split
    · next hc =>
      rw [hnewer, or_iff_right (hcopy.mp hc)]
    · next hc =>
      rw [hcopy, not_not] at hc
      exact iff_of_true ⟨hflat.isDir_local hp, hflat.parent_local hp⟩ (Or.inl hc)
  have hserved : (w.state i now [] []).server.fs.look
      (getServerPath p (Env.mk P.root_path junk).root_path) = some g := hg
  have hiff := St.opened_current_iff (h.calm i now) hserved hlen ho
  simp only [hfetch] at hiff
  refine Iff.trans ?_ hiff
  constructor
  · rintro ⟨r', w', he, hret, hcached⟩
    obtain ⟨hr', rfl⟩ := Prod.mk.inj (Option.some.inj he)
    obtain rfl := Option.some.inj hr'
    rw [cached, disk, clients_finish_self] at hcached
    exact ⟨hret, hcached⟩
  · rintro ⟨hret, hcached⟩
    refine ⟨_, _, rfl, hret, ?_⟩
    rw [cached, disk, clients_finish_self]
    exact hcached

/-- A file directly under the mount point that the server does not have can be created. -/
theorem OwnCaches.creates (h : w.OwnCaches P) (hup : w.up i = true) (hp : RootLevel p)
    (hpar : w.server.fs.isDir (parent (getServerPath p P.root_path)) = true)
    (hfree : w.server.fs.tree (getServerPath p P.root_path) = none) :
    ∃ r w', w.perform P (undisturbed i p now junk .create) = some (some r, w') ∧ r.ret = 0 ∧
      w'.served P p ≠ none := by
  have hyields : Prog.Yields (Env.exec ⟨P.root_path, junk⟩)
      (Client.afsCreate p (P.cache_path i) 0) (w.state i now [] []) _ :=
    afsCreate_yields (h.calm i now) (h.cacheDir i).toFlatDir hp
      (by simp only [state, serverAt, Fs.look, hfree])
      (by simp only [state, serverAt, Fs.isDir, hfree]) hpar
  obtain ⟨r, t, hrun, hret, -, -, -, g, hserver, -⟩ := hyields
  refine ⟨_, _, perform_undisturbed hup rfl (create_run hrun), hret, ?_⟩
  have hlook : t.server.fs.look (getServerPath p P.root_path) = some g :=
    (congrFun hserver.look _).trans (Function.update_self ..)
  rw [served, server_finish]
  change t.server.fs.look _ ≠ none
  rw [hlook]
  exact Option.some_ne_none g

/-- No file further down can be opened or created. -/
theorem OwnCaches.not_usable_nested {name rest : Path} (h : w.OwnCaches P) (hup : w.up i = true)
    (hname : EntryName name)
    (hfile : w.server.fs.isDir
      (getServerPath (slash :: (name ++ slash :: rest)) P.root_path) = false) :
    ¬ w.Usable P i (slash :: (name ++ slash :: rest)) now junk := by
  have hcache : CacheDir (P.cache_path i) (w.state i now [] []).disk := h.cacheDir i
  rintro ⟨hopens, hcreates⟩
  cases hg : w.served P (slash :: (name ++ slash :: rest)) with
  | some g =>
      have hyields : Prog.Yields (Env.exec ⟨P.root_path, junk⟩)
          (Client.afsOpen junk (slash :: (name ++ slash :: rest)) (P.cache_path i) 0)
          (w.state i now [] []) _ := afsOpen_nested rfl hcache hname
      obtain ⟨r, t, hrun, hret⟩ := hyields
      obtain ⟨r', w', hperf, hzero, -⟩ := hopens g hg
      rw [perform_undisturbed hup rfl (openF_run hrun)] at hperf
      obtain rfl := Option.some.inj (Prod.mk.inj (Option.some.inj hperf)).1
      simp only [hret] at hzero
      cases hzero
  | none =>
      have hyields : Prog.Yields (Env.exec ⟨P.root_path, junk⟩)
          (Client.afsCreate (slash :: (name ++ slash :: rest)) (P.cache_path i) 0)
          (w.state i now [] []) _ := afsCreate_nested rfl hcache hname
      obtain ⟨r, t, hrun, hret⟩ := hyields
      obtain ⟨r', w', hperf, hzero, -⟩ := hcreates (Fs.tree_eq_none hg hfile)
      rw [perform_undisturbed hup rfl (create_run hrun)] at hperf
      obtain rfl := Option.some.inj (Prod.mk.inj (Option.some.inj hperf)).1
      exact absurd hzero (ne_of_lt hret)

/-- A file whose directory the server has is usable exactly when it is directly under the mount point
and an open does not keep an old copy or the client's own database file. -/
theorem file_usable_iff (h : w.OwnCaches P) (hup : w.up i = true) (hp : UserPath p)
    (hpar : w.server.fs.isDir (parent (getServerPath p P.root_path)) = true)
    (hfile : w.server.fs.isDir (getServerPath p P.root_path) = false)
    (hlen : ∀ g, w.served P p = some g → g.bytes.length < 2 ^ 31) :
    w.Usable P i p now junk ↔
      RootLevel p ∧ ∀ g, w.served P p = some g → w.OpensCurrent P i p g := by
  constructor
  · intro husable
    rcases hp.cases with hroot | ⟨name, rest, hname, rfl⟩
    · exact ⟨hroot, fun g hg => (h.opens_iff hup hroot hg (hlen g hg)).mp (husable.opens g hg)⟩
    · exact absurd husable (h.not_usable_nested hup hname hfile)
  · rintro ⟨hroot, hcurrent⟩
    constructor
    · exact fun g hg => (h.opens_iff hup hroot hg (hlen g hg)).mpr (hcurrent g hg)
    · exact fun hfree => h.creates hup hroot hpar hfree

end Undisturbed

/-- The sample system starts with empty cache directories. -/
theorem ownCaches_sampleBoot : sampleBoot.OwnCaches sample := by
  refine ⟨sampleBoot, [], rfl, fun i => ⟨Fs.isDir_holding_self _ _, fun name => ?_⟩, Run.nil⟩
  change (Fs.holding (base (cstr "/cache")) []).tree (base (cstr "/cache") ++ slash :: name) = none
  simp only [Fs.holding, base_append_ne _ (List.cons_ne_nil slash name), if_false,
    List.findIdx?_nil, Option.map_none]

/-- The file of the sample system can be opened. -/
theorem file_usable_sample :
    sampleBoot.Usable sample false sampleFile (sampleTime 1 0) .zero := by
  refine (file_usable_iff ownCaches_sampleBoot rfl rootLevel_sampleFile.userPath (by decide)
    (by decide) ?_).mpr ⟨rootLevel_sampleFile, ?_⟩
  · intro g hg
    obtain rfl := Option.some.inj hg
    decide
  · intro g hg
    obtain rfl := Option.some.inj hg
    decide

/-- A client makes a directory, which its server then has, and cannot create a file in it. -/
theorem new_directory_unusable :
    ∃ w : World (Bool), sampleBoot.step sample
        (.call (undisturbed false (cstr "/d") (sampleTime 1 0) .zero (.mkdir 0o770))) = some w ∧
      w.server.fs.isDir (cstr "/srv/d") = true ∧
      w.server.fs.tree (cstr "/srv/d/f") = none ∧
      ¬ w.Usable sample false (cstr "/d/f") (sampleTime 2 0) .zero := by
  have hstep : (sampleBoot.step sample (.call (undisturbed false (cstr "/d") (sampleTime 1 0) .zero
      (.mkdir 0o770)))).map (fun w => (w.server.fs.isDir (cstr "/srv/d"),
        (w.server.fs.tree (cstr "/srv/d/f")).isNone, w.up false,
        ((w.perform sample (undisturbed false (cstr "/d/f") (sampleTime 2 0) .zero .create)).bind
          fun x => x.1.map (·.ret)))) = some (true, true, true, some (-2)) := by
    decide +kernel
  obtain ⟨w, hw, hv⟩ := Option.map_eq_some_iff.mp hstep
  simp only [Prod.mk.injEq] at hv
  obtain ⟨hdir, hfree, -, hret⟩ := hv
  refine ⟨w, hw, hdir, Option.isNone_iff_eq_none.mp hfree, fun husable => ?_⟩
  obtain ⟨r, w', hperf, hzero, -⟩ := husable.creates (Option.isNone_iff_eq_none.mp hfree)
  rw [hperf] at hret
  have hneg : r.ret = -2 := Option.some.inj hret
  omega

end World

end Afs
