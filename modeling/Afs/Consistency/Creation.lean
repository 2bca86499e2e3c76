import Afs.Consistency.Subdirectories
import Afs.Failures.Undone

/-!
# The copy of a new file

`CREATE` opens the copy with `O_CREAT` and without `O_TRUNC`. A client that still has bytes of a file
that another client removed keeps them, and records them under the time of the new file.
-/

namespace Afs

open Posix Interaction Transition

section Request

variable {env : Env} {dir p : Path} {fh : Int} {s t : St} {r : Int × Int}

/-- A creation that returns zero was done by the server. -/
theorem create_zero_served (hc : Calm s) (hl : FlatDir dir s.disk)
    (hrun : (Client.afsCreate p dir fh).run env.exec s = (some r, t)) (hzero : r.1 = 0) :
    ¬ (Request.call env.root_path (.create p)).Fails s.server := by
  let c : Sys := .openF (getLocalPath p dir) { creat := true, append := true } S_IRWXUG
  rw [Client.afsCreate_eq, Prog.run_call_bind] at hrun
  rcases Sys.openF_cases (getLocalPath p dir) { creat := true, append := true } S_IRWXUG
    (v := s.client.proc) (by simp [hc.client]) with ⟨-, hok⟩ | ⟨hfail, hpos, -⟩
  · have hfd : (env.exec (.sys c) s).1 ≠ (-1 : Int) := hok
    rw [if_neg hfd] at hrun
    intro hserved
    have hanswer : env.answering (s.created p dir) = some { junk := env.junk } := by
      have hnet : (s.created p dir).net = [] := hc.net
      simp only [Env.answering, hnet]
    have hfaults : ({ s.server with faults := [] } : Proc) = s.server := by
      rw [← hc.server]
    have hflat : FlatDir dir (s.created p dir).disk := hl.congr (Sys.exec_isDir (c := c) trivial)
    have hyields : Prog.Yields env.exec (Client.requestCreate p dir (c.exec s.client.proc).1)
        (s.created p dir) _ := requestCreate_answered (Sys.exec_faults hc.client c) hflat hanswer
          (List.forall_mem_nil _)
    obtain ⟨-, hbad⟩ := hyields.of_run hrun
    have hgt := hbad (hfaults.symm ▸ hserved)
    omega
  · have hfd : (env.exec (.sys c) s).1 = (-1 : Int) := hfail
    rw [if_pos hfd] at hrun
    have hneg : -((c.exec s.client.proc).2.errno) = r.1 :=
      congrArg Prod.fst (Option.some.inj (congrArg Prod.fst hrun))
    have hlt : -((c.exec s.client.proc).2.errno) < 0 := Int.neg_neg_of_pos hpos
    exfalso
    omega

end Request

namespace World

variable {ι : Type} [DecidableEq ι] {P : Params ι} {w w' : World ι}

/-- After a creation both sides have an empty file, and the client has the server's time for it. -/
structure CreatedEmpty (P : Params ι) (w : World ι) (i : ι) (p : Path) : Prop where
  served : ∃ g, w.served P p = some g ∧ g.bytes = [] ∧
    w.recorded i p = Int64.ofNat g.mtim.tv_nsec
  cached : w.cached P i p = some []

/-- A creation of a file that the server does not have leaves two empty files exactly when the client
has no bytes of it. -/
theorem created_empty_iff (h : w.OwnCaches P) {c : Call ι} (hop : c.op = .create) (hq : c.Quiet)
    (hp : RootLevel c.path) (hdb : c.path ≠ databasePath) (habsent : w.served P c.path = none)
    {r : Result} (hperf : w.perform P c = some (some r, w')) (hzero : r.ret = 0) :
    w'.CreatedEmpty P c.client c.path ↔ ∀ b ∈ w.cached P c.client c.path, b = [] := by
  obtain ⟨-, fh, -, hout⟩ := perform_eq_some.mp hperf
  obtain ⟨hres, rfl⟩ := Prod.mk.inj hout
  rw [hop, hq.faults, hq.net] at hres
  have hcalm := h.calm c.client c.now
  have hflat : FlatDir (P.cache_path c.client) (w.state c.client c.now [] []).disk :=
    (h.cacheDir c.client).toFlatDir
  cases hrun : (Client.afsCreate c.path (P.cache_path c.client) fh).run
      (Env.exec ⟨P.root_path, c.junk⟩) (w.state c.client c.now [] []) with
  | mk x t =>
      cases x with
      | none =>
          rw [Op.prog, Prog.run_bind, hrun] at hres
          cases hres
      | some x =>
          have hprog : (Op.create.prog c.junk c.path (P.cache_path c.client) fh).run
              (Env.exec ⟨P.root_path, c.junk⟩) (w.state c.client c.now [] []) = _ := create_run hrun
          rw [hprog] at hres
          obtain rfl := Option.some.inj hres
          have hserved := create_zero_served hcalm hflat hrun hzero
          rcases Sys.openF_creates (v := w.serverAt c.now) habsent hserved with ⟨hfree, hpar, -⟩
          have hdir : (w.serverAt c.now).fs.isDir (getServerPath c.path P.root_path) = false := by
            simp only [Fs.isDir, hfree]
          have hyields : Prog.Yields (Env.exec ⟨P.root_path, c.junk⟩)
              (Client.afsCreate c.path (P.cache_path c.client) fh)
              (w.state c.client c.now [] []) _ :=
            afsCreate_yields hcalm hflat hp habsent hdir hpar
          obtain ⟨-, -, ht, hcopy, g, hsv, hgb, hgm⟩ := hyields.of_run hrun
          obtain ⟨f, hlook, hbytes⟩ := hcopy hdb
          have hg : t.server.fs.look (getServerPath c.path P.root_path) = some g :=
            (congrFun hsv.look _).trans (Function.update_self ..)
          have hrecord : t.client.ht.get c.path = Int64.ofNat g.mtim.tv_nsec := by
            rw [ht, HashTable.get_put_self, hgm]
          rw [hop, hq.faults, hq.net, hprog]
          have hcached : (w.finish P c.client c.path (fun r b l => Op.create.sessions b r l)
              (some { ret := x.1, fh := x.2 }, t)).cached P c.client c.path =
                some ((w.cached P c.client c.path).getD []) := by
            rw [cached, disk, clients_finish_self]
            change (t.disk.look _).map _ = _
            rw [hlook, Option.map_some, hbytes]
            rfl
          constructor
          · rintro ⟨-, hempty⟩ b hb
            rw [hcached, hb, Option.getD_some] at hempty
            exact Option.some.inj hempty
          · intro hnone
            refine ⟨⟨g, ?_, hgb, ?_⟩, ?_⟩
            · rw [served, server_finish]
              exact hg
            · rw [recorded, clients_finish_self]
              exact hrecord
            · rw [hcached]
              cases hb : w.cached P c.client c.path with
              | none => rfl
              | some b => rw [hnone b hb, Option.getD_some]

/-- The creation of a file of the sample system, with nothing going wrong. -/
def sampleCreate (name : String) : Call (Bool) :=
  { sampleCall false 3 .create [] with path := cstr name }

/-- A new name. -/
theorem created_empty_sample :
    ∃ w', sampleBoot.call sample (sampleCreate "/g") = some w' ∧
      w'.CreatedEmpty sample false (cstr "/g") := by
  have hrun : ((sampleBoot.perform sample (sampleCreate "/g")).bind (·.1)).map (·.ret) = some 0 := by
    decide +kernel
  obtain ⟨r, hr, hzero⟩ := Option.map_eq_some_iff.mp hrun
  obtain ⟨⟨x, w'⟩, hperf, rfl⟩ := Option.bind_eq_some_iff.mp hr
  refine ⟨w', call_eq_some.mpr ⟨_, hperf⟩, ?_⟩
  have hname : RootLevel (cstr "/g") := ⟨cstr "g", by decide, by decide, by decide, by decide, by decide⟩
  have hnone : sampleBoot.cached sample false (cstr "/g") = none := cached_boot false hname
  apply (created_empty_iff ownCaches_sampleBoot rfl ⟨rfl, rfl⟩ hname (by decide) rfl hperf hzero).mpr
  intro b hb
  change b ∈ sampleBoot.cached sample false (cstr "/g") at hb
  rw [hnone] at hb
  cases hb

/-- One client opens the file and the other removes it. -/
def removedRun : List (Call (Bool)) := [sampleCall false 1 .openF [], sampleCall true 2 .unlink []]

/-- Then the first creates it again: the server's file is empty, and the client serves the bytes of the
old one under the time of the new one. -/
theorem created_keeps_old_copy :
    ∃ w w' r, Run (World.call sample) (fun _ c => c.Quiet) sampleBoot removedRun w ∧
      w.served sample sampleFile = none ∧
      w.perform sample (sampleCreate "/f") = some (some r, w') ∧ r.ret = 0 ∧
      (w'.served sample sampleFile).map (·.bytes) = some [] ∧
      w'.cached sample false sampleFile = some [1] ∧ w'.recorded false sampleFile = 0 ∧
      ¬ w'.CreatedEmpty sample false sampleFile := by
  have hrun : ((removedRun.foldlM (fun (w : World (Bool)) (c : Call (Bool)) =>
      if c.Quiet then w.call sample c else none) sampleBoot).bind fun w =>
        (w.perform sample (sampleCreate "/f")).map fun x => (w, x)).any
        (fun y : World (Bool) × Option Result × World (Bool) =>
          decide ((y.1.served sample sampleFile).isNone = true ∧ y.2.1.map (·.ret) = some 0 ∧
            (y.2.2.served sample sampleFile).map (·.bytes) = some [] ∧
            y.2.2.cached sample false sampleFile = some [1] ∧
            y.2.2.recorded false sampleFile = 0)) = true := by
    decide +kernel
  obtain ⟨y, hy, hvalues⟩ := (Option.any_eq_true _ _).mp hrun
  obtain ⟨w, hfold, hrest⟩ := Option.bind_eq_some_iff.mp hy
  obtain ⟨⟨x, w'⟩, hperf, rfl⟩ := Option.map_eq_some_iff.mp hrest
  obtain ⟨hnone, hret, hserved, hcached, hrecorded⟩ := of_decide_eq_true hvalues
  obtain ⟨r, rfl, hzero⟩ := Option.map_eq_some_iff.mp hret
  refine ⟨w, w', r, Run.of_foldlM hfold, Option.isNone_iff_eq_none.mp hnone, hperf, hzero, hserved,
    hcached, hrecorded, fun hempty => ?_⟩
  have hboth := hempty.cached.symm.trans hcached
  cases hboth

end World

end Afs
