import Afs.Consistency.Catalog
import Afs.Core.Listing
import Afs.Core.Resolve
import Afs.Ops.Boot
import Afs.Ops.Pending
import Afs.Ops.Script

/-!
# What a directory lists

Clients create and remove files and directories, and handlers of such requests fail, are given up and run
late. The exported directory stays a tree all the same, and reading a directory lists exactly the names
in it, in the order that the disk has them. The mount root is the name of the exported directory with a
separator behind it.
-/

namespace Afs

open Posix Interaction Transition

variable {root_path top : Path}

/-- A request that is carried out leaves a tree. -/
theorem Request.effect_tree {now : Timespec} {d : Bytes} {C D : Catalog} {r : Request} (hC : C.Tree top)
    (h : r.effect root_path now d C = .ok D) : D.Tree top := by
  cases r with
  | create path | fetch path => exact hC.opened h
  | store q =>
      simp only [effect] at h
      cases ho : C.opened now (getServerPath q.path root_path) { creat := true, trunc := true } S_IRWXUG with
      | error e =>
          rw [ho] at h
          cases h
      | ok E =>
          rw [ho] at h
          obtain rfl := Except.ok.inj h
          exact (hC.opened ho).fill d
  | getattr path =>
      simp only [effect] at h
      cases hs : C.stat (getServerPath path root_path) with
      | error e =>
          rw [hs] at h
          cases h
      | ok st =>
          rw [hs] at h
          obtain rfl := Except.ok.inj h
          exact hC
  | ls path =>
      simp only [effect] at h
      cases hs : C.readdir (getServerPath path root_path) with
      | error e =>
          rw [hs] at h
          cases h
      | ok names =>
          rw [hs] at h
          obtain rfl := Except.ok.inj h
          exact hC
  | unlink path => exact hC.unlink h
  | rmdir path => exact hC.rmdir h
  | mkdir path mode => exact hC.mkdir h
  | chmod path mode => exact hC.chmod h

/-- Every handler keeps the tree, whatever fails in it. -/
theorem Request.keeps_tree (r : Request) : r.Keeps root_path fun s => s.catalog.Tree top := by
  intro junk v hv
  obtain ⟨m, t, hrun, hout⟩ := @Server.handle_outcome v junk root_path r
  rw [hrun]
  rcases hout with ⟨hsame, -⟩ | ⟨-, d, -, heff⟩
  · change t.fs.catalog.Tree top
    rw [hsame]
    exact hv
  · exact Request.effect_tree hv heff

namespace World

variable {ι : Type} [DecidableEq ι] {P : Params ι} {w w' : World ι} {es : List (Event ι)}

/-- The exported directory stays a tree in every run. -/
theorem tree_run (h : Run (World.step P) (fun _ _ => True) w es w') (hw : w.server.fs.catalog.Tree top) :
    w'.server.fs.catalog.Tree top := by
  refine h.invariant (fun w => w.server.fs.catalog.Tree top) hw fun v e u hv _ hs => ?_
  refine (step_upholds (I := fun s => s.catalog.Tree top) (R := fun _ => True) (fun r _ => r.keeps_tree)
    (fun s now ht => ht) (fun c fh _ _ hstate => ?_) hs ⟨hv, fun r _ => trivial⟩).1
  exact Op.run_upholds ⟨P.root_path, c.junk⟩ (fun r _ => r.keeps_tree) (fun r _ _ => trivial) hstate

/-- Reading a directory returns its entries in the exported directory. -/
theorem perform_readdir {c : Call ι} {r : Option Result} (hop : c.op = .readdir) (hq : c.Quiet)
    (hperf : w.perform P c = some (r, w')) {l : List Path}
    (hl : w.server.fs.catalog.readdir (getServerPath c.path P.root_path) = .ok l) :
    r = some { ret := 0, names := c.junk.order l } := by
  obtain ⟨fh, t, -, hrun, -⟩ := perform_run hperf
  rw [hop] at hrun
  have heff : (Request.ls c.path).effect P.root_path c.now [] (w.serverAt c.now).fs.catalog =
      .ok (w.serverAt c.now).fs.catalog := by
    change (w.server.fs.catalog.readdir _).map _ = _
    rw [hl]
    rfl
  obtain ⟨m, u, hserve, hm⟩ := @Server.handle_answer ⟨(w.serverAt c.now).fs, w.server.errno, []⟩
    c.junk P.root_path (.ls c.path) rfl trivial
  have hreport : m = { reply := (c.junk.order l).map fun name => { error := 0, name := name } } := by
    refine (congrArg Prod.fst (hm.trans (Request.answer_of_ok heff))).trans ?_
    simp only [Request.report]
    rw [show (w.serverAt c.now).fs.catalog.readdir _ = .ok l from hl]
  have hattempt : ((Env.mk P.root_path c.junk).attempt (.ls c.path) (w.state c.client c.now c.faults c.net)).1 =
      some m.reply := by
    have hserve' : (Env.mk P.root_path c.junk).serve (.ls c.path) { junk := c.junk } (w.serverAt c.now) =
        (some m, { u with faults := [] }) := by
      change ((Prog.run ProcCmd.exec _ _).1, ({ (Prog.run ProcCmd.exec _ _).2 with faults := [] } : Proc)) = _
      rw [show (Prog.run ProcCmd.exec (Server.handle c.junk P.root_path (.ls c.path))
        { w.serverAt c.now with faults := [] }) = (some m, u) from hserve]
    simp only [Env.attempt, state, hq.net, hserve', hreport, Option.bind_some, if_true]
  have hfilter : (((c.junk.order l).map fun name => ({ error := 0, name := name } : LsRes)).filter
      (·.error = 0)).map (·.name) = c.junk.order l := by
    simp [List.filter_map, Function.comp_def]
  have hls : ((Op.readdir.prog c.junk c.path (P.cache_path c.client) fh).run
      (Env.exec ⟨P.root_path, c.junk⟩) (w.state c.client c.now c.faults c.net)).1 =
        some { ret := 0, names := c.junk.order l } := by
    have hrpc : Env.exec ⟨P.root_path, c.junk⟩ (.rpc (.ls c.path)) (w.state c.client c.now c.faults c.net) =
        (some m.reply, (Env.attempt ⟨P.root_path, c.junk⟩ (.ls c.path)
          (w.state c.client c.now c.faults c.net)).2) := Prod.ext hattempt rfl
    simp only [Op.prog, Client.afsLs, Prog.bind_assoc]
    rw [Prog.run_call_bind, hrpc, hreport]
    simp only [Prog.pure_eq, Prog.ret_bind, Prog.run_ret, hfilter]
  rw [hrun] at hls
  exact hls

/-- After any run, whatever failed in it, reading a directory returns, in some order, its two dots and
every name in the exported directory once. -/
theorem readdir_lists_directory {v : World ι} {c : Call ι} {r : Option Result}
    (hw : w.server.fs.catalog.Tree top) (h : Run (World.step P) (fun _ _ => True) w es v)
    (hop : c.op = .readdir) (hq : c.Quiet) (hperf : v.perform P c = some (r, w'))
    {dir : Path} (hname : v.server.fs.named (getServerPath c.path P.root_path) = dir)
    (hdir : v.server.fs.isDir dir = true) (hne : dir ≠ []) (htop : parent top ≠ dir) :
    ∃ names l, r = some { ret := 0, names := names } ∧ names.Perm (dot :: dotdot :: l) ∧ l.Nodup ∧
      ∀ n, n ∈ l ↔ slash ∉ n ∧ v.server.fs.tree (dir ++ slash :: n) ≠ none := by
  obtain ⟨l, hl, hnodup, hmem⟩ := (tree_run h hw).entries hne htop
  have hlist : v.server.fs.catalog.readdir (getServerPath c.path P.root_path) = .ok (dot :: dotdot :: l) := by
    rw [Catalog.readdir, Fs.catalog_named, hname, Fs.catalog_isDir, if_pos hdir, hl]
    rfl
  refine ⟨_, l, perform_readdir hop hq hperf hlist, c.junk.order_perm _, hnodup,
    fun n => (hmem n).trans (and_congr_right fun _ => ?_)⟩
  exact not_congr Option.map_eq_none_iff

omit [DecidableEq ι] in
/-- The exported directory of a fresh system. -/
theorem tree_boot {files : List (Path × Bytes × Timespec)} (hfiles : ∀ e ∈ files, RootLevel e.1)
    (hnodup : (files.map (·.1)).Nodup) :
    (boot P files).server.fs.catalog.Tree (base P.root_path) := by
  have hpath : ∀ e ∈ files, getServerPath e.1 P.root_path = base P.root_path ++ e.1 :=
    fun e he => getServerPath_eq (hfiles e he) P.root_path
  have hitem : ∀ q, q ≠ base P.root_path → ((boot P files).server.fs.catalog.item q ≠ none ↔
      q ∈ (files.map fun e => getServerPath e.1 P.root_path)) := by
    intro q hq
    change Option.map _ (Fs.tree _ q) ≠ none ↔ _
    simp only [boot, Fs.holding, hq, if_false, ne_eq, Option.map_eq_none_iff, List.findIdx?_eq_none_iff,
      decide_eq_false_iff_not]
    push Not
    constructor
    · rintro ⟨x, hx, rfl⟩
      obtain ⟨e, he, rfl⟩ := List.mem_map.mp hx
      exact List.mem_map.mpr ⟨e, he, rfl⟩
    · intro h
      obtain ⟨e, he, rfl⟩ := List.mem_map.mp h
      exact ⟨_, List.mem_map.mpr ⟨e, he, rfl⟩, rfl⟩
  have horder : (boot P files).server.fs.catalog.order = files.map fun e => getServerPath e.1 P.root_path := by
    simp only [boot, Fs.catalog, Fs.holding, List.map_map]
    rfl
  constructor
  · rw [horder]
    refine List.Nodup.map_on (fun e he e' he' heq => ?_) (List.Nodup.of_map _ hnodup)
    rw [hpath e he, hpath e' he', List.append_cancel_left_eq] at heq
    exact List.inj_on_of_nodup_map hnodup he he' heq
  · intro q hq
    by_cases htop : q = base P.root_path
    · exact Or.inl htop
    · rw [horder]
      exact Or.inr ((hitem q htop).mp hq)
  · intro q hq
    rw [horder] at hq
    refine (hitem q ?_).mpr hq
    obtain ⟨e, he, rfl⟩ := List.mem_map.mp hq
    rw [hpath e he]
    exact base_append_ne _ (hfiles e he).ne_nil
  · intro q hq
    by_cases htop : q = base P.root_path
    · exact Or.inl htop
    · obtain ⟨e, he, rfl⟩ := List.mem_map.mp ((hitem q htop).mp hq)
      rw [hpath e he, parent_base (hfiles e he)]
      exact Or.inr ((Fs.catalog_isDir _ _).trans (Fs.isDir_holding_self _ _))

/-- A directory is made in another one, and the reply is lost. Another client lists the mount root. -/
theorem readdir_lists_directory_sample : ∃ (es : List (Event (Bool))) (v w' : World (Bool)) (r : Option Result)
    (names l : List Path), Run (World.step sample) (fun _ _ => True) sampleBoot es v ∧
      v.perform sample { sampleCall true 3 .readdir [] with path := cstr "/" } = some (r, w') ∧
      r = some { ret := 0, names := names } ∧ names.Perm (dot :: dotdot :: l) ∧ l.Nodup ∧ ∀ n, n ∈ l ↔
        slash ∉ n ∧ v.server.fs.tree (sample.root_path ++ slash :: n) ≠ none := by
  let es : List (Event (Bool)) := [.call { sampleCall false 1 (.mkdir 0o755) [] with path := cstr "/d" },
    .call { sampleCall false 2 (.mkdir 0o755) [.replyLost { junk := .zero } 110] with path := cstr "/d/e" }]
  let c : Call (Bool) := { sampleCall true 3 .readdir [] with path := cstr "/" }
  have h : ((es.foldlM (fun (w : World (Bool)) e => w.step sample e) sampleBoot).bind fun v =>
      (v.perform sample c).map fun _ => (v.server.fs.named (getServerPath c.path sample.root_path),
        v.server.fs.isDir sample.root_path)) = some (sample.root_path, true) := by
    decide +kernel
  obtain ⟨v, hfold, hrest⟩ := Option.bind_eq_some_iff.mp h
  obtain ⟨⟨r, w'⟩, hperf, hnamed⟩ := Option.map_eq_some_iff.mp hrest
  have hrun : Run (World.step sample) (fun _ _ => True) sampleBoot es v :=
    Run.of_foldlM (by simpa using hfold)
  have htree : sampleBoot.server.fs.catalog.Tree (base sample.root_path) :=
    tree_boot (by
      intro e he
      rw [List.mem_singleton.mp he]
      exact rootLevel_sampleFile) (by decide)
  obtain ⟨names, l, hr, hperm, hnodup, hmem⟩ := readdir_lists_directory htree hrun rfl (by decide) hperf
    (congrArg Prod.fst hnamed) (congrArg Prod.snd hnamed) (by decide) (by decide)
  exact ⟨es, v, w', r, names, l, hrun, hperf, hr, hperm, hnodup, hmem⟩

end World

end Afs
