import Afs.Consistency.Subdirectories
import Afs.Ops.Filling
import Afs.Ops.Spares
import Afs.Ops.Starting

/-!
# Truncations and the server

`TRUNCATE` changes the copy and leaves the table alone, and a release looks at the table only. A
session's changes reach the server when one of them was a write of some bytes.
-/

namespace Afs

open Posix Interaction Transition

/-- The bytes of a file after an operation that changes them. -/
def Op.edit (b : Bytes) : Op → Bytes
  | .write _ buffer offset => overwrite b offset buffer
  | .truncate size => resize b size.toNat
  | _ => b

/-- The operation changes the bytes of a file: a write, or a truncation to a possible length. -/
def Op.Edits : Op → Prop
  | .write .. => True
  | .truncate size => 0 ≤ size
  | _ => False

instance : (op : Op) → Decidable op.Edits
  | .write .. => .isTrue trivial
  | .truncate size => inferInstanceAs (Decidable (0 ≤ size))
  | .create | .openF | .read .. | .release _ | .fsync _ | .getattr | .chown .. | .chmod _
  | .utimens .. | .unlink | .mkdir _ | .rmdir | .readdir => .isFalse not_false

/-- The operation leaves the modified flag in the table. -/
def Op.marks : Op → Bool
  | .write _ buffer _ => decide (buffer ≠ [])
  | _ => false

section Programs

variable {env : Env} {junk : Junk} {p dir : Path} {s : St} {f : File}

/-- Truncating the copy, and nothing else. -/
theorem afsTruncate_yields (hf : s.client.proc.faults = [])
    (hl : s.disk.look (getLocalPath p dir) = some f) {n : Int} (hn : 0 ≤ n) :
    Prog.Yields env.exec (Client.afsTruncate p dir n) s fun r t =>
      r = 0 ∧ LocalEffect s t [getLocalPath p dir] ∧
      ∃ g, t.disk.look (getLocalPath p dir) = some g ∧ g.bytes = resize f.bytes n.toNat := by
  obtain ⟨i, hi, rfl⟩ := Fs.look_eq_some.mp hl
  have hneg : ¬ n < 0 := by omega
  have hstep := Fs.steps_setBytes hi (resize (s.disk.node i).bytes n.toNat)
  have hcall : Sys.perform none (.truncate (getLocalPath p dir) n) s.disk =
      .ok ((0 : Int), s.disk.setBytes i (resize (s.disk.node i).bytes n.toNat)) := by
    simp only [Sys.perform, Fs.truncate, hneg, if_false, hi]
  unfold Client.afsTruncate
  refine Env.yields_sys hf hcall ?_
  refine Prog.Yields.ret ⟨rfl, LocalEffect.disk_step hf hstep.only,
    s.disk.stamped (s.disk.node i) (resize (s.disk.node i).bytes n.toNat), ?_, rfl⟩
  exact (congrFun hstep.look _).trans (Function.update_self ..)

/-- A write while nothing fails: the copy of the database file's own path becomes the table. -/
theorem afsWrite_local {buffer : Bytes} {offset : Nat} (hb : buffer ≠ [])
    (hf : s.client.proc.faults = []) (hdir : CacheDir dir s.disk) (hp : RootLevel p)
    (hl : s.disk.look (getLocalPath p dir) = some f) (hlen : f.bytes.length < 2 ^ 64) :
    Prog.Yields env.exec (Client.afsWrite junk p dir buffer offset) s fun _ t =>
      t.client.ht = s.client.ht.put (hashKey p) modifiedFlag ∧
      (t.disk.look (getLocalPath p dir)).map (·.bytes) =
        some (if p = databasePath then dumpText t.client.ht
          else overwrite f.bytes offset buffer) := by
  obtain ⟨rest, rfl⟩ := hp.userPath.absolute
  obtain ⟨htmp, hpar⟩ := hdir.room (by rw [hl]; exact Option.some_ne_none f)
  have hwrite : Prog.Yields env.exec (Client.afsWrite junk (slash :: rest) dir buffer offset) s _ :=
    afsWrite_faulty hb (List.forall_mem_nil _) hf (Nat.zero_le 7) hdir.toFlatDir hl htmp hpar
      (getLocalPath_ne_getLocalTmpPath _ dir)
  refine hwrite.mono ?_
  rintro r t ⟨-, ht, hcopy⟩
  refine ⟨ht, ?_⟩
  rw [hcopy]
  split
  · rfl
  · have hfine : ∀ k, fault [] k = .ok := fun k => by simp only [fault, List.drop_nil, List.headD_nil]
    simp only [Client.tmpContent, hfine, Fault.error_ok, if_true, Fault.moved_ok, List.take_length,
      oldCopied_of_fine hlen fun j _ => hfine _]

/-- Releasing a modified file while nothing fails: the server is as the handler of the store left it,
and the table is written out with the time of the reply. -/
theorem afsRelease_of_store {fh : Int} {Q : Response StoreRes → Proc → Prop} (hc : Calm s)
    (hl : FlatDir dir s.disk) (hm : s.client.ht.get p = modifiedFlag)
    (hf : s.disk.look (getLocalPath p dir) = some f) (hlen : f.bytes.length < 2 ^ 31)
    (hstore : Prog.Yields ProcCmd.exec
      (Server.afsStore env.junk env.root_path (.whole p f.bytes)) s.server Q)
    (hq : ∀ m v, Q m v → m.ok = true ∧ v.faults = []) :
    Prog.Yields env.exec (Client.afsRelease junk p dir fh) s fun _ t =>
      ∃ m v, Q m v ∧ t.server = v ∧ Effect s t [getLocalPath databasePath dir] ∧
        (t.disk.look (getLocalPath databasePath dir)).map (·.bytes) =
          some (dumpText t.client.ht) := by
  obtain ⟨rc, u, hrun, he⟩ := afsRelease_sends env junk fh hc.client hm hf (by omega)
  have hcalm := (he.effect hc).calm
  have hsize := StoreReq.toInt_whole (p := p) hlen
  have hpos : 0 ≤ (Int32.ofInt f.bytes.length).toInt := by
    simp only [StoreReq.whole] at hsize
    omega
  have hstored : Prog.Yields env.exec
      (Client.afsStore p dir f.bytes (Int32.ofInt f.bytes.length) >>= fun _ => pure rc) u
      fun _ t => ∃ m v, Q m v ∧ t.server = v ∧ Effect u t [getLocalPath databasePath dir] ∧
        (t.disk.look (getLocalPath databasePath dir)).map (·.bytes) =
          some (dumpText t.client.ht) := by
    rw [afsStore_eq hpos, sentBytes_of_lt hlen, Prog.bind_assoc]
    refine Env.yields_retried hcalm (by rw [he.server]; exact hstore) hq ?_
    intro m v hm
    have hflat : FlatDir dir (u.withServer v).reset.disk := hl.congr he.disk.isDir
    have hcalm' : Calm (u.withServer v).reset := (hcalm.withServer (hq m v hm).2).reset
    rw [Prog.bind_assoc]
    unfold Client.record
    rw [Prog.bind_assoc]
    refine Prog.Yields.call (r := ()) (t := (u.withServer v).reset.withTable
      ((u.withServer v).reset.client.ht.put (hashKey p) m.reply.time)) rfl ?_
    refine Prog.Yields.bind (dump_local (hcalm'.withTable _).client hflat) ?_
    rintro _ t ⟨hd, -, htext⟩
    refine Prog.Yields.ret ⟨m, v, hm, hd.server, ⟨hd.disk, (hd.effect (hcalm'.withTable _)).calm,
      hd.inflight⟩, ?_⟩
    rw [htext, hd.table]
  obtain ⟨r, t, hrest, m, v, hmv, hsv, heff, htext⟩ := hstored
  exact ⟨r, t, hrun.trans hrest, m, v, hmv, hsv, ((he.effect hc).trans heff).mono (by simp), htext⟩

/-- Releasing a modified file ends with the table written out. -/
theorem afsRelease_dumps {fh : Int} (hc : Calm s) (hl : FlatDir dir s.disk)
    (hm : s.client.ht.get p = modifiedFlag) (hf : s.disk.look (getLocalPath p dir) = some f)
    (hlen : f.bytes.length < 2 ^ 31)
    (hd : s.server.fs.isDir (getServerPath p env.root_path) = false)
    (hp : s.server.fs.look (getServerPath p env.root_path) = none →
      s.server.fs.isDir (parent (getServerPath p env.root_path)) = true) :
    Prog.Yields env.exec (Client.afsRelease junk p dir fh) s fun _ t =>
      (t.disk.look (getLocalPath databasePath dir)).map (·.bytes) =
        some (dumpText t.client.ht) := by
  have hstore := Server.afsStore_yields env.junk env.root_path (.whole p f.bytes) hc.server
    (StoreReq.toInt_whole hlen) hd hp
  refine (afsRelease_of_store hc hl hm hf hlen hstore fun m v hm => ⟨by rw [hm.2.1], hm.1⟩).mono ?_
  rintro r t ⟨m, v, -, -, -, htext⟩
  exact htext

/-- While nothing fails, an open of a file of the server leaves a copy and no flag. -/
theorem St.Opened.unflagged {t : St} {r : Int} {g : File} (hc : Calm s) (hl : FlatDir dir s.disk)
    (hp : RootLevel p) (hg : s.server.fs.look (getServerPath p env.root_path) = some g)
    (ho : s.Opened env junk p dir t r) :
    t.client.ht.get p ≠ modifiedFlag ∧ ∃ b, t.copy p dir = some b := by
  by_cases hf : s.Fetches env junk p dir
  · obtain ⟨-, ht, hcopy⟩ := ho.answered hf _ (St.fetchedReply_calm hc hg)
    rw [ht, HashTable.get_put_self]
    exact ⟨time_ne_modifiedFlag g.mtim, _, hcopy⟩
  · obtain ⟨-, ht, hlook⟩ := ho.kept hf
    have hcopy : s.HasCopy p dir := by
      by_contra hn
      unfold St.Fetches at hf
      rw [if_neg hn] at hf
      exact hf ⟨hl.isDir_local hp, hl.parent_local hp⟩
    unfold St.Fetches at hf
    rw [if_pos hcopy, St.newer_iff_calm hc hg] at hf
    constructor
    · rw [ht]
      intro hm
      have hflag : modifiedFlag.toInt = -12345678 := by decide
      rw [hm, hflag] at hf
      omega
    · obtain ⟨f, hlk⟩ := Option.ne_none_iff_exists'.mp hcopy
      exact ⟨f.bytes, by rw [St.copy, hlook, hlk, Option.map_some]⟩

end Programs

namespace World

variable {ι : Type} [DecidableEq ι] {P : Params ι} {w w' : World ι} {i : ι} {p : Path}
  {g b : Bytes} {marked : Bool} {c : Call ι}

/-- Client `i` in a session on `p`: the server still has `g`, the changes so far make `b`, and a write
among them left the flag. The database file's own copy is then the table, cut or lengthened. -/
structure Editing (P : Params ι) (i : ι) (p : Path) (g b : Bytes) (marked : Bool) (w : World ι) :
    Prop where
  mounted : w.Mounted P
  up : w.up i = true
  served : w.server.fs.Has (getServerPath p P.root_path) g
  flag : w.recorded i p = modifiedFlag ↔ marked = true
  copy : ∃ c, w.cached P i p = some c ∧
    if p = databasePath ∧ marked = true then
      ∃ k m, c = (dumpText (w.clients i).ht).take k ++ List.replicate m 0
    else c = b

/-- A change by client `i` in a session on `p`, while nothing fails and the copy is below two
gigabytes. -/
structure Edit (P : Params ι) (i : ι) (p : Path) (w : World ι) (c : Call ι) : Prop where
  client : c.client = i
  path : c.path = p
  quiet : c.Quiet
  op : c.op.Edits
  short : ∀ b ∈ w.cached P i p, b.length < 2 ^ 31

instance (w : World ι) (c : Call ι) : Decidable (w.Edit P i p c) :=
  decidable_of_iff (c.client = i ∧ c.path = p ∧ c.Quiet ∧ c.op.Edits ∧
      ∀ b ∈ w.cached P i p, b.length < 2 ^ 31)
    ⟨fun ⟨hi, hp, hq, hop, hs⟩ => ⟨hi, hp, hq, hop, hs⟩,
      fun h => ⟨h.client, h.path, h.quiet, h.op, h.short⟩⟩

/-- The server and the copy have the same bytes, and these are the given ones. -/
structure WrittenBack (P : Params ι) (w : World ι) (i : ι) (p : Path) (b : Bytes) : Prop where
  served : (w.served P p).map (·.bytes) = some b
  cached : w.cached P i p = some b

/-- An operation leads from one state of mounted file systems to another. -/
theorem Mounted.perform {x : Option Result} (h : w.Mounted P)
    (hc : ∃ rest, c.path = slash :: rest) (hp : w.perform P c = some (x, w')) : w'.Mounted P := by
  obtain ⟨files, es, hr⟩ := h
  have hstep : w.step P (.call c) = some w' := by rw [step, hp, Option.map_some]
  have hok : (Event.call c).Absolute := hc
  exact ⟨files, _, hr.snoc hok hstep⟩

theorem Mounted.server_faults (h : w.Mounted P) : w.server.faults = [] := by
  obtain ⟨files, es, hr⟩ := h
  exact hr.invariant (fun w : World ι => w.server.faults = []) rfl
    fun w e w' hw _ hs => step_server_faults hw hs

theorem Mounted.calm (h : w.Mounted P) (i : ι) (now : Timespec) : Calm (w.state i now [] []) :=
  ⟨rfl, h.server_faults, rfl⟩

/-- What a change makes of the table and of the copy. -/
private theorem edit_yields (env : Env) (junk : Junk) (fh : Int) {dir : Path} {op : Op} {s : St}
    {f : File} (hop : op.Edits) (hf : s.client.proc.faults = []) (hdir : CacheDir dir s.disk)
    (hp : RootLevel p) (hl : s.disk.look (getLocalPath p dir) = some f)
    (hlen : f.bytes.length < 2 ^ 64) :
    Prog.Yields env.exec (op.prog junk p dir fh) s fun _ t =>
      t.client.ht = (if op.marks = true then s.client.ht.put (hashKey p) modifiedFlag
        else s.client.ht) ∧
      t.copy p dir = some (if p = databasePath ∧ op.marks = true then dumpText t.client.ht
        else op.edit f.bytes) := by
  cases op with
  | write k buffer offset =>
      by_cases hb : buffer = []
      · subst hb
        refine (afsWrite_nil junk offset).bind ?_
        rintro r t ⟨-, rfl⟩
        refine Prog.Yields.ret ⟨by simp [Op.marks], ?_⟩
        simp [Op.marks, Op.edit, St.copy, hl]
      · refine (afsWrite_local hb hf hdir hp hl hlen).bind ?_
        rintro r t ⟨ht, hcopy⟩
        refine Prog.Yields.ret ⟨by simp [Op.marks, hb, ht], ?_⟩
        simpa [Op.marks, Op.edit, hb, St.copy] using hcopy
  | truncate n =>
      refine (afsTruncate_yields hf hl hop).bind ?_
      rintro r t ⟨-, he, f', hl', hb⟩
      refine Prog.Yields.ret ⟨by simp [Op.marks, he.table], ?_⟩
      simp [Op.marks, Op.edit, St.copy, hl', hb]
  | _ => exact hop.elim

/-- A change that leaves no flag makes a cut text of a cut text. -/
private theorem edit_cut {op : Op} (hop : op.Edits) (hm : op.marks = false) (text : Bytes)
    (k m : Nat) : ∃ k' m', op.edit (text.take k ++ List.replicate m 0) =
      text.take k' ++ List.replicate m' 0 := by
  cases op with
  | write j buffer offset =>
      have hb : buffer = [] := by simpa [Op.marks] using hm
      subst hb
      exact ⟨k, m, overwrite_nil _ _⟩
  | truncate n => exact resize_take_zeros text k m n.toNat
  | _ => exact hop.elim

/-- A change keeps the session in order. -/
theorem Editing.edit (h : w.Editing P i p g b marked) (hp : RootLevel p) (hc : w.Edit P i p c)
    (hs : w.call P c = some w') :
    w'.Editing P i p g (c.op.edit b) (marked || c.op.marks) := by
  obtain ⟨x, hperf⟩ := call_eq_some.mp hs
  obtain ⟨fh, t, -, hrun, hclient, hserver, hup⟩ := perform_run hperf
  obtain rfl := hc.client
  obtain rfl := hc.path
  rw [hc.quiet.faults, hc.quiet.net] at hrun
  obtain ⟨a, hcached, hcopy⟩ := h.copy
  obtain ⟨f, hlook, rfl⟩ := Option.map_eq_some_iff.mp hcached
  have hlen : f.bytes.length < 2 ^ 64 := lt_trans (hc.short _ hcached) (by decide)
  have hdir : CacheDir (P.cache_path c.client) (w.state c.client c.now [] []).disk :=
    h.mounted.cacheDir c.client
  obtain ⟨r, t', hrun', ht, hedit⟩ := edit_yields ⟨P.root_path, c.junk⟩ c.junk fh
    (s := w.state c.client c.now [] []) hc.op rfl hdir hp hlook hlen
  obtain ⟨rfl, rfl⟩ := Prod.mk.inj (hrun.symm.trans hrun')
  refine ⟨h.mounted.perform hp.userPath.absolute hperf, hup, ?_, ?_, ?_⟩
  · have hend := congrArg Prod.snd hrun
    simp only at hend
    rw [hserver, ← hend]
    refine Op.run_has ?_ h.served
    have hop := hc.op
    cases hopc : c.op with
    | write | truncate => exact trivial
    | _ =>
        rw [hopc] at hop
        exact hop.elim
  · rw [recorded, hclient, ht]
    cases hm : c.op.marks with
    | true => simp
    | false =>
        simp only [Bool.false_eq_true, if_false, Bool.or_false]
        exact h.flag
  · rw [cached, disk, hclient]
    refine ⟨_, hedit, ?_⟩
    cases hm : c.op.marks with
    | true =>
        by_cases hdb : c.path = databasePath
        · simp only [hdb, Bool.or_true, and_self, if_true]
          exact ⟨(dumpText t.client.ht).length, 0, by simp⟩
        · simp only [hdb, false_and, if_false] at hcopy ⊢
          rw [hcopy]
    | false =>
        simp only [Bool.false_eq_true, and_false, if_false, Bool.or_false]
        have hht : t.client.ht = (w.clients c.client).ht := by
          rw [ht, hm]
          rfl
        rw [hht]
        split at hcopy
        · obtain ⟨k, m, hb⟩ := hcopy
          rw [hb, if_pos ‹_›]
          exact edit_cut hc.op hm _ k m
        · rw [hcopy, if_neg ‹_›]

/-- An open that succeeds on a file of the server begins a session. -/
theorem editing_of_open (h : w.Mounted P) (hop : c.op = .openF) (hq : c.Quiet) (hp : UserPath c.path)
    {x : File} (hg : w.served P c.path = some x) {r : Result}
    (hperf : w.perform P c = some (some r, w')) (hzero : r.ret = 0) :
    RootLevel c.path ∧ ∃ b, w'.Editing P c.client c.path x.bytes b false := by
  obtain ⟨fh, t, -, hrun, hclient, hserver, hup⟩ := perform_run hperf
  rw [hop, hq.faults, hq.net] at hrun
  have hdir : CacheDir (P.cache_path c.client) (w.state c.client c.now [] []).disk :=
    h.cacheDir c.client
  rcases hp.cases with hroot | ⟨name, rest, hname, hpath⟩
  · refine ⟨hroot, ?_⟩
    obtain ⟨y, u, hopen, ho⟩ : Prog.Yields (Env.exec ⟨P.root_path, c.junk⟩)
      (Client.afsOpen c.junk c.path (P.cache_path c.client) fh) (w.state c.client c.now [] [])
      fun r t => (w.state c.client c.now [] []).Opened ⟨P.root_path, c.junk⟩ c.junk c.path
        (P.cache_path c.client) t r.1 := afsOpen_opened rfl hdir.toFlatDir
    have hprog : (Op.openF.prog c.junk c.path (P.cache_path c.client) fh).run
        (Env.exec ⟨P.root_path, c.junk⟩) (w.state c.client c.now [] []) =
          (some { ret := y.1, fh := y.2 }, u) := by
      rw [Op.prog, Prog.run_bind, hopen]
      rfl
    obtain ⟨-, rfl⟩ := Prod.mk.inj (hprog.symm.trans hrun)
    have hserved : (w.state c.client c.now [] []).server.fs.look
        (getServerPath c.path (Env.mk P.root_path c.junk).root_path) = some x := hg
    obtain ⟨hflag, b, hcopy⟩ := ho.unflagged (h.calm c.client c.now) hdir.toFlatDir hroot hserved
    refine ⟨b, h.perform hp.absolute hperf, hup, ?_, ?_, b, ?_, ?_⟩
    · have hend := congrArg Prod.snd hrun
      simp only at hend
      rw [hserver, ← hend]
      exact Op.run_has (show Op.Leaves _ _ _ _ .openF from trivial) (Fs.has_of_look hg)
    · rw [recorded, hclient]
      simp [hflag]
    · rw [cached, disk, hclient]
      exact hcopy
    · simp
  · exfalso
    rw [hpath] at hrun
    obtain ⟨y, u, hopen, hy⟩ : Prog.Yields (Env.exec ⟨P.root_path, c.junk⟩)
      (Client.afsOpen c.junk (slash :: (name ++ slash :: rest)) (P.cache_path c.client) fh)
      (w.state c.client c.now [] []) fun r _ => r.1 = -EBADF := afsOpen_nested rfl hdir hname
    rw [Op.prog, Prog.run_bind, hopen] at hrun
    obtain rfl := Option.some.inj (Prod.mk.inj hrun).1
    rw [hy] at hzero
    cases hzero

/-- A release of an open session leaves the bytes of all changes at both sides exactly when one of
them left the flag, or the server had these bytes already. -/
theorem Editing.release (h : w.Editing P i p g b marked) (hp : RootLevel p) {k : Nat}
    (hi : c.client = i) (hpath : c.path = p) (hop : c.op = .release k) (hq : c.Quiet)
    (hk : w.handle c ≠ none) (hshort : ∀ b ∈ w.cached P i p, b.length < 2 ^ 31) :
    ∃ r w', w.perform P c = some (some r, w') ∧
      (w'.WrittenBack P i p b ↔ if marked = true then p ≠ databasePath else g = b) := by
  subst hi hpath
  obtain ⟨fh, hfh⟩ := Option.ne_none_iff_exists'.mp hk
  obtain ⟨a, hcached, hcopy⟩ := h.copy
  obtain ⟨f, hlook, rfl⟩ := Option.map_eq_some_iff.mp hcached
  have hcalm : Calm (w.state c.client c.now [] []) := h.mounted.calm c.client c.now
  have hdir : FlatDir (P.cache_path c.client) (w.state c.client c.now [] []).disk :=
    (h.mounted.cacheDir c.client).toFlatDir
  obtain ⟨x, hx, hxb⟩ := h.served.look
  have hserved : (w.state c.client c.now [] []).server.fs.look
      (getServerPath c.path (Env.mk P.root_path c.junk).root_path) = some x := hx
  have hends : ∀ r t, (Client.afsRelease c.junk c.path (P.cache_path c.client) fh).run
      (Env.exec ⟨P.root_path, c.junk⟩) (w.state c.client c.now [] []) = (some r, t) →
      ∃ a w', w.perform P c = some (some a, w') ∧
        w'.served P c.path = t.server.fs.look (getServerPath c.path P.root_path) ∧
        w'.cached P c.client c.path = t.copy c.path (P.cache_path c.client) := by
    intro r t hrun
    have hprog : ((Op.release k).prog c.junk c.path (P.cache_path c.client) fh).run
        (Env.exec ⟨P.root_path, c.junk⟩) (w.state c.client c.now [] []) =
          (some { ret := r }, t) := by
      rw [Op.prog, Prog.run_bind, hrun]
      rfl
    rw [← hop] at hprog
    obtain ⟨w', hperf, hclient, hserver⟩ := perform_of_run h.up hfh
      (by rw [hq.faults, hq.net, hprog])
    exact ⟨_, w', hperf, by rw [World.served, hserver], by rw [World.cached, disk, hclient]; rfl⟩
  cases marked with
  | true =>
      have hflag : (w.state c.client c.now [] []).client.ht.get c.path = modifiedFlag :=
        h.flag.mpr rfl
      have hparent : (w.state c.client c.now [] []).server.fs.look
          (getServerPath c.path (Env.mk P.root_path c.junk).root_path) = none →
          (w.state c.client c.now [] []).server.fs.isDir
            (parent (getServerPath c.path (Env.mk P.root_path c.junk).root_path)) = true := by
        intro hn
        rw [hserved] at hn
        cases hn
      have hsends : Prog.Yields (Env.exec ⟨P.root_path, c.junk⟩)
          (Client.afsRelease c.junk c.path (P.cache_path c.client) fh)
          (w.state c.client c.now [] []) _ := afsRelease_modified hcalm hdir hflag hlook
            (hshort _ hcached) (Fs.isDir_of_look hserved) hparent
      have hdumps : Prog.Yields (Env.exec ⟨P.root_path, c.junk⟩)
          (Client.afsRelease c.junk c.path (P.cache_path c.client) fh)
          (w.state c.client c.now [] []) _ := afsRelease_dumps hcalm hdir hflag hlook
            (hshort _ hcached) (Fs.isDir_of_look hserved) hparent
      obtain ⟨r, t, hrun, he, ht, y, hst, hyb, -⟩ := hsends
      have htext := hdumps.of_run hrun
      obtain ⟨a, w', hperf, hs', hc'⟩ := hends r t hrun
      refine ⟨a, w', hperf, ?_⟩
      have hsent : (w'.served P c.path).map (·.bytes) = some f.bytes := by
        rw [hs', hst.look, Function.update_self, Option.map_some, hyb]
      rw [if_pos rfl]
      by_cases hdb : c.path = databasePath
      · rw [if_pos ⟨hdb, rfl⟩] at hcopy
        obtain ⟨j, m, hcut⟩ := hcopy
        refine iff_of_false (fun hboth => ?_) (not_not.mpr hdb)
        have hsame := hboth.cached
        rw [hc', St.copy, ← hboth.served, hsent, hcut, hdb, htext, ht, hdb] at hsame
        refine dumpText_put_ne_cut (h.mounted.regular c.client) ?_ ?_ j m (Option.some.inj hsame)
        · rw [← hdb]
          exact fun hm => absurd (hflag.symm.trans hm) (by decide)
        · rw [← hdb]
          exact fun hm => time_ne_modifiedFlag _ (hm.symm.trans hflag)
      · rw [if_neg (fun hn => hdb hn.1)] at hcopy
        subst hcopy
        refine iff_of_true ⟨hsent, ?_⟩ hdb
        have hne := getLocalPath_ne_database hdb (P.cache_path c.client)
        rw [hc', St.copy, he.disk.look _ (List.not_mem_cons_of_ne_of_not_mem hne List.not_mem_nil)]
        exact hcached
  | false =>
      have hflag : (w.state c.client c.now [] []).client.ht.get c.path ≠ modifiedFlag := by
        intro hm
        exact Bool.false_ne_true (h.flag.mp hm)
      obtain ⟨r, t, hrun, -, he, -, hsv⟩ : Prog.Yields (Env.exec ⟨P.root_path, c.junk⟩)
        (Client.afsRelease c.junk c.path (P.cache_path c.client) fh)
        (w.state c.client c.now [] []) _ := afsRelease_clean hcalm hflag
      obtain ⟨a, w', hperf, hs', hc'⟩ := hends r t hrun
      refine ⟨a, w', hperf, ?_⟩
      simp only [Bool.false_eq_true, and_false, if_false] at hcopy ⊢
      subst hcopy hxb
      have hkept : w'.served P c.path = some x := by
        rw [hs', hsv]
        exact hx
      constructor
      · intro hboth
        have hsame := hboth.served
        rw [hkept] at hsame
        exact Option.some.inj hsame
      · intro hsame
        refine ⟨by rw [hkept, Option.map_some, hsame], ?_⟩
        rw [hc', St.copy, he.disk.look _ List.not_mem_nil]
        exact hcached

/-- The bytes that changes make of a file, in order. -/
def edited (b : Bytes) (cs : List (Call ι)) : Bytes := cs.foldl (fun b c => c.op.edit b) b

/-- The changes of a session are at the server and in the copy after its release exactly when one of
them was a write of some bytes, of a file other than the database file, or nothing needed to be
sent. -/
theorem session_written_back_iff (h : w.Mounted P) {o : Call ι} (ho : o.op = .openF)
    (hoq : o.Quiet) (hp : UserPath o.path) {x : File} (hg : w.served P o.path = some x) {r : Result}
    {w₁ w₂ : World ι} (hopen : w.perform P o = some (some r, w₁)) (hzero : r.ret = 0)
    {cs : List (Call ι)} (hedits : Run (World.call P) (Edit P o.client o.path) w₁ cs w₂) {k : Nat}
    (hi : c.client = o.client) (hpath : c.path = o.path) (hop : c.op = .release k) (hq : c.Quiet)
    (hk : w₂.handle c ≠ none)
    (hshort : ∀ b ∈ w₂.cached P o.client o.path, b.length < 2 ^ 31) :
    ∃ b r' w₃, w₁.cached P o.client o.path = some b ∧
      w₂.perform P c = some (some r', w₃) ∧
      (w₃.WrittenBack P o.client o.path (edited b cs) ↔
        if cs.any (fun c => c.op.marks) = true then o.path ≠ databasePath
        else x.bytes = edited b cs) := by
  obtain ⟨hroot, b, hstart⟩ := editing_of_open h ho hoq hp hg hopen hzero
  obtain ⟨a, hcached, hab⟩ := hstart.copy
  rw [if_neg (fun hn => Bool.false_ne_true hn.2)] at hab
  subst hab
  have hend : w₂.Editing P o.client o.path x.bytes (edited a cs)
      (cs.any fun c => c.op.marks) := by
    refine hedits.invariant_past (fun cs w => w.Editing P o.client o.path x.bytes (edited a cs)
      (cs.any fun c => c.op.marks)) hstart ?_
    intro cs v c u _ hv hc hs
    have hnext := hv.edit hroot hc hs
    simpa only [edited, List.foldl_append, List.foldl_cons, List.foldl_nil, List.any_append,
      List.any_cons, List.any_nil, Bool.or_false] using hnext
  obtain ⟨r', w₃, hperf, hiff⟩ := hend.release hroot hi hpath hop hq hk hshort
  exact ⟨a, r', w₃, hcached, hperf, hiff⟩

/-- The open of the sample system's file and the given changes, if all of it is possible. -/
def sampleEdits (ops : List Op) : Option ((Option Result × World (Bool)) × World (Bool)) :=
  (sampleBoot.perform sample (sampleCall false 1 .openF [])).bind fun x =>
    ((ops.map fun op => sampleCall false 2 op []).foldlM (fun (w : World (Bool)) (c : Call (Bool)) =>
      if w.Edit sample false sampleFile c then w.call sample c else none) x.2).map fun w => (x, w)

private theorem exists_of_sampleEdits {ops : List Op}
    {test : (Option Result × World (Bool)) × World (Bool) → Bool}
    (h : (sampleEdits ops).any test = true) :
    ∃ x w₁ w₂, sampleBoot.perform sample (sampleCall false 1 .openF []) = some (x, w₁) ∧
      Run (World.call sample) (Edit sample false sampleFile) w₁
        (ops.map fun op => sampleCall false 2 op []) w₂ ∧ test ((x, w₁), w₂) = true := by
  obtain ⟨y, hy, ht⟩ := (Option.any_eq_true _ _).mp h
  obtain ⟨⟨x, w₁⟩, hopen, hrest⟩ := Option.bind_eq_some_iff.mp hy
  obtain ⟨w₂, hfold, rfl⟩ := Option.map_eq_some_iff.mp hrest
  exact ⟨x, w₁, w₂, hopen, Run.of_foldlM hfold, ht⟩

/-- A write and a truncation to another length. -/
theorem session_written_back_sample :
    ∃ (w₂ w₃ : World (Bool)) (r : Result), sampleBoot.Mounted sample ∧
      w₂.perform sample (sampleCall false 3 (.release 0) []) = some (some r, w₃) ∧
      w₃.WrittenBack sample false sampleFile [7, 0, 0] := by
  have hboot : sampleBoot.Mounted sample := ⟨_, [], Run.nil⟩
  have hrun : (sampleEdits [.write 0 [7] 0, .truncate 3]).any (fun y =>
      decide (y.1.1.map (·.ret) = some 0 ∧ y.1.2.cached sample false sampleFile = some [1] ∧
        (y.2.handle (sampleCall false 3 (.release 0) [])).isSome = true ∧
        y.2.cached sample false sampleFile = some [7, 0, 0])) = true := by
    decide +kernel
  obtain ⟨x, w₁, w₂, hopen, hedits, htest⟩ := exists_of_sampleEdits hrun
  obtain ⟨hret, hfirst, hk, hcached⟩ := of_decide_eq_true htest
  obtain ⟨r, rfl, hzero⟩ := Option.map_eq_some_iff.mp hret
  obtain ⟨b, r', w₃, hb, hperf, hiff⟩ := session_written_back_iff hboot rfl ⟨rfl, rfl⟩
    rootLevel_sampleFile.userPath rfl hopen hzero hedits (c := sampleCall false 3 (.release 0) [])
    rfl rfl rfl ⟨rfl, rfl⟩ (Option.isSome_iff_ne_none.mp hk) (by
      intro b hb
      obtain rfl := Option.some.inj (hcached.symm.trans hb)
      decide)
  obtain rfl := Option.some.inj (hfirst.symm.trans hb)
  exact ⟨w₂, w₃, r', hboot, hperf, hiff.mpr (by decide)⟩

/-- A truncation alone never reaches the server. -/
theorem truncation_stays_local :
    ∃ (w₁ w₂ w₃ : World (Bool)) (r r' : Result), sampleBoot.Mounted sample ∧
      sampleBoot.perform sample (sampleCall false 1 .openF []) = some (some r, w₁) ∧ r.ret = 0 ∧
      w₁.cached sample false sampleFile = some [1] ∧
      Run (World.call sample) (Edit sample false sampleFile) w₁
        [sampleCall false 2 (.truncate 0) []] w₂ ∧
      w₂.perform sample (sampleCall false 3 (.release 0) []) = some (some r', w₃) ∧
      w₃.cached sample false sampleFile = some [] ∧
      (w₃.served sample sampleFile).map (·.bytes) = some [1] ∧
      ¬ w₃.WrittenBack sample false sampleFile
        (edited [1] [sampleCall false 2 (.truncate 0) []]) := by
  have hrun : (sampleEdits [.truncate 0]).any (fun y =>
      decide (y.1.1.map (·.ret) = some 0 ∧ y.1.2.cached sample false sampleFile = some [1] ∧
        ((y.2.perform sample (sampleCall false 3 (.release 0) [])).any fun z =>
          decide (z.1.isSome = true ∧ z.2.cached sample false sampleFile = some [] ∧
            (z.2.served sample sampleFile).map (·.bytes) = some [1])) = true)) = true := by
    decide +kernel
  obtain ⟨x, w₁, w₂, hopen, hedits, htest⟩ := exists_of_sampleEdits hrun
  obtain ⟨hret, hfirst, hlast⟩ := of_decide_eq_true htest
  obtain ⟨r, rfl, hzero⟩ := Option.map_eq_some_iff.mp hret
  obtain ⟨⟨z, w₃⟩, hperf, hz⟩ := (Option.any_eq_true _ _).mp hlast
  obtain ⟨hsome, hcached, hserved⟩ := of_decide_eq_true hz
  obtain ⟨r', rfl⟩ := Option.isSome_iff_exists.mp hsome
  refine ⟨w₁, w₂, w₃, r, r', ⟨_, [], Run.nil⟩, hopen, hzero, hfirst, hedits, hperf, hcached,
    hserved, fun hboth => ?_⟩
  have hsame := hboth.served.symm.trans hserved
  exact absurd (Option.some.inj hsame) (by decide)

end World

end Afs
