import Afs.Bounds.Attributes
import Afs.Consistency.Truncation
import Afs.Isolation.Others

/-!
# Reported attributes

`GETATTR` asks the server. A write, a truncation, a change of the owner and a change of the times act
on the copy, and a release stamps the server's file with the time of the release. The attributes that
a client reports agree with what it reads and with what it set as long as the steps that act on the
copy change nothing that `GETATTR` reports.
-/

namespace Afs

open Posix Interaction Transition

/-- What calls on a path set last. -/
structure Settings where
  /-- By `CHMOD`. -/
  mode : Option UInt32 := none
  /-- By `CHOWN`. -/
  owner : Option (Nat × Nat) := none
  /-- By `UTIMENS`. -/
  mtime : Option Timespec := none

/-- The settings after one more call that succeeded. -/
def Settings.after (set : Settings) : Op → Settings
  | .chmod mode => { set with mode := some mode }
  | .chown uid gid => { set with owner := some (uid, gid) }
  | .utimens _ mtime => { set with mtime := some mtime }
  | _ => set

/-- The server's file has what was set, and the copy has its length. -/
structure Settings.Shown (set : Settings) (g : File) (copy : Option Bytes) : Prop where
  size : ∀ b ∈ copy, b.length = g.bytes.length
  bound : g.bytes.length < 2 ^ 63
  mode : ∀ m ∈ set.mode, g.mode % 4096 = m.toNat % 4096
  owner : ∀ o ∈ set.owner, (g.uid, g.gid) = o ∧ g.uid < 2 ^ 32 ∧ g.gid < 2 ^ 32
  mtime : ∀ t ∈ set.mtime, t = .ofSec g.mtim.tv_nsec

/-- The condition on an operation on the path itself: a fetched or stored file is below two gigabytes,
a write stays inside the copy, a truncation keeps its length, and what is set is what the server's
file has. -/
def Op.Agrees (g : File) (copy : Option Bytes) (recorded : Int64) (set : Settings) (now : Timespec) :
    Op → Prop
  | .openF => g.bytes.length < 2 ^ 31
  | .write _ buffer offset => buffer ≠ [] → ∃ b ∈ copy, offset + buffer.length ≤ b.length
  | .truncate size => 0 ≤ size → ∀ b ∈ copy, size = b.length
  | .chown uid gid => copy ≠ none → (g.uid, g.gid) = (uid, gid) ∧ uid < 2 ^ 32 ∧ gid < 2 ^ 32
  | .utimens _ mtime => copy ≠ none → mtime = .ofSec g.mtim.tv_nsec
  | .release _ => recorded = modifiedFlag →
      (∃ b ∈ copy, b.length < 2 ^ 31) ∧ ∀ t ∈ set.mtime, t = .ofSec now.tv_nsec
  | _ => True

/-- The operation may record a value in the table. -/
def Op.Records : Op → Prop
  | .openF | .release _ => True
  | .write _ buffer _ => buffer ≠ []
  | _ => False

instance : (op : Op) → Decidable op.Alters
  | .openF | .write .. | .release _ | .truncate _ | .chmod _ | .chown .. | .utimens .. => .isTrue trivial
  | .create | .read .. | .fsync _ | .getattr | .unlink | .mkdir _ | .rmdir | .readdir =>
    .isFalse not_false

instance : (op : Op) → Decidable op.Records
  | .openF | .release _ => .isTrue trivial
  | .write _ buffer _ => inferInstanceAs (Decidable (buffer ≠ []))
  | .create | .read .. | .fsync _ | .getattr | .truncate _ | .chmod _ | .chown .. | .utimens .. | .unlink
  | .mkdir _ | .rmdir | .readdir => .isFalse not_false

instance (g : File) (copy : Option Bytes) (recorded : Int64) (set : Settings) (now : Timespec)
    (op : Op) : Decidable (op.Agrees g copy recorded set now) := by
  cases op <;> unfold Op.Agrees <;> infer_instance

section Programs

variable {env : Env} {junk : Junk} {p q dir : Path} {s : St} {g : File} {fh : Int}

/-- A read without a copy fails. -/
theorem afsRead_missing (size offset : Nat) (hf : s.client.proc.faults = [])
    (hl : s.disk.look (getLocalPath p dir) = none) (hd : s.disk.isDir (getLocalPath p dir) = false)
    (ht : s.disk.isDir (trimmed (getLocalPath p dir)) = false) :
    Prog.Yields env.exec (Client.afsRead p dir size offset) s fun r _ => r.1 < 0 := by
  have hpos := s.disk.absent_pos (getLocalPath p dir)
  have hopen : Sys.perform none (.openF (getLocalPath p dir) {} 0) s.disk =
      .error (s.disk.absent (getLocalPath p dir)) := Fs.openFile_missing hl hd {} rfl 0
  have hstat : ∀ u : St, u.disk = s.disk → Sys.perform none (.lstat (getLocalPath p dir)) u.disk =
      .error (s.disk.absent (getLocalPath p dir)) := by
    intro u hu
    simp only [Sys.perform, hu, Fs.lstat_missing hl hd ht, Except.map]
  generalize s.disk.absent (getLocalPath p dir) = e at hpos hopen hstat
  unfold Client.afsRead
  refine Env.yields_sys_error hf (hstat s rfl) ?_
  refine Env.yields_sys_error (s := s.withErrno e) hf hopen ?_
  have hpread : Sys.perform none (.pread (-1) size offset) s.disk = .error EBADF := rfl
  refine Env.yields_sys_error (s := (s.withErrno e).withErrno e) hf hpread ?_
  refine Env.yields_sys_error (s := ((s.withErrno e).withErrno e).withErrno EBADF) hf (hstat _ rfl) ?_
  exact Prog.Yields.call (r := e) (t := (((s.withErrno e).withErrno e).withErrno EBADF).withErrno e) rfl
    (Prog.Yields.ret (Int.neg_neg_of_pos hpos))

/-- What `GETATTR` reports of a file of the server. -/
theorem afsGetattr_reports (stats : Stat) (hc : Calm s)
    (hg : s.server.fs.look (getServerPath p env.root_path) = some g) :
    ∃ i, Prog.Yields env.exec (Client.afsGetattr p stats) s fun r _ =>
      r = (0, Client.statOfReply (Server.getattrRes (g.stat i))) := by
  obtain ⟨i, hst⟩ := Fs.lstat_of_look hg
  have hstat : ProcCmd.exec (.sys (.lstat (getServerPath p env.root_path))) s.server =
      (some (g.stat i), s.server) :=
    Sys.exec_ok hc.server (by simp only [Sys.perform, hst]; rfl)
  have hhandler : Prog.Yields ProcCmd.exec
      (Server.handle env.junk env.root_path (.getattr p)) s.server fun m t =>
        m = { reply := Server.getattrRes (g.stat i) } ∧ t = s.server :=
    ⟨_, _, Server.run_afsGetattr hstat, rfl, rfl⟩
  obtain ⟨m, t, ⟨rfl, rfl⟩, he⟩ := Env.exec_retried hc hhandler
    fun m t hm => ⟨by rw [hm.1], by rw [hm.2]; exact hc.server⟩
  exact ⟨i, _, _, Client.run_afsGetattr he rfl, rfl⟩

/-- Changing the attributes under the name of a file, or of nothing. -/
private theorem chattr_bytes {fs : Fs} {l : Path} (hd : fs.isDir l = false)
    (ht : fs.isDir (trimmed l) = false) (attr : Attr → Attr) :
    (fs.look l = none ∧ fs.chattr l attr = .error (fs.absent l)) ∨
      fs.look l ≠ none ∧ ∃ t, fs.chattr l attr = .ok (0, t) ∧
        (t.look l).map (·.bytes) = (fs.look l).map (·.bytes) := by
  cases hl : fs.look l with
  | none =>
      refine Or.inl ⟨rfl, ?_⟩
      simp only [Fs.chattr, Fs.tree_eq_none hl hd, ht, Bool.false_eq_true, if_false]
  | some f =>
      obtain ⟨i, hi, rfl⟩ := Fs.look_eq_some.mp hl
      have hcall : fs.chattr l attr = .ok (0, fs.setNode i
          { fs.altered attr (fs.node i).toAttr with bytes := (fs.node i).bytes }) := by
        simp only [Fs.chattr, hi]
      refine Or.inr ⟨Option.some_ne_none _, _, hcall, ?_⟩
      rw [Fs.look_setNode hi, Function.update_self]
      rfl

section Own

variable {set : Settings}

/-- An operation that changes no settings, or fails. -/
private theorem Settings.Shown.keep {b c : Option Bytes} (h : set.Shown g b)
    (hs : ∀ x ∈ c, x.length = g.bytes.length) : set.Shown g c :=
  ⟨hs, h.bound, h.mode, h.owner, h.mtime⟩

private theorem openF_shown (h : set.Shown g (s.copy p dir)) (hc : Calm s) (hl : FlatDir dir s.disk)
    (hdb : p ≠ databasePath) (hg : s.server.fs.look (getServerPath p env.root_path) = some g)
    (hlen : g.bytes.length < 2 ^ 31) :
    Prog.Yields env.exec (Op.openF.prog junk p dir fh) s fun _ t => set.Shown g (t.copy p dir) := by
  refine (afsOpen_opened hc.client hl).bind ?_
  rintro r t ho
  refine Prog.Yields.ret (h.keep ?_)
  have hiff := St.opened_current_iff hc hg hlen ho
  by_cases hf : s.Fetches env junk p dir
  · rw [if_pos hf] at hiff
    rw [(hiff.mpr hdb).2]
    rintro b ⟨rfl⟩
    rfl
  · have hlook := (ho.kept hf).2.2
    rw [St.copy, hlook]
    exact h.size

private theorem write_shown {k offset : Nat} {buffer : Bytes} (h : set.Shown g (s.copy p dir))
    (hf : s.client.proc.faults = []) (hl : CacheDir dir s.disk) (hp : UserPath p)
    (hdb : buffer ≠ [] → p ≠ databasePath)
    (hin : buffer ≠ [] → ∃ b ∈ s.copy p dir, offset + buffer.length ≤ b.length) :
    Prog.Yields env.exec ((Op.write k buffer offset).prog junk p dir fh) s fun _ t =>
      set.Shown g (t.copy p dir) := by
  by_cases hb : buffer = []
  · subst hb
    refine (afsWrite_nil junk offset).bind ?_
    rintro r t ⟨-, rfl⟩
    exact Prog.Yields.ret h
  · obtain ⟨b, hcopy, hle⟩ := hin hb
    obtain ⟨f, hlook, rfl⟩ := Option.map_eq_some_iff.mp hcopy
    have hroot : RootLevel p := by
      rcases hp.cases with hroot | ⟨name, rest, hname, rfl⟩
      · exact hroot
      · rw [(hl.nested hname rest).1] at hlook
        cases hlook
    have hsize := h.size _ hcopy
    have hlen : f.bytes.length < 2 ^ 64 := by
      have := h.bound
      omega
    refine (afsWrite_local hb hf hl hroot hlook hlen).bind ?_
    rintro r t ⟨-, hafter⟩
    refine Prog.Yields.ret (h.keep ?_)
    rw [St.copy, hafter, if_neg (hdb hb)]
    rintro c ⟨rfl⟩
    have hmax := length_overwrite_le f.bytes offset buffer
    have hmin := (le_length_overwrite f.bytes offset buffer).1
    omega

private theorem afsTruncate_copy {n : Int} (hf : s.client.proc.faults = [])
    (hd : s.disk.isDir (getLocalPath p dir) = false)
    (hn : 0 ≤ n → ∀ b ∈ s.copy p dir, n = b.length) :
    Prog.Yields env.exec (Client.afsTruncate p dir n) s fun _ t =>
      (t.copy p dir).map List.length = (s.copy p dir).map List.length := by
  by_cases hneg : n < 0
  · have he : Sys.perform none (.truncate (getLocalPath p dir) n) s.disk = .error EINVAL := by
      simp only [Sys.perform, Fs.truncate, hneg, if_true]
    exact Env.yields_sys_error hf he (Prog.Yields.call (r := EINVAL) (t := s.withErrno EINVAL) rfl
      (Prog.Yields.ret rfl))
  · cases hl : s.disk.look (getLocalPath p dir) with
    | none =>
        have he : Sys.perform none (.truncate (getLocalPath p dir) n) s.disk =
            .error (s.disk.absent (getLocalPath p dir)) := by
          simp only [Sys.perform, Fs.truncate, hneg, if_false, Fs.tree_eq_none hl hd]
        exact Env.yields_sys_error hf he (Prog.Yields.call (r := s.disk.absent (getLocalPath p dir))
          (t := s.withErrno (s.disk.absent (getLocalPath p dir))) rfl (Prog.Yields.ret rfl))
    | some f =>
        have hsize := hn (by omega) f.bytes (by rw [St.copy, hl]; rfl)
        refine (afsTruncate_yields hf hl (by omega)).mono ?_
        rintro r t ⟨-, -, x, hx, hb⟩
        simp only [St.copy, hx, hl, Option.map_some, hb, resize, List.length_append,
          List.length_take, List.length_replicate, Option.some.injEq]
        omega

private theorem afsChown_copy (hf : s.client.proc.faults = [])
    (hd : s.disk.isDir (getLocalPath p dir) = false)
    (hd' : s.disk.isDir (trimmed (getLocalPath p dir)) = false) (uid gid : Nat) :
    Prog.Yields env.exec (Client.afsChown p dir uid gid) s fun r t =>
      t.copy p dir = s.copy p dir ∧ (r = 0 → s.copy p dir ≠ none) := by
  have hpos := s.disk.absent_pos (getLocalPath p dir)
  rcases chattr_bytes hd hd' fun a => { a with uid := uid, gid := gid } with
    ⟨-, he⟩ | ⟨hcopy, t, ht, hbytes⟩
  · refine Env.yields_sys_error (c := .lchown (getLocalPath p dir) uid gid) hf he ?_
    refine Prog.Yields.call (r := s.disk.absent (getLocalPath p dir))
      (t := s.withErrno (s.disk.absent (getLocalPath p dir))) rfl (Prog.Yields.ret ⟨rfl, ?_⟩)
    exact fun h => absurd h (by omega)
  · refine Env.yields_sys (c := .lchown (getLocalPath p dir) uid gid) hf ht ?_
    exact Prog.Yields.ret ⟨hbytes, fun _ hn => hcopy (Option.map_eq_none_iff.mp hn)⟩

private theorem afsUtimens_copy (hf : s.client.proc.faults = [])
    (hd : s.disk.isDir (getLocalPath p dir) = false)
    (hd' : s.disk.isDir (trimmed (getLocalPath p dir)) = false) (atime mtime : Timespec) :
    Prog.Yields env.exec (Client.afsUtimens p dir atime mtime) s fun r t =>
      t.copy p dir = s.copy p dir ∧ (r = 0 → s.copy p dir ≠ none) := by
  have hpos := s.disk.absent_pos (getLocalPath p dir)
  rcases chattr_bytes hd hd' fun a => { a with atime := atime.tv_sec, mtim := mtime } with
    ⟨-, he⟩ | ⟨hcopy, t, ht, hbytes⟩
  · refine Env.yields_sys_error (c := .utimens (getLocalPath p dir) atime mtime) hf he ?_
    refine Prog.Yields.call (r := s.disk.absent (getLocalPath p dir))
      (t := s.withErrno (s.disk.absent (getLocalPath p dir))) rfl (Prog.Yields.ret ⟨rfl, ?_⟩)
    exact fun h => absurd h (by omega)
  · refine Env.yields_sys (c := .utimens (getLocalPath p dir) atime mtime) hf ht ?_
    exact Prog.Yields.ret ⟨hbytes, fun _ hn => hcopy (Option.map_eq_none_iff.mp hn)⟩

/-- A change of the permission bits reaches the server, whether there is a copy or not. -/
private theorem afsChmod_shown (h : set.Shown g (s.copy p dir)) (hc : Calm s)
    (hd : s.disk.isDir (getLocalPath p dir) = false)
    (hd' : s.disk.isDir (trimmed (getLocalPath p dir)) = false)
    (hg : s.server.fs.look (getServerPath p env.root_path) = some g) (mode : UInt32) :
    Prog.Yields env.exec (Client.afsChmod p dir mode) s fun r t => r = 0 ∧ ∃ g',
      t.server.fs.look (getServerPath p env.root_path) = some g' ∧
        (set.after (.chmod mode)).Shown g' (t.copy p dir) := by
  have hrest : ∀ u : St, Calm u → u.server = s.server → u.copy p dir = s.copy p dir →
      Prog.Yields env.exec (Client.rpc (.chmod p mode) >>= fun status =>
        pure (Client.errorOf status)) u fun r t => r = 0 ∧ ∃ g',
          t.server.fs.look (getServerPath p env.root_path) = some g' ∧
            (set.after (.chmod mode)).Shown g' (t.copy p dir) := by
    intro u hu hserver hcopy
    refine Env.yields_rpc hu (Server.afsChmod_yields env.root_path hu.server (by rw [hserver, hg]) mode)
      (fun m t hm => ⟨hm.2.1, hm.1⟩) ?_
    rintro m v ⟨-, -, hv⟩
    refine Prog.Yields.ret ⟨rfl, _, by rw [St.withServer, hv.look, Function.update_self], ?_⟩
    have hcopy' : (u.withServer v).copy p dir = s.copy p dir := hcopy
    rw [hcopy']
    refine ⟨h.size, h.bound, ?_, h.owner, h.mtime⟩
    rintro m ⟨rfl⟩
    exact Nat.mul_add_mod_of_lt (Nat.mod_lt _ (by decide))
  unfold Client.afsChmod
  rcases chattr_bytes hd hd' fun a => { a with mode := a.mode / 4096 * 4096 + mode.toNat % 4096 } with
    ⟨-, he⟩ | ⟨-, t, ht, hbytes⟩
  · exact Env.yields_sys_error (c := .chmod (getLocalPath p dir) mode.toNat) hc.client he
      (hrest _ (hc.withErrno _) rfl rfl)
  · exact Env.yields_sys (c := .chmod (getLocalPath p dir) mode.toNat) hc.client ht
      (hrest _ (hc.withDisk t) rfl hbytes)

/-- A release stores the copy, or does nothing. -/
private theorem afsRelease_shown {k : Nat} {now : Timespec} (h : set.Shown g (s.copy p dir))
    (hc : Calm s) (hl : FlatDir dir s.disk) (hdb : p ≠ databasePath)
    (hg : s.server.fs.look (getServerPath p env.root_path) = some g)
    (hnow : s.server.fs.clock = now)
    (ha : (Op.release k).Agrees g (s.copy p dir) (s.client.ht.get p) set now) :
    Prog.Yields env.exec (Client.afsRelease junk p dir fh) s fun _ t => ∃ g',
      t.server.fs.look (getServerPath p env.root_path) = some g' ∧ set.Shown g' (t.copy p dir) := by
  by_cases hm : s.client.ht.get p = modifiedFlag
  · obtain ⟨⟨b, hcopy, hshort⟩, htime⟩ := ha hm
    obtain ⟨f, hlook, rfl⟩ := Option.map_eq_some_iff.mp hcopy
    have hsize := h.size _ hcopy
    have hstore := Server.afsStore_stamps env.junk env.root_path (.whole p f.bytes) hc.server
      (StoreReq.toInt_whole hshort) hg
    refine (afsRelease_of_store hc hl hm hlook hshort hstore fun m v hm => ⟨hm.2.1, hm.1⟩).mono ?_
    rintro r t ⟨m, v, ⟨-, -, hv⟩, rfl, he, -⟩
    refine ⟨_, by rw [hv.look]; exact Function.update_self .., ?_⟩
    have hkept : t.copy p dir = s.copy p dir := by
      rw [St.copy, he.disk.look _ (List.not_mem_cons_of_ne_of_not_mem
        (getLocalPath_ne_database hdb dir) List.not_mem_nil), St.copy]
    rw [hkept]
    refine ⟨?_, hsize ▸ h.bound, h.mode, h.owner, ?_⟩
    · intro c hcc
      obtain rfl := Option.some.inj (hcopy.symm.trans hcc)
      rfl
    · intro t ht
      rw [htime t ht, ← hnow]
      rfl
  · refine (afsRelease_clean hc hm).mono ?_
    rintro r t ⟨-, he, -, hs⟩
    refine ⟨g, by rw [hs, hg], ?_⟩
    rw [St.copy, he.disk.look _ List.not_mem_nil]
    exact h

/-- An operation on the path itself that meets its condition. -/
theorem Op.own_shown {op : Op} {now : Timespec} (hop : op.Alters)
    (h : set.Shown g (s.copy p dir)) (hc : Calm s) (hl : CacheDir dir s.disk) (hp : UserPath p)
    (hdb : op.Records → p ≠ databasePath)
    (hg : s.server.fs.look (getServerPath p env.root_path) = some g)
    (hnow : s.server.fs.clock = now)
    (ha : op.Agrees g (s.copy p dir) (s.client.ht.get p) set now) :
    Prog.Yields env.exec (op.prog junk p dir fh) s fun r t => ∃ g',
      t.server.fs.look (getServerPath p env.root_path) = some g' ∧
        (if r.ret = 0 then set.after op else set).Shown g' (t.copy p dir) := by
  obtain ⟨hd, hd'⟩ := hl.toFlatDir.isDir_user hp
  have hsame : ¬ ((∃ k, op = .release k) ∨ ∃ m, op = .chmod m) →
      Prog.Yields env.exec (op.prog junk p dir fh) s (fun r t =>
        (if r.ret = 0 then set.after op else set).Shown g (t.copy p dir)) →
      Prog.Yields env.exec (op.prog junk p dir fh) s fun r t => ∃ g',
        t.server.fs.look (getServerPath p env.root_path) = some g' ∧
          (if r.ret = 0 then set.after op else set).Shown g' (t.copy p dir) := by
    rintro hne ⟨r, t, hrun, hshown⟩
    have hserved : ((op.prog junk p dir fh).run env.exec s).2.server.fs.look
        (getServerPath p env.root_path) = s.server.fs.look (getServerPath p env.root_path) :=
      Op.run_served hop fun ho => absurd ho hne
    rw [hrun] at hserved
    exact ⟨r, t, hrun, g, hserved.trans hg, hshown⟩
  cases op with
  | openF =>
      refine hsame (by simp) ?_
      refine (openF_shown h hc hl.toFlatDir (hdb trivial) hg ha).mono fun r t ht => ?_
      simpa only [Settings.after, ite_self] using ht
  | write k buffer offset =>
      refine hsame (by simp) ?_
      refine (write_shown h hc.client hl hp hdb ha).mono fun r t ht => ?_
      simpa only [Settings.after, ite_self] using ht
  | truncate n =>
      refine hsame (by simp) ?_
      refine (afsTruncate_copy hc.client hd ha).bind ?_
      intro r t hlen
      refine Prog.Yields.ret ?_
      simp only [Settings.after, ite_self]
      refine h.keep fun b hb => ?_
      rw [Option.mem_def.mp hb, Option.map_some, eq_comm, Option.map_eq_some_iff] at hlen
      obtain ⟨b', hb', hlen⟩ := hlen
      rw [← hlen]
      exact h.size b' hb'
  | chown uid gid =>
      refine hsame (by simp) ?_
      refine (afsChown_copy hc.client hd hd' uid gid).bind ?_
      rintro r t ⟨hcopy, hret⟩
      refine Prog.Yields.ret ?_
      rw [hcopy]
      split
      · next hr =>
        obtain ⟨howner, huid, hgid⟩ := ha (hret hr)
        obtain ⟨rfl, rfl⟩ := Prod.mk.inj howner
        refine ⟨h.size, h.bound, h.mode, ?_, h.mtime⟩
        rintro o ⟨rfl⟩
        exact ⟨rfl, huid, hgid⟩
      · exact h
  | utimens atime mtime =>
      refine hsame (by simp) ?_
      refine (afsUtimens_copy hc.client hd hd' atime mtime).bind ?_
      rintro r t ⟨hcopy, hret⟩
      refine Prog.Yields.ret ?_
      rw [hcopy]
      split
      · next hr =>
        refine ⟨h.size, h.bound, h.mode, h.owner, ?_⟩
        rintro x ⟨rfl⟩
        exact ha (hret hr)
      · exact h
  | chmod mode =>
      refine (afsChmod_shown h hc hd hd' hg mode).bind ?_
      rintro r t ⟨rfl, g', hg', hshown⟩
      exact Prog.Yields.ret ⟨g', hg', hshown⟩
  | release k =>
      refine (afsRelease_shown h hc hl.toFlatDir (hdb trivial) hg hnow ha).bind ?_
      rintro r t ⟨g', hg', hshown⟩
      refine Prog.Yields.ret ⟨g', hg', ?_⟩
      simpa only [Settings.after, ite_self] using hshown
  | create | read | fsync | getattr | unlink | mkdir | rmdir | readdir => exact hop.elim

/-- An operation on another path of the server leaves the copy, or takes it away: it is a write then
whose temporary file has the name of the copy. -/
theorem Op.other_copy {op : Op} (hop : op.Alters) (hf : s.client.proc.faults = [])
    (hl : CacheDir dir s.disk) (hne : getLocalPath q dir ≠ getLocalPath p dir)
    (hq : ∃ rest, q = slash :: rest) (hdb : op.Records → p ≠ databasePath) :
    ((op.prog junk q dir fh).run env.exec s).2.copy p dir = s.copy p dir ∨
      ((op.prog junk q dir fh).run env.exec s).2.copy p dir = none := by
  have hdata : op.Records → getLocalPath databasePath dir ≠ getLocalPath p dir := fun h =>
    Ne.symm (getLocalPath_ne_database (hdb h) dir)
  have haside : (op.prog junk q dir fh).Uses (Cmd.Aside (getLocalPath p dir)) →
      ((op.prog junk q dir fh).run env.exec s).2.copy p dir = s.copy p dir := by
    intro huses
    have hsame := huses.invariant (m := env.exec)
      (I := fun t : St => Fs.Same (getLocalPath p dir) s.disk t.disk)
      (fun c t hc ht => ht.trans (env.exec_same hc t)) (Fs.Same.refl _ s.disk)
    exact congrArg (Option.map _) hsame.look
  cases op with
  | openF =>
      have hprog : Op.openF.prog junk q dir fh =
        (Client.afsOpen junk q dir fh >>= fun r => .ret { ret := r.1, fh := r.2 }) := rfl
      obtain ⟨r, t, hrun, hlook⟩ : Prog.Yields env.exec (Client.afsOpen junk q dir fh) s
        fun _ t => t.disk.look (getLocalPath p dir) = s.disk.look (getLocalPath p dir) :=
          afsOpen_look hf hl.toFlatDir (hdata trivial) hne
      rw [hprog, Prog.run_bind_ret, hrun]
      exact Or.inl (congrArg (Option.map _) hlook)
  | write k buffer offset =>
      have hprog : (Op.write k buffer offset).prog junk q dir fh =
        (Client.afsWrite junk q dir buffer offset >>= fun ret => .ret { ret }) := rfl
      by_cases hb : buffer = []
      · subst hb
        obtain ⟨r, t, hrun, -, rfl⟩ : Prog.Yields env.exec
          (Client.afsWrite junk q dir [] offset) s fun r t => r = 0 ∧ t = s := afsWrite_nil junk offset
        rw [hprog, Prog.run_bind_ret, hrun]
        exact Or.inl rfl
      · by_cases htmp : getLocalTmpPath q dir = getLocalPath p dir
        · obtain ⟨rest, rfl⟩ := hq
          rw [hprog, Prog.run_bind_ret, St.copy, ← htmp, afsWrite_frees_tmp hf hl hb]
          exact Or.inr rfl
        · cases hcopy : s.copy p dir with
          | none =>
              have htree : (((Op.write k buffer offset).prog junk q dir fh).run
                env.exec s).2.disk.tree (getLocalPath p dir) = s.disk.tree (getLocalPath p dir) :=
                  Op.run_tree hne htmp (hdata hb) s
              have hlook := Fs.look_eq_none.mp (Option.map_eq_none_iff.mp hcopy)
              rw [← htree] at hlook
              exact Or.inr (congrArg (Option.map _) (Fs.look_eq_none.mpr hlook))
          | some b =>
              rw [hprog, Prog.run_bind_ret]
              exact Or.inl (Fs.has_iff.mp (afsWrite_has (Ne.symm hne) (Ne.symm htmp)
                (Ne.symm (hdata hb)) (Fs.has_iff.mpr hcopy)))
  | release k =>
      have hprog : (Op.release k).prog junk q dir fh =
        (Client.afsRelease junk q dir fh >>= fun ret => .ret { ret }) := rfl
      rw [hprog, Prog.run_bind_ret]
      exact Or.inl (congrArg (Option.map _) (afsRelease_same (hdata trivial) hne s).look)
  | truncate n | chown uid gid | utimens a b =>
      refine Or.inl (haside (Prog.Uses.bind (Prog.Uses.call ⟨hne, trivial⟩ fun res => ?_)
        fun _ => trivial))
      split
      · exact Prog.Uses.call trivial fun _ => trivial
      · trivial
  | chmod mode =>
      exact Or.inl (haside (Prog.Uses.bind (Prog.Uses.call ⟨hne, trivial⟩ fun _ =>
        Prog.Uses.call trivial fun _ => trivial) fun _ => trivial))
  | create | read | fsync | getattr | unlink | mkdir | rmdir | readdir => exact hop.elim

end Own

end Programs

namespace World

variable {ι : Type} [DecidableEq ι] {P : Params ι} {w w₀ : World ι} {i : ι} {p : Path}
  {set : Settings} {c : Call ι}

/-- An operation, while the settings of `p` are followed. -/
def follow (P : Params ι) (p : Path) (x : World ι × Settings) (c : Call ι) :
    Option (World ι × Settings) :=
  (x.1.perform P c).map fun y =>
    (y.2, if c.path = p ∧ y.1.map (·.ret) = some 0 then x.2.after c.op else x.2)

/-- An operation of client `i` on some file, during which nothing fails. -/
structure Lone (i : ι) (c : Call ι) : Prop where
  client : c.client = i
  absolute : ∃ rest, c.path = slash :: rest
  quiet : c.Quiet
  alters : c.op.Alters

/-- Such an operation that leaves what `GETATTR` reports of `p` in agreement: a record in the table
does not change the file, the path is `p` or another one of the server, and for `p` the condition of
the operation is met. -/
structure Harmless (P : Params ι) (i : ι) (p : Path) (x : World ι × Settings) (c : Call ι) :
    Prop extends Lone i c where
  table : c.op.Records → p ≠ databasePath
  other : c.path ≠ p → getServerPath c.path P.root_path ≠ getServerPath p P.root_path
  own : c.path = p → ∀ g ∈ x.1.served P p,
    c.op.Agrees g (x.1.cached P i p) (x.1.recorded i p) x.2 c.now

instance (c : Call ι) : Decidable (Lone i c) :=
  decidable_of_iff (c.client = i ∧ c.path.head? = some slash ∧ c.Quiet ∧ c.op.Alters)
    ⟨fun ⟨hi, ha, hq, hop⟩ => ⟨hi, List.head?_eq_some_iff.mp ha, hq, hop⟩,
      fun h => ⟨h.client, List.head?_eq_some_iff.mpr h.absolute, h.quiet, h.alters⟩⟩

instance (x : World ι × Settings) (c : Call ι) : Decidable (Harmless P i p x c) :=
  decidable_of_iff (Lone i c ∧ (c.op.Records → p ≠ databasePath) ∧
      (c.path ≠ p → getServerPath c.path P.root_path ≠ getServerPath p P.root_path) ∧
      (c.path = p → ∀ g ∈ x.1.served P p,
        c.op.Agrees g (x.1.cached P i p) (x.1.recorded i p) x.2 c.now))
    ⟨fun ⟨hl, ht, ho, hw⟩ => ⟨hl, ht, ho, hw⟩, fun h => ⟨h.toLone, h.table, h.other, h.own⟩⟩

/-- The attributes agree with every read of the client, and with what was set. -/
structure Reported (P : Params ι) (w : World ι) (i : ι) (p : Path) (set : Settings) (stats : Stat) :
    Prop where
  size : ∀ now junk n offset r t,
    (Client.afsRead p (P.cache_path i) n offset).run (Env.exec ⟨P.root_path, junk⟩)
      (w.state i now [] []) = (some r, t) → 0 ≤ r.1 →
        r.2.length = min n (stats.st_size.toNat - offset)
  mode : ∀ m ∈ set.mode, stats.st_mode % 4096 = m.toNat % 4096
  owner : ∀ o ∈ set.owner, stats.st_uid = o.1 ∧ stats.st_gid = o.2
  mtime : ∀ t ∈ set.mtime, stats.st_mtim = t

/-- While nothing fails, `GETATTR` of `p` succeeds at client `i` and agrees with it. -/
def AttributesAgree (P : Params ι) (w : World ι) (i : ι) (p : Path) (set : Settings) : Prop :=
  ∀ now junk, ∃ stats t,
    (Client.afsGetattr p junk.stats).run (Env.exec ⟨P.root_path, junk⟩) (w.state i now [] []) =
      (some (0, stats), t) ∧ w.Reported P i p set stats

/-- The server's file shows what was set, and the copy has its length. -/
structure Shown (P : Params ι) (i : ι) (p : Path) (x : World ι × Settings) : Prop where
  mounted : x.1.Mounted P
  file : ∃ g, x.1.served P p = some g ∧ x.2.Shown g (x.1.cached P i p)

/-- An operation keeps this. -/
theorem Shown.follow {x y : World ι × Settings} (h : Shown P i p x) (hp : UserPath p)
    (hc : Harmless P i p x c) (hs : World.follow P p x c = some y) : Shown P i p y := by
  obtain ⟨w, set⟩ := x
  obtain ⟨⟨a, w'⟩, hperf, rfl⟩ := Option.map_eq_some_iff.mp hs
  obtain ⟨g, hg, hshown⟩ := h.file
  have hm' : w'.Mounted P := h.mounted.perform hc.absolute hperf
  obtain ⟨fh, t, -, hrun, hclient, hserver, -⟩ := perform_run hperf
  obtain rfl := hc.client
  rw [hc.quiet.faults, hc.quiet.net] at hrun
  have hcalm := h.mounted.calm c.client c.now
  have hdir : CacheDir (P.cache_path c.client) (w.state c.client c.now [] []).disk :=
    h.mounted.cacheDir c.client
  have hserved : (w.state c.client c.now [] []).server.fs.look
    (getServerPath p (Env.mk P.root_path c.junk).root_path) = some g := hg
  have hafter : w'.served P p = t.server.fs.look (getServerPath p P.root_path) ∧
      w'.cached P c.client p = t.copy p (P.cache_path c.client) := by
    constructor
    · rw [served, hserver]
    · rw [cached, disk, hclient, St.copy]
  refine ⟨hm', ?_⟩
  by_cases hpath : c.path = p
  · subst hpath
    obtain ⟨r, u, hrun', g', hg', hshown'⟩ : Prog.Yields (Env.exec ⟨P.root_path, c.junk⟩)
      (c.op.prog c.junk c.path (P.cache_path c.client) fh) (w.state c.client c.now [] []) _ :=
        Op.own_shown hc.alters hshown hcalm hdir hp hc.table hserved rfl (hc.own rfl g hg)
    obtain ⟨rfl, rfl⟩ := Prod.mk.inj (hrun.symm.trans hrun')
    refine ⟨g', hafter.1.trans hg', ?_⟩
    rw [hafter.2]
    simpa only [Option.map_some, Option.some.injEq, true_and] using hshown'
  · simp only [hpath, false_and, if_false]
    have hstate : _ = t := congrArg Prod.snd hrun
    have hne : getLocalPath c.path (P.cache_path c.client) ≠ getLocalPath p (P.cache_path c.client) :=
      fun he => hc.other hpath (by
        rw [getServerPath, getServerPath, CString.take_str, List.append_cancel_left he, CString.take_str])
    refine ⟨g, ?_, ?_⟩
    · rw [hafter.1, ← hstate]
      exact (Op.run_served hc.alters fun _ => hc.other hpath).trans hg
    · have hcopy : t.copy p (P.cache_path c.client) = w.cached P c.client p ∨
          t.copy p (P.cache_path c.client) = none := by
        rw [← hstate]
        exact Op.other_copy hc.alters rfl hdir hne hc.absolute hc.table
      rw [hafter.2]
      rcases hcopy with he | he
      · rw [he]
        exact hshown
      · rw [he]
        exact hshown.keep fun b hb => by cases hb

/-- Where it holds, the attributes agree. -/
theorem Shown.agree (h : Shown P i p (w, set)) (hp : UserPath p) : w.AttributesAgree P i p set := by
  obtain ⟨g, hg, hshown⟩ := h.file
  intro now junk
  have hcalm := h.mounted.calm i now
  have hserved : (w.state i now [] []).server.fs.look
    (getServerPath p (Env.mk P.root_path junk).root_path) = some g := hg
  obtain ⟨j, r, t, hrun, rfl⟩ := afsGetattr_reports junk.stats hcalm hserved
  refine ⟨_, t, hrun, ?_, ?_, ?_, ?_⟩
  · intro now junk n offset r t hread hret
    have hsize : (Client.statOfReply (Server.getattrRes (g.stat j))).st_size.toNat =
        g.bytes.length := by
      change (Int64.ofInt (g.bytes.length : Int)).toInt.toNat = _
      have := hshown.bound
      rw [Int64.toInt_ofInt_of_le (by omega) (by omega), Int.toNat_natCast]
    have hcalm := h.mounted.calm i now
    cases hl : (w.disk i).look (getLocalPath p (P.cache_path i)) with
    | none =>
        obtain ⟨hd, hd'⟩ := (h.mounted.cacheDir i).toFlatDir.isDir_user hp
        have hfail : r.1 < 0 := (afsRead_missing n offset hcalm.client hl hd hd').of_run hread
        exact absurd hret (Int.not_le.mpr hfail)
    | some f =>
        obtain ⟨rfl, -⟩ := (afsRead_yields n offset hcalm hl).of_run hread
        have hcached : w.cached P i p = some f.bytes := by rw [cached, hl, Option.map_some]
        rw [hsize, ← hshown.size _ hcached]
        simp only [slice, List.length_take, List.length_drop]
  · intro m hm
    have hmode : (Client.statOfReply (Server.getattrRes (g.stat j))).st_mode =
        ((g.mode % 2 ^ 32 : Nat) : Int) := by
      change ((Int32.ofInt (g.mode : Int)).toUInt32.toNat : Int) = _
      rw [Int32.ofInt_eq_ofNat, Int32.toUInt32_ofNat', UInt32.toNat_ofNat']
    have := hshown.mode m hm
    rw [hmode]
    omega
  · intro o ho
    obtain ⟨rfl, huid, hgid⟩ := hshown.owner o ho
    exact ⟨Int.ofNat_inj.mpr ((Widths.uint32_ofInt_eq_iff _).mpr huid),
      Int.ofNat_inj.mpr ((Widths.uint32_ofInt_eq_iff _).mpr hgid)⟩
  · intro m hm
    rw [hshown.mtime m hm]
    change Timespec.ofSec (Int32.ofNat g.mtim.tv_nsec).toInt = _
    rw [toInt_mtime]

/-- In runs of harmless operations of one client the reported attributes agree with what it reads and
with what it set. -/
theorem attributes_agree (h : w₀.Mounted P) (hp : UserPath p) {x : File}
    (hx : w₀.served P p = some x) (hlen : x.bytes.length < 2 ^ 63)
    (hcopy : ∀ b ∈ w₀.cached P i p, b.length = x.bytes.length) {cs : List (Call ι)}
    (hr : Run (World.follow P p) (Harmless P i p) (w₀, {}) cs (w, set)) :
    w.AttributesAgree P i p set := by
  have hstart : Shown P i p (w₀, {}) := by
    refine ⟨h, x, hx, hcopy, hlen, ?_, ?_, ?_⟩
    · rintro m ⟨⟩
    · rintro o ⟨⟩
    · rintro t ⟨⟩
  have hend : Shown P i p (w, set) := hr.invariant (fun x => Shown P i p x) hstart
    fun x c y hx hc hs => hx.follow hp hc hs
  exact hend.agree hp

/-- Operations on the sample system's file, where the given condition allows them. -/
def sampleFollowed (ok : World (Bool) × Settings → Call (Bool) → Prop) [∀ x c, Decidable (ok x c)]
    (ops : List Op) : Option (World (Bool) × Settings) :=
  (ops.map fun op => sampleCall false 1 op []).foldlM
    (fun (x : World (Bool) × Settings) (c : Call (Bool)) =>
      if ok x c then World.follow sample sampleFile x c else none) (sampleBoot, {})

/-- A write inside of the file and a change of its permission bits. -/
theorem attributes_agree_sample :
    ∃ (w : World (Bool)) (set : Settings), set.mode = some 0o640 ∧
      w.AttributesAgree sample false sampleFile set := by
  have hrun : (sampleFollowed (Harmless sample false sampleFile)
      [.openF, .write 0 [7] 0, .chmod 0o640, .release 0]).any
        (fun x => decide (x.2.mode = some 0o640)) = true := by
    decide +kernel
  obtain ⟨⟨w, set⟩, hfold, hmode⟩ := (Option.any_eq_true _ _).mp hrun
  refine ⟨w, set, of_decide_eq_true hmode, ?_⟩
  have hserved : sampleBoot.served sample sampleFile = some _ := rfl
  exact attributes_agree ⟨_, [], Run.nil⟩ rootLevel_sampleFile.userPath hserved (by decide)
    (by intro b hb; cases hb) (Run.of_foldlM hfold)

/-- An append: the attributes still have the old length, which a read exceeds. -/
theorem attributes_disagree :
    ∃ (w : World (Bool)) (set : Settings), sampleBoot.Mounted sample ∧
      Run (World.follow sample sampleFile) (fun _ c => Lone false c) (sampleBoot, {})
        [sampleCall false 1 .openF [], sampleCall false 1 (.write 0 [7] 1) []] (w, set) ∧
      ¬ w.AttributesAgree sample false sampleFile set := by
  have hrun : (sampleFollowed (fun _ c => Lone false c) [.openF, .write 0 [7] 1]).any (fun x =>
      decide (((Client.afsGetattr sampleFile Junk.zero.stats).run (Env.exec ⟨cstr "/srv", .zero⟩)
          (x.1.state false (sampleTime 2 0) [] [])).1.map (fun r => r.2.st_size) = some 1 ∧
        ((Client.afsRead sampleFile (sample.cache_path false) 9 0).run
          (Env.exec ⟨cstr "/srv", .zero⟩) (x.1.state false (sampleTime 2 0) [] [])).1 =
            some (2, [1, 7]))) = true := by
    decide +kernel
  obtain ⟨⟨w, set⟩, hfold, htest⟩ := (Option.any_eq_true _ _).mp hrun
  obtain ⟨hattr, hread⟩ := of_decide_eq_true htest
  refine ⟨w, set, ⟨_, [], Run.nil⟩, Run.of_foldlM hfold, fun h => ?_⟩
  obtain ⟨stats, t, hget, hreported⟩ := h (sampleTime 2 0) .zero
  have hsize : stats.st_size = 1 := by
    have hsame := congrArg (fun x => x.1.map fun r => r.2.st_size) hget
    exact Option.some.inj (hsame.symm.trans hattr)
  have hlength := hreported.size (sampleTime 2 0) .zero 9 0 _ _ (Prod.ext hread rfl) (by decide)
  rw [hsize] at hlength
  exact absurd hlength (by decide)

end World

end Afs
