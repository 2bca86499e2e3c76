import Afs.Ops.ClientOps
import Afs.Model.System

/-!
# One file between a client and the server

An operation without failures acts on three values: the server's file, the client's copy and the
client's record of the file's time. `Copies.next` says how; the theorem here is that the programs
do exactly this, and touch nothing of any other file.
-/

namespace Afs

open Posix Interaction

/-- A file as one client and the server see it. -/
structure Copies where
  /-- The server's bytes and their modification time. -/
  served : Option (Bytes × Timespec)
  /-- The client's cached bytes. -/
  cached : Option Bytes
  /-- The value in the client's table. -/
  recorded : Int64
  deriving DecidableEq

namespace Copies

variable (c : Copies)

/-- Whether an open fetches: there is no copy, or the nanosecond part at the server is greater than
the recorded value. -/
def stale : Bool :=
  match c.cached, c.served with
  | some _, some (_, t) => decide ((t.tv_nsec : Int) > c.recorded.toInt)
  | _, _ => true

/-- After a fetch. -/
def fetched : Copies :=
  match c.served with
  | none => c
  | some (b, t) => { c with cached := some b, recorded := Int64.ofNat t.tv_nsec }

/-- After a store at the time `now`. -/
def stored (now : Timespec) : Copies :=
  { c with served := c.cached.map (·, now), recorded := Int64.ofNat now.tv_nsec }

/-- After an operation without failures, at the server's time `now`. -/
def next (now : Timespec) : Op → Copies
  | .create => ⟨some ([], now), some [], Int64.ofNat now.tv_nsec⟩
  | .openF => if c.stale then c.fetched else c
  | .write _ buffer offset =>
    if buffer = [] then c
    else { c with cached := c.cached.map (overwrite · offset buffer), recorded := modifiedFlag }
  | .release _ => if c.recorded = modifiedFlag then c.stored now else c
  | .unlink => { c with served := none, cached := none }
  | _ => c

/-- When the operation meets what it expects: files that are there or not, and no file grows to two
gigabytes. -/
def Fits : Op → Prop
  | .create => c.served = none ∧ c.cached = none
  | .openF | .getattr => c.served ≠ none
  | .read .. | .release _ => c.cached ≠ none
  | .write _ buffer offset => c.cached ≠ none ∧ offset + buffer.length < 2 ^ 31
  | .fsync _ | .unlink => True
  | _ => False

/-- What the operation hands back. -/
def Answers (r : Result) : Op → Prop
  | .create | .openF => r.ret = 0
  | .read _ size offset =>
    ∀ b, c.cached = some b → r.data = slice b offset size ∧ r.ret = (slice b offset size).length
  | .write _ buffer _ => r.ret = buffer.length
  | _ => True

/-- No copy has two gigabytes. -/
structure Short : Prop where
  /-- The server's. -/
  served : ∀ b t, c.served = some (b, t) → b.length < 2 ^ 31
  /-- The client's. -/
  cached : ∀ b, c.cached = some b → b.length < 2 ^ 31

variable {c}

theorem Short.next (h : c.Short) {op : Op} (hf : c.Fits op) (now : Timespec) :
    (c.next now op).Short := by
  have hfetched : c.fetched.Short := by
    unfold fetched
    split
    · exact h
    · next b t hb => exact ⟨h.served, fun b' hb' => Option.some.inj hb' ▸ h.served b t hb⟩
  cases op with
  | create =>
      refine ⟨?_, ?_⟩
      · rintro b t hb
        obtain ⟨rfl, -⟩ := Prod.mk.inj (Option.some.inj hb)
        decide
      · rintro b hb
        obtain rfl := Option.some.inj hb
        decide
  | openF =>
      simp only [Copies.next]
      split
      · exact hfetched
      · exact h
  | write k buffer offset =>
      simp only [Copies.next]
      split
      · exact h
      · refine ⟨h.served, fun b hb => ?_⟩
        obtain ⟨b', hb', rfl⟩ := Option.map_eq_some_iff.mp hb
        have hlen := length_overwrite_le b' offset buffer
        have hold := h.cached b' hb'
        have hnew := hf.2
        omega
  | release k =>
      simp only [Copies.next]
      split
      · refine ⟨fun b t hb => ?_, h.cached⟩
        obtain ⟨b', hb', he⟩ := Option.map_eq_some_iff.mp hb
        obtain ⟨rfl, -⟩ := Prod.mk.inj he
        exact h.cached b' hb'
      · exact h
  | unlink => exact ⟨fun b t hb => absurd hb (by simp [Copies.next]), fun b hb => absurd hb
      (by simp [Copies.next])⟩
  | _ => exact h

end Copies

/-- The copies of a file in the state of a client program. -/
def St.copies (env : Env) (cache_path p : Path) (s : St) : Copies where
  served := (s.server.fs.look (getServerPath p env.root_path)).map fun f => (f.bytes, f.mtim)
  cached := (s.disk.look (getLocalPath p cache_path)).map (·.bytes)
  recorded := s.client.ht.get p

/-- What an operation on `p` may change, besides the record of `p` itself. -/
structure Touches (env : Env) (cache_path p : Path) (s t : St) : Prop where
  /-- The copy, the temporary file and the database file. -/
  effect : Effect s t [getLocalPath p cache_path, getLocalTmpPath p cache_path,
    getLocalPath databasePath cache_path]
  /-- Records of names with other hashes stay. -/
  table : ∀ q, hashKey q ≠ hashKey p → t.client.ht.get q = s.client.ht.get q
  /-- Every other file of the server stays. -/
  server : s.server.fs.Only t.server.fs [getServerPath p env.root_path]

/-- What the operations need of the surroundings of the file. -/
structure Ready (env : Env) (cache_path p : Path) (s : St) : Prop where
  /-- No failures to come. -/
  calm : Calm s
  /-- The cache directory. -/
  cache : FlatDir cache_path s.disk
  /-- The exported directory. -/
  root : s.server.fs.isDir (base env.root_path) = true
  /-- The server has no directory of that name. -/
  plain : s.server.fs.isDir (getServerPath p env.root_path) = false
  /-- A path directly under the mount point. -/
  level : RootLevel p
  /-- Not the database file. -/
  ne_database : p ≠ databasePath

variable {env : Env} {s t : St} {cache_path p : Path}

theorem Ready.parent_server (h : Ready env cache_path p s) :
    s.server.fs.isDir (parent (getServerPath p env.root_path)) = true := by
  rw [getServerPath_eq h.level, parent_base h.level]
  exact h.root

theorem St.served_eq_some {b : Bytes} {m : Timespec}
    (h : (s.copies env cache_path p).served = some (b, m)) :
    ∃ g, s.server.fs.look (getServerPath p env.root_path) = some g ∧ g.bytes = b ∧ g.mtim = m := by
  obtain ⟨g, hg, he⟩ := Option.map_eq_some_iff.mp h
  exact ⟨g, hg, (Prod.mk.inj he).1, (Prod.mk.inj he).2⟩

theorem St.cached_eq_some {b : Bytes} (h : (s.copies env cache_path p).cached = some b) :
    ∃ f, s.disk.look (getLocalPath p cache_path) = some f ∧ f.bytes = b :=
  Option.map_eq_some_iff.mp h

theorem Touches.of_same {ps : List Path} (he : Effect s t ps)
    (hps : ps ⊆ [getLocalPath p cache_path, getLocalTmpPath p cache_path,
      getLocalPath databasePath cache_path])
    (ht : t.client.ht = s.client.ht)
    (hv : s.server.fs.Only t.server.fs [getServerPath p env.root_path]) :
    Touches env cache_path p s t :=
  ⟨he.mono hps, fun q _ => by rw [ht], hv⟩

theorem Touches.of_put {ps : List Path} {value : Int64} (he : Effect s t ps)
    (hps : ps ⊆ [getLocalPath p cache_path, getLocalTmpPath p cache_path,
      getLocalPath databasePath cache_path])
    (ht : t.client.ht = s.client.ht.put (hashKey p) value)
    (hv : s.server.fs.Only t.server.fs [getServerPath p env.root_path]) :
    Touches env cache_path p s t :=
  ⟨he.mono hps, fun q hq => by rw [ht, HashTable.get_put_of_ne _ hq], hv⟩

/-- Nothing changed but offsets, descriptors and counters. -/
private theorem unchanged (env : Env) (cache_path p : Path) (he : Effect s t []) (ht : t.client.ht = s.client.ht)
    (hv : t.server = s.server) :
    Touches env cache_path p s t ∧ t.copies env cache_path p = s.copies env cache_path p := by
  refine ⟨Touches.of_same he (List.nil_subset _) ht ?_, ?_⟩
  · rw [hv]
    exact Fs.Only.refl _ _
  · simp only [St.copies, hv, ht, he.disk.look _ List.not_mem_nil]

private theorem create_yields {fh : Int} (h : Ready env cache_path p s)
    (hf : (s.copies env cache_path p).Fits .create) :
    Prog.Yields env.exec (Client.afsCreate p cache_path fh) s fun r t =>
      Touches env cache_path p s t ∧ r.1 = 0 ∧
      t.copies env cache_path p = (s.copies env cache_path p).next s.server.fs.clock .create := by
  have hg := Option.map_eq_none_iff.mp hf.1
  have hl := Option.map_eq_none_iff.mp hf.2
  refine (afsCreate_yields h.calm h.cache h.level hg h.plain h.parent_server).mono ?_
  rintro r t ⟨hr, he, ht, hcopy, g, hv, hgb, hgm⟩
  obtain ⟨f, hlf, hfb⟩ := hcopy h.ne_database
  rw [hl, Option.map_none, Option.getD_none] at hfb
  refine ⟨Touches.of_put he (by simp) ht hv.only, hr, ?_⟩
  simp only [St.copies, Copies.next, hlf, hv.look, Function.update_self, ht,
    HashTable.get_put_self, Option.map_some, hfb, hgb, hgm]

private theorem fetched_copies {g : File}
    (hg : s.server.fs.look (getServerPath p env.root_path) = some g)
    (h : Fetched cache_path p g s t) :
    Touches env cache_path p s t ∧
      t.copies env cache_path p = (s.copies env cache_path p).fetched := by
  obtain ⟨he, ht, hv, f, hlf, hfb⟩ := h
  refine ⟨Touches.of_put he (by simp) ht (hv.only_nil.mono (List.nil_subset _)), ?_⟩
  simp only [St.copies, Copies.fetched, hlf, hv.look, ht, HashTable.get_put_self, Option.map_some,
    hfb, hg]

private theorem open_yields {junk : Junk} {fh : Int} (h : Ready env cache_path p s)
    (hs : (s.copies env cache_path p).Short) (hf : (s.copies env cache_path p).Fits .openF) :
    Prog.Yields env.exec (Client.afsOpen junk p cache_path fh) s fun r t =>
      Touches env cache_path p s t ∧ r.1 = 0 ∧
      t.copies env cache_path p = (s.copies env cache_path p).next s.server.fs.clock .openF := by
  obtain ⟨⟨b, m⟩, hserved⟩ := Option.ne_none_iff_exists'.mp hf
  obtain ⟨g, hg, rfl, rfl⟩ := St.served_eq_some hserved
  have hlen := hs.served _ _ hserved
  have hfetch : ∀ {r : Int × Int} {t : St}, (s.copies env cache_path p).stale = true →
      r.1 = 0 ∧ Fetched cache_path p g s t → Touches env cache_path p s t ∧ r.1 = 0 ∧
        t.copies env cache_path p =
          (s.copies env cache_path p).next s.server.fs.clock .openF := by
    rintro r t hst ⟨hr, hft⟩
    obtain ⟨htt, hcc⟩ := fetched_copies hg hft
    exact ⟨htt, hr, by rw [hcc, Copies.next, if_pos hst]⟩
  cases hl : s.disk.look (getLocalPath p cache_path) with
  | none =>
      refine (afsOpen_missing h.calm h.cache h.level h.ne_database hl hg hlen).mono ?_
      refine fun r t => hfetch ?_
      simp only [Copies.stale, St.copies, hl, Option.map_none]
  | some f =>
      have hstale : (s.copies env cache_path p).stale =
          decide ((g.mtim.tv_nsec : Int) > (s.client.ht.get p).toInt) := by
        simp only [Copies.stale, St.copies, hl, hg, Option.map_some]
      by_cases hnew : (g.mtim.tv_nsec : Int) > (s.client.ht.get p).toInt
      · refine (afsOpen_stale h.calm h.cache h.level h.ne_database hl hg hlen hnew).mono ?_
        exact fun r t => hfetch (by rw [hstale, decide_eq_true hnew])
      · refine (afsOpen_keep h.calm hl hg hnew).mono ?_
        rintro r t ⟨hr, he, ht, hv⟩
        obtain ⟨htt, hcc⟩ := unchanged env cache_path p he ht hv
        refine ⟨htt, hr, ?_⟩
        rw [hcc, Copies.next, hstale, decide_eq_false hnew]
        rfl

private theorem write_yields {junk : Junk} {k : Nat} {buffer : Bytes} {offset : Nat}
    (h : Ready env cache_path p s) (hs : (s.copies env cache_path p).Short)
    (hf : (s.copies env cache_path p).Fits (.write k buffer offset)) :
    Prog.Yields env.exec (Client.afsWrite junk p cache_path buffer offset) s fun r t =>
      Touches env cache_path p s t ∧ r = buffer.length ∧
      t.copies env cache_path p =
        (s.copies env cache_path p).next s.server.fs.clock (.write k buffer offset) := by
  by_cases hb : buffer = []
  · subst hb
    refine (afsWrite_nil junk offset).mono ?_
    rintro r t ⟨rfl, rfl⟩
    obtain ⟨htt, hcc⟩ := unchanged env cache_path p
      (Effect.refl h.calm []) rfl rfl
    exact ⟨htt, rfl, by simp only [Copies.next, if_true]⟩
  · obtain ⟨b, hcached⟩ := Option.ne_none_iff_exists'.mp hf.1
    obtain ⟨f, hl, rfl⟩ := St.cached_eq_some hcached
    have hlen := hs.cached _ hcached
    refine (afsWrite_yields junk offset h.calm h.cache h.level h.ne_database hl (by omega) hb).mono ?_
    rintro r t ⟨hr, he, ht, hv, g, hlg, hgb⟩
    refine ⟨Touches.of_put he (List.Subset.refl _) ht ?_, hr, ?_⟩
    · rw [hv]
      exact Fs.Only.refl _ _
    · simp only [St.copies, Copies.next, hb, if_false, hlg, hl, hv, ht, HashTable.get_put_self,
        Option.map_some, hgb, overwrite_of_ne_nil _ _ hb]

private theorem release_yields {junk : Junk} {k : Nat} {fh : Int} (h : Ready env cache_path p s)
    (hs : (s.copies env cache_path p).Short)
    (hf : (s.copies env cache_path p).Fits (.release k)) :
    Prog.Yields env.exec (Client.afsRelease junk p cache_path fh) s fun _ t =>
      Touches env cache_path p s t ∧
      t.copies env cache_path p =
        (s.copies env cache_path p).next s.server.fs.clock (.release k) := by
  obtain ⟨b, hcached⟩ := Option.ne_none_iff_exists'.mp hf
  obtain ⟨f, hl, rfl⟩ := St.cached_eq_some hcached
  by_cases hm : s.client.ht.get p = modifiedFlag
  · refine (afsRelease_modified h.calm h.cache hm hl (hs.cached _ hcached) h.plain
      fun _ => h.parent_server).mono ?_
    rintro r t ⟨he, ht, g, hv, hgb, hgm⟩
    have hne : getLocalPath p cache_path ≠ getLocalPath databasePath cache_path :=
      getLocalPath_ne h.level rootLevel_database h.ne_database cache_path
    refine ⟨Touches.of_put he (by simp) ht hv.only, ?_⟩
    have hl' : t.disk.look (getLocalPath p cache_path) = some f := by
      rw [he.disk.look _ (by simpa using hne), hl]
    simp only [St.copies, Copies.next, Copies.stored, hm, if_true, hl, hl', hv.look,
      Function.update_self, ht, HashTable.get_put_self, Option.map_some, hgb, hgm]
  · refine (afsRelease_clean h.calm hm).mono ?_
    rintro r t ⟨-, he, ht, hv⟩
    obtain ⟨htt, hcc⟩ := unchanged env cache_path p he ht hv
    refine ⟨htt, ?_⟩
    rw [hcc]
    exact (if_neg hm).symm

private theorem unlink_yields (h : Ready env cache_path p s) :
    Prog.Yields env.exec (Client.afsUnlink p cache_path) s fun _ t =>
      Touches env cache_path p s t ∧
      t.copies env cache_path p = (s.copies env cache_path p).next s.server.fs.clock .unlink := by
  refine (afsUnlink_yields h.calm h.cache h.level h.plain).mono ?_
  rintro r t ⟨-, he, ht, hl, hv⟩
  refine ⟨Touches.of_same he (by simp) ht hv.only, ?_⟩
  simp only [St.copies, Copies.next, hl, hv.look, Function.update_self, ht, Option.map_none]

/-- Every operation in its scope does to the copies what `Copies.next` says, hands back what is
expected, and touches nothing of any other file. -/
theorem Op.prog_yields (junk : Junk) (fh : Int) {op : Op} (h : Ready env cache_path p s)
    (hs : (s.copies env cache_path p).Short) (hf : (s.copies env cache_path p).Fits op) :
    Prog.Yields env.exec (op.prog junk p cache_path fh) s fun r t =>
      Touches env cache_path p s t ∧
      t.copies env cache_path p = (s.copies env cache_path p).next s.server.fs.clock op ∧
      (s.copies env cache_path p).Answers r op := by
  cases op with
  | create =>
      refine (create_yields h hf).bind ?_
      rintro ⟨r, fh'⟩ t ⟨htt, hr, hcc⟩
      exact Prog.Yields.ret ⟨htt, hcc, hr⟩
  | openF =>
      refine (open_yields h hs hf).bind ?_
      rintro ⟨r, fh'⟩ t ⟨htt, hr, hcc⟩
      exact Prog.Yields.ret ⟨htt, hcc, hr⟩
  | read k size offset =>
      obtain ⟨b, hcached⟩ := Option.ne_none_iff_exists'.mp hf
      obtain ⟨f, hl, rfl⟩ := St.cached_eq_some hcached
      refine (afsRead_yields size offset h.calm hl).bind ?_
      rintro ⟨r, d⟩ t ⟨hr, he, ht, hv⟩
      obtain ⟨rfl, rfl⟩ := Prod.mk.inj hr
      obtain ⟨htt, hcc⟩ := unchanged env cache_path p he ht hv
      refine Prog.Yields.ret ⟨htt, hcc, fun b hb => ?_⟩
      obtain rfl := Option.some.inj (hcached.symm.trans hb)
      exact ⟨rfl, rfl⟩
  | write k buffer offset =>
      refine (write_yields h hs hf).bind ?_
      rintro r t ⟨htt, hr, hcc⟩
      exact Prog.Yields.ret ⟨htt, hcc, hr⟩
  | release k =>
      refine (release_yields h hs hf).bind ?_
      rintro r t ⟨htt, hcc⟩
      exact Prog.Yields.ret ⟨htt, hcc, trivial⟩
  | fsync k =>
      refine (afsFsync_yields h.calm).bind ?_
      rintro r t ⟨he, ht, hv⟩
      obtain ⟨htt, hcc⟩ := unchanged env cache_path p he ht hv
      exact Prog.Yields.ret ⟨htt, hcc, trivial⟩
  | getattr =>
      obtain ⟨⟨b, m⟩, hserved⟩ := Option.ne_none_iff_exists'.mp hf
      obtain ⟨g, hg, rfl, rfl⟩ := St.served_eq_some hserved
      refine (afsGetattr_yields h.calm hg).bind ?_
      rintro ⟨r, attr⟩ t ⟨-, -, rfl⟩
      obtain ⟨htt, hcc⟩ := unchanged env cache_path p (s := s)
        (t := s.reset) ⟨Fs.Only.refl _ _, h.calm.reset, rfl⟩ rfl rfl
      exact Prog.Yields.ret ⟨htt, hcc, trivial⟩
  | unlink =>
      refine (unlink_yields h).bind ?_
      rintro r t ⟨htt, hcc⟩
      exact Prog.Yields.ret ⟨htt, hcc, trivial⟩
  | _ => exact absurd hf not_false

end Afs
