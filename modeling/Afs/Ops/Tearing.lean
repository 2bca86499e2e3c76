import Afs.Ops.Filling

/-!
# A write that is cut off

When the process ends in the middle of a write, the disk keeps what the calls so far have made of it.
Up to the temporary file nothing else has changed. Then the copy is gone, then it has the new bytes,
then the file of the table is empty, and at last that file has the flag.
-/

namespace Afs

open Posix Interaction

/-- What is carried out of a command in which the process dies: of a write, `flushed` bytes. The standard
library hands the text of the table to the kernel in pieces. -/
def Cmd.cut (flushed : Nat) : Cmd → Option Cmd
  | .sys (.write fd mem _) => some (.sys (.write fd (mem.take flushed) (mem.take flushed).length))
  | _ => none

/-- What a name stands for when a write was stopped behind its first `n` commands: the copy goes with the
tenth and is back with the eleventh, the table's file is emptied by the thirteenth and written by the
fifteenth. -/
def Client.torn (copy database : Path) (before : Path → Option Bytes) (new text : Bytes)
    (n flushed : Nat) (q : Path) : Option Bytes :=
  if q = database ∧ 13 ≤ n then
    some (if n = 13 then [] else if n = 14 then text.take flushed else text)
  else if q = copy ∧ 10 ≤ n then (if n = 10 then none else some new)
  else before q

section Stages

variable {copy database : Path} {before : Path → Option Bytes} {new text : Bytes} {n flushed : Nat}
  {q : Path}

theorem torn_of_lt_ten (h : n < 10) :
    Client.torn copy database before new text n flushed q = before q := by
  have h13 : ¬ 13 ≤ n := by omega
  have h10 : ¬ 10 ≤ n := by omega
  simp only [Client.torn, h13, h10, and_false, if_false]

theorem torn_ten : Client.torn copy database before new text 10 flushed q =
    if q = copy then none else before q := by
  simp [Client.torn]

theorem torn_of_lt_thirteen (h : 10 < n) (hn : n < 13) :
    Client.torn copy database before new text n flushed q =
      if q = copy then some new else before q := by
  have h13 : ¬ 13 ≤ n := by omega
  have h10 : 10 ≤ n := by omega
  have hne : n ≠ 10 := by omega
  simp only [Client.torn, h13, h10, hne, and_false, and_true, if_false]

theorem torn_of_thirteen_le (h : 13 ≤ n) :
    Client.torn copy database before new text n flushed q =
      if q = database then
        some (if n = 13 then [] else if n = 14 then text.take flushed else text)
      else if q = copy then some new else before q := by
  have h10 : 10 ≤ n := by omega
  have hne : n ≠ 10 := by omega
  simp only [Client.torn, h, h10, hne, and_true, if_false]

end Stages

section Torn

variable {env : Env} {junk : Junk} {p dir : Path} {buffer : Bytes} {offset flushed : Nat} {s : St}
  {f : File}

/-- The process is stopped before a command of which no part is carried out, or behind it. -/
private theorem yields_first {α : Type} {c : Cmd} {k : c.Res → Prog clientSig α} {n : Nat}
    (Q : Nat → St → Prop) (hc : c.cut flushed = none) (h0 : Q 0 s)
    (h : ∀ m, Prog.Yields env.exec
      (Prog.call (σ := clientSig) c >>= fun r => Prog.first (Cmd.cut flushed) m (k r)) s
        fun _ t => Q (m + 1) t) :
    Prog.Yields env.exec (Prog.first (Cmd.cut flushed) n (Prog.call (σ := clientSig) c >>= k)) s
      fun _ t => Q n t := by
  cases n with
  | zero =>
      rw [Prog.first_call_zero hc]
      exact Prog.Yields.ret h0
  | succ n =>
      rw [Prog.first_call_succ]
      exact h n

/-- The process is stopped in a write, or behind it. -/
private theorem yields_first_write {α : Type} {fd : Int} {mem : Bytes} {count : Nat}
    {k : Int → Prog clientSig α} {n : Nat} (Q : Nat → St → Prop)
    (h0 : Prog.Yields env.exec (Client.sys (.write fd (mem.take flushed) (mem.take flushed).length) >>=
      fun _ => .ret ()) s fun _ t => Q 0 t)
    (h : ∀ m, Prog.Yields env.exec
      (Client.sys (.write fd mem count) >>= fun r => Prog.first (Cmd.cut flushed) m (k r)) s
        fun _ t => Q (m + 1) t) :
    Prog.Yields env.exec (Prog.first (Cmd.cut flushed) n (Client.sys (.write fd mem count) >>= k)) s
      fun _ t => Q n t := by
  cases n with
  | zero =>
      have hcut : (Cmd.sys (.write fd mem count)).cut flushed =
          some (.sys (.write fd (mem.take flushed) (mem.take flushed).length)) := rfl
      rw [Prog.first_call_cut hcut]
      exact h0
  | succ n =>
      rw [Prog.first_call_succ]
      exact h n

/-- Every name but the one of the temporary file stands for what it did. -/
structure St.OnlyTmp (p dir : Path) (s v : St) : Prop where
  isDir : v.disk.isDir = s.disk.isDir
  look : ∀ q, q ≠ getLocalTmpPath p dir → v.disk.look q = s.disk.look q

/-- So it is while the temporary file is filled. -/
theorem fillTmp_first (hf : s.client.proc.faults = [])
    (hl : s.disk.look (getLocalPath p dir) = some f)
    (htmp : s.disk.isDir (getLocalTmpPath p dir) = false)
    (hpar : s.disk.isDir (parent (getLocalTmpPath p dir)) = true)
    (hne : getLocalPath p dir ≠ getLocalTmpPath p dir) (n : Nat) :
    Prog.Yields env.exec
      (Prog.first (Cmd.cut flushed) n (Client.fillTmp junk p dir buffer offset)) s
        fun _ v => s.OnlyTmp p dir v := by
  have hreal : ∀ f ∈ ([] : List Fault), f.Real := nofun
  have hstart : Midway [] 0 False s.disk.isDir s.disk.look s := ⟨hf, rfl, rfl, False.elim⟩
  have hmid : ∀ {k E x v}, Midway [] k E s.disk.isDir
      (Function.update s.disk.look (getLocalTmpPath p dir) (some x)) v → s.OnlyTmp p dir v := by
    intro k E x v h
    refine ⟨h.isDir, fun q hq => ?_⟩
    rw [h.look, Function.update_of_ne hq]
  have hgo : ∀ {α : Type} {c : Cmd} {k : c.Res → Prog clientSig α} {n : Nat} {u : St},
      c.cut flushed = none → s.OnlyTmp p dir u →
      (∀ m, Prog.Yields env.exec
        (Prog.call (σ := clientSig) c >>= fun r => Prog.first (Cmd.cut flushed) m (k r)) u
          fun _ v => s.OnlyTmp p dir v) →
      Prog.Yields env.exec (Prog.first (Cmd.cut flushed) n (Prog.call (σ := clientSig) c >>= k)) u
        fun _ v => s.OnlyTmp p dir v :=
    fun hc h0 h => yields_first (fun _ v => s.OnlyTmp p dir v) hc h0 h
  simp only [Client.fillTmp, Client.copyToTmp, Prog.bind_assoc]
  refine hgo rfl ⟨rfl, fun q _ => rfl⟩ fun n => ?_
  obtain ⟨fd, t, x, ho, -, hfd, hs, hb, -, -⟩ :=
    Fs.openFile_trunc htmp (fun _ => hpar) { creat := true, trunc := true } rfl rfl S_IRWXUG
  refine hstart.call_ok (r := (fd : Int)) ho fun u hu h => ?_
  rw [hs.isDir, hs.look] at h
  rw [← hu] at hfd
  have hl' : Function.update s.disk.look (getLocalTmpPath p dir) (some x) (getLocalPath p dir) =
      some f := by
    rw [Function.update_of_ne hne, hl]
  refine hgo rfl (hmid h) fun n => ?_
  refine h.call_lstat hreal hl' fun res v1 hres hv1 h1 => ?_
  rw [← hv1] at hfd
  refine hgo rfl (hmid h1) fun n => ?_
  refine h1.call_openOld hreal hl' hfd fun g v2 hne' hg hfd2 h2 => ?_
  refine hgo rfl (hmid h2) fun n => ?_
  refine h2.call_readOld hreal hl' hfd2 hne' hg fun v3 hfd3 h3 => ?_
  refine yields_first_write (fun _ v => s.OnlyTmp p dir v) ?_ fun n => ?_
  · refine h3.call_writeTmp hreal (Function.update_self ..) hb hfd3 rfl fun r v4 y off _ _ h4 => ?_
    rw [Function.update_idem] at h4
    exact Prog.Yields.ret (hmid h4)
  refine h3.call_writeTmp hreal (Function.update_self ..) hb hfd3 (length_filled junk _)
    fun r v4 y off hfd4 hy h4 => ?_
  rw [Function.update_idem] at h4
  refine hgo rfl (hmid h4) fun n => ?_
  refine h4.call_leaves hreal hfd4 (Or.inr ⟨g, hne', rfl⟩) fun _ v5 h5 hfd5 => ?_
  rw [Prog.pure_eq, Prog.ret_bind]
  refine hgo rfl (hmid h5) fun n => ?_
  refine h5.call_pwriteTmp hreal (Function.update_self ..) hfd5 fun rc v6 z hfd6 hz h6 => ?_
  rw [Function.update_idem] at h6
  refine hgo rfl (hmid h6) fun n => ?_
  refine h6.call_leaves hreal hfd6 (Or.inl rfl) fun _ v7 h7 hfd7 => ?_
  refine hgo rfl (hmid h7) fun n => ?_
  refine h7.call_idle hreal (by trivial) fun _ v8 h8 => ?_
  cases n <;> exact Prog.Yields.ret (hmid h8)

/-- The rest of a write after the temporary file is filled. -/
def Client.switch (path cache_path : Path) (ret_code : Int) : Prog clientSig Int := do
  Client.replaceCopy path cache_path
  Client.record path cache_path modifiedFlag
  if ret_code = -1 then
    let e ← Client.errno
    return -e
  return ret_code

/-- What the names stand for when a write was stopped behind its first `n` commands. -/
structure St.Torn (p dir : Path) (new text : Bytes) (flushed n : Nat) (s u : St) : Prop where
  isDir : u.disk.isDir = s.disk.isDir
  files : ∀ q, q ≠ getLocalTmpPath p dir → (u.disk.look q).map (·.bytes) =
    Client.torn (getLocalPath p dir) (getLocalPath databasePath dir)
      (fun q => (s.disk.look q).map (·.bytes)) new text n flushed q

namespace St.Torn

variable {new text : Bytes} {n m : Nat} {u v : St}

/-- Commands that put `y` under the name `x`. -/
theorem step (h : s.Torn p dir new text flushed n u) (x : Path) (y : Option File)
    (hd : v.disk.isDir = u.disk.isDir)
    (hv : ∀ q, q ≠ getLocalTmpPath p dir → v.disk.look q = Function.update u.disk.look x y q)
    (ht : ∀ before q, Client.torn (getLocalPath p dir) (getLocalPath databasePath dir) before new text
      m flushed q = if q = x then y.map (·.bytes) else
        Client.torn (getLocalPath p dir) (getLocalPath databasePath dir) before new text n flushed q) :
    s.Torn p dir new text flushed m v := by
  refine ⟨hd.trans h.isDir, fun q hq => ?_⟩
  rw [hv q hq, ht]
  by_cases hx : q = x
  · rw [hx, Function.update_self, if_pos rfl]
  · rw [Function.update_of_ne hx, if_neg hx]
    exact h.files q hq

/-- Commands that change no file. -/
theorem idle (h : s.Torn p dir new text flushed n u) (hd : v.disk.isDir = u.disk.isDir)
    (hv : v.disk.look = u.disk.look)
    (ht : ∀ before q, Client.torn (getLocalPath p dir) (getLocalPath databasePath dir) before new text
      m flushed q =
        Client.torn (getLocalPath p dir) (getLocalPath databasePath dir) before new text n flushed q) :
    s.Torn p dir new text flushed m v := by
  refine ⟨hd.trans h.isDir, fun q hq => ?_⟩
  rw [hv, ht]
  exact h.files q hq

end St.Torn

section Switch

variable {new text : Bytes} {u : St}

/-- The temporary file takes the place of the copy. -/
private theorem replaceCopy_first {α : Type} {g : File} {k : Unit → Prog clientSig α} {n : Nat}
    (hf : u.client.proc.faults = []) (hu : s.Torn p dir new text flushed 9 u)
    (hl : u.disk.look (getLocalPath p dir) = some f)
    (hne : getLocalPath p dir ≠ getLocalTmpPath p dir)
    (hg : u.disk.look (getLocalTmpPath p dir) = some g) (hnew : g.bytes = new)
    (hk : ∀ v m, v.client.proc.faults = [] → v.client.ht = u.client.ht →
      s.Torn p dir new text flushed 11 v → Prog.Yields env.exec
        (Prog.first (Cmd.cut flushed) m (k ())) v fun _ t => s.Torn p dir new text flushed (11 + m) t) :
    Prog.Yields env.exec (Prog.first (Cmd.cut flushed) n (Client.replaceCopy p dir >>= k)) u
      fun _ t => s.Torn p dir new text flushed (9 + n) t := by
  have hcopy := Fs.isDir_of_look hl
  simp only [Client.replaceCopy, Prog.bind_assoc, Prog.pure_eq, Prog.ret_bind]
  refine yields_first (fun n t => s.Torn p dir new text flushed (9 + n) t) rfl hu fun n => ?_
  obtain ⟨t1, hun, hs1, -⟩ := Fs.unlink_of_look hl
  rw [← Fs.remove_eq_unlink hcopy] at hun
  refine Env.yields_sys hf hun ?_
  have h1 : s.Torn p dir new text flushed 10 (u.withDisk t1) := by
    refine hu.step (getLocalPath p dir) none hs1.isDir (fun q _ => congrFun hs1.look q) ?_
    intro before q
    rw [torn_ten, torn_of_lt_ten (by omega), Option.map_none]
  refine yields_first (fun n t => s.Torn p dir new text flushed (9 + (n + 1)) t) rfl h1 fun n => ?_
  have hg1 : t1.look (getLocalTmpPath p dir) = some g := by
    rw [hs1.look, Function.update_of_ne hne.symm, hg]
  obtain ⟨t2, hrn, hs2⟩ := Fs.rename_of_look hg1 (by rw [hs1.isDir]; exact hcopy) hne.symm
  refine Env.yields_sys (s := u.withDisk t1) hf hrn ?_
  have h2 : s.Torn p dir new text flushed 11 ((u.withDisk t1).withDisk t2) := by
    refine h1.step (getLocalPath p dir) (some g) hs2.isDir ?_ ?_
    · intro q hq
      change t2.look q = Function.update t1.look _ _ q
      rw [hs2.look]
      by_cases hcp : q = getLocalPath p dir
      · rw [hcp, Function.update_self, Function.update_self]
      · rw [Function.update_of_ne hcp, Function.update_of_ne hcp, Function.update_of_ne hq]
    · intro before q
      rw [torn_of_lt_thirteen (by omega) (by omega), torn_ten, Option.map_some, hnew]
      split <;> rfl
  have hadd : 9 + (n + 2) = 11 + n := by omega
  change Prog.Yields env.exec _ _ fun _ t => s.Torn p dir new text flushed (9 + (n + 2)) t
  rw [hadd]
  exact hk _ n hf rfl h2

/-- The flag is recorded. -/
private theorem record_first {α : Type} {a : α} {n : Nat} (hf : u.client.proc.faults = [])
    (hdir : FlatDir dir u.disk) (hu : s.Torn p dir new text flushed 11 u)
    (htext : dumpText (u.client.ht.put (hashKey p) modifiedFlag) = text) :
    Prog.Yields env.exec (Prog.first (Cmd.cut flushed) n
      (Client.record p dir modifiedFlag >>= fun _ => .ret a)) u
        fun _ t => s.Torn p dir new text flushed (11 + n) t := by
  simp only [Client.record, Client.dump, Prog.bind_assoc, Prog.pure_eq]
  refine yields_first (fun n t => s.Torn p dir new text flushed (11 + n) t) rfl hu fun n => ?_
  refine Prog.Yields.call (r := ()) (t := u.withTable (u.client.ht.put (hashKey p) modifiedFlag))
    rfl ?_
  have h1 : s.Torn p dir new text flushed 12
      (u.withTable (u.client.ht.put (hashKey p) modifiedFlag)) := by
    refine hu.idle rfl rfl fun before q => ?_
    rw [torn_of_lt_thirteen (by omega) (by omega), torn_of_lt_thirteen (by omega) (by omega)]
  refine yields_first (fun n t => s.Torn p dir new text flushed (11 + (n + 1)) t) rfl h1 fun n => ?_
  obtain ⟨fd, t2, x, ho, h0, hh2, hs2, hb2, -, -⟩ :=
    Fs.openFile_trunc (hdir.isDir_local rootLevel_database)
      (fun _ => hdir.parent_local rootLevel_database) { creat := true, trunc := true } rfl rfl 0o666
  refine Env.yields_sys (s := u.withTable (u.client.ht.put (hashKey p) modifiedFlag)) hf ho ?_
  have hfd : fd ≠ -1 := by omega
  simp only [hfd, if_false]
  generalize hw : (u.withTable (u.client.ht.put (hashKey p) modifiedFlag)).withDisk t2 = w
  have hwf : w.client.proc.faults = [] := by
    rw [← hw]
    exact hf
  have hwd : w.disk = t2 := by
    rw [← hw]
    rfl
  have hwt : dumpText w.client.ht = text := by
    rw [← hw]
    exact htext
  have h2 : s.Torn p dir new text flushed 13 w := by
    rw [← hw]
    refine h1.step (getLocalPath databasePath dir) (some x) hs2.isDir
      (fun q _ => congrFun hs2.look q) ?_
    intro before q
    rw [torn_of_thirteen_le (by omega), torn_of_lt_thirteen (by omega) (by omega), Option.map_some, hb2]
    rfl
  refine yields_first (fun n t => s.Torn p dir new text flushed (11 + (n + 2)) t) rfl h2 fun n => ?_
  refine Prog.Yields.call (t := w) (r := w.client.ht) rfl ?_
  have hx : w.disk.look (getLocalPath databasePath dir) = some x := by
    rw [hwd, hs2.look, Function.update_self]
  rw [← hwd] at hh2
  have hwrites : ∀ (d : Bytes) (m : Nat), (m = 14 ∧ d = text.take flushed ∨ 15 ≤ m ∧ d = text) →
      ∃ t, w.disk.write fd d = .ok ((d.length : Int), t) ∧
        t.Holds fd (getLocalPath databasePath dir) d.length false ∧
        s.Torn p dir new text flushed m (w.withDisk t) := by
    intro d m hm
    obtain ⟨t, y, hwr, hs, hb, -, -, hh⟩ := Fs.write_of_empty hh2 hx hb2 d
    refine ⟨t, hwr, hh, h2.step (getLocalPath databasePath dir) (some y) hs.isDir
      (fun q _ => congrFun hs.look q) fun before q => ?_⟩
    have hd : (if m = 13 then [] else if m = 14 then text.take flushed else text) = d := by
      rcases hm with ⟨rfl, rfl⟩ | ⟨hm, rfl⟩
      · rfl
      · rw [if_neg (by omega), if_neg (by omega)]
    rw [torn_of_thirteen_le (by omega), torn_of_thirteen_le (by omega), Option.map_some, hb, hd]
    split <;> rfl
  refine yields_first_write (fun n t => s.Torn p dir new text flushed (11 + (n + 3)) t) ?_ fun n => ?_
  · obtain ⟨t, hwr, -, ht⟩ := hwrites (text.take flushed) 14 (Or.inl ⟨rfl, rfl⟩)
    rw [hwt]
    exact Env.yields_sys hwf (perform_write rfl List.prefix_rfl hwr) (Prog.Yields.ret ht)
  obtain ⟨t3, hwr, hh3, ht3⟩ := hwrites text 15 (Or.inr ⟨le_refl 15, rfl⟩)
  rw [hwt]
  refine Env.yields_sys hwf (perform_write rfl List.prefix_rfl hwr) ?_
  refine yields_first (fun n t => s.Torn p dir new text flushed (11 + (n + 4)) t) rfl ht3 fun n => ?_
  obtain ⟨t4, hcl, hs4, -⟩ := Fs.close_of_holds hh3
  refine Env.yields_sys (s := w.withDisk t3) hwf hcl ?_
  have h4 : s.Torn p dir new text flushed (11 + (n + 5)) ((w.withDisk t3).withDisk t4) := by
    refine ht3.idle hs4.isDir hs4.look fun before q => ?_
    have h13 : ¬ 11 + (n + 5) = 13 := by omega
    have h14 : ¬ 11 + (n + 5) = 14 := by omega
    rw [torn_of_thirteen_le (by omega), torn_of_thirteen_le (by omega), if_neg h13, if_neg h14]
    rfl
  cases n <;> exact Prog.Yields.ret h4

end Switch

theorem fillTmp_takes : (Client.fillTmp junk p dir buffer offset).Takes 9 := by
  intro fd res fd_main got n c ret_code m d
  trivial

/-- Where a write is stopped, the names stand for what its commands so far have made of them. -/
theorem afsWrite_stopped (hb : buffer ≠ []) (hf : s.client.proc.faults = [])
    (hdir : FlatDir dir s.disk) (hl : s.disk.look (getLocalPath p dir) = some f)
    (hlen : f.bytes.length < 2 ^ 64) (htmp : s.disk.isDir (getLocalTmpPath p dir) = false)
    (hpar : s.disk.isDir (parent (getLocalTmpPath p dir)) = true)
    (hne : getLocalPath p dir ≠ getLocalTmpPath p dir) (n : Nat) :
    s.Torn p dir (overwrite f.bytes offset buffer)
      (dumpText (s.client.ht.put (hashKey p) modifiedFlag)) flushed n
      ((Client.afsWrite junk p dir buffer offset).stopped env.exec (Cmd.cut flushed) n s) := by
  have heq : Client.afsWrite junk p dir buffer offset =
      Client.fillTmp junk p dir buffer offset >>= Client.switch p dir := Client.afsWrite_eq hb
  rw [heq]
  by_cases hn : n < 9
  · have hfirst : Prog.Yields env.exec
        (Prog.first (Cmd.cut flushed) n (Client.fillTmp junk p dir buffer offset)) s _ :=
      fillTmp_first hf hl htmp hpar hne n
    rw [fillTmp_takes.stopped_bind _ hn, Prog.stopped_eq_first]
    obtain ⟨_, v, hrun, hv⟩ := hfirst
    rw [hrun]
    refine ⟨hv.isDir, fun q hq => ?_⟩
    rw [torn_of_lt_ten (by omega), hv.look q hq]
  · obtain ⟨m, rfl⟩ := Nat.exists_eq_add_of_le (Nat.le_of_not_lt hn)
    have hfill : Prog.Yields env.exec (Client.fillTmp junk p dir buffer offset) s _ :=
      fillTmp_faulty (List.forall_mem_nil _) hf (by decide) hl htmp hpar hne
    obtain ⟨rc, u, hrun, hrc, hu, hd, -, hv, htmpc⟩ := hfill
    have hfine : Client.oldCopied junk [] 1 f.bytes = f.bytes := by
      refine oldCopied_of_fine hlen fun j _ => ?_
      rw [fault, List.drop_nil, List.headD_nil]
    have hcontent : (u.disk.look (getLocalTmpPath p dir)).map (·.bytes) =
        some (overwrite f.bytes offset buffer) := by
      rw [htmpc]
      change some (overwrite (Client.oldCopied junk [] 1 f.bytes) offset (buffer.take buffer.length)) = _
      rw [hfine, List.take_length]
    obtain ⟨g, hg, hgb⟩ := Option.map_eq_some_iff.mp hcontent
    have htable : u.client.ht = s.client.ht := by
      have hkeep := Client.fillTmp_uses.invariant (m := env.exec)
        (I := fun t : St => t.client.ht = s.client.ht) (p := Client.fillTmp junk p dir buffer offset)
        (fun c t hc ht => (plain_rest hc).1.trans ht) (s := s) rfl
      rwa [hrun] at hkeep
    have htorn : s.Torn p dir (overwrite f.bytes offset buffer)
        (dumpText (s.client.ht.put (hashKey p) modifiedFlag)) flushed 9 u := by
      refine ⟨hd, fun q hq => ?_⟩
      rw [torn_of_lt_ten (by omega), hv q hq]
    have hne1 : rc ≠ -1 := by
      rw [hrc]
      exact nofun
    have hrest : Prog.Yields env.exec (Prog.first (Cmd.cut flushed) m (Client.switch p dir rc)) u
        fun _ t => s.Torn p dir (overwrite f.bytes offset buffer)
          (dumpText (s.client.ht.put (hashKey p) modifiedFlag)) flushed (9 + m) t := by
      simp only [Client.switch, hne1, if_false, Prog.pure_eq]
      refine replaceCopy_first hu htorn ((hv _ hne).trans hl) hne hg hgb fun v k hvf hvt hvs => ?_
      refine record_first hvf (hdir.congr hvs.isDir) hvs ?_
      rw [hvt, htable]
    rw [fillTmp_takes.stopped_bind_add hrun, Prog.stopped_eq_first]
    obtain ⟨_, v, hrun', hv'⟩ := hrest
    rw [hrun']
    exact hv'

end Torn

end Afs
