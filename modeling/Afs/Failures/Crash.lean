import Afs.Failures.Opens
import Afs.Ops.Starting
import Afs.Ops.Tearing

/-!
# A client that dies in the middle of a write

The next start reads what the file of the table holds by then, and the next open decides by the entry
that it finds there. Between the moment when the new bytes are in the copy and the moment when the
file of the table is emptied, that entry is the one of the old bytes.
-/

namespace Afs

open Posix Interaction Transition

section Opens

variable (env : Env) (junk : Junk) (p dir : Path) (s : St) (old : Bytes)

/-- What a fetching open leaves is the old bytes, or the flag. -/
def St.TakesOld : Prop :=
  (∀ m ∈ (s.fetchedReply env p dir).1,
    Client.copied junk p (s.client.ht.put (hashKey p) m.time) m = old) ∧
  ((s.fetchedReply env p dir).1 = none →
    Client.leftover junk (s.fetchedReply env p dir).2.client.proc.errno = old ∨
      s.client.ht.get p = modifiedFlag)

instance : Decidable (s.TakesOld env junk p dir old) := by
  unfold St.TakesOld
  infer_instance

/-- The time that an open sees. -/
def St.seenTime : Int := (Client.seen junk (s.asked env p).1).st_mtime

variable {env junk p dir s old}

/-- An open that succeeds leaves the old bytes or the flag exactly when it fetches them, or keeps a copy
that has them or is flagged. -/
theorem St.opened_old_or_flag_iff {r : Int} {t : St} (ho : s.Opened env junk p dir t r) (hr : r = 0) :
    (t.copy p dir = some old ∨ t.client.ht.get p = modifiedFlag) ↔
      if s.copy p dir = none ∨ (s.client.ht.get p).toInt < s.seenTime env junk p then
        s.TakesOld env junk p dir old
      else s.copy p dir = some old ∨ s.client.ht.get p = modifiedFlag := by
  have hcopy : s.HasCopy p dir ↔ s.copy p dir ≠ none := not_congr Option.map_eq_none_iff.symm
  by_cases h : s.Fetches env junk p dir
  · have hcond : s.copy p dir = none ∨ (s.client.ht.get p).toInt < s.seenTime env junk p := by
      by_cases hc : s.HasCopy p dir
      · simp only [St.Fetches, hc, if_true] at h
        exact Or.inr h
      · exact Or.inl (not_not.mp fun hn => hc (hcopy.mpr hn))
    rw [if_pos hcond]
    unfold St.TakesOld
    cases hm : (s.fetchedReply env p dir).1 with
    | some m =>
        obtain ⟨-, ht, hb⟩ := ho.answered h m hm
        obtain ⟨⟨time, htime⟩, -⟩ := St.fetchedReply_answer hm
        rw [ht] at hb
        rw [hb, ht, HashTable.get_put_self, htime]
        constructor
        · rintro (he | hflag)
          · refine ⟨?_, fun hn => absurd hn (Option.some_ne_none m)⟩
            rintro m' hm'
            obtain rfl := Option.some.inj hm'
            rw [htime]
            exact Option.some.inj he
          · exact absurd hflag (time_ne_modifiedFlag time)
        · rintro ⟨he, -⟩
          have hold := he m rfl
          rw [htime] at hold
          exact Or.inl (congrArg some hold)
    | none =>
        obtain ⟨-, ht, hb⟩ := ho.unanswered h hm
        rw [ht, hb]
        constructor
        · intro he
          exact ⟨fun m hm' => absurd hm' (Option.not_mem_none m), fun _ => he.imp_left Option.some.inj⟩
        · exact fun he => (he.2 rfl).imp_left (congrArg some)
  · obtain ⟨hret, ht, hlook⟩ := ho.kept h
    by_cases hc : s.HasCopy p dir
    · have hcond : ¬ (s.copy p dir = none ∨
          (s.client.ht.get p).toInt < s.seenTime env junk p) := by
        rintro (hn | hlt)
        · exact hcopy.mp hc hn
        · simp only [St.Fetches, hc, if_true] at h
          exact h hlt
      have hsame : t.copy p dir = s.copy p dir := by rw [St.copy, hlook, St.copy]
      rw [if_neg hcond, hsame, ht]
    · rw [if_neg hc, hr] at hret
      exact absurd hret (by decide)

/-- An open changes no file of the server. -/
theorem afsOpen_server_look {fh : Int} :
    ((Client.afsOpen junk p dir fh).run env.exec s).2.server.fs.look = s.server.fs.look := by
  have huses : (Client.afsOpen junk p dir fh).Uses (Cmd.Sends Request.ReadsOnly) :=
    Client.MadeFor.sends (Client.afsOpen_made trivial trivial)
  refine huses.invariant (I := fun u : St => u.server.fs.look = s.server.fs.look) ?_ rfl
  intro c u hc hu
  cases c with
  | rpc r => exact (Env.attempt_look hc u).trans hu
  | retried r => exact (Env.retryLoop_look hc _ u).trans hu
  | sys c | errno | get filename | put key value | table | setTable ht => exact hu

/-- An open gets the answers that it waits for, from handlers that meet no fault. -/
structure St.Answered (env : Env) (junk : Junk) (p dir : Path) (s : St) : Prop where
  faultless : ∀ d ∈ s.net, d.Faultless
  asked : s.HasCopy p dir → (s.asked env p).1 ≠ none
  fetched : (s.HasCopy p dir → s.Newer env junk p) → (s.fetchedReply env p dir).1 ≠ none

/-- Then it sees the time of the server's file. -/
theorem St.Answered.seenTime {g : File} (h : s.Answered env junk p dir) (hc : s.HasCopy p dir)
    (hg : s.server.fs.look (getServerPath p env.root_path) = some g) :
    s.seenTime env junk p = g.mtim.tv_nsec := by
  obtain ⟨a, ha⟩ := Option.ne_none_iff_exists'.mp (h.asked hc)
  obtain ⟨herr, htime⟩ := Env.getattr_faultless h.faultless hg ha
  unfold St.seenTime
  rw [ha]
  simp only [Client.seen, herr, ne_eq, not_true_eq_false, if_false]
  simp only [Client.statOfReply, Stat.st_mtime, Timespec.ofSec, htime, toInt_mtime]

/-- And what it fetches is the server's file. -/
theorem St.Answered.takesOld {g : File} (h : s.Answered env junk p dir) (hp : p ≠ databasePath)
    (hnew : s.HasCopy p dir → s.Newer env junk p)
    (hg : s.server.fs.look (getServerPath p env.root_path) = some g)
    (hlen : g.bytes.length < 2 ^ 31) : s.TakesOld env junk p dir g.bytes := by
  have hfrom : (s.fetchFrom env p dir).server.fs.look = s.server.fs.look ∧
      ∀ d ∈ (s.fetchFrom env p dir).net, d.Faultless := by
    unfold St.fetchFrom
    split
    · exact ⟨Env.retryLoop_look (r := .getattr p) trivial _ _, Env.retryLoop_net _ _ h.faultless⟩
    · exact ⟨rfl, h.faultless⟩
  refine ⟨fun m hm => ?_, fun hn => absurd hn (h.fetched hnew)⟩
  obtain ⟨hbuf, hsize⟩ := Env.fetch_faultless hfrom.2 (hfrom.1 ▸ hg) hm
  rw [← hbuf] at hsize hlen ⊢
  exact (FetchReply.copied_eq_iff hsize).mpr ((FetchReply.fits_iff_of_short hsize hlen).mpr hp)

/-- So the server's bytes are there behind it, or the entry is the flag, unless a copy with other bytes has
an entry that is not below the server's time. -/
theorem St.Answered.old_or_flag_iff {g : File} (h : s.Answered env junk p dir) (hp : p ≠ databasePath)
    (hg : s.server.fs.look (getServerPath p env.root_path) = some g)
    (hlen : g.bytes.length < 2 ^ 31) :
    (if s.copy p dir = none ∨ (s.client.ht.get p).toInt < s.seenTime env junk p then
        s.TakesOld env junk p dir g.bytes
      else s.copy p dir = some g.bytes ∨ s.client.ht.get p = modifiedFlag) ↔
      s.copy p dir = none ∨ (s.client.ht.get p).toInt < g.mtim.tv_nsec ∨
        s.copy p dir = some g.bytes ∨ s.client.ht.get p = modifiedFlag := by
  have hcopy : s.HasCopy p dir ↔ s.copy p dir ≠ none := not_congr Option.map_eq_none_iff.symm
  by_cases hc : s.copy p dir = none
  · rw [if_pos (Or.inl hc)]
    exact iff_of_true (h.takesOld hp (fun hhas => absurd hc (hcopy.mp hhas)) hg hlen) (Or.inl hc)
  · have hseen := h.seenTime (hcopy.mpr hc) hg
    rw [hseen]
    simp only [hc, false_or]
    by_cases hlt : (s.client.ht.get p).toInt < g.mtim.tv_nsec
    · have hnewer : s.Newer env junk p := by
        change _ < s.seenTime env junk p
        rwa [hseen]
      rw [if_pos hlt]
      exact iff_of_true (h.takesOld hp (fun _ => hnewer) hg hlen) (Or.inl hlt)
    · rw [if_neg hlt]
      simp only [hlt, false_or]

end Opens

/-- The entry for a file in the table that a text holds; a start dies of a text that holds none. -/
def entryIn (text : Bytes) (p : Path) : Option Int64 := (readFromDatabase text initHt).map (·.get p)

namespace World

variable {ι : Type} [DecidableEq ι] {P : Params ι} {w v v₀ w' : World ι}

/-- The state after a client died behind the first `n` commands of an operation; if the next one is a
write, `flushed` bytes of it were carried out. -/
def crash (P : Params ι) (w : World ι) (c : Call ι) (n flushed : Nat) : Option (World ι) :=
  if w.up c.client then
    (w.handle c).map fun fh =>
      w.finish P c.client c.path (fun _ _ l => l)
        (none, (c.op.prog c.junk c.path (P.cache_path c.client) fh).stopped
          (Env.exec ⟨P.root_path, c.junk⟩) (Cmd.cut flushed) n (w.state c.client c.now c.faults c.net))
  else none

/-- A client has a clean copy of a file with the server's bytes. -/
structure CleanCopy (P : Params ι) (w : World ι) (i : ι) (p : Path) (old : Bytes) : Prop where
  cached : w.cached P i p = some old
  clean : w.recorded i p ≠ modifiedFlag
  served : (w.served P p).map (·.bytes) = some old

/-- A client dies in the operation `c`, starts again, and then opens the file with success by the call
`o`; `v` is the state between the start and the open. -/
structure Reopens (P : Params ι) (w : World ι) (c : Call ι) (n flushed : Nat) (v : World ι) (o : Call ι)
    (w' : World ι) : Prop where
  restart : ∃ v₀ now junk, w.crash P c n flushed = some v₀ ∧
    v₀.step P (.start c.client now junk []) = some v
  client : o.client = c.client
  path : o.path = c.path
  op : o.op = .openF
  faults : o.faults = []
  success : ∃ r, v.perform P o = some (some r, w') ∧ r.ret = 0

/-- No changed bytes are taken for a clean copy. -/
def ServesNoChange (P : Params ι) (w : World ι) (i : ι) (p : Path) : Prop :=
  w.cached P i p = (w.served P p).map (·.bytes) ∨ w.recorded i p = modifiedFlag

instance (i : ι) (p : Path) : Decidable (w.ServesNoChange P i p) := by
  unfold ServesNoChange
  infer_instance

section Left

variable (P) (w) (c : Call ι) (old new : Bytes) (n flushed : Nat)

/-- The text of the table with the flag. -/
def flagText : Bytes := dumpText ((w.clients c.client).ht.put (hashKey c.path) modifiedFlag)

/-- The copy that a start finds when the write of `new` over `old` was interrupted behind its first `n`
commands: it is gone between the removal, which is the tenth, and the rename. The start itself makes
the file of the table, which is emptied by the thirteenth command and written by the fifteenth. -/
def copyLeft : Option Bytes :=
  if c.path = databasePath ∧ 13 ≤ n then
    some (if n = 13 then [] else if n = 14 then (flagText w c).take flushed else flagText w c)
  else if n < 10 then some old
  else if n = 10 then (if c.path = databasePath then some [] else none)
  else some new

/-- The entry that it finds. -/
def entryLeft : Option Int64 :=
  if 15 ≤ n then some modifiedFlag
  else if n = 14 then entryIn ((flagText w c).take flushed) c.path
  else if n = 13 then some (-1)
  else if c.path = databasePath ∧ 10 ≤ n then (if n = 10 then some (-1) else entryIn new c.path)
  else entryIn ((w.cached P c.client databasePath).getD []) c.path

end Left

/-- When an interrupted write is harmless. Where the copy is gone or its entry is below the time that
the open sees, the open fetches what the server has. Where the copy is kept, it has the old bytes, or
the entry is the flag. -/
def CrashSpares (P : Params ι) (w : World ι) (c : Call ι) (old new : Bytes) (n flushed : Nat) (s : St)
    (junk : Junk) : Prop :=
  let env : Env := ⟨P.root_path, junk⟩
  let copy := copyLeft w c old new n flushed
  let entry := entryLeft P w c new n flushed
  if copy = none ∨ ∃ x ∈ entry, x.toInt < s.seenTime env junk c.path then
    s.TakesOld env junk c.path (P.cache_path c.client) old
  else copy = some old ∨ entry = some modifiedFlag

instance (c : Call ι) (old new : Bytes) (n flushed : Nat) (s : St) (junk : Junk) :
    Decidable (w.CrashSpares P c old new n flushed s junk) := by
  unfold CrashSpares
  infer_instance

section Found

variable {c : Call ι} {old new : Bytes} {n flushed : Nat}

/-- What the names under the cache directory stand for after the interrupted write. -/
private abbrev files (P : Params ι) (w : World ι) (c : Call ι) (new : Bytes) (n flushed : Nat) :
    Path → Option Bytes :=
  Client.torn (getLocalPath c.path (P.cache_path c.client))
    (getLocalPath databasePath (P.cache_path c.client))
    (fun q => ((w.disk c.client).look q).map (·.bytes)) new (flagText w c) n flushed

omit [DecidableEq ι] in
private theorem text_files :
    (files P w c new n flushed (getLocalPath databasePath (P.cache_path c.client))).getD [] =
      if 15 ≤ n then flagText w c
      else if n = 14 then (flagText w c).take flushed
      else if n = 13 then []
      else if c.path = databasePath ∧ 10 ≤ n then (if n = 10 then [] else new)
      else (w.cached P c.client databasePath).getD [] := by
  by_cases h13 : 13 ≤ n
  · rw [files, torn_of_thirteen_le h13, if_pos rfl, Option.getD_some]
    by_cases h15 : 15 ≤ n
    · rw [if_pos h15, if_neg (by omega), if_neg (by omega)]
    · by_cases h14 : n = 14
      · rw [if_neg h15, if_pos h14, if_neg (by omega), if_pos h14]
      · have hn : n = 13 := by omega
        rw [if_pos hn, if_neg h15, if_neg h14, if_pos hn]
  · have h15 : ¬ 15 ≤ n := by omega
    have h14 : ¬ n = 14 := by omega
    have hn : ¬ n = 13 := by omega
    have hiff : getLocalPath databasePath (P.cache_path c.client) =
        getLocalPath c.path (P.cache_path c.client) ↔ c.path = databasePath := by
      refine ⟨fun he => not_not.mp fun hp => ?_, fun hp => by rw [hp]⟩
      exact getLocalPath_ne_database hp (P.cache_path c.client) he.symm
    simp only [files, Client.torn, h13, h15, h14, hn, hiff, and_false, if_false]
    by_cases hc : c.path = databasePath ∧ 10 ≤ n
    · simp only [hc, and_self, if_true]
      split <;> rfl
    · simp only [hc, if_false]
      rfl

omit [DecidableEq ι] in
/-- The copy that a start finds, if it is not the file of the table. -/
private theorem copy_files (hp : c.path ≠ databasePath)
    (hcached : w.cached P c.client c.path = some old) :
    files P w c new n flushed (getLocalPath c.path (P.cache_path c.client)) =
      copyLeft w c old new n flushed := by
  have hne := getLocalPath_ne_database hp (P.cache_path c.client)
  have hbefore : ((w.disk c.client).look (getLocalPath c.path (P.cache_path c.client))).map (·.bytes) =
      some old := hcached
  unfold copyLeft
  simp only [files, Client.torn, hne, hp, false_and, if_false, true_and]
  by_cases h10 : 10 ≤ n
  · have hlt : ¬ n < 10 := by omega
    simp only [h10, hlt, if_true, if_false]
  · have hlt : n < 10 := by omega
    simp only [h10, hlt, if_true, if_false, hbefore]

omit [DecidableEq ι] in
/-- The file of the table, if it is the copy. -/
private theorem database_files (hp : c.path = databasePath)
    (hcached : w.cached P c.client c.path = some old) :
    some ((files P w c new n flushed
      (getLocalPath databasePath (P.cache_path c.client))).getD []) =
      copyLeft w c old new n flushed := by
  rw [text_files, copyLeft, ← hp, hcached, Option.getD_some]
  simp only [true_and]
  by_cases h13 : 13 ≤ n
  · rw [if_pos h13]
    by_cases h15 : 15 ≤ n
    · rw [if_pos h15, if_neg (by omega), if_neg (by omega)]
    · by_cases h14 : n = 14
      · rw [if_neg h15, if_pos h14, if_neg (by omega), if_pos h14]
      · have hn : n = 13 := by omega
        rw [if_pos hn, if_neg h15, if_neg h14, if_pos hn]
  · have h15 : ¬ 15 ≤ n := by omega
    have h14 : ¬ n = 14 := by omega
    have hn : ¬ n = 13 := by omega
    by_cases h10 : 10 ≤ n
    · have hlt : ¬ n < 10 := by omega
      simp only [h13, h15, h14, hn, h10, hlt, if_true, if_false]
      split <;> rfl
    · have hlt : n < 10 := by omega
      simp only [h13, h15, h14, hn, h10, hlt, if_true, if_false]

omit [DecidableEq ι] in
/-- The entry that a start finds is the one in the bytes that it finds. -/
private theorem entry_files (hreg : (w.clients c.client).ht.Regular) :
    entryIn ((files P w c new n flushed
      (getLocalPath databasePath (P.cache_path c.client))).getD []) c.path =
      entryLeft P w c new n flushed := by
  have hempty : entryIn [] c.path = some (-1) := by
    have hread : readFromDatabase [] initHt = some initHt := rfl
    rw [entryIn, hread, Option.map_some, get_initHt]
  have hflag : entryIn (flagText w c) c.path = some modifiedFlag := by
    rw [entryIn, flagText, readFromDatabase_dumpText (hreg.put _ _), Option.map_some,
      HashTable.get_put_self]
  rw [text_files, entryLeft]
  by_cases h15 : 15 ≤ n
  · rw [if_pos h15, if_pos h15, hflag]
  · rw [if_neg h15, if_neg h15]
    by_cases h14 : n = 14
    · rw [if_pos h14, if_pos h14]
    · rw [if_neg h14, if_neg h14]
      by_cases h13 : n = 13
      · rw [if_pos h13, if_pos h13, hempty]
      · rw [if_neg h13, if_neg h13]
        by_cases hc : c.path = databasePath ∧ 10 ≤ n
        · rw [if_pos hc, if_pos hc]
          split
          · exact hempty
          · rfl
        · rw [if_neg hc, if_neg hc]

end Found

section Runs

variable {c o : Call ι} {k offset n flushed : Nat} {old buffer : Bytes}

/-- What a client that dies in a write leaves. -/
theorem crash_leaves (hw : w.Mounted P) (hop : c.op = .write k buffer offset) (hb : buffer ≠ [])
    (hpath : (Event.call c).Absolute) (hf : c.faults = []) (hlen : old.length < 2 ^ 63)
    (hcached : w.cached P c.client c.path = some old) (hcrash : w.crash P c n flushed = some v₀) :
    (v₀.disk c.client).isDir = (w.disk c.client).isDir ∧
      (∀ q, q ≠ getLocalTmpPath c.path (P.cache_path c.client) →
        ((v₀.disk c.client).look q).map (·.bytes) =
          files P w c (overwrite old offset buffer) n flushed q) ∧
      v₀.server.fs.look = w.server.fs.look := by
  obtain ⟨rest, hrest⟩ := hpath
  have hdir := hw.cacheDir c.client
  obtain ⟨f, hl, rfl⟩ := Option.map_eq_some_iff.mp hcached
  have hroom : (w.disk c.client).isDir (getLocalTmpPath c.path (P.cache_path c.client)) = false ∧
      (w.disk c.client).isDir (parent (getLocalTmpPath c.path (P.cache_path c.client))) = true := by
    rw [hrest] at hl ⊢
    exact hdir.room (by rw [hl]; exact Option.some_ne_none f)
  obtain ⟨htmp, hpar⟩ := hroom
  have hne := getLocalPath_ne_getLocalTmpPath c.path (P.cache_path c.client)
  unfold crash at hcrash
  split at hcrash
  · obtain ⟨fh, -, rfl⟩ := Option.map_eq_some_iff.mp hcrash
    have hprog : (c.op.prog c.junk c.path (P.cache_path c.client) fh).stopped
        (Env.exec ⟨P.root_path, c.junk⟩) (Cmd.cut flushed) n (w.state c.client c.now c.faults c.net) =
          (Client.afsWrite c.junk c.path (P.cache_path c.client) buffer offset).stopped
            (Env.exec ⟨P.root_path, c.junk⟩) (Cmd.cut flushed) n (w.state c.client c.now c.faults c.net) := by
      rw [hop]
      exact Prog.stopped_bind_ret _ _ n
    have htorn : (w.state c.client c.now c.faults c.net).Torn c.path (P.cache_path c.client)
        (overwrite f.bytes offset buffer)
        (dumpText ((w.state c.client c.now c.faults c.net).client.ht.put (hashKey c.path) modifiedFlag))
        flushed n ((Client.afsWrite c.junk c.path (P.cache_path c.client) buffer offset).stopped
          (Env.exec ⟨P.root_path, c.junk⟩) (Cmd.cut flushed) n (w.state c.client c.now c.faults c.net)) :=
      afsWrite_stopped hb hf hdir.toFlatDir hl (lt_trans hlen (by decide)) htmp hpar hne n
    have hserver : ((Client.afsWrite c.junk c.path (P.cache_path c.client) buffer offset).stopped
        (Env.exec ⟨P.root_path, c.junk⟩) (Cmd.cut flushed) n (w.state c.client c.now c.faults c.net)).server =
          w.serverAt c.now := by
      have huses : (Client.afsWrite c.junk c.path (P.cache_path c.client) buffer offset).Uses
          (Cmd.Sends fun _ => False) := Client.MadeFor.sends Client.afsWrite_made
      refine huses.stopped (I := fun s : St => s.server = w.serverAt c.now) ?_ ?_ rfl n
      · intro c d _ hd
        cases c with
        | sys c =>
            cases c with
            | write fd mem count =>
                obtain rfl := Option.some.inj hd
                trivial
            | _ => cases hd
        | _ => cases hd
      · intro c s hc hs
        cases c with
        | rpc r | retried r => exact hc.elim
        | sys c | errno | get filename | put key value | table | setTable ht => exact hs
    rw [disk, clients_finish_self, server_finish, hprog, hserver]
    exact ⟨htorn.isDir, htorn.files, rfl⟩
  · cases hcrash

/-- What the open after the restart finds. -/
theorem Reopens.finds (hr : w.Reopens P c n flushed v o w') (hw : w.Mounted P)
    (hop : c.op = .write k buffer offset) (hb : buffer ≠ []) (hpath : (Event.call c).Absolute)
    (hf : c.faults = []) (hlen : old.length < 2 ^ 63) (hcached : w.cached P c.client c.path = some old) :
    v.cached P c.client c.path = copyLeft w c old (overwrite old offset buffer) n flushed ∧
      some (v.recorded c.client c.path) = entryLeft P w c (overwrite old offset buffer) n flushed ∧
      FlatDir (P.cache_path c.client) (v.disk c.client) ∧ v.server.fs.look = w.server.fs.look := by
  obtain ⟨v₀, now, junk, hcrash, hstart⟩ := hr.restart
  obtain ⟨r, hperf, -⟩ := hr.success
  have hup := (perform_eq_some.mp hperf).1
  rw [hr.client] at hup
  obtain ⟨hisDir, hfiles, hserver⟩ := crash_leaves hw hop hb hpath hf hlen hcached hcrash
  obtain ⟨v', hv', hclient, -, hup', hserver'⟩ :=
    step_start (w := v₀) (P := P) c.client now junk []
  obtain rfl := Option.some.inj (hv'.symm.trans hstart)
  have hflat : FlatDir (P.cache_path c.client) (v₀.started c.client now []).disk :=
    (hw.cacheDir c.client).toFlatDir.congr hisDir
  have hs : (v₀.started c.client now []).Started (P.cache_path c.client) _ :=
    main_started ⟨P.root_path, junk⟩ rfl hflat (hup'.symm.trans hup)
  have htext : (v₀.started c.client now []).database (P.cache_path c.client) =
      (files P w c (overwrite old offset buffer) n flushed
        (getLocalPath databasePath (P.cache_path c.client))).getD [] :=
    congrArg (Option.getD · []) (hfiles _ (getLocalTmpPath_ne_database _ _).symm)
  refine ⟨?_, ?_, ?_, ?_⟩
  · by_cases hp : c.path = databasePath
    · rw [← database_files hp hcached, ← htext, ← hs.database, cached, disk, hclient, hp]
    · have hne := getLocalPath_ne_database hp (P.cache_path c.client)
      have htmp := getLocalPath_ne_getLocalTmpPath c.path (P.cache_path c.client)
      rw [← copy_files hp hcached, ← hfiles _ htmp, cached, disk, hclient]
      exact congrArg (Option.map _)
        (hs.effect.disk.look _ (by simpa only [List.mem_singleton] using hne))
  · rw [← entry_files (hw.regular c.client), ← htext, entryIn, hs.table, recorded, hclient]
    rfl
  · rw [disk, hclient]
    exact hflat.congr hs.effect.disk.isDir
  · rw [hserver', hs.server]
    exact hserver

/-- What the open after the restart leaves comes from the state that the start has left. -/
theorem Reopens.serves_iff (hr : w.Reopens P c n flushed v o w')
    (hclean : w.CleanCopy P c.client c.path old)
    (hflat : FlatDir (P.cache_path c.client) (v.disk c.client))
    (hserver : v.server.fs.look = w.server.fs.look) :
    w'.ServesNoChange P c.client c.path ↔
      let s := v.state c.client o.now [] o.net
      let env : Env := ⟨P.root_path, o.junk⟩
      if s.copy c.path (P.cache_path c.client) = none ∨
          (s.client.ht.get c.path).toInt < s.seenTime env o.junk c.path then
        s.TakesOld env o.junk c.path (P.cache_path c.client) old
      else s.copy c.path (P.cache_path c.client) = some old ∨ s.client.ht.get c.path = modifiedFlag := by
  obtain ⟨-, hi, hp, hopen, hof, r, hperf, hret⟩ := hr
  obtain ⟨i, path, op, now', junk', faults', net'⟩ := o
  obtain rfl : i = c.client := hi
  obtain rfl : path = c.path := hp
  obtain rfl : op = .openF := hopen
  obtain rfl : faults' = [] := hof
  obtain ⟨-, fh, -, hx⟩ := perform_eq_some.mp hperf
  have hyields : Prog.Yields (Env.exec ⟨P.root_path, junk'⟩)
      (Client.afsOpen junk' c.path (P.cache_path c.client) fh) (v.state c.client now' [] net')
      fun x t => (v.state c.client now' [] net').Opened ⟨P.root_path, junk'⟩ junk' c.path
        (P.cache_path c.client) t x.1 := afsOpen_opened rfl hflat
  obtain ⟨x, t, hrun, ho⟩ := hyields
  have hprog : (Op.openF.prog junk' c.path (P.cache_path c.client) fh).run
      (Env.exec ⟨P.root_path, junk'⟩) (v.state c.client now' [] net') =
        (some { ret := x.1, fh := x.2 }, t) := by
    rw [Op.prog, Prog.run_bind, hrun]
    rfl
  simp only [hprog] at hx
  obtain ⟨hres, rfl⟩ := Prod.mk.inj hx
  obtain rfl := Option.some.inj hres
  have hserved : (World.served P (v.finish P c.client c.path (fun r b l => Op.openF.sessions b r l)
      (some { ret := x.1, fh := x.2 }, t)) c.path).map (·.bytes) = some old := by
    have hsame : t.server.fs.look = v.server.fs.look := by
      have hlook : ((Client.afsOpen junk' c.path (P.cache_path c.client) fh).run
          (Env.exec ⟨P.root_path, junk'⟩) (v.state c.client now' [] net')).2.server.fs.look =
            v.server.fs.look := afsOpen_server_look
      rw [hrun] at hlook
      exact hlook
    rw [served, server_finish, hsame, hserver]
    exact hclean.served
  unfold ServesNoChange
  rw [hserved, cached, disk, recorded, clients_finish_self]
  exact St.opened_old_or_flag_iff ho hret

/-- In every state that the mounted file systems lead to, whichever the command behind which a client
dies in a write, and whatever becomes of the remote calls of the open after its restart: no changed
bytes are taken for a clean copy exactly when the interrupted write is harmless. -/
theorem crash_serves_no_change_iff (hw : w.Mounted P) (hop : c.op = .write k buffer offset)
    (hb : buffer ≠ []) (hpath : (Event.call c).Absolute) (hf : c.faults = [])
    (hlen : old.length < 2 ^ 63) (hclean : w.CleanCopy P c.client c.path old)
    (hr : w.Reopens P c n flushed v o w') :
    w'.ServesNoChange P c.client c.path ↔
      w.CrashSpares P c old (overwrite old offset buffer) n flushed
        (v.state o.client o.now [] o.net) o.junk := by
  obtain ⟨hcopy, hentry, hflat, hserver⟩ := hr.finds hw hop hb hpath hf hlen hclean.cached
  have hcopy' : (v.state c.client o.now [] o.net).copy c.path (P.cache_path c.client) =
      copyLeft w c old (overwrite old offset buffer) n flushed := hcopy
  have hentry' : some ((v.state c.client o.now [] o.net).client.ht.get c.path) =
      entryLeft P w c (overwrite old offset buffer) n flushed := hentry
  rw [hr.serves_iff hclean hflat hserver, hr.client]
  unfold CrashSpares
  simp only [← hcopy', ← hentry', Option.mem_def, Option.some.injEq, exists_eq_left']

/-- When the open of a file other than the one of the table gets its answers, the only bad places are the
two between the rename and the emptying of the table's file, and the one in the middle of the table's
text. They are harmless if the write changes nothing or if the start finds an entry that is older than
the server's file. -/
theorem crash_serves_no_change_iff_of_answered (hw : w.Mounted P)
    (hop : c.op = .write k buffer offset) (hb : buffer ≠ []) (hpath : (Event.call c).Absolute)
    (hf : c.faults = []) (hclean : w.CleanCopy P c.client c.path old) (hr : w.Reopens P c n flushed v o w')
    (hp : c.path ≠ databasePath) {g : File} (hg : w.served P c.path = some g)
    (hlen : g.bytes.length < 2 ^ 31)
    (hans : (v.state c.client o.now [] o.net).Answered ⟨P.root_path, o.junk⟩ o.junk c.path
      (P.cache_path c.client)) :
    w'.ServesNoChange P c.client c.path ↔
      (n = 11 ∨ n = 12 ∨ n = 14 → overwrite old offset buffer = old ∨
        ∀ x ∈ entryLeft P w c (overwrite old offset buffer) n flushed,
          x.toInt < g.mtim.tv_nsec) := by
  have hold : g.bytes = old := by
    have hserved := hclean.served
    rw [hg] at hserved
    exact Option.some.inj hserved
  obtain ⟨hcopy, hentry, hflat, hserver⟩ :=
    hr.finds hw hop hb hpath hf (by rw [← hold]; omega) hclean.cached
  rw [hr.serves_iff hclean hflat hserver]
  generalize hs : v.state c.client o.now [] o.net = s at hans ⊢
  have hg' : s.server.fs.look (getServerPath c.path P.root_path) = some g := by
    rw [← hs]
    exact (congrFun hserver _).trans hg
  have hcopy' : s.copy c.path (P.cache_path c.client) =
      copyLeft w c old (overwrite old offset buffer) n flushed := by
    rw [← hcopy, ← hs]
    rfl
  have hentry' : some (s.client.ht.get c.path) = entryLeft P w c (overwrite old offset buffer) n flushed := by
    rw [← hentry, ← hs]
    rfl
  have hnsec : (0 : Int) ≤ g.mtim.tv_nsec := Int.natCast_nonneg _
  have hflag : s.client.ht.get c.path = modifiedFlag → (s.client.ht.get c.path).toInt < g.mtim.tv_nsec := by
    intro he
    rw [he]
    exact lt_of_lt_of_le (by decide) hnsec
  refine (hold ▸ hans.old_or_flag_iff hp hg' hlen).trans ?_
  rw [hcopy', ← hentry']
  simp only [Option.mem_def, Option.some.injEq, forall_eq']
  by_cases hbad : n = 11 ∨ n = 12 ∨ n = 14
  · have hleft : copyLeft w c old (overwrite old offset buffer) n flushed =
        some (overwrite old offset buffer) := by
      simp only [copyLeft, hp, false_and, if_false]
      rw [if_neg (by omega), if_neg (by omega)]
    rw [hleft, Option.some.injEq]
    refine ⟨fun h _ => ?_, fun h => ?_⟩
    · rcases h with h | h | h | h
      · exact absurd h (Option.some_ne_none _)
      · exact Or.inr h
      · exact Or.inl h
      · exact Or.inr (hflag h)
    · exact (h hbad).elim (fun h => Or.inr (Or.inr (Or.inl h))) fun h => Or.inr (Or.inl h)
  · refine iff_of_true ?_ fun h => absurd h hbad
    by_cases h10 : n ≤ 10
    · simp only [copyLeft, hp, false_and, if_false]
      split
      · exact Or.inr (Or.inr (Or.inl rfl))
      · exact Or.inl (if_pos (by omega))
    · refine Or.inr (Or.inl ?_)
      unfold entryLeft at hentry'
      by_cases h15 : 15 ≤ n
      · rw [if_pos h15] at hentry'
        exact hflag (Option.some.inj hentry')
      · rw [if_neg h15, if_neg (by omega), if_pos (by omega)] at hentry'
        rw [Option.some.inj hentry']
        exact lt_of_lt_of_le (by decide) hnsec

end Runs

/-- A file is opened, a write to it is interrupted, the client starts again, and the file is opened
once more. -/
private theorem exists_reopened (n flushed : Nat) {f : World (Bool) → World (Bool) → World (Bool) → Bool}
    (h : ((sampleBoot.step sample (.call (sampleCall false 1 .openF []))).bind fun w =>
      (w.crash sample (sampleCall false 2 (.write 0 [7] 0) []) n flushed).bind fun v₀ =>
      (v₀.step sample (.start false (sampleTime 3 0) .zero [])).bind fun v =>
      (v.perform sample (sampleCall false 4 .openF [])).map fun y =>
        (w.cached sample false sampleFile, w.recorded false sampleFile,
          (w.served sample sampleFile).map (·.bytes), y.1.map (·.ret), f w v y.2)) =
      some (some [1], 500, some [1], some 0, true)) :
    ∃ w v w' : World (Bool), w.Mounted sample ∧ w.CleanCopy sample false sampleFile [1] ∧
      w.Reopens sample (sampleCall false 2 (.write 0 [7] 0) []) n flushed v
        (sampleCall false 4 .openF []) w' ∧
      f w v w' = true := by
  obtain ⟨w, hw, h⟩ := Option.bind_eq_some_iff.mp h
  obtain ⟨v₀, hv₀, h⟩ := Option.bind_eq_some_iff.mp h
  obtain ⟨v, hv, h⟩ := Option.bind_eq_some_iff.mp h
  obtain ⟨⟨out, w'⟩, hperf, h⟩ := Option.map_eq_some_iff.mp h
  simp only [Prod.mk.injEq] at h
  obtain ⟨hcached, hrec, hserved, hret, hf⟩ := h
  obtain ⟨r, rfl, hr⟩ := Option.map_eq_some_iff.mp hret
  have hrun : Run (World.step sample) (fun _ e => e.Absolute) sampleBoot _ w :=
    Run.single (show (Event.call (sampleCall false 1 .openF [])).Absolute from ⟨cstr "f", rfl⟩) hw
  refine ⟨w, v, w', ⟨_, _, hrun⟩, ⟨hcached, ?_, hserved⟩, ?_, hf⟩
  · rw [hrec]
    decide
  · exact ⟨⟨v₀, _, _, hv₀, hv⟩, rfl, rfl, rfl, rfl, r, hperf, hr⟩

/-- A client that dies between the removal and the rename fetches its copy anew. -/
theorem crash_serves_no_change_removed :
    ∃ w v w' : World (Bool), w.Mounted sample ∧
      w.Reopens sample (sampleCall false 2 (.write 0 [7] 0) []) 10 0 v (sampleCall false 4 .openF []) w' ∧
      w'.ServesNoChange sample false sampleFile := by
  obtain ⟨w, v, w', hw, hclean, hr, hspares⟩ := exists_reopened 10 0
    (f := fun w v _ => decide (w.CrashSpares sample (sampleCall false 2 (.write 0 [7] 0) []) [1] [7] 10 0
      (v.state false (sampleTime 4 0) [] []) .zero)) (by decide +kernel)
  exact ⟨w, v, w', hw, hr, (crash_serves_no_change_iff hw rfl (by decide) ⟨cstr "f", rfl⟩ rfl (by decide)
    hclean hr).mpr (of_decide_eq_true hspares)⟩

/-- A client that dies behind the rename has the new bytes under the old entry, and the next open
takes them for clean. -/
theorem crash_before_record_serves_change :
    ∃ w v w' : World (Bool), w.Mounted sample ∧ w.CleanCopy sample false sampleFile [1] ∧
      w.Reopens sample (sampleCall false 2 (.write 0 [7] 0) []) 11 0 v (sampleCall false 4 .openF []) w' ∧
      ¬ w'.ServesNoChange sample false sampleFile := by
  obtain ⟨w, v, w', hw, hclean, hr, hbad⟩ := exists_reopened 11 0
    (f := fun _ _ w' => decide (¬ w'.ServesNoChange sample false sampleFile)) (by decide +kernel)
  exact ⟨w, v, w', hw, hclean, hr, of_decide_eq_true hbad⟩

end World

end Afs
