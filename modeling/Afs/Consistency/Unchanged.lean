import Afs.Failures.Restart
import Afs.Failures.Unset

/-!
# Files that did not change

An error-free reply to `CREATE`, `STORE` or `FETCH` carries the time of the server's file, and the
client records it. As long as the server's file has this time and the client records nothing else
under the hash of the path, an open does not find the file newer and keeps the copy, also after the
client was started again with the table on disk.
-/

namespace Afs

open Posix Interaction Transition

/-- No error-free reply to a creation, a store or a fetch arrives. -/
def Cmd.Undated (env : Env) (c : Cmd) (s : St) : Prop :=
  match c with
  | .rpc r => ∀ m ∈ (env.attempt r s).1, r.dated m = none
  | .retried r => ∀ m ∈ (env.exec (.retried r) s).1, r.dated m = none
  | _ => True

instance (env : Env) : (c : Cmd) → (s : St) → Decidable (c.Undated env s)
  | .rpc r, s => inferInstanceAs (Decidable (∀ m ∈ (env.attempt r s).1, r.dated m = none))
  | .retried r, s => inferInstanceAs (Decidable (∀ m ∈ (env.exec (.retried r) s).1, r.dated m = none))
  | .sys _, _ | .errno, _ | .get _, _ | .put .., _ | .table, _ | .setTable _, _ => .isTrue trivial

/-- A remote call gets an answer, and an open of a local file a descriptor. -/
def Cmd.Succeeds (env : Env) (c : Cmd) (s : St) : Prop :=
  match c with
  | .sys (.openF p fl mode) => ((Sys.openF p fl mode).exec s.client.proc).1 ≠ (-1 : Int)
  | .rpc r => (env.attempt r s).1 ≠ none
  | .retried r => (env.exec (.retried r) s).1 ≠ none
  | _ => True

instance (env : Env) : (c : Cmd) → (s : St) → Decidable (c.Succeeds env s)
  | .sys (.openF p fl mode), s =>
    inferInstanceAs (Decidable (((Sys.openF p fl mode).exec s.client.proc).1 ≠ (-1 : Int)))
  | .rpc r, s => inferInstanceAs (Decidable ((env.attempt r s).1 ≠ none))
  | .retried r, s => inferInstanceAs (Decidable ((env.exec (.retried r) s).1 ≠ none))
  | .sys (.close _), _ | .sys (.lstat _), _ | .sys (.fstat _), _ | .sys (.read ..), _
  | .sys (.pread ..), _ | .sys (.write ..), _ | .sys (.pwrite ..), _ | .sys (.lseek ..), _
  | .sys (.truncate ..), _ | .sys (.ftruncate ..), _ | .sys (.fsync _), _ | .sys (.unlink _), _
  | .sys (.remove _), _ | .sys (.rename ..), _ | .sys (.mkdir ..), _ | .sys (.rmdir _), _
  | .sys (.chmod ..), _ | .sys (.lchown ..), _ | .sys (.utimens ..), _ | .sys (.readdir _), _ | .errno, _
  | .get _, _ | .put .., _ | .table, _ | .setTable _, _ => .isTrue trivial

/-- The command puts nothing under the key. -/
def Cmd.Leaves (key : Int64) : Cmd → Prop
  | .put k _ => k ≠ key
  | .setTable _ => False
  | .sys _ | .errno | .rpc _ | .retried _ | .get _ | .table => True

/-- No reply to the request has a time that is recorded. -/
def Request.Dateless (r : Request) : Prop := ∀ m, r.dated m = none

/-- The command stays at the client and leaves the table. -/
def Cmd.Rests : Cmd → Prop
  | .sys _ | .errno | .get _ | .table => True
  | .rpc _ | .retried _ | .put .. | .setTable _ => False

section Programs

variable {env : Env} {junk : Junk} {p dir : Path} {s t : St} {fh : Int} {α : Type}

/-- The table has the time of the server's file. -/
def St.Timed (env : Env) (p : Path) (s : St) : Prop :=
  ∃ g, s.server.fs.look (getServerPath p env.root_path) = some g ∧
    s.client.ht.get p = Int64.ofNat g.mtim.tv_nsec

theorem Cmd.Rests.sends {R : Request → Prop} {c : Cmd} (hc : c.Rests) : c.Sends R := by
  cases c with
  | sys c | errno | get filename | table => trivial
  | rpc r | retried r | put key value | setTable ht => exact hc.elim

/-- No handler of a coming attempt meets a fault. -/
def St.NetFaultless (s : St) : Prop := ∀ d ∈ s.net, d.Faultless

/-- Every command leaves the coming attempts, or uses up a part of them. -/
theorem exec_netFaultless (c : Cmd) (h : s.NetFaultless) : (env.exec c s).2.NetFaultless := by
  cases c with
  | rpc r =>
      intro d hd
      change d ∈ (env.attempt r s).2.net at hd
      rw [Env.attempt_net] at hd
      exact h d (List.mem_of_mem_tail hd)
  | retried r => exact Env.retryLoop_net _ s h
  | sys c | errno | get filename | put key value | table | setTable ht => exact h

theorem run_netFaultless (q : Prog clientSig α) (h : s.NetFaultless) :
    (q.run env.exec s).2.NetFaultless :=
  (Prog.Uses.any q).invariant (fun c _ _ hu => exec_netFaultless c hu) h

/-- Without such requests no such reply arrives. -/
theorem dateless_undated {q : Prog clientSig α} (hq : q.Uses (Cmd.Sends Request.Dateless)) :
    q.Meets env.exec (Cmd.Undated env) s := by
  refine Prog.Meets.mono hq.meets fun c u hc => ?_
  cases c with
  | rpc r | retried r => exact fun m _ => hc m
  | sys c | errno | get filename | put key value | table | setTable ht => trivial

theorem St.Timed.run {q : Prog clientSig α} (hq : q.Uses Cmd.Rests) (h : s.Timed env p) :
    (q.run env.exec s).2.Timed env p := by
  refine hq.invariant (fun c u hc hu => ?_) h
  cases c with
  | sys c | errno | get filename | table => exact hu
  | rpc r | retried r | put key value | setTable ht => exact hc.elim

/-- A program may end with the time of the server's file in the table, when an error-free reply
arrived in it. -/
abbrev Times (env : Env) (p : Path) (q : Prog clientSig α) : Prop :=
  q.Leads env.exec (Cmd.Undated env) St.NetFaultless (St.Timed env p)

theorem dump_rests (cache_path : Path) : (Client.dump cache_path).Uses Cmd.Rests := by
  refine Prog.Uses.call trivial fun fptr => ?_
  split
  · trivial
  · refine Prog.Uses.call trivial fun ht => ?_
    exact Prog.Uses.call trivial fun _ => Prog.Uses.call trivial fun _ => trivial

/-- Recording the time of the server's file. -/
theorem record_timed {time : Int64} {f : Unit → Prog clientSig α} (hf : ∀ a, (f a).Uses Cmd.Rests)
    (h : ∃ g, s.server.fs.look (getServerPath p env.root_path) = some g ∧
      time = Int64.ofNat g.mtim.tv_nsec) :
    ((Client.record p dir time >>= f).run env.exec s).2.Timed env p := by
  obtain ⟨g, hg, htime⟩ := h
  have hput : (s.withTable (s.client.ht.put (hashKey p) time)).Timed env p := by
    refine ⟨g, hg, ?_⟩
    rw [← htime]
    exact HashTable.get_put_self ..
  change (((Client.dump dir >>= f).run env.exec _).2).Timed env p
  exact hput.run ((dump_rests dir).bind hf)

theorem record_undated {time : Int64} {f : Unit → Prog clientSig α} (hf : ∀ a, (f a).Uses Cmd.Rests) :
    (Client.record p dir time >>= f).Meets env.exec (Cmd.Undated env) s := by
  refine dateless_undated (Prog.Uses.call trivial fun _ => ?_)
  exact ((dump_rests dir).bind hf).mono fun c hc => hc.sends

/-- What is known of the server when an error-free reply arrives. -/
private theorem rpc_dated {r : Request} (hs : s.NetFaultless) (hno : ¬ (Cmd.rpc r).Undated env s) :
    ∃ m q time, (env.exec (.rpc r) s).1 = some m ∧ r.dated m = some (q, time) ∧
      ∃ g, (env.exec (.rpc r) s).2.server.fs.look (getServerPath q env.root_path) = some g ∧
        time = Int64.ofNat g.mtim.tv_nsec := by
  simp only [Cmd.Undated, not_forall] at hno
  obtain ⟨m, hm, hd⟩ := hno
  obtain ⟨⟨q, time⟩, hd⟩ := Option.ne_none_iff_exists'.mp hd
  exact ⟨m, q, time, hm, hd, Env.attempt_dated hs (Prod.ext hm rfl) hd⟩

private theorem retried_dated {r : Request} (hs : s.NetFaultless)
    (hno : ¬ (Cmd.retried r).Undated env s) :
    ∃ m q time, (env.exec (.retried r) s).1 = some m ∧ r.dated m = some (q, time) ∧
      ∃ g, (env.exec (.retried r) s).2.server.fs.look (getServerPath q env.root_path) = some g ∧
        time = Int64.ofNat g.mtim.tv_nsec := by
  simp only [Cmd.Undated, not_forall] at hno
  obtain ⟨m, hm, hd⟩ := hno
  obtain ⟨⟨q, time⟩, hd⟩ := Option.ne_none_iff_exists'.mp hd
  exact ⟨m, q, time, hm, hd, Env.retried_dated hs hm hd⟩

/-- A creation. -/
theorem afsCreate_times : Times env p (Client.afsCreate p dir fh) := by
  refine Prog.Leads.call (fun _ => trivial) (fun _ h => h) fun fd => ?_
  split
  · exact Prog.Leads.of_meets fun _ _ => dateless_undated (Prog.Uses.call trivial fun _ => trivial)
  · refine Prog.Leads.last (fun status s => ?_) fun s hs hno => ?_
    · cases status with
      | some reply => exact record_undated fun _ => trivial
      | none => exact dateless_undated (Prog.Uses.call trivial fun _ => trivial)
    · obtain ⟨m, q, time, hm, hd, hg⟩ := rpc_dated hs hno
      simp only [Request.dated, Option.ite_none_right_eq_some] at hd
      obtain ⟨rfl, rfl⟩ := Prod.mk.inj (Option.some.inj hd.2)
      rw [hm]
      exact record_timed (fun _ => trivial) hg

/-- A fetch. -/
theorem afsFetch_times : Times env p (Client.afsFetch p dir) := by
  refine Prog.Leads.last (fun status s => ?_) fun s hs hno => ?_
  · cases status with
    | some reply => exact record_undated fun _ => trivial
    | none => exact dateless_undated (Prog.Uses.call trivial fun _ => trivial)
  · obtain ⟨m, q, time, hm, hd, hg⟩ := retried_dated hs hno
    simp only [Request.dated, Option.ite_none_right_eq_some] at hd
    obtain ⟨rfl, rfl⟩ := Prod.mk.inj (Option.some.inj hd.2)
    rw [hm]
    exact record_timed (fun _ => trivial) hg

/-- A store. -/
theorem afsStore_times (buf : Bytes) (size : Int32) : Times env p (Client.afsStore p dir buf size) := by
  unfold Client.afsStore
  split
  · exact Prog.Leads.of_meets fun _ _ => trivial
  · refine Prog.Leads.last (fun status s => ?_) fun s hs hno => ?_
    · cases status with
      | some reply => exact record_undated fun _ => trivial
      | none => trivial
    · obtain ⟨m, q, time, hm, hd, hg⟩ := retried_dated hs hno
      simp only [Request.dated, Option.ite_none_right_eq_some] at hd
      obtain ⟨rfl, rfl⟩ := Prod.mk.inj (Option.some.inj hd.2)
      rw [hm]
      exact record_timed (fun _ => trivial) hg

/-- A sequence whose rest leaves the table. -/
private theorem times_bind {β : Type} {q : Prog clientSig α} {f : α → Prog clientSig β}
    (hq : Times env p q) (hf : ∀ a, (f a).Uses Cmd.Rests) : Times env p (q >>= f) :=
  hq.bind_left (fun a _ => dateless_undated ((hf a).mono fun _ hc => hc.sends))
    fun a _ hs => hs.run (hf a)

/-- Asking for attributes gives no time to record. -/
theorem openCopy_undated : (Client.openCopy junk p dir).Meets env.exec (Cmd.Undated env) s :=
  dateless_undated (Client.MadeFor.sends (Client.openCopy_made fun _ => rfl))

/-- An open. -/
theorem afsOpen_times : Times env p (Client.afsOpen junk p dir fh) := by
  refine Prog.Leads.bind_right (fun _ => openCopy_undated) (fun _ hs => run_netFaultless _ hs) ?_
  rintro ⟨fd, fetch⟩
  cases fetch with
  | false => exact Prog.Leads.of_meets fun _ _ => dateless_undated (Prog.Uses.call trivial fun _ => trivial)
  | true =>
      refine times_bind ?_ fun early => ?_
      · refine Prog.Leads.call (fun _ => trivial) (fun _ h => h) fun rc => ?_
        split
        · exact Prog.Leads.of_meets fun _ _ => dateless_undated (Prog.Uses.call trivial fun _ => trivial)
        · refine times_bind afsFetch_times fun out => ?_
          obtain ⟨rc, out⟩ := out
          dsimp only
          split
          · trivial
          · exact Prog.Uses.call trivial fun _ => Prog.Uses.call trivial fun _ => trivial
      · cases early with
        | some rc => trivial
        | none => exact Prog.Uses.call trivial fun _ => trivial

/-- A release. -/
theorem afsRelease_times : Times env p (Client.afsRelease junk p dir fh) := by
  refine Prog.Leads.call (fun _ => trivial) (fun _ h => h) fun res => ?_
  refine Prog.Leads.call (fun _ => trivial) (fun _ h => h) fun modified => ?_
  split
  · refine Prog.Leads.call (fun _ => trivial) (fun _ h => h) fun rc => ?_
    refine Prog.Leads.call (fun _ => trivial) (fun _ h => h) fun fd => ?_
    refine Prog.Leads.call (fun _ => trivial) (fun _ h => h) fun got => ?_
    exact times_bind (afsStore_times _ _) fun _ => trivial
  · exact Prog.Leads.of_meets fun _ _ => trivial

/-- An operation that sends no requests with times to record. -/
private theorem times_of_dateless {op : Op} (h : ∀ r, op.Requests p r → r.Dateless) :
    Times env p (op.prog junk p dir fh) :=
  Prog.Leads.of_meets fun _ _ => dateless_undated
    ((Op.prog_bounded junk p dir fh op).mono fun _ hc => hc.sends.mono h)

/-- Every operation. -/
theorem Op.prog_times (op : Op) : Times env p (op.prog junk p dir fh) := by
  cases op with
  | create => exact times_bind afsCreate_times fun _ => trivial
  | openF => exact times_bind afsOpen_times fun _ => trivial
  | release k => exact times_bind afsRelease_times fun _ => trivial
  | read | write | fsync | truncate | chown | utimens => exact times_of_dateless fun _ hr => hr.elim
  | getattr | unlink | chmod | mkdir | rmdir | readdir =>
      exact times_of_dateless fun _ hr => hr ▸ fun _ => rfl

/-- The first part of an open, when the copy opens and error-free attributes arrive. -/
private theorem openCopy_answered {reply : GetattrRes}
    (hfd : ((Sys.openF (getLocalPath p dir) { append := true } S_IRWXUG).exec s.client.proc).1 ≠ (-1 : Int))
    (hreply : ((s.opened p dir).asked env p).1 = some reply) (herr : reply.err = 0) :
    (Client.openCopy junk p dir).run env.asking (s, []) =
      (some (((Sys.openF (getLocalPath p dir) { append := true } S_IRWXUG).exec s.client.proc).1,
        decide (reply.mtime.toInt > (s.client.ht.get p).toInt)),
        ((s.opened p dir).asked env p).2, [.getattr p]) := by
  have hopen : (env.asking (.sys (.openF (getLocalPath p dir) { append := true } S_IRWXUG))
      (s, [])).1 ≠ (-1 : Int) := hfd
  have hnext : (env.asking (.sys (.openF (getLocalPath p dir) { append := true } S_IRWXUG))
      (s, [])).2 = (s.opened p dir, []) := rfl
  have hask : (env.asking (.retried (.getattr p)) (s.opened p dir, [])).1 = some reply := hreply
  have htable : ((s.opened p dir).asked env p).2.client.ht = s.client.ht :=
    (Env.retryLoop_client env (.getattr p) _ (s.opened p dir)).table
  have hentry : (env.asking (.get p) (env.asking (.retried (.getattr p)) (s.opened p dir, [])).2).1 =
      s.client.ht.get p := congrArg (fun ht => HashTable.get ht p) htable
  unfold Client.openCopy Client.afsGetattr
  rw [Prog.run_call_bind, if_neg hopen, hnext, Prog.bind_assoc, Prog.run_call_bind, hask]
  simp only [herr, ne_eq, not_true_eq_false, if_false, Prog.pure_eq, Prog.ret_bind]
  rw [Prog.run_call_bind, hentry]
  rfl

/-- An open that finds the time of the server's file in the table asks for the attributes and no
more, when the copy opens and an answer arrives. -/
theorem openF_keeps (hnet : s.NetFaultless) (ht : s.Timed env p)
    (hm : (Op.openF.prog junk p dir fh).Meets env.exec (Cmd.Succeeds env) s) :
    ∃ r t, (Op.openF.prog junk p dir fh).run env.asking (s, []) = (some r, t, [.getattr p]) ∧
      r.ret = 0 ∧ t.client.ht = s.client.ht ∧ t.disk.look = s.disk.look := by
  obtain ⟨g, hg, htime⟩ := ht
  obtain ⟨hfd, hrest⟩ := Prog.meets_call_bind.mp hm.of_bind.1.of_bind.1
  have hfd : ((Sys.openF (getLocalPath p dir) { append := true } S_IRWXUG).exec s.client.proc).1 ≠
      (-1 : Int) := hfd
  have hfd' : (env.exec (.sys (.openF (getLocalPath p dir) { append := true } S_IRWXUG)) s).1 ≠
      (-1 : Int) := hfd
  rw [if_neg hfd'] at hrest
  obtain ⟨reply, hreply⟩ := Option.ne_none_iff_exists'.mp
    (show ((s.opened p dir).asked env p).1 ≠ none from (Prog.meets_call_bind.mp hrest.of_bind.1).1)
  obtain ⟨herr, hmtime⟩ := Env.getattr_faultless (s := s.opened p dir) hnet hg hreply
  have hnot : ¬ reply.mtime.toInt > (s.client.ht.get p).toInt := by
    rw [hmtime, htime, toInt_mtime, toInt_time]
    exact Int.lt_irrefl _
  have hwaits := Env.retryLoop_client env (.getattr p)
    ((6 - (s.opened p dir).client.retries).toNat + 1) (s.opened p dir)
  unfold Op.prog Client.afsOpen
  rw [Prog.bind_assoc, Prog.run_bind, openCopy_answered hfd hreply herr, decide_eq_false hnot]
  refine ⟨_, _, rfl, rfl, hwaits.table, ?_⟩
  refine (Sys.exec_readsOnly (c := .lstat (getLocalPath p dir)) trivial _).trans ?_
  refine (congrArg Fs.look hwaits.fs).trans ?_
  exact Sys.exec_readsOnly (c := .openF (getLocalPath p dir) { append := true } S_IRWXUG) ⟨rfl, rfl⟩ _

/-- A command that puts nothing under the key of a path leaves its entry. -/
theorem exec_leaves {c : Cmd} (hc : c.Leaves (hashKey p)) :
    (env.exec c s).2.client.ht.get p = s.client.ht.get p := by
  cases c with
  | sys c | errno | get filename | table => rfl
  | rpc r => exact congrArg (fun ht => HashTable.get ht p) (Env.attempt_client env r s).1.table
  | retried r => exact congrArg (fun ht => HashTable.get ht p) (Env.retryLoop_client env r _ s).table
  | put key value => exact HashTable.get_put_of_ne s.client.ht (Ne.symm hc) value
  | setTable ht => exact hc.elim

end Programs

namespace World

variable {ι : Type} [DecidableEq ι] {P : Params ι} {w₀ w₁ w w' : World ι} {i : ι} {p : Path}

/-- An operation of the client on the path in which an error-free reply to a creation, a store or a
fetch arrives, when no handler meets a fault. -/
structure Records (P : Params ι) (i : ι) (p : Path) (w : World ι) (c : Call ι) : Prop where
  client : c.client = i
  path : c.path = p
  net : ∀ d ∈ c.net, d.Faultless
  dated : ∃ fh ∈ w.handle c, ¬ (c.op.prog c.junk p (P.cache_path i) fh).Meets
    (Env.exec ⟨P.root_path, c.junk⟩) (Cmd.Undated ⟨P.root_path, c.junk⟩)
    (w.state i c.now c.faults c.net)

/-- An event in which the client puts nothing under the key of the path, and is started with its
table only. -/
def LeavesEntry (P : Params ι) (i : ι) (p : Path) (w : World ι) : Event ι → Prop
  | .call c => c.client = i → ∀ fh ∈ w.handle c,
      (c.op.prog c.junk c.path (P.cache_path i) fh).Meets (Env.exec ⟨P.root_path, c.junk⟩)
        (fun d _ => d.Leaves (hashKey p)) (w.state i c.now c.faults c.net)
  | .start j _ _ faults => j = i → faults = [] ∧ (w.clients i).Saved (P.cache_path i)
  | .late .. => True

/-- An open of the path by the client whose remote calls are answered by handlers that meet no fault,
and whose opens of local files succeed. -/
structure Opens (P : Params ι) (i : ι) (p : Path) (w : World ι) (o : Call ι) : Prop where
  client : o.client = i
  path : o.path = p
  op : o.op = .openF
  net : ∀ d ∈ o.net, d.Faultless
  succeeds : (Op.openF.prog o.junk p (P.cache_path i) 0).Meets (Env.exec ⟨P.root_path, o.junk⟩)
    (Cmd.Succeeds ⟨P.root_path, o.junk⟩) (w.state i o.now o.faults o.net)

/-- The client has the time of the server's file in its table. -/
def Timed (P : Params ι) (i : ι) (p : Path) (w : World ι) : Prop :=
  ∃ g, w.served P p = some g ∧ w.recorded i p = Int64.ofNat g.mtim.tv_nsec

/-- Right after the operation the client has the time of the server's file. -/
theorem Records.timed {c : Call ι} {x : Option Result} (h : w.Records P i p c)
    (hs : w.perform P c = some (x, w')) : w'.Timed P i p := by
  obtain ⟨rfl, rfl, hnet, fh, hfh, hno⟩ := h
  obtain ⟨fh', t, hfh', hrun, hclient, hserver, -⟩ := perform_run hs
  obtain rfl := Option.some.inj (hfh'.symm.trans hfh)
  have hstart : (w.state c.client c.now c.faults c.net).NetFaultless := hnet
  obtain ⟨g, hg, htime⟩ := Op.prog_times c.op _ hstart hno
  rw [hrun] at hg htime
  exact ⟨g, by rw [served, hserver]; exact hg, by rw [recorded, hclient]; exact htime⟩

/-- An event leaves the entry. -/
theorem step_leaves {e : Event ι} (he : w.LeavesEntry P i p e) (hs : w.step P e = some w') :
    w'.recorded i p = w.recorded i p := by
  unfold recorded
  rcases client_step hs i with hsame | ⟨c, fh, rfl, hi, hfh, hclient⟩ | ⟨now, junk, faults, rfl, -⟩
  · rw [hsame]
  · rw [hclient]
    exact (he hi fh hfh).invariant (I := fun s => s.client.ht.get p = (w.clients i).ht.get p)
      (fun c s hc h => (exec_leaves hc).trans h) rfl
  · obtain ⟨rfl, hsaved⟩ := he rfl
    obtain ⟨v, hv, -, hht, -⟩ := start_saved hsaved now junk
    obtain rfl := Option.some.inj (hv.symm.trans hs)
    rw [hht]

/-- As long as the server's file has the time that it had when the client recorded a time of a reply,
and the client put nothing under the key of the path since then, an open sends a request for the
attributes and no other, and leaves the copy and the table. -/
theorem unchanged_not_fetched {c o : Call ι} {x : Option Result} {es : List (Event ι)}
    (hc : w₀.Records P i p c) (hs : w₀.perform P c = some (x, w₁))
    (hr : Run (World.step P) (LeavesEntry P i p) w₁ es w)
    (hsame : (w.served P p).map (·.mtim) = (w₁.served P p).map (·.mtim)) (ho : w.Opens P i p o) :
    (observed ⟨P.root_path, o.junk⟩ (Op.openF.prog o.junk p (P.cache_path i) 0)
      (w.state i o.now o.faults o.net)).requests = [.getattr p] ∧
    ∀ y w', w.perform P o = some (y, w') → (∃ r, y = some r ∧ r.ret = 0) ∧
      w'.cached P i p = w.cached P i p ∧ (w'.clients i).ht = (w.clients i).ht := by
  obtain ⟨g, hg, htime⟩ := hc.timed hs
  rw [hg] at hsame
  obtain ⟨g', hg', hmtim⟩ := Option.map_eq_some_iff.mp hsame
  have hentry : w.recorded i p = w₁.recorded i p :=
    hr.invariant (fun w => w.recorded i p = w₁.recorded i p) rfl
      fun _ _ _ h he hs => (step_leaves he hs).trans h
  obtain ⟨rfl, rfl, hop, hnet, hsucceeds⟩ := ho
  have htimed : (w.state o.client o.now o.faults o.net).Timed ⟨P.root_path, o.junk⟩ o.path :=
    ⟨g', hg', by rw [hmtim]; exact hentry.trans htime⟩
  have hstart : (w.state o.client o.now o.faults o.net).NetFaultless := hnet
  obtain ⟨r, t, hrun, hret, hht, hlook⟩ := openF_keeps hstart htimed hsucceeds
  constructor
  · rw [observed, hrun]
  · intro y w' hperf
    obtain ⟨fh, u, hfh, hrun', hclient, -⟩ := perform_run hperf
    have hzero : fh = 0 := by
      rw [handle, hop] at hfh
      exact (Option.some.inj hfh).symm
    subst hzero
    rw [hop] at hrun'
    obtain ⟨hres, hend⟩ := @Prog.run_logged clientSig Result St (Env.exec ⟨P.root_path, o.junk⟩)
      (w.state o.client o.now o.faults o.net) Request Cmd.request []
      (Op.openF.prog o.junk o.path (P.cache_path o.client) 0)
    rw [← Env.asking, hrun, hrun'] at hres hend
    obtain rfl : t = u := hend
    refine ⟨⟨r, hres.symm, hret⟩, ?_, ?_⟩
    · rw [cached, cached, disk, hclient]
      exact congrArg (fun f => (f (getLocalPath o.path (P.cache_path o.client))).map (·.bytes)) hlook
    · rw [hclient]
      exact hht

/-- A client that has just been started opens its file, the other client opens it too, and then the first
one is started again. -/
def steadyRun : List (Event (Bool)) :=
  [.start false (sampleTime 0 0) .zero [], .call (sampleCall false 1 .openF []),
    .call (sampleCall true 2 .openF []), .start false (sampleTime 3 0) .zero []]

/-- After this run the first client does not fetch again. -/
theorem unchanged_not_fetched_restarted :
    ∃ w, steadyRun.foldlM (World.step sample) sampleBoot = some w ∧
      (observed ⟨sample.root_path, .zero⟩ (Op.openF.prog .zero sampleFile (sample.cache_path false) 0)
        (w.state false (sampleTime 4 0) [] [])).requests = [.getattr sampleFile] := by
  have h : ((sampleBoot.step sample (.start false (sampleTime 0 0) .zero [])).bind fun w₀ =>
      (w₀.perform sample (sampleCall false 1 .openF [])).bind fun out =>
        (out.2.step sample (.call (sampleCall true 2 .openF []))).bind fun w₂ =>
          (w₂.step sample (.start false (sampleTime 3 0) .zero [])).map fun w =>
            decide (¬ (Op.openF.prog .zero sampleFile (sample.cache_path false) 0).Meets
                (Env.exec ⟨sample.root_path, .zero⟩) (Cmd.Undated ⟨sample.root_path, .zero⟩)
                (w₀.state false (sampleTime 1 0) [] []) ∧
              (w.served sample sampleFile).map (·.mtim) =
                (out.2.served sample sampleFile).map (·.mtim) ∧
              (Op.openF.prog .zero sampleFile (sample.cache_path false) 0).Meets
                (Env.exec ⟨sample.root_path, .zero⟩) (Cmd.Succeeds ⟨sample.root_path, .zero⟩)
                (w.state false (sampleTime 4 0) [] []) ∧
              w₀.KeepsDatabase sample false (.call (sampleCall false 1 .openF [])))) = some true := by
    decide +kernel
  obtain ⟨w₀, hstart, h⟩ := Option.bind_eq_some_iff.mp h
  obtain ⟨⟨x, w₁⟩, hperf, h⟩ := Option.bind_eq_some_iff.mp h
  obtain ⟨w₂, hother, h⟩ := Option.bind_eq_some_iff.mp h
  obtain ⟨w, hagain, h⟩ := Option.map_eq_some_iff.mp h
  obtain ⟨hdated, hsame, hsucceeds, hkeeps⟩ := of_decide_eq_true h
  have hfirst : w₀.step sample (.call (sampleCall false 1 .openF [])) = some w₁ := by
    rw [step, hperf]
    rfl
  have hfresh : w₀.Fresh sample false := fresh_of_start (start_sampleBoot.sound.cache false) rfl hstart
  have hquiet : w₁.KeepsDatabase sample false (.call (sampleCall true 2 .openF [])) :=
    fun hi => absurd hi (by decide)
  have hsaved : (w₂.clients false).Saved (sample.cache_path false) :=
    step_saved (step_saved hfresh.saved hkeeps hfirst) hquiet hother
  have hr : Run (World.step sample) (LeavesEntry sample false sampleFile) w₁
      [.call (sampleCall true 2 .openF []), .start false (sampleTime 3 0) .zero []] w :=
    Run.cons (fun hi => absurd hi (by decide)) hother (Run.single (fun _ => ⟨rfl, hsaved⟩) hagain)
  have hrecords : w₀.Records sample false sampleFile (sampleCall false 1 .openF []) :=
    ⟨rfl, rfl, fun _ hd => absurd hd List.not_mem_nil, 0, rfl, hdated⟩
  have hopens : w.Opens sample false sampleFile (sampleCall false 4 .openF []) :=
    ⟨rfl, rfl, rfl, fun _ hd => absurd hd List.not_mem_nil, hsucceeds⟩
  refine ⟨w, ?_, (unchanged_not_fetched hrecords hperf hr hsame hopens).1⟩
  simp only [steadyRun, List.foldlM_cons, hstart, hfirst, hother, hagain, Option.bind_eq_bind,
    Option.bind_some, List.foldlM_nil, Option.pure_def]

end World

end Afs
