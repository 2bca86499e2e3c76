import Afs.Core.Guards
import Afs.Ops.Replies
import Afs.Failures.Restart
import Afs.Failures.Unset
import Afs.Table.Chains

/-!
# Times, the modified flag and the missing entry

The table holds two kinds of values under one type: the times that the server reports, and the flag that
a write leaves. What `get` returns for a missing entry is a third. Every value that an operation records
is kept here with the operation that recorded it, and the table is compared with this record.
-/

namespace Afs

open Posix Interaction Transition

/-- A nanosecond part of a time. -/
def IsTime (value : Int64) : Prop := 0 ≤ value.toInt ∧ value.toInt ≤ 999999999

theorem isTime_ofNat (t : Timespec) : IsTime (Int64.ofNat t.tv_nsec) := by
  have hlt := t.tv_nsec_lt
  unfold IsTime
  rw [toInt_time]
  omega

theorem isTime_zero : IsTime 0 := isTime_ofNat .zero

/-- The time in a reply, of which a handler that fails leaves the default. -/
def Request.time : (r : Request) → r.Reply → Option Int64
  | .create _, m => some m.time
  | .store _, m => some m.time
  | .fetch _, m => some m.time
  | .getattr _, _ | .unlink _, _ | .chmod .., _ | .mkdir .., _ | .rmdir _, _ | .ls _, _ => none

section Server

open Server

variable {junk : Junk} {root_path : Path}

/-- Nothing is asked of the commands of a handler. -/
private abbrev Replies {α : Type} (Q : α → Prop) (p : Prog procSig α) : Prop :=
  p.Guarded (fun _ _ => True) (fun _ => True) True Q

/-- Whatever its system calls return, a handler's reply has a time or the default. -/
theorem Server.handle_time (r : Request) :
    Replies (fun a : Response r.Reply => ∀ t ∈ r.time a.reply, IsTime t)
      (handle junk root_path r) := by
  have hzero : ∀ t ∈ some (0 : Int64), IsTime t := by
    rintro t ⟨⟩
    exact isTime_zero
  have htime : ∀ (s : Stat), ∀ t ∈ some (Int64.ofNat s.st_mtim.tv_nsec), IsTime t := by
    rintro s t ⟨⟩
    exact isTime_ofNat s.st_mtim
  cases r with
  | create path =>
      refine Prog.Guarded.call trivial fun fd _ => ?_
      split
      · exact Prog.Guarded.call trivial fun e _ => hzero
      · exact Prog.Guarded.call trivial fun res _ => Prog.Guarded.call trivial fun _ _ => htime _
  | store x =>
      refine Prog.Guarded.call trivial fun fd _ => ?_
      split
      · exact Prog.Guarded.call trivial fun e _ => hzero
      · exact Prog.Guarded.call trivial fun _ _ => Prog.Guarded.call trivial fun res _ =>
          Prog.Guarded.call trivial fun _ _ => htime _
  | fetch path =>
      refine Prog.Guarded.call trivial fun fd _ => ?_
      split
      · exact hzero
      · refine Prog.Guarded.call trivial fun res _ => Prog.Guarded.call trivial fun _ _ =>
          Prog.Guarded.call trivial fun got _ => Prog.Guarded.call trivial fun res _ =>
          Prog.Guarded.call trivial fun _ _ => ?_
        split
        · exact hzero
        · exact htime _
  | getattr path | unlink path | chmod path mode | mkdir path mode | rmdir path | ls path =>
      exact Prog.Guarded.any (fun _ => trivial) trivial (fun a t ht => by cases ht) _

end Server

/-- The replies to a command have times. -/
def Cmd.Timed : (c : Cmd) → c.Res → Prop
  | .rpc r, a | .retried r, a => ∀ m ∈ a, ∀ t ∈ r.time m, IsTime t
  | .sys _, _ | .errno, _ | .get _, _ | .put .., _ | .table, _ | .setTable _, _ => True

/-- A value that a command records is one of these, and the table is not replaced. -/
def Cmd.Puts (V : Int64 → Prop) : Cmd → Prop
  | .put _ value => V value
  | .setTable _ => False
  | .sys _ | .errno | .rpc _ | .retried _ | .get _ | .table => True

theorem Env.attempt_time {env : Env} {r : Request} {s t : St} {m : r.Reply}
    (h : env.attempt r s = (some m, t)) : ∀ u ∈ r.time m, IsTime u := by
  obtain ⟨x, v, a, -, hserve, -, rfl, -⟩ := attempt_some h
  have hrun := (Prod.mk.inj hserve).1
  exact (Server.handle_time r).of_run (fun _ _ => trivial) (Prod.ext hrun rfl)

/-- Every answer that reaches a client has a time. -/
theorem Env.exec_timed (env : Env) (c : Cmd) (s : St) : c.Timed (env.exec c s).1 := by
  cases c with
  | rpc r =>
      intro m hm
      exact attempt_time (Prod.ext hm rfl)
  | retried r =>
      intro m hm
      have hloop : env.retryLoop r ((6 - s.client.retries).toNat + 1) s =
          (some m, (env.exec (.retried r) s).2) := Prod.ext hm rfl
      obtain ⟨u, u', -, ha, -⟩ := retryLoop_some (I := fun _ => True) (fun _ _ _ => trivial) trivial hloop
      exact attempt_time ha
  | sys c | errno | get filename | put key value | table | setTable ht => trivial

/-- What an operation records: a write the flag, every other operation a time. -/
def Op.Stamps (value : Int64) : Op → Prop
  | .write .. => value = modifiedFlag
  | .create | .openF | .read .. | .release _ | .getattr | .fsync _ | .truncate _ | .chown ..
  | .chmod _ | .utimens .. | .unlink | .mkdir _ | .rmdir | .readdir => IsTime value

section Client

open Client

variable {junk : Junk} {path cache_path : Path} {V : Int64 → Prop} {α : Type}

/-- The values that a program records when the replies have times. -/
private abbrev Recording (V : Int64 → Prop) (p : Prog clientSig α) : Prop :=
  p.Guarded Cmd.Timed (Cmd.Puts V) True fun _ => True

private theorem record_recording {value : Int64} (hv : V value) :
    Recording V (record path cache_path value) := by
  refine Prog.Guarded.call hv fun _ _ => Prog.Guarded.call trivial fun fptr _ => ?_
  split
  · trivial
  · exact Prog.Guarded.call trivial fun _ _ => Prog.Guarded.call trivial fun _ _ =>
      Prog.Guarded.call trivial fun _ _ => trivial

private theorem errno_recording {f : Int → α} : Recording V (errno >>= fun e => pure (f e)) :=
  Prog.Guarded.call trivial fun _ _ => trivial

private theorem checked_recording {failed : Prop} [Decidable failed] {f : Int → α} {a : α} :
    Recording V (if failed then errno >>= fun e => pure (f e) else pure a) := by
  split
  · exact errno_recording
  · trivial

private theorem afsFetch_recording : Recording IsTime (afsFetch path cache_path) := by
  refine Prog.Guarded.call trivial fun status hstatus => ?_
  cases status with
  | some reply => exact (record_recording (hstatus reply rfl _ rfl)).bind fun _ _ => trivial
  | none => exact errno_recording

private theorem afsGetattr_recording {stats : Stat} : Recording V (afsGetattr path stats) := by
  refine Prog.Guarded.call trivial fun status _ => ?_
  split
  · split <;> trivial
  · exact errno_recording

private theorem afsOpen_recording {fh : Int} : Recording IsTime (afsOpen junk path cache_path fh) := by
  have hcopy : Recording IsTime (openCopy junk path cache_path) := by
    refine Prog.Guarded.call trivial fun fd _ => ?_
    split
    · exact Prog.Guarded.call trivial fun _ _ => trivial
    · exact afsGetattr_recording.bind fun x _ => Prog.Guarded.call trivial fun _ _ => trivial
  have hfetch : ∀ fd, Recording IsTime (fetchNewCopy junk path cache_path fd) := by
    intro fd
    refine Prog.Guarded.call trivial fun rc _ => ?_
    split
    · exact errno_recording
    · refine afsFetch_recording.bind fun x _ => ?_
      split
      split
      · trivial
      · exact Prog.Guarded.call trivial fun _ _ => Prog.Guarded.call trivial fun _ _ => trivial
  refine hcopy.bind fun x _ => ?_
  obtain ⟨fd, fetch⟩ := x
  cases fetch with
  | true =>
      refine (hfetch fd).bind fun early _ => ?_
      cases early with
      | some rc => trivial
      | none => exact Prog.Guarded.call trivial fun _ _ => trivial
  | false => exact Prog.Guarded.call trivial fun _ _ => trivial

private theorem afsRelease_recording {fh : Int} :
    Recording IsTime (afsRelease junk path cache_path fh) := by
  refine Prog.Guarded.call trivial fun res _ => Prog.Guarded.call trivial fun modified _ => ?_
  split
  · refine Prog.Guarded.call trivial fun rc _ => Prog.Guarded.call trivial fun fd _ =>
      Prog.Guarded.call trivial fun got _ => ?_
    refine Prog.Guarded.bind (P := fun _ => True) ?_ fun _ _ => trivial
    unfold afsStore
    split
    · trivial
    · refine Prog.Guarded.call trivial fun status hstatus => ?_
      cases status with
      | some reply => exact (record_recording (hstatus reply rfl _ rfl)).bind fun _ _ => trivial
      | none => trivial
  · trivial

private theorem afsWrite_recording {buffer : Bytes} {offset : Nat} :
    Recording (· = modifiedFlag) (afsWrite junk path cache_path buffer offset) := by
  unfold afsWrite
  split
  · refine Prog.Guarded.call trivial fun fd _ => ?_
    refine Prog.Guarded.bind (P := fun _ => True) ?_ fun _ _ => ?_
    · exact Prog.Guarded.call trivial fun _ _ => Prog.Guarded.call trivial fun _ _ =>
        Prog.Guarded.call trivial fun _ _ => Prog.Guarded.call trivial fun _ _ =>
        Prog.Guarded.call trivial fun _ _ => trivial
    · refine Prog.Guarded.call trivial fun ret_code _ => Prog.Guarded.call trivial fun _ _ =>
        Prog.Guarded.call trivial fun _ _ => Prog.Guarded.call trivial fun _ _ =>
        Prog.Guarded.call trivial fun _ _ => ?_
      have hrecord : Recording (· = modifiedFlag) (record path cache_path modifiedFlag) :=
        record_recording rfl
      refine hrecord.bind fun _ _ => ?_
      split
      · exact errno_recording
      · trivial
  · trivial

/-- A command without a reply, and what its result decides. -/
private theorem sys_recording {c : Sys} {f : c.Res → Prog clientSig α}
    (hf : ∀ r, Recording V (f r)) : Recording V (sys c >>= f) :=
  Prog.Guarded.call trivial fun r _ => hf r

/-- An answer without a time is only handed on. -/
private theorem rpc_recording {r : Request} {f : Option r.Reply → α} :
    Recording V (rpc r >>= fun status => pure (f status)) :=
  Prog.Guarded.call trivial fun _ _ => trivial

/-- Every operation records what it is to record. -/
theorem Op.prog_recording (junk : Junk) (path cache_path : Path) (fh : Int) (op : Op) :
    (op.prog junk path cache_path fh).Guarded Cmd.Timed (Cmd.Puts fun value => op.Stamps value) True
      fun _ => True := by
  have hret : ∀ {β : Type} {p : Prog clientSig β} {f : β → Result} {V : Int64 → Prop},
      Recording V p → Recording V (p >>= fun a => pure (f a)) :=
    fun hp => hp.bind fun _ _ => trivial
  cases op with
  | create =>
      refine hret (sys_recording fun fd => ?_)
      split
      · exact errno_recording
      · refine Prog.Guarded.call trivial fun status hstatus => ?_
        cases status with
        | some reply => exact (record_recording (hstatus reply rfl _ rfl)).bind fun _ _ => trivial
        | none => exact errno_recording
  | openF => exact hret afsOpen_recording
  | read k size offset =>
      refine hret (sys_recording fun _ => sys_recording fun fd => sys_recording fun got =>
        sys_recording fun _ => ?_)
      split
      · exact errno_recording
      · trivial
  | write k buffer offset => exact hret afsWrite_recording
  | release k => exact hret afsRelease_recording
  | getattr => exact hret afsGetattr_recording
  | fsync k | truncate size | chown uid gid | utimens a b =>
      exact hret (sys_recording fun _ => checked_recording)
  | chmod mode | unlink | rmdir => exact hret (sys_recording fun _ => rpc_recording)
  | mkdir mode => exact hret rpc_recording
  | readdir =>
      refine hret (Prog.Guarded.call trivial fun status _ => ?_)
      split
      · trivial
      · exact errno_recording

end Client

/-- A value recorded by an operation. -/
structure Recorded where
  op : Op
  node : HashNode

/-- The value goes with the operation. -/
def Recorded.Fits (r : Recorded) : Prop := r.op.Stamps r.node.value

/-- What a command puts into the table. -/
def Cmd.recorded : Cmd → Option HashNode
  | .put key value => some ⟨key, value⟩
  | .sys _ | .errno | .rpc _ | .retried _ | .get _ | .table | .setTable _ => none

section Tables

variable {env : Env} {α : Type} {p : Prog clientSig α} {s : St} {l : List HashNode}

/-- The table is the one that the values recorded make of the first table. -/
theorem table_of_recorded {ht : HashTable} {V : Int64 → Prop} (hp : p.Meets env.exec (fun c _ => c.Puts V) s)
    (hs : s.client.ht = ht.putAll l) :
    (p.run env.exec s).2.client.ht =
      ht.putAll (p.run (Prog.logged env.exec Cmd.recorded) (s, l)).2.2 := by
  induction p generalizing s l with
  | ret a => exact hs
  | halt => exact hs
  | op c k ih =>
      refine ih _ hp.2 ?_
      cases c with
      | put key value =>
          change s.client.ht.put key value = ht.putAll (l ++ [⟨key, value⟩])
          rw [HashTable.putAll_append, hs]
      | setTable ht => exact hp.1.elim
      | rpc r => exact (Env.attempt_client env r s).1.table.trans hs
      | retried r => exact (Env.retryLoop_client env r _ s).table.trans hs
      | sys c | errno | get filename | table => exact hs

end Tables

namespace World

variable {ι : Type} [DecidableEq ι] (P : Params ι) (i : ι)

/-- The values that an event records at a client. A start only reads the database file. -/
def records (w : World ι) : Event ι → List Recorded
  | .call c =>
    if c.client = i then
      (w.handle c).elim [] fun fh =>
        ((c.op.prog c.junk c.path (P.cache_path i) fh).run
          (Prog.logged (Env.exec ⟨P.root_path, c.junk⟩) Cmd.recorded)
            (w.state i c.now c.faults c.net, [])).2.2.map (Recorded.mk c.op)
    else []
  | .start .. | .late .. => []

/-- The system, with all values ever recorded at a client. -/
def stepRecorded (x : World ι × List Recorded) (e : Event ι) : Option (World ι × List Recorded) :=
  (x.1.step P e).map fun w => (w, x.2 ++ x.1.records P i e)

/-- The last value recorded for a key is one of a write. -/
def LastByWrite (l : List Recorded) (key : Int64) : Prop :=
  ∃ r k b o, (l.filter fun r => r.node.key = key).getLast? = some r ∧ r.op = .write k b o

/-- The values of the table are apart: times and the flag, no value but where nothing was recorded, and
the flag but where a write recorded last. Then only does a release send the file. -/
structure Apart (w : World ι) (l : List Recorded) : Prop where
  values : ∀ b, ∀ n ∈ (w.clients i).ht.chain b, n.value = modifiedFlag ∨ IsTime n.value
  unset : ∀ p, w.recorded i p = -1 ↔ ∀ r ∈ l, r.node.key ≠ hashKey p
  flagged : ∀ p, w.recorded i p = modifiedFlag ↔ LastByWrite l (hashKey p)
  release : ∀ p junk fh now faults net,
    (observed ⟨P.root_path, junk⟩ (Client.afsRelease junk p (P.cache_path i) fh)
      (w.state i now faults net)).requests ≠ [] → LastByWrite l (hashKey p)

/-- What the table and the values recorded so far have in common. -/
structure Chronicle (w : World ι) (l : List Recorded) : Prop where
  saved : (w.clients i).Saved (P.cache_path i)
  table : (w.clients i).ht = initHt.putAll (l.map (·.node))
  fits : ∀ r ∈ l, r.Fits

variable {P i} {w w' : World ι} {l : List Recorded}

/-- The flag is neither a time nor what is returned for a missing entry. -/
private theorem fits_cases {r : Recorded} (h : r.Fits) :
    (∃ k b o, r.op = .write k b o ∧ r.node.value = modifiedFlag) ∨
      (∀ k b o, r.op ≠ .write k b o) ∧ IsTime r.node.value := by
  obtain ⟨op, node⟩ := r
  cases op with
  | write k b o => exact Or.inl ⟨k, b, o, rfl, h⟩
  | _ => exact Or.inr ⟨fun k b o hop => Op.noConfusion hop, h⟩

private theorem time_ne {value : Int64} (h : IsTime value) : value ≠ modifiedFlag ∧ value ≠ -1 := by
  constructor
  · rintro rfl
    exact absurd h.1 (by decide)
  · rintro rfl
    exact absurd h.1 (by decide)

omit [DecidableEq ι] in
/-- An entry of the table is the last value recorded for its key. -/
private theorem Chronicle.recorded (h : Chronicle P i w l) (p : Path) :
    w.recorded i p =
      (((l.filter fun r => r.node.key = hashKey p).getLast?).map (·.node.value)).getD (-1) := by
  unfold World.recorded
  rw [h.table, HashTable.get_putAll]
  unfold lastPut
  rw [List.filter_map, List.getLast?_map, Option.map_map]
  rfl

omit [DecidableEq ι] in
/-- A table that its values make keeps its values apart. -/
theorem Chronicle.apart (h : Chronicle P i w l) : Apart P i w l := by
  have hflagged : ∀ p, w.recorded i p = modifiedFlag ↔ LastByWrite l (hashKey p) := by
    intro p
    rw [h.recorded p]
    unfold LastByWrite
    cases hlast : (l.filter fun r => r.node.key = hashKey p).getLast? with
    | none =>
        refine iff_of_false (by decide) ?_
        rintro ⟨r, k, b, o, hr, -⟩
        cases hr
    | some r =>
        have hmem : r ∈ l := (List.mem_filter.mp (List.mem_of_getLast? hlast)).1
        rcases fits_cases (h.fits r hmem) with ⟨k, b, o, hop, hvalue⟩ | ⟨hop, htime⟩
        · exact iff_of_true hvalue ⟨r, k, b, o, rfl, hop⟩
        · refine iff_of_false (time_ne htime).1 ?_
          rintro ⟨r', k, b, o, hr, hop'⟩
          obtain rfl := Option.some.inj hr
          exact hop k b o hop'
  refine ⟨fun b n hn => ?_, fun p => ?_, hflagged, fun p junk fh now faults net hsent => ?_⟩
  · rw [h.table] at hn
    obtain ⟨r, hr, rfl⟩ := List.mem_map.mp (HashTable.mem_of_mem_putAll hn)
    rcases fits_cases (h.fits r hr) with ⟨-, -, -, -, hvalue⟩ | ⟨-, htime⟩
    · exact Or.inl hvalue
    · exact Or.inr htime
  · rw [h.recorded p]
    cases hlast : (l.filter fun r => r.node.key = hashKey p).getLast? with
    | none =>
        refine iff_of_true rfl fun r hr hkey => ?_
        have hnil := List.getLast?_eq_none_iff.mp hlast
        have hmem : r ∈ l.filter fun r => r.node.key = hashKey p :=
          List.mem_filter.mpr ⟨hr, decide_eq_true hkey⟩
        rw [hnil] at hmem
        cases hmem
    | some r =>
        obtain ⟨hmem, hkey⟩ := List.mem_filter.mp (List.mem_of_getLast? hlast)
        refine iff_of_false ?_ fun hno => hno r hmem (of_decide_eq_true hkey)
        rcases fits_cases (h.fits r hmem) with ⟨-, -, -, -, hvalue⟩ | ⟨-, htime⟩
        · intro hminus
          exact absurd (hvalue.symm.trans hminus) (by decide)
        · exact (time_ne htime).2
  · by_contra hno
    exact hsent (afsRelease_silent fun hflag => hno ((hflagged p).mp hflag))

/-- The values recorded in an operation fit it, and make the table behind it. -/
private theorem Chronicle.call {c : Call ι} {fh : Int} (h : Chronicle P i w l) (hi : c.client = i)
    (hfh : w.handle c = some fh) :
    ((c.op.prog c.junk c.path (P.cache_path i) fh).run (Env.exec ⟨P.root_path, c.junk⟩)
      (w.state i c.now c.faults c.net)).2.client.ht =
        initHt.putAll ((l ++ w.records P i (.call c)).map (·.node)) ∧
      ∀ r ∈ l ++ w.records P i (.call c), r.Fits := by
  have hmeets := (Op.prog_recording c.junk c.path (P.cache_path i) fh c.op).meets
    (fun d s => Env.exec_timed ⟨P.root_path, c.junk⟩ d s) (w.state i c.now c.faults c.net)
  have hrecords : w.records P i (.call c) =
      ((c.op.prog c.junk c.path (P.cache_path i) fh).run
        (Prog.logged (Env.exec ⟨P.root_path, c.junk⟩) Cmd.recorded)
          (w.state i c.now c.faults c.net, [])).2.2.map (Recorded.mk c.op) := by
    simp only [records, if_pos hi, hfh, Option.elim_some]
  rw [hrecords]
  constructor
  · have htable := table_of_recorded (l := []) hmeets h.table
    rw [htable, List.map_append, List.map_map]
    simp only [HashTable.putAll, List.foldl_append]
    exact congrArg _ (List.map_id _).symm
  · intro r hr
    rcases List.mem_append.mp hr with hold | hnew
    · exact h.fits r hold
    · obtain ⟨n, hn, rfl⟩ := List.mem_map.mp hnew
      refine Prog.Meets.run_logged (T := fun n => c.op.Stamps n.value) (hmeets.mono ?_) ?_ n hn
      · intro d s hd n hn
        cases d with
        | put key value =>
            obtain rfl := Option.some.inj hn
            exact hd
        | _ => cases hn
      · exact fun t ht => absurd ht List.not_mem_nil

/-- Every event keeps the record true. -/
theorem Chronicle.step {e : Event ι} (h : Chronicle P i w l) (he : w.KeepsDatabase P i e)
    (hs : w.step P e = some w') : Chronicle P i w' (l ++ w.records P i e) := by
  have hsaved := step_saved h.saved he hs
  have hstays : w'.clients i = w.clients i → w.records P i e = [] →
      Chronicle P i w' (l ++ w.records P i e) := by
    intro hsame hnone
    rw [hnone, List.append_nil]
    exact ⟨hsaved, (congrArg ClientProc.ht hsame).trans h.table, h.fits⟩
  cases e with
  | call c =>
      by_cases hi : c.client = i
      · obtain ⟨⟨x, v⟩, hperf, rfl⟩ := Option.map_eq_some_iff.mp hs
        obtain ⟨fh, t, hfh, hrun, hclient, -, -⟩ := perform_run hperf
        obtain ⟨htable, hfits⟩ := h.call hi hfh
        subst hi
        rw [hrun] at htable
        exact ⟨hsaved, (congrArg ClientProc.ht hclient).trans htable, hfits⟩
      · apply hstays
        · rcases client_step hs i with hsame | ⟨c', fh, heq, hi', -⟩ | ⟨_, _, _, heq, -⟩
          · exact hsame
          · obtain rfl := Event.call.inj heq
            exact absurd hi' hi
          · cases heq
        · exact if_neg hi
  | start j now junk faults =>
      by_cases hi : j = i
      · subst hi
        obtain rfl := he rfl
        obtain ⟨v, hv, -, hht, -⟩ := start_saved h.saved now junk
        obtain rfl := Option.some.inj (hv.symm.trans hs)
        refine ⟨hsaved, hht.trans (h.table.trans ?_), fun r hr => ?_⟩
        · rw [records, List.append_nil]
        · exact h.fits r ((List.append_nil l) ▸ hr)
      · apply hstays
        · rcases client_step hs i with hsame | ⟨_, _, heq, -⟩ | ⟨_, _, _, heq, -⟩
          · exact hsame
          · cases heq
          · exact absurd (Event.start.inj heq).1 hi
        · rfl
  | late k now x =>
      apply hstays
      · rcases client_step hs i with hsame | ⟨_, _, heq, -⟩ | ⟨_, _, _, heq, -⟩
        · exact hsame
        · cases heq
        · cases heq
      · rfl

/-- In every state that a client reaches from its first start, with restarts between its operations, the
values in its table are apart. -/
theorem sentinels_apart {w₀ : World ι} {es : List (Event ι)} (h0 : w₀.Fresh P i)
    (hr : Run (stepRecorded P i) (fun x e => x.1.KeepsDatabase P i e) (w₀, []) es (w, l)) :
    Apart P i w l := by
  have hstart : Chronicle P i w₀ [] := ⟨h0.saved, h0.1, fun r hr => absurd hr List.not_mem_nil⟩
  refine (hr.invariant (fun x => Chronicle P i x.1 x.2) hstart ?_).apart
  intro x e y hx he hs
  obtain ⟨w', hw', rfl⟩ := Option.map_eq_some_iff.mp hs
  exact hx.step he hw'

/-- A run in which the file is fetched, written and, as the release and the next open fail, flagged and
then recorded with the default time of the server's refusal. -/
theorem sentinels_apart_troubled :
    ∃ w₀ x, Run (stepRecorded sample false) (fun x e => x.1.KeepsDatabase sample false e) (w₀, [])
      troubledRun x ∧ x.2.map (·.node.value) = [500, modifiedFlag, 0] ∧ Apart sample false x.1 x.2 := by
  have h : ((sampleBoot.step sample (.start false (sampleTime 0 0) .zero [])).bind fun w₀ =>
      (troubledRun.foldlM (fun (x : World (Bool) × List Recorded) e =>
        if x.1.KeepsDatabase sample false e then stepRecorded sample false x e else none) (w₀, [])).map
          fun x => x.2.map (·.node.value)) = some [500, modifiedFlag, 0] := by
    decide +kernel
  obtain ⟨w₀, hstart, h⟩ := Option.bind_eq_some_iff.mp h
  obtain ⟨⟨w, l⟩, hfold, hvalues⟩ := Option.map_eq_some_iff.mp h
  have hfresh : w₀.Fresh sample false :=
    fresh_of_start (start_sampleBoot.sound.cache false) rfl hstart
  have hr : Run (stepRecorded sample false) (fun x e => x.1.KeepsDatabase sample false e) (w₀, [])
      troubledRun (w, l) := Run.of_foldlM hfold
  exact ⟨w₀, (w, l), hr, hvalues, sentinels_apart hfresh hr⟩

end World

end Afs
