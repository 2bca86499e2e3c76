import Afs.Consistency.Unchanged
import Afs.Isolation.Others

/-!
# Stores whose handlers fail

A release of a file with the modified flag sends its copy with `afs_STORE`. The handler empties the
file when it opens it and does not look at the result of its write, and the client does not look at the
error of the reply before it records the reply's time over the flag. Every run of the handler is looked
at in the state of the server that it meets.
-/

namespace Posix

/-- An open that empties the file or makes it leaves it empty, with a descriptor at its start. -/
theorem Fs.openFile_emptied {s t : Fs} {p : Path} {mode : Nat} {fd : Int}
    (h : s.openFile p { creat := true, trunc := true } mode = .ok (fd, t)) :
    t.Holds fd p 0 false ∧ ∃ f, t.look p = some f ∧ f.bytes = [] := by
  have hdir : s.isDir p = false := by
    unfold Fs.isDir
    unfold Fs.openFile at h
    split at h
    · cases h
    · next i hi => rw [hi]
    · next hn => rw [hn]
  have hparent : s.look p = none → s.isDir (parent p) = true := by
    intro hl
    unfold Fs.openFile at h
    rw [Fs.tree_eq_none hl hdir] at h
    dsimp only at h
    by_contra hpar
    rw [if_pos rfl, if_neg hpar] at h
    cases h
  obtain ⟨fd', t', f, ho, -, hh, hs, hb, -⟩ :=
    Fs.openFile_trunc hdir hparent { creat := true, trunc := true } rfl rfl mode
  obtain ⟨rfl, rfl⟩ := Prod.mk.inj (Except.ok.inj (ho.symm.trans h))
  exact ⟨hh, f, by rw [hs.look, Function.update_self], hb⟩

/-- A write at the start of an empty file, under any fault: the file holds what it moved. -/
theorem Sys.exec_write_empty {v : Proc} {fd : Int} {p : Path} {f : File} (hh : v.fs.Holds fd p 0 false)
    (hl : v.fs.look p = some f) (hb : f.bytes = []) (mem : Bytes) (n : Nat) :
    ((Sys.write fd mem n).exec v).1 ≤ (n : Int) ∧
      (((Sys.write fd mem n).exec v).2.fs.look p).map (·.bytes) =
        some ((mem.take n).take ((Sys.write fd mem n).exec v).1.toNat) := by
  rcases (Sys.write fd mem n).exec_cases v with ⟨hr, hs⟩ | ⟨limit, hp⟩
  · rw [hr, hs, hl]
    refine ⟨?_, congrArg some hb⟩
    exact (show (-1 : Int) ≤ (n : Int) by omega)
  · generalize (Sys.write fd mem n).exec v = out at *
    obtain ⟨r, u⟩ := out
    simp only [Sys.perform] at hp
    split at hp
    · cases hp
    · obtain ⟨t, g, hw, hst, hgb, -⟩ := Fs.write_of_empty hh hl hb (limited limit (mem.take n))
      obtain ⟨rfl, ht⟩ := Prod.mk.inj (Except.ok.inj (hw.symm.trans hp))
      have hpre : limited limit (mem.take n) <+: mem.take n := by
        cases limit with
        | none => exact List.prefix_refl _
        | some k => exact List.take_prefix _ _
      refine ⟨?_, ?_⟩
      · have hlen := hpre.length_le
        rw [List.length_take] at hlen
        exact (show ((limited limit (mem.take n)).length : Int) ≤ (n : Int) by omega)
      · change (u.fs.look p).map (·.bytes) = some ((mem.take n).take (limited limit (mem.take n)).length)
        rw [← ht, hst.look, Function.update_self, ← List.prefix_iff_eq_take.mp hpre]
        exact congrArg some hgb

end Posix

namespace Afs

open Posix Interaction

/-- The handler of a store always answers, with a time. Behind an open that fails it ends, and else the
file is as its write leaves it. -/
private theorem store_answers (junk : Junk) (root_path : Path) (request : StoreReq) {v : Proc}
    {out : Int × Proc} (hout : (Sys.openF (getServerPath request.path root_path)
      { creat := true, trunc := true } S_IRWXUG).exec v = out) :
    ∃ a t, (Server.afsStore junk root_path request).run ProcCmd.exec v = (some a, t) ∧ a.ok = true ∧
      (∃ time : Timespec, a.reply.time = Int64.ofNat time.tv_nsec) ∧ (out.1 = -1 → t = out.2) ∧
      (out.1 ≠ -1 → t.fs.look = ((Sys.write out.1 (request.buf ++ junk.beyond)
        (sizeT request.size.toInt)).exec out.2).2.fs.look) := by
  have hexec : ProcCmd.exec (.sys (.openF (getServerPath request.path root_path)
    { creat := true, trunc := true } S_IRWXUG)) v = out := hout
  unfold Server.afsStore
  rw [Prog.run_call_bind, hexec]
  split
  · next hfd =>
    exact ⟨_, _, rfl, rfl, ⟨⟨0, 0, by decide⟩, rfl⟩, fun _ => rfl, fun hne => absurd hfd hne⟩
  · next hfd =>
    refine ⟨_, _, rfl, rfl, ⟨_, rfl⟩, fun he => absurd he hfd, fun _ => ?_⟩
    refine (Sys.exec_readsOnly (c := .close out.1) trivial _).trans ?_
    exact Sys.exec_readsOnly (c := .lstat (getServerPath request.path root_path)) trivial _

/-- A run of the handler of a store. -/
structure StoreRun where
  request : StoreReq
  handling : Handling
  /-- The server's process before it. -/
  server : Proc
  /-- Whether its reply arrives. -/
  answered : Bool

namespace StoreRun

variable (env : Env) (x : StoreRun)

/-- The name of the file. -/
def path : Path := getServerPath x.request.path env.root_path

/-- The number of bytes that its write is to move. -/
def size : Nat := sizeT x.request.size.toInt

/-- The memory that they are taken from. -/
def memory : Bytes := x.request.buf ++ x.handling.junk.beyond

/-- Its open. -/
def opened : Int × Proc :=
  (Sys.openF (x.path env) { creat := true, trunc := true } S_IRWXUG).exec
    { x.server with faults := x.handling.faults }

/-- The result of its write. -/
def written : Int := ((Sys.write (x.opened env).1 x.memory x.size).exec (x.opened env).2).1

/-- The file's bytes before it. -/
def before : Option Bytes := (x.server.fs.look (x.path env)).map (·.bytes)

/-- The file's bytes after it. -/
def after : Option Bytes :=
  ((env.serve (.store x.request) x.handling x.server).2.fs.look (x.path env)).map (·.bytes)

/-- Its open fails. -/
def OpenFails : Prop := (x.opened env).1 = -1

/-- Its open succeeds and its write moves all bytes. -/
def Completes : Prop := ¬ x.OpenFails env ∧ x.written env = x.size

/-- The file keeps its bytes, or gets all of the new ones. -/
def Spares : Prop :=
  x.OpenFails env ∨ x.Completes env ∨
    x.before env = some ((x.memory.take x.size).take (x.written env).toNat)

/-- The file has the copy's bytes already and keeps them, or gets all of them, and the copy's length is
one that the size of a request can be. -/
def Stores (cached : Option Bytes) : Prop :=
  x.OpenFails env ∧ x.before env = cached ∨
    ¬ x.OpenFails env ∧ (x.written env).toNat = x.size ∧ ∃ b ∈ cached, b.length < 2 ^ 31

instance : Decidable (x.OpenFails env) := inferInstanceAs (Decidable ((x.opened env).1 = -1))

instance : Decidable (x.Completes env) := inferInstanceAs (Decidable (_ ∧ x.written env = x.size))

instance : Decidable (x.Spares env) := inferInstanceAs (Decidable (_ ∨ _ ∨ _ = _))

instance (cached : Option Bytes) : Decidable (x.Stores env cached) :=
  inferInstanceAs (Decidable (_ ∧ _ = cached ∨ _ ∧ _ ∧ ∃ b ∈ cached, b.length < 2 ^ 31))

variable {env x}

/-- The handler always answers, with a time. Behind an open that fails the file is as before, and else as
its write leaves it. -/
theorem serve_eq (env : Env) (x : StoreRun) :
    ∃ (a : Response StoreRes) (t : Proc), env.serve (.store x.request) x.handling x.server = (some a, t) ∧
      a.ok = true ∧ (∃ time : Timespec, a.reply.time = Int64.ofNat time.tv_nsec) ∧
      (x.OpenFails env → t.fs.look = x.server.fs.look) ∧
      (¬ x.OpenFails env → t.fs.look =
        ((Sys.write (x.opened env).1 x.memory x.size).exec (x.opened env).2).2.fs.look) := by
  obtain ⟨a, t, hrun, hok, htime, hfail, hopen⟩ := store_answers x.handling.junk env.root_path x.request
    (v := { x.server with faults := x.handling.faults }) rfl
  have hserve : env.serve (.store x.request) x.handling x.server = (some a, { t with faults := [] }) := by
    unfold Env.serve
    rw [show Server.handle x.handling.junk env.root_path (.store x.request) =
      Server.afsStore x.handling.junk env.root_path x.request from rfl, hrun]
  refine ⟨a, _, hserve, hok, htime, fun h => ?_, hopen⟩
  change t.fs.look = _
  rw [hfail h]
  rcases (Sys.openF (x.path env) { creat := true, trunc := true } S_IRWXUG).exec_cases
    { x.server with faults := x.handling.faults } with ⟨-, hs⟩ | ⟨limit, hp⟩
  · exact congrArg Fs.look hs
  · have hpos : (0 : Int) ≤ (x.opened env).1 := Fs.openFile_fd hp
    rw [h] at hpos
    exact absurd hpos (by decide)

/-- What a run makes of the file. -/
theorem after_eq : (x.OpenFails env → x.after env = x.before env) ∧
    (¬ x.OpenFails env → x.written env ≤ x.size ∧
      x.after env = some ((x.memory.take x.size).take (x.written env).toNat)) := by
  obtain ⟨a, t, hserve, -, -, hfail, hopen⟩ := serve_eq env x
  have hafter : x.after env = (t.fs.look (x.path env)).map (·.bytes) := by
    rw [after, hserve]
  rw [hafter]
  constructor
  · intro h
    rw [hfail h]
    rfl
  · intro h
    rw [hopen h]
    rcases (Sys.openF (x.path env) { creat := true, trunc := true } S_IRWXUG).exec_cases
      { x.server with faults := x.handling.faults } with ⟨hr, -⟩ | ⟨limit, hp⟩
    · exact absurd hr h
    · obtain ⟨hh, f, hl, hb⟩ := Fs.openFile_emptied hp
      exact Sys.exec_write_empty hh hl hb x.memory x.size

/-- A run that fails leaves the file's bytes exactly if it spares them. -/
theorem spares_iff : (¬ x.Completes env → x.after env = x.before env) ↔ x.Spares env := by
  obtain ⟨hfail, hopen⟩ := @after_eq env x
  unfold Spares
  by_cases h : x.OpenFails env
  · exact iff_of_true (fun _ => hfail h) (Or.inl h)
  · rw [(hopen h).2]
    by_cases hc : x.Completes env
    · exact iff_of_true (fun hno => absurd hc hno) (Or.inr (Or.inl hc))
    · constructor
      · intro hsame
        exact Or.inr (Or.inr (hsame hc).symm)
      · rintro (hyes | hyes | hsame) _
        · exact absurd hyes h
        · exact absurd hyes hc
        · exact hsame.symm

/-- The file gets the bytes of a copy exactly if the run stores them. -/
theorem stores_iff {p : Path} {buf : Bytes} {size : Int32} {cached : Option Bytes}
    (hrequest : x.request = ⟨p, size, buf.take size.toInt.toNat⟩) (hsize : 0 ≤ size)
    (hwhole : ∀ b ∈ cached, b.length < 2 ^ 31 → buf = b ∧ size = Int32.ofInt b.length) :
    x.after env = cached ↔ x.Stores env cached := by
  obtain ⟨hfail, hopen⟩ := @after_eq env x
  unfold Stores
  by_cases h : x.OpenFails env
  · rw [hfail h]
    simp only [h, true_and, not_true_eq_false, false_and, or_false]
  · obtain ⟨hle, hafter⟩ := hopen h
    rw [hafter]
    simp only [h, false_and, not_false_eq_true, true_and, false_or]
    have hsizeT : x.size = sizeT size.toInt := by rw [StoreRun.size, hrequest]
    have hcount : x.size < 2 ^ 31 := by
      have hnonneg : 0 ≤ size.toInt := Int32.le_iff_toInt_le.mp hsize
      have hlt := size.toInt_lt
      rw [hsizeT, sizeT]
      omega
    have hcopy : ∀ b ∈ cached, b.length < 2 ^ 31 →
        x.size = b.length ∧ x.memory = b ++ x.handling.junk.beyond := by
      intro b hb hlen
      obtain ⟨rfl, rfl⟩ := hwhole b hb hlen
      have hint : (Int32.ofInt buf.length).toInt = buf.length :=
        Int32.toInt_ofInt_of_le (by omega) (by omega)
      constructor
      · rw [hsizeT, hint]
        exact sizeT_natCast (by omega)
      · rw [memory, hrequest, hint, Int.toNat_natCast, List.take_length]
    constructor
    · intro hsame
      have hlen : ((x.memory.take x.size).take (x.written env).toNat).length ≤ x.size := by
        rw [List.length_take, List.length_take]
        omega
      have hshort := hlen.trans_lt hcount
      refine ⟨?_, _, hsame.symm, hshort⟩
      have hx := (hcopy _ hsame.symm hshort).1
      rw [List.length_take] at hx
      omega
    · rintro ⟨hall, b, hb, hlen⟩
      obtain ⟨hx, hmem⟩ := hcopy b hb hlen
      rw [hall, List.take_take, Nat.min_self, hmem, hx, List.take_left]
      exact hb.symm

end StoreRun

namespace Env

/-- The run of the handler in an attempt of a store, if there is one. -/
def storeRun (env : Env) (r : StoreReq) (s : St) : List StoreRun :=
  (s.net.headD (.done { junk := env.junk })).handling.toList.map fun h =>
    ⟨r, h, s.server, (env.attempt (.store r) s).1.isSome⟩

/-- The runs of the handler in the loop around the attempts. -/
def storeRuns (env : Env) (r : StoreReq) : Nat → St → List StoreRun
  | 0, _ => []
  | n + 1, s =>
    match env.attempt (.store r) s with
    | (some _, _) => env.storeRun r s
    | (none, t) =>
      let (again, c) := t.client.retryReq false
      env.storeRun r s ++ if again then env.storeRuns r n { t with client := c } else []

/-- The runs of the handler in a command. -/
def storeRunsOf (env : Env) : Cmd → St → List StoreRun
  | .retried (.store r), s => env.storeRuns r ((6 - s.client.retries).toNat + 1) s
  | _, _ => []

/-- The machine of a client program, with the runs of the server's handler of stores. -/
def serving (env : Env) : Machine clientSig (St × List StoreRun) :=
  fun c x => ((env.exec c x.1).1, (env.exec c x.1).2, x.2 ++ env.storeRunsOf c x.1)

variable {env : Env} {r : StoreReq} {s t : St} {m : StoreRes}

theorem of_mem_storeRun {x : StoreRun} (hx : x ∈ env.storeRun r s) :
    x.request = r ∧ x.answered = (env.attempt (.store r) s).1.isSome := by
  obtain ⟨h, -, rfl⟩ := List.mem_map.mp hx
  exact ⟨rfl, rfl⟩

/-- The reply of an attempt comes from its run, which leaves the server's file. -/
private theorem attempt_answered (h : env.attempt (.store r) s = (some m, t)) :
    (∃ x ∈ env.storeRun r s, x.answered = true) ∧
      (∃ time : Timespec, m.time = Int64.ofNat time.tv_nsec) ∧
      ∀ x ∈ env.storeRun r s, (t.server.fs.look (x.path env)).map (·.bytes) = x.after env := by
  have hanswered : ∀ (y : Handling) (net : List Delivery), env.storeRun r s = [⟨r, y, s.server, true⟩] →
      (((env.serve (.store r) y s.server).1.bind fun m =>
          if m.ok then some m.reply else none : Option StoreRes),
        ({ s with server := (env.serve (.store r) y s.server).2, net := net } : St)) = (some m, t) →
      (∃ x ∈ env.storeRun r s, x.answered = true) ∧
        (∃ time : Timespec, m.time = Int64.ofNat time.tv_nsec) ∧
        ∀ x ∈ env.storeRun r s, (t.server.fs.look (x.path env)).map (·.bytes) = x.after env := by
    intro y net hrun hy
    obtain ⟨a, u, hserve, hok, htime, -⟩ := StoreRun.serve_eq env ⟨r, y, s.server, true⟩
    obtain ⟨hm, rfl⟩ := Prod.mk.inj hy
    rw [hserve, Option.bind_some, if_pos hok] at hm
    obtain rfl := Option.some.inj hm
    rw [hrun]
    refine ⟨⟨_, List.mem_singleton_self _, rfl⟩, htime, fun x hx => ?_⟩
    obtain rfl := List.mem_singleton.mp hx
    rfl
  have hsome : (env.attempt (.store r) s).1.isSome = true := by rw [h]; rfl
  unfold attempt at h
  split at h
  · next hn =>
    refine hanswered _ _ ?_ h
    rw [storeRun, hsome, hn]
    rfl
  · next y net hn =>
    refine hanswered _ _ ?_ h
    rw [storeRun, hsome, hn]
    rfl
  · cases h
  · cases h
  · cases h

/-- A run whose reply arrives is the last one of its loop, and its reply is the one of the loop. -/
theorem storeRuns_loop (n : Nat) (s : St) :
    (∀ x ∈ env.storeRuns r n s, x.request = r ∧ (x.answered = true →
      ((env.retryLoop (.store r) n s).2.server.fs.look (x.path env)).map (·.bytes) = x.after env ∧
        (env.retryLoop (.store r) n s).1 ≠ none)) ∧
      ∀ m : StoreRes, (env.retryLoop (.store r) n s).1 = some m →
        (∃ x ∈ env.storeRuns r n s, x.answered = true) ∧
          ∃ time : Timespec, m.time = Int64.ofNat time.tv_nsec := by
  induction n generalizing s with
  | zero =>
      constructor
      · intro x hx
        cases hx
      · intro m hm
        cases hm
  | succ n ih =>
      cases h : env.attempt (.store r) s with
      | mk a t =>
        cases a with
        | some m =>
            obtain ⟨hex, htime, hafter⟩ := attempt_answered h
            simp only [storeRuns, retryLoop, h]
            constructor
            · intro x hx
              exact ⟨(of_mem_storeRun hx).1, fun _ => ⟨hafter x hx, Option.some_ne_none m⟩⟩
            · intro m' hm
              obtain rfl := Option.some.inj hm
              exact ⟨hex, htime⟩
        | none =>
            have hlost : ∀ x ∈ env.storeRun r s, x.answered = false := by
              intro x hx
              rw [(of_mem_storeRun hx).2, h]
              rfl
            obtain ⟨hruns, hreply⟩ := ih { t with client := (t.client.retryReq false).2 }
            simp only [storeRuns, retryLoop, h]
            cases (t.client.retryReq false).1 with
            | false =>
                simp only [Bool.false_eq_true, if_false, List.append_nil]
                refine ⟨fun x hx => ⟨(of_mem_storeRun hx).1, fun ha => ?_⟩, fun m hm => ?_⟩
                · rw [hlost x hx] at ha
                  cases ha
                · cases hm
            | true =>
                simp only [if_true, List.mem_append]
                constructor
                · rintro x (hx | hx)
                  · refine ⟨(of_mem_storeRun hx).1, fun ha => ?_⟩
                    rw [hlost x hx] at ha
                    cases ha
                  · exact hruns x hx
                · intro m hm
                  obtain ⟨⟨x, hx, ha⟩, htime⟩ := hreply m hm
                  exact ⟨⟨x, Or.inr hx, ha⟩, htime⟩

/-- The list changes neither the result nor the state. -/
theorem run_serving_exec {α : Type} (q : Prog clientSig α) (s : St) (l : List StoreRun) :
    (q.run env.serving (s, l)).1 = (q.run env.exec s).1 ∧
      (q.run env.serving (s, l)).2.1 = (q.run env.exec s).2 := by
  induction q generalizing s l with
  | ret a => exact ⟨rfl, rfl⟩
  | halt => exact ⟨rfl, rfl⟩
  | op c k ih => exact ih _ _ _

/-- A program without requests runs no handler. -/
theorem run_serving {α : Type} {q : Prog clientSig α} (hq : q.Uses (Cmd.Sends fun _ => False)) (s : St)
    (l : List StoreRun) : q.run env.serving (s, l) = ((q.run env.exec s).1, (q.run env.exec s).2, l) := by
  induction q generalizing s with
  | ret a => rfl
  | halt => rfl
  | op c k ih =>
      have hnone : env.storeRunsOf c s = [] := by
        cases c with
        | rpc r | retried r => exact hq.1.elim
        | sys c | errno | get filename | put key value | table | setTable ht => rfl
      have hstep : env.serving c (s, l) = ((env.exec c s).1, (env.exec c s).2, l) := by
        rw [serving, hnone, List.append_nil]
      rw [Prog.run_op, Prog.run_op, hstep]
      exact ih _ (hq.2 _) _

end Env

section Release

variable {env : Env} {junk : Junk} {p dir : Path} {s u : St} {fh rc : Int}

/-- Dumping touches neither the table nor the server. -/
private theorem dump_leaves (s : St) : ((Client.dump dir).run env.exec s).2.client.ht = s.client.ht ∧
    ((Client.dump dir).run env.exec s).2.server = s.server := by
  refine (dump_rests dir).invariant (I := fun t : St => t.client.ht = s.client.ht ∧ t.server = s.server)
    (fun c t hc h => ?_) ⟨rfl, rfl⟩
  cases c with
  | sys c | errno | get filename | table => exact h
  | rpc r | retried r | put key value | setTable ht => exact hc.elim

/-- A store clears the flag exactly when a reply arrives, and then the file is as the run that it comes
from left it. The copy stays, unless it is the table's own file and a reply arrives. -/
private theorem afsStore_serving {buf : Bytes} {size : Int32} {r : Option Int} {l : List StoreRun}
    (hflag : u.client.ht.get p = modifiedFlag)
    (hrun : (Client.afsStore p dir buf size >>= fun _ => Prog.ret rc).run env.serving (u, []) = (r, t, l)) :
    (∀ x ∈ l, x.request = ⟨p, size, buf.take size.toInt.toNat⟩ ∧ 0 ≤ size ∧
      (x.answered = true → (t.server.fs.look (x.path env)).map (·.bytes) = x.after env)) ∧
    (t.client.ht.get p ≠ modifiedFlag ↔ ∃ x ∈ l, x.answered = true) ∧
    ((p = databasePath → ∀ x ∈ l, x.answered = false) →
      t.disk.look (getLocalPath p dir) = u.disk.look (getLocalPath p dir)) := by
  unfold Client.afsStore at hrun
  by_cases hsize : size < 0
  · rw [if_pos hsize] at hrun
    obtain ⟨-, hrest⟩ := Prod.mk.inj hrun
    obtain ⟨rfl, rfl⟩ := Prod.mk.inj hrest
    refine ⟨fun x hx => absurd hx List.not_mem_nil, ?_, fun _ => rfl⟩
    exact iff_of_false (fun hne => hne hflag) fun ⟨x, hx, _⟩ => absurd hx List.not_mem_nil
  · rw [if_neg hsize, Prog.bind_assoc, Prog.run_call_bind] at hrun
    have hpos : 0 ≤ size := Int32.not_lt.mp hsize
    generalize hreq : (⟨p, size, buf.take size.toInt.toNat⟩ : StoreReq) = request at hrun ⊢
    obtain ⟨hruns, hreply⟩ := @Env.storeRuns_loop env request
      ((6 - u.client.retries).toNat + 1) u
    have hwaits := Env.retryLoop_client env (.store request) ((6 - u.client.retries).toNat + 1) u
    have hserving : env.serving (.retried (.store request)) (u, []) =
        ((env.retryLoop (.store request) ((6 - u.client.retries).toNat + 1) u).1,
          (env.retryLoop (.store request) ((6 - u.client.retries).toNat + 1) u).2,
          env.storeRuns request ((6 - u.client.retries).toNat + 1) u) := rfl
    rw [hserving] at hrun
    generalize env.retryLoop (.store request) ((6 - u.client.retries).toNat + 1) u = out at *
    obtain ⟨a, v⟩ := out
    cases a with
    | none =>
        obtain ⟨-, hrest⟩ := Prod.mk.inj hrun
        obtain ⟨rfl, rfl⟩ := Prod.mk.inj hrest
        refine ⟨fun x hx => ⟨(hruns x hx).1, hpos, fun ha => ((hruns x hx).2 ha).1⟩, ?_, ?_⟩
        · refine iff_of_false (fun hne => hne ?_) fun ⟨x, hx, ha⟩ => ((hruns x hx).2 ha).2 rfl
          rw [hwaits.table]
          exact hflag
        · exact fun _ => congrArg (fun fs => Fs.look fs (getLocalPath p dir)) hwaits.fs
    | some m =>
        obtain ⟨hex, time, htime⟩ := hreply m rfl
        have hquiet : ((Client.record p dir m.time >>= fun _ => Prog.ret m.error.toInt) >>=
            fun _ => Prog.ret rc).Uses (Cmd.Sends fun _ => False) :=
          (Prog.Uses.bind Client.record_sends fun _ => Prog.uses_ret _).bind fun _ => Prog.uses_ret _
        have hend : (((Client.record p dir m.time >>= fun _ => Prog.ret m.error.toInt) >>=
            fun _ => Prog.ret rc).run env.exec v).2 =
            ((Client.dump dir).run env.exec (v.withTable (v.client.ht.put (hashKey p) m.time))).2 := by
          rw [Prog.run_bind_ret, Prog.run_bind_ret]
          rfl
        obtain ⟨-, hrest⟩ := Prod.mk.inj ((Env.run_serving hquiet v _).symm.trans hrun)
        obtain ⟨ht, rfl⟩ := Prod.mk.inj hrest
        obtain ⟨htable, hserver⟩ := @dump_leaves env dir
          (v.withTable (v.client.ht.put (hashKey p) m.time))
        rw [← ht, hend, htable, hserver]
        refine ⟨fun x hx => ⟨(hruns x hx).1, hpos, fun ha => ((hruns x hx).2 ha).1⟩, ?_, ?_⟩
        · refine iff_of_true ?_ hex
          change (v.client.ht.put (hashKey p) m.time).get p ≠ modifiedFlag
          rw [HashTable.get_put_self, htime]
          exact time_ne_modifiedFlag time
        · intro hdb
          obtain ⟨x, hx, ha⟩ := hex
          have hp : p ≠ databasePath := fun he =>
            Bool.false_ne_true ((hdb he x hx).symm.trans ha)
          rw [(dump_same (Ne.symm (getLocalPath_ne_database hp dir)) _).look]
          exact congrArg (fun fs => Fs.look fs (getLocalPath p dir)) hwaits.fs

/-- A release of a file with the flag stores what it read of the copy. -/
private theorem afsRelease_serving (hflag : s.client.ht.get p = modifiedFlag) :
    ∃ rc buf size u, (Client.afsRelease junk p dir fh).run env.serving (s, []) =
        (Client.afsStore p dir buf size >>= fun _ => Prog.ret rc).run env.serving (u, []) ∧
      u.client.ht = s.client.ht ∧ u.disk.look = s.disk.look ∧
      (s.client.proc.faults = [] → ∀ f, s.disk.look (getLocalPath p dir) = some f →
        f.bytes.length < 2 ^ 31 → buf = f.bytes ∧ size = Int32.ofInt f.bytes.length) := by
  let l := getLocalPath p dir
  let s₁ := (env.exec (.sys (.lstat l)) s).2
  let s₂ := (env.exec (.sys (.close fh)) s₁).2
  let s₃ := (env.exec (.sys (.openF l { append := true } S_IRWXUG)) s₂).2
  let fd : Int := (env.exec (.sys (.openF l { append := true } S_IRWXUG)) s₂).1
  let info : Stat := Option.getD (env.exec (.sys (.lstat l)) s).1 junk.info
  let s₄ := (env.exec (.sys (.read fd (sizeT info.st_size))) s₃).2
  let got : Option Bytes := (env.exec (.sys (.read fd (sizeT info.st_size))) s₃).1
  refine ⟨(env.exec (.sys (.close fh)) s₁).1, fill (junk.heap (sizeT info.st_size)) got,
    Int32.ofInt info.st_size, s₄, ?_, rfl, ?_, ?_⟩
  · have hm : (env.serving (.get p) (env.serving (.sys (.lstat l)) (s, [])).2).1 = modifiedFlag := hflag
    unfold Client.afsRelease
    rw [Prog.run_call_bind, Prog.run_call_bind, if_pos hm]
    rfl
  · have h₄ : s₄.disk.look = s₃.disk.look :=
      Sys.exec_readsOnly (c := .read fd (sizeT info.st_size)) trivial _
    have h₃ : s₃.disk.look = s₂.disk.look :=
      Sys.exec_readsOnly (c := .openF l { append := true } S_IRWXUG) ⟨rfl, rfl⟩ _
    have h₂ : s₂.disk.look = s₁.disk.look := Sys.exec_readsOnly (c := .close fh) trivial _
    have h₁ : s₁.disk.look = s.disk.look := Sys.exec_readsOnly (c := .lstat l) trivial _
    rw [h₄, h₃, h₂, h₁]
  · intro hf f hl hlen
    obtain ⟨i, hst⟩ := Fs.lstat_of_look hl
    have hstat : env.exec (.sys (.lstat l)) s = (some (f.stat i), s.withDisk s.disk) :=
      Env.exec_sys hf (perform_lstat hst)
    have hinfo : info.st_size = f.bytes.length := by
      simp only [info, hstat, Option.getD_some, File.stat_size]
    have hsize : sizeT info.st_size = f.bytes.length := by
      rw [hinfo]
      exact sizeT_natCast (by omega)
    have h₁ : s₁ = s.withDisk s.disk := congrArg Prod.snd hstat
    obtain ⟨rc, u, hclose, he⟩ := exec_close env fh (s := s₁) (by rw [h₁]; exact hf)
    have h₂ : s₂ = u := congrArg Prod.snd hclose
    have hl₂ : u.disk.look l = some f := by
      rw [he.disk.look _ List.not_mem_nil, h₁]
      exact hl
    obtain ⟨fd', t, ho, -, hh, hs, -⟩ := Fs.openFile_of_look hl₂ { append := true } rfl S_IRWXUG
    have hopen : env.exec (.sys (.openF l { append := true } S_IRWXUG)) s₂ = (fd', u.withDisk t) := by
      rw [h₂]
      exact Env.exec_sys he.faults ho
    have hl₃ : t.look l = some f := by rw [hs.look, hl₂]
    obtain ⟨t', hread, -⟩ := Fs.read_of_holds hh hl₃ f.bytes.length
    have hgot : got = some f.bytes := by
      have h₃ : s₃ = u.withDisk t := congrArg Prod.snd hopen
      have hfd : fd = fd' := congrArg Prod.fst hopen
      have hu : (u.withDisk t).client.proc.faults = [] := he.faults
      change (env.exec (.sys (.read fd (sizeT info.st_size))) s₃).1 = _
      rw [hsize, hfd, h₃, Env.exec_sys hu (perform_read_all hread)]
    rw [hgot, hsize, fill_of_length (junk.length_heap f.bytes.length), hinfo]
    exact ⟨rfl, rfl⟩

/-- A release of a file with the flag, when the client's own calls do not fail. -/
private theorem afsRelease_stores_iff {r : Option Int} {l : List StoreRun}
    (hdb : p = databasePath → ∀ x ∈ l, x.answered = false) (hf : s.client.proc.faults = [])
    (hflag : s.client.ht.get p = modifiedFlag)
    (hrun : (Client.afsRelease junk p dir fh).run env.serving (s, []) = (r, t, l)) :
    ((t.client.ht.get p ≠ modifiedFlag →
        (t.server.fs.look (getServerPath p env.root_path)).map (·.bytes) =
          (t.disk.look (getLocalPath p dir)).map (·.bytes)) ∧
      ∀ x ∈ l, ¬ x.Completes env → x.after env = x.before env) ↔
    ∀ x ∈ l, x.Spares env ∧
      (x.answered = true → x.Stores env ((s.disk.look (getLocalPath p dir)).map (·.bytes))) := by
  obtain ⟨rc, buf, size, u, hstart, hht, hlook, hwhole⟩ :=
    @afsRelease_serving env junk p dir s fh hflag
  rw [hstart] at hrun
  obtain ⟨hruns, hcleared, hcopy⟩ := afsStore_serving (by rw [hht]; exact hflag) hrun
  rw [hcopy hdb, hlook]
  generalize hcached : (s.disk.look (getLocalPath p dir)).map (·.bytes) = cached
  have hread : ∀ b ∈ cached, b.length < 2 ^ 31 → buf = b ∧ size = Int32.ofInt b.length := by
    rintro b rfl hlen
    obtain ⟨f, hl, rfl⟩ := Option.map_eq_some_iff.mp hcached
    exact hwhole hf f hl hlen
  have hpath : ∀ x ∈ l, x.path env = getServerPath p env.root_path := by
    intro x hx
    rw [StoreRun.path, (hruns x hx).1]
  have hend : ∀ x ∈ l, x.answered = true →
      ((t.server.fs.look (getServerPath p env.root_path)).map (·.bytes) = cached ↔ x.Stores env cached) := by
    intro x hx ha
    obtain ⟨hrequest, hsize, hafter⟩ := hruns x hx
    rw [← hpath x hx, hafter ha]
    exact StoreRun.stores_iff hrequest hsize hread
  constructor
  · rintro ⟨hstored, hspared⟩ x hx
    refine ⟨StoreRun.spares_iff.mp (hspared x hx), fun ha => ?_⟩
    exact (hend x hx ha).mp (hstored (hcleared.mpr ⟨x, hx, ha⟩))
  · intro hall
    refine ⟨fun hne => ?_, fun x hx => StoreRun.spares_iff.mpr (hall x hx).1⟩
    obtain ⟨x, hx, ha⟩ := hcleared.mp hne
    exact (hend x hx ha).mpr ((hall x hx).2 ha)

end Release

namespace World

variable {ι : Type} [DecidableEq ι] {P : Params ι} {w w' : World ι}

/-- The runs of the server's handler of stores in an operation. -/
def storeRuns (P : Params ι) (w : World ι) (c : Call ι) : List StoreRun :=
  (w.handle c).elim [] fun fh =>
    ((c.op.prog c.junk c.path (P.cache_path c.client) fh).run (Env.serving ⟨P.root_path, c.junk⟩)
      (w.state c.client c.now c.faults c.net, [])).2.2

/-- A release clears the flag only for a store that happened, and no handler that fails takes the file's
bytes, exactly when every run of the handler keeps the file's bytes or gives it all of the new ones, and
the one whose reply arrives stores the copy. To the copy of the table's own file the table is dumped when a
reply arrives, so that none is taken to arrive for it. -/
theorem release_stores_iff {c : Call ι} {k : Nat} {r : Option Result} (hop : c.op = .release k)
    (hdb : c.path = databasePath → ∀ x ∈ w.storeRuns P c, x.answered = false) (hf : c.faults = [])
    (hflag : w.recorded c.client c.path = modifiedFlag) (hs : w.perform P c = some (r, w')) :
    ((w'.recorded c.client c.path ≠ modifiedFlag →
        (w'.served P c.path).map (·.bytes) = w'.cached P c.client c.path) ∧
      ∀ x ∈ w.storeRuns P c, ¬ x.Completes ⟨P.root_path, c.junk⟩ →
        x.after ⟨P.root_path, c.junk⟩ = x.before ⟨P.root_path, c.junk⟩) ↔
    ∀ x ∈ w.storeRuns P c, x.Spares ⟨P.root_path, c.junk⟩ ∧
      (x.answered = true → x.Stores ⟨P.root_path, c.junk⟩ (w.cached P c.client c.path)) := by
  obtain ⟨fh, t, hfh, hrun, hclient, hserver, -⟩ := perform_run hs
  rw [hop] at hrun
  generalize hout : (Client.afsRelease c.junk c.path (P.cache_path c.client) fh).run
    (Env.serving ⟨P.root_path, c.junk⟩) (w.state c.client c.now c.faults c.net, []) = out
  obtain ⟨rc, u, l⟩ := out
  have hprog : (Op.prog c.junk c.path (P.cache_path c.client) fh (.release k)).run
      (Env.serving ⟨P.root_path, c.junk⟩) (w.state c.client c.now c.faults c.net, []) =
        (rc.map fun ret => { ret := ret }, u, l) := by
    change (Client.afsRelease c.junk c.path (P.cache_path c.client) fh >>= _).run _ _ = _
    rw [Prog.run_bind, hout]
    cases rc <;> rfl
  obtain rfl : u = t := by
    obtain ⟨-, hstate⟩ := @Env.run_serving_exec ⟨P.root_path, c.junk⟩ _
      (Op.prog c.junk c.path (P.cache_path c.client) fh (.release k))
      (w.state c.client c.now c.faults c.net) []
    rw [hprog, hrun] at hstate
    exact hstate
  have hl : w.storeRuns P c = l := by
    unfold storeRuns
    rw [hfh, hop]
    exact congrArg (fun x => x.2.2) hprog
  have hfaults : (w.state c.client c.now c.faults c.net).client.proc.faults = [] := hf
  have hentry : (w.state c.client c.now c.faults c.net).client.ht.get c.path = modifiedFlag := hflag
  rw [hl] at hdb
  have hiff := afsRelease_stores_iff hdb hfaults hentry hout
  rw [hl, recorded, served, cached, disk, hclient, hserver]
  exact hiff

/-- The sample client opens its file and writes one byte. -/
def writtenSample : List (Event (Bool)) :=
  [.call (sampleCall false 1 .openF []), .call (sampleCall false 2 (.write 0 [7] 0) [])]

/-- A release whose store is executed with its reply lost, and then refused. -/
def refusedLater : Call (Bool) :=
  sampleCall false 3 (.release 0)
    [.replyLost { junk := .zero } 110, .done { faults := [.fail 13], junk := .zero }]

/-- Such a release clears the flag for a store that happened. -/
theorem release_stores_refused_later :
    ∃ w w' r, Transition.Run (World.step sample) (fun _ _ => True) sampleBoot writtenSample w ∧
      w.perform sample refusedLater = some (r, w') ∧ w'.recorded false sampleFile ≠ modifiedFlag ∧
      (w'.served sample sampleFile).map (·.bytes) = w'.cached sample false sampleFile := by
  have h : ((writtenSample.foldlM (fun (w : World (Bool)) e => if True then w.step sample e else none)
      sampleBoot).bind fun w => (w.perform sample refusedLater).map fun out =>
        decide (w.recorded false sampleFile = modifiedFlag ∧
          out.2.recorded false sampleFile ≠ modifiedFlag ∧
          ∀ x ∈ w.storeRuns sample refusedLater, x.Spares ⟨sample.root_path, .zero⟩ ∧
            (x.answered = true →
              x.Stores ⟨sample.root_path, .zero⟩ (w.cached sample false sampleFile)))) = some true := by
    decide +kernel
  obtain ⟨w, hfold, h⟩ := Option.bind_eq_some_iff.mp h
  obtain ⟨⟨r, w'⟩, hperf, h⟩ := Option.map_eq_some_iff.mp h
  obtain ⟨hflag, hcleared, hruns⟩ := of_decide_eq_true h
  exact ⟨w, w', r, Transition.Run.of_foldlM hfold, hperf, hcleared,
    ((release_stores_iff rfl (fun h => absurd h (by decide)) rfl hflag hperf).mpr hruns).1 hcleared⟩

/-- A store that the server refuses clears the flag. -/
theorem refused_store_clears_flag : ¬ ∀ (es : List (Event (Bool))) (w w' : World (Bool)) (c : Call (Bool))
    (k : Nat) (r : Option Result), Transition.Run (World.step sample) (fun _ _ => True) sampleBoot es w →
      c.op = .release k → c.faults = [] → w.recorded c.client c.path = modifiedFlag →
      w.perform sample c = some (r, w') → w'.recorded c.client c.path ≠ modifiedFlag →
        (w'.served sample c.path).map (·.bytes) = w'.cached sample c.client c.path := by
  have h : ((writtenSample.foldlM (fun (w : World (Bool)) e => if True then w.step sample e else none)
      sampleBoot).bind fun w => (w.perform sample (sampleCall false 3 (.release 0)
        [.done { faults := [.fail 13], junk := .zero }])).map fun out =>
          (w.recorded false sampleFile, out.2.recorded false sampleFile,
            (out.2.served sample sampleFile).map (·.bytes), out.2.cached sample false sampleFile)) =
      some (modifiedFlag, 0, some [1], some [7]) := by
    decide +kernel
  obtain ⟨w, hfold, h⟩ := Option.bind_eq_some_iff.mp h
  obtain ⟨⟨r, w'⟩, hperf, h⟩ := Option.map_eq_some_iff.mp h
  obtain ⟨hflag, h⟩ := Prod.mk.inj h
  obtain ⟨hcleared, h⟩ := Prod.mk.inj h
  obtain ⟨hserved, hcached⟩ := Prod.mk.inj h
  have hne : w'.recorded false sampleFile ≠ modifiedFlag := by
    rw [hcleared]
    decide
  intro hall
  have hsame := hall _ w w' _ 0 r (Transition.Run.of_foldlM hfold) rfl rfl hflag hperf hne
  exact absurd ((hserved.symm.trans hsame).trans hcached) (by decide)

end World

end Afs
