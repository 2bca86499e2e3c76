import Afs.Core.Owners
import Afs.Core.Parallel
import Afs.Isolation.Entries

/-!
# A client with many threads

The operations of a client run at one time, each in a thread of its own, and their system calls fall in any
order. They share the cache directory, the table with its file, and the numbers of the descriptors. A file is
safe from operations on other files all the same: its copy stays, and a read of it gives its bytes.
-/

namespace Afs

open Posix Interaction Transition

/-- An operation of one thread, with what it is called with. -/
structure Thread where
  /-- The operation. -/
  op : Op
  /-- The file. -/
  path : Path
  /-- The handle in the structure of the open file. -/
  fh : Int
  /-- Unset variables of the operation. -/
  junk : Junk

/-- Operations that one client runs at one time. -/
structure Threads (ι : Type) where
  /-- The operation of each thread. -/
  thread : ι → Thread
  /-- The cache directory. -/
  cache_path : Path
  /-- The server's directory. -/
  env : Env

/-- What happens before a command of a thread: time passes, and the other clients and the network do
whatever they like. A fault may wait for the command. -/
structure Around where
  now : Timespec
  fault : Fault
  /-- The error number of the thread. -/
  errno : Int
  /-- The member `retries`, which other threads count up and reset. -/
  retries : Int
  server : Proc
  inflight : List Request
  /-- What happens to the attempts of the command. -/
  net : List Delivery

/-- The state before that command. -/
def Around.set (e : Around) (s : St) : St where
  client := { s.client with
    proc := ⟨{ s.client.proc.fs with clock := e.now }, e.errno, [e.fault]⟩
    retries := e.retries }
  server := e.server
  inflight := e.inflight
  net := e.net

section Around

variable {x : Path} {s₀ : Fs} {s : St} {own : List Int}

/-- What a thread relies on stays right meanwhile. -/
theorem Around.owns (e : Around) (h : s.disk.Owns x own) : (e.set s).disk.Owns x own :=
  ⟨h.nodup, h.opened, h.apart⟩

theorem Around.views (e : Around) (h : Fs.Views x s₀ s.disk own) : Fs.Views x s₀ (e.set s).disk own :=
  ⟨⟨h.same.tree, h.same.node⟩, h.holds⟩

theorem Around.leaves (e : Around) (x : Path) (s : St) (own : List Int) :
    Fs.Leaves x s.disk (e.set s).disk own own := (Fs.Leaves.refl x (e.set s).disk own).clock

end Around

namespace Threads

variable {ι : Type} (V : Threads ι)

/-- All threads before their first command. -/
def start (s : St) : Pool clientSig ι St Result where
  prog i := (V.thread i).op.prog (V.thread i).junk (V.thread i).path V.cache_path (V.thread i).fh
  state := s

/-- One command of one thread. A remote call with its retries counts as one command. -/
def step [DecidableEq ι] (P : Pool clientSig ι St Result) : ι × Around → Option (Pool clientSig ι St Result) :=
  P.step V.env.exec Around.set

end Threads

namespace Client

variable {env : Env} {keyed : Prop} {x p dir q : Path} {junk : Junk} {own own' : List Int} {fd : Int} {α : Type}

/-- One command of a thread that has nothing to do with the name `x` of the disk and, if it keeps to other
keys, with the entry of `q`. -/
structure Moves (keyed : Prop) (x q : Path) (s t : St) (own own' : List Int) : Prop extends
    Fs.Leaves x s.disk t.disk own own' where
  entry : keyed → t.client.ht.get q = s.client.ht.get q

/-- A program of such a thread. -/
def Minds (env : Env) (keyed : Prop) (x q : Path) : Prog clientSig α → List Int → Prop :=
  Prog.Abides env.exec Around.set (fun _ (_ : Around) => True) (fun own s => s.disk.Owns x own)
    (fun own s own' t => Moves keyed x q s t own own' ∧ t.disk.Owns x own') fun _ _ => True

namespace Minds

theorem ret {a : α} : Minds env keyed x q (Prog.ret a : Prog clientSig α) own := Prog.Abides.ret trivial

theorem halt : Minds env keyed x q (Prog.halt : Prog clientSig α) own := trivial

/-- The rule for a system call. -/
theorem sys {c : Sys} {f : c.Res → Prog clientSig α} (hc : c.Minds x own)
    (h : ∀ r, Minds env keyed x q (f r) (c.owned own r)) :
    Minds env keyed x q (Client.sys c >>= f) own := by
  refine Prog.Abides.call fun s e _ hs => ?_
  obtain ⟨hl, ho⟩ := @Sys.exec_leaves x own c (e.set s).client.proc hc (e.owns hs)
  exact ⟨_, ⟨⟨hl.clock, fun _ => rfl⟩, ho⟩, h _⟩

/-- A call by another name. -/
theorem named {c : Sys} {f : c.Res → Prog clientSig α} (hc : c.Elsewhere x) (hm : c.moved = none)
    (ho : ∀ r, c.owned own r = own) (h : ∀ r, Minds env keyed x q (f r) own) :
    Minds env keyed x q (Client.sys c >>= f) own := by
  refine sys ⟨hc, fun fd hfd => ?_⟩ fun r => ?_
  · rw [hm] at hfd
    cases hfd
  · rw [ho]
    exact h r

/-- A call on a descriptor of the program. -/
theorem through {c : Sys} {f : c.Res → Prog clientSig α} (hc : c.Elsewhere x) (hm : c.moved = some fd)
    (hfd : fd = -1 ∨ fd ∈ own) (ho : ∀ r, c.owned own r = own)
    (h : ∀ r, Minds env keyed x q (f r) own) : Minds env keyed x q (Client.sys c >>= f) own := by
  refine sys ⟨hc, fun g hg => ?_⟩ fun r => ?_
  · rw [hm] at hg
    exact Option.some.inj hg ▸ hfd
  · rw [ho]
    exact h r

theorem openF {f : Int → Prog clientSig α} {l : Path} {fl : Flags} {mode : Nat} (hl : l ≠ x)
    (hfail : Minds env keyed x q (f (-1)) own)
    (h : ∀ fd, fd ≠ -1 → Minds env keyed x q (f fd) (fd :: own)) :
    Minds env keyed x q (Client.sys (.openF l fl mode) >>= f) own := by
  refine sys ⟨hl, fun fd hfd => nomatch hfd⟩ fun fd => ?_
  by_cases hfd : fd = (-1 : Int)
  · simp only [Sys.owned, hfd, if_true]
    exact hfail
  · simp only [Sys.owned, hfd, if_false]
    exact h fd hfd

theorem openAny {f : Int → Prog clientSig α} {l : Path} {fl : Flags} {mode : Nat} (hl : l ≠ x)
    (h : ∀ fd own', (fd = -1 ∨ fd ∈ own') → Minds env keyed x q (f fd) own') :
    Minds env keyed x q (Client.sys (.openF l fl mode) >>= f) own :=
  openF hl (h (-1) own (Or.inl rfl)) fun fd _ => h fd _ (Or.inr List.mem_cons_self)

/-- A close, which may fail. -/
theorem close {f : Int → Prog clientSig α} (hfd : fd ∈ own)
    (h : ∀ r own', own.erase fd ⊆ own' → Minds env keyed x q (f r) own') :
    Minds env keyed x q (Client.sys (.close fd) >>= f) own := by
  refine sys ⟨trivial, fun g hg => ?_⟩ fun r => ?_
  · exact Or.inr (Option.some.inj hg ▸ hfd)
  · by_cases hr : r = (0 : Int)
    · simp only [Sys.owned, hr, if_true]
      exact h 0 _ (List.Subset.refl _)
    · simp only [Sys.owned, hr, if_false]
      exact h r _ List.erase_subset

/-- The close of a descriptor that an open did not get. -/
theorem close_none {f : Int → Prog clientSig α} (h : Minds env keyed x q (f (-1)) own) :
    Minds env keyed x q (Client.sys (.close (-1)) >>= f) own := by
  refine Prog.Abides.call fun s e _ hs => ?_
  have hres : ((Sys.close (-1)).exec (e.set s).client.proc).1 = (-1 : Int) := by
    rcases (Sys.close (-1)).exec_cases (e.set s).client.proc with ⟨hr, -⟩ | ⟨limit, hp⟩
    · exact hr
    · cases hp
  obtain ⟨hl, ho⟩ := @Sys.exec_leaves x own (.close (-1)) (e.set s).client.proc
    ⟨trivial, fun fd hfd => Or.inl (Option.some.inj hfd).symm⟩ (e.owns hs)
  simp only [Sys.owned, hres] at hl ho
  refine ⟨own, ⟨⟨hl.clock, fun _ => rfl⟩, ho⟩, ?_⟩
  rw [← hres] at h
  exact h

/-- A command that leaves the disk. -/
private theorem aside {c : Cmd} {f : c.Res → Prog clientSig α}
    (hc : ∀ s, (env.exec c s).2.disk = s.disk ∧ (keyed → (env.exec c s).2.client.ht.get q = s.client.ht.get q))
    (h : ∀ r, Minds env keyed x q (f r) own) : Minds env keyed x q (Prog.call c >>= f) own := by
  refine Prog.Abides.call fun s e _ hs => ?_
  obtain ⟨hdisk, hentry⟩ := hc (e.set s)
  refine ⟨own, ⟨⟨?_, hentry⟩, ?_⟩, h _⟩
  · rw [hdisk]
    exact e.leaves x s own
  · rw [hdisk]
    exact e.owns hs

theorem errno {f : Int → Prog clientSig α} (h : ∀ e, Minds env keyed x q (f e) own) :
    Minds env keyed x q (Client.errno >>= f) own := aside (fun _ => ⟨rfl, fun _ => rfl⟩) h

/-- The result of an operation by the result of a call. -/
theorem verdict {res value : Int} {f : Int → Prog clientSig α} (h : ∀ r, Minds env keyed x q (f r) own) :
    Minds env keyed x q ((if res = -1 then Client.errno >>= fun e => Prog.ret (-e) else Prog.ret value) >>= f)
      own := by
  by_cases hres : res = -1
  · simp only [hres, if_true, Prog.bind_assoc]
    exact errno fun e => h _
  · simp only [hres, if_false]
    exact h _

theorem get {f : Int64 → Prog clientSig α} (h : ∀ v, Minds env keyed x q (f v) own) :
    Minds env keyed x q (Client.get p >>= f) own := aside (fun _ => ⟨rfl, fun _ => rfl⟩) h

theorem rpc {r : Request} {f : Option r.Reply → Prog clientSig α} (h : ∀ m, Minds env keyed x q (f m) own) :
    Minds env keyed x q (Client.rpc r >>= f) own :=
  aside (fun s => ⟨(env.attempt_client r s).1.fs, fun _ => congrArg (HashTable.get · q)
    (env.attempt_client r s).1.table⟩) h

theorem retried {r : Request} {f : Option r.Reply → Prog clientSig α}
    (h : ∀ m, Minds env keyed x q (f m) own) : Minds env keyed x q (Client.retried r >>= f) own :=
  aside (fun s => ⟨(env.retryLoop_client r _ s).fs, fun _ => congrArg (HashTable.get · q)
    (env.retryLoop_client r _ s).table⟩) h

/-- A value recorded: the table is printed through a descriptor of its own. -/
theorem record {value : Int64} {f : Unit → Prog clientSig α} (hdb : getLocalPath databasePath dir ≠ x)
    (hkey : keyed → hashfilename p ≠ hashfilename q)
    (h : ∀ own', own ⊆ own' → Minds env keyed x q (f ()) own') :
    Minds env keyed x q (Client.record p dir value >>= f) own := by
  simp only [Client.record, Client.dump, Prog.bind_assoc, Prog.pure_eq]
  refine aside (fun s => ⟨rfl, fun hk => HashTable.get_put_of_ne _ (hashKey_ne (hkey hk).symm) value⟩)
    fun _ => ?_
  refine openF hdb ?_ fun fptr hfptr => ?_
  · simp only [if_true]
    exact halt
  · simp only [hfptr, if_false]
    refine aside (fun _ => ⟨rfl, fun _ => rfl⟩) fun ht => ?_
    refine through trivial rfl (Or.inr List.mem_cons_self) (fun _ => rfl) fun _ => ?_
    refine close List.mem_cons_self fun _ own' hown' => ?_
    rw [List.erase_cons_head] at hown'
    exact h own' hown'

/-- The fetch of the contents. -/
private theorem fetch {f : Int × Option (Bytes × Int) → Prog clientSig α}
    (hdb : getLocalPath databasePath dir ≠ x) (hkey : keyed → hashfilename p ≠ hashfilename q)
    (h : ∀ r own', own ⊆ own' → Minds env keyed x q (f r) own') :
    Minds env keyed x q (Client.afsFetch p dir >>= f) own := by
  simp only [Client.afsFetch, Prog.bind_assoc, Prog.pure_eq]
  refine retried fun m => ?_
  cases m with
  | some reply =>
      simp only [Prog.bind_assoc]
      exact record hdb hkey fun own' hown' => h _ own' hown'
  | none =>
      simp only [Prog.bind_assoc]
      exact errno fun e => h _ own (List.Subset.refl _)

/-- The request for the attributes. -/
private theorem getattr {stats : Stat} {f : Int × Stat → Prog clientSig α}
    (h : ∀ r, Minds env keyed x q (f r) own) : Minds env keyed x q (Client.afsGetattr p stats >>= f) own := by
  simp only [Client.afsGetattr, Prog.bind_assoc, Prog.pure_eq]
  refine retried fun m => ?_
  cases m with
  | some reply =>
      by_cases herr : reply.err = 0
      · simp only [herr, ne_eq, not_true_eq_false, if_false]
        exact h _
      · simp only [herr, ne_eq, not_false_iff, if_true]
        exact h _
  | none =>
      simp only [Prog.bind_assoc]
      exact errno fun e => h _

/-- A new copy through a descriptor of the program. -/
private theorem newCopy {f : Option Int → Prog clientSig α} (hdb : getLocalPath databasePath dir ≠ x)
    (hkey : keyed → hashfilename p ≠ hashfilename q) (hfd : fd = -1 ∨ fd ∈ own)
    (h : ∀ r own', own ⊆ own' → Minds env keyed x q (f r) own') :
    Minds env keyed x q (Client.fetchNewCopy junk p dir fd >>= f) own := by
  simp only [Client.fetchNewCopy, Prog.bind_assoc, Prog.pure_eq]
  refine through trivial rfl hfd (fun _ => rfl) fun rc => ?_
  by_cases hrc : (rc : Int) < 0
  · simp only [hrc, if_true, Prog.bind_assoc]
    exact errno fun e => h _ own (List.Subset.refl _)
  · simp only [hrc, if_false, Prog.bind_assoc]
    refine fetch hdb hkey fun r own' hown' => ?_
    by_cases hr : r.1 < 0
    · simp only [hr, if_true]
      exact h _ own' hown'
    · simp only [hr, if_false, Prog.bind_assoc]
      refine through trivial rfl (hfd.imp_right fun hmem => hown' hmem) (fun _ => rfl) fun _ => ?_
      exact named trivial rfl (fun _ => rfl) fun _ => h _ own' hown'

/-- The descriptor that an open works with. -/
private theorem copied {f : Int × Bool → Prog clientSig α} (hl : getLocalPath p dir ≠ x)
    (h : ∀ fd fetch own', (fd = -1 ∨ fd ∈ own') → Minds env keyed x q (f (fd, fetch)) own') :
    Minds env keyed x q (Client.openCopy junk p dir >>= f) own := by
  simp only [Client.openCopy, Prog.bind_assoc, Prog.pure_eq]
  refine openF hl ?_ fun fd hfd => ?_
  · simp only [if_true, Prog.bind_assoc]
    exact openAny hl fun fd own' hfd => h fd true own' hfd
  · simp only [hfd, if_false, Prog.bind_assoc]
    exact getattr fun r => get fun v => h fd _ _ (Or.inr List.mem_cons_self)

/-- The store of a file's bytes. -/
private theorem store {buf : Bytes} {size : Int32} {f : Int → Prog clientSig α}
    (hdb : getLocalPath databasePath dir ≠ x) (hkey : keyed → hashfilename p ≠ hashfilename q)
    (h : ∀ r own', own ⊆ own' → Minds env keyed x q (f r) own') :
    Minds env keyed x q (Client.afsStore p dir buf size >>= f) own := by
  simp only [Client.afsStore]
  by_cases hsize : size < 0
  · simp only [hsize, if_true]
    exact halt
  · simp only [hsize, if_false, Prog.bind_assoc, Prog.pure_eq]
    refine retried fun m => ?_
    cases m with
    | some reply =>
        simp only [Prog.bind_assoc]
        exact record hdb hkey fun own' hown' => h _ own' hown'
    | none => exact h _ own (List.Subset.refl _)

/-- The old contents go into the temporary file. -/
private theorem toTmp {l : Path} {f : Unit → Prog clientSig α} (hl : l ≠ x) (hfd : fd = -1 ∨ fd ∈ own)
    (h : ∀ own', own ⊆ own' → Minds env keyed x q (f ()) own') :
    Minds env keyed x q (Client.copyToTmp junk l fd >>= f) own := by
  simp only [Client.copyToTmp, Prog.bind_assoc, Prog.pure_eq]
  refine named hl rfl (fun _ => rfl) fun res => ?_
  refine openF hl ?_ fun fdm hfdm => ?_
  · refine through trivial rfl (Or.inl rfl) (fun _ => rfl) fun got => ?_
    refine through trivial rfl hfd (fun _ => rfl) fun _ => ?_
    exact close_none (h own (List.Subset.refl _))
  · refine through trivial rfl (Or.inr List.mem_cons_self) (fun _ => rfl) fun got => ?_
    refine through trivial rfl (hfd.imp_right fun hmem => List.mem_cons_of_mem _ hmem) (fun _ => rfl)
      fun _ => ?_
    refine close List.mem_cons_self fun _ own' hown' => ?_
    rw [List.erase_cons_head] at hown'
    exact h own' hown'

theorem afsCreate {fh : Int} {f : Int × Int → Prog clientSig α} (hdb : getLocalPath databasePath dir ≠ x)
    (hkey : keyed → hashfilename p ≠ hashfilename q) (hl : getLocalPath p dir ≠ x)
    (h : ∀ r own', Minds env keyed x q (f r) own') :
    Minds env keyed x q (Client.afsCreate p dir fh >>= f) own := by
  simp only [Client.afsCreate, Prog.bind_assoc, Prog.pure_eq]
  refine openF hl ?_ fun fd hfd => ?_
  · simp only [if_true, Prog.bind_assoc]
    exact errno fun e => h _ own
  · simp only [hfd, if_false, Prog.bind_assoc]
    refine rpc fun m => ?_
    cases m with
    | some reply =>
        simp only [Prog.bind_assoc]
        exact record hdb hkey fun own' _ => h _ own'
    | none =>
        simp only [Prog.bind_assoc]
        exact errno fun e => h _ _

theorem afsOpen {fh : Int} {f : Int × Int → Prog clientSig α} (hdb : getLocalPath databasePath dir ≠ x)
    (hkey : keyed → hashfilename p ≠ hashfilename q) (hl : getLocalPath p dir ≠ x)
    (h : ∀ r own', Minds env keyed x q (f r) own') :
    Minds env keyed x q (Client.afsOpen junk p dir fh >>= f) own := by
  simp only [Client.afsOpen, Prog.bind_assoc, Prog.pure_eq]
  refine copied hl fun fd fetch own' hfd => ?_
  have hrest : ∀ own, Minds env keyed x q
      (Client.sys (.lstat (getLocalPath p dir)) >>= fun _ => f (0, fd)) own :=
    fun own => named hl rfl (fun _ => rfl) fun _ => h _ own
  cases fetch with
  | true =>
      simp only [if_true, Prog.bind_assoc]
      refine newCopy hdb hkey hfd fun early own'' _ => ?_
      cases early with
      | some rc => exact h _ own''
      | none => exact hrest own''
  | false =>
      simp only [Bool.false_eq_true, if_false, Prog.ret_bind, Prog.bind_assoc]
      exact hrest own'

theorem afsRead {size offset : Nat} {f : Int × Bytes → Prog clientSig α} (hl : getLocalPath p dir ≠ x)
    (h : ∀ r own', Minds env keyed x q (f r) own') :
    Minds env keyed x q (Client.afsRead p dir size offset >>= f) own := by
  simp only [Client.afsRead, Prog.bind_assoc, Prog.pure_eq]
  refine named hl rfl (fun _ => rfl) fun _ => ?_
  refine openAny hl fun fd own' hfd => ?_
  refine named trivial rfl (fun _ => rfl) fun got => ?_
  refine named hl rfl (fun _ => rfl) fun _ => ?_
  cases got with
  | none =>
      simp only [Prog.bind_assoc]
      exact errno fun e => h _ own'
  | some d => exact h _ own'

theorem afsRelease {f : Int → Prog clientSig α} (hdb : getLocalPath databasePath dir ≠ x)
    (hkey : keyed → hashfilename p ≠ hashfilename q) (hl : getLocalPath p dir ≠ x) (hfd : fd ∈ own)
    (h : ∀ r own', Minds env keyed x q (f r) own') :
    Minds env keyed x q (Client.afsRelease junk p dir fd >>= f) own := by
  simp only [Client.afsRelease, Prog.bind_assoc, Prog.pure_eq]
  refine named hl rfl (fun _ => rfl) fun res => get fun modified => ?_
  by_cases hmod : modified = modifiedFlag
  · simp only [hmod, if_true, Prog.bind_assoc]
    refine close hfd fun rc own' _ => ?_
    refine openAny hl fun fd own' hfd => ?_
    refine through trivial rfl hfd (fun _ => rfl) fun got => ?_
    exact store hdb hkey fun r own'' _ => h _ own''
  · simp only [hmod, if_false]
    exact h _ own

theorem afsWrite {buffer : Bytes} {offset : Nat} {f : Int → Prog clientSig α}
    (hdb : getLocalPath databasePath dir ≠ x) (hkey : keyed → hashfilename p ≠ hashfilename q)
    (hl : getLocalPath p dir ≠ x) (htmp : getLocalTmpPath p dir ≠ x)
    (h : ∀ r own', Minds env keyed x q (f r) own') :
    Minds env keyed x q (Client.afsWrite junk p dir buffer offset >>= f) own := by
  have hend : ∀ (ret_code : Int) own, Minds env keyed x q
      (Client.sys (.remove (getLocalPath p dir)) >>= fun _ =>
        Client.sys (.rename (getLocalTmpPath p dir) (getLocalPath p dir)) >>= fun _ =>
        Client.record p dir modifiedFlag >>= fun _ =>
        (if ret_code = -1 then Client.errno >>= fun e => Prog.ret (-e) else Prog.ret ret_code) >>= f) own := by
    intro ret_code own
    refine named hl rfl (fun _ => rfl) fun _ => ?_
    refine named ⟨htmp, hl⟩ rfl (fun _ => rfl) fun _ => ?_
    exact record hdb hkey fun own' _ => verdict fun r => h r own'
  by_cases hb : buffer.length > 0
  · simp only [Client.afsWrite, hb, if_true, Prog.bind_assoc, Prog.pure_eq]
    refine openF htmp ?_ fun fd hfd => ?_
    · refine toTmp hl (Or.inl rfl) fun own' _ => ?_
      refine through trivial rfl (Or.inl rfl) (fun _ => rfl) fun ret_code => ?_
      refine named trivial rfl (fun _ => rfl) fun _ => ?_
      exact close_none (hend ret_code own')
    · refine toTmp hl (Or.inr List.mem_cons_self) fun own' hown' => ?_
      have hmem := hown' List.mem_cons_self
      refine through trivial rfl (Or.inr hmem) (fun _ => rfl) fun ret_code => ?_
      refine named trivial rfl (fun _ => rfl) fun _ => ?_
      exact close hmem fun _ own'' _ => hend ret_code own''
  · simp only [Client.afsWrite, hb, if_false, Prog.pure_eq]
    exact h _ own

end Minds

/-- A program of a thread that reads the name `x`. -/
def Views (env : Env) (sound : Prop) (x : Path) (s₀ : Fs) (Q : α → Prop) : Prog clientSig α → List Int → Prop :=
  Prog.Abides env.exec Around.set (fun _ e => sound → e.fault = .ok) (fun own s => Fs.Views x s₀ s.disk own)
    (fun own s own' t => (Fs.Leaves x s.disk t.disk own own' ∧ t.client.ht = s.client.ht) ∧
      Fs.Views x s₀ t.disk own') fun a _ => Q a

section Views

variable {sound : Prop} {s₀ : Fs} {Q : α → Prop}

/-- The rule for a call of a reader that changes nothing. -/
private theorem Views.look {c : Sys} {f : c.Res → Prog clientSig α}
    (hc : c.Looks)
    (h : ∀ v : Proc, Fs.Views x s₀ v.fs own → (sound → v.faults = [.ok]) →
      Views env sound x s₀ Q (f (c.exec v).1) own) : Views env sound x s₀ Q (Client.sys c >>= f) own := by
  refine Prog.Abides.call fun s e he hs => ?_
  have hdisk : (env.exec (.sys c) (e.set s)).2.disk = (e.set s).disk := Sys.exec_looks hc _
  refine ⟨own, ⟨⟨?_, rfl⟩, ?_⟩, h _ (e.views hs) fun hsound => by simp only [Around.set, he hsound]⟩
  · rw [hdisk]
    exact e.leaves x s own
  · rw [hdisk]
    exact e.views hs

private theorem Views.errno {f : Int → Prog clientSig α} (h : ∀ e, Views env sound x s₀ Q (f e) own) :
    Views env sound x s₀ Q (Client.errno >>= f) own := by
  exact Prog.Abides.call fun s e _ hs => ⟨own, ⟨⟨e.leaves x s own, rfl⟩, e.views hs⟩, h _⟩

/-- A reader opens the name. -/
private theorem Views.openF {mode : Nat} {f : Int → Prog clientSig α}
    (h : ∀ fd own, (own = [] ∧ fd = -1 ∧ (sound → s₀.look x = none) ∨ own = [fd]) →
      Views env sound x s₀ Q (f fd) own) :
    Views env sound x s₀ Q (Client.sys (.openF x {} mode) >>= f) [] := by
  refine Prog.Abides.call fun s e he hs => ?_
  have hv : Fs.Views x s₀ (e.set s).client.proc.fs [] := e.views hs
  rcases (Sys.openF x {} mode).exec_cases (e.set s).client.proc with ⟨hr, ht⟩ | ⟨limit, hp⟩
  · have hres : ((Sys.openF x {} mode).exec (e.set s).client.proc).1 = (-1 : Int) := hr
    have hdisk : (env.exec (.sys (.openF x {} mode)) (e.set s)).2.disk = (e.set s).disk := ht
    have hnone : sound → s₀.look x = none := by
      intro hsound
      by_contra hsome
      obtain ⟨y, hy⟩ := Option.ne_none_iff_exists'.mp hsome
      obtain ⟨fd, t, ho, h0, -⟩ := Fs.openFile_of_look (hv.same.look.trans hy) {} rfl mode
      have hexec : ((Sys.openF x {} mode).exec (e.set s).client.proc).1 = fd := by
        simp only [Sys.exec, Around.set, he hsound, Sys.perform] at ho ⊢
        rw [ho]
        rfl
      have hneg : fd = -1 := hexec.symm.trans hres
      omega
    refine ⟨[], ⟨⟨?_, rfl⟩, ?_⟩, ?_⟩
    · rw [hdisk]
      exact e.leaves x s []
    · rw [hdisk]
      exact hv
    · exact h _ [] (Or.inl ⟨rfl, hres, hnone⟩)
  · obtain ⟨hl, hview⟩ := hv.openFile hp
    exact ⟨[_], ⟨⟨hl.clock, rfl⟩, hview⟩, h _ _ (Or.inr rfl)⟩

/-- What a reader gets through its descriptor. -/
private theorem pread_got {v : Proc} {f : File} {size offset : Nat} (hv : Fs.Views x s₀ v.fs own)
    (hok : sound → v.faults = [.ok]) (hf : s₀.look x = some f)
    (hopen : own = [] ∧ fd = -1 ∧ (sound → s₀.look x = none) ∨ own = [fd]) :
    (∀ d ∈ ((Sys.pread fd size offset).exec v).1, d <+: slice f.bytes offset size) ∧
      (sound → ((Sys.pread fd size offset).exec v).1 = some (slice f.bytes offset size)) := by
  rcases hopen with ⟨rfl, rfl, hnone⟩ | rfl
  · refine ⟨fun d hd => ?_, fun hsound => absurd (hnone hsound) ?_⟩
    · rcases (Sys.pread (-1) size offset).exec_cases v with ⟨hr, -⟩ | ⟨limit, hp⟩
      · rw [hr] at hd
        cases hd
      · cases hp
    · rw [hf]
      exact Option.some_ne_none f
  · have hread : ∀ n, v.fs.pread fd n offset = .ok (slice f.bytes offset n) :=
      fun n => Fs.pread_of_holds (hv.holds fd List.mem_cons_self) (hv.same.look.trans hf) n offset
    refine ⟨fun d hd => ?_, fun hsound => ?_⟩
    · rcases (Sys.pread fd size offset).exec_cases v with ⟨hr, -⟩ | ⟨limit, hp⟩
      · rw [hr] at hd
        cases hd
      · obtain ⟨y, hy, he⟩ := map_eq_ok.mp hp
        rw [hread] at hy
        obtain rfl := Except.ok.inj hy
        obtain rfl : d = slice f.bytes offset (limit.elim size (min size)) :=
          (Option.some.inj ((Prod.mk.inj he).1.trans hd)).symm
        refine List.take_prefix_take_left ?_
        cases limit with
        | none => exact Nat.le_refl size
        | some k => exact Nat.min_le_left size k
    · simp only [Sys.exec, hok hsound, Sys.perform, Option.elim_none]
      rw [hread]
      rfl

/-- A read of the name gives a first part of the bytes there, and without faults all of them. -/
theorem afsRead_views {size offset : Nat} :
    Views env sound (getLocalPath p dir) s₀
      (fun r : Int × Bytes => ∀ f, s₀.look (getLocalPath p dir) = some f →
        r.2 <+: slice f.bytes offset size ∧
        (sound → r.1 = (slice f.bytes offset size).length ∧ r.2 = slice f.bytes offset size))
      (Client.afsRead p dir size offset) [] := by
  simp only [Client.afsRead]
  refine Views.look trivial fun _ _ _ => ?_
  refine Views.openF fun fd own hopen => ?_
  refine Views.look trivial fun v hv hok => ?_
  refine Views.look trivial fun _ _ _ => ?_
  have hgot := fun f hf => @pread_got _ _ _ _ s₀ v f size offset hv hok hf hopen
  generalize ((Sys.pread fd size offset).exec v).1 = got at hgot
  cases got with
  | none =>
      refine Views.errno fun e f hf => ⟨List.nil_prefix, fun hsound => ?_⟩
      exact absurd ((hgot f hf).2 hsound).symm (Option.some_ne_none _)
  | some d =>
      intro f hf
      refine ⟨(hgot f hf).1 d rfl, fun hsound => ?_⟩
      obtain rfl := Option.some.inj ((hgot f hf).2 hsound)
      exact ⟨rfl, rfl⟩

end Views

end Client

/-- The operation only asks the server, or the names it has for its file are others than `x`. -/
def Op.Avoids (x p dir : Path) : Op → Prop
  | .getattr | .readdir | .mkdir _ | .fsync _ => True
  | .write .. => getLocalPath p dir ≠ x ∧ getLocalTmpPath p dir ≠ x
  | _ => getLocalPath p dir ≠ x

/-- The operation puts a value into the table. -/
def Op.Enters : Op → Prop
  | .create | .openF | .write .. | .release _ => True
  | _ => False

/-- The handle that the operation closes. -/
def Op.closes (fh : Int) : Op → List Int
  | .release _ => [fh]
  | _ => []

open Client.Minds in
/-- An operation on other names, in a thread of its own. -/
theorem Op.prog_minds {env : Env} {keyed : Prop} {x p dir q : Path} (junk : Junk) (fh : Int) {op : Op}
    (hdb : getLocalPath databasePath dir ≠ x) (hop : op.Avoids x p dir)
    (hkey : keyed → op.Enters → hashfilename p ≠ hashfilename q) :
    Client.Minds env keyed x q (op.prog junk p dir fh) (op.closes fh) := by
  cases op with
  | create => exact afsCreate hdb (fun hk => hkey hk trivial) hop fun _ _ => ret
  | openF => exact afsOpen hdb (fun hk => hkey hk trivial) hop fun _ _ => ret
  | write k buffer offset =>
      exact afsWrite hdb (fun hk => hkey hk trivial) hop.1 hop.2 fun _ _ => ret
  | release k =>
      exact afsRelease hdb (fun hk => hkey hk trivial) hop List.mem_cons_self fun _ _ => ret
  | read k size offset => exact afsRead hop fun _ _ => ret
  | getattr => exact Client.Minds.getattr fun _ => ret
  | readdir =>
      simp only [Op.prog, Client.afsLs, Prog.bind_assoc, Prog.pure_eq]
      refine rpc fun m => ?_
      cases m with
      | some stream => exact ret
      | none =>
          simp only [Prog.bind_assoc]
          exact errno fun _ => ret
  | mkdir mode => exact rpc fun _ => ret
  | fsync k =>
      simp only [Op.prog, Client.afsFsync, Prog.bind_assoc, Prog.pure_eq]
      exact named trivial rfl (fun _ => rfl) fun _ => verdict fun _ => ret
  | truncate size | chown uid gid | utimens atime mtime =>
      simp only [Op.prog, Client.afsTruncate, Client.afsChown, Client.afsUtimens, Prog.bind_assoc, Prog.pure_eq]
      exact named hop rfl (fun _ => rfl) fun _ => verdict fun _ => ret
  | chmod mode | unlink | rmdir => exact named hop rfl (fun _ => rfl) fun _ => rpc fun _ => ret

/-- The thread reads the file under the name. -/
def Thread.Views (j : Thread) (x dir : Path) : Prop :=
  (∃ k size offset, j.op = .read k size offset) ∧ getLocalPath j.path dir = x

namespace Threads

variable {ι : Type} (V : Threads ι)

/-- Every thread reads the file under `x` or keeps to other names, and a handle that it closes is open, on
another file, and no other thread closes it. -/
structure Apart (x : Path) (s : Fs) : Prop where
  database : getLocalPath databasePath V.cache_path ≠ x
  threads : ∀ i, (V.thread i).Views x V.cache_path ∨ (V.thread i).op.Avoids x (V.thread i).path V.cache_path
  owns : ∀ i, s.Owns x ((V.thread i).op.closes (V.thread i).fh)
  differ : ∀ i j, i ≠ j → ∀ fd ∈ (V.thread i).op.closes (V.thread i).fh,
    fd ∉ (V.thread j).op.closes (V.thread j).fh

/-- The threads that put values into the table put them at other keys. -/
def Keyed (q : Path) : Prop := ∀ i, (V.thread i).op.Enters → hashfilename (V.thread i).path ≠ hashfilename q

/-- What thread `i` with the descriptors `own` relies on. -/
structure Has (x : Path) (s₀ : Fs) (i : ι) (own : List Int) (s : St) : Prop where
  views : (V.thread i).Views x V.cache_path → Fs.Views x s₀ s.disk own
  owns : ¬ (V.thread i).Views x V.cache_path → s.disk.Owns x own

/-- What holds between the commands: `γ` has the descriptors of each thread. -/
structure Stands (x q : Path) (s₀ : St) (γ : ι → List Int) (s : St) : Prop where
  same : Fs.Same x s₀.disk s.disk
  entry : V.Keyed q → s.client.ht.get q = s₀.client.ht.get q
  has : ∀ i, V.Has x s₀.disk i (γ i) s
  differ : ∀ i j, i ≠ j → ∀ fd ∈ γ i, fd ∉ γ j

/-- What a thread returns when it reads the file. -/
def Returns (sound : ι → Prop) (x : Path) (s₀ : Fs) (i : ι) (r : Result) : Prop :=
  ∀ k size offset f, (V.thread i).op = .read k size offset → getLocalPath (V.thread i).path V.cache_path = x →
    s₀.look x = some f → r.data <+: slice f.bytes offset size ∧
      (sound i → r.ret = (slice f.bytes offset size).length ∧ r.data = slice f.bytes offset size)

variable {V} {x q : Path} {s₀ s t : St} {γ : ι → List Int} {own' : List Int} {i : ι}

/-- The descriptors of a thread are open. -/
theorem Has.opened {own : List Int} {fd : Int} (h : V.Has x s₀.disk i own s) (hfd : fd ∈ own) :
    s.disk.getFd fd ≠ none := by
  by_cases hv : (V.thread i).Views x V.cache_path
  · exact (h.views hv).opened hfd
  · exact (h.owns hv).opened fd hfd

/-- One command of one thread. -/
theorem Stands.moves [DecidableEq ι] (h : V.Stands x q s₀ γ s)
    (hm : Client.Moves (V.Keyed q) x q s t (γ i) own') (hown : V.Has x s₀.disk i own' t) :
    V.Stands x q s₀ (Function.update γ i own') t := by
  have hnew : ∀ j, j ≠ i → ∀ fd ∈ own', fd ∉ γ j := by
    intro j hj fd hfd hmem
    by_cases hold : fd ∈ γ i
    · exact h.differ i j (Ne.symm hj) fd hold hmem
    · exact (h.has j).opened hmem (hm.fresh fd hfd hold)
  refine ⟨h.same.trans hm.same, fun hk => (hm.entry hk).trans (h.entry hk), fun j => ?_, fun j j' hne => ?_⟩
  · by_cases hj : j = i
    · subst hj
      rw [Function.update_self]
      exact hown
    · rw [Function.update_of_ne hj]
      have hd : ∀ fd ∈ γ j, fd ∉ γ i := h.differ j i hj
      exact ⟨fun hv => ((h.has j).views hv).beside hm.toLeaves hd,
        fun hv => ((h.has j).owns hv).beside hm.toLeaves hd⟩
  · by_cases hj : j = i
    · subst hj
      rw [Function.update_self, Function.update_of_ne (Ne.symm hne)]
      exact hnew j' (Ne.symm hne)
    · rw [Function.update_of_ne hj]
      by_cases hj' : j' = i
      · subst hj'
        rw [Function.update_self]
        exact fun fd hfd hmem => hnew j hj fd hmem hfd
      · rw [Function.update_of_ne hj']
        exact h.differ j j' hne

/-- The program of each thread. -/
private theorem thread_abides (sound : ι → Prop) (hV : V.Apart x s.disk) (i : ι) :
    ((V.thread i).op.prog (V.thread i).junk (V.thread i).path V.cache_path (V.thread i).fh).Abides
      V.env.exec Around.set (fun _ e => sound i → e.fault = .ok) (V.Has x s.disk i)
      (fun own s₁ own' t => Client.Moves (V.Keyed q) x q s₁ t own own' ∧ V.Has x s.disk i own' t)
      (fun r _ => V.Returns sound x s.disk i r) ((V.thread i).op.closes (V.thread i).fh) := by
  by_cases hv : (V.thread i).Views x V.cache_path
  · obtain ⟨⟨k, size, offset, hop⟩, hx⟩ := hv
    subst hx
    rw [hop]
    have hread : Client.Views V.env (sound i) (getLocalPath (V.thread i).path V.cache_path) s.disk _
        (Client.afsRead (V.thread i).path V.cache_path size offset) [] := Client.afsRead_views
    have hview : (V.thread i).Views (getLocalPath (V.thread i).path V.cache_path) V.cache_path :=
      ⟨⟨k, size, offset, hop⟩, rfl⟩
    refine Prog.Abides.bind (hread.mono (fun _ _ he => he) (fun g s hs => hs.views hview)
      (fun g s₁ g' t _ hm => ⟨⟨hm.1.1, fun _ => congrArg (HashTable.get · q) hm.1.2⟩, fun _ => hm.2,
        fun hv => absurd hview hv⟩) fun _ _ hr => hr) fun r g hr k' size' offset' f hop' _ hf => ?_
    rw [hop] at hop'
    cases hop'
    exact hr f hf
  · have hmind : Client.Minds V.env (V.Keyed q) x q _ _ := Op.prog_minds (V.thread i).junk (V.thread i).fh
      hV.database ((hV.threads i).resolve_left hv) fun hk he => hk i he
    refine hmind.mono (fun _ _ _ => trivial) (fun g s hs => hs.owns hv) (fun g s₁ g' t _ hm => ?_) ?_
    · exact ⟨hm.1, fun hv' => absurd hv' hv, fun _ => hm.2⟩
    · intro r g _ k size offset f hop hx
      exact absurd ⟨⟨k, size, offset, hop⟩, hx⟩ hv

/-- Any interleaving of the threads. -/
private theorem stands_of_run [DecidableEq ι] (q : Path) (sound : ι → Prop) {es : List (ι × Around)}
    {P : Pool clientSig ι St Result} (hV : V.Apart x s.disk)
    (h : Run V.step (Pool.AdmitsEach fun i _ e => sound i → e.fault = .ok) (V.start s) es P) :
    ∃ γ, V.Stands x q s γ P.state ∧ ∀ i r, P.result i = some r → V.Returns sound x s.disk i r := by
  have hstart : V.Stands x q s (fun i => (V.thread i).op.closes (V.thread i).fh) s := by
    refine ⟨Fs.Same.refl x s.disk, fun _ => rfl, fun i => ⟨fun hv => ⟨Fs.Same.refl x s.disk, ?_⟩,
      fun _ => hV.owns i⟩, hV.differ⟩
    obtain ⟨⟨k, size, offset, hop⟩, -⟩ := hv
    rw [hop]
    exact List.forall_mem_nil _
  exact Pool.abides_run (V.Stands x q s) (fun γ t i hs => hs.has i)
    (fun γ s₁ i g' t hs hm => hs.moves hm.1 hm.2) hstart (thread_abides sound hV) h

/-- In any interleaving of the threads of a client, whatever fails, a file that none of them changes keeps
its copy but for the time of the last access, and its entry in the table if those that put values into
the table put them at other keys. -/
theorem other_threads_keep_file [DecidableEq ι] {es : List (ι × Around)} {P : Pool clientSig ι St Result}
    (hV : V.Apart (getLocalPath q V.cache_path) s.disk) (h : Run V.step (fun _ _ => True) (V.start s) es P) :
    Fs.Kept (getLocalPath q V.cache_path) s.disk P.state.disk ∧
      (V.Keyed q → P.state.client.ht.get q = s.client.ht.get q) := by
  obtain ⟨γ, hs, -⟩ := stands_of_run q (fun _ => False) hV (h.mono fun _ _ _ _ _ (hc : False) => hc.elim)
  exact ⟨hs.same.kept, hs.entry⟩

/-- In any interleaving of the threads of a client, a read of a file that none of them changes gives a first
part of its bytes at the offset, and all of them if no call of the read fails. -/
theorem reads_among_threads [DecidableEq ι] {es : List (ι × Around)} {P : Pool clientSig ι St Result}
    {sound : Prop} {k size offset : Nat} {f : File} {r : Result} (hop : (V.thread i).op = .read k size offset)
    (hV : V.Apart (getLocalPath (V.thread i).path V.cache_path) s.disk)
    (hf : s.disk.look (getLocalPath (V.thread i).path V.cache_path) = some f)
    (h : Run V.step (fun _ e => sound → e.1 = i → e.2.fault = .ok) (V.start s) es P)
    (hr : P.result i = some r) :
    r.data <+: slice f.bytes offset size ∧
      (sound → r.ret = (slice f.bytes offset size).length ∧ r.data = slice f.bytes offset size) := by
  have hrun : Run V.step (Pool.AdmitsEach fun j _ e => (sound ∧ j = i) → e.fault = .ok) (V.start s) es P :=
    h.mono fun _ _ hadm _ _ hc => hadm hc.1 hc.2
  obtain ⟨γ, -, hret⟩ := stands_of_run [] _ hV hrun
  obtain ⟨hpre, hall⟩ := hret i r hr k size offset f hop rfl hf
  exact ⟨hpre, fun hs => hall ⟨hs, rfl⟩⟩

end Threads

/-- Another file of the sample system. -/
def sampleOther : Path := cstr "/g"

/-- A client has opened the sample file, and has made and written the other one. -/
def sampleBusy : St :=
  [(Op.openF, sampleFile), (.create, sampleOther), (.write 0 [7] 0, sampleOther)].foldl
    (fun s e => ((e.1.prog .zero e.2 (sample.cache_path false) 0).run (Env.exec ⟨sample.root_path, .zero⟩) s).2)
    (sampleBoot.state false (sampleTime 1 0) [] [])

/-- It reads the first file while it releases the other one. -/
def sampleThreads : Threads Bool where
  thread i := if i then ⟨.release 0, sampleOther, 1, .zero⟩ else ⟨.read 0 2 0, sampleFile, 0, .zero⟩
  cache_path := sample.cache_path false
  env := ⟨sample.root_path, .zero⟩

/-- The commands of the two in some order, one second apart. -/
def sampleAround (l : List Bool) : List (Bool × Around) :=
  l.zipIdx.map fun x => (x.1, ⟨sampleTime x.2 0, .ok, 0, 1, sampleBoot.server, [], []⟩)

/-- The read has its commands between those of the release. -/
def sampleWeave : List (Bool × Around) :=
  sampleAround [true, false, true, true, false, true, true, false, true, true, true, true, true, true, false]

private theorem apart_sampleThreads :
    sampleThreads.Apart (getLocalPath sampleFile sampleThreads.cache_path) sampleBusy.disk := by
  have hfd : (sampleBusy.disk.getFd 1).map (·.ino) = some 2 := by decide +kernel
  have hother : sampleBusy.disk.tree (getLocalPath sampleFile sampleThreads.cache_path) ≠ some (.file 2) := by
    intro htree
    have hlook := congrArg (Option.map (·.bytes)) (Fs.look_of_tree htree)
    exact absurd hlook (by decide +kernel)
  refine ⟨by decide, fun i => ?_, fun i => ?_, fun i j hne fd hfd => ?_⟩
  · cases i with
    | false => exact Or.inl ⟨⟨0, 2, 0, rfl⟩, rfl⟩
    | true => exact Or.inr (by decide : getLocalPath sampleOther _ ≠ getLocalPath sampleFile _)
  · cases i with
    | false => exact Fs.owns_nil _ _
    | true =>
        obtain ⟨o, ho, hino⟩ := Option.map_eq_some_iff.mp hfd
        exact Fs.owns_singleton ho (hino ▸ hother)
  · cases i with
    | false => exact absurd hfd List.not_mem_nil
    | true =>
        cases j with
        | false => exact List.not_mem_nil
        | true => exact absurd rfl hne

instance : (f : Fault) → Decidable (f = .ok)
  | .ok => .isTrue rfl
  | .fail _ | .short _ => .isFalse (by simp only [reduceCtorEq, not_false_eq_true])

private theorem exists_sampleWeave : ∃ P r,
    Run sampleThreads.step (fun _ e => e.2.fault = .ok) (sampleThreads.start sampleBusy) sampleWeave P ∧
      P.result false = some r ∧ (P.result true).isSome := by
  have hplay : ((sampleWeave.foldlM (fun P e => if e.2.fault = .ok then sampleThreads.step P e else none)
      (sampleThreads.start sampleBusy)).map fun P =>
        ((P.result false).isSome && (P.result true).isSome)) = some true := by decide +kernel
  obtain ⟨P, hP, hends⟩ := Option.map_eq_some_iff.mp hplay
  obtain ⟨hread, hrelease⟩ := Bool.and_eq_true_iff.mp hends
  obtain ⟨r, hr⟩ := Option.isSome_iff_exists.mp hread
  exact ⟨P, r, Run.of_foldlM hP, hr, hrelease⟩

namespace Threads

/-- The release of the other file runs to its end. -/
theorem other_threads_keep_file_sample : ∃ P,
    Run sampleThreads.step (fun _ _ => True) (sampleThreads.start sampleBusy) sampleWeave P ∧
      (P.result true).isSome ∧
      Fs.Kept (getLocalPath sampleFile sampleThreads.cache_path) sampleBusy.disk P.state.disk ∧
      P.state.client.ht.get sampleFile = sampleBusy.client.ht.get sampleFile := by
  obtain ⟨P, -, hrun, -, hrelease⟩ := exists_sampleWeave
  have hplain := hrun.mono fun _ _ _ => trivial
  obtain ⟨hkept, hentry⟩ := other_threads_keep_file apart_sampleThreads hplain
  refine ⟨P, hplain, hrelease, hkept, hentry fun i hi => ?_⟩
  cases i with
  | false => exact hi.elim
  | true => exact (by decide : hashfilename sampleOther ≠ hashfilename sampleFile)

/-- The read gets the one byte of its file. -/
theorem reads_among_threads_sample : ∃ P r,
    Run sampleThreads.step (fun _ e => True → e.1 = false → e.2.fault = .ok) (sampleThreads.start sampleBusy)
        sampleWeave P ∧
      P.result false = some r ∧ r.ret = 1 ∧ r.data = [1] := by
  obtain ⟨P, r, hrun, hr, -⟩ := exists_sampleWeave
  have hsound := hrun.mono fun _ e he (_ : True) (_ : e.1 = false) => he
  have hlook : (sampleBusy.disk.look (getLocalPath sampleFile sampleThreads.cache_path)).map (·.bytes) =
      some [1] := by decide +kernel
  obtain ⟨f, hf, hb⟩ := Option.map_eq_some_iff.mp hlook
  obtain ⟨-, hall⟩ := @reads_among_threads _ sampleThreads sampleBusy false _ _ P True 0 2 0 f r rfl
    apart_sampleThreads hf hsound hr
  obtain ⟨hret, hdata⟩ := hall trivial
  rw [hb] at hret hdata
  exact ⟨P, r, hsound, hr, hret, hdata⟩

end Threads

end Afs
