import Afs.Consistency.Catalog
import Afs.Core.Steps

/-!
# A server that is killed

The server keeps nothing between two requests but its files. When it is killed in the middle of a handler
and started again, the request that was cut off has done nothing, or it was carried out up to a part of its
bytes; the requests before and behind it are not concerned.
-/

namespace Posix

/-- The commands of a process that leave what the names stand for. -/
def ProcCmd.Looks : ProcCmd → Prop
  | .sys c => c.ReadsOnly
  | .errno => True

/-- A process after a new start: its files are there, and no descriptors. -/
def Proc.restarted (v : Proc) : Proc := ⟨{ v.fs with fds := [] }, 0, []⟩

end Posix

namespace Afs

open Posix Interaction Transition

section Looks

variable {α : Type} {v : Proc}

/-- Nothing changes while a program only looks, wherever it is killed. -/
private theorem looks_stopped {p : Prog procSig α} (hp : p.Uses ProcCmd.Looks) (n : Nat) :
    (p.stopped ProcCmd.exec (fun _ => none) n v).fs.catalog = v.fs.catalog ∧
      (p.run ProcCmd.exec v).2.fs.catalog = v.fs.catalog := by
  have hkeeps : ∀ (c : ProcCmd) (u : Proc), c.Looks → u.fs.catalog = v.fs.catalog →
      (ProcCmd.exec c u).2.fs.catalog = v.fs.catalog := by
    intro c u hc hu
    cases c with
    | sys c => exact (c.exec_catalog hc u).trans hu
    | errno => exact hu
  exact ⟨hp.stopped (fun _ _ _ h => absurd h (Option.some_ne_none _).symm) hkeeps rfl n,
    hp.invariant hkeeps rfl⟩

/-- A program that only looks behind its first call is killed before this call or, for all that matters, at
its end. -/
private theorem stopped_between {c : Sys} {f : c.Res → Prog procSig α} (hf : ∀ r, (f r).Uses ProcCmd.Looks)
    (n : Nat) :
    ((Server.sys c >>= f).stopped ProcCmd.exec (fun _ => none) n v).fs.catalog = v.fs.catalog ∨
      ((Server.sys c >>= f).stopped ProcCmd.exec (fun _ => none) n v).fs.catalog =
        ((Server.sys c >>= f).run ProcCmd.exec v).2.fs.catalog := by
  cases n with
  | zero => exact Or.inl rfl
  | succ n =>
      obtain ⟨hstop, hrun⟩ := looks_stopped (v := (c.exec v).2) (hf (c.exec v).1) n
      exact Or.inr (hstop.trans hrun.symm)

end Looks

namespace Server

variable {junk : Junk} {root_path : Path} {v : Proc}

private theorem errno_looks {α : Type} {f : Int → α} :
    (Server.errno >>= fun e => pure (f e)).Uses ProcCmd.Looks :=
  Prog.Uses.call trivial fun _ => trivial

/-- The handlers but that of a store change names with their first call at most. -/
private theorem handle_first (r : Request) :
    (∃ (c : Sys) (f : c.Res → Prog procSig (Response r.Reply)), handle junk root_path r = sys c >>= f ∧
      ∀ x, (f x).Uses ProcCmd.Looks) ∨ ∃ s, r = .store s := by
  cases r with
  | store s => exact Or.inr ⟨s, rfl⟩
  | create path =>
      refine Or.inl ⟨_, _, rfl, fun fd => ?_⟩
      split
      · exact errno_looks
      · exact Prog.Uses.call trivial fun _ => Prog.Uses.call trivial fun _ => trivial
  | getattr path =>
      refine Or.inl ⟨_, _, rfl, fun res => ?_⟩
      cases res with
      | none => exact errno_looks
      | some stats => trivial
  | unlink path | chmod path mode | rmdir path | mkdir path mode =>
      refine Or.inl ⟨_, _, rfl, fun res => ?_⟩
      split
      · exact errno_looks
      · trivial
  | fetch path =>
      refine Or.inl ⟨_, _, rfl, fun fd => ?_⟩
      split
      · trivial
      · refine Prog.Uses.call trivial fun _ => Prog.Uses.call trivial fun _ => Prog.Uses.call trivial fun _ =>
          Prog.Uses.call trivial fun _ => Prog.Uses.call trivial fun _ => ?_
        split <;> trivial
  | ls path =>
      refine Or.inl ⟨_, _, rfl, fun dp => ?_⟩
      split <;> trivial

/-- Between its open and its write a store has emptied the file. -/
private theorem store_stopped (s : StoreReq) (n : Nat) :
    let u := (handle junk root_path (.store s)).stopped ProcCmd.exec (fun _ => none) n v
    u.fs.catalog = v.fs.catalog ∨
      (Request.store s).effect root_path v.fs.clock [] v.fs.catalog = .ok u.fs.catalog ∨
      u.fs.catalog = ((handle junk root_path (.store s)).run ProcCmd.exec v).2.fs.catalog := by
  intro u
  cases n with
  | zero => exact Or.inl rfl
  | succ n =>
      let c := Sys.openF (getServerPath s.path root_path) { creat := true, trunc := true } S_IRWXUG
      let last (fd : Int) : Prog procSig (Response StoreRes) :=
        sys (.lstat (getServerPath s.path root_path)) >>= fun res => sys (.close fd) >>= fun _ =>
          pure { reply := { error := 0, time := Int64.ofNat (res.getD junk.info).st_mtim.tv_nsec } }
      let rest (fd : Int) : Prog procSig (Response StoreRes) :=
        if fd = -1 then Server.errno >>= fun e => pure { reply := { error := Int32.ofInt e } }
        else sys (.write fd (s.buf ++ junk.beyond) (sizeT s.size.toInt)) >>= fun _ => last fd
      have hu : u = (rest (c.exec v).1).stopped ProcCmd.exec (fun _ => none) n (c.exec v).2 := rfl
      have hrun : (handle junk root_path (.store s)).run ProcCmd.exec v =
          (rest (c.exec v).1).run ProcCmd.exec (c.exec v).2 := rfl
      rw [hu, hrun]
      by_cases hfd : (c.exec v).1 = (-1 : Int)
      · have hrest : (rest (c.exec v).1).Uses ProcCmd.Looks := by
          simp only [rest, hfd, if_true]
          exact errno_looks
        obtain ⟨hstop, hend⟩ := looks_stopped (v := (c.exec v).2) hrest n
        exact Or.inr (Or.inr (hstop.trans hend.symm))
      · rcases c.exec_cases v with ⟨hr, -⟩ | ⟨limit, hp⟩
        · exact absurd hr hfd
        have hopen : v.fs.openFile (getServerPath s.path root_path) { creat := true, trunc := true } S_IRWXUG =
            .ok (((c.exec v).1 : Int), (c.exec v).2.fs) := hp
        have hopened : v.fs.catalog.opened v.fs.clock (getServerPath s.path root_path)
            { creat := true, trunc := true } S_IRWXUG = .ok (c.exec v).2.fs.catalog :=
          (Fs.catalog_openFile ..).symm.trans (by rw [hopen]; rfl)
        have hempty : (Request.store s).effect root_path v.fs.clock [] v.fs.catalog =
            .ok (c.exec v).2.fs.catalog := by
          simp only [Request.effect, hopened]
          exact congrArg Except.ok (Catalog.fill_nil ..)
        simp only [rest, hfd, if_false]
        have hlast : ∀ fd, (last fd).Uses ProcCmd.Looks := fun fd =>
          Prog.Uses.call trivial fun _ => Prog.Uses.call trivial fun _ => trivial
        rcases stopped_between (v := (c.exec v).2) (c := .write (c.exec v).1 (s.buf ++ junk.beyond)
          (sizeT s.size.toInt)) (f := fun _ => last (c.exec v).1) (fun _ => hlast _) n with h | h
        · exact Or.inr (Or.inl (by rw [h]; exact hempty))
        · exact Or.inr (Or.inr h)

/-- Wherever the server is killed in a handler, it has done nothing, or it has carried out the request up to
a part of the bytes of a store. -/
theorem handle_stopped (r : Request) (n : Nat) :
    let u := (handle junk root_path r).stopped ProcCmd.exec (fun _ => none) n v
    u.fs.catalog = v.fs.catalog ∨ ∃ d, d <+: r.payload junk ∧
      r.effect root_path v.fs.clock d v.fs.catalog = .ok u.fs.catalog := by
  intro u
  obtain ⟨m, t, hrun, hout⟩ := @handle_outcome v junk root_path r
  have hend : t.fs.catalog = v.fs.catalog ∨ ∃ d, d <+: r.payload junk ∧
      r.effect root_path v.fs.clock d v.fs.catalog = .ok t.fs.catalog :=
    hout.imp (fun h => h.1) fun h => h.2
  rcases @handle_first junk root_path r with ⟨c, f, hp, hf⟩ | ⟨s, rfl⟩
  · rcases stopped_between (v := v) hf n with h | h
    · exact Or.inl (by rw [← h, ← hp])
    · rw [← hp, hrun] at h
      change u.fs.catalog = t.fs.catalog at h
      rwa [h]
  · rcases @store_stopped junk root_path v s n with h | h | h
    · exact Or.inl h
    · exact Or.inr ⟨[], List.nil_prefix, h⟩
    · rw [hrun] at h
      change u.fs.catalog = t.fs.catalog at h
      rwa [h]

end Server

/-- A request and how far its handler gets: to its end, or the server is killed behind the first `n` system
calls and started again. -/
structure Fate where
  arrival : Arrival
  killed : Option Nat

/-- The server and the requests so far, with the replies that were sent. -/
structure Docket where
  proc : Proc
  log : List ((a : Arrival) × Option (Response a.request.Reply))

/-- One request. -/
def Docket.step (root_path : Path) (d : Docket) (f : Fate) : Option Docket :=
  let handler := Server.handle f.arrival.handling.junk root_path f.arrival.request
  let server : Proc := ⟨{ d.proc.fs with clock := f.arrival.now }, d.proc.errno, f.arrival.handling.faults⟩
  match f.killed with
  | none =>
    let out := handler.run ProcCmd.exec server
    out.1.map fun m => ⟨{ out.2 with faults := [] }, d.log ++ [⟨f.arrival, some m⟩]⟩
  | some n =>
    some ⟨(handler.stopped ProcCmd.exec (fun _ => none) n server).restarted, d.log ++ [⟨f.arrival, none⟩]⟩

/-- A catalog that becomes another one by requests of which each has done nothing and was not accepted, or was
carried out, with a first part of its bytes in a store, and not refused. -/
inductive Accounts (root_path : Path) (C : Catalog) :
    List ((a : Arrival) × Option (Response a.request.Reply)) → Catalog → Prop where
  | nil : Accounts root_path C [] C
  | nothing {l D} {a : Arrival} {o : Option (Response a.request.Reply)} (h : Accounts root_path C l D)
      (ho : ∀ m, o = some m → ¬ a.request.Accepts m) : Accounts root_path C (l ++ [⟨a, o⟩]) D
  | done {l D E} {a : Arrival} {o : Option (Response a.request.Reply)} {d : Bytes}
      (h : Accounts root_path C l D) (ho : ∀ m, o = some m → a.request.Accepts m)
      (hd : d <+: a.request.content)
      (he : a.request.effect root_path a.now d D = .ok E) : Accounts root_path C (l ++ [⟨a, o⟩]) E

namespace Docket

variable {root_path : Path} {s : Proc} {fs : List Fate} {d : Docket}

/-- Over any requests whose stores tell their length, whatever faults their handlers meet and wherever
the server is killed and started again, the names at the server come from the requests one by one: one
that was accepted was carried out, one that was refused has done nothing, and one that the server died
of has been carried out or done nothing. -/
theorem requests_accounted (h : Run (Docket.step root_path)
      (fun _ f => (∀ x ∈ f.arrival.handling.faults, x.Real) ∧ f.arrival.request.Tells) ⟨s, []⟩ fs d) :
    d.log.map (·.1) = fs.map (·.arrival) ∧ Accounts root_path s.fs.catalog d.log d.proc.fs.catalog := by
  refine h.invariant_past (fun fs d => d.log.map (·.1) = fs.map (·.arrival) ∧
    Accounts root_path s.fs.catalog d.log d.proc.fs.catalog) ⟨rfl, Accounts.nil⟩ ?_
  rintro fs d ⟨a, killed⟩ d' - ⟨hlog, hacc⟩ ⟨hreal, htells⟩ hstep
  have hpayload : a.request.payload a.handling.junk = a.request.content := Request.payload_of_tells htells
  let server : Proc := ⟨{ d.proc.fs with clock := a.now }, d.proc.errno, a.handling.faults⟩
  cases killed with
  | none =>
      obtain ⟨m, t, hrun, hout⟩ := @Server.handle_outcome server a.handling.junk root_path a.request
      have hd' : d' = ⟨{ t with faults := [] }, d.log ++ [⟨a, some m⟩]⟩ := by
        simp only [step, server] at hstep hrun
        rw [hrun] at hstep
        exact (Option.some.inj hstep).symm
      subst hd'
      refine ⟨by simp [hlog], ?_⟩
      change Accounts root_path s.fs.catalog _ t.fs.catalog
      rcases hout with ⟨hsame, hno⟩ | ⟨hyes, b, hb, heff⟩
      · rw [show t.fs.catalog = d.proc.fs.catalog from hsame]
        exact hacc.nothing fun m' hm' => Option.some.inj hm' ▸ hno hreal
      · exact hacc.done (fun m' hm' => Option.some.inj hm' ▸ hyes) (hpayload ▸ hb) heff
  | some n =>
      have hstop := @Server.handle_stopped a.handling.junk root_path server a.request n
      obtain rfl := Option.some.inj hstep
      refine ⟨by simp [hlog], ?_⟩
      change Accounts root_path s.fs.catalog _ (((Server.handle a.handling.junk root_path a.request).stopped
        ProcCmd.exec (fun _ => none) n server).fs.catalog)
      rcases hstop with hsame | ⟨b, hb, heff⟩
      · rw [hsame]
        exact hacc.nothing fun m hm => absurd hm.symm (Option.some_ne_none m)
      · exact hacc.done (fun m hm => absurd hm.symm (Option.some_ne_none m)) (hpayload ▸ hb) heff

/-- A store is killed behind its open, which has emptied the file, and the next one is answered. -/
theorem requests_accounted_sample : ∃ fs : List Fate, ∃ d,
    Run (Docket.step sample.root_path) (fun _ f => (∀ x ∈ f.arrival.handling.faults, x.Real) ∧
      f.arrival.request.Tells) ⟨sampleBoot.server, []⟩ fs d ∧ d.log.map (·.2.isSome) = [false, true] ∧
      Accounts sample.root_path sampleBoot.server.fs.catalog d.log d.proc.fs.catalog := by
  let fs : List Fate := [⟨⟨.store ⟨sampleFile, 2, [5, 6]⟩, sampleTime 1 0, { junk := .zero }⟩, some 1⟩,
    ⟨⟨.store ⟨sampleFile, 1, [7]⟩, sampleTime 2 0, { junk := .zero }⟩, none⟩]
  have h : ((fs.foldlM (fun d f => if (∀ x ∈ f.arrival.handling.faults, x.Real) ∧
      f.arrival.request.Tells then Docket.step sample.root_path d f else none)
        ⟨sampleBoot.server, []⟩).map fun d => d.log.map (·.2.isSome)) = some [false, true] := by
    decide +kernel
  obtain ⟨d, hfold, hlog⟩ := Option.map_eq_some_iff.mp h
  have hrun := Run.of_foldlM hfold
  exact ⟨fs, d, hrun, hlog, (requests_accounted hrun).2⟩

end Docket

end Afs
