import Afs.Bounds.Attributes
import Afs.Concurrency.Service
import Afs.Core.Catalog

/-!
# The server as a catalog

A handler makes several system calls, on files and descriptors. What it does to the exported directory and
what it replies is a function of the names and of what they stand for. Under faults a reply with an error
means that nothing happened, and a reply without one that the request was carried out, up to the part of a
store that a write did not move.
-/

namespace Afs

open Posix Interaction Transition

/-- The modification time that a reply has for a name. -/
def timeOf (C : Catalog) (p : Path) : Int64 :=
  match C.stat p with
  | .ok stats => Int64.ofNat stats.st_mtim.tv_nsec
  | .error _ => 0

/-- What a request makes of the names, when `d` is what reaches the file of a store. -/
def Request.effect (root_path : Path) (now : Timespec) (d : Bytes) (C : Catalog) :
    Request → Except Int Catalog
  | .create path => C.opened now (getServerPath path root_path) { creat := true } S_IRWXUG
  | .store r =>
    (C.opened now (getServerPath r.path root_path) { creat := true, trunc := true } S_IRWXUG).map fun D =>
      D.fill now (getServerPath r.path root_path) d
  | .getattr path => (C.stat (getServerPath path root_path)).map fun _ => C
  | .unlink path => C.unlink now (getServerPath path root_path)
  | .chmod path mode => C.chmod now (getServerPath path root_path) mode.toNat
  | .mkdir path mode => C.mkdir now (getServerPath path root_path) mode.toNat
  | .rmdir path => C.rmdir now (getServerPath path root_path)
  | .fetch path => C.opened now (getServerPath path root_path) {} 0
  | .ls path => (C.readdir (getServerPath path root_path)).map fun _ => C

/-- The requests that only look. -/
def Request.Looks : Request → Prop
  | .getattr _ | .fetch _ | .ls _ => True
  | .create _ | .store _ | .unlink _ | .chmod .. | .mkdir .. | .rmdir _ => False

theorem Request.effect_looks {r : Request} {root_path : Path} {now : Timespec} {d : Bytes} {C D : Catalog}
    (h : r.effect root_path now d C = .ok D) (hr : r.Looks) : D = C := by
  cases r with
  | fetch path =>
      simp only [effect, Catalog.opened, Bool.false_eq_true, if_false] at h
      split at h
      · cases h
      · exact (Except.ok.inj h).symm
      · cases h
  | getattr path | ls path =>
      obtain ⟨-, -, rfl⟩ := map_eq_ok.mp h
      rfl
  | _ => exact hr.elim

/-- The reply to a request that cannot be carried out. -/
def Request.refusal (e : Int) : (r : Request) → Response r.Reply
  | .create _ => { reply := { ack := Int32.ofInt e } }
  | .store _ => { reply := { error := Int32.ofInt e } }
  | .getattr _ => { reply := { err := Int32.ofInt e } }
  | .unlink _ => { reply := { error := Int32.ofInt e } }
  | .chmod .. => { reply := { error := Int32.ofInt e } }
  | .mkdir .. => { ok := false, reply := { error := Int32.ofInt e } }
  | .rmdir _ => { reply := { error := Int32.ofInt e } }
  | .fetch _ => { reply := { error := -1 } }
  | .ls _ => { reply := [{ error := -1 }] }

/-- The reply to a request that was carried out and left these names. A listing comes in some order. -/
def Request.report (root_path : Path) (order : List Path → List Path) (D : Catalog) :
    (r : Request) → Response r.Reply
  | .create path => { reply := { ack := 0, time := timeOf D (getServerPath path root_path) } }
  | .store r => { reply := { error := 0, time := timeOf D (getServerPath r.path root_path) } }
  | .getattr path =>
    match D.stat (getServerPath path root_path) with
    | .ok stats => { reply := Server.getattrRes stats }
    | .error _ => { reply := {} }
  | .unlink _ => { reply := {} }
  | .chmod .. => { reply := {} }
  | .mkdir .. => { reply := {} }
  | .rmdir _ => { reply := {} }
  | .fetch path =>
    match D.item (getServerPath path root_path) with
    | some (.file _ f) => { reply := {
        error := 0
        buf := f.bytes
        size := Int32.ofInt f.bytes.length
        time := timeOf D (getServerPath path root_path) } }
    | _ => { reply := {} }
  | .ls path =>
    match D.readdir (getServerPath path root_path) with
    | .ok names => { reply := (order names).map fun name => { error := 0, name := name } }
    | .error _ => { reply := [] }

/-- What a catalog answers to a request, and what becomes of it. -/
def Request.answer (root_path : Path) (order : List Path → List Path) (now : Timespec) (C : Catalog)
    (r : Request) : Response r.Reply × Catalog :=
  match r.effect root_path now r.content C with
  | .error e => (r.refusal e, C)
  | .ok D => (r.report root_path order D, D)

/-- The error number in a reply. -/
def Request.error : (r : Request) → r.Reply → Int32
  | .create _, m => m.ack
  | .store _, m => m.error
  | .getattr _, m => m.err
  | .unlink _, m => m.error
  | .chmod .., m => m.error
  | .mkdir .., m => m.error
  | .rmdir _, m => m.error
  | .fetch _, m => m.error
  | .ls _, m => (m.head?.map (·.error)).getD 0

/-- The reply says that the request was carried out. -/
def Request.Accepts (r : Request) (m : Response r.Reply) : Prop := m.ok = true ∧ r.error m.reply = 0

instance (r : Request) (m : Response r.Reply) : Decidable (r.Accepts m) :=
  inferInstanceAs (Decidable (_ ∧ _))

/-- The reply to a request that cannot be carried out reports success only if the error number is lost. -/
theorem Request.accepts_refusal {r : Request} {e : Int} (h : r.Accepts (r.refusal e)) :
    Int32.ofInt e = 0 := by
  cases r with
  | fetch path | ls path => exact absurd (show (-1 : Int32) = 0 from h.2) (by decide)
  | _ => exact h.2

section Answer

variable {root_path : Path} {order : List Path → List Path} {now : Timespec} {C D : Catalog} {r : Request}

theorem Request.answer_of_error {e : Int} (h : r.effect root_path now r.content C = .error e) :
    r.answer root_path order now C = (r.refusal e, C) := by
  simp only [answer, h]

theorem Request.answer_of_ok (h : r.effect root_path now r.content C = .ok D) :
    r.answer root_path order now C = (r.report root_path order D, D) := by
  simp only [answer, h]

end Answer

namespace Server

variable {α : Type} {c : Sys} {v : Proc} {f : c.Res → Prog procSig α} {Q : α → Proc → Prop}
  {junk : Junk} {root_path : Path}

/-- A call under any fault, of which a real one leaves a real error number. -/
private theorem yields_any
    (hfail : ∀ e l, ((∀ x ∈ v.faults, x.Real) → 0 < e ∧ e < 2 ^ 31) →
      Prog.Yields ProcCmd.exec (f c.failed) ⟨v.fs, e, l⟩ Q)
    (hok : ∀ limit r t l, c.perform limit v.fs = .ok (r, t) →
      Prog.Yields ProcCmd.exec (f r) ⟨t, v.errno, l⟩ Q) :
    Prog.Yields ProcCmd.exec (sys c >>= f) v Q := by
  cases hout : (v.faults.headD .ok).outcome c v.fs with
  | ok x =>
      have he : ProcCmd.exec (.sys c) v = (x.1, ⟨x.2, v.errno, v.faults.tail⟩) := by
        change c.exec v = _
        rw [c.exec_eq, hout]
        rfl
      refine Prog.Yields.call he ?_
      unfold Fault.outcome at hout
      split at hout
      · cases hout
      · exact hok _ _ _ _ hout
  | error e =>
      have he : ProcCmd.exec (.sys c) v = (c.failed, ⟨v.fs, e, v.faults.tail⟩) := by
        change c.exec v = _
        rw [c.exec_eq, hout]
        rfl
      exact Prog.Yields.call he (hfail e _ fun hreal => Fault.outcome_errno (real_headD hreal) hout)

/-- A call that only looks. -/
private theorem yields_reads (hc : c.ReadsOnly)
    (h : ∀ r u, u.fs.catalog = v.fs.catalog → Prog.Yields ProcCmd.exec (f r) u Q) :
    Prog.Yields ProcCmd.exec (sys c >>= f) v Q :=
  Prog.Yields.next (h _ _ (c.exec_catalog hc v))

/-- A real error number is one in the reply as well. -/
private theorem ofInt_ne_zero {e : Int} (hpos : 0 < e) (hlt : e < 2 ^ 31) : Int32.ofInt e ≠ 0 := by
  intro h
  have he := congrArg Int32.toInt h
  rw [Int32.toInt_ofInt_of_le (by omega) hlt] at he
  exact absurd he (by simpa using hpos.ne')

/-- What any run of a handler leaves and replies: nothing happened, and the reply says so if the faults are
real, or the request was carried out. -/
def Outcome (root_path : Path) (junk : Junk) (v : Proc) (r : Request) (m : Response r.Reply) (t : Proc) :
    Prop :=
  (t.fs.catalog = v.fs.catalog ∧ ((∀ x ∈ v.faults, x.Real) → ¬ r.Accepts m)) ∨
    (r.Accepts m ∧ ∃ d, d <+: r.payload junk ∧
      r.effect root_path v.fs.clock d v.fs.catalog = .ok t.fs.catalog)

/-- What a handler without faults leaves and replies is what the catalog answers. -/
def Answers (root_path : Path) (junk : Junk) (v : Proc) (r : Request) (m : Response r.Reply) (t : Proc) :
    Prop :=
  (m, t.fs.catalog) = r.answer root_path junk.order v.fs.clock v.fs.catalog

variable {r : Request} {m : Response r.Reply} {t : Proc}

/-- A reply with the error number of a call that failed. -/
private theorem Outcome.refused {e : Int} (he : (∀ x ∈ v.faults, x.Real) → 0 < e ∧ e < 2 ^ 31)
    (hm : m = r.refusal e) (ht : t.fs = v.fs) : Outcome root_path junk v r m t :=
  Or.inl ⟨congrArg Fs.catalog ht, fun hreal hacc =>
    ofInt_ne_zero (he hreal).1 (he hreal).2 (Request.accepts_refusal (hm ▸ hacc))⟩

/-- A reply with another error. -/
private theorem Outcome.unable (hm : ¬ r.Accepts m) (ht : t.fs.catalog = v.fs.catalog) :
    Outcome root_path junk v r m t :=
  Or.inl ⟨ht, fun _ => hm⟩

/-- The end of a handler that has carried out a request other than a store. -/
private theorem Outcome.done (hacc : r.Accepts m)
    (h : r.effect root_path v.fs.clock [] v.fs.catalog = .ok t.fs.catalog) : Outcome root_path junk v r m t :=
  Or.inr ⟨hacc, [], List.nil_prefix, h⟩

/-- A request that cannot be carried out. -/
private theorem Answers.error {e : Int}
    (h : r.effect root_path v.fs.clock r.content v.fs.catalog = .error e) (hm : m = r.refusal e)
    (ht : t.fs = v.fs) : Answers root_path junk v r m t := by
  unfold Answers
  rw [Request.answer_of_error h, hm, ht]

/-- A request that was carried out. -/
private theorem Answers.ok {D : Catalog}
    (h : r.effect root_path v.fs.clock r.content v.fs.catalog = .ok D)
    (hm : m = r.report root_path junk.order D) (ht : t.fs.catalog = D) :
    Answers root_path junk v r m t := by
  unfold Answers
  rw [Request.answer_of_ok h, hm, ht]

/-- A handler that makes one call on the path, and asks for the error number where it fails. -/
private def ByName (junk : Junk) (root_path : Path) (s : Fs) (r : Request) : Prop :=
  ∃ (c : Sys) (f : c.Res → Prog procSig (Response r.Reply)), handle junk root_path r = sys c >>= f ∧
    (f c.failed = Server.errno >>= fun e => pure (r.refusal e)) ∧
    (∀ limit x t, c.perform limit s = .ok (x, t) →
      (∀ d, r.effect root_path s.clock d s.catalog = .ok t.catalog) ∧
      ∃ m, f x = pure m ∧ r.Accepts m ∧ m = r.report root_path junk.order t.catalog) ∧
    ∀ e, c.perform none s = .error e → ∀ d, r.effect root_path s.clock d s.catalog = .error e

private theorem ByName.outcome (h : ByName junk root_path v.fs r) :
    Prog.Yields ProcCmd.exec (handle junk root_path r) v (Outcome root_path junk v r) := by
  obtain ⟨c, f, hprog, hfailed, hdone, -⟩ := h
  rw [hprog]
  refine yields_any (fun e l he => ?_) fun limit x t l hp => ?_
  · rw [hfailed]
    exact Prog.Yields.call rfl (Prog.Yields.ret (.refused he rfl rfl))
  · obtain ⟨heff, m, hm, hacc, -⟩ := hdone limit x t hp
    rw [hm]
    exact Prog.Yields.ret (.done hacc (heff []))

private theorem ByName.answers (h : ByName junk root_path v.fs r) (hf : v.faults = []) :
    Prog.Yields ProcCmd.exec (handle junk root_path r) v (Answers root_path junk v r) := by
  obtain ⟨c, f, hprog, hfailed, hdone, herror⟩ := h
  rw [hprog]
  cases hp : c.perform none v.fs with
  | error e =>
      refine ProcCmd.yields_sys_error hf hp ?_
      rw [hfailed]
      exact Prog.Yields.call rfl (Prog.Yields.ret (.error (herror e hp _) rfl rfl))
  | ok x =>
      obtain ⟨heff, m, hm, -, hreport⟩ := hdone none x.1 x.2 hp
      refine ProcCmd.yields_sys hf hp ?_
      rw [hm]
      exact Prog.Yields.ret (.ok (heff _) hreport rfl)

/-- A call that returned zero has not failed. -/
private theorem ne_neg_one_of_eq_zero {x : Int} (h : x = 0) : x ≠ -1 := by omega

private theorem byName_unlink (path : Path) (s : Fs) : ByName junk root_path s (.unlink path) := by
  have hcatalog := Fs.catalog_unlink s (getServerPath path root_path)
  refine ⟨_, _, rfl, if_pos rfl, fun limit x t h => ?_, fun e h d => ?_⟩
  · have h' : s.unlink (getServerPath path root_path) = .ok (x, t) := h
    rw [h'] at hcatalog
    have hzero : x = 0 := by
      unfold Fs.unlink at h'
      split at h'
      · exact (Prod.mk.inj (Except.ok.inj h')).1.symm
      · cases h'
      · cases h'
    exact ⟨fun d => hcatalog.symm, _, if_neg (ne_neg_one_of_eq_zero hzero), ⟨rfl, rfl⟩, rfl⟩
  · have h' : s.unlink (getServerPath path root_path) = .error e := h
    rw [h'] at hcatalog
    exact hcatalog.symm

private theorem byName_rmdir (path : Path) (s : Fs) : ByName junk root_path s (.rmdir path) := by
  have hcatalog := Fs.catalog_rmdir s (getServerPath path root_path)
  refine ⟨_, _, rfl, if_pos rfl, fun limit x t h => ?_, fun e h d => ?_⟩
  · have h' : s.rmdir (getServerPath path root_path) = .ok (x, t) := h
    rw [h'] at hcatalog
    have hzero : x = 0 := by
      unfold Fs.rmdir at h'
      split at h'
      · split at h'
        · cases h'
        · exact (Prod.mk.inj (Except.ok.inj h')).1.symm
      · cases h'
      · cases h'
    exact ⟨fun d => hcatalog.symm, _, if_neg (ne_neg_one_of_eq_zero hzero), ⟨rfl, rfl⟩, rfl⟩
  · have h' : s.rmdir (getServerPath path root_path) = .error e := h
    rw [h'] at hcatalog
    exact hcatalog.symm

private theorem byName_mkdir (path : Path) (mode : UInt32) (s : Fs) :
    ByName junk root_path s (.mkdir path mode) := by
  have hcatalog := Fs.catalog_mkdir s (getServerPath path root_path) mode.toNat
  refine ⟨_, _, rfl, if_pos rfl, fun limit x t h => ?_, fun e h d => ?_⟩
  · have h' : s.mkdir (getServerPath path root_path) mode.toNat = .ok (x, t) := h
    rw [h'] at hcatalog
    exact ⟨fun d => hcatalog.symm, _, if_neg (ne_neg_one_of_eq_zero (Fs.mkdir_ok h').1), ⟨rfl, rfl⟩, rfl⟩
  · have h' : s.mkdir (getServerPath path root_path) mode.toNat = .error e := h
    rw [h'] at hcatalog
    exact hcatalog.symm

private theorem byName_chmod (path : Path) (mode : UInt32) (s : Fs) :
    ByName junk root_path s (.chmod path mode) := by
  have hcatalog := Fs.catalog_chmod s (getServerPath path root_path) mode.toNat
  refine ⟨_, _, rfl, if_pos rfl, fun limit x t h => ?_, fun e h d => ?_⟩
  · have h' : s.chattr (getServerPath path root_path)
        (fun a => { a with mode := a.mode / 4096 * 4096 + mode.toNat % 4096 }) = .ok (x, t) := h
    rw [h'] at hcatalog
    exact ⟨fun d => hcatalog.symm, _, if_neg (ne_neg_one_of_eq_zero (Fs.chattr_ok h').1), ⟨rfl, rfl⟩, rfl⟩
  · have h' : s.chattr (getServerPath path root_path)
        (fun a => { a with mode := a.mode / 4096 * 4096 + mode.toNat % 4096 }) = .error e := h
    rw [h'] at hcatalog
    exact hcatalog.symm

private theorem afsCreate_outcome (path : Path) :
    Prog.Yields ProcCmd.exec (handle junk root_path (.create path)) v
      (Outcome root_path junk v (.create path)) := by
  simp only [handle, afsCreate]
  refine yields_any (fun e l he => ?_) fun limit (fd : Int) t l hp => ?_
  · simp only [Sys.failed, if_true]
    exact Prog.Yields.call rfl (Prog.Yields.ret (.refused he rfl rfl))
  · have ho : v.fs.openFile (getServerPath path root_path) { creat := true } S_IRWXUG = .ok (fd, t) := hp
    have h0 := Fs.openFile_fd ho
    have hfd : fd ≠ -1 := by omega
    simp only [hfd, if_false]
    refine yields_reads trivial fun res u hu => yields_reads trivial fun _ w hw =>
      Prog.Yields.ret (.done ⟨rfl, rfl⟩ ?_)
    rw [hw, hu]
    exact (Fs.catalog_openFile ..).symm.trans (by rw [ho]; rfl)

private theorem afsStore_outcome (r : StoreReq) :
    Prog.Yields ProcCmd.exec (handle junk root_path (.store r)) v
      (Outcome root_path junk v (.store r)) := by
  simp only [handle, afsStore]
  refine yields_any (fun e l he => ?_) fun limit (fd : Int) t l hp => ?_
  · simp only [Sys.failed, if_true]
    exact Prog.Yields.call rfl (Prog.Yields.ret (.refused he rfl rfl))
  · have ho : v.fs.openFile (getServerPath r.path root_path) { creat := true, trunc := true } S_IRWXUG =
        .ok (fd, t) := hp
    have h0 := Fs.openFile_fd ho
    have hfd : fd ≠ -1 := by omega
    obtain ⟨hh, hclock, hempty⟩ := Fs.openFile_holds ho
    have hopened : v.fs.catalog.opened v.fs.clock (getServerPath r.path root_path)
        { creat := true, trunc := true } S_IRWXUG = .ok t.catalog :=
      (Fs.catalog_openFile ..).symm.trans (by rw [ho]; rfl)
    simp only [hfd, if_false]
    refine Prog.Yields.next (yields_reads trivial fun res u hu => yields_reads trivial fun _ w hw =>
      Prog.Yields.ret (Or.inr ⟨⟨rfl, rfl⟩, ?_⟩))
    simp only [Request.effect, hopened, hw, hu]
    rcases (Sys.write fd (r.buf ++ junk.beyond) (sizeT r.size.toInt)).exec_cases ⟨t, v.errno, l⟩ with
      ⟨-, hs⟩ | ⟨limit', hp'⟩
    · refine ⟨[], List.nil_prefix, congrArg Except.ok ?_⟩
      change Catalog.fill _ _ _ _ = (Sys.exec _ _).2.fs.catalog
      rw [hs]
      exact Catalog.fill_nil ..
    · simp only [Sys.perform] at hp'
      split at hp'
      · cases hp'
      · refine ⟨limited limit' ((r.buf ++ junk.beyond).take (sizeT r.size.toInt)), ?_,
          congrArg Except.ok ?_⟩
        · cases limit' with
          | none => exact List.prefix_rfl
          | some k => exact List.take_prefix k _
        · exact ((Fs.catalog_write hh (hempty rfl) hp').trans (by rw [hclock])).symm

private theorem afsGetattr_outcome (path : Path) :
    Prog.Yields ProcCmd.exec (handle junk root_path (.getattr path)) v
      (Outcome root_path junk v (.getattr path)) := by
  simp only [handle, afsGetattr]
  refine yields_any (fun e l he => ?_) fun limit res t l hp => ?_
  · exact Prog.Yields.call rfl (Prog.Yields.ret (.refused he rfl rfl))
  · obtain ⟨st, hst, he⟩ := map_eq_ok.mp hp
    obtain ⟨rfl, rfl⟩ := Prod.mk.inj he
    refine Prog.Yields.ret (.done ⟨rfl, rfl⟩ ?_)
    rw [Request.effect, ← Fs.catalog_lstat, hst]
    rfl

private theorem afsFetch_outcome (path : Path) :
    Prog.Yields ProcCmd.exec (handle junk root_path (.fetch path)) v
      (Outcome root_path junk v (.fetch path)) := by
  simp only [handle, afsFetch]
  refine yields_any (fun e l he => ?_) fun limit (fd : Int) t l hp => ?_
  · simp only [Sys.failed, if_true]
    exact Prog.Yields.ret (.refused he rfl rfl)
  · have ho : v.fs.openFile (getServerPath path root_path) {} 0 = .ok (fd, t) := hp
    have h0 := Fs.openFile_fd ho
    have hfd : fd ≠ -1 := by omega
    have hopened : v.fs.catalog.opened v.fs.clock (getServerPath path root_path) {} 0 = .ok t.catalog :=
      (Fs.catalog_openFile ..).symm.trans (by rw [ho]; rfl)
    have hsame : t.catalog = v.fs.catalog :=
      Request.effect_looks (r := .fetch path) (d := []) hopened trivial
    simp only [hfd, if_false]
    refine yields_reads trivial fun info u₁ h₁ => yields_reads trivial fun _ u₂ h₂ =>
      yields_reads trivial fun got u₃ h₃ => yields_reads trivial fun stats u₄ h₄ =>
        yields_reads trivial fun _ u₅ h₅ => ?_
    have hlast : u₅.fs.catalog = t.catalog := by rw [h₅, h₄, h₃, h₂, h₁]
    split
    · exact Prog.Yields.ret (.unable (fun hacc => Bool.false_ne_true hacc.1) (hlast.trans hsame))
    · refine Prog.Yields.ret (.done ⟨rfl, rfl⟩ ?_)
      rw [hlast]
      exact hopened

private theorem afsLs_outcome (path : Path) :
    Prog.Yields ProcCmd.exec (handle junk root_path (.ls path)) v
      (Outcome root_path junk v (.ls path)) := by
  simp only [handle, afsLs]
  refine yields_any (fun e l he => ?_) fun limit dp t l hp => ?_
  · exact Prog.Yields.ret (.refused he rfl rfl)
  · obtain ⟨names, hnames, he⟩ := map_eq_ok.mp hp
    obtain ⟨rfl, rfl⟩ := Prod.mk.inj he
    have heff : (Request.ls path).effect root_path v.fs.clock [] v.fs.catalog = .ok v.fs.catalog := by
      rw [Request.effect, ← Fs.catalog_readdir, hnames]
      rfl
    rw [Option.map_some]
    cases junk.order names with
    | nil =>
        exact Prog.Yields.ret (.unable (fun h => absurd (show (-1 : Int32) = 0 from h.2) (by decide)) rfl)
    | cons n ns => exact Prog.Yields.ret (.done ⟨rfl, rfl⟩ heff)

/-- Whatever faults the calls of a handler meet, it has done nothing, and replies with an error if the
faults are real, or it has carried out its request and replies without one. -/
theorem handle_outcome (r : Request) :
    Prog.Yields ProcCmd.exec (handle junk root_path r) v (Outcome root_path junk v r) := by
  cases r with
  | create path => exact afsCreate_outcome path
  | store r => exact afsStore_outcome r
  | getattr path => exact afsGetattr_outcome path
  | unlink path => exact (byName_unlink path v.fs).outcome
  | chmod path mode => exact (byName_chmod path mode v.fs).outcome
  | mkdir path mode => exact (byName_mkdir path mode v.fs).outcome
  | rmdir path => exact (byName_rmdir path v.fs).outcome
  | fetch path => exact afsFetch_outcome path
  | ls path => exact afsLs_outcome path

/-- The name of a file gives the attributes of the file. -/
private theorem lstat_of_tree {s : Fs} {p : Path} {i : Nat} (h : s.tree p = some (.file i)) :
    s.lstat p = .ok ((s.node i).stat i) ∧
      (Sys.lstat p).perform none s = .ok (some ((s.node i).stat i), s) := by
  have hst : s.lstat p = .ok ((s.node i).stat i) := by simp only [Fs.lstat, h]
  exact ⟨hst, by simp only [Sys.perform, hst]; rfl⟩

private theorem afsCreate_answers (path : Path) (hf : v.faults = []) :
    Prog.Yields ProcCmd.exec (handle junk root_path (.create path)) v
      (Answers root_path junk v (.create path)) := by
  simp only [handle, afsCreate]
  have heff := Fs.catalog_openFile v.fs (getServerPath path root_path) { creat := true } S_IRWXUG
  cases ho : v.fs.openFile (getServerPath path root_path) { creat := true } S_IRWXUG with
  | error e =>
      rw [ho] at heff
      refine ProcCmd.yields_sys_error hf ho ?_
      simp only [Sys.failed, if_true]
      exact Prog.Yields.call rfl (Prog.Yields.ret (.error heff.symm rfl rfl))
  | ok x =>
      obtain ⟨fd, t⟩ := x
      rw [ho] at heff
      have h0 := Fs.openFile_fd ho
      have hfd : fd ≠ -1 := by omega
      obtain ⟨⟨i, -, hi⟩, -, -⟩ := Fs.openFile_holds ho
      obtain ⟨hst, hlstat⟩ := lstat_of_tree hi
      refine ProcCmd.yields_sys hf ho ?_
      simp only [hfd, if_false]
      refine ProcCmd.yields_sys hf hlstat ?_
      refine yields_reads trivial fun _ u hu => Prog.Yields.ret (.ok heff.symm ?_ hu)
      simp only [Request.report, timeOf, ← Fs.catalog_lstat, hst, Option.getD_some]

private theorem afsStore_answers (r : StoreReq) (hf : v.faults = []) (hr : (Request.store r).Tells) :
    Prog.Yields ProcCmd.exec (handle junk root_path (.store r)) v
      (Answers root_path junk v (.store r)) := by
  simp only [handle, afsStore]
  have heff := Fs.catalog_openFile v.fs (getServerPath r.path root_path)
    { creat := true, trunc := true } S_IRWXUG
  cases ho : v.fs.openFile (getServerPath r.path root_path) { creat := true, trunc := true } S_IRWXUG with
  | error e =>
      rw [ho] at heff
      have hrefused : (Request.store r).effect root_path v.fs.clock r.buf v.fs.catalog = .error e := by
        simp only [Request.effect, ← heff]
        rfl
      refine ProcCmd.yields_sys_error hf ho ?_
      simp only [Sys.failed, if_true]
      exact Prog.Yields.call rfl (Prog.Yields.ret (.error hrefused rfl rfl))
  | ok x =>
      obtain ⟨fd, t⟩ := x
      rw [ho] at heff
      have h0 := Fs.openFile_fd ho
      have hfd : fd ≠ -1 := by omega
      obtain ⟨hh, hclock, hempty⟩ := Fs.openFile_holds ho
      obtain ⟨f, hl⟩ := Fs.look_of_holds hh
      have hcount : sizeT r.size.toInt = r.buf.length := by
        have hlt := r.size.toInt_lt
        rw [show r.size.toInt = r.buf.length from hr] at hlt ⊢
        exact sizeT_natCast (by omega)
      obtain ⟨u, g, hw, -, -, -, -, i, -, hi⟩ := Fs.write_of_empty hh hl (hempty rfl f hl) r.buf
      obtain ⟨hst, hlstat⟩ := lstat_of_tree hi
      have hdone : (Request.store r).effect root_path v.fs.clock r.buf v.fs.catalog = .ok u.catalog := by
        rw [Fs.catalog_write hh (hempty rfl) hw, hclock]
        simp only [Request.effect, ← heff]
        rfl
      refine ProcCmd.yields_sys hf ho ?_
      simp only [hfd, if_false]
      refine ProcCmd.yields_sys hf (perform_write hcount (List.prefix_append _ _) hw) ?_
      refine ProcCmd.yields_sys hf hlstat ?_
      refine yields_reads trivial fun _ w hwc => Prog.Yields.ret (.ok hdone ?_ hwc)
      simp only [Request.report, timeOf, ← Fs.catalog_lstat, hst, Option.getD_some]

private theorem afsGetattr_answers (path : Path) (hf : v.faults = []) :
    Prog.Yields ProcCmd.exec (handle junk root_path (.getattr path)) v
      (Answers root_path junk v (.getattr path)) := by
  simp only [handle, afsGetattr]
  have heff := Fs.catalog_lstat v.fs (getServerPath path root_path)
  cases hst : v.fs.lstat (getServerPath path root_path) with
  | error e =>
      rw [hst] at heff
      have hrefused : (Request.getattr path).effect root_path v.fs.clock [] v.fs.catalog = .error e := by
        simp only [Request.effect, ← heff]
        rfl
      refine ProcCmd.yields_sys_error (e := e) hf (by simp only [Sys.perform, hst]; rfl) ?_
      exact Prog.Yields.call rfl (Prog.Yields.ret (.error hrefused rfl rfl))
  | ok st =>
      rw [hst] at heff
      have hdone : (Request.getattr path).effect root_path v.fs.clock [] v.fs.catalog =
          .ok v.fs.catalog := by
        simp only [Request.effect, ← heff]
        rfl
      refine ProcCmd.yields_sys (r := some st) (t := v.fs) hf (by simp only [Sys.perform, hst]; rfl) ?_
      refine Prog.Yields.ret (.ok hdone ?_ rfl)
      simp only [Request.report, ← heff]
      rfl

private theorem afsFetch_answers (path : Path) (hf : v.faults = []) :
    Prog.Yields ProcCmd.exec (handle junk root_path (.fetch path)) v
      (Answers root_path junk v (.fetch path)) := by
  simp only [handle, afsFetch]
  have heff := Fs.catalog_openFile v.fs (getServerPath path root_path) {} 0
  cases ho : v.fs.openFile (getServerPath path root_path) {} 0 with
  | error e =>
      rw [ho] at heff
      refine ProcCmd.yields_sys_error hf ho ?_
      simp only [Sys.failed, if_true]
      exact Prog.Yields.ret (.error heff.symm rfl rfl)
  | ok x =>
      obtain ⟨fd, t⟩ := x
      rw [ho] at heff
      have h0 := Fs.openFile_fd ho
      have hfd : fd ≠ -1 := by omega
      obtain ⟨hh, -, -⟩ := Fs.openFile_holds ho
      obtain ⟨f, hl⟩ := Fs.look_of_holds hh
      obtain ⟨i, hst⟩ := Fs.fstat_of_holds hh hl
      obtain ⟨t₂, hsk, hs₂, -, hh₂⟩ := Fs.lseek_of_holds hh 0
      have hl₂ : t₂.look (getServerPath path root_path) = some f := by rw [hs₂.look, hl]
      obtain ⟨t₃, hrd, hs₃, -, hh₃⟩ := Fs.read_of_holds hh₂ hl₂ f.bytes.length
      have hl₃ : t₃.look (getServerPath path root_path) = some f := by rw [hs₃.look, hl₂]
      obtain ⟨j, hst'⟩ := Fs.fstat_of_holds hh₃ hl₃
      have hread : (Sys.read fd f.bytes.length).perform none t₂ = .ok (some f.bytes, t₃) := by
        simp only [Sys.perform, Option.elim_none, hrd, slice_zero_length]
        rfl
      have hcatalog : t₃.catalog = t.catalog :=
        (Sys.perform_catalog (c := .read fd f.bytes.length) trivial hread).trans
          (@Sys.perform_catalog (.lseek fd 0) trivial none _ _ _ hsk)
      refine ProcCmd.yields_sys hf ho ?_
      simp only [hfd, if_false]
      refine ProcCmd.yields_sys (r := some (f.stat i)) (t := t) hf
        (by simp only [Sys.perform, hst]; rfl) ?_
      refine ProcCmd.yields_sys hf hsk ?_
      simp only [Option.getD_some, File.stat_size, Int.toNat_natCast]
      refine ProcCmd.yields_sys hf hread ?_
      refine ProcCmd.yields_sys (r := some (f.stat j)) (t := t₃) hf
        (by simp only [Sys.perform, hst']; rfl) ?_
      refine yields_reads trivial fun _ u hu => ?_
      have hneg : ¬ ((f.bytes.length : Int) < 0) := by omega
      simp only [hneg, if_false]
      refine Prog.Yields.ret (.ok heff.symm ?_ (hu.trans hcatalog))
      obtain ⟨k, hk, rfl⟩ := Fs.look_eq_some.mp hl
      simp only [Request.report, Fs.catalog_item_file hk, timeOf, Catalog.stat, Option.getD_some,
        File.stat_mtim, fill_of_length (junk.length_heap _)]

private theorem afsLs_answers (path : Path) (hf : v.faults = []) :
    Prog.Yields ProcCmd.exec (handle junk root_path (.ls path)) v
      (Answers root_path junk v (.ls path)) := by
  simp only [handle, afsLs]
  have heff := Fs.catalog_readdir v.fs (getServerPath path root_path)
  cases hl : v.fs.readdir (getServerPath path root_path) with
  | error e =>
      rw [hl] at heff
      have hrefused : (Request.ls path).effect root_path v.fs.clock [] v.fs.catalog = .error e := by
        simp only [Request.effect, ← heff]
        rfl
      refine ProcCmd.yields_sys_error (e := e) hf (by simp only [Sys.perform, hl]; rfl) ?_
      exact Prog.Yields.ret (.error hrefused rfl rfl)
  | ok names =>
      rw [hl] at heff
      have hdone : (Request.ls path).effect root_path v.fs.clock [] v.fs.catalog = .ok v.fs.catalog := by
        simp only [Request.effect, ← heff]
        rfl
      refine ProcCmd.yields_sys (r := some names) (t := v.fs) hf (by simp only [Sys.perform, hl]; rfl) ?_
      have hentries : names ≠ [] := by
        unfold Fs.readdir at hl
        split at hl
        · rw [← Except.ok.inj hl]
          exact List.cons_ne_nil _ _
        · cases hl
      rw [Option.map_some]
      cases ho : junk.order names with
      | nil => exact absurd (List.perm_nil.mp (ho ▸ (junk.order_perm names).symm)) hentries
      | cons n ns =>
          refine Prog.Yields.ret (.ok hdone ?_ rfl)
          simp only [Request.report, ← heff, ho]

/-- Without faults a handler does and replies what the catalog answers. -/
theorem handle_answer (r : Request) (hf : v.faults = []) (hr : r.Tells) :
    Prog.Yields ProcCmd.exec (handle junk root_path r) v fun m t =>
      (m, t.fs.catalog) = r.answer root_path junk.order v.fs.clock v.fs.catalog := by
  cases r with
  | create path => exact afsCreate_answers path hf
  | store r => exact afsStore_answers r hf hr
  | getattr path => exact afsGetattr_answers path hf
  | unlink path => exact (byName_unlink path v.fs).answers hf
  | chmod path mode => exact (byName_chmod path mode v.fs).answers hf
  | mkdir path mode => exact (byName_mkdir path mode v.fs).answers hf
  | rmdir path => exact (byName_rmdir path v.fs).answers hf
  | fetch path => exact afsFetch_answers path hf
  | ls path => exact afsLs_answers path hf

end Server

/-- A request as it reaches the server: when, and how its handler runs. -/
structure Arrival where
  request : Request
  now : Timespec
  handling : Handling

/-- The server and what it replied so far. -/
structure Desk where
  proc : Proc
  replies : List ((a : Arrival) × Response a.request.Reply)

/-- One request served. -/
def Desk.step (root_path : Path) (d : Desk) (a : Arrival) : Option Desk :=
  let out := (Env.mk root_path a.handling.junk).serve a.request a.handling
    { d.proc with fs := { d.proc.fs with clock := a.now } }
  out.1.map fun m => ⟨out.2, d.replies ++ [⟨a, m⟩]⟩

/-- The catalog and what it answered so far, after one more request. -/
def Arrival.next (root_path : Path)
    (x : Catalog × List ((a : Arrival) × Response a.request.Reply)) (a : Arrival) :
    Catalog × List ((a : Arrival) × Response a.request.Reply) :=
  let answer := a.request.answer root_path a.handling.junk.order a.now x.1
  (answer.2, x.2 ++ [⟨a, answer.1⟩])

namespace Desk

variable {root_path : Path} {s : Proc} {as : List Arrival} {a : Arrival} {d d' : Desk}

end Desk

end Afs
