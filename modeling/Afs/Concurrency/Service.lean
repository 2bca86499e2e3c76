import Afs.Core.Holders
import Afs.Core.Parallel
import Afs.Isolation.Root

/-!
# The whole service at work

Any number of requests of any kind, for any paths, are handled at the same time, and any call of a
handler may fail or move only a part of its bytes. Every handler works on the one path of its request
and closes what it opens, so it leaves other names and other descriptors alone, and what a file holds
at any moment was there before or came from a store of that name.
-/

namespace Afs

open Posix Interaction Transition

/-- Requests in the hands of the service. -/
structure Service (ι : Type) where
  /-- The requests. -/
  request : ι → Request
  /-- Unset variables of each handler. -/
  junk : ι → Junk
  /-- `root_path` of the server. -/
  root_path : Path

/-- What the surroundings give to one call of a handler: the time, and a fault. -/
structure Tick where
  now : Timespec
  fault : Fault

/-- The server before that call. -/
def Tick.set (e : Tick) (s : Proc) : Proc := { s with fs := { s.fs with clock := e.now }, faults := [e.fault] }

/-- A close does not fail. -/
def Tick.Closes : ProcCmd → Tick → Prop
  | .sys (.close _), e => ∀ err, e.fault ≠ .fail err
  | _, _ => True

/-- The call does not fail by itself. -/
def Tick.Fine (e : Tick) : Prop :=
  match e.fault with
  | .fail _ => False
  | _ => True

instance (e : Tick) : Decidable e.Fine :=
  match h : e.fault with
  | .fail _ => isFalse fun hf => by simp only [Tick.Fine, h] at hf
  | .ok | .short _ => isTrue (by simp only [Tick.Fine, h])

theorem Tick.Fine.closes {e : Tick} (h : e.Fine) (c : ProcCmd) : Tick.Closes c e := by
  unfold Tick.Closes
  split
  · intro err he
    simp only [Tick.Fine, he] at h
  · trivial

/-- The bytes that a request carries. -/
def Request.content : Request → Bytes
  | .store r => r.buf
  | _ => []

/-- The memory that a request lets the server write: as many bytes from the start of its buffer as the
size says. Where the size says more than the buffer has, they go on into what the server's memory has
behind it. -/
def Request.payload (junk : Junk) : Request → Bytes
  | .store r => (r.buf ++ junk.beyond).take (sizeT r.size.toInt)
  | _ => []

/-- A store tells the length of its buffer. -/
def Request.Tells : Request → Prop
  | .store r => r.size.toInt = r.buf.length
  | _ => True

instance : (r : Request) → Decidable r.Tells
  | .store r => inferInstanceAs (Decidable (r.size.toInt = r.buf.length))
  | .create _ | .getattr _ | .unlink _ | .chmod .. | .mkdir .. | .rmdir _ | .fetch _ | .ls _ => .isTrue trivial

/-- Then it is written as it is. -/
theorem Request.payload_of_tells {junk : Junk} {r : Request} (h : r.Tells) : r.payload junk = r.content := by
  cases r with
  | store q =>
      have htells : q.size.toInt = q.buf.length := h
      have hcount : sizeT q.size.toInt = q.buf.length := by
        have hlt := q.size.toInt_lt
        rw [htells] at hlt ⊢
        exact sizeT_natCast (by omega)
      simp only [payload, content, hcount, List.take_left]
  | _ => rfl

/-- Behind the buffer, the memory is not the request's own. -/
theorem Request.getElem?_payload {junk : Junk} {r : Request} {n : Nat} {c : UInt8}
    (h : (r.payload junk)[n]? = some c) :
    r.content[n]? = some c ∨ r.content.length ≤ n ∧ (r.payload junk)[n]? = some c := by
  by_cases hn : n < r.content.length
  · cases r with
    | store q =>
        refine Or.inl ?_
        simp only [payload, List.getElem?_take] at h
        split at h
        · exact (List.getElem?_append_left hn).symm.trans h
        · cases h
    | _ => exact absurd hn (Nat.not_lt_zero n)
  · exact Or.inr ⟨Nat.le_of_not_lt hn, h⟩

/-- A request with what its handler replied. -/
abbrev Answer := (r : Request) × Response r.Reply

namespace Service

variable {ι : Type} (V : Service ι)

/-- The name that a handler works on. -/
def path (i : ι) : Path := getServerPath (V.request i).path V.root_path

/-- The memory that a handler may write. -/
def payload (i : ι) : Bytes := (V.request i).payload (V.junk i)

/-- All handlers before their first call. -/
def start (s : Proc) : Pool procSig ι Proc Answer where
  prog i := Server.handle (V.junk i) V.root_path (V.request i) >>= fun m => .ret ⟨V.request i, m⟩
  state := s

/-- One call of one handler. -/
def step [DecidableEq ι] (P : Pool procSig ι Proc Answer) :
    ι × Tick → Option (Pool procSig ι Proc Answer) :=
  P.step ProcCmd.exec Tick.set

end Service

namespace Server

variable {α : Type} {strict : Prop} {p : Path} {src : Bytes} {g : Option Hold} {fd : Int} {n : Nat}

/-- A handler on `p` that writes only prefixes of `src`: its calls are as `Fs.Moves` says. At its end it
holds no descriptor, if closing never fails. -/
def Tidy (strict : Prop) (p : Path) (src : Bytes) : Prog procSig α → Option Hold → Prop :=
  Prog.Abides ProcCmd.exec Tick.set (fun c e => strict → Tick.Closes c e)
    (fun g s => ∀ h ∈ g, s.fs.Grips p h) (fun g s g' t => s.fs.Moves p src t.fs g g')
    fun _ g => strict → g = none

namespace Tidy

theorem ret {a : α} (h : strict → g = none) : Tidy strict p src (Prog.ret a : Prog procSig α) g := h

/-- The rule for one system call: it fails and leaves the files, or it succeeds. -/
theorem call {c : Sys} {f : c.Res → Prog procSig α} (hfail : Tidy strict p src (f c.failed) g)
    (hok : ∀ (s t : Fs) limit r, (∀ h ∈ g, s.Grips p h) → c.perform limit s = .ok (r, t) →
      ∃ g', s.Moves p src t g g' ∧ Tidy strict p src (f r) g') :
    Tidy strict p src (sys c >>= f) g := by
  refine Prog.Abides.call fun s e _ hs => ?_
  have hgrip : ∀ h ∈ g, ({ s.fs with clock := e.now } : Fs).Grips p h := hs
  rcases c.exec_cases (e.set s) with ⟨hr, ht⟩ | ⟨limit, hp⟩
  · refine ⟨g, ?_, ?_⟩
    · change s.fs.Moves p src (c.exec (e.set s)).2.fs g g
      rw [ht]
      exact (Fs.Moves.still hgrip).clock
    · change Tidy strict p src (f (c.exec (e.set s)).1) g
      rw [hr]
      exact hfail
  · obtain ⟨g', hm, hk⟩ := hok _ _ limit _ hgrip hp
    exact ⟨g', hm.clock, hk⟩

theorem errno {f : Int → Prog procSig α} (h : ∀ e, Tidy strict p src (f e) g) :
    Tidy strict p src (Server.errno >>= f) g := by
  refine Prog.Abides.call fun s e _ hs => ⟨g, ?_, h _⟩
  exact (Fs.Moves.still (s := { s.fs with clock := e.now }) hs).clock

/-- A call that only looks. -/
theorem look {c : Sys} {f : c.Res → Prog procSig α}
    (hc : ∀ limit (s t : Fs) r, c.perform limit s = .ok (r, t) → t = s)
    (h : ∀ r, Tidy strict p src (f r) g) : Tidy strict p src (sys c >>= f) g := by
  refine call (h _) fun s t limit r hs hp => ⟨g, ?_, h r⟩
  obtain rfl := hc limit s t r hp
  exact .still hs

theorem openF {f : Int → Prog procSig α} {fl : Flags} {mode : Nat} (happ : fl.append = false)
    (hfail : Tidy strict p src (f (-1)) none)
    (h : ∀ fd, 0 ≤ fd → Tidy strict p src (f fd) (some ⟨fd, 0⟩)) :
    Tidy strict p src (sys (.openF p fl mode) >>= f) none := by
  refine call hfail fun s t _ fd _ hp => ?_
  obtain ⟨h0, hm⟩ := Fs.Moves.openFile happ hp
  exact ⟨_, hm, h fd h0⟩

theorem read {f : Option Bytes → Prog procSig α} {k : Nat}
    (h : ∀ r m, Tidy strict p src (f r) (some ⟨fd, m⟩)) :
    Tidy strict p src (sys (.read fd k) >>= f) (some ⟨fd, n⟩) := by
  refine call (h _ _) fun s t limit r hs hp => ?_
  obtain ⟨x, hx, he⟩ := map_eq_ok.mp hp
  obtain ⟨m, hm⟩ := Fs.Moves.read (hs ⟨fd, n⟩ rfl) hx
  obtain ⟨-, rfl⟩ := Prod.mk.inj he
  exact ⟨_, hm, h r m⟩

theorem lseek {f : Int → Prog procSig α} {k : Nat} (h : ∀ r m, Tidy strict p src (f r) (some ⟨fd, m⟩)) :
    Tidy strict p src (sys (.lseek fd k) >>= f) (some ⟨fd, n⟩) :=
  call (h _ _) fun _ _ _ r hs hp => ⟨_, .lseek (hs ⟨fd, n⟩ rfl) hp, h r k⟩

/-- A write at the start of the file. -/
theorem write {f : Int → Prog procSig α} {mem : Bytes} {k : Nat} (hmem : mem.take k <+: src)
    (h : ∀ r m, Tidy strict p src (f r) (some ⟨fd, m⟩)) :
    Tidy strict p src (sys (.write fd mem k) >>= f) (some ⟨fd, 0⟩) := by
  refine call (h _ _) fun s t limit r hs hp => ?_
  simp only [Sys.perform] at hp
  split at hp
  · cases hp
  · have hprefix : limited limit (mem.take k) <+: src := by
      cases limit with
      | none => exact hmem
      | some l => exact (List.take_prefix l _).trans hmem
    obtain ⟨m, hm⟩ := Fs.Moves.write hprefix (hs ⟨fd, 0⟩ rfl) hp
    exact ⟨_, hm, h r m⟩

/-- A close, which fails only under a fault. -/
theorem close {f : Int → Prog procSig α} (h : ∀ r, Tidy strict p src (f r) none)
    (hfail : ¬ strict → Tidy strict p src (f (-1)) (some ⟨fd, n⟩)) :
    Tidy strict p src (sys (.close fd) >>= f) (some ⟨fd, n⟩) := by
  refine Prog.Abides.call fun s e he hs => ?_
  have hgrip : ({ s.fs with clock := e.now } : Fs).Grips p ⟨fd, n⟩ := hs ⟨fd, n⟩ rfl
  obtain ⟨o, ho⟩ := Option.ne_none_iff_exists'.mp hgrip.getFd
  have hclose : Fs.close { s.fs with clock := e.now } fd =
      .ok (0, Fs.setFd { s.fs with clock := e.now } fd none) := by
    simp only [Fs.close, ho]
  have hdone : ∀ t : Proc, t.fs = Fs.setFd { s.fs with clock := e.now } fd none →
      s.fs.Moves p src t.fs (some ⟨fd, n⟩) none := by
    intro t ht
    rw [ht]
    exact (Fs.Moves.close hgrip hclose).clock
  obtain ⟨now, fault⟩ := e
  cases fault with
  | fail err =>
      have hloose : ¬ strict := fun hstrict => he hstrict err rfl
      refine ⟨some ⟨fd, n⟩, ?_, hfail hloose⟩
      exact (Fs.Moves.still (s := { s.fs with clock := now }) hs).clock
  | ok | short k =>
      refine ⟨none, hdone _ ?_, h _⟩
      simp only [ProcCmd.exec, Tick.set, Sys.exec, Sys.perform, hclose, Sys.finish]

/-- A call that names the path and takes no descriptor. -/
theorem byName {c : Sys} {f : c.Res → Prog procSig α} (hc : c = .unlink p ∨ c = .rmdir p ∨
      (∃ mode, c = .mkdir p mode) ∨ ∃ mode, c = .chmod p mode)
    (h : ∀ r, Tidy strict p src (f r) none) : Tidy strict p src (sys c >>= f) none :=
  call (h _) fun _ _ _ r _ hp => ⟨none, .byName hc hp, h r⟩

end Tidy

section Handlers

variable {junk : Junk} {root_path : Path}

private theorem stays {c : Sys} {limit : Option Nat} {s t : Fs} {r : c.Res} {β : Type} {x : Except Int β}
    {h : β → c.Res} (hc : c.perform limit s = x.map fun y => (h y, s)) (hp : c.perform limit s = .ok (r, t)) :
    t = s := by
  rw [hc] at hp
  obtain ⟨y, -, hy⟩ := map_eq_ok.mp hp
  exact (Prod.mk.inj hy).2.symm

/-- Every handler works on the path of its request, and writes nothing but what the request carries. -/
theorem handle_tidy (r : Request) (k : Response r.Reply → Prog procSig α)
    (hk : ∀ m g, (strict → g = none) → Tidy strict (getServerPath r.path root_path) (r.payload junk) (k m) g) :
    Tidy strict (getServerPath r.path root_path) (r.payload junk) (handle junk root_path r >>= k) none := by
  have hnone : ∀ m, Tidy strict (getServerPath r.path root_path) (r.payload junk) (k m) none :=
    fun m => hk m none fun _ => rfl
  cases r with
  | create path =>
      simp only [handle, afsCreate, Prog.bind_assoc, Prog.pure_eq]
      refine Tidy.openF rfl ?_ fun fd h0 => ?_
      · simp only [if_true, Prog.bind_assoc, Prog.ret_bind]
        exact Tidy.errno fun e => hnone _
      · have hfd : fd ≠ -1 := by omega
        simp only [hfd, if_false, Prog.bind_assoc, Prog.ret_bind]
        refine Tidy.look (fun limit s t r => stays rfl) fun res => ?_
        exact Tidy.close (fun _ => hnone _) fun hloose => hk _ _ fun hs => absurd hs hloose
  | store r =>
      simp only [handle, afsStore, Prog.bind_assoc, Prog.pure_eq]
      refine Tidy.openF rfl ?_ fun fd h0 => ?_
      · simp only [if_true, Prog.bind_assoc, Prog.ret_bind]
        exact Tidy.errno fun e => hnone _
      · have hfd : fd ≠ -1 := by omega
        simp only [hfd, if_false, Prog.bind_assoc, Prog.ret_bind]
        refine Tidy.write List.prefix_rfl fun _ m => ?_
        refine Tidy.look (fun limit s t r => stays rfl) fun res => ?_
        exact Tidy.close (fun _ => hnone _) fun hloose => hk _ _ fun hs => absurd hs hloose
  | getattr path =>
      simp only [handle, afsGetattr, Prog.bind_assoc, Prog.pure_eq]
      refine Tidy.look (fun limit s t r => stays rfl) fun res => ?_
      cases res with
      | none => exact Tidy.errno fun e => hnone _
      | some stats => exact hnone _
  | unlink path =>
      simp only [handle, afsUnlink, errorReply, Prog.bind_assoc, Prog.pure_eq]
      refine Tidy.byName (Or.inl rfl) fun r => ?_
      split
      · exact Tidy.errno fun e => hnone _
      · exact hnone _
  | chmod path mode =>
      simp only [handle, afsChmod, errorReply, Prog.bind_assoc, Prog.pure_eq]
      refine Tidy.byName (Or.inr (Or.inr (Or.inr ⟨_, rfl⟩))) fun r => ?_
      split
      · exact Tidy.errno fun e => hnone _
      · exact hnone _
  | mkdir path mode =>
      simp only [handle, afsMkdir, Prog.bind_assoc, Prog.pure_eq]
      refine Tidy.byName (Or.inr (Or.inr (Or.inl ⟨_, rfl⟩))) fun r => ?_
      split
      · exact Tidy.errno fun e => hnone _
      · exact hnone _
  | rmdir path =>
      simp only [handle, afsRmdir, errorReply, Prog.bind_assoc, Prog.pure_eq]
      refine Tidy.byName (Or.inr (Or.inl rfl)) fun r => ?_
      split
      · exact Tidy.errno fun e => hnone _
      · exact hnone _
  | fetch path =>
      simp only [handle, afsFetch, Prog.bind_assoc, Prog.pure_eq]
      refine Tidy.openF rfl ?_ fun fd h0 => ?_
      · simp only [if_true, Prog.ret_bind]
        exact hnone _
      · have hfd : fd ≠ -1 := by omega
        simp only [hfd, if_false, Prog.bind_assoc]
        refine Tidy.look (fun limit s t r => stays rfl) fun info => ?_
        refine Tidy.lseek fun _ _ => ?_
        refine Tidy.read fun _ _ => ?_
        refine Tidy.look (fun limit s t r => stays rfl) fun stats => ?_
        refine Tidy.close (fun _ => ?_) fun hloose => ?_
        · split
          · exact hnone _
          · exact hnone _
        · split
          · exact hk _ _ fun hs => absurd hs hloose
          · exact hk _ _ fun hs => absurd hs hloose
  | ls path =>
      simp only [handle, afsLs, Prog.bind_assoc, Prog.pure_eq]
      refine Tidy.look (fun limit s t r => stays rfl) fun dp => ?_
      split
      · exact hnone _
      · exact hnone _
      · exact hnone _

end Handlers

end Server

namespace Service

variable {ι : Type} {V : Service ι} {s₀ : Fs} {γ : ι → Option Hold} {s t : Proc} {i : ι} {g' : Option Hold}

/-- Every byte stood at its place in the file of that name before, or stands there in the buffer of a
store of the name. Behind the end of the buffer it stands in the memory that the store's size covers. -/
def Woven (V : Service ι) (s₀ : Fs) (x : Path) (b : Bytes) : Prop :=
  ∀ (n : Nat) (c : UInt8), b[n]? = some c → (∃ f, s₀.look x = some f ∧ f.bytes[n]? = some c) ∨
    ∃ i, V.path i = x ∧ ((V.request i).content[n]? = some c ∨
      (V.request i).content.length ≤ n ∧ (V.payload i)[n]? = some c)

/-- The server while handlers hold the descriptors of `γ`. -/
structure Stands (V : Service ι) (s₀ : Fs) (γ : ι → Option Hold) (s : Proc) : Prop where
  /-- Handlers hold descriptors of their own files. -/
  grips : ∀ i, ∀ h ∈ γ i, s.fs.Grips (V.path i) h
  /-- No two hold the same descriptor. -/
  apart : ∀ i j, ∀ h ∈ γ i, ∀ k ∈ γ j, h.fd = k.fd → i = j
  /-- The held descriptors were free before. -/
  free : ∀ i, ∀ h ∈ γ i, s₀.getFd h.fd = none
  /-- The others are as before. -/
  fds : ∀ fd, (∀ i, ∀ h ∈ γ i, h.fd ≠ fd) → s.fs.getFd fd = s₀.getFd fd
  /-- Names that no request has are as before. -/
  others : ∀ x, (∀ i, V.path i ≠ x) → s₀.Same x s.fs
  /-- So are directories, which may be stamped. -/
  dirs : ∀ x, (∀ i, V.path i ≠ x) → (∀ i, trimmed (V.path i) ≠ x) → (s₀.dirs x).Restamped (s.fs.dirs x)
  /-- Only those that a request's name lies in are. -/
  beside : ∀ x, (∀ i, V.path i ≠ x) → (∀ i, trimmed (V.path i) ≠ x) → (∀ i, parent (V.path i) ≠ x) →
    s.fs.dirs x = s₀.dirs x
  /-- All bytes have a source. -/
  woven : ∀ x f, s.fs.look x = some f → V.Woven s₀ x f.bytes

theorem Stands.start (V : Service ι) (s : Proc) : V.Stands s.fs (fun _ => none) s where
  grips _ h hh := by cases hh
  apart _ _ h hh := by cases hh
  free _ h hh := by cases hh
  fds _ _ := rfl
  others x _ := .refl x s.fs
  dirs _ _ _ := .refl _
  beside _ _ _ _ := rfl
  woven x f hf n c hc := Or.inl ⟨f, hf, hc⟩

/-- A write of a part of the payload at the start of a file. -/
private theorem Woven.splice {b d : Bytes} (hb : V.Woven s₀ (V.path i) b) (hd : d <+: V.payload i) :
    V.Woven s₀ (V.path i) (splice b 0 d) := by
  intro n c hc
  rw [splice_zero] at hc
  by_cases hn : n < d.length
  · rw [List.getElem?_append_left hn] at hc
    obtain ⟨rest, hrest⟩ := hd
    refine Or.inr ⟨i, rfl, Request.getElem?_payload ?_⟩
    change (V.payload i)[n]? = some c
    rw [← hrest, List.getElem?_append_left hn]
    exact hc
  · rw [List.getElem?_append_right (Nat.le_of_not_lt hn), List.getElem?_drop] at hc
    exact hb n c (by rwa [Nat.add_sub_cancel' (Nat.le_of_not_lt hn)] at hc)

variable [DecidableEq ι]

/-- A call of one handler. -/
theorem Stands.moves (h : V.Stands s₀ γ s)
    (hm : s.fs.Moves (V.path i) (V.payload i) t.fs (γ i) g') :
    V.Stands s₀ (Function.update γ i g') t := by
  have hold : ∀ j, j ≠ i → ∀ k ∈ γ j, ∀ l ∈ γ i, l.fd ≠ k.fd :=
    fun j hj k hk l hl he => hj (h.apart i j l hl k hk he).symm
  have hnew : ∀ j, j ≠ i → ∀ k ∈ γ j, ∀ l ∈ g', l.fd ≠ k.fd := by
    intro j hj k hk l hl he
    have hfree := hm.opened l hl fun m hm' => he ▸ hold j hj k hk m hm'
    exact (he ▸ (h.grips j k hk).getFd) hfree
  have hself : ∀ l ∈ g', s₀.getFd l.fd = none := by
    intro l hl
    by_cases hmine : ∀ k ∈ γ i, k.fd ≠ l.fd
    · rw [← hm.opened l hl hmine]
      refine (h.fds l.fd fun j k hk he => ?_).symm
      by_cases hj : j = i
      · exact hmine k (hj ▸ hk) he
      · exact hnew j hj k hk l hl he.symm
    · push Not at hmine
      obtain ⟨k, hk, he⟩ := hmine
      exact he ▸ h.free i k hk
  refine ⟨?_, ?_, ?_, ?_, ?_, ?_, ?_, ?_⟩
  · intro j k hk
    by_cases hj : j = i
    · subst hj
      rw [Function.update_self] at hk
      exact hm.grips k hk
    · rw [Function.update_of_ne hj] at hk
      exact hm.spares (h.grips j k hk) (hold j hj k hk)
  · intro j j' k hk k' hk' he
    by_cases hj : j = i <;> by_cases hj' : j' = i
    · exact hj.trans hj'.symm
    · rw [hj, Function.update_self] at hk
      rw [Function.update_of_ne hj'] at hk'
      exact absurd he (hnew j' hj' k' hk' k hk)
    · rw [hj', Function.update_self] at hk'
      rw [Function.update_of_ne hj] at hk
      exact absurd he.symm (hnew j hj k hk k' hk')
    · rw [Function.update_of_ne hj] at hk
      rw [Function.update_of_ne hj'] at hk'
      exact h.apart j j' k hk k' hk' he
  · intro j k hk
    by_cases hj : j = i
    · subst hj
      rw [Function.update_self] at hk
      exact hself k hk
    · rw [Function.update_of_ne hj] at hk
      exact h.free j k hk
  · intro fd hfd
    have hout : ∀ k ∈ g', k.fd ≠ fd := fun k hk => hfd i k (by rw [Function.update_self]; exact hk)
    by_cases hmine : ∀ k ∈ γ i, k.fd ≠ fd
    · rw [hm.fds fd hmine hout]
      refine h.fds fd fun j k hk => ?_
      by_cases hj : j = i
      · exact hmine k (hj ▸ hk)
      · exact hfd j k (by rw [Function.update_of_ne hj]; exact hk)
    · push Not at hmine
      obtain ⟨k, hk, rfl⟩ := hmine
      rw [hm.closed k hk hout, h.free i k hk]
  · intro x hx
    exact (h.others x hx).trans (hm.same x (Ne.symm (hx i)))
  · intro x hx hx'
    exact (h.dirs x hx hx').trans (hm.dirs x (Ne.symm (hx i)) (Ne.symm (hx' i)))
  · intro x hx hx' hx''
    exact (hm.beside x (Ne.symm (hx i)) (Ne.symm (hx' i)) (Ne.symm (hx'' i))).trans (h.beside x hx hx' hx'')
  · intro x f hf
    by_cases hx : x = V.path i
    · subst hx
      rcases hm.file f hf with hnil | ⟨f₀, d, hf₀, hd, he⟩
      · intro n c hc
        rw [hnil] at hc
        cases hc
      · rw [he]
        exact (h.woven _ f₀ hf₀).splice hd
    · rw [(hm.same x hx).look] at hf
      exact h.woven x f hf

/-- Any interleaving: what the handlers hold, and what holds of the server. -/
private theorem stands_of_run {strict : Prop} {es : List (ι × Tick)}
    {P : Pool procSig ι Proc Answer}
    (h : Run Service.step (Pool.Admits fun c e => strict → Tick.Closes c e) (V.start s) es P) :
    ∃ γ, V.Stands s.fs γ P.state ∧ ∀ i a, P.result i = some a → strict → γ i = none := by
  have hrun : Run (Pool.step ProcCmd.exec Tick.set)
      (Pool.AdmitsEach fun _ c e => strict → Tick.Closes c e) (V.start s) es P := h
  refine Pool.abides_run (V.Stands s.fs) (L := fun i g s => ∀ h ∈ g, s.fs.Grips (V.path i) h)
    (M := fun i g s g' t => s.fs.Moves (V.path i) (V.payload i) t.fs g g')
    (Q := fun _ _ g => strict → g = none) (fun γ t i hs => hs.grips i)
    (fun γ t i g' u hs hm => hs.moves hm) (Stands.start V s) (fun i => ?_) hrun
  exact Server.handle_tidy (V.request i) _ fun m g hg => Server.Tidy.ret hg

/-- In any interleaving of any handlers, whatever fails, every byte of every file stood at its place in
the file of that name before, or stands there in a store request for that name, or in memory behind the
buffer of one whose size says more than that has. -/
theorem bytes_have_sources {es : List (ι × Tick)} {P : Pool procSig ι Proc Answer}
    (h : Run Service.step (fun _ _ => True) (V.start s) es P) {x : Path} {f : File}
    (hf : P.state.fs.look x = some f) : V.Woven s.fs x f.bytes := by
  obtain ⟨γ, hs, -⟩ := stands_of_run (h.mono fun _ _ _ _ _ (hc : False) => hc.elim)
  exact hs.woven x f hf

/-- In any interleaving of any handlers, whatever fails, a name that no request is for stands for the
same file or directory as before, a file with the same bytes, attributes and times. A directory keeps
its attributes as well, and its times too if no request is for a name in it. -/
theorem other_names_untouched {es : List (ι × Tick)}
    {P : Pool procSig ι Proc Answer}
    (h : Run Service.step (fun _ _ => True) (V.start s) es P) {x : Path} (hx : ∀ i, V.path i ≠ x) :
    s.fs.Same x P.state.fs ∧ ((∀ i, trimmed (V.path i) ≠ x) →
      (s.fs.dirs x).Restamped (P.state.fs.dirs x) ∧
        ((∀ i, parent (V.path i) ≠ x) → P.state.fs.dirs x = s.fs.dirs x)) := by
  obtain ⟨γ, hs, -⟩ := stands_of_run (h.mono fun _ _ _ _ _ (hc : False) => hc.elim)
  exact ⟨hs.others x hx, fun hx' => ⟨hs.dirs x hx hx', hs.beside x hx hx'⟩⟩

end Service

/-- Two stores of the sample file. -/
def sampleService : Service Bool where
  request i := .store ⟨sampleFile, if i then 1 else 2, if i then [5] else [3, 4]⟩
  junk _ := .zero
  root_path := sample.root_path

/-- The calls of the two in some order, one second apart. -/
def sampleTicks (l : List (Bool × Fault)) : List (Bool × Tick) :=
  l.zipIdx.map fun x => (x.1.1, ⟨sampleTime x.2 0, x.1.2⟩)

private theorem exists_sampleService {l : List (Bool × Fault)} {b : Bytes}
    (h : (((sampleTicks l).foldlM Service.step (sampleService.start sampleBoot.server)).bind fun P =>
      (P.state.fs.look (sampleService.path true)).map (·.bytes)) = some b) :
    ∃ P f, Run Service.step (fun _ _ => True) (sampleService.start sampleBoot.server) (sampleTicks l) P ∧
      P.state.fs.look (sampleService.path true) = some f ∧ f.bytes = b := by
  obtain ⟨P, hP, hb⟩ := Option.bind_eq_some_iff.mp h
  obtain ⟨f, hf, hfb⟩ := Option.map_eq_some_iff.mp hb
  have hrun : Run Service.step (fun _ _ => True) (sampleService.start sampleBoot.server) (sampleTicks l) P := by
    refine Run.of_foldlM ?_
    simpa only [if_true] using hP
  exact ⟨P, f, hrun, hf, hfb⟩

namespace Service

/-- The longer buffer is written first, and the shorter one lies on it. -/
theorem bytes_have_sources_sample : ∃ es P f,
    Run Service.step (fun _ _ => True) (sampleService.start sampleBoot.server) es P ∧
      P.state.fs.look (sampleService.path true) = some f ∧ f.bytes = [5, 4] ∧
      sampleService.Woven sampleBoot.server.fs (sampleService.path true) f.bytes := by
  obtain ⟨P, f, hrun, hf, hb⟩ := @exists_sampleService
    [(false, .ok), (true, .ok), (false, .ok), (true, .ok)] [5, 4] (by decide +kernel)
  exact ⟨_, P, f, hrun, hf, hb, bytes_have_sources hrun hf⟩

/-- The exported directory during the same two stores. -/
theorem other_names_untouched_sample : ∃ es P f,
    Run Service.step (fun _ _ => True) (sampleService.start sampleBoot.server) es P ∧
      P.state.fs.look (sampleService.path true) = some f ∧ f.bytes = [5] ∧
      sampleBoot.server.fs.Same sample.root_path P.state.fs ∧
      (sampleBoot.server.fs.dirs sample.root_path).Restamped (P.state.fs.dirs sample.root_path) := by
  obtain ⟨P, f, hrun, hf, hb⟩ := @exists_sampleService
    [(false, .ok), (false, .fail 28), (true, .ok), (true, .ok)] [5] (by decide +kernel)
  obtain ⟨hsame, hdirs⟩ := other_names_untouched hrun (x := sample.root_path) (by decide)
  exact ⟨_, P, f, hrun, hf, hb, hsame, (hdirs (by decide)).1⟩

end Service

end Afs
