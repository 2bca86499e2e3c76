import Afs.Core.Frames
import Afs.Ops.Calm

/-!
# Programs that keep to their own files

A client program is confined when it opens, uses and closes descriptors of its own, makes or
empties files only under the names in `M`, and removes or renames only names in `N`. Whatever its
calls return and whichever of them fail, the rest of the disk stays. A write is such a program.
-/

namespace Afs

open Posix Interaction

variable {α β : Type}

/-- The program keeps to its own files, when `own` are its open descriptors and `wr` those it
writes through. -/
inductive Confined (N M : List Path) : Set Int → Set Int → Prog clientSig α → Prop where
  | ret {own wr : Set Int} (a : α) : Confined N M own wr (.ret a)
  | halt {own wr : Set Int} : Confined N M own wr .halt
  | errno {own wr : Set Int} (k : Int → Prog clientSig α) (h : ∀ r, Confined N M own wr (k r)) :
      Confined N M own wr (.op .errno k)
  | put {own wr : Set Int} (key value : Int64) (k : Unit → Prog clientSig α)
      (h : ∀ r, Confined N M own wr (k r)) : Confined N M own wr (.op (.put key value) k)
  | table {own wr : Set Int} (k : HashTable → Prog clientSig α)
      (h : ∀ r, Confined N M own wr (k r)) : Confined N M own wr (.op .table k)
  | lstat {own wr : Set Int} (q : Path) (k : Option Stat → Prog clientSig α)
      (h : ∀ r, Confined N M own wr (k r)) : Confined N M own wr (.op (.sys (.lstat q)) k)
  | fsync {own wr : Set Int} (fd : Int) (k : Int → Prog clientSig α)
      (h : ∀ r, Confined N M own wr (k r)) : Confined N M own wr (.op (.sys (.fsync fd)) k)
  | openR {own wr : Set Int} (q : Path) (fl : Flags) (mode : Nat) (k : Int → Prog clientSig α)
      (hc : fl.creat = false) (ht : fl.trunc = false) (hfail : Confined N M own wr (k (-1)))
      (h : ∀ fd, 0 ≤ fd → fd ∉ own → Confined N M (insert fd own) wr (k fd)) :
      Confined N M own wr (.op (.sys (.openF q fl mode)) k)
  | openW {own wr : Set Int} (q : Path) (fl : Flags) (mode : Nat) (k : Int → Prog clientSig α)
      (hq : q ∈ M) (hfail : Confined N M own wr (k (-1)))
      (h : ∀ fd, 0 ≤ fd → fd ∉ own → Confined N M (insert fd own) (insert fd wr) (k fd)) :
      Confined N M own wr (.op (.sys (.openF q fl mode)) k)
  | read {own wr : Set Int} (fd : Int) (n : Nat) (k : Option Bytes → Prog clientSig α)
      (hfd : fd ∈ own ∨ fd = -1) (h : ∀ r, Confined N M own wr (k r)) :
      Confined N M own wr (.op (.sys (.read fd n)) k)
  | write {own wr : Set Int} (fd : Int) (mem : Bytes) (n : Nat) (k : Int → Prog clientSig α)
      (hfd : fd ∈ wr ∨ fd = -1) (h : ∀ r, Confined N M own wr (k r)) :
      Confined N M own wr (.op (.sys (.write fd mem n)) k)
  | pwrite {own wr : Set Int} (fd : Int) (mem : Bytes) (n off : Nat)
      (k : Int → Prog clientSig α) (hfd : fd ∈ wr ∨ fd = -1)
      (h : ∀ r, Confined N M own wr (k r)) :
      Confined N M own wr (.op (.sys (.pwrite fd mem n off)) k)
  | close {own wr : Set Int} (fd : Int) (k : Int → Prog clientSig α)
      (hfd : fd ∈ own ∨ fd = -1) (h : ∀ r, Confined N M (own \ {fd}) (wr \ {fd}) (k r)) :
      Confined N M own wr (.op (.sys (.close fd)) k)
  | remove {own wr : Set Int} (q : Path) (k : Int → Prog clientSig α) (hq : q ∈ N)
      (h : ∀ r, Confined N M own wr (k r)) : Confined N M own wr (.op (.sys (.remove q)) k)
  | rename {own wr : Set Int} (q q' : Path) (k : Int → Prog clientSig α) (hq : q ∈ N)
      (hm : q ∈ M) (hq' : q' ∈ N) (h : ∀ r, Confined N M own wr (k r)) :
      Confined N M own wr (.op (.sys (.rename q q')) k)

namespace Confined

variable {N M : List Path} {own wr : Set Int} {env : Env}

/-- A call in the middle of a confined program, from what it does when it fails and when it
succeeds. -/
private theorem sys_step {c : Sys} {s₀ : Fs} {s : St} {own' wr' : Set Int}
    (hfail : (env.exec (.sys c) s).1 = c.failed → Fs.Within N M s₀ s.disk own' wr')
    (hok : ∀ limit u, c.perform limit s.disk = .ok ((env.exec (.sys c) s).1, u) →
      Fs.Within N M s₀ u own' wr') :
    Fs.Within N M s₀ (env.exec (.sys c) s).2.disk own' wr' := by
  change Fs.Within N M s₀ (c.exec s.client.proc).2.fs own' wr'
  rcases c.exec_cases s.client.proc with ⟨hr, hs⟩ | ⟨limit, hp⟩
  · rw [hs]
    exact hfail hr
  · exact hok limit _ hp

/-- A call on a descriptor, which may be the number that a failed open returned. -/
private theorem fd_step {c : Sys} {s₀ : Fs} {s : St} {own' wr' : Set Int} {fd : Int} {fds : Set Int}
    (hfd : fd ∈ fds ∨ fd = -1) (hfail : Fs.Within N M s₀ s.disk own' wr')
    (hbad : s.disk.getFd fd = none → ∀ limit u,
      c.perform limit s.disk ≠ .ok ((env.exec (.sys c) s).1, u))
    (hok : fd ∈ fds → ∀ limit u, c.perform limit s.disk = .ok ((env.exec (.sys c) s).1, u) →
      Fs.Within N M s₀ u own' wr') :
    Fs.Within N M s₀ (env.exec (.sys c) s).2.disk own' wr' := by
  refine sys_step (fun _ => hfail) fun limit u hu => ?_
  rcases hfd with hin | rfl
  · exact hok hin limit u hu
  · exact absurd hu (hbad rfl limit u)

/-- From the middle of a confined program to its end, the frame stays. -/
theorem run_within {p : Prog clientSig α} (hp : Confined N M own wr p) {s₀ : Fs} {s : St}
    (h : Fs.Within N M s₀ s.disk own wr) : Fs.Frame N M s₀ (p.run env.exec s).2.disk := by
  induction hp generalizing s with
  | ret a => exact h.toFrame
  | halt => exact h.toFrame
  | errno k _ ih => exact ih _ h
  | put key value k _ ih => exact ih _ h
  | table k _ ih => exact ih _ h
  | lstat q k _ ih =>
      refine ih _ (sys_step (fun _ => h) fun limit u hu => ?_)
      simp only [Sys.perform] at hu
      obtain ⟨st, -, he⟩ := map_eq_ok.mp hu
      exact (Prod.mk.inj he).2 ▸ h
  | fsync fd k _ ih =>
      refine ih _ (sys_step (fun _ => h) fun limit u hu => ?_)
      simp only [Sys.perform, Fs.fsync] at hu
      split at hu
      · cases hu
      · exact (Prod.mk.inj (Except.ok.inj hu)).2 ▸ h
  | openR q fl mode k hc ht _ _ ihf ih =>
      rw [Prog.run_op]
      rcases (Sys.openF q fl mode).exec_cases s.client.proc with ⟨hr, hs⟩ | ⟨limit, ho⟩
      · have hr' : (env.exec (.sys (.openF q fl mode)) s).1 = -1 := hr
        have hs' : (env.exec (.sys (.openF q fl mode)) s).2.disk = s.disk := hs
        rw [hr']
        exact ihf (hs' ▸ h)
      · obtain ⟨h0, hnot, hread, -⟩ := h.openFile ho
        exact ih _ h0 hnot (hread hc ht)
  | openW q fl mode k hq _ _ ihf ih =>
      rw [Prog.run_op]
      rcases (Sys.openF q fl mode).exec_cases s.client.proc with ⟨hr, hs⟩ | ⟨limit, ho⟩
      · have hr' : (env.exec (.sys (.openF q fl mode)) s).1 = -1 := hr
        have hs' : (env.exec (.sys (.openF q fl mode)) s).2.disk = s.disk := hs
        rw [hr']
        exact ihf (hs' ▸ h)
      · obtain ⟨h0, hnot, -, hwrite⟩ := h.openFile ho
        exact ih _ h0 hnot (hwrite hq)
  | read fd n k hfd _ ih =>
      refine ih _ (fd_step hfd h (fun hn limit u hu => ?_) fun hin limit u hu => ?_)
      · simp only [Sys.perform, Fs.read, hn, Except.map] at hu
        cases hu
      · simp only [Sys.perform] at hu
        obtain ⟨r, hr, he⟩ := map_eq_ok.mp hu
        exact (Prod.mk.inj he).2 ▸ h.read hin hr
  | write fd mem n k hfd _ ih =>
      refine ih _ (fd_step hfd h (fun hn limit u hu => ?_) fun hin limit u hu => ?_)
      · simp only [Sys.perform, Fs.write, hn] at hu
        split at hu <;> cases hu
      · simp only [Sys.perform] at hu
        split at hu
        · cases hu
        · exact h.write hin hu
  | pwrite fd mem n off k hfd _ ih =>
      refine ih _ (fd_step hfd h (fun hn limit u hu => ?_) fun hin limit u hu => ?_)
      · simp only [Sys.perform, Fs.pwrite, hn] at hu
        split at hu <;> cases hu
      · simp only [Sys.perform] at hu
        split at hu
        · cases hu
        · exact h.pwrite hin hu
  | close fd k hfd _ ih =>
      refine ih _ (fd_step hfd (h.forget fd) (fun hn limit u hu => ?_) fun hin limit u hu => ?_)
      · simp only [Sys.perform, Fs.close, hn] at hu
        cases hu
      · exact h.close hin hu
  | remove q k hq _ ih => exact ih _ (sys_step (fun _ => h) fun limit u hu => h.remove hq hu)
  | rename q q' k hq hm hq' _ ih =>
      exact ih _ (sys_step (fun _ => h) fun limit u hu => h.rename hq hm hq' hu)

/-- Opening for writing, whether it succeeds or not. -/
theorem openForWrite {q : Path} {fl : Flags} {mode : Nat} {k : Int → Prog clientSig α}
    (hq : q ∈ M) (h : ∀ fd own' wr', own ⊆ own' → (fd ∈ own' ∨ fd = -1) → (fd ∈ wr' ∨ fd = -1) →
      Confined N M own' wr' (k fd)) :
    Confined N M own wr (.op (.sys (.openF q fl mode)) k) :=
  openW q fl mode k hq (h (-1) own wr (Set.Subset.refl _) (Or.inr rfl) (Or.inr rfl))
    fun fd _ _ => h fd _ _ (Set.subset_insert _ _) (Or.inl (Set.mem_insert _ _))
      (Or.inl (Set.mem_insert _ _))

/-- Opening for reading, whether it succeeds or not: the descriptor is none of those open. -/
theorem openForRead {q : Path} {fl : Flags} {mode : Nat} {k : Int → Prog clientSig α}
    (hc : fl.creat = false) (ht : fl.trunc = false)
    (h : ∀ fd own', own ⊆ own' → (fd ∈ own' ∨ fd = -1) → (fd ∈ own → fd = -1) →
      Confined N M own' wr (k fd)) :
    Confined N M own wr (.op (.sys (.openF q fl mode)) k) :=
  openR q fl mode k hc ht (h (-1) own (Set.Subset.refl _) (Or.inr rfl) fun _ => rfl)
    fun fd _ hnot => h fd _ (Set.subset_insert _ _) (Or.inl (Set.mem_insert _ _))
      fun hin => absurd hin hnot

/-- A confined program leaves the rest of the disk alone. -/
theorem run_frame {p : Prog clientSig α} (hp : Confined N M ∅ ∅ p) (s : St) :
    Fs.Frame N M s.disk (p.run env.exec s).2.disk :=
  hp.run_within (Fs.Within.start s.disk)

end Confined

/-- The names that a write takes away. -/
def writeNames (path cache_path : Path) : List Path :=
  [getLocalPath path cache_path, getLocalTmpPath path cache_path]

/-- The files that a write makes. -/
def writeFiles (path cache_path : Path) : List Path :=
  [getLocalTmpPath path cache_path, getLocalPath databasePath cache_path]

variable {N M : List Path} {own wr : Set Int} {cache_path : Path}

/-- Dumping the table is confined to the database file. -/
theorem dump_confined (hm : getLocalPath databasePath cache_path ∈ M)
    {f : Unit → Prog clientSig α} (hf : ∀ own' wr', Confined N M own' wr' (f ())) :
    Confined N M own wr (Client.dump cache_path >>= f) := by
  apply Confined.openForWrite hm
  intro fd own' wr' _ hown hwr
  by_cases hfd : fd = -1
  · simp only [Prog.bind, hfd, if_true]
    exact Confined.halt
  · simp only [Prog.bind, hfd, if_false]
    apply Confined.table
    intro ht
    apply Confined.write _ _ _ _ hwr
    intro _
    apply Confined.close _ _ hown
    intro _
    exact hf _ _

/-- Recording a value is confined to the database file. -/
theorem record_confined (hm : getLocalPath databasePath cache_path ∈ M) (path : Path)
    (value : Int64) {f : Unit → Prog clientSig α} (hf : ∀ own' wr', Confined N M own' wr' (f ())) :
    Confined N M own wr (Client.record path cache_path value >>= f) := by
  apply Confined.put
  intro _
  exact dump_confined hm hf

/-- A write is confined. -/
theorem afsWrite_confined (junk : Junk) (path : Path) (buffer : Bytes) (offset : Nat) :
    Confined (writeNames path cache_path) (writeFiles path cache_path) ∅ ∅
      (Client.afsWrite junk path cache_path buffer offset) := by
  unfold Client.afsWrite
  split
  · apply Confined.openForWrite List.mem_cons_self
    intro fd own wr _ hown hwr
    apply Confined.lstat
    intro res
    apply Confined.openForRead rfl rfl
    intro fd_main own' hsub hmain hnew
    apply Confined.read _ _ _ hmain
    intro got
    apply Confined.write _ _ _ _ hwr
    intro _
    apply Confined.close _ _ hmain
    intro _
    have hne : fd ∈ own → fd = fd_main → fd = -1 := fun hin he => he.trans (hnew (he ▸ hin))
    have hown' : fd ∈ own' \ {fd_main} ∨ fd = -1 := by
      by_cases he : fd = fd_main
      · exact Or.inr (hown.elim (fun hin => hne hin he) id)
      · exact hown.imp_left fun hin => ⟨hsub hin, he⟩
    have hwr' : fd ∈ wr \ {fd_main} ∨ fd = -1 := by
      by_cases he : fd = fd_main
      · exact Or.inr (hown.elim (fun hin => hne hin he) id)
      · exact hwr.imp_left fun hin => ⟨hin, he⟩
    apply Confined.pwrite _ _ _ _ _ hwr'
    intro ret_code
    apply Confined.fsync
    intro _
    apply Confined.close _ _ hown'
    intro _
    apply Confined.remove _ _ List.mem_cons_self
    intro _
    apply Confined.rename _ _ _ (by simp) List.mem_cons_self List.mem_cons_self
    intro _
    apply record_confined (by simp)
    intro own' wr'
    split
    · apply Confined.errno
      intro e
      exact Confined.ret _
    · exact Confined.ret _
  · exact Confined.ret _

end Afs
