import Afs.Core.Elsewhere
import Afs.Core.Names

/-!
# Programs that leave a name alone

A program has some descriptors of its own and works on other names than `x`. `Leaves` says what one of its
calls may do: `x` stands for what it stood for, the descriptors of other programs stay as they are, and a
descriptor that it gets was free before. Programs that call like this do not disturb each other.
-/

namespace Posix

namespace Fs

/-- The descriptors are open, each is there once, and none is on the file of `x`. -/
structure Owns (x : Path) (s : Fs) (own : List Int) : Prop where
  nodup : own.Nodup
  opened : ∀ fd ∈ own, s.getFd fd ≠ none
  apart : ∀ fd ∈ own, s.Apart fd x

/-- What a call of a program may do that has the descriptors `own` before it and `own'` afterwards. -/
structure Leaves (x : Path) (s t : Fs) (own own' : List Int) : Prop where
  /-- The name stands for what it stood for. -/
  same : Same x s t
  /-- The descriptors of others are left alone. -/
  fds : ∀ fd, fd ∉ own → fd ∉ own' → t.getFd fd = s.getFd fd
  /-- A descriptor that is new was free. -/
  fresh : ∀ fd ∈ own', fd ∉ own → s.getFd fd = none

/-- The name stands for what it stood for in `s₀`, and the descriptors are at the start of the file there. -/
structure Views (x : Path) (s₀ s : Fs) (own : List Int) : Prop where
  same : Same x s₀ s
  holds : ∀ fd ∈ own, s.Holds fd x 0 false

variable {x p : Path} {s₀ s t u : Fs} {own own' mine : List Int} {fd g : Int}

/-- A descriptor of another program survives the call. -/
theorem Leaves.spares (h : Leaves x s t own own') (hg : s.getFd g ≠ none) (hown : g ∉ own) :
    t.getFd g = s.getFd g :=
  h.fds g hown fun hnew => hg (h.fresh g hnew hown)

/-- So it stays apart from the name. -/
theorem Leaves.apart (h : Leaves x s t own own') (hg : s.getFd g ≠ none) (hown : g ∉ own)
    (ha : s.Apart g x) : t.Apart g x := by
  intro o ho
  rw [h.same.tree]
  exact ha o ((h.spares hg hown).symm.trans ho)

theorem Leaves.refl (x : Path) (s : Fs) (own : List Int) : Leaves x s s own own where
  same := Same.refl x s
  fds _ _ _ := rfl
  fresh _ hnew hold := absurd hnew hold

theorem owns_nil (x : Path) (s : Fs) : s.Owns x [] :=
  ⟨List.nodup_nil, List.forall_mem_nil _, List.forall_mem_nil _⟩

theorem owns_singleton {o : OpenFile} (ho : s.getFd fd = some o) (hne : s.tree x ≠ some (.file o.ino)) :
    s.Owns x [fd] := by
  refine ⟨List.nodup_cons.mpr ⟨List.not_mem_nil, List.nodup_nil⟩, List.forall_mem_singleton.mpr ?_,
    List.forall_mem_singleton.mpr ?_⟩
  · rw [ho]
    exact Option.some_ne_none o
  · intro o' ho'
    obtain rfl := Option.some.inj (ho.symm.trans ho')
    exact hne

/-- Beside such a call another program keeps what it has. -/
theorem Owns.beside (h : s.Owns x mine) (hl : Leaves x s t own own') (hd : ∀ fd ∈ mine, fd ∉ own) :
    t.Owns x mine where
  nodup := h.nodup
  opened fd hfd := by
    rw [hl.spares (h.opened fd hfd) (hd fd hfd)]
    exact h.opened fd hfd
  apart fd hfd := hl.apart (h.opened fd hfd) (hd fd hfd) (h.apart fd hfd)

/-- The descriptors are open. -/
theorem Views.opened (h : Views x s₀ s mine) (hfd : fd ∈ mine) : s.getFd fd ≠ none := by
  obtain ⟨i, hi, -⟩ := h.holds fd hfd
  rw [hi]
  exact Option.some_ne_none _

/-- A reader of the name keeps its descriptors, too. -/
theorem Views.beside (h : Views x s₀ s mine) (hl : Leaves x s t own own') (hd : ∀ fd ∈ mine, fd ∉ own) :
    Views x s₀ t mine := by
  refine ⟨h.same.trans hl.same, fun fd hfd => ?_⟩
  obtain ⟨i, hi, ht⟩ := h.holds fd hfd
  exact ⟨i, (hl.spares (h.opened hfd) (hd fd hfd)).trans hi, hl.same.tree.trans ht⟩

/-- The clock does not matter. -/
theorem Leaves.clock {now : Timespec} (h : Leaves x { s with clock := now } t own own') :
    Leaves x s t own own' where
  same := ⟨h.same.tree, h.same.node⟩
  fds := h.fds
  fresh := h.fresh

/-- Descriptors that stay on their files stay apart from the name. -/
theorem Owns.keep (h : s.Owns x own) (hsame : Same x s t)
    (hino : ∀ fd, (t.getFd fd).map (·.ino) = (s.getFd fd).map (·.ino)) : t.Owns x own where
  nodup := h.nodup
  opened fd hfd hnone := by
    have hi := hino fd
    rw [hnone, Option.map_none, eq_comm, Option.map_eq_none_iff] at hi
    exact h.opened fd hfd hi
  apart fd hfd o ho := by
    have hi := hino fd
    rw [ho, Option.map_some, eq_comm, Option.map_eq_some_iff] at hi
    obtain ⟨o', ho', hino'⟩ := hi
    rw [hsame.tree, ← hino']
    exact h.apart fd hfd o' ho'

/-- A file under another name gets other bytes. -/
private theorem same_setBytes {i : Nat} (hi : s.tree x ≠ some (.file i)) (b : Bytes) :
    Same x s (s.setBytes i b) := by
  refine ⟨rfl, fun j hj => ?_⟩
  have hne : j ≠ i := fun he => hi (he ▸ hj)
  simp only [setBytes, setNode, Function.update_of_ne hne]

/-- What an open does to the descriptors. -/
theorem openFile_getFd {fl : Flags} {mode : Nat} (ho : s.openFile p fl mode = .ok (fd, t)) :
    0 ≤ fd ∧ s.getFd fd = none ∧ t.getFd fd ≠ none ∧ ∀ g, g ≠ fd → t.getFd g = s.getFd g := by
  have hinstall : ∀ (v : Fs) (o : OpenFile), v.fds = s.fds → v.install o = (fd, t) →
      0 ≤ fd ∧ s.getFd fd = none ∧ t.getFd fd ≠ none ∧ ∀ g, g ≠ fd → t.getFd g = s.getFd g := by
    intro v o hfds hi
    obtain ⟨hfd, ht⟩ := Prod.mk.inj hi
    have hget : v.getFd = s.getFd := by
      funext g
      cases g <;> simp only [getFd, hfds]
    refine ⟨hfd ▸ Int.natCast_nonneg _, ?_, ?_, fun g hg => ?_⟩
    · rw [← hget, ← hfd]
      exact getFd_install_free v o
    · rw [← ht, ← hfd]
      change (v.install o).2.getFd (v.install o).1 ≠ none
      rw [getFd_install]
      exact Option.some_ne_none o
    · rw [← ht, ← hget]
      exact getFd_install_other v o fun he => hg (he.trans hfd)
  unfold openFile at ho
  split at ho
  · cases ho
  · refine hinstall _ _ ?_ (Except.ok.inj ho)
    split <;> rfl
  · split at ho
    · split at ho
      · exact hinstall (s.link p mode) _ rfl (Except.ok.inj ho)
      · cases ho
    · cases ho

/-- A reader opens the name. -/
theorem Views.openFile {mode : Nat} (h : Views x s₀ s []) (ho : s.openFile x {} mode = .ok (fd, t)) :
    Leaves x s t [] [fd] ∧ Views x s₀ t [fd] := by
  obtain ⟨-, hfree, -, hothers⟩ := openFile_getFd ho
  have hview : Same x s t ∧ t.Holds fd x 0 false := by
    unfold Fs.openFile at ho
    split at ho
    · cases ho
    · next i hi =>
      obtain ⟨rfl, rfl⟩ := Prod.mk.inj (Except.ok.inj ho)
      exact ⟨⟨rfl, fun _ _ => rfl⟩, i, getFd_install s ⟨i, 0, false⟩, hi⟩
    · simp only [Bool.false_eq_true, if_false, reduceCtorEq] at ho
  refine ⟨⟨hview.1, fun g _ hg => ?_, fun g hg _ => ?_⟩, h.same.trans hview.1, fun g hg => ?_⟩
  · exact hothers g fun he => hg (List.mem_singleton.mpr he)
  · exact List.mem_singleton.mp hg ▸ hfree
  · exact List.mem_singleton.mp hg ▸ hview.2

/-- A program's own descriptor at another offset. -/
private theorem leaves_reseat {off : Nat} {o : OpenFile} (h : s.Owns x own) (hown : fd ∈ own)
    (ho : s.getFd fd = some o) (hsame : Same x s t)
    (hget : ∀ g, t.getFd g = if g = fd then some { o with offset := off } else s.getFd g) :
    Leaves x s t own own ∧ t.Owns x own := by
  refine ⟨⟨hsame, fun g hg _ => ?_, fun g hnew hold => absurd hnew hold⟩, h.keep hsame fun g => ?_⟩
  · rw [hget, if_neg (fun he : g = fd => hg (he ▸ hown))]
  · rw [hget]
    split
    · next he => rw [he, ho, Option.map_some, Option.map_some]
    · rfl

/-- The descriptors stay as they are. -/
private theorem leaves_still (h : s.Owns x own) (hsame : Same x s t) (hfds : t.fds = s.fds) :
    Leaves x s t own own ∧ t.Owns x own := by
  have hget : t.getFd = s.getFd := by
    funext g
    cases g <;> simp only [getFd, hfds]
  exact ⟨⟨hsame, fun g _ _ => congrFun hget g, fun g hnew hold => absurd hnew hold⟩,
    h.keep hsame fun g => by rw [hget]⟩

/-- A program closes a descriptor of its own. -/
private theorem leaves_close {r : Int} (h : s.Owns x own) (hown : fd ∈ own) (hc : s.close fd = .ok (r, t)) :
    r = 0 ∧ Leaves x s t own (own.erase fd) ∧ t.Owns x (own.erase fd) := by
  unfold close at hc
  split at hc
  · cases hc
  · next o ho =>
    obtain ⟨rfl, rfl⟩ := Prod.mk.inj (Except.ok.inj hc)
    have hget := fun g => getFd_setFd s fd g none (h.opened fd hown)
    have hne : ∀ g ∈ own.erase fd, g ≠ fd := fun g hg => (h.nodup.mem_erase_iff.mp hg).1
    refine ⟨rfl, ⟨⟨rfl, fun _ _ => rfl⟩, fun g hg _ => ?_, fun g hnew hold => ?_⟩, h.nodup.erase fd,
      fun g hg => ?_, fun g hg o ho => ?_⟩
    · rw [hget, if_neg (fun he : g = fd => hg (he ▸ hown))]
    · exact absurd (List.mem_of_mem_erase hnew) hold
    · rw [hget, if_neg (hne g hg)]
      exact h.opened g (List.mem_of_mem_erase hg)
    · rw [hget, if_neg (hne g hg)] at ho
      exact h.apart g (List.mem_of_mem_erase hg) o ho

end Fs

/-- The call only looks. -/
def Sys.Looks : Sys → Prop
  | .lstat _ | .fstat _ | .pread .. | .readdir _ => True
  | _ => False

theorem Sys.perform_looks {c : Sys} (hc : c.Looks) {limit : Option Nat} {s t : Fs} {r : c.Res}
    (hp : c.perform limit s = .ok (r, t)) : t = s := by
  cases c with
  | lstat p | fstat fd | pread fd n off | readdir p =>
      obtain ⟨y, -, hy⟩ := map_eq_ok.mp hp
      exact (Prod.mk.inj hy).2.symm
  | _ => exact hc.elim

theorem Sys.exec_looks {c : Sys} (hc : c.Looks) (v : Proc) : (c.exec v).2.fs = v.fs := by
  rcases c.exec_cases v with ⟨-, hs⟩ | ⟨limit, hp⟩
  · exact hs
  · exact Sys.perform_looks hc hp

/-- The descriptor that a call closes, moves or writes through. -/
def Sys.moved : Sys → Option Int
  | .close fd | .read fd _ | .write fd .. | .pwrite fd .. | .lseek fd _ | .ftruncate fd _ => some fd
  | .openF .. | .lstat _ | .fstat _ | .pread .. | .truncate .. | .fsync _ | .unlink _ | .remove _ | .rename ..
  | .mkdir .. | .rmdir _ | .chmod .. | .lchown .. | .utimens .. | .readdir _ => none

/-- The call is one of a program with these descriptors that works on other names. -/
def Sys.Minds (x : Path) (own : List Int) (c : Sys) : Prop :=
  c.Elsewhere x ∧ ∀ fd ∈ c.moved, fd = -1 ∨ fd ∈ own

/-- The descriptors of the program after the call. -/
def Sys.owned (own : List Int) : (c : Sys) → c.Res → List Int
  | .openF .., r => if r = (-1 : Int) then own else r :: own
  | .close fd, r => if r = (0 : Int) then own.erase fd else own
  | _, _ => own

section Calls

variable {x : Path} {s t : Fs} {own : List Int} {c : Sys}

/-- The descriptor of a call that did something. -/
private theorem mem_own {fd : Int} (hc : fd = -1 ∨ fd ∈ own) (hopen : s.getFd fd ≠ none) : fd ∈ own := by
  rcases hc with rfl | hown
  · exact absurd rfl hopen
  · exact hown

/-- A call of such a program that succeeds. -/
theorem Sys.perform_leaves {limit : Option Nat} {r : c.Res} (hc : c.Minds x own) (h : s.Owns x own)
    (hp : c.perform limit s = .ok (r, t)) :
    Fs.Leaves x s t own (c.owned own r) ∧ t.Owns x (c.owned own r) := by
  obtain ⟨helse, hmoved⟩ := hc
  have hnamed : c.Named → Fs.Same x s t := fun hn => Sys.perform_same helse hn hp
  have hlooks : c.Looks → t = s := fun hl => Sys.perform_looks hl hp
  cases c with
  | openF p fl mode =>
      have ho : s.openFile p fl mode = .ok (r, t) := hp
      obtain ⟨h0, hfree, hopen, hothers⟩ := Fs.openFile_getFd ho
      have hne : ∀ g ∈ own, g ≠ r := fun g hg he => h.opened g hg (he ▸ hfree)
      have hr : r ≠ (-1 : Int) := fun he => absurd (show (0 : Int) ≤ -1 from he ▸ h0) (by decide)
      simp only [owned, if_neg hr]
      refine ⟨⟨hnamed trivial, fun g _ hg => ?_, fun g hg hold => ?_⟩, ?_, fun g hg => ?_, fun g hg => ?_⟩
      · exact hothers g fun he => hg (List.mem_cons.mpr (Or.inl he))
      · obtain rfl := (List.mem_cons.mp hg).resolve_right hold
        exact hfree
      · exact List.nodup_cons.mpr ⟨fun hmem => hne r hmem rfl, h.nodup⟩
      · rcases List.mem_cons.mp hg with rfl | hold
        · exact hopen
        · rw [hothers g (hne g hold)]
          exact h.opened g hold
      · rcases List.mem_cons.mp hg with rfl | hold
        · exact Fs.openFile_apart helse ho
        · intro o ho'
          rw [(hnamed trivial).tree]
          exact h.apart g hold o ((hothers g (hne g hold)).symm.trans ho')
  | close fd =>
      have hclose : s.close fd = .ok (r, t) := hp
      have hopen : s.getFd fd ≠ none := by
        intro hnone
        simp only [Fs.close, hnone, reduceCtorEq] at hclose
      obtain ⟨rfl, hdone⟩ := Fs.leaves_close h (mem_own (hmoved fd rfl) hopen) hclose
      simpa only [owned, if_true] using hdone
  | read fd n =>
      obtain ⟨y, hy, he⟩ := map_eq_ok.mp hp
      obtain ⟨-, rfl⟩ := Prod.mk.inj he
      unfold Fs.read at hy
      split at hy
      · cases hy
      · next o ho =>
        obtain rfl := Except.ok.inj hy
        have hopen : s.getFd fd ≠ none := by
          rw [ho]
          exact Option.some_ne_none o
        exact Fs.leaves_reseat h (mem_own (hmoved fd rfl) hopen) ho (hnamed trivial)
          fun g => Fs.getFd_setFd s fd g _ hopen
  | lseek fd off =>
      simp only [perform, Fs.lseek] at hp
      split at hp
      · cases hp
      · next o ho =>
        obtain ⟨-, rfl⟩ := Prod.mk.inj (Except.ok.inj hp)
        have hopen : s.getFd fd ≠ none := by
          rw [ho]
          exact Option.some_ne_none o
        exact Fs.leaves_reseat h (mem_own (hmoved fd rfl) hopen) ho (hnamed trivial)
          fun g => Fs.getFd_setFd s fd g _ hopen
  | write fd mem n =>
      simp only [perform] at hp
      split at hp
      · cases hp
      unfold Fs.write at hp
      split at hp
      · cases hp
      · next o ho =>
        have hopen : s.getFd fd ≠ none := by
          rw [ho]
          exact Option.some_ne_none o
        have hown := mem_own (hmoved fd rfl) hopen
        split at hp
        · obtain ⟨-, rfl⟩ := Prod.mk.inj (Except.ok.inj hp)
          exact Fs.leaves_still h (Fs.Same.refl x _) rfl
        · obtain ⟨-, rfl⟩ := Prod.mk.inj (Except.ok.inj hp)
          refine Fs.leaves_reseat h hown ho ?_ fun g => Fs.getFd_setFd _ fd g _ hopen
          have hset := Fs.same_setBytes (h.apart fd hown o ho) (splice (s.node o.ino).bytes
            (if o.append = true then (s.node o.ino).bytes.length else o.offset) (limited limit (mem.take n)))
          exact ⟨hset.tree, hset.node⟩
  | pwrite fd mem n off =>
      simp only [perform] at hp
      split at hp
      · cases hp
      unfold Fs.pwrite at hp
      split at hp
      · cases hp
      · next o ho =>
        have hopen : s.getFd fd ≠ none := by
          rw [ho]
          exact Option.some_ne_none o
        split at hp
        · obtain ⟨-, rfl⟩ := Prod.mk.inj (Except.ok.inj hp)
          exact Fs.leaves_still h (Fs.Same.refl x _) rfl
        · obtain ⟨-, rfl⟩ := Prod.mk.inj (Except.ok.inj hp)
          exact Fs.leaves_still h (Fs.same_setBytes (h.apart fd (mem_own (hmoved fd rfl) hopen) o ho) _) rfl
  | ftruncate fd n =>
      simp only [perform, Fs.ftruncate] at hp
      split at hp
      · cases hp
      · next o ho =>
        have hopen : s.getFd fd ≠ none := by
          rw [ho]
          exact Option.some_ne_none o
        obtain ⟨-, rfl⟩ := Prod.mk.inj (Except.ok.inj hp)
        exact Fs.leaves_still h (Fs.same_setBytes (h.apart fd (mem_own (hmoved fd rfl) hopen) o ho) _) rfl
  | lstat p | fstat fd | pread fd n off | readdir p =>
      obtain rfl := hlooks trivial
      exact Fs.leaves_still h (Fs.Same.refl x _) rfl
  | fsync fd | truncate p n | unlink p | remove p | rename p q | mkdir p mode | rmdir p | chmod p mode
  | lchown p uid gid | utimens p a b =>
      refine Fs.leaves_still h (hnamed trivial) ?_
      simp only [perform, Fs.fsync, Fs.truncate, Fs.remove, Fs.unlink, Fs.rename, Fs.mkdir, Fs.rmdir,
        Fs.chattr] at hp
      repeat' split at hp
      all_goals cases hp <;> rfl

/-- Any call of such a program, under any fault. -/
theorem Sys.exec_leaves {v : Proc} (hc : c.Minds x own) (h : v.fs.Owns x own) :
    Fs.Leaves x v.fs (c.exec v).2.fs own (c.owned own (c.exec v).1) ∧
      (c.exec v).2.fs.Owns x (c.owned own (c.exec v).1) := by
  rcases c.exec_cases v with ⟨hr, hs⟩ | ⟨limit, hp⟩
  · have hown : c.owned own c.failed = own := by
      cases c with
      | openF p fl mode | close fd => simp [owned, failed]
      | _ => rfl
    rw [hr, hs, hown]
    exact ⟨Fs.Leaves.refl x v.fs own, h⟩
  · exact Sys.perform_leaves hc h hp

end Calls

end Posix
