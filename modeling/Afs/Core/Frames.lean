import Afs.Core.Names
import Mathlib.Data.Set.Insert

/-!
# What a program can reach of a file system

A program that makes files only under the names in `M` and takes names away only in `N` changes no
other inode and no descriptor that was open before it, whatever its calls return. The file behind
an old descriptor stays as it was even when its name is gone.
-/

namespace Posix

namespace Fs

/-- The inodes that a program started here may change: new ones, and those named in `M`. -/
def Mine (s : Fs) (M : List Path) (j : Nat) : Prop :=
  s.next ≤ j ∨ ∃ q ∈ M, s.tree q = some (.file j)

/-- What a program leaves alone that makes files in `M` and removes names in `N`. -/
structure Frame (N M : List Path) (s t : Fs) : Prop where
  /-- Inodes are not used again. -/
  next : s.next ≤ t.next
  /-- Open descriptors stay. -/
  fds : ∀ g o, s.getFd g = some o → t.getFd g = some o
  /-- Names of files outside `N` stay. -/
  tree : ∀ q j, q ∉ N → s.tree q = some (.file j) → t.tree q = some (.file j)
  /-- The names in `M` stand for files that the program may change. -/
  made : ∀ q ∈ M, ∀ j, t.tree q = some (.file j) → s.Mine M j
  /-- Other files stay. -/
  node : ∀ j, ¬ s.Mine M j → t.node j = s.node j

variable {N M : List Path} {s t u : Fs}

theorem Frame.refl (s : Fs) : Frame N M s s :=
  ⟨Nat.le_refl _, fun _ _ h => h, fun _ _ _ h => h, fun q hq _ h => Or.inr ⟨q, hq, h⟩,
    fun _ _ => rfl⟩

/-- What may be changed later may be changed now. -/
theorem Frame.mine (h : Frame N M s t) {j : Nat} (hj : t.Mine M j) : s.Mine M j := by
  rcases hj with hn | ⟨q, hq, ht⟩
  · exact Or.inl (Nat.le_trans h.next hn)
  · exact h.made q hq j ht

theorem Frame.trans (h : Frame N M s t) (k : Frame N M t u) : Frame N M s u where
  next := Nat.le_trans h.next k.next
  fds g o hg := k.fds g o (h.fds g o hg)
  tree q j hq hs := k.tree q j hq (h.tree q j hq hs)
  made q hq j hu := h.mine (k.made q hq j hu)
  node j hj := (k.node j fun hm => hj (h.mine hm)).trans (h.node j hj)

/-- A descriptor on a file under a name that stays. -/
theorem Frame.holds (h : Frame N M s t) {fd : Int} {q : Path} {off : Nat} {app : Bool} (hq : q ∉ N)
    (hh : s.Holds fd q off app) : t.Holds fd q off app := by
  obtain ⟨i, hfd, ht⟩ := hh
  exact ⟨i, h.fds _ _ hfd, h.tree q i hq ht⟩

/-- A descriptor from before still reads the file that it was opened on, even if the name of that
file stands for another one now. -/
theorem Frame.read_old (h : Frame N M s t) {fd : Int} {q : Path} {off : Nat} {app : Bool} {f : File}
    (hh : s.Holds fd q off app) (hf : s.look q = some f) (hq : q ∉ M) (n : Nat) :
    ∃ u, t.read fd n = .ok (slice f.bytes off n, u) ∧ t.Steps u t.look := by
  obtain ⟨j, hfd, ht⟩ := hh
  rw [look_of_tree ht, Option.some.injEq] at hf
  have hmine : ¬ s.Mine M j := by
    rintro (hn | ⟨q', hq', ht'⟩)
    · exact absurd (s.tree_lt q j ht) (Nat.not_lt.mpr hn)
    · exact hq (s.tree_inj q' q j ht' ht ▸ hq')
  exact ⟨t.setFd fd (some ⟨j, off + (slice f.bytes off n).length, app⟩),
    by simp only [Fs.read, h.fds fd _ hfd, h.node j hmine, hf], rfl, rfl, rfl⟩

/-- In the middle of a program: `own` are the descriptors that it has open, and `wr` those of them
that it writes through. -/
structure Within (N M : List Path) (s t : Fs) (own wr : Set Int) : Prop extends Frame N M s t where
  /-- Own descriptors are open now. -/
  live : ∀ g ∈ own, t.getFd g ≠ none
  /-- They were not before. -/
  fresh : ∀ g ∈ own, s.getFd g = none
  /-- Writing goes through own descriptors. -/
  sub : wr ⊆ own
  /-- It reaches only files that the program may change. -/
  reach : ∀ g ∈ wr, ∀ o, t.getFd g = some o → s.Mine M o.ino

variable {own wr : Set Int}

theorem Within.start (s : Fs) : Within N M s s ∅ ∅ :=
  ⟨Frame.refl s, fun _ h => h.elim, fun _ h => h.elim, fun _ h => h, fun _ h => h.elim⟩

/-- Files and names may change as long as the frame stays and the descriptors do not. -/
private theorem Within.files (h : Within N M s t own wr) (hf : u.fds = t.fds)
    (hframe : Frame N M s t → Frame N M s u) : Within N M s u own wr := by
  have hg : u.getFd = t.getFd := by
    funext g
    cases g <;> simp only [getFd, hf]
  refine ⟨hframe h.toFrame, fun g hg' => ?_, h.fresh, h.sub, fun g hg' o ho => ?_⟩
  · rw [hg]
    exact h.live g hg'
  · rw [hg] at ho
    exact h.reach g hg' o ho

/-- A new descriptor. -/
private theorem Within.install (h : Within N M s t own wr) (o : OpenFile) :
    (t.install o).1 ∉ own ∧ Within N M s (t.install o).2 (insert (t.install o).1 own) wr ∧
      (s.Mine M o.ino →
        Within N M s (t.install o).2 (insert (t.install o).1 own) (insert (t.install o).1 wr)) := by
  have hfree := getFd_install_free t o
  have hnot : (t.install o).1 ∉ own := fun hm => h.live _ hm hfree
  have hkeep : ∀ g, g ≠ (t.install o).1 → (t.install o).2.getFd g = t.getFd g :=
    fun g hg => getFd_install_other t o hg
  have hframe : Frame N M s (t.install o).2 := by
    refine ⟨h.next, fun g x hg => ?_, h.tree, h.made, h.node⟩
    have ht := h.fds g x hg
    rw [hkeep g fun he => by rw [he, hfree] at ht; cases ht]
    exact ht
  have hlive : ∀ g ∈ insert (t.install o).1 own, (t.install o).2.getFd g ≠ none := by
    intro g hg
    by_cases he : g = (t.install o).1
    · rw [he, getFd_install]
      exact Option.some_ne_none o
    · rw [hkeep g he]
      exact h.live g (hg.resolve_left he)
  have hfresh : ∀ g ∈ insert (t.install o).1 own, s.getFd g = none := by
    intro g hg
    rcases hg with rfl | hg
    · cases hs : s.getFd (t.install o).1 with
      | none => rfl
      | some x =>
          rw [h.fds _ x hs] at hfree
          cases hfree
    · exact h.fresh g hg
  have hreach : ∀ g ∈ wr, ∀ x, (t.install o).2.getFd g = some x → s.Mine M x.ino := by
    intro g hg x hx
    rw [hkeep g fun he => hnot (he ▸ h.sub hg)] at hx
    exact h.reach g hg x hx
  refine ⟨hnot, ⟨hframe, hlive, hfresh, Set.Subset.trans h.sub (Set.subset_insert _ _), hreach⟩, fun hm => ?_⟩
  refine ⟨hframe, hlive, hfresh, Set.insert_subset_insert h.sub, ?_⟩
  intro g hg x hx
  rcases hg with rfl | hg
  · rw [getFd_install] at hx
    obtain rfl := Option.some.inj hx
    exact hm
  · exact hreach g hg x hx

/-- An own descriptor's table entry changes, but not its file. -/
private theorem Within.setFd {g : Int} {o x : OpenFile} (h : Within N M s t own wr) (hg : g ∈ own)
    (ho : t.getFd g = some o) (hx : x.ino = o.ino) : Within N M s (t.setFd g (some x)) own wr := by
  have hne : t.getFd g ≠ none := h.live g hg
  have hkeep : ∀ g', g' ≠ g → (t.setFd g (some x)).getFd g' = t.getFd g' := by
    intro g' he
    rw [getFd_setFd t g g' _ hne, if_neg he]
  have hself : (t.setFd g (some x)).getFd g = some x := by rw [getFd_setFd t g g _ hne, if_pos rfl]
  refine ⟨⟨h.next, fun g' y hy => ?_, h.tree, h.made, h.node⟩, fun g' hg' => ?_, h.fresh, h.sub,
    fun g' hg' y hy => ?_⟩
  · rw [hkeep g' fun he => by rw [he, h.fresh g hg] at hy; cases hy]
    exact h.fds g' y hy
  · by_cases he : g' = g
    · rw [he, hself]
      exact Option.some_ne_none x
    · rw [hkeep g' he]
      exact h.live g' hg'
  · by_cases he : g' = g
    · rw [he, hself] at hy
      obtain rfl := Option.some.inj hy
      rw [hx]
      exact h.reach g (he ▸ hg') o ho
    · rw [hkeep g' he] at hy
      exact h.reach g' hg' y hy

/-- An own descriptor is closed. -/
private theorem Within.unset {g : Int} (h : Within N M s t own wr) (hg : g ∈ own) :
    Within N M s (t.setFd g none) (own \ {g}) (wr \ {g}) := by
  have hkeep : ∀ g', g' ≠ g → (t.setFd g none).getFd g' = t.getFd g' := by
    intro g' he
    rw [getFd_setFd t g g' _ (h.live g hg), if_neg he]
  refine ⟨⟨h.next, fun g' y hy => ?_, h.tree, h.made, h.node⟩, fun g' hg' => ?_,
    fun g' hg' => h.fresh g' hg'.1, fun _ hx => ⟨h.sub hx.1, hx.2⟩, fun g' hg' y hy => ?_⟩
  · rw [hkeep g' fun he => by rw [he, h.fresh g hg] at hy; cases hy]
    exact h.fds g' y hy
  · rw [hkeep g' hg'.2]
    exact h.live g' hg'.1
  · rw [hkeep g' hg'.2] at hy
    exact h.reach g' hg'.1 y hy

/-- Fewer descriptors to care for. -/
theorem Within.forget (h : Within N M s t own wr) (g : Int) :
    Within N M s t (own \ {g}) (wr \ {g}) :=
  ⟨h.toFrame, fun g' hg' => h.live g' hg'.1, fun g' hg' => h.fresh g' hg'.1,
    fun _ hx => ⟨h.sub hx.1, hx.2⟩, fun g' hg' => h.reach g' hg'.1⟩

/-- A file that the program may change gets new contents. -/
private theorem Within.setNode {i : Nat} (h : Within N M s t own wr) (hi : s.Mine M i) (f : File) :
    Within N M s (t.setNode i f) own wr := by
  refine h.files rfl fun hf => ⟨hf.next, hf.fds, hf.tree, hf.made, fun j hj => ?_⟩
  have hne : j ≠ i := fun he => hj (he ▸ hi)
  simp only [Fs.setNode, Function.update_of_ne hne]
  exact hf.node j hj

/-- A new file in `M`. -/
private theorem Within.link {q : Path} (h : Within N M s t own wr) (hq : q ∈ M)
    (hfree : t.tree q = none) (mode : Nat) : Within N M s (t.link q mode) own wr := by
  refine h.files rfl fun hf => ⟨Nat.le_succ_of_le hf.next, hf.fds, fun q' j hn hj => ?_,
    fun q' hq' j hj => ?_, fun j hj => ?_⟩
  · have ht := hf.tree q' j hn hj
    have hne : q' ≠ q := by
      rintro rfl
      rw [hfree] at ht
      cases ht
    simpa only [Fs.link, Function.update_of_ne hne] using ht
  · by_cases hne : q' = q
    · subst hne
      simp only [Fs.link, Function.update_self, Option.some.injEq, Entry.file.injEq] at hj
      exact Or.inl (hj ▸ hf.next)
    · simp only [Fs.link, Function.update_of_ne hne] at hj
      exact hf.made q' hq' j hj
  · have hne : j ≠ t.next := fun he => hj (Or.inl (he ▸ hf.next))
    simp only [Fs.link, Function.update_of_ne hne]
    exact hf.node j hj

/-- Opening a file: with `O_CREAT` or `O_TRUNC` only in `M`. -/
theorem Within.openFile {q : Path} {fl : Flags} {mode : Nat} {fd : Int}
    (h : Within N M s t own wr) (ho : t.openFile q fl mode = .ok (fd, u)) :
    0 ≤ fd ∧ fd ∉ own ∧
      (fl.creat = false → fl.trunc = false → Within N M s u (insert fd own) wr) ∧
      (q ∈ M → Within N M s u (insert fd own) (insert fd wr)) := by
  unfold Fs.openFile at ho
  split at ho
  · cases ho
  · next i hi =>
    obtain ⟨rfl, rfl⟩ := Prod.mk.inj (Except.ok.inj ho)
    by_cases htr : fl.trunc = true
    · simp only [htr, if_true]
      have hnot := (h.install ⟨i, 0, fl.append⟩).1
      refine ⟨Int.natCast_nonneg _, hnot, fun _ hf => absurd hf (by simp), fun hq => ?_⟩
      have hm := h.made q hq i hi
      exact ((h.setNode hm _).install ⟨i, 0, fl.append⟩).2.2 hm
    · simp only [htr, Bool.false_eq_true, if_false]
      obtain ⟨hnot, hread, hwrite⟩ := h.install ⟨i, 0, fl.append⟩
      exact ⟨Int.natCast_nonneg _, hnot, fun _ _ => hread, fun hq => hwrite (h.made q hq i hi)⟩
  · next hfree =>
    split at ho
    · next hc =>
      split at ho
      · obtain ⟨rfl, rfl⟩ := Prod.mk.inj (Except.ok.inj ho)
        refine ⟨Int.natCast_nonneg _, (h.install ⟨t.next, 0, fl.append⟩).1,
          fun hf => absurd hc (by simp [hf]), fun hq => ?_⟩
        exact ((h.link hq hfree mode).install ⟨t.next, 0, fl.append⟩).2.2 (Or.inl h.next)
      · cases ho
    · cases ho

/-- Reading through an own descriptor. -/
theorem Within.read {g : Int} {n : Nat} {d : Bytes} (h : Within N M s t own wr) (hg : g ∈ own)
    (hr : t.read g n = .ok (d, u)) : Within N M s u own wr := by
  unfold Fs.read at hr
  split at hr
  · cases hr
  · next o ho =>
    obtain ⟨-, rfl⟩ := Prod.mk.inj (Except.ok.inj hr)
    exact h.setFd hg ho rfl

/-- Writing through a descriptor for writing. -/
theorem Within.write {g : Int} {d : Bytes} {r : Int} (h : Within N M s t own wr) (hg : g ∈ wr)
    (hw : t.write g d = .ok (r, u)) : Within N M s u own wr := by
  unfold Fs.write at hw
  split at hw
  · cases hw
  · next o ho =>
    split at hw
    · obtain ⟨-, rfl⟩ := Prod.mk.inj (Except.ok.inj hw)
      exact h
    · obtain ⟨-, rfl⟩ := Prod.mk.inj (Except.ok.inj hw)
      exact (h.setNode (h.reach g hg o ho) _).setFd (h.sub hg) ho rfl

theorem Within.pwrite {g : Int} {d : Bytes} {off : Nat} {r : Int} (h : Within N M s t own wr)
    (hg : g ∈ wr) (hw : t.pwrite g d off = .ok (r, u)) : Within N M s u own wr := by
  unfold Fs.pwrite at hw
  split at hw
  · cases hw
  · next o ho =>
    split at hw
    · obtain ⟨-, rfl⟩ := Prod.mk.inj (Except.ok.inj hw)
      exact h
    · obtain ⟨-, rfl⟩ := Prod.mk.inj (Except.ok.inj hw)
      exact h.setNode (h.reach g hg o ho) _

theorem Within.close {g r : Int} (h : Within N M s t own wr) (hg : g ∈ own)
    (hc : t.close g = .ok (r, u)) : Within N M s u (own \ {g}) (wr \ {g}) := by
  unfold Fs.close at hc
  split at hc
  · cases hc
  · obtain ⟨-, rfl⟩ := Prod.mk.inj (Except.ok.inj hc)
    exact h.unset hg

/-- A name in `N` goes. -/
private theorem Within.drop {q : Path} (h : Within N M s t own wr) (hq : q ∈ N) :
    Within N M s (t.drop q) own wr := by
  refine h.files rfl fun hf => ⟨hf.next, hf.fds, fun q' j hn hj => ?_, fun q' hq' j hj => ?_,
    hf.node⟩
  · have hne : q' ≠ q := fun he => hn (he ▸ hq)
    simpa only [Fs.drop, Function.update_of_ne hne] using hf.tree q' j hn hj
  · by_cases hne : q' = q
    · simp [Fs.drop, hne] at hj
    · simp only [Fs.drop, Function.update_of_ne hne] at hj
      exact hf.made q' hq' j hj

theorem Within.remove {q : Path} {r : Int} (h : Within N M s t own wr) (hq : q ∈ N)
    (hr : t.remove q = .ok (r, u)) : Within N M s u own wr := by
  have hu : u = t.drop q := by
    unfold Fs.remove at hr
    split at hr
    · unfold Fs.rmdir at hr
      split at hr
      · split at hr
        · cases hr
        · exact (Prod.mk.inj (Except.ok.inj hr)).2.symm
      · cases hr
      · cases hr
    · unfold Fs.unlink at hr
      split at hr
      · exact (Prod.mk.inj (Except.ok.inj hr)).2.symm
      · cases hr
      · cases hr
  rw [hu]
  exact h.drop hq

/-- A file of the program takes the place of a name in `N`. -/
theorem Within.rename {q q' : Path} {r : Int} (h : Within N M s t own wr) (hq : q ∈ N)
    (hm : q ∈ M) (hq' : q' ∈ N) (hr : t.rename q q' = .ok (r, u)) : Within N M s u own wr := by
  have hu : u = t.move q q' := by
    unfold Fs.rename at hr
    split at hr
    · cases hr
    · cases hr
    · cases hr
    · exact (Prod.mk.inj (Except.ok.inj hr)).2.symm
  rw [hu]
  refine h.files rfl fun hf => ⟨hf.next, hf.fds, fun x j hn hj => ?_, fun x hx j hj => ?_, hf.node⟩
  · have hne : x ≠ q := fun he => hn (he ▸ hq)
    have hne' : x ≠ q' := fun he => hn (he ▸ hq')
    simpa only [Fs.move, Function.update_of_ne hne', Function.update_of_ne hne]
      using hf.tree x j hn hj
  · by_cases hne' : x = q'
    · subst hne'
      simp only [Fs.move, Function.update_self] at hj
      exact hf.made q hm j hj
    · by_cases hne : x = q
      · simp [Fs.move, hne, Function.update_of_ne (hne ▸ hne')] at hj
      · simp only [Fs.move, Function.update_of_ne hne', Function.update_of_ne hne] at hj
        exact hf.made x hx j hj

end Fs

/-- The result of a call that hands on what it got. -/
theorem map_eq_ok {ε α β : Type} {x : Except ε α} {f : α → β} {b : β} :
    x.map f = .ok b ↔ ∃ a, x = .ok a ∧ f a = b := by
  cases x <;> simp [Except.map]

/-- A call either fails and leaves the files, or succeeds and moves at most what its limit allows. -/
theorem Sys.exec_cases (c : Sys) (s : Proc) :
    ((c.exec s).1 = c.failed ∧ (c.exec s).2.fs = s.fs) ∨
      ∃ limit, c.perform limit s.fs = .ok ((c.exec s).1, (c.exec s).2.fs) := by
  have hfinish : ∀ limit fs, (c.finish { s with faults := fs } (c.perform limit s.fs)).1 =
        c.failed ∧ (c.finish { s with faults := fs } (c.perform limit s.fs)).2.fs = s.fs ∨
      c.perform limit s.fs = .ok ((c.finish { s with faults := fs } (c.perform limit s.fs)).1,
        (c.finish { s with faults := fs } (c.perform limit s.fs)).2.fs) := by
    intro limit fs
    cases hp : c.perform limit s.fs with
    | error e => exact Or.inl ⟨rfl, rfl⟩
    | ok r => exact Or.inr rfl
  unfold Sys.exec
  cases hf : s.faults with
  | nil => exact (hfinish none s.faults).imp_right fun h => ⟨none, h⟩
  | cons f fs =>
      cases f with
      | ok => exact (hfinish none fs).imp_right fun h => ⟨none, h⟩
      | fail e => exact Or.inl ⟨rfl, rfl⟩
      | short n => exact (hfinish (some n) fs).imp_right fun h => ⟨some n, h⟩

end Posix
