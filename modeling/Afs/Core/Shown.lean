import Afs.Core.Faults
import Afs.Core.Frames

/-!
# What a name shows

The bytes and the mode of the file under a name, or the mode of the directory. Owners and times are
left out.
-/

namespace Posix

namespace Fs

/-- The mode of what a name stands for and, for a file, its bytes. -/
def shown (s : Fs) (p : Path) : Option (Nat × Option Bytes) :=
  match s.tree p with
  | some (.file i) => some ((s.node i).mode, some (s.node i).bytes)
  | some .dir => some ((s.dirs p).mode, none)
  | none => none

variable {s t : Fs} {p q : Path} {i : Nat}

theorem shown_of_file (h : s.tree p = some (.file i)) :
    s.shown p = some ((s.node i).mode, some (s.node i).bytes) := by
  simp only [shown, h]

theorem shown_of_dir (h : s.tree p = some .dir) : s.shown p = some ((s.dirs p).mode, none) := by
  simp only [shown, h]

theorem shown_eq_none : s.shown p = none ↔ s.tree p = none := by
  unfold shown
  split <;> simp_all

theorem shown_congr (htree : t.tree = s.tree) (hnode : t.node = s.node) (hdirs : t.dirs = s.dirs) :
    t.shown = s.shown := by
  ext1 p
  simp only [shown, htree, hnode, hdirs]

/-- A stamp on a directory does not show. -/
@[simp] theorem touched_mode (s : Fs) (p q : Path) : (s.touched p q).mode = (s.dirs q).mode := by
  unfold touched
  by_cases h : q = p
  · rw [h, Function.update_self]
  · rw [Function.update_of_ne h]

theorem shown_of_look {f : File} (h : s.look p = some f) : s.shown p = some (f.mode, some f.bytes) := by
  obtain ⟨i, ht, rfl⟩ := look_eq_some.mp h
  exact shown_of_file ht

/-- Another file in the place of an inode changes what its name shows. -/
theorem shown_setNode (h : s.tree p = some (.file i)) (f : File) :
    (s.setNode i f).shown = Function.update s.shown p (some (f.mode, some f.bytes)) := by
  ext1 q
  by_cases hq : q = p
  · subst hq
    rw [Function.update_self, shown_of_file (s := s.setNode i f) h]
    simp only [setNode, Function.update_self]
  · rw [Function.update_of_ne hq]
    cases ht : s.tree q with
    | none =>
        rw [shown_eq_none.mpr ht]
        exact shown_eq_none.mpr ht
    | some e =>
        cases e with
        | dir =>
            rw [shown_of_dir ht]
            exact shown_of_dir ht
        | file j =>
            have hne : j ≠ i := fun he => hq (s.tree_inj q p j ht (he ▸ h))
            rw [shown_of_file ht, shown_of_file (s := s.setNode i f) ht]
            simp only [setNode, Function.update_of_ne hne]

theorem shown_drop (s : Fs) (p : Path) : (s.drop p).shown = Function.update s.shown p none := by
  ext1 q
  by_cases hq : q = p
  · subst hq
    rw [Function.update_self, shown_eq_none]
    exact Function.update_self _ _ _
  · rw [Function.update_of_ne hq]
    simp only [shown, drop, Function.update_of_ne hq, touched_mode]

/-- Other attributes of a directory show its mode. -/
theorem shown_setDir (h : s.tree p = some .dir) (a : Attr) :
    (s.setDir p a).shown = Function.update s.shown p (some (a.mode, none)) := by
  ext1 q
  by_cases hq : q = p
  · subst hq
    rw [Function.update_self, shown_of_dir (s := s.setDir q a) h]
    simp only [setDir, Function.update_self]
  · rw [Function.update_of_ne hq]
    simp only [shown, setDir, Function.update_of_ne hq]

/-- Emptying a file that is opened shows no bytes. -/
theorem openFile_trunc_shown {f : File} (h : s.look p = some f) (fl : Flags) (hfl : fl.trunc = true)
    (mode : Nat) :
    ∃ (fd : Int) (t : Fs), s.openFile p fl mode = .ok (fd, t) ∧ t.Holds fd p 0 fl.append ∧
      t.shown = Function.update s.shown p (some (f.mode, some [])) := by
  obtain ⟨i, ht, rfl⟩ := look_eq_some.mp h
  refine ⟨((s.setBytes i []).install ⟨i, 0, fl.append⟩).1,
    ((s.setBytes i []).install ⟨i, 0, fl.append⟩).2, ?_, ⟨i, getFd_install _ _, ht⟩, ?_⟩
  · simp only [openFile, ht, hfl, if_true]
  · exact shown_setNode ht _

/-- Bytes written into an empty file are what it shows then. -/
theorem write_shown {fd : Int} {app : Bool} {m : Nat} (h : s.Holds fd p 0 app)
    (hp : s.shown p = some (m, some [])) (d : Bytes) :
    ∃ t, s.write fd d = .ok ((d.length : Int), t) ∧
      t.shown = Function.update s.shown p (some (m, some d)) := by
  obtain ⟨i, hfd, ht⟩ := h
  rw [shown_of_file ht] at hp
  obtain ⟨hm, hb⟩ := Prod.mk.inj (Option.some.inj hp)
  replace hb : (s.node i).bytes = [] := Option.some.inj hb
  by_cases hd : d = []
  · subst hd
    refine ⟨s, by simp [write, hfd], ?_⟩
    rw [← hm, ← hb, ← shown_of_file ht, Function.update_eq_self]
  · refine ⟨(s.setBytes i d).setFd fd (some ⟨i, d.length, app⟩), ?_, ?_⟩
    · simp only [write, hfd, hd, if_false, hb, List.length_nil, ite_self, Nat.zero_add,
        splice_nil_zero]
    · rw [← hm]
      exact shown_setNode ht _

/-- Changing what a name shows is seen. -/
theorem update_shown_eq_iff {x : Option (Nat × Option Bytes)} :
    Function.update s.shown p x = s.shown ↔ x = s.shown p := Function.update_eq_self_iff

end Fs

section Calls

variable {v : Proc} {p : Path}

/-- With no faults to come, a call shows what its performance leaves, or nothing new. -/
theorem Sys.exec_shown {c : Sys} (hf : v.faults = []) :
    (c.exec v).2.fs.shown = match c.perform none v.fs with
      | .ok r => r.2.shown
      | .error _ => v.fs.shown := by
  unfold Sys.exec
  rw [hf]
  cases c.perform none v.fs <;> rfl

/-- Unlinking changes nothing exactly when there is no file. -/
theorem Sys.unlink_shown_iff (hf : v.faults = []) :
    ((Sys.unlink p).exec v).2.fs.shown = v.fs.shown ↔ v.fs.look p = none := by
  rw [Sys.exec_shown hf]
  cases ht : v.fs.tree p with
  | none => simp [Sys.perform, Fs.unlink, ht, Fs.look]
  | some e =>
      cases e with
      | dir => simp [Sys.perform, Fs.unlink, ht, Fs.look]
      | file i => simp [Sys.perform, Fs.unlink, ht, Fs.look, Fs.shown_drop, Fs.shown_of_file ht]

/-- Removing a directory changes nothing exactly when there is none that is empty. -/
theorem Sys.rmdir_shown_iff (hf : v.faults = []) :
    ((Sys.rmdir p).exec v).2.fs.shown = v.fs.shown ↔
      ¬ (v.fs.isDir p = true ∧ ∀ q ∈ v.fs.listing, parent q ≠ p) := by
  rw [Sys.exec_shown hf]
  cases ht : v.fs.tree p with
  | none => simp [Sys.perform, Fs.rmdir, ht, Fs.isDir]
  | some e =>
      cases e with
      | file i => simp [Sys.perform, Fs.rmdir, ht, Fs.isDir]
      | dir =>
          have hdir : v.fs.isDir p = true := by simp only [Fs.isDir, ht]
          simp only [hdir, true_and, Sys.perform, Fs.rmdir, ht]
          by_cases hany : v.fs.listing.any (fun q => parent q == p) = true
          · rw [if_pos hany]
            refine iff_of_true rfl fun hall => ?_
            rcases List.any_eq_true.mp hany with ⟨q, hq, he⟩
            exact hall q hq (eq_of_beq he)
          · rw [if_neg hany]
            refine iff_of_false ?_ (not_not.mpr fun q hq he => ?_)
            · change (v.fs.drop p).shown ≠ _
              rw [Fs.shown_drop, Ne, Fs.update_shown_eq_iff, Fs.shown_of_dir ht]
              exact (Option.some_ne_none _).symm
            · exact hany (List.any_eq_true.mpr ⟨q, hq, beq_iff_eq.mpr he⟩)

/-- Changing the mode changes nothing exactly when what is there has these permission bits. -/
theorem Sys.chmod_shown_iff {mode : Nat} (hf : v.faults = []) :
    ((Sys.chmod p mode).exec v).2.fs.shown = v.fs.shown ↔
      ∀ m b, v.fs.shown (v.fs.named p) = some (m, b) → m % 4096 = mode % 4096 := by
  have hmode : ∀ m, m / 4096 * 4096 + mode % 4096 = m ↔ m % 4096 = mode % 4096 := by
    intro m
    omega
  have hdir : ∀ d, v.fs.tree d = some .dir →
      ((v.fs.setDir d (v.fs.altered (fun a => { a with mode := a.mode / 4096 * 4096 + mode % 4096 })
        (v.fs.dirs d))).shown = v.fs.shown ↔ ∀ m b, v.fs.shown d = some (m, b) → m % 4096 = mode % 4096) := by
    intro d hd
    rw [Fs.shown_setDir hd, Fs.update_shown_eq_iff, Fs.shown_of_dir hd]
    simp [hmode, Fs.altered]
  rw [Sys.exec_shown hf]
  cases ht : v.fs.tree p with
  | none =>
      cases htrim : v.fs.isDir (trimmed p) with
      | false => simp [Sys.perform, Fs.chattr, Fs.named, ht, htrim, Fs.shown_eq_none.mpr ht]
      | true =>
          simp only [Sys.perform, Fs.chattr, Fs.named, ht, htrim, if_true]
          exact hdir _ (Fs.tree_of_isDir htrim)
  | some e =>
      have hnamed : v.fs.named p = p := Fs.named_of_tree (by simp only [ht, ne_eq, reduceCtorEq, not_false_iff])
      rw [hnamed]
      cases e with
      | dir =>
          simp only [Sys.perform, Fs.chattr, ht]
          exact hdir p ht
      | file i =>
          simp only [Sys.perform, Fs.chattr, ht]
          change (v.fs.setNode i _).shown = _ ↔ _
          rw [Fs.shown_setNode ht, Fs.update_shown_eq_iff, Fs.shown_of_file ht]
          simp [hmode, Fs.altered]

/-- A call that makes, fills or closes files, and removes none. -/
def Sys.Adds : Sys → Prop
  | .openF .. | .write .. | .close _ => True
  | _ => False

/-- Such a call keeps every name. -/
theorem Sys.Adds.keeps {c : Sys} (hc : c.Adds) (h : v.fs.tree p ≠ none) :
    (c.exec v).2.fs.tree p ≠ none := by
  rcases c.exec_cases v with ⟨-, hs⟩ | ⟨limit, hp⟩
  · rw [hs]
    exact h
  · generalize (c.exec v).1 = r at hp
    generalize (c.exec v).2.fs = t at hp ⊢
    cases c with
    | openF q fl mode =>
        simp only [perform, Fs.openFile] at hp
        split at hp
        · cases hp
        · obtain ⟨-, rfl⟩ := Prod.mk.inj (Except.ok.inj hp)
          split <;> exact h
        · split at hp
          · split at hp
            · obtain ⟨-, rfl⟩ := Prod.mk.inj (Except.ok.inj hp)
              simp only [Fs.link]
              by_cases hq : p = q
              · rw [hq, Function.update_self]
                exact Option.some_ne_none _
              · rw [Function.update_of_ne hq]
                exact h
            · cases hp
          · cases hp
    | write fd mem count =>
        simp only [perform, Fs.write] at hp
        split at hp
        · cases hp
        · split at hp
          · cases hp
          · split at hp <;> obtain ⟨-, rfl⟩ := Prod.mk.inj (Except.ok.inj hp) <;> exact h
    | close fd =>
        simp only [perform, Fs.close] at hp
        split at hp
        · cases hp
        · obtain ⟨-, rfl⟩ := Prod.mk.inj (Except.ok.inj hp)
          exact h
    | _ => exact hc.elim

/-- Opening a file that is there leaves the files. -/
theorem Sys.openF_present {f : File} {fl : Flags} {mode : Nat} (hf : v.faults = [])
    (hl : v.fs.look p = some f) (htrunc : fl.trunc = false) :
    ((Sys.openF p fl mode).exec v).2.fs.tree = v.fs.tree ∧
      ((Sys.openF p fl mode).exec v).2.fs.node = v.fs.node ∧
      ((Sys.openF p fl mode).exec v).2.fs.dirs = v.fs.dirs := by
  obtain ⟨i, ht, -⟩ := Fs.look_eq_some.mp hl
  have hopen : Sys.perform none (.openF p fl mode) v.fs = .ok (v.fs.install ⟨i, 0, fl.append⟩) := by
    simp only [perform, Fs.openFile, ht, htrunc, Bool.false_eq_true, if_false]
  rw [Sys.exec_ok hf hopen]
  exact ⟨rfl, rfl, rfl⟩

/-- An open that fails shows nothing new. -/
theorem Sys.openF_failed_shown {fl : Flags} {mode : Nat} (h : (Sys.openF p fl mode).Fails v) :
    ((Sys.openF p fl mode).exec v).2.fs.shown = v.fs.shown := by
  rcases (Sys.openF p fl mode).exec_cases v with ⟨-, hs⟩ | ⟨limit, hp⟩
  · rw [hs]
  · have hpos : (0 : Int) ≤ ((Sys.openF p fl mode).exec v).1 := Fs.openFile_fd hp
    rw [h] at hpos
    exact absurd hpos (by decide : ¬ (0 : Int) ≤ -1)

/-- Where an open succeeds that finds no file, its directory has nothing of the name before, and
something afterwards. -/
theorem Sys.openF_creates {fl : Flags} {mode : Nat} (hl : v.fs.look p = none)
    (hok : ¬ (Sys.openF p fl mode).Fails v) :
    v.fs.tree p = none ∧ v.fs.isDir (parent p) = true ∧
      ((Sys.openF p fl mode).exec v).2.fs.tree p ≠ none := by
  rcases (Sys.openF p fl mode).exec_cases v with ⟨hfail, -⟩ | ⟨limit, hp⟩
  · exact absurd hfail hok
  · generalize ((Sys.openF p fl mode).exec v).1 = fd at hp
    generalize ((Sys.openF p fl mode).exec v).2.fs = t at hp ⊢
    simp only [perform, Fs.openFile] at hp
    split at hp
    · cases hp
    · next i ht => simp only [Fs.look, ht, reduceCtorEq] at hl
    · next ht =>
      split at hp
      · split at hp
        · next hdir =>
          obtain ⟨-, rfl⟩ := Prod.mk.inj (Except.ok.inj hp)
          refine ⟨ht, hdir, ?_⟩
          simp only [Fs.link, Function.update_self]
          exact Option.some_ne_none _
        · cases hp
      · cases hp

/-- Closing shows nothing new. -/
theorem Sys.close_shown (fd : Int) : ((Sys.close fd).exec v).2.fs.shown = v.fs.shown := by
  rcases (Sys.close fd).exec_cases v with ⟨-, hs⟩ | ⟨limit, hp⟩
  · rw [hs]
  · generalize ((Sys.close fd).exec v).1 = r at hp
    generalize ((Sys.close fd).exec v).2.fs = t at hp ⊢
    simp only [perform, Fs.close] at hp
    split at hp
    · cases hp
    · obtain ⟨-, rfl⟩ := Prod.mk.inj (Except.ok.inj hp)
      rfl

end Calls

end Posix
