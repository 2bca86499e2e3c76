import Afs.Core.Catalog
import Mathlib.Data.List.Nodup
import Mathlib.Data.List.TakeWhile

/-!
# Catalogs that are trees

Below the top directory every name lies in a directory, and the directory order has every name once. The
calls that change names keep this, and in such a catalog a directory's entries are the names in it, each
listed once.
-/

namespace Posix

section Paths

variable {p q dir name : Path}

theorem slash_notMem_baseName (q : Path) : slash ∉ baseName q := by
  intro h
  have hmem := List.mem_takeWhile_imp (List.mem_reverse.mp h)
  simp at hmem

/-- A path with a separator is its directory, the separator and its last component. -/
theorem parent_append_baseName (h : slash ∈ q) : parent q ++ slash :: baseName q = q := by
  have hsplit := List.takeWhile_append_dropWhile (p := (· != slash)) (l := q.reverse)
  cases hd : q.reverse.dropWhile (· != slash) with
  | nil =>
      rw [hd, List.append_nil] at hsplit
      have hmem : slash ∈ q.reverse.takeWhile (· != slash) := by
        rw [hsplit]
        exact List.mem_reverse.mpr h
      simpa using List.mem_takeWhile_imp hmem
  | cons b t =>
      have hb : (b != slash) = false := by
        have hhead := List.head?_dropWhile_not (· != slash) q.reverse
        rw [hd] at hhead
        simpa using hhead
      obtain rfl : b = slash := by simpa using hb
      have hq := congrArg List.reverse hsplit
      rw [hd, List.reverse_append, List.reverse_cons, List.reverse_reverse, List.append_assoc] at hq
      simp only [parent, baseName, hd, List.drop_one, List.tail_cons]
      exact hq

/-- The last component ends at the last separator. -/
theorem parent_baseName_append (dir : Path) (h : slash ∉ name) :
    parent (dir ++ slash :: name) = dir ∧ baseName (dir ++ slash :: name) = name := by
  have hall : ∀ b ∈ name.reverse, (b != slash) = true := by
    intro b hb
    simp only [bne_iff_ne, ne_eq]
    rintro rfl
    exact h (List.mem_reverse.mp hb)
  unfold parent baseName
  rw [List.reverse_append, List.reverse_cons, List.append_assoc, List.dropWhile_append_of_pos hall,
    List.takeWhile_append_of_pos hall]
  simp

/-- Only a path with a separator lies in a directory that has a name. -/
theorem slash_mem_of_parent (h : parent q ≠ []) : slash ∈ q := by
  by_contra hno
  apply h
  have hall : ∀ b ∈ q.reverse, (b != slash) = true := by
    intro b hb
    simp only [bne_iff_ne, ne_eq]
    rintro rfl
    exact hno (List.mem_reverse.mp hb)
  simp only [parent, List.dropWhile_eq_nil_iff.mpr hall, List.drop_nil, List.reverse_nil]

end Paths

namespace Catalog

/-- Below the top every name is in a directory, and the order has the names. -/
structure Tree (top : Path) (C : Catalog) : Prop where
  /-- No name is listed twice. -/
  nodup : C.order.Nodup
  /-- Every name below the top is listed. -/
  listed : ∀ q, C.item q ≠ none → q = top ∨ q ∈ C.order
  /-- What is listed is there. -/
  there : ∀ q ∈ C.order, C.item q ≠ none
  /-- Every name below the top is in a directory. -/
  closed : ∀ q, C.item q ≠ none → q = top ∨ C.isDir (parent q) = true

namespace Tree

variable {C D : Catalog} {top p q : Path} {now : Timespec} {mode : Nat}

/-- A name that stands for something else of its kind. -/
theorem put {x y : Item} (h : C.Tree top) (hp : C.item p = some x)
    (hdir : (C.put p y).isDir p = C.isDir p) : (C.put p y).Tree top := by
  have hitem : ∀ q, (C.put p y).item q ≠ none ↔ C.item q ≠ none := by
    intro q
    by_cases hq : q = p
    · subst hq
      simp only [Catalog.put, Function.update_self, hp, ne_eq, reduceCtorEq, not_false_iff]
    · simp only [Catalog.put, Function.update_of_ne hq]
  have hisDir : (C.put p y).isDir = C.isDir := by
    funext q
    by_cases hq : q = p
    · rw [hq, hdir]
    · simp only [isDir, Catalog.put, Function.update_of_ne hq]
  refine ⟨h.nodup, fun q hq => h.listed q ((hitem q).mp hq), fun q hq => (hitem q).mpr (h.there q hq),
    fun q hq => ?_⟩
  rw [hisDir]
  exact h.closed q ((hitem q).mp hq)

/-- A new name in a directory. -/
theorem add (h : C.Tree top) (hp : C.item p = none) (hdir : C.isDir (parent p) = true) {x : Item}
    (hitem : D.item = Function.update C.item p (some x)) (horder : D.order = C.order ++ [p]) :
    D.Tree top := by
  have hne : ∀ q, C.item q ≠ none → q ≠ p := fun q hq he => hq (he ▸ hp)
  have hold : ∀ q, q ≠ p → D.item q = C.item q := fun q hq => by rw [hitem, Function.update_of_ne hq]
  have hkeep : ∀ q, C.isDir q = true → D.isDir q = true := by
    intro q hq
    have hqp : q ≠ p := by
      rintro rfl
      simp only [isDir, hp, Bool.false_eq_true] at hq
    unfold isDir at hq ⊢
    rwa [hold q hqp]
  have hnotin : p ∉ C.order := fun hmem => h.there p hmem hp
  constructor
  · rw [horder]
    exact List.nodup_append.mpr ⟨h.nodup, List.nodup_singleton p, fun a ha b hb he =>
      hnotin ((List.mem_singleton.mp hb) ▸ he ▸ ha)⟩
  · intro q hq
    rw [horder]
    by_cases hqp : q = p
    · exact Or.inr (List.mem_append_right _ (List.mem_singleton.mpr hqp))
    · rw [hold q hqp] at hq
      exact (h.listed q hq).imp_right (List.mem_append_left _)
  · intro q hq
    rw [horder, List.mem_append, List.mem_singleton] at hq
    rcases hq with hin | rfl
    · rw [hold q (hne q (h.there q hin))]
      exact h.there q hin
    · rw [hitem, Function.update_self]
      exact Option.some_ne_none x
  · intro q hq
    by_cases hqp : q = p
    · rw [hqp]
      exact Or.inr (hkeep _ hdir)
    · rw [hold q hqp] at hq
      exact (h.closed q hq).imp_right (hkeep _)

/-- A name taken away that nothing lies in. -/
theorem drop (h : C.Tree top) (hempty : ∀ q, C.item q ≠ none → q ≠ top → parent q ≠ p) :
    (C.drop now p).Tree top := by
  have hitem : ∀ q, (C.drop now p).item q ≠ none → q ≠ p ∧ C.item q ≠ none := by
    intro q hq
    by_cases hqp : q = p
    · exact absurd (by simp only [Catalog.drop, hqp, Function.update_self]) hq
    · simp only [Catalog.drop, Function.update_of_ne hqp] at hq
      exact ⟨hqp, hq⟩
  constructor
  · exact h.nodup.erase p
  · intro q hq
    obtain ⟨hqp, hq'⟩ := hitem q hq
    exact (h.listed q hq').imp_right fun hin => (List.mem_erase_of_ne hqp).mpr hin
  · intro q hq
    obtain ⟨hqp, hin⟩ := h.nodup.mem_erase_iff.mp hq
    simp only [Catalog.drop, Function.update_of_ne hqp]
    exact h.there q hin
  · intro q hq
    obtain ⟨hqp, hq'⟩ := hitem q hq
    by_cases htop : q = top
    · exact Or.inl htop
    · have hdir := (h.closed q hq').resolve_left htop
      have hpar := hempty q hq' htop
      right
      unfold isDir at hdir ⊢
      simpa only [Catalog.drop, Function.update_of_ne hpar] using hdir

theorem opened {fl : Flags} (h : C.Tree top) (ho : C.opened now p fl mode = .ok D) : D.Tree top := by
  unfold Catalog.opened at ho
  split at ho
  · cases ho
  · next i f hi =>
    obtain rfl := Except.ok.inj ho
    split
    · exact h.put hi (by simp only [isDir, Catalog.put, Function.update_self, hi])
    · exact h
  · next hp =>
    split at ho
    · split at ho
      · next hdir =>
        obtain rfl := Except.ok.inj ho
        exact h.add hp hdir rfl rfl
      · cases ho
    · cases ho

theorem fill (h : C.Tree top) (b : Bytes) : (C.fill now p b).Tree top := by
  unfold Catalog.fill
  split
  · next i f hi =>
    split
    · exact h
    · exact h.put hi (by simp only [isDir, Catalog.put, Function.update_self, hi])
  · exact h

theorem unlink (h : C.Tree top) (ho : C.unlink now p = .ok D) : D.Tree top := by
  unfold Catalog.unlink at ho
  split at ho
  · next i f hi =>
    obtain rfl := Except.ok.inj ho
    refine h.drop fun q hq htop hpar => ?_
    have hdir := (h.closed q hq).resolve_left htop
    simp only [hpar, isDir, hi, Bool.false_eq_true] at hdir
  · cases ho
  · cases ho

theorem rmdir (h : C.Tree top) (ho : C.rmdir now p = .ok D) : D.Tree top := by
  unfold Catalog.rmdir at ho
  split at ho
  · split at ho
    · cases ho
    · next hany =>
      obtain rfl := Except.ok.inj ho
      refine h.drop fun q hq htop hpar => hany ?_
      rw [List.any_eq_true]
      exact ⟨q, (h.listed q hq).resolve_left htop, beq_iff_eq.mpr hpar⟩
  · cases ho
  · cases ho

theorem mkdir (h : C.Tree top) (ho : C.mkdir now p mode = .ok D) : D.Tree top := by
  unfold Catalog.mkdir at ho
  split at ho
  · cases ho
  · next hp =>
    split at ho
    · cases ho
    split at ho
    · next hdir =>
      obtain rfl := Except.ok.inj ho
      exact h.add hp hdir rfl (if_neg fun hmem => h.there p (List.contains_iff_mem.mp hmem) hp)
    · cases ho

/-- The attributes of directories do not matter. -/
theorem setDir (h : C.Tree top) (d : Path) (a : Attr) : (C.setDir d a).Tree top :=
  ⟨h.nodup, h.listed, h.there, h.closed⟩

theorem chmod (h : C.Tree top) (ho : C.chmod now p mode = .ok D) : D.Tree top := by
  unfold Catalog.chmod at ho
  split at ho
  · next i f hi =>
    obtain rfl := Except.ok.inj ho
    exact h.put hi (by simp only [isDir, Catalog.put, Function.update_self, hi])
  · obtain rfl := Except.ok.inj ho
    exact h.setDir p _
  · split at ho
    · obtain rfl := Except.ok.inj ho
      exact h.setDir _ _
    · cases ho

/-- The entries of a directory are the names in it, each once. -/
theorem entries (h : C.Tree top) (hp : p ≠ []) (htop : parent top ≠ p) :
    ∃ l, C.entries p = [46] :: [46, 46] :: l ∧ l.Nodup ∧
      ∀ n, n ∈ l ↔ slash ∉ n ∧ C.item (p ++ slash :: n) ≠ none := by
  refine ⟨_, rfl, ?_, fun n => ?_⟩
  · have hnodup := h.nodup.filter (fun q => parent q == p)
    refine List.Nodup.map_on (fun q hq q' hq' he => ?_) hnodup
    have hpar := beq_iff_eq.mp (List.mem_filter.mp hq).2
    have hpar' := beq_iff_eq.mp (List.mem_filter.mp hq').2
    calc q = parent q ++ slash :: baseName q :=
          (parent_append_baseName (slash_mem_of_parent (hpar ▸ hp))).symm
      _ = parent q' ++ slash :: baseName q' := by rw [hpar, hpar', he]
      _ = q' := parent_append_baseName (slash_mem_of_parent (hpar' ▸ hp))
  · constructor
    · intro hn
      obtain ⟨q, hq, rfl⟩ := List.mem_map.mp hn
      obtain ⟨hin, hpar⟩ := List.mem_filter.mp hq
      have hpar := beq_iff_eq.mp hpar
      refine ⟨slash_notMem_baseName q, ?_⟩
      rw [← hpar, parent_append_baseName (slash_mem_of_parent (hpar ▸ hp))]
      exact h.there q hin
    · rintro ⟨hn, hitem⟩
      obtain ⟨hpar, hbase⟩ := parent_baseName_append p hn
      refine List.mem_map.mpr ⟨p ++ slash :: n, List.mem_filter.mpr ⟨?_, beq_iff_eq.mpr hpar⟩, hbase⟩
      refine (h.listed _ hitem).resolve_left fun he => htop ?_
      rw [← he, hpar]

end Tree

end Catalog

end Posix
