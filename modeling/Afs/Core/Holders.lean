import Afs.Core.Elsewhere
import Afs.Core.Names

/-!
# A program with at most one descriptor

A program works on one path and holds at most one descriptor, on a file that has no other name than
that path. `Moves` says what a call of such a program may do to the file system: what it leaves of the
other names, what the path's file may hold afterwards, and which descriptors it opens and closes. All
that another program may rely on follows from it.
-/

namespace Posix

/-- A descriptor in use, and its file offset. -/
structure Hold where
  fd : Int
  offset : Nat

namespace Fs

/-- The descriptor is open at its offset, not for appending, on a file whose only name can be `p`. -/
def Grips (p : Path) (s : Fs) (h : Hold) : Prop :=
  ∃ o, s.getFd h.fd = some o ∧ o.offset = h.offset ∧ o.append = false ∧ o.ino < s.next ∧
    ∀ q, s.tree q = some (.file o.ino) → q = p

/-- What a program on `p` that writes only prefixes of `src` may do to the files in one call. -/
structure Changes (p : Path) (src : Bytes) (s t : Fs) : Prop where
  /-- Other names stand for what they stood for. -/
  same : ∀ x, x ≠ p → Same x s t
  /-- Files are numbered upwards. -/
  next : s.next ≤ t.next
  /-- A name for a file is an old one, or the file is new. -/
  names : ∀ x i, t.tree x = some (.file i) → s.tree x = some (.file i) ∨ s.next ≤ i
  /-- The path's file is empty, or as before, or written at its start. -/
  file : ∀ f', t.look p = some f' → f'.bytes = [] ∨
    ∃ f d, s.look p = some f ∧ d <+: src ∧ f'.bytes = splice f.bytes 0 d
  /-- Other directories are stamped at most. -/
  dirs : ∀ x, x ≠ p → x ≠ trimmed p → (s.dirs x).Restamped (t.dirs x)
  /-- Only the directory of the path is. -/
  beside : ∀ x, x ≠ p → x ≠ trimmed p → x ≠ parent p → t.dirs x = s.dirs x

/-- What it may do to the descriptors as well: it holds `g` before the call and `g'` afterwards. -/
structure Moves (p : Path) (src : Bytes) (s t : Fs) (g g' : Option Hold) : Prop
    extends Changes p src s t where
  /-- Other descriptors are left alone. -/
  fds : ∀ fd, (∀ h ∈ g, h.fd ≠ fd) → (∀ h ∈ g', h.fd ≠ fd) → t.getFd fd = s.getFd fd
  /-- A descriptor that is new was free. -/
  opened : ∀ h ∈ g', (∀ k ∈ g, k.fd ≠ h.fd) → s.getFd h.fd = none
  /-- A descriptor that is given up is closed. -/
  closed : ∀ h ∈ g, (∀ k ∈ g', k.fd ≠ h.fd) → t.getFd h.fd = none
  /-- The held descriptor is as it should be. -/
  grips : ∀ h ∈ g', t.Grips p h

variable {p q x : Path} {src b : Bytes} {s t u : Fs} {g g' : Option Hold} {h : Hold} {fd : Int} {n m i : Nat}

theorem Grips.getFd (h : s.Grips p ⟨fd, n⟩) : s.getFd fd ≠ none := by
  obtain ⟨o, ho, -⟩ := h
  rw [ho]
  exact Option.some_ne_none o

/-- A descriptor that a change of the files leaves alone stays as it is. -/
theorem Grips.changes (hh : s.Grips q h) (hc : Changes p src s t) (hfd : t.getFd h.fd = s.getFd h.fd) :
    t.Grips q h := by
  obtain ⟨o, ho, hoff, happ, hlt, hname⟩ := hh
  refine ⟨o, hfd.trans ho, hoff, happ, Nat.lt_of_lt_of_le hlt hc.next, fun x hx => ?_⟩
  rcases hc.names x o.ino hx with hold | hnew
  · exact hname x hold
  · omega

/-- Another program's descriptor survives the call. -/
theorem Moves.spares (hm : Moves p src s t g g') (hh : s.Grips q h) (hne : ∀ k ∈ g, k.fd ≠ h.fd) :
    t.Grips q h := by
  refine hh.changes hm.toChanges (hm.fds h.fd hne fun k hk he => ?_)
  have hfree := hm.opened k hk fun l hl => he ▸ hne l hl
  exact (he ▸ hh.getFd) hfree

namespace Changes

theorem refl (p : Path) (src : Bytes) (s : Fs) : Changes p src s s where
  same x _ := Same.refl x s
  next := Nat.le_refl _
  names _ _ h := Or.inl h
  file f hf := Or.inr ⟨f, [], hf, List.nil_prefix, by rw [splice_zero]; rfl⟩
  dirs x _ _ := .refl _
  beside _ _ _ _ := rfl

/-- Neither the descriptors nor the clock matter. -/
theorem congr (hc : Changes p src s t) (htree : u.tree = t.tree) (hnode : u.node = t.node)
    (hnext : u.next = t.next) (hdirs : u.dirs = t.dirs) : Changes p src s u where
  same x hx := ⟨htree ▸ (hc.same x hx).tree, hnode ▸ (hc.same x hx).node⟩
  next := hnext ▸ hc.next
  names := htree ▸ hc.names
  file f hf := by
    refine hc.file f ?_
    unfold look at hf ⊢
    rwa [htree, hnode] at hf
  dirs := hdirs ▸ hc.dirs
  beside := hdirs ▸ hc.beside

/-- New bytes for a file without another name. -/
theorem setBytes (hname : ∀ q, s.tree q = some (.file i) → q = p)
    (hb : b = [] ∨ ∃ d, d <+: src ∧ b = splice (s.node i).bytes 0 d) :
    Changes p src s (s.setBytes i b) where
  same x hx := by
    refine ⟨rfl, fun j hj => ?_⟩
    have hne : j ≠ i := fun he => hx (hname x (he ▸ hj))
    exact Function.update_of_ne hne ..
  next := Nat.le_refl _
  names _ _ h := Or.inl h
  file f' hf' := by
    obtain ⟨j, hj, rfl⟩ := look_eq_some.mp hf'
    by_cases hji : j = i
    · subst hji
      rw [show (s.setBytes j b).node j = _ from Function.update_self ..]
      exact hb.imp_right fun ⟨d, hd, he⟩ => ⟨s.node j, d, look_of_tree hj, hd, he⟩
    · rw [show (s.setBytes i b).node j = s.node j from Function.update_of_ne hji ..]
      exact Or.inr ⟨s.node j, [], look_of_tree hj, List.nil_prefix, by rw [splice_zero]; rfl⟩
  dirs x _ _ := .refl _
  beside _ _ _ _ := rfl

/-- Other attributes for the path's file. -/
theorem setAttr {a : Attr} (hi : s.tree p = some (.file i)) :
    Changes p src s (s.setNode i { a with bytes := (s.node i).bytes }) where
  same x hx := by
    refine ⟨rfl, fun j hj => ?_⟩
    have hne : j ≠ i := fun he => hx (s.tree_inj x p i (he ▸ hj) hi)
    exact Function.update_of_ne hne ..
  next := Nat.le_refl _
  names _ _ h := Or.inl h
  file f' hf' := by
    obtain ⟨j, hj, rfl⟩ := look_eq_some.mp hf'
    obtain rfl : j = i := Entry.file.inj (Option.some.inj ((hj.symm.trans hi : _ = _)))
    rw [show (s.setNode j _).node j = _ from Function.update_self ..]
    exact Or.inr ⟨s.node j, [], look_of_tree hi, List.nil_prefix, by rw [splice_zero]; rfl⟩
  dirs x _ _ := .refl _
  beside _ _ _ _ := rfl

/-- Other attributes for a directory that the path stands for. -/
theorem setDir {d : Path} {a : Attr} (hd : d = p ∨ d = trimmed p) : Changes p src s (s.setDir d a) where
  same x _ := ⟨rfl, fun _ _ => rfl⟩
  next := Nat.le_refl _
  names _ _ h := Or.inl h
  file f' hf' := (Changes.refl p src s).file f' hf'
  dirs x hx hx' := by
    rw [show (s.setDir d a).dirs x = s.dirs x from Function.update_of_ne (fun he => hd.elim
      (fun h => hx (he.trans h)) fun h => hx' (he.trans h)) ..]
    exact .refl _
  beside x hx hx' _ := Function.update_of_ne (fun he => hd.elim (fun h => hx (he.trans h))
    fun h => hx' (he.trans h)) ..

/-- A new file under the path. -/
theorem link (hp : s.tree p = none) (mode : Nat) : Changes p src s (s.link p mode) where
  same x hx :=
    ⟨Function.update_of_ne hx .., fun i hi => Function.update_of_ne (Nat.ne_of_lt (s.tree_lt x i hi)) ..⟩
  next := Nat.le_succ _
  names x i hi := by
    by_cases hx : x = p
    · subst hx
      rw [show (s.link x mode).tree x = _ from Function.update_self ..] at hi
      exact Or.inr (Nat.le_of_eq (Entry.file.inj (Option.some.inj hi)))
    · exact Or.inl ((Function.update_of_ne hx ..).symm.trans hi)
  file f' hf' := by
    rw [look_link, Function.update_self] at hf'
    exact Or.inl (by rw [← Option.some.inj hf']; rfl)
  dirs x _ _ := s.touched_restamped (parent p) x
  beside x _ _ hx := s.touched_of_ne hx

/-- The path taken away. -/
theorem drop : Changes p src s (s.drop p) where
  same x hx := ⟨Function.update_of_ne hx .., fun _ _ => rfl⟩
  next := Nat.le_refl _
  names x i hi := by
    by_cases hx : x = p
    · subst hx
      rw [show (s.drop x).tree x = _ from Function.update_self ..] at hi
      cases hi
    · exact Or.inl ((Function.update_of_ne hx ..).symm.trans hi)
  file f' hf' := by
    rw [look_drop, Function.update_self] at hf'
    cases hf'
  dirs x _ _ := s.touched_restamped (parent p) x
  beside x _ _ hx := s.touched_of_ne hx

/-- A directory under the path. -/
theorem putDir (a : Attr) : Changes p src s (s.putDir p a) where
  same x hx := ⟨Function.update_of_ne hx .., fun _ _ => rfl⟩
  next := Nat.le_refl _
  names x i hi := by
    by_cases hx : x = p
    · subst hx
      rw [show (s.putDir x a).tree x = _ from Function.update_self ..] at hi
      cases hi
    · exact Or.inl ((Function.update_of_ne hx ..).symm.trans hi)
  file f' hf' := by
    obtain ⟨j, hj, -⟩ := look_eq_some.mp hf'
    rw [show (s.putDir p a).tree p = _ from Function.update_self ..] at hj
    cases hj
  dirs x hx _ := by
    rw [show (s.putDir p a).dirs x = s.touched (parent p) x from Function.update_of_ne hx ..]
    exact s.touched_restamped (parent p) x
  beside x hx _ hx' := (Function.update_of_ne hx ..).trans (s.touched_of_ne hx')

end Changes

namespace Moves

/-- The clock does not matter. -/
theorem clock {now : Timespec} (hm : Moves p src { s with clock := now } t g g') : Moves p src s t g g' where
  same x hx := ⟨(hm.same x hx).tree, (hm.same x hx).node⟩
  next := hm.next
  names := hm.names
  file := hm.file
  dirs := hm.dirs
  beside := hm.beside
  fds := hm.fds
  opened := hm.opened
  closed := hm.closed
  grips := hm.grips

/-- No descriptor is opened or closed. -/
theorem kept (hc : Changes p src s t) (hfd : t.getFd = s.getFd) (hg : ∀ h ∈ g, s.Grips p h) :
    Moves p src s t g g where
  toChanges := hc
  fds fd _ _ := congrFun hfd fd
  opened h hh hne := absurd rfl (hne h hh)
  closed h hh hne := absurd rfl (hne h hh)
  grips h hh := (hg h hh).changes hc (congrFun hfd h.fd)

theorem still (hg : ∀ h ∈ g, s.Grips p h) : Moves p src s s g g := kept (.refl p src s) rfl hg

/-- The offset of the held descriptor moves. -/
theorem reseat (hc : Changes p src s t) (hh : s.Grips p ⟨fd, n⟩)
    (hfd : ∀ x, t.getFd x = if x = fd then (s.getFd fd).map ({ · with offset := m }) else s.getFd x) :
    Moves p src s t (some ⟨fd, n⟩) (some ⟨fd, m⟩) where
  toChanges := hc
  fds x hx _ := by
    have hne : fd ≠ x := hx ⟨fd, n⟩ rfl
    rw [hfd, if_neg (Ne.symm hne)]
  opened h hh' hne := by
    obtain rfl := Option.some.inj hh'
    exact absurd rfl (hne ⟨fd, n⟩ rfl)
  closed h hh' hne := by
    obtain rfl := Option.some.inj hh'
    exact absurd rfl (hne ⟨fd, m⟩ rfl)
  grips h hh' := by
    obtain rfl := Option.some.inj hh'
    obtain ⟨o, ho, -, happ, hlt, hname⟩ := hh
    refine ⟨{ o with offset := m }, by rw [hfd, if_pos rfl, ho]; rfl, rfl, happ,
      Nat.lt_of_lt_of_le hlt hc.next, fun x hx => ?_⟩
    rcases hc.names x o.ino hx with hold | hnew
    · exact hname x hold
    · exact absurd hnew (Nat.not_le.mpr hlt)

/-- A successful open. -/
theorem openFile {fl : Flags} {mode : Nat} (happ : fl.append = false)
    (ho : s.openFile p fl mode = .ok (fd, t)) : 0 ≤ fd ∧ Moves p src s t none (some ⟨fd, 0⟩) := by
  have hinstall : ∀ (v : Fs) (i : Nat), Changes p src s v → v.fds = s.fds → i < v.next →
      (∀ q, v.tree q = some (.file i) → q = p) → v.install ⟨i, 0, fl.append⟩ = (fd, t) →
      0 ≤ fd ∧ Moves p src s t none (some ⟨fd, 0⟩) := by
    intro v i hc hfds hlt hname hi
    have hfd : (v.install ⟨i, 0, fl.append⟩).1 = fd := congrArg Prod.fst hi
    have ht : (v.install ⟨i, 0, fl.append⟩).2 = t := congrArg Prod.snd hi
    have hget : v.getFd = s.getFd := by
      funext x
      cases x <;> simp only [Fs.getFd, hfds]
    refine ⟨hfd ▸ Int.natCast_nonneg _, ?_⟩
    exact
      { toChanges := hc.congr (by rw [← ht]; rfl) (by rw [← ht]; rfl) (by rw [← ht]; rfl) (by rw [← ht]; rfl)
        fds := fun x _ hx => by
          have hne : fd ≠ x := hx ⟨fd, 0⟩ rfl
          rw [← ht, getFd_install_other v _ (hfd ▸ Ne.symm hne), hget]
        opened := fun h hh _ => by
          obtain rfl := Option.some.inj hh
          rw [← hget, ← hfd]
          exact getFd_install_free v _
        closed := fun h hh => by cases hh
        grips := fun h hh => by
          obtain rfl := Option.some.inj hh
          refine ⟨⟨i, 0, fl.append⟩, ?_, rfl, happ, ?_, fun q hq => hname q ?_⟩
          · rw [← ht, ← hfd]
            exact getFd_install v _
          · rw [← ht]
            exact hlt
          · rw [← ht] at hq
            exact hq }
  unfold Fs.openFile at ho
  split at ho
  · cases ho
  · next i hi =>
    have hname : ∀ q, s.tree q = some (.file i) → q = p := fun q hq => s.tree_inj q p i hq hi
    by_cases htr : fl.trunc = true
    · simp only [htr, if_true] at ho
      exact hinstall (s.setBytes i []) i (.setBytes hname (Or.inl rfl)) rfl (s.tree_lt p i hi) hname
        (Except.ok.inj ho)
    · simp only [htr] at ho
      exact hinstall s i (.refl p src s) rfl (s.tree_lt p i hi) hname (Except.ok.inj ho)
  · next hn =>
    split at ho
    · split at ho
      · refine hinstall (s.link p mode) s.next (.link hn mode) rfl (Nat.lt_succ_self _) (fun q hq => ?_)
          (Except.ok.inj ho)
        by_contra hne
        have hold : s.tree q = some (.file s.next) := (Function.update_of_ne hne ..).symm.trans hq
        exact Nat.lt_irrefl _ (s.tree_lt q _ hold)
      · cases ho
    · cases ho

/-- A successful close. -/
theorem close {r : Int} (hh : s.Grips p ⟨fd, n⟩) (h : s.close fd = .ok (r, t)) :
    Moves p src s t (some ⟨fd, n⟩) none := by
  obtain ⟨o, ho⟩ := Option.ne_none_iff_exists'.mp hh.getFd
  simp only [Fs.close, ho] at h
  obtain ⟨-, rfl⟩ := Prod.mk.inj (Except.ok.inj h)
  exact
    { toChanges := (Changes.refl p src s).congr rfl rfl rfl rfl
      fds := fun x hx _ => by
        have hne : fd ≠ x := hx ⟨fd, n⟩ rfl
        rw [getFd_setFd s fd x none hh.getFd, if_neg (Ne.symm hne)]
      opened := fun h hh => by cases hh
      closed := fun h hh' _ => by
        obtain rfl := Option.some.inj hh'
        rw [getFd_setFd s fd fd none hh.getFd, if_pos rfl]
      grips := fun h hh => by cases hh }

/-- A successful write of a prefix at the start of the file. -/
theorem write {d : Bytes} {r : Int} (hd : d <+: src) (hh : s.Grips p ⟨fd, 0⟩)
    (h : s.write fd d = .ok (r, t)) : ∃ m, Moves p src s t (some ⟨fd, 0⟩) (some ⟨fd, m⟩) := by
  obtain ⟨o, ho, hoff, happ, -, hname⟩ := id hh
  simp only [Fs.write, ho, happ, hoff] at h
  split at h
  · obtain ⟨-, rfl⟩ := Prod.mk.inj (Except.ok.inj h)
    exact ⟨0, .still fun k hk => Option.some.inj hk ▸ hh⟩
  · obtain ⟨-, rfl⟩ := Prod.mk.inj (Except.ok.inj h)
    refine ⟨d.length, .reseat ?_ hh fun x => ?_⟩
    · exact (Changes.setBytes hname (Or.inr ⟨d, hd, rfl⟩)).congr rfl rfl rfl rfl
    · have hfd : (s.setBytes o.ino (splice (s.node o.ino).bytes 0 d)).getFd fd ≠ none := hh.getFd
      have hset := getFd_setFd (s.setBytes o.ino (splice (s.node o.ino).bytes 0 d)) fd x
        (some { o with offset := 0 + d.length }) hfd
      rw [Nat.zero_add] at hset
      simp only [Bool.false_eq_true, if_false, Nat.zero_add, happ] at hset ⊢
      rw [hset, ho, Option.map_some, happ]
      rfl

/-- A successful read moves the offset. -/
theorem read {d : Bytes} (hh : s.Grips p ⟨fd, n⟩) (h : s.read fd m = .ok (d, t)) :
    ∃ k, Moves p src s t (some ⟨fd, n⟩) (some ⟨fd, k⟩) := by
  obtain ⟨o, ho⟩ := Option.ne_none_iff_exists'.mp hh.getFd
  simp only [Fs.read, ho] at h
  obtain ⟨-, rfl⟩ := Prod.mk.inj (Except.ok.inj h)
  refine ⟨o.offset + (slice (s.node o.ino).bytes o.offset m).length,
    .reseat ((Changes.refl p src s).congr rfl rfl rfl rfl) hh fun x => ?_⟩
  rw [getFd_setFd s fd x _ hh.getFd, ho]
  rfl

theorem lseek {r : Int} (hh : s.Grips p ⟨fd, n⟩) (h : s.lseek fd m = .ok (r, t)) :
    Moves p src s t (some ⟨fd, n⟩) (some ⟨fd, m⟩) := by
  obtain ⟨o, ho⟩ := Option.ne_none_iff_exists'.mp hh.getFd
  simp only [Fs.lseek, ho] at h
  obtain ⟨-, rfl⟩ := Prod.mk.inj (Except.ok.inj h)
  refine .reseat ((Changes.refl p src s).congr rfl rfl rfl rfl) hh fun x => ?_
  rw [getFd_setFd s fd x _ hh.getFd, ho]
  rfl

/-- The calls that a program makes by name without a descriptor. -/
theorem byName {c : Sys} {limit : Option Nat} {r : c.Res} (hc : c = .unlink p ∨ c = .rmdir p ∨
      (∃ mode, c = .mkdir p mode) ∨ ∃ mode, c = .chmod p mode) (h : c.perform limit s = .ok (r, t)) :
    Moves p src s t none none := by
  have hg : ∀ h ∈ (none : Option Hold), s.Grips p h := fun h hh => by cases hh
  rcases hc with rfl | rfl | ⟨mode, rfl⟩ | ⟨mode, rfl⟩
  · simp only [Sys.perform, Fs.unlink] at h
    split at h
    · obtain ⟨-, rfl⟩ := Prod.mk.inj (Except.ok.inj h)
      exact .kept .drop rfl hg
    · cases h
    · cases h
  · simp only [Sys.perform, Fs.rmdir] at h
    split at h
    · split at h
      · cases h
      · obtain ⟨-, rfl⟩ := Prod.mk.inj (Except.ok.inj h)
        exact .kept .drop rfl hg
    · cases h
    · cases h
  · obtain ⟨-, -, -, -, rfl⟩ := mkdir_ok h
    exact .kept (.putDir _) rfl hg
  · obtain ⟨-, ⟨i, hi, rfl⟩ | ⟨d, hd, -, rfl⟩⟩ := chattr_ok h
    · exact .kept (.setAttr hi) rfl hg
    · exact .kept (.setDir (hd.imp_right fun h => h.2)) rfl hg

end Moves

end Fs

end Posix
