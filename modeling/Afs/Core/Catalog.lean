import Afs.Core.Elsewhere
import Afs.Core.Faults

/-!
# What the names stand for

A catalog says of every name which file or directory it stands for, and lists the names in directory
order. It knows neither descriptors nor files without a name. The calls that work by name are functions of
the catalog, and calls that only look leave it as it is.
-/

namespace Posix

/-- What a name stands for: a numbered file with its contents, or a directory. -/
inductive Item where
  | file (ino : Nat) (f : File)
  | dir

/-- The names of a file system. -/
@[ext]
structure Catalog where
  /-- What every name stands for. -/
  item : Path → Option Item
  /-- The attributes of the directories. -/
  dirs : Path → Attr
  /-- The names in directory order. -/
  order : List Path
  /-- The number of the next new file. -/
  next : Nat

/-- The attributes of something new. -/
def Attr.new (now : Timespec) (mode : Nat) : Attr := ⟨mode, 0, 0, now.tv_sec, now.tv_sec, now⟩

/-- A new empty file. -/
def File.new (now : Timespec) (mode : Nat) : File := ⟨.new now (S_IFREG + mode % 0o10000), []⟩

/-- A file with other contents. -/
def File.stamped (f : File) (now : Timespec) (b : Bytes) : File :=
  { f with bytes := b, mtim := now, ctime := now.tv_sec }

/-- Attributes with other permissions. -/
def Attr.permitted (now : Timespec) (mode : Nat) (a : Attr) : Attr :=
  { a with mode := a.mode / 4096 * 4096 + mode % 4096, ctime := now.tv_sec }

namespace Catalog

variable (C : Catalog) (now : Timespec) (p : Path)

/-- Whether a name stands for a directory. -/
def isDir : Bool :=
  match C.item p with
  | some .dir => true
  | _ => false

/-- The file of a name. -/
def look : Option File :=
  match C.item p with
  | some (.file _ f) => some f
  | _ => none

/-- The error number for a path that names nothing. -/
def absent : Int :=
  if C.isDir (trimmed p) then EISDIR
  else if (through p).any fun q => (C.look q).isSome then ENOTDIR
  else ENOENT

/-- A name that is there stands for something else. -/
def put (x : Item) : Catalog := { C with item := Function.update C.item p (some x) }

/-- The attributes of the directories after a change in the directory `p`. -/
def touched : Path → Attr := Function.update C.dirs p { C.dirs p with mtim := now, ctime := now.tv_sec }

/-- A new file. -/
def link (f : File) : Catalog where
  item := Function.update C.item p (some (.file C.next f))
  dirs := C.touched now (parent p)
  order := C.order ++ [p]
  next := C.next + 1

/-- Other attributes for a directory. -/
def setDir (a : Attr) : Catalog := { C with dirs := Function.update C.dirs p a }

/-- A directory. -/
def putDir (a : Attr) : Catalog :=
  { C with
    item := Function.update C.item p (some .dir)
    dirs := Function.update (C.touched now (parent p)) p a
    order := if C.order.contains p then C.order else C.order ++ [p] }

/-- A name taken away. -/
def drop : Catalog :=
  { C with
    item := Function.update C.item p none
    dirs := C.touched now (parent p)
    order := C.order.erase p }

/-- What an open does. -/
def opened (fl : Flags) (mode : Nat) : Except Int Catalog :=
  match C.item p with
  | some .dir => .error EISDIR
  | some (.file i f) => .ok (if fl.trunc then C.put p (.file i (f.stamped now [])) else C)
  | none =>
    if fl.creat then
      if C.isDir (parent p) then .ok (C.link now p (.new now mode)) else .error (C.absent p)
    else .error (C.absent p)

/-- What a write into an empty file does. -/
def fill (b : Bytes) : Catalog :=
  match C.item p with
  | some (.file i f) => if b = [] then C else C.put p (.file i (f.stamped now b))
  | _ => C

theorem fill_nil : C.fill now p [] = C := by
  unfold fill
  split
  · exact if_pos rfl
  · rfl

/-- The attributes of a directory. -/
def dirStat : Stat :=
  { (C.dirs p).stat 0 4096 with
    st_nlink := 2 + (C.order.filter fun q => parent q == p && C.isDir q).length }

/-- What `lstat` gives. -/
def stat : Except Int Stat :=
  match C.item p with
  | some (.file i f) => .ok (f.stat i)
  | some .dir => .ok (C.dirStat p)
  | none => if C.isDir (trimmed p) then .ok (C.dirStat (trimmed p)) else .error (C.absent p)

/-- What `unlink` does. -/
def unlink : Except Int Catalog :=
  match C.item p with
  | some (.file ..) => .ok (C.drop now p)
  | some .dir => .error EISDIR
  | none => .error (C.absent p)

/-- What `rmdir` does. -/
def rmdir : Except Int Catalog :=
  match C.item p with
  | some .dir =>
    if C.order.any (fun q => parent q == p) then .error ENOTEMPTY else .ok (C.drop now p)
  | some (.file ..) => .error ENOTDIR
  | none => .error (C.absent p)

/-- What `mkdir` does. -/
def mkdir (mode : Nat) : Except Int Catalog :=
  match C.item p with
  | some _ => .error EEXIST
  | none =>
    if C.isDir (trimmed p) then .error EEXIST
    else if C.isDir (parent p) then .ok (C.putDir now p (.new now (S_IFDIR + mode % 0o2000)))
    else .error (C.absent p)

/-- What `chmod` does. -/
def chmod (mode : Nat) : Except Int Catalog :=
  match C.item p with
  | some (.file i f) => .ok (C.put p (.file i { f.toAttr.permitted now mode with bytes := f.bytes }))
  | some .dir => .ok (C.setDir p ((C.dirs p).permitted now mode))
  | none =>
    if C.isDir (trimmed p) then .ok (C.setDir (trimmed p) ((C.dirs (trimmed p)).permitted now mode))
    else .error (C.absent p)

/-- The name that a path stands for. -/
def named : Path :=
  match C.item p with
  | some _ => p
  | none => if C.isDir (trimmed p) then trimmed p else p

/-- The entries of a directory. -/
def entries : List Path := [46] :: [46, 46] :: (C.order.filter fun q => parent q == p).map baseName

/-- What the entries of a directory are, up to their order. -/
def readdir : Except Int (List Path) :=
  if C.isDir (C.named p) then .ok (C.entries (C.named p)) else .error (C.absent p)

section Look

variable {C D : Catalog} {now : Timespec} {p x : Path} {f : File}

theorem look_put_of_ne (hx : x ≠ p) (y : Item) : (C.put p y).look x = C.look x := by
  simp only [look, put, Function.update_of_ne hx]

theorem look_link_of_ne (hx : x ≠ p) (g : File) : (C.link now p g).look x = C.look x := by
  simp only [look, link, Function.update_of_ne hx]

theorem look_drop (h : (C.drop now p).look x = some f) : C.look x = some f := by
  by_cases hx : x = p
  · subst hx
    simp only [look, drop, Function.update_self, reduceCtorEq] at h
  · simpa only [look, drop, Function.update_of_ne hx] using h

theorem look_putDir {a : Attr} (h : (C.putDir now p a).look x = some f) : C.look x = some f := by
  by_cases hx : x = p
  · subst hx
    simp only [look, putDir, Function.update_self, reduceCtorEq] at h
  · simpa only [look, putDir, Function.update_of_ne hx] using h

/-- After an open, every file is as before, except that the opened one may be empty. -/
theorem look_opened {fl : Flags} {mode : Nat} (h : C.opened now p fl mode = .ok D)
    (hf : D.look x = some f) : C.look x = some f ∨ x = p ∧ f.bytes = [] := by
  unfold opened at h
  split at h
  · cases h
  · obtain rfl := Except.ok.inj h
    split at hf
    · by_cases hx : x = p
      · subst hx
        simp only [look, put, Function.update_self, Option.some.injEq] at hf
        exact Or.inr ⟨rfl, hf ▸ rfl⟩
      · rw [look_put_of_ne hx] at hf
        exact Or.inl hf
    · exact Or.inl hf
  · split at h
    · split at h
      · obtain rfl := Except.ok.inj h
        by_cases hx : x = p
        · subst hx
          simp only [look, link, Function.update_self, Option.some.injEq] at hf
          exact Or.inr ⟨rfl, hf ▸ rfl⟩
        · rw [look_link_of_ne hx] at hf
          exact Or.inl hf
      · cases h
    · cases h

/-- After a write, the file has what was written, and the others are as before. -/
theorem look_fill {b : Bytes} (hf : (C.fill now p b).look x = some f) :
    C.look x = some f ∨ x = p ∧ f.bytes = b := by
  unfold fill at hf
  split at hf
  · split at hf
    · exact Or.inl hf
    · by_cases hx : x = p
      · subst hx
        simp only [look, put, Function.update_self, Option.some.injEq] at hf
        exact Or.inr ⟨rfl, hf ▸ rfl⟩
      · rw [look_put_of_ne hx] at hf
        exact Or.inl hf
  · exact Or.inl hf

theorem look_unlink (h : C.unlink now p = .ok D) (hf : D.look x = some f) : C.look x = some f := by
  unfold unlink at h
  split at h
  · obtain rfl := Except.ok.inj h
    exact look_drop hf
  · cases h
  · cases h

theorem look_rmdir (h : C.rmdir now p = .ok D) (hf : D.look x = some f) : C.look x = some f := by
  unfold rmdir at h
  split at h
  · split at h
    · cases h
    · obtain rfl := Except.ok.inj h
      exact look_drop hf
  · cases h
  · cases h

theorem look_mkdir {mode : Nat} (h : C.mkdir now p mode = .ok D) (hf : D.look x = some f) :
    C.look x = some f := by
  unfold mkdir at h
  split at h
  · cases h
  split at h
  · cases h
  split at h
  · obtain rfl := Except.ok.inj h
    exact look_putDir hf
  · cases h

/-- Other permissions do not change the bytes. -/
theorem look_chmod {mode : Nat} (h : C.chmod now p mode = .ok D) (hf : D.look x = some f) :
    ∃ g, C.look x = some g ∧ g.bytes = f.bytes := by
  unfold chmod at h
  split at h
  · next i g hg =>
    obtain rfl := Except.ok.inj h
    by_cases hx : x = p
    · subst hx
      simp only [look, put, Function.update_self, Option.some.injEq] at hf
      exact ⟨g, by simp only [look, hg], hf ▸ rfl⟩
    · rw [look_put_of_ne hx] at hf
      exact ⟨f, hf, rfl⟩
  · obtain rfl := Except.ok.inj h
    exact ⟨f, hf, rfl⟩
  · split at h
    · obtain rfl := Except.ok.inj h
      exact ⟨f, hf, rfl⟩
    · cases h

end Look

section Directories

variable {C D : Catalog} {now : Timespec} {p x : Path} {mode : Nat}

/-- A change in a directory stamps it. -/
theorem touched_restamped (C : Catalog) (now : Timespec) (p x : Path) :
    (C.dirs x).Restamped (C.touched now p x) := Attr.restamped_update ..

/-- An open stamps directories at most, and so do the other calls by another name. -/
theorem restamped_opened {fl : Flags} (h : C.opened now p fl mode = .ok D) :
    (C.dirs x).Restamped (D.dirs x) := by
  unfold opened at h
  split at h
  · cases h
  · obtain rfl := Except.ok.inj h
    split
    · exact .refl _
    · exact .refl _
  · split at h
    · split at h
      · obtain rfl := Except.ok.inj h
        exact C.touched_restamped now (parent p) x
      · cases h
    · cases h

theorem dirs_fill (b : Bytes) : (C.fill now p b).dirs = C.dirs := by
  unfold fill
  split
  · split
    · rfl
    · rfl
  · rfl

theorem restamped_unlink (h : C.unlink now p = .ok D) : (C.dirs x).Restamped (D.dirs x) := by
  unfold unlink at h
  split at h
  · obtain rfl := Except.ok.inj h
    exact C.touched_restamped now (parent p) x
  · cases h
  · cases h

theorem restamped_rmdir (h : C.rmdir now p = .ok D) : (C.dirs x).Restamped (D.dirs x) := by
  unfold rmdir at h
  split at h
  · split at h
    · cases h
    · obtain rfl := Except.ok.inj h
      exact C.touched_restamped now (parent p) x
  · cases h
  · cases h

theorem restamped_mkdir (hx : x ≠ p) (h : C.mkdir now p mode = .ok D) : (C.dirs x).Restamped (D.dirs x) := by
  unfold mkdir at h
  split at h
  · cases h
  split at h
  · cases h
  split at h
  · obtain rfl := Except.ok.inj h
    rw [show (C.putDir now p _).dirs x = C.touched now (parent p) x from Function.update_of_ne hx ..]
    exact C.touched_restamped now (parent p) x
  · cases h

theorem restamped_chmod (hx : x ≠ p) (hx' : x ≠ trimmed p) (h : C.chmod now p mode = .ok D) :
    (C.dirs x).Restamped (D.dirs x) := by
  unfold chmod at h
  split at h
  · obtain rfl := Except.ok.inj h
    exact .refl _
  · obtain rfl := Except.ok.inj h
    rw [show (C.setDir p _).dirs x = C.dirs x from Function.update_of_ne hx ..]
    exact .refl _
  · split at h
    · obtain rfl := Except.ok.inj h
      rw [show (C.setDir (trimmed p) _).dirs x = C.dirs x from Function.update_of_ne hx' ..]
      exact .refl _
    · cases h

end Directories

section Others

variable {C D : Catalog} {now : Timespec} {p x : Path} {mode : Nat}

theorem item_put_of_ne (hx : x ≠ p) (y : Item) : (C.put p y).item x = C.item x := Function.update_of_ne hx ..

theorem item_drop_of_ne (hx : x ≠ p) : (C.drop now p).item x = C.item x := Function.update_of_ne hx ..

theorem item_putDir_of_ne (hx : x ≠ p) (a : Attr) : (C.putDir now p a).item x = C.item x :=
  Function.update_of_ne hx ..

/-- An open leaves what another name stands for, and so do the other calls by name. -/
theorem item_opened_of_ne {fl : Flags} (hx : x ≠ p) (h : C.opened now p fl mode = .ok D) :
    D.item x = C.item x := by
  unfold opened at h
  split at h
  · cases h
  · obtain rfl := Except.ok.inj h
    split
    · exact item_put_of_ne hx _
    · rfl
  · split at h
    · split at h
      · obtain rfl := Except.ok.inj h
        exact Function.update_of_ne hx ..
      · cases h
    · cases h

theorem item_fill_of_ne (hx : x ≠ p) (b : Bytes) : (C.fill now p b).item x = C.item x := by
  unfold fill
  split
  · split
    · rfl
    · exact item_put_of_ne hx _
  · rfl

theorem item_unlink_of_ne (hx : x ≠ p) (h : C.unlink now p = .ok D) : D.item x = C.item x := by
  unfold unlink at h
  split at h
  · obtain rfl := Except.ok.inj h
    exact item_drop_of_ne hx
  · cases h
  · cases h

theorem item_rmdir_of_ne (hx : x ≠ p) (h : C.rmdir now p = .ok D) : D.item x = C.item x := by
  unfold rmdir at h
  split at h
  · split at h
    · cases h
    · obtain rfl := Except.ok.inj h
      exact item_drop_of_ne hx
  · cases h
  · cases h

theorem item_mkdir_of_ne (hx : x ≠ p) (h : C.mkdir now p mode = .ok D) : D.item x = C.item x := by
  unfold mkdir at h
  split at h
  · cases h
  split at h
  · cases h
  split at h
  · obtain rfl := Except.ok.inj h
    exact item_putDir_of_ne hx _
  · cases h

theorem item_chmod_of_ne (hx : x ≠ p) (h : C.chmod now p mode = .ok D) : D.item x = C.item x := by
  unfold chmod at h
  split at h
  · obtain rfl := Except.ok.inj h
    exact item_put_of_ne hx _
  · obtain rfl := Except.ok.inj h
    rfl
  · split at h
    · obtain rfl := Except.ok.inj h
      rfl
    · cases h

end Others

end Catalog

namespace Fs

variable {s t : Fs} {p : Path} {i : Nat} {f : File}

/-- A name's file with its contents. -/
def item (s : Fs) : Entry → Item
  | .file i => .file i (s.node i)
  | .dir => .dir

/-- The catalog of a file system. -/
def catalog (s : Fs) : Catalog := ⟨fun p => (s.tree p).map s.item, s.dirs, s.listing, s.next⟩

@[simp] theorem catalog_setFd (s : Fs) (fd : Int) (o : Option OpenFile) :
    (s.setFd fd o).catalog = s.catalog := rfl

theorem catalog_item_none (h : s.tree p = none) : s.catalog.item p = none := by
  simp only [catalog, h, Option.map_none]

theorem catalog_item_file (h : s.tree p = some (.file i)) :
    s.catalog.item p = some (.file i (s.node i)) := by
  simp only [catalog, h, Option.map_some, item]

theorem catalog_item_dir (h : s.tree p = some .dir) : s.catalog.item p = some .dir := by
  simp only [catalog, h, Option.map_some, item]

/-- A name that stands for the same in the catalog. -/
theorem Kept.of_item (h : t.catalog.item p = s.catalog.item p) : Kept p s t := by
  cases hs : s.tree p with
  | none =>
      rw [catalog_item_none hs] at h
      exact ⟨(Option.map_eq_none_iff.mp h).trans hs.symm, fun i hi => by rw [hs] at hi; cases hi⟩
  | some e =>
      cases e with
      | file i =>
          rw [catalog_item_file hs] at h
          obtain ⟨e, he, hitem⟩ := Option.map_eq_some_iff.mp h
          cases e with
          | file j =>
              obtain ⟨rfl, hnode⟩ := Item.file.inj hitem
              refine ⟨he.trans hs.symm, fun k hk => ?_⟩
              obtain rfl := Entry.file.inj (Option.some.inj (hs.symm.trans hk))
              exact ⟨(s.node j).atime, hnode⟩
          | dir => cases hitem
      | dir =>
          rw [catalog_item_dir hs] at h
          obtain ⟨e, he, hitem⟩ := Option.map_eq_some_iff.mp h
          cases e with
          | file j => cases hitem
          | dir => exact ⟨he.trans hs.symm, fun i hi => by rw [hs] at hi; cases hi⟩

theorem catalog_isDir (s : Fs) (p : Path) : s.catalog.isDir p = s.isDir p := by
  unfold Catalog.isDir isDir
  cases ht : s.tree p with
  | none => rw [catalog_item_none ht]
  | some e =>
      cases e with
      | file i => rw [catalog_item_file ht]
      | dir => rw [catalog_item_dir ht]

/-- A file that changes changes under its name. -/
theorem catalog_setNode (h : s.tree p = some (.file i)) (f : File) :
    (s.setNode i f).catalog = s.catalog.put p (.file i f) := by
  refine congrArg (fun g => Catalog.mk g _ _ _) (funext fun q => ?_)
  by_cases hq : q = p
  · subst hq
    rw [Function.update_self]
    simp only [setNode, h, Option.map_some, item, Function.update_self]
  · rw [Function.update_of_ne hq]
    simp only [setNode]
    cases hs : s.tree q with
    | none => exact (catalog_item_none hs).symm
    | some e =>
        cases e with
        | dir => exact (catalog_item_dir hs).symm
        | file j =>
            have hj : j ≠ i := fun he => hq (s.tree_inj q p i (he ▸ hs) h)
            rw [catalog_item_file hs]
            simp only [Option.map_some, item, Function.update_of_ne hj]

theorem catalog_setBytes (h : s.tree p = some (.file i)) (b : Bytes) :
    (s.setBytes i b).catalog = s.catalog.put p (.file i ((s.node i).stamped s.clock b)) :=
  catalog_setNode h _

theorem catalog_link (s : Fs) (p : Path) (mode : Nat) :
    (s.link p mode).catalog = s.catalog.link s.clock p (.new s.clock mode) := by
  refine congrArg (fun g => Catalog.mk g _ _ _) (funext fun q => ?_)
  by_cases hq : q = p
  · subst hq
    rw [Function.update_self]
    simp only [link, Function.update_self, Option.map_some, item]
    rfl
  · rw [Function.update_of_ne hq]
    simp only [link, Function.update_of_ne hq]
    cases hs : s.tree q with
    | none => exact (catalog_item_none hs).symm
    | some e =>
        cases e with
        | dir => exact (catalog_item_dir hs).symm
        | file j =>
            have hj : j ≠ s.next := Nat.ne_of_lt (s.tree_lt q j hs)
            rw [catalog_item_file hs]
            simp only [Option.map_some, item, Function.update_of_ne hj]

theorem catalog_drop (s : Fs) (p : Path) : (s.drop p).catalog = s.catalog.drop s.clock p := by
  refine congrArg (fun g => Catalog.mk g _ _ _) (funext fun q => ?_)
  by_cases hq : q = p
  · subst hq
    simp only [drop, Function.update_self, Option.map_none]
  · simp only [drop, Function.update_of_ne hq]
    rfl

theorem catalog_putDir (s : Fs) (p : Path) (a : Attr) :
    (s.putDir p a).catalog = s.catalog.putDir s.clock p a := by
  ext1
  · funext q
    by_cases hq : q = p
    · subst hq
      simp only [catalog, putDir, Catalog.putDir, Function.update_self, Option.map_some, item]
    · simp only [catalog, putDir, Catalog.putDir, Function.update_of_ne hq]
      rfl
  · rfl
  · simp only [catalog, putDir, Catalog.putDir, List.contains_iff_mem]
  · rfl

theorem catalog_look (s : Fs) : s.catalog.look = s.look := by
  funext p
  unfold Catalog.look look
  cases ht : s.tree p with
  | none => rw [catalog_item_none ht]
  | some e =>
      cases e with
      | file i => rw [catalog_item_file ht]
      | dir => rw [catalog_item_dir ht]

theorem catalog_absent (s : Fs) (p : Path) : s.catalog.absent p = s.absent p := by
  simp only [Catalog.absent, absent, catalog_isDir, catalog_look]

theorem catalog_dirStat (s : Fs) (p : Path) : s.catalog.dirStat p = s.dirStat p := by
  simp only [Catalog.dirStat, dirStat, catalog_isDir]
  rfl

/-- Opening is a function of the catalog. -/
theorem catalog_openFile (s : Fs) (p : Path) (fl : Flags) (mode : Nat) :
    (s.openFile p fl mode).map (fun r => r.2.catalog) = s.catalog.opened s.clock p fl mode := by
  unfold openFile Catalog.opened
  rw [catalog_isDir, catalog_absent]
  cases ht : s.tree p with
  | none =>
      simp only [catalog_item_none ht]
      split
      · split
        · exact congrArg Except.ok (catalog_link s p mode)
        · rfl
      · rfl
  | some e =>
      cases e with
      | dir =>
          simp only [catalog_item_dir ht]
          rfl
      | file i =>
          simp only [catalog_item_file ht]
          cases fl.trunc with
          | false => rfl
          | true => exact congrArg Except.ok (catalog_setBytes ht [])

theorem catalog_lstat (s : Fs) (p : Path) : s.lstat p = s.catalog.stat p := by
  unfold lstat Catalog.stat
  rw [catalog_isDir, catalog_absent, catalog_dirStat, catalog_dirStat]
  cases ht : s.tree p with
  | none => rw [catalog_item_none ht]
  | some e =>
      cases e with
      | file i => rw [catalog_item_file ht]
      | dir => rw [catalog_item_dir ht]

theorem catalog_unlink (s : Fs) (p : Path) :
    (s.unlink p).map (fun r => r.2.catalog) = s.catalog.unlink s.clock p := by
  unfold unlink Catalog.unlink
  rw [catalog_absent]
  cases ht : s.tree p with
  | none =>
      simp only [catalog_item_none ht]
      rfl
  | some e =>
      cases e with
      | dir =>
          simp only [catalog_item_dir ht]
          rfl
      | file i =>
          simp only [catalog_item_file ht]
          exact congrArg Except.ok (catalog_drop s p)

theorem catalog_rmdir (s : Fs) (p : Path) :
    (s.rmdir p).map (fun r => r.2.catalog) = s.catalog.rmdir s.clock p := by
  unfold rmdir Catalog.rmdir
  rw [catalog_absent]
  cases ht : s.tree p with
  | none =>
      simp only [catalog_item_none ht]
      rfl
  | some e =>
      cases e with
      | file i =>
          simp only [catalog_item_file ht]
          rfl
      | dir =>
          simp only [catalog_item_dir ht]
          change Except.map _ (if s.listing.any _ then _ else _) = if s.listing.any _ then _ else _
          split
          · rfl
          · exact congrArg Except.ok (catalog_drop s p)

theorem catalog_mkdir (s : Fs) (p : Path) (mode : Nat) :
    (s.mkdir p mode).map (fun r => r.2.catalog) = s.catalog.mkdir s.clock p mode := by
  unfold mkdir Catalog.mkdir
  rw [catalog_isDir, catalog_isDir, catalog_absent]
  cases ht : s.tree p with
  | none =>
      simp only [catalog_item_none ht]
      split
      · rfl
      · split
        · exact congrArg Except.ok (catalog_putDir s p _)
        · rfl
  | some e =>
      cases e with
      | file i =>
          simp only [catalog_item_file ht]
          rfl
      | dir =>
          simp only [catalog_item_dir ht]
          rfl

theorem catalog_chmod (s : Fs) (p : Path) (mode : Nat) :
    (s.chattr p fun a => { a with mode := a.mode / 4096 * 4096 + mode % 4096 }).map (fun r => r.2.catalog) =
      s.catalog.chmod s.clock p mode := by
  unfold chattr Catalog.chmod
  rw [catalog_isDir, catalog_absent]
  cases ht : s.tree p with
  | none =>
      simp only [catalog_item_none ht]
      split <;> rfl
  | some e =>
      cases e with
      | file i =>
          simp only [catalog_item_file ht]
          exact congrArg Except.ok (catalog_setNode ht _)
      | dir =>
          simp only [catalog_item_dir ht]
          rfl

theorem catalog_named (s : Fs) (p : Path) : s.catalog.named p = s.named p := by
  unfold Catalog.named named
  rw [catalog_isDir]
  cases ht : s.tree p with
  | none => rw [catalog_item_none ht]
  | some e => simp only [catalog, ht, Option.map_some]

theorem catalog_readdir (s : Fs) (p : Path) : s.readdir p = s.catalog.readdir p := by
  simp only [readdir, Catalog.readdir, catalog_named, catalog_isDir, catalog_absent]
  rfl

/-- A write through a descriptor at the start of an empty file. -/
theorem catalog_write {fd r : Int} {b : Bytes} (hh : s.Holds fd p 0 false)
    (hempty : ∀ f ∈ s.look p, f.bytes = []) (h : s.write fd b = .ok (r, t)) :
    t.catalog = s.catalog.fill s.clock p b := by
  obtain ⟨i, hfd, hi⟩ := hh
  have hbytes : (s.node i).bytes = [] := hempty _ (look_of_tree hi)
  simp only [write, hfd, hbytes, Bool.false_eq_true, if_false, splice_nil_zero] at h
  simp only [Catalog.fill, catalog_item_file hi]
  split at h
  · next hb =>
    obtain ⟨-, rfl⟩ := Prod.mk.inj (Except.ok.inj h)
    rw [if_pos hb]
  · next hb =>
    obtain ⟨-, rfl⟩ := Prod.mk.inj (Except.ok.inj h)
    rw [if_neg hb, catalog_setFd, catalog_setBytes hi]

/-- What an open that succeeds leaves: a descriptor at the start of the file. -/
theorem openFile_holds {fl : Flags} {mode : Nat} {fd : Int} (h : s.openFile p fl mode = .ok (fd, t)) :
    t.Holds fd p 0 fl.append ∧ t.clock = s.clock ∧ (fl.trunc = true → ∀ f ∈ t.look p, f.bytes = []) := by
  have hinstall : ∀ (u : Fs) (i : Nat), u.tree p = some (.file i) → u.clock = s.clock →
      (fl.trunc = true → (u.node i).bytes = []) → u.install ⟨i, 0, fl.append⟩ = (fd, t) →
        t.Holds fd p 0 fl.append ∧ t.clock = s.clock ∧ (fl.trunc = true → ∀ f ∈ t.look p, f.bytes = []) := by
    intro u i hi hclock hb hu
    obtain ⟨rfl, rfl⟩ := Prod.mk.inj hu
    refine ⟨⟨i, getFd_install u _, hi⟩, hclock, fun htr f hf => ?_⟩
    have hl : (u.install ⟨i, 0, fl.append⟩).2.look p = some (u.node i) := look_of_tree hi
    exact Option.some.inj (hl.symm.trans hf) ▸ hb htr
  unfold openFile at h
  split at h
  · cases h
  · next i hi =>
    refine hinstall _ i ?_ ?_ (fun htr => ?_) (Except.ok.inj h)
    · split <;> exact hi
    · split <;> rfl
    · rw [if_pos htr]
      simp only [setBytes, setNode, Function.update_self]
  · split at h
    · split at h
      · refine hinstall (s.link p mode) s.next ?_ rfl (fun _ => ?_) (Except.ok.inj h)
        · simp only [link, Function.update_self]
        · simp only [link, Function.update_self, newFile]
      · cases h
    · cases h

end Fs

/-- A call that reads only leaves the catalog. -/
theorem Sys.perform_catalog {c : Sys} (hc : c.ReadsOnly) {limit : Option Nat} {s t : Fs} {r : c.Res}
    (hp : c.perform limit s = .ok (r, t)) : t.catalog = s.catalog := by
  cases c with
  | openF p fl mode =>
      simp only [Sys.perform, Fs.openFile, hc.1, hc.2, Bool.false_eq_true, if_false] at hp
      split at hp
      · cases hp
      · obtain ⟨-, rfl⟩ := Prod.mk.inj (Except.ok.inj hp)
        rfl
      · cases hp
  | lstat p | fstat p | pread fd n off | readdir p =>
      obtain ⟨x, -, hx⟩ := map_eq_ok.mp hp
      rw [← (Prod.mk.inj hx).2]
  | read fd n =>
      obtain ⟨x, hx, he⟩ := map_eq_ok.mp hp
      unfold Fs.read at hx
      split at hx
      · cases hx
      · obtain rfl := Except.ok.inj hx
        rw [← (Prod.mk.inj he).2]
        rfl
  | close fd | lseek fd off | fsync fd =>
      simp only [Sys.perform, Fs.close, Fs.lseek, Fs.fsync] at hp
      split at hp
      · cases hp
      · obtain ⟨-, rfl⟩ := Prod.mk.inj (Except.ok.inj hp)
        rfl
  | write fd mem n | pwrite fd mem n off | ftruncate fd n | truncate p n | unlink p | remove p
  | rename p q | mkdir p mode | rmdir p | chmod p mode | lchown p uid gid | utimens p a b =>
      exact hc.elim

theorem Sys.exec_catalog {c : Sys} (hc : c.ReadsOnly) (v : Proc) :
    (c.exec v).2.fs.catalog = v.fs.catalog := by
  rcases c.exec_cases v with ⟨-, hs⟩ | ⟨limit, hp⟩
  · rw [hs]
  · exact Sys.perform_catalog hc hp

/-- No call sets the clock. -/
theorem Sys.exec_clock (c : Sys) (v : Proc) : (c.exec v).2.fs.clock = v.fs.clock := by
  rcases c.exec_cases v with ⟨-, hs⟩ | ⟨limit, hp⟩
  · rw [hs]
  · generalize c.exec v = x at hp
    obtain ⟨r, w⟩ := x
    change w.fs.clock = v.fs.clock
    cases c with
    | lstat p | fstat p | pread fd n off | readdir p =>
        obtain ⟨y, -, hy⟩ := map_eq_ok.mp hp
        rw [← (Prod.mk.inj hy).2]
    | read fd n =>
        obtain ⟨y, hy, he⟩ := map_eq_ok.mp hp
        unfold Fs.read at hy
        split at hy
        · cases hy
        · rw [← (Prod.mk.inj he).2, ← Except.ok.inj hy]
          rfl
    | openF | close | write | pwrite | lseek | ftruncate | truncate | fsync | unlink | remove | rename | mkdir
    | rmdir | chmod | lchown | utimens =>
        simp only [Sys.perform, Fs.openFile, Fs.close, Fs.write, Fs.pwrite, Fs.lseek, Fs.ftruncate, Fs.truncate,
          Fs.fsync, Fs.remove, Fs.unlink, Fs.rmdir, Fs.rename, Fs.mkdir, Fs.chattr] at hp
        repeat' split at hp
        all_goals first
          | cases hp
          | have hclock := congrArg Fs.clock (Prod.mk.inj (Except.ok.inj hp)).2
            exact hclock.symm

end Posix
