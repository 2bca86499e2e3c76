import Mathlib.Data.List.Perm.Subperm
import Mathlib.Data.List.Range
import Mathlib.Logic.Function.Basic

/-!
# Singly linked lists in memory

Blocks of memory hold a value and the address of the next block. A pointer spells a list when the
walk along the links from it meets these addresses and values and then ends. Such a walk never comes
back to an address, since from every address there is one way on.
-/

namespace Linked

/-- A block: what it holds and where the next one is. -/
structure Node (α : Type) where
  /-- The contents. -/
  val : α
  /-- The link; `none` is the null pointer. -/
  next : Option Nat

/-- The blocks that have been handed out. -/
structure Heap (α : Type) where
  /-- The block at an address. -/
  cell : Nat → Option (Node α)
  /-- The address of the next block. -/
  fresh : Nat
  /-- Nothing is behind the blocks in use. -/
  cell_fresh : ∀ a, fresh ≤ a → cell a = none

namespace Heap

variable {α : Type} {h h' : Heap α} {p : Option Nat} {a b : Nat} {x y : α} {l l₁ l₂ : List (Nat × α)}

/-- No block is in use. -/
def empty : Heap α := ⟨fun _ => none, 0, fun _ _ => rfl⟩

/-- A new block at the next address. -/
def alloc (h : Heap α) (x : α) : Heap α where
  cell := Function.update h.cell h.fresh (some ⟨x, none⟩)
  fresh := h.fresh + 1
  cell_fresh a ha := by
    rw [Function.update_of_ne (by omega), h.cell_fresh a (by omega)]

/-- A block in use is overwritten. -/
def set (h : Heap α) (a : Nat) (f : Node α → Node α) : Heap α where
  cell := Function.update h.cell a ((h.cell a).map f)
  fresh := h.fresh
  cell_fresh b hb := by
    by_cases hab : b = a
    · subst hab
      rw [Function.update_self, h.cell_fresh b hb, Option.map_none]
    · rw [Function.update_of_ne hab, h.cell_fresh b hb]

@[simp] theorem alloc_cell_self (h : Heap α) (x : α) :
    (h.alloc x).cell h.fresh = some ⟨x, none⟩ := Function.update_self ..

theorem alloc_cell_of_ne (h : Heap α) (x : α) (hne : a ≠ h.fresh) : (h.alloc x).cell a = h.cell a :=
  Function.update_of_ne hne ..

@[simp] theorem set_cell_self (h : Heap α) (a : Nat) (f : Node α → Node α) :
    (h.set a f).cell a = (h.cell a).map f := Function.update_self ..

theorem set_cell_of_ne (h : Heap α) (f : Node α → Node α) (hne : b ≠ a) :
    (h.set a f).cell b = h.cell b := Function.update_of_ne hne ..

/-- The pointer spells the list of these addresses and values. -/
def Spells (h : Heap α) : Option Nat → List (Nat × α) → Prop
  | none, [] => True
  | some a, (b, x) :: l => a = b ∧ ∃ next, h.cell a = some ⟨x, next⟩ ∧ h.Spells next l
  | _, _ => False

theorem spells_cons : h.Spells p ((a, x) :: l) ↔
    p = some a ∧ ∃ next, h.cell a = some ⟨x, next⟩ ∧ h.Spells next l := by
  cases p with
  | none => exact ⟨False.elim, fun hp => absurd hp.1 (Option.some_ne_none a).symm⟩
  | some b =>
      constructor
      · rintro ⟨rfl, hrest⟩
        exact ⟨rfl, hrest⟩
      · rintro ⟨hb, hrest⟩
        obtain rfl := Option.some.inj hb
        exact ⟨rfl, hrest⟩

theorem spells_nil : h.Spells p [] ↔ p = none := by
  cases p with
  | none => exact ⟨fun _ => rfl, fun _ => trivial⟩
  | some b => exact ⟨False.elim, fun hp => absurd hp (Option.some_ne_none b)⟩

/-- From a pointer there is one walk. -/
theorem Spells.unique (hl : h.Spells p l₁) (hr : h.Spells p l₂) : l₁ = l₂ := by
  induction l₁ generalizing p l₂ with
  | nil =>
      obtain rfl := spells_nil.mp hl
      cases l₂ with
      | nil => rfl
      | cons y l₂ => exact hr.elim
  | cons z l₁ ih =>
      obtain ⟨a, x⟩ := z
      obtain ⟨rfl, next, hcell, hrest⟩ := spells_cons.mp hl
      cases l₂ with
      | nil => exact hr.elim
      | cons z l₂ =>
          obtain ⟨b, y⟩ := z
          obtain ⟨hb, next', hcell', hrest'⟩ := spells_cons.mp hr
          obtain rfl := Option.some.inj hb
          rw [hcell] at hcell'
          obtain ⟨rfl, rfl⟩ := Node.mk.inj (Option.some.inj hcell')
          rw [ih hrest hrest']

/-- The walk from an address on the way. -/
theorem Spells.suffix (hl : h.Spells p (l₁ ++ (a, x) :: l₂)) : h.Spells (some a) ((a, x) :: l₂) := by
  induction l₁ generalizing p with
  | nil =>
      obtain ⟨rfl, -⟩ := spells_cons.mp hl
      exact hl
  | cons z l₁ ih =>
      obtain ⟨-, next, -, hrest⟩ := spells_cons.mp hl
      exact ih hrest

/-- A walk that ends is without a cycle. -/
theorem Spells.nodup (hl : h.Spells p l) : (l.map Prod.fst).Nodup := by
  induction l generalizing p with
  | nil => exact List.nodup_nil
  | cons z l ih =>
      obtain ⟨a, x⟩ := z
      obtain ⟨rfl, next, -, hrest⟩ := spells_cons.mp hl
      rw [List.map_cons, List.nodup_cons]
      refine ⟨fun hmem => ?_, ih hrest⟩
      obtain ⟨⟨b, y⟩, hb, rfl⟩ := List.mem_map.mp hmem
      obtain ⟨l₁, l₂, rfl⟩ := List.append_of_mem hb
      have hlength := congrArg List.length (hl.unique hrest.suffix)
      simp only [List.length_cons, List.length_append] at hlength
      omega

theorem Spells.cell_ne (hl : h.Spells p l) (ha : a ∈ l.map Prod.fst) : h.cell a ≠ none := by
  obtain ⟨⟨b, y⟩, hb, rfl⟩ := List.mem_map.mp ha
  obtain ⟨l₁, l₂, rfl⟩ := List.append_of_mem hb
  obtain ⟨-, next, hcell, -⟩ := spells_cons.mp hl.suffix
  exact fun hn => Option.some_ne_none _ (hcell.symm.trans hn)

theorem Spells.lt (hl : h.Spells p l) (ha : a ∈ l.map Prod.fst) : a < h.fresh := by
  by_contra hge
  exact hl.cell_ne ha (h.cell_fresh a (by omega))

/-- There are at least as many blocks as a walk meets. -/
theorem Spells.length_le (hl : h.Spells p l) : l.length ≤ h.fresh := by
  have hsub : l.map Prod.fst ⊆ List.range h.fresh := fun a ha => List.mem_range.mpr (hl.lt ha)
  have hle := (hl.nodup.subperm hsub).length_le
  rwa [List.length_map, List.length_range] at hle

/-- Blocks off the walk do not matter. -/
theorem Spells.congr (hl : h.Spells p l) (hc : ∀ a ∈ l.map Prod.fst, h'.cell a = h.cell a) :
    h'.Spells p l := by
  induction l generalizing p with
  | nil => exact spells_nil.mpr (spells_nil.mp hl)
  | cons z l ih =>
      obtain ⟨a, x⟩ := z
      obtain ⟨rfl, next, hcell, hrest⟩ := spells_cons.mp hl
      refine spells_cons.mpr ⟨rfl, next, ?_, ih hrest fun b hb => ?_⟩
      · rw [hc a List.mem_cons_self, hcell]
      · exact hc b (List.mem_cons_of_mem _ hb)

/-- New contents for a block on the walk. -/
theorem Spells.set_val (hl : h.Spells p (l₁ ++ (a, x) :: l₂)) (y : α) :
    (h.set a fun n => { n with val := y }).Spells p (l₁ ++ (a, y) :: l₂) := by
  induction l₁ generalizing p with
  | nil =>
      have hnodup := hl.nodup
      obtain ⟨rfl, next, hcell, hrest⟩ := spells_cons.mp hl
      refine spells_cons.mpr ⟨rfl, next, ?_, hrest.congr fun b hb => ?_⟩
      · rw [set_cell_self, hcell, Option.map_some]
      · refine set_cell_of_ne h _ fun hba => ?_
        exact (List.nodup_cons.mp hnodup).1 (hba ▸ hb)
  | cons z l₁ ih =>
      obtain ⟨b, z⟩ := z
      have hnodup := hl.nodup
      obtain ⟨rfl, next, hcell, hrest⟩ := spells_cons.mp hl
      refine spells_cons.mpr ⟨rfl, next, ?_, ih hrest⟩
      rw [set_cell_of_ne, hcell]
      rintro rfl
      refine (List.nodup_cons.mp hnodup).1 ?_
      simp

/-- A new block is linked behind the last one. -/
theorem Spells.append (hl : h.Spells p (l ++ [(a, x)])) (hb : h.cell b = some ⟨y, none⟩)
    (hnew : b ∉ (l ++ [(a, x)]).map Prod.fst) :
    (h.set a fun n => { n with next := some b }).Spells p (l ++ [(a, x), (b, y)]) := by
  induction l generalizing p with
  | nil =>
      obtain ⟨rfl, next, hcell, hrest⟩ := spells_cons.mp hl
      have hba : b ≠ a := fun he => hnew (he ▸ List.mem_cons_self)
      refine spells_cons.mpr ⟨rfl, some b, ?_, spells_cons.mpr ⟨rfl, none, ?_, trivial⟩⟩
      · rw [set_cell_self, hcell, Option.map_some]
      · rw [set_cell_of_ne h _ hba, hb]
  | cons z l ih =>
      obtain ⟨c, z⟩ := z
      have hnodup := hl.nodup
      obtain ⟨rfl, next, hcell, hrest⟩ := spells_cons.mp hl
      refine spells_cons.mpr ⟨rfl, next, ?_, ih hrest fun hm => hnew (List.mem_cons_of_mem _ hm)⟩
      rw [set_cell_of_ne, hcell]
      rintro rfl
      refine (List.nodup_cons.mp hnodup).1 ?_
      simp

/-- A pointer to a single new block. -/
theorem spells_alloc (h : Heap α) (x : α) : (h.alloc x).Spells (some h.fresh) [(h.fresh, x)] :=
  spells_cons.mpr ⟨rfl, none, h.alloc_cell_self x, trivial⟩

/-- A new block is on no walk so far. -/
theorem Spells.alloc (hl : h.Spells p l) (x : α) : (h.alloc x).Spells p l :=
  hl.congr fun a ha => h.alloc_cell_of_ne x (by have := hl.lt ha; omega)

/-- Walk until the contents satisfy `stop`, with the block before the one that the walk is at. There is
no result when the walk meets an address without a block, or takes more than the given steps. -/
def find (h : Heap α) (stop : α → Bool) : Nat → Option Nat → Option Nat → Option (Option Nat × Option Nat)
  | 0, _, _ => none
  | _ + 1, prev, none => some (prev, none)
  | n + 1, prev, some a =>
    match h.cell a with
    | none => none
    | some node => if stop node.val then some (prev, some a) else h.find stop n (some a) node.next

/-- The address that a walk over a list comes from at its end. -/
def last (prev : Option Nat) (l : List (Nat × α)) : Option Nat := l.foldl (fun _ z => some z.1) prev

/-- The walk goes to the end, or stops at the first block that satisfies `stop`. -/
theorem Spells.find (hl : h.Spells p l) (stop : α → Bool) {n : Nat} (hn : l.length < n)
    (prev : Option Nat) :
    (∀ z ∈ l, stop z.2 = false) ∧ h.find stop n prev p = some (last prev l, none) ∨
      ∃ l₁ a x l₂ prev', l = l₁ ++ (a, x) :: l₂ ∧ (∀ z ∈ l₁, stop z.2 = false) ∧ stop x = true ∧
        h.find stop n prev p = some (prev', some a) := by
  induction l generalizing p n prev with
  | nil =>
      obtain rfl := spells_nil.mp hl
      cases n with
      | zero => cases hn
      | succ n => exact Or.inl ⟨fun z hz => absurd hz List.not_mem_nil, rfl⟩
  | cons z l ih =>
      obtain ⟨a, x⟩ := z
      obtain ⟨rfl, next, hcell, hrest⟩ := spells_cons.mp hl
      cases n with
      | zero => cases hn
      | succ n =>
          have hn : l.length < n := Nat.lt_of_succ_lt_succ hn
          simp only [Heap.find, hcell]
          cases hs : stop x with
          | true =>
              refine Or.inr ⟨[], a, x, l, prev, rfl, ?_, hs, if_pos rfl⟩
              exact fun z hz => absurd hz List.not_mem_nil
          | false =>
              simp only [Bool.false_eq_true, if_false]
              rcases ih hrest hn (some a) with ⟨hall, hfind⟩ | ⟨l₁, b, y, l₂, prev', rfl, hall, hy, hfind⟩
              · refine Or.inl ⟨fun z hz => ?_, hfind⟩
                rcases List.mem_cons.mp hz with rfl | hz
                · exact hs
                · exact hall z hz
              · refine Or.inr ⟨(a, x) :: l₁, b, y, l₂, prev', rfl, fun z hz => ?_, hy, hfind⟩
                rcases List.mem_cons.mp hz with rfl | hz
                · exact hs
                · exact hall z hz

/-- The contents along the links, with a bound on the steps. -/
def read (h : Heap α) : Nat → Option Nat → Option (List α)
  | 0, _ => none
  | _ + 1, none => some []
  | n + 1, some a => (h.cell a).bind fun node => (h.read n node.next).map (node.val :: ·)

theorem Spells.read (hl : h.Spells p l) {n : Nat} (hn : l.length < n) :
    h.read n p = some (l.map Prod.snd) := by
  induction l generalizing p n with
  | nil =>
      obtain rfl := spells_nil.mp hl
      cases n with
      | zero => cases hn
      | succ n => rfl
  | cons z l ih =>
      obtain ⟨a, x⟩ := z
      obtain ⟨rfl, next, hcell, hrest⟩ := spells_cons.mp hl
      cases n with
      | zero => cases hn
      | succ n =>
          have hn : l.length < n := Nat.lt_of_succ_lt_succ hn
          simp only [Heap.read, hcell, Option.bind_some, ih hrest hn, Option.map_some, List.map_cons]

end Heap

end Linked
