import Afs.Core.Rolling
import Afs.Table.Lookup
import Mathlib.Data.UInt

/-!
# Which names share an entry

The table has one entry for all names of one hash. Whether two names of one length have one hash is a matter
of the part in which they differ, whatever is in front of it and behind it: a single byte tells them apart,
and two bytes may not.
-/

namespace Afs

open Posix Rolling
open scoped UInt64.CommRing

/-- What is recorded for the one name is what is looked up for the other. -/
def SharesEntry (p q : Path) : Prop :=
  ∀ (ht : HashTable) (value : Int64), (ht.put (hashKey p) value).get q = value

theorem sharesEntry_iff {p q : Path} : SharesEntry p q ↔ hashfilename p = hashfilename q := by
  constructor
  · intro h
    by_contra hne
    have hget := h initHt modifiedFlag
    rw [HashTable.get_put_of_ne _ (hashKey_ne (Ne.symm hne)), get_initHt] at hget
    exact absurd hget (by decide)
  · intro h ht value
    rw [hashKey, h]
    exact HashTable.get_put_self ht q value

/-- The shift and the sum multiply by 33. -/
private theorem shift_add (h : UInt64) : (h <<< 5) + h = 33 * h := by
  apply UInt64.toNat.inj
  have h33 : UInt64.toNat 33 = 33 := rfl
  have h5 : 2 ^ (UInt64.toNat 5 % 64) = 32 := rfl
  rw [UInt64.toNat_add, UInt64.toNat_shiftLeft, UInt64.toNat_mul, Nat.shiftLeft_eq, h33, h5]
  omega

private theorem isUnit_33 : IsUnit (33 : UInt64) :=
  ⟨⟨33, 1117984489315730401, by decide, by decide⟩, rfl⟩

/-- The hash of a file name is a rolling one. -/
theorem hashfilename_eq_roll (str : Path) :
    hashfilename str = roll 33 5381 ((str.takeWhile (· != 0)).map charToULong) := by
  unfold hashfilename roll
  rw [List.foldl_map]
  simp only [shift_add]

private theorem charToULong_injective : Function.Injective charToULong := by
  have hback : ∀ c, (charToULong c).toInt64.toInt8.toUInt8 = c := by
    intro c
    simp [charToULong]
  intro a b h
  rw [← hback a, h, hback]

private theorem takeWhile_append {p q : Path} (h : 0 ∉ p) :
    (p ++ q).takeWhile (· != 0) = p ++ q.takeWhile (· != 0) :=
  List.takeWhile_append_of_pos fun _ hc => bne_iff_ne.mpr fun h0 => h (h0 ▸ hc)

private theorem takeWhile_all {p : Path} (h : 0 ∉ p) : p.takeWhile (· != 0) = p := by
  simpa using takeWhile_append (q := []) h

/-- Parts of one length between the same bytes. -/
theorem hashfilename_replace_iff {p x y : Path} (q : Path) (hp : 0 ∉ p) (hx : 0 ∉ x) (hy : 0 ∉ y)
    (hlen : x.length = y.length) :
    hashfilename (p ++ x ++ q) = hashfilename (p ++ y ++ q) ↔ hashfilename x = hashfilename y := by
  simp only [hashfilename_eq_roll, List.append_assoc, takeWhile_append hp, takeWhile_append hx,
    takeWhile_append hy, takeWhile_all hx, takeWhile_all hy, List.map_append]
  rw [← List.append_assoc, ← List.append_assoc]
  exact roll_replace_iff isUnit_33 (by simpa using hlen)

/-- A word made of `ab` and `bA`. -/
def word (bits : List Bool) : Path := bits.flatMap fun b => if b then cstr "bA" else cstr "ab"

private theorem word_bytes (bits : List Bool) : 0 ∉ word bits ∧ (word bits).length = 2 * bits.length := by
  induction bits with
  | nil => exact ⟨List.not_mem_nil, rfl⟩
  | cons b bits ih =>
      have hone : 0 ∉ (if b then cstr "bA" else cstr "ab" : Path) ∧
          (if b then cstr "bA" else cstr "ab" : Path).length = 2 := by
        cases b <;> decide
      refine ⟨?_, ?_⟩
      · simp only [word, List.flatMap_cons, List.mem_append, not_or]
        exact ⟨hone.1, ih.1⟩
      · simp only [word, List.flatMap_cons, List.length_append, hone.2, List.length_cons]
        have := ih.2
        simp only [word] at this
        omega

/-- Either half of a word adds the same to a hash. -/
private theorem roll_word {bits bits' : List Bool} (hlen : bits.length = bits'.length) (h : UInt64) :
    roll 33 h ((word bits).map charToULong) = roll 33 h ((word bits').map charToULong) := by
  have hhalf : ∀ (b : Bool) (h : UInt64),
      roll 33 h ((if b then cstr "bA" else cstr "ab" : Path).map charToULong) =
      33 * (33 * h) + 3299 := by
    intro b h
    cases b with
    | false =>
        change 33 * (33 * h + 97) + 98 = _
        rw [mul_add, add_assoc]
        rfl
    | true =>
        change 33 * (33 * h + 98) + 65 = _
        rw [mul_add, add_assoc]
        rfl
  induction bits generalizing bits' h with
  | nil =>
      obtain rfl := List.length_eq_zero_iff.mp hlen.symm
      rfl
  | cons b bits ih =>
      cases bits' with
      | nil => cases hlen
      | cons b' bits' =>
          simp only [word, List.flatMap_cons, List.map_append, roll_append, hhalf]
          exact ih (Nat.succ.inj hlen) _

/-- Two names share an entry as far as the parts in which they differ do, if these have one length: names that
differ in one byte never share one, and there are as many names of one entry as there are words of a length,
in every directory and with every ending. -/
theorem shared_entries (p q : Path) (hp : 0 ∉ p) :
    (∀ x y : Path, 0 ∉ x → 0 ∉ y → x.length = y.length →
      (SharesEntry (p ++ x ++ q) (p ++ y ++ q) ↔ SharesEntry x y)) ∧
    (∀ a b : UInt8, a ≠ 0 → b ≠ 0 → (SharesEntry (p ++ [a] ++ q) (p ++ [b] ++ q) ↔ a = b)) ∧
    ∀ bits bits' : List Bool, bits.length = bits'.length →
      SharesEntry (p ++ word bits ++ q) (p ++ word bits' ++ q) := by
  refine ⟨fun x y hx hy hlen => ?_, fun a b ha hb => ?_, fun bits bits' hlen => ?_⟩
  · rw [sharesEntry_iff, sharesEntry_iff]
    exact hashfilename_replace_iff q hp hx hy hlen
  · have hone : ∀ c : UInt8, c ≠ 0 → hashfilename [c] = 33 * 5381 + charToULong c := by
      intro c hc
      rw [hashfilename_eq_roll, takeWhile_all (by simpa using hc.symm)]
      rfl
    have hpart := @hashfilename_replace_iff p [a] [b] q hp (by simpa using ha.symm) (by simpa using hb.symm) rfl
    rw [sharesEntry_iff, hpart, hone a ha, hone b hb]
    exact ⟨fun h => charToULong_injective (add_left_cancel h), fun h => h ▸ rfl⟩
  · rw [sharesEntry_iff]
    have hword := word_bytes bits
    have hword' := word_bytes bits'
    refine (hashfilename_replace_iff q hp hword.1 hword'.1 (by rw [hword.2, hword'.2, hlen])).mpr ?_
    rw [hashfilename_eq_roll, hashfilename_eq_roll, takeWhile_all hword.1, takeWhile_all hword'.1]
    exact roll_word hlen 5381

/-- Two names with one entry. -/
theorem shared_entries_sample : SharesEntry (cstr "/abab.c") (cstr "/bAab.c") :=
  (shared_entries (cstr "/") (cstr ".c") (by decide)).2.2 [false, false] [true, false] rfl

end Afs
