import Afs.Model.Common

/-!
# The table as a map

What `get` returns after `put`, the distance between names with different hashes, and the place
of server times among the recorded values: a time is never the modified flag, and two times
compare as their nanosecond parts do.
-/

namespace Afs

open Posix

/-- A chain returns the value put last for a key. -/
theorem getChain_putChain_self (key value : Int64) (l : List HashNode) :
    getChain key (putChain key value l) = value := by
  induction l with
  | nil => simp only [putChain, getChain, if_true]
  | cons n rest ih =>
      by_cases h : key = n.key
      · simp only [putChain, h, if_true, getChain]
      · simp only [putChain, h, if_false, getChain, ih]

/-- Putting one key leaves the others of the chain. -/
theorem getChain_putChain_of_ne {key key' : Int64} (hne : key' ≠ key) (value : Int64)
    (l : List HashNode) : getChain key' (putChain key value l) = getChain key' l := by
  induction l with
  | nil => simp only [putChain, getChain, hne, if_false]
  | cons n rest ih =>
      by_cases h : key = n.key
      · subst h
        simp only [putChain, if_true, getChain, hne, if_false]
      · simp only [putChain, h, if_false, getChain, ih]

/-- A node of a chain after `put` is the one put or one of before. -/
theorem mem_putChain {key value : Int64} {n : HashNode} {l : List HashNode}
    (h : n ∈ putChain key value l) : n = ⟨key, value⟩ ∨ n ∈ l := by
  induction l with
  | nil => exact Or.inl (List.mem_singleton.mp h)
  | cons m rest ih =>
      by_cases hk : key = m.key
      · simp only [putChain, hk, if_true, List.mem_cons] at h
        rcases h with rfl | hold
        · exact Or.inl (by rw [hk])
        · exact Or.inr (List.mem_cons_of_mem m hold)
      · simp only [putChain, hk, if_false, List.mem_cons] at h
        rcases h with rfl | hrest
        · exact Or.inr List.mem_cons_self
        · exact (ih hrest).imp_right (List.mem_cons_of_mem m)

@[simp] theorem HashTable.get_put_self (ht : HashTable) (p : Path) (value : Int64) :
    (ht.put (hashKey p) value).get p = value := by
  simp only [HashTable.get, HashTable.put, Function.update_self, getChain_putChain_self]

/-- A chain with the value for a key stays as it is; the value of a missing key is `-1`. -/
theorem putChain_of_getChain {key value : Int64} (hne : value ≠ -1) {l : List HashNode}
    (h : getChain key l = value) : putChain key value l = l := by
  induction l with
  | nil => exact absurd h.symm hne
  | cons n rest ih =>
      by_cases hk : key = n.key
      · simp only [getChain, hk, if_true] at h
        simp only [putChain, hk, if_true, ← h]
      · simp only [getChain, hk, if_false] at h
        simp only [putChain, hk, if_false, ih h]

/-- Recording a value changes nothing exactly when it is there already. -/
theorem HashTable.put_eq_self_iff {ht : HashTable} {p : Path} {value : Int64} (hne : value ≠ -1) :
    ht.put (hashKey p) value = ht ↔ ht.get p = value := by
  constructor
  · intro h
    rw [← h, get_put_self]
  · intro h
    unfold HashTable.put
    rw [putChain_of_getChain hne h, Function.update_eq_self]

/-- Recording one file leaves the value of every file with another hash. -/
theorem HashTable.get_put_of_ne (ht : HashTable) {key : Int64} {q : Path} (hne : hashKey q ≠ key)
    (value : Int64) : (ht.put key value).get q = ht.get q := by
  simp only [HashTable.get, HashTable.put]
  by_cases hb : bucket (hashKey q) = bucket key
  · rw [hb, Function.update_self, getChain_putChain_of_ne hne]
  · rw [Function.update_of_ne hb]

@[simp] theorem get_initHt (p : Path) : initHt.get p = -1 := rfl

/-- Reinterpreting the hash as a `long` keeps different hashes apart. -/
theorem hashKey_ne {p q : Path} (h : hashfilename p ≠ hashfilename q) : hashKey p ≠ hashKey q := by
  intro he
  apply h
  have hh := congrArg Int64.toUInt64 he
  simpa only [hashKey, UInt64.toUInt64_toInt64] using hh

/-- A nanosecond part travels in the 64-bit field of a reply without change. -/
theorem toInt_time (t : Timespec) : (Int64.ofNat t.tv_nsec).toInt = t.tv_nsec := by
  have h := t.tv_nsec_lt
  exact Int64.toInt_ofNat_of_lt (by omega)

/-- A nanosecond part travels in the 32-bit field of the attributes without change. -/
theorem toInt_mtime (t : Timespec) : (Int32.ofNat t.tv_nsec).toInt = t.tv_nsec := by
  have h := t.tv_nsec_lt
  exact Int32.toInt_ofNat_of_lt (by omega)

/-- A server time is never the modified flag. -/
theorem time_ne_modifiedFlag (t : Timespec) : Int64.ofNat t.tv_nsec ≠ modifiedFlag := by
  intro h
  have hh := congrArg Int64.toInt h
  rw [toInt_time] at hh
  have hm : modifiedFlag.toInt = -12345678 := by decide
  omega

end Afs
