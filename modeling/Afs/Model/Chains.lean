import Afs.Core.Linked
import Afs.Model.Common

/-!
# The table with its nodes in memory

`commonheaders.h` keeps the table as an array of pointers to linked nodes. Here `put`, `get`, `dump`
and `read_from_database` follow the pointers. There is no result when a null or wild pointer is
followed; a walk is cut off after one step more than there are blocks.
-/

namespace Afs

open Posix

/-- The fields of a line, as `atol` reads them. A line without a comma makes `atol` read a null pointer,
and a second comma makes `free` see a pointer into the middle of a block. -/
def parseLine (line : Bytes) : Option HashNode :=
  match strsep (line.takeWhile (· != 0)) with
  | (_, none) => none
  | (k, some rest) =>
    match strsep rest with
    | (v, none) => some ⟨atol k, atol v⟩
    | (_, some _) => none

/-- The array `ht` and the nodes. -/
structure Chains where
  /-- `ht`: the first node of every chain. -/
  ht : Fin HTABLESIZE → Option Nat
  /-- The nodes made by `create_hash_node`. -/
  heap : Linked.Heap HashNode

namespace Chains

/-- The process before `init_ht`: the array is zero, and no node has been made. -/
def start : Chains := ⟨fun _ => none, .empty⟩

/-- `init_ht`: the pointers are forgotten, the nodes stay where they are. -/
def initHt (t : Chains) : Chains := { t with ht := fun _ => none }

/-- The loop over a chain, with `prev` and `temp_hn` at its end. -/
def walk (t : Chains) (hashfile : Int64) (h : Option Nat) : Option (Option Nat × Option Nat) :=
  t.heap.find (fun n => decide (hashfile = n.key)) (t.heap.fresh + 1) none h

/-- `get`. -/
def get (t : Chains) (filename : Path) : Option Int64 :=
  let hashfile := hashKey filename
  (t.walk hashfile (t.ht (bucket hashfile))).bind fun x =>
    match x.2 with
    | none => some (-1)
    | some temp_hn => (t.heap.cell temp_hn).map (·.val.value)

/-- `put`. -/
def put (t : Chains) (hashfilename timestamp : Int64) : Option Chains :=
  let hash_key := bucket hashfilename
  match t.ht hash_key with
  | none => some {
      ht := Function.update t.ht hash_key (some t.heap.fresh)
      heap := t.heap.alloc ⟨hashfilename, timestamp⟩ }
  | some h =>
    (t.walk hashfilename (some h)).bind fun x =>
      match x with
      | (_, some temp_hn) =>
        some { t with
          heap := t.heap.set temp_hn fun n => { n with val := { n.val with value := timestamp } } }
      | (none, none) => none
      | (some prev, none) =>
        some { t with
          heap := (t.heap.alloc ⟨hashfilename, timestamp⟩).set prev fun n =>
            { n with next := some t.heap.fresh } }

/-- Calls of `put` one after another. -/
def putAll (t : Chains) (l : List HashNode) : Option Chains := l.foldlM (fun t n => t.put n.key n.value) t

/-- The nodes of a chain, from the head. -/
def chain (t : Chains) (i : Fin HTABLESIZE) : Option (List HashNode) :=
  t.heap.read (t.heap.fresh + 1) (t.ht i)

/-- What `dump` prints. -/
def dump (t : Chains) : Option Bytes :=
  ((List.finRange HTABLESIZE).mapM t.chain).map fun chains => chains.flatten.flatMap printNode

/-- `read_from_database` on the contents of the file. -/
def readFromDatabase (text : Bytes) (t : Chains) : Option Chains :=
  (getlines text).foldlM (fun t line => (parseLine line).bind fun n => t.put n.key n.value) t

end Chains

end Afs
