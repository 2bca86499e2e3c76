import Afs.Core.Strings
import Afs.Core.Syscall
import Mathlib.Data.Nat.Digits.Defs

/-!
# Paths and the timestamp table

The path builders, the table from file names to times with its hash functions, and its text
form on disk, as both programs include them from `commonheaders.h`. C integers are fixed-width
here, so shifts, products and conversions wrap as they do there.
-/

namespace Afs

open Posix

/-- The bytes of a string literal. -/
def cstr (s : String) : Path := s.toList.map fun c => c.toNat.toUInt8

/-- Size of every path buffer. -/
def MAX_PATH_LENGTH : Nat := 1000

/-- Number of chains of the table. -/
def HTABLESIZE : Nat := 100

/-- Two `strncat` calls: each bounds what it appends, not the total. The client's path comes out of a
message and may have any bytes, of which the string is the part before the first zero. -/
def getServerPath (clientpath root_path : Path) : Path :=
  root_path.take MAX_PATH_LENGTH ++ (CString.str clientpath).take MAX_PATH_LENGTH

/-- The cached copy of a file. -/
def getLocalPath (file_path cache_path : Path) : Path :=
  cache_path.take MAX_PATH_LENGTH ++ file_path.take MAX_PATH_LENGTH

/-- The temporary file of a write. -/
def getLocalTmpPath (file_path cache_path : Path) : Path :=
  cache_path.take MAX_PATH_LENGTH ++ file_path.take MAX_PATH_LENGTH ++ cstr "_tmp"

/-- The file inside the cache directory that keeps the table across restarts. -/
def databasePath : Path := cstr "/database.txt"

/-- A `char` promoted to `int` and then added to an `unsigned long`: plain `char` is signed. -/
def charToULong (c : UInt8) : UInt64 := c.toInt8.toInt64.toUInt64

/-- `hash * 33 + c` over the characters before the terminator, with wrap-around. -/
def hashfilename (str : Path) : UInt64 :=
  (str.takeWhile (· != 0)).foldl (fun hash c => ((hash <<< 5) + hash) + charToULong c) 5381

/-- The bucket function on 32-bit values. -/
def hashtableindex (x : UInt32) : UInt32 :=
  let x := ((x >>> 16) ^^^ x) * 0x45d9f3b
  let x := ((x >>> 16) ^^^ x) * 0x45d9f3b
  let x := (x >>> 16) ^^^ x
  x % 100

/-- The bucket function stays below the number of chains. -/
theorem hashtableindex_lt (x : UInt32) : (hashtableindex x).toNat < HTABLESIZE := by
  simp only [hashtableindex, UInt32.toNat_mod]
  exact Nat.mod_lt _ (by decide)

/-- One node of a chain. -/
structure HashNode where
  /-- The hash of the file name, as a `long`. -/
  key : Int64
  /-- A time in nanoseconds, or the modified flag. -/
  value : Int64
  deriving DecidableEq

/-- The table: a chain of nodes for every bucket. -/
structure HashTable where
  /-- The chains, from the head. -/
  chain : Fin HTABLESIZE → List HashNode

/-- `init_ht`: every chain empty. -/
def initHt : HashTable := ⟨fun _ => []⟩

/-- The value recorded for a modified file. -/
def modifiedFlag : Int64 := -12345678

/-- A file name's hash as the `long` that keys the table. -/
def hashKey (filename : Path) : Int64 := (hashfilename filename).toInt64

/-- The chain of a key, whose upper 32 bits the bucket function drops. -/
def bucket (key : Int64) : Fin HTABLESIZE :=
  ⟨(hashtableindex key.toInt32.toUInt32).toNat, hashtableindex_lt _⟩

/-- Walk a chain for a key; `-1` when it is not there. -/
def getChain (key : Int64) : List HashNode → Int64
  | [] => -1
  | n :: rest => if key = n.key then n.value else getChain key rest

/-- `get`: the value recorded for a file name, or `-1`. -/
def HashTable.get (ht : HashTable) (filename : Path) : Int64 :=
  getChain (hashKey filename) (ht.chain (bucket (hashKey filename)))

/-- Overwrite the value of a key in its chain, or append a node at the end. -/
def putChain (key value : Int64) : List HashNode → List HashNode
  | [] => [⟨key, value⟩]
  | n :: rest => if key = n.key then { n with value := value } :: rest else n :: putChain key value rest

/-- `put`. -/
def HashTable.put (ht : HashTable) (key value : Int64) : HashTable :=
  ⟨Function.update ht.chain (bucket key) (putChain key value (ht.chain (bucket key)))⟩

/-- Decimal digits of a natural number, most significant first. -/
def decimal (n : Nat) : Bytes :=
  if n = 0 then [48] else ((Nat.digits 10 n).map fun d => 48 + d.toUInt8).reverse

/-- The `%ld` conversion. -/
def printLong (x : Int64) : Bytes :=
  if x.toInt < 0 then 45 :: decimal x.toInt.natAbs else decimal x.toInt.natAbs

/-- One line of the database file. -/
def printNode (n : HashNode) : Bytes := printLong n.key ++ [44] ++ printLong n.value ++ [10]

/-- What `dump` prints: all chains in bucket order. -/
def dumpText (ht : HashTable) : Bytes :=
  (List.finRange HTABLESIZE).flatMap fun i => (ht.chain i).flatMap printNode

/-- The lines of a text as `getline` returns them, each with its newline if it has one. -/
def getlines : Bytes → List Bytes
  | [] => []
  | c :: cs =>
    if c = 10 then [10] :: getlines cs
    else match getlines cs with
      | [] => [[c]]
      | l :: ls => (c :: l) :: ls

/-- `isspace` in the C locale. -/
def isspace (c : UInt8) : Bool := c == 32 || (9 ≤ c && c ≤ 13)

/-- `isdigit`. -/
def isdigit (c : UInt8) : Bool := 48 ≤ c && c ≤ 57

/-- The value of the leading digits of a string. -/
def digitsValue (s : Bytes) : Nat :=
  (s.takeWhile isdigit).foldl (fun acc c => 10 * acc + (c.toNat - 48)) 0

/-- A mathematical integer cut to the range of `long`, as `strtol` does on overflow. -/
def clampLong (x : Int) : Int64 := Int64.ofInt (max (-2 ^ 63) (min (2 ^ 63 - 1) x))

/-- `atol`: blanks, a sign, digits; the rest is ignored. -/
def atol (s : Bytes) : Int64 :=
  match s.dropWhile isspace with
  | 45 :: ds => clampLong (-(digitsValue ds : Int))
  | 43 :: ds => clampLong (digitsValue ds)
  | ds => clampLong (digitsValue ds)

/-- `strsep` with a comma: the token, and the rest unless no comma was left. -/
def strsep (s : Bytes) : Bytes × Option Bytes :=
  match s.dropWhile (· != 44) with
  | [] => (s, none)
  | _ :: rest => (s.takeWhile (· != 44), some rest)

/-- One line of the database file inserted into the table. A line without a comma makes `atol`
read a null pointer, and a second comma makes `free` see a pointer into the middle of a block;
either ends the process. -/
def readLine (ht : HashTable) (line : Bytes) : Option HashTable :=
  match strsep (line.takeWhile (· != 0)) with
  | (_, none) => none
  | (k, some rest) =>
    match strsep rest with
    | (v, none) => some (ht.put (atol k) (atol v))
    | (_, some _) => none

/-- `read_from_database` on the contents of the file; `none` when the process dies in it. -/
def readFromDatabase (text : Bytes) (ht : HashTable) : Option HashTable :=
  (getlines text).foldlM readLine ht

end Afs
