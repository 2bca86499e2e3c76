import Afs.Core.Guards
import Afs.Core.Widths
import Afs.Ops.Script

/-!
# Byte counts and their buffers

A length travels from `off_t` through `int` and the `int32` of a message to the `size_t` of a
string or of `write`. A negative number becomes a huge count on the last step, and the number in a
message says nothing about the bytes beside it.
-/

namespace Afs

open Posix Interaction

/-- A number of 32 bits with a sign, as a `size_t`: too large for any buffer when it is negative. -/
theorem sizeT_int32_le_iff (size : Int32) {n : Nat} (hn : n < 2 ^ 63) :
    sizeT size.toInt ≤ n ↔ 0 ≤ size.toInt ∧ size.toInt ≤ n := by
  have hlow : -2 ^ 31 ≤ size.toInt := Int32.le_toInt size
  have hhigh : size.toInt < 2 ^ 31 := Int32.toInt_lt size
  simp only [sizeT]
  omega

/-- A length of 64 bits cut to `int`: the count that comes of it stays within the length exactly
when the upper bit of the lower half is clear. -/
theorem sizeT_ofInt_le_iff {st_size : Int} (hlow : 0 ≤ st_size) (hhigh : st_size < 2 ^ 63) :
    sizeT (Int32.ofInt st_size).toInt ≤ sizeT st_size ↔ st_size % 2 ^ 32 < 2 ^ 31 := by
  have hcut : (Int32.ofInt st_size).toInt = st_size.bmod (2 ^ 32) := Int32.toInt_ofInt
  have hsize : sizeT st_size = st_size.toNat := by
    simp only [sizeT]
    omega
  rw [hsize, sizeT_int32_le_iff _ (by omega), hcut, Int.bmod_def]
  omega

/-- A write that takes its bytes from within a buffer, whatever stands behind it. -/
def writesWithin (buf beyond : Bytes) : Sys → Prop
  | .write _ mem count => mem = buf ++ beyond ∧ count ≤ buf.length
  | _ => True

namespace Server

/-- Every write of a handler takes its bytes from within a buffer. -/
def WritesWithin (buf beyond : Bytes) : procSig.Cmd → Prop
  | .sys c => writesWithin buf beyond c
  | .errno => True

/-- The handler's write stays inside the transferred bytes exactly when the size in the request is
not negative and not larger than they are. -/
theorem afsStore_writesWithin_iff (junk : Junk) (root_path : Path) (request : StoreReq)
    (hbuf : request.buf.length < 2 ^ 63) :
    (afsStore junk root_path request).Uses (WritesWithin request.buf junk.beyond) ↔
      0 ≤ request.size.toInt ∧ request.size.toInt ≤ request.buf.length := by
  rw [← sizeT_int32_le_iff _ hbuf]
  constructor
  · intro h
    have hwrite := Prog.Uses.after h (0 : Int)
    rw [if_neg (by decide)] at hwrite
    exact hwrite.1.2
  · intro h
    refine Prog.Uses.call trivial fun fd => ?_
    split
    · exact Prog.Uses.call trivial fun e => Prog.uses_ret _
    · refine Prog.Uses.call ⟨rfl, h⟩ fun _ => Prog.Uses.call trivial fun res => ?_
      exact Prog.Uses.call trivial fun _ => Prog.uses_ret _

end Server

namespace Client

/-- Every write of an operation takes its bytes from within a buffer, or is the text of the table as
a whole. -/
def WritesWithin (buf beyond : Bytes) : clientSig.Cmd → Prop
  | .sys (.write _ mem count) =>
    (∃ ht, mem = dumpText ht ∧ count ≤ mem.length) ∨ (mem = buf ++ beyond ∧ count ≤ buf.length)
  | _ => True

/-- The fetch is answered with this reply. -/
def FetchGives (reply : FetchReply) : (c : clientSig.Cmd) → clientSig.Res c → Prop
  | .retried (.fetch _), r => r = some reply
  | _, _ => True

section Open

variable {reply : FetchReply} {junk : Junk} {path cache_path : Path}

/-- Writing out the table stays within every buffer. -/
theorem record_writesWithin (buf beyond : Bytes) (value : Int64) :
    (record path cache_path value).Guarded (FetchGives reply) (WritesWithin buf beyond) True
      fun _ => True := by
  apply Prog.Guarded.call trivial
  intro _ _
  apply Prog.Guarded.call trivial
  intro fptr _
  by_cases hfptr : fptr = -1
  · simp only [hfptr, if_true]
    trivial
  · simp only [hfptr, if_false]
    apply Prog.Guarded.call trivial
    intro ht _
    apply Prog.Guarded.call (Or.inl ⟨ht, rfl, le_rfl⟩)
    exact fun _ _ => Prog.Guarded.call trivial fun _ _ => trivial

/-- A fetch hands over the bytes and the size of the reply. -/
theorem afsFetch_writesWithin (buf beyond : Bytes) :
    (afsFetch path cache_path).Guarded (FetchGives reply) (WritesWithin buf beyond) True
      fun x => x = (0, some (reply.buf, reply.size.toInt)) := by
  apply Prog.Guarded.call trivial
  intro status hstatus
  rw [show status = some reply from hstatus]
  exact Prog.Guarded.bind (record_writesWithin buf beyond reply.time) fun _ _ => rfl

theorem fetchNewCopy_writesWithin (fd : Int)
    (hcount : sizeT reply.size.toInt ≤ reply.buf.length) :
    (fetchNewCopy junk path cache_path fd).Guarded (FetchGives reply)
      (WritesWithin reply.buf junk.beyond) True fun _ => True := by
  apply Prog.Guarded.call trivial
  intro rc _
  by_cases hrc : rc < 0
  · simp only [hrc, if_true]
    exact Prog.Guarded.call trivial fun e _ => trivial
  · simp only [hrc, if_false]
    refine Prog.Guarded.bind (afsFetch_writesWithin reply.buf junk.beyond) ?_
    rintro x rfl
    apply Prog.Guarded.call (Or.inr ⟨rfl, hcount⟩)
    exact fun _ _ => Prog.Guarded.call trivial fun _ _ => trivial

/-- The decision to fetch writes nothing. -/
theorem openCopy_writesWithin (buf beyond : Bytes) :
    (openCopy junk path cache_path).Guarded (FetchGives reply) (WritesWithin buf beyond) True
      fun _ => True := by
  apply Prog.Guarded.call trivial
  intro fd _
  by_cases hfd : fd = -1
  · simp only [hfd, if_true]
    exact Prog.Guarded.call trivial fun fd _ => trivial
  · simp only [hfd, if_false]
    refine Prog.Guarded.bind (P := fun _ => True) ?_ fun x _ => Prog.Guarded.call trivial fun _ _ =>
      trivial
    apply Prog.Guarded.call trivial
    intro status _
    cases status with
    | none => exact Prog.Guarded.call trivial fun e _ => trivial
    | some m =>
        by_cases herr : m.err ≠ 0
        · simp only [if_pos herr]
          trivial
        · simp only [if_neg herr]
          trivial

/-- The write of an open stays inside the transferred bytes, whatever stands behind them, exactly
when the size in the reply is not negative and not larger than they are. -/
theorem afsOpen_writesWithin_iff (path cache_path : Path) (fh : Int) (reply : FetchReply)
    (hbuf : reply.buf.length < 2 ^ 63) :
    (∀ junk : Junk, (afsOpen junk path cache_path fh).Guarded (FetchGives reply)
      (WritesWithin reply.buf junk.beyond) True fun _ => True) ↔
      0 ≤ reply.size.toInt ∧ reply.size.toInt ≤ reply.buf.length := by
  rw [← sizeT_int32_le_iff _ hbuf]
  constructor
  · intro h
    have hopened := (h .zero).2 (-1 : Int) trivial
    simp only [Prog.bind, if_true] at hopened
    have htruncated := (hopened.2 (0 : Int) trivial).2 (0 : Int) trivial
    simp only [Prog.bind, lt_irrefl, if_false] at htruncated
    have hdumped := ((htruncated.2 (some reply) rfl).2 () trivial).2 (0 : Int) trivial
    simp only [Prog.bind, zero_eq_neg, one_ne_zero, if_false] at hdumped
    have hwrite : WritesWithin reply.buf [] (.sys (.write 0 (reply.buf ++ [])
        (sizeT reply.size.toInt))) :=
      (((hdumped.2 initHt trivial).2 (0 : Int) trivial).2 (0 : Int) trivial).1
    rcases hwrite with ⟨ht, -, hcount⟩ | ⟨-, hcount⟩
    · rwa [List.append_nil] at hcount
    · exact hcount
  · intro hcount junk
    refine Prog.Guarded.bind (openCopy_writesWithin reply.buf junk.beyond) fun x _ => ?_
    by_cases hfetch : x.2 = true
    · simp only [hfetch, if_true]
      refine Prog.Guarded.bind (fetchNewCopy_writesWithin x.1 hcount) fun early _ => ?_
      cases early with
      | none => exact Prog.Guarded.call trivial fun _ _ => trivial
      | some rc => trivial
    · simp only [hfetch]
      exact Prog.Guarded.call trivial fun _ _ => trivial

end Open

/-- A release finds the flag and a copy of this length, and its opens succeed. -/
def ReleaseSees (st_size : Int) : (c : clientSig.Cmd) → clientSig.Res c → Prop
  | .sys (.lstat _), r => ∃ info, r = some info ∧ info.st_size = st_size
  | .sys (.openF ..), r => r ≠ (-1 : Int)
  | .get _, r => r = modifiedFlag
  | _, _ => True

/-- Recording a time does not end the process where the table's file opens. -/
theorem record_survives {path cache_path : Path} {st_size : Int} (value : Int64) :
    (record path cache_path value).Guarded (ReleaseSees st_size) (fun _ => True) False
      fun _ => True := by
  apply Prog.Guarded.call trivial
  intro _ _
  apply Prog.Guarded.call trivial
  intro fptr hfptr
  have hopened : ¬ fptr = -1 := hfptr
  simp only [hopened, if_false]
  exact Prog.Guarded.call trivial fun ht _ => Prog.Guarded.call trivial fun _ _ =>
    Prog.Guarded.call trivial fun _ _ => trivial

/-- A store that may build its request ends in no other way. -/
theorem afsStore_survives {path cache_path : Path} {buf : Bytes} {size : Int32} {st_size : Int}
    (hsize : 0 ≤ size.toInt) :
    (afsStore path cache_path buf size).Guarded (ReleaseSees st_size) (fun _ => True) False
      fun _ => True := by
  have hnot : ¬ size < 0 := fun h => absurd (Int32.lt_iff_toInt_lt.mp h) (Int.not_lt.mpr hsize)
  unfold afsStore
  simp only [hnot, if_false]
  apply Prog.Guarded.call trivial
  intro status _
  cases status with
  | none => trivial
  | some reply => exact Prog.Guarded.bind (record_survives reply.time) fun _ _ => trivial

/-- The process survives a release exactly when the cut length, as the count that builds the string
of the request, stays within the buffer. -/
theorem afsRelease_survives_iff (junk : Junk) (path cache_path : Path) (fh : Int) {st_size : Int}
    (hlow : 0 ≤ st_size) (hhigh : st_size < 2 ^ 63) :
    (afsRelease junk path cache_path fh).Guarded (ReleaseSees st_size) (fun _ => True) False
      (fun _ => True) ↔
      sizeT (Int32.ofInt st_size).toInt ≤ (junk.heap (sizeT st_size)).length := by
  have hcount : sizeT (Int32.ofInt st_size).toInt ≤ (junk.heap (sizeT st_size)).length ↔
      0 ≤ (Int32.ofInt st_size).toInt := by
    rw [junk.length_heap, sizeT_ofInt_le_iff hlow hhigh, Int32.toInt_ofInt, Int32.size,
      Int.bmod_def]
    omega
  rw [hcount]
  constructor
  · intro h
    by_contra hneg
    have hflag := (h.2 (some { junk.info with st_size := st_size }) ⟨_, rfl, rfl⟩).2 modifiedFlag rfl
    simp only [Prog.bind, if_true] at hflag
    have hopened : (0 : Int) ≠ -1 := by decide
    have hstore := ((hflag.2 (0 : Int) trivial).2 (0 : Int) hopened).2 none trivial
    have hlt : Int32.ofInt st_size < 0 := Int32.lt_iff_toInt_lt.mpr (Int.not_le.mp hneg)
    simp only [Prog.bind, afsStore, Option.getD_some, hlt, if_true] at hstore
    exact hstore
  · intro hsize
    apply Prog.Guarded.call trivial
    rintro _ ⟨info, rfl, rfl⟩
    apply Prog.Guarded.call trivial
    rintro _ rfl
    simp only [if_true]
    refine Prog.Guarded.call trivial fun rc _ => Prog.Guarded.call trivial fun fd _ =>
      Prog.Guarded.call trivial fun got _ => ?_
    exact Prog.Guarded.bind (afsStore_survives hsize) fun _ _ => trivial

end Client

/-- The three counts and their buffers, for every length of a cached file, every request and every
reply: the string of a store request in a release, the write of a store at the server, and the write
of an open. A buffer of the C++ library is shorter than half of the address space. -/
theorem byte_counts_within_iff (junk : Junk) (root_path path cache_path : Path) (fh : Int)
    (st_size : Int) (request : StoreReq) (reply : FetchReply) (hlow : 0 ≤ st_size)
    (hhigh : st_size < 2 ^ 63) (hrequest : request.buf.length < 2 ^ 63)
    (hreply : reply.buf.length < 2 ^ 63) :
    (sizeT (Int32.ofInt st_size).toInt ≤ (junk.heap (sizeT st_size)).length ↔
      st_size % 2 ^ 32 < 2 ^ 31) ∧
    ((Client.afsRelease junk path cache_path fh).Guarded (Client.ReleaseSees st_size)
      (fun _ => True) False (fun _ => True) ↔ st_size % 2 ^ 32 < 2 ^ 31) ∧
    ((Server.afsStore junk root_path request).Uses
      (Server.WritesWithin request.buf junk.beyond) ↔
        0 ≤ request.size.toInt ∧ request.size.toInt ≤ request.buf.length) ∧
    ((∀ junk : Junk, (Client.afsOpen junk path cache_path fh).Guarded (Client.FetchGives reply)
      (Client.WritesWithin reply.buf junk.beyond) True fun _ => True) ↔
        0 ≤ reply.size.toInt ∧ reply.size.toInt ≤ reply.buf.length) := by
  have hstring : sizeT (Int32.ofInt st_size).toInt ≤ (junk.heap (sizeT st_size)).length ↔
      st_size % 2 ^ 32 < 2 ^ 31 := by
    rw [junk.length_heap, sizeT_ofInt_le_iff hlow hhigh]
  refine ⟨hstring, ?_, ?_, ?_⟩
  · rw [Client.afsRelease_survives_iff junk path cache_path fh hlow hhigh, hstring]
  · exact Server.afsStore_writesWithin_iff junk root_path request hrequest
  · exact Client.afsOpen_writesWithin_iff path cache_path fh reply hreply

/-- A file of two gigabytes and one byte, a request with the size of its byte, and a reply of three
bytes. -/
theorem byte_counts_within_sample :
    (sizeT (Int32.ofInt (2 ^ 31 + 1)).toInt ≤ (Junk.zero.heap (sizeT (2 ^ 31 + 1))).length ↔
      (2 ^ 31 + 1 : Int) % 2 ^ 32 < 2 ^ 31) ∧
    ((Client.afsRelease .zero sampleFile (cstr "/cache") 0).Guarded
      (Client.ReleaseSees (2 ^ 31 + 1)) (fun _ => True) False (fun _ => True) ↔
        (2 ^ 31 + 1 : Int) % 2 ^ 32 < 2 ^ 31) ∧
    ((Server.afsStore .zero (cstr "/srv") ⟨sampleFile, 1, [7]⟩).Uses
      (Server.WritesWithin [7] Junk.zero.beyond) ↔
        0 ≤ (1 : Int32).toInt ∧ (1 : Int32).toInt ≤ ([7] : Bytes).length) ∧
    ((∀ junk : Junk, (Client.afsOpen junk sampleFile (cstr "/cache") 0).Guarded
      (Client.FetchGives { size := 3, buf := [7, 8, 9] })
      (Client.WritesWithin [7, 8, 9] junk.beyond) True fun _ => True) ↔
        0 ≤ (3 : Int32).toInt ∧ (3 : Int32).toInt ≤ ([7, 8, 9] : Bytes).length) :=
  byte_counts_within_iff .zero (cstr "/srv") sampleFile (cstr "/cache") 0 (2 ^ 31 + 1)
    ⟨sampleFile, 1, [7]⟩ { size := 3, buf := [7, 8, 9] } (by decide) (by decide) (by decide)
    (by decide)

/-- A request that announces five bytes and carries one. -/
theorem store_writes_past_request :
    ¬ (Server.afsStore .zero (cstr "/srv") ⟨sampleFile, 5, [1]⟩).Uses
      (Server.WritesWithin [1] Junk.zero.beyond) := by
  intro h
  have hbounds := (Server.afsStore_writesWithin_iff .zero (cstr "/srv") ⟨sampleFile, 5, [1]⟩
    (by decide)).mp h
  exact absurd hbounds.2 (by decide)

end Afs
