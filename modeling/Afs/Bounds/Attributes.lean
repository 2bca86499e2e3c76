import Afs.Core.Widths
import Afs.Ops.Script

/-!
# The attribute message

What is left of a `struct stat` behind the reply of the server's `afs_GETATTR` and the client's
reading of it. Most fields come through for every value. The inode and the number of links lose
their upper half, two times lose everything beyond 32 bits, and the field of the modification time
carries the nanosecond part, which the client puts into the seconds.
-/

namespace Afs

open Posix Interaction

/-- `struct stat` with the types of a 64-bit system: whatever `lstat` can fill in. -/
structure StructStat where
  st_ino : UInt64
  st_mode : UInt32
  st_nlink : UInt64
  st_uid : UInt32
  st_gid : UInt32
  st_size : Int64
  st_blksize : Int64
  st_blocks : Int64
  st_atime : Int64
  st_mtime : Int64
  /-- The nanosecond part of the modification time. -/
  tv_nsec : Fin 1000000000
  st_ctime : Int64

/-- The values of the fields. -/
def StructStat.stat (s : StructStat) : Stat where
  st_ino := s.st_ino.toNat
  st_mode := s.st_mode.toNat
  st_nlink := s.st_nlink.toNat
  st_uid := s.st_uid.toNat
  st_gid := s.st_gid.toNat
  st_size := s.st_size.toInt
  st_blksize := s.st_blksize.toInt
  st_blocks := s.st_blocks.toInt
  st_atime := s.st_atime.toInt
  st_mtim := ⟨s.st_mtime.toInt, s.tv_nsec, s.tv_nsec.isLt⟩
  st_ctime := s.st_ctime.toInt

/-- The eleven fields that the message carries are the same, the times in seconds. -/
structure SameAttributes (a b : Stat) : Prop where
  ino : a.st_ino = b.st_ino
  mode : a.st_mode = b.st_mode
  nlink : a.st_nlink = b.st_nlink
  uid : a.st_uid = b.st_uid
  gid : a.st_gid = b.st_gid
  size : a.st_size = b.st_size
  blksize : a.st_blksize = b.st_blksize
  blocks : a.st_blocks = b.st_blocks
  atime : a.st_atime = b.st_atime
  mtime : a.st_mtime = b.st_mtime
  ctime : a.st_ctime = b.st_ctime

/-- The attributes that the message can carry: those whose narrow fields fit, and whose modification
time has as many seconds as nanoseconds. -/
structure StructStat.Carried (s : StructStat) : Prop where
  ino : s.st_ino.toNat < 2 ^ 32
  nlink : s.st_nlink.toNat < 2 ^ 32
  atime : -2 ^ 31 ≤ s.st_atime.toInt ∧ s.st_atime.toInt < 2 ^ 31
  mtime : s.st_mtime.toInt = s.tv_nsec
  ctime : -2 ^ 31 ≤ s.st_ctime.toInt ∧ s.st_ctime.toInt < 2 ^ 31

namespace Server

/-- The reply of `afs_GETATTR` for the attributes that `lstat` gave. -/
def getattrRes (stats : Stat) : GetattrRes where
  ino := UInt32.ofInt stats.st_ino
  mode := Int32.ofInt stats.st_mode
  nlink := UInt32.ofInt stats.st_nlink
  uid := UInt32.ofInt stats.st_uid
  gid := UInt32.ofInt stats.st_gid
  size := Int64.ofInt stats.st_size
  blksize := Int64.ofInt stats.st_blksize
  blocks := Int64.ofInt stats.st_blocks
  atime := Int32.ofInt stats.st_atime
  mtime := Int32.ofNat stats.st_mtim.tv_nsec
  ctime := Int32.ofInt stats.st_ctime
  err := 0

/-- Where `lstat` succeeds, the handler answers with its attributes. -/
theorem run_afsGetattr {S : Type} {m : Machine procSig S} {root_path path : Path} {v v' : S}
    {stats : Stat}
    (hstat : m (.sys (.lstat (getServerPath path root_path))) v = (some stats, v')) :
    (afsGetattr root_path path).run m v = (some { reply := getattrRes stats }, v') := by
  rw [afsGetattr, Prog.run_call_bind, hstat]
  rfl

end Server

namespace Client

/-- The client decodes a reply without an error. -/
theorem run_afsGetattr {T : Type} {m : Machine clientSig T} {path : Path} {old : Stat} {t t' : T}
    {reply : GetattrRes} (hrpc : m (.retried (.getattr path)) t = (some reply, t'))
    (herr : reply.err = 0) :
    (afsGetattr path old).run m t = (some (0, statOfReply reply), t') := by
  rw [afsGetattr, Prog.run_call_bind, hrpc]
  simp only [herr, ne_eq, not_true_eq_false, if_false, Prog.pure_eq, Prog.run_ret]

end Client

namespace StructStat

variable (s : StructStat)

/-- The attributes behind the message. -/
def received : Stat := Client.statOfReply (Server.getattrRes s.stat)

theorem received_ino_iff : s.received.st_ino = s.stat.st_ino ↔ s.st_ino.toNat < 2 ^ 32 :=
  Int.ofNat_inj.trans (Widths.uint32_ofInt_eq_iff _)

theorem received_nlink_iff : s.received.st_nlink = s.stat.st_nlink ↔ s.st_nlink.toNat < 2 ^ 32 :=
  Int.ofNat_inj.trans (Widths.uint32_ofInt_eq_iff _)

theorem received_mode : s.received.st_mode = s.stat.st_mode := by
  change ((Int32.ofInt (s.st_mode.toNat : Int)).toUInt32.toNat : Int) = _
  rw [Widths.uint32_of_int32]
  rfl

theorem received_uid : s.received.st_uid = s.stat.st_uid :=
  Int.ofNat_inj.mpr ((Widths.uint32_ofInt_eq_iff _).mpr s.st_uid.toNat_lt)

theorem received_gid : s.received.st_gid = s.stat.st_gid :=
  Int.ofNat_inj.mpr ((Widths.uint32_ofInt_eq_iff _).mpr s.st_gid.toNat_lt)

/-- The three fields of 64 bits come through. -/
theorem received_size : s.received.st_size = s.stat.st_size ∧
    s.received.st_blksize = s.stat.st_blksize ∧ s.received.st_blocks = s.stat.st_blocks := by
  have hwide : ∀ x : Int64, (Int64.ofInt x.toInt).toInt = x.toInt := fun x => by
    rw [Int64.ofInt_toInt]
  exact ⟨hwide s.st_size, hwide s.st_blksize, hwide s.st_blocks⟩

theorem received_atime_iff : s.received.st_atime = s.stat.st_atime ↔
    -2 ^ 31 ≤ s.st_atime.toInt ∧ s.st_atime.toInt < 2 ^ 31 :=
  Widths.int32_ofInt_eq_iff _

theorem received_ctime_iff : s.received.st_ctime = s.stat.st_ctime ↔
    -2 ^ 31 ≤ s.st_ctime.toInt ∧ s.st_ctime.toInt < 2 ^ 31 :=
  Widths.int32_ofInt_eq_iff _

/-- The seconds that the client reads are the nanosecond part at the server. -/
theorem received_mtime : s.received.st_mtime = s.tv_nsec := by
  apply Widths.int32_ofNat_eq
  have hlt := s.tv_nsec.isLt
  change s.tv_nsec.val < 2 ^ 31
  omega

/-- The message is lossless exactly for the attributes that it can carry. -/
theorem sameAttributes_received_iff : SameAttributes s.received s.stat ↔ s.Carried := by
  constructor
  · intro h
    constructor
    · exact s.received_ino_iff.mp h.ino
    · exact s.received_nlink_iff.mp h.nlink
    · exact s.received_atime_iff.mp h.atime
    · exact h.mtime.symm.trans s.received_mtime
    · exact s.received_ctime_iff.mp h.ctime
  · intro h
    obtain ⟨hsize, hblksize, hblocks⟩ := s.received_size
    constructor
    · exact s.received_ino_iff.mpr h.ino
    · exact s.received_mode
    · exact s.received_nlink_iff.mpr h.nlink
    · exact s.received_uid
    · exact s.received_gid
    · exact hsize
    · exact hblksize
    · exact hblocks
    · exact s.received_atime_iff.mpr h.atime
    · exact s.received_mtime.trans h.mtime.symm
    · exact s.received_ctime_iff.mpr h.ctime

end StructStat

/-- A `struct stat` goes through the server's handler and the client's operation unchanged exactly
when the message can carry it. The two machines are any in which the server's `lstat` gives this
structure and the client's remote call gives the handler's reply. -/
theorem attribute_message_lossless_iff {S T : Type} {server : Machine procSig S}
    {client : Machine clientSig T} (s : StructStat) (root_path path : Path) (old : Stat) {v v' : S}
    {t t' : T}
    (hstat : server (.sys (.lstat (getServerPath path root_path))) v = (some s.stat, v'))
    (hrpc : client (.retried (.getattr path)) t =
      ((((Server.afsGetattr root_path path).run server v).1.map fun m => m.reply), t')) :
    ∃ stats, (Client.afsGetattr path old).run client t = (some (0, stats), t') ∧
      (SameAttributes stats s.stat ↔ s.Carried) := by
  rw [Server.run_afsGetattr hstat] at hrpc
  exact ⟨s.received, Client.run_afsGetattr hrpc rfl, s.sameAttributes_received_iff⟩

/-- The attributes of a file of one byte, modified at the given time. -/
def sampleStat (sec : Int64) (nsec : Fin 1000000000) : StructStat :=
  ⟨0, 33272, 1, 0, 0, 1, 4096, 1, 0, sec, nsec, 0⟩

/-- The server with one file of one byte, modified at the given time. -/
def modifiedAt (sec nsec : Nat) : World (Bool) :=
  World.boot sample [(sampleFile, [1], sampleTime sec nsec)]

/-- A time of seven seconds and seven nanoseconds comes through. -/
theorem attribute_message_lossless_sample :
    ∃ stats, (Client.afsGetattr sampleFile Junk.zero.stats).run (Env.exec ⟨cstr "/srv", .zero⟩)
        ((modifiedAt 7 7).state false (sampleTime 9 0) [] []) = (some (0, stats),
          (Env.exec ⟨cstr "/srv", .zero⟩ (.retried (.getattr sampleFile))
            ((modifiedAt 7 7).state false (sampleTime 9 0) [] [])).2) ∧
      (SameAttributes stats (sampleStat 7 7).stat ↔ (sampleStat 7 7).Carried) := by
  have hstat : ProcCmd.exec (.sys (.lstat (getServerPath sampleFile (cstr "/srv"))))
      (modifiedAt 7 7).server = (some (sampleStat 7 7).stat, (modifiedAt 7 7).server) := rfl
  exact attribute_message_lossless_iff (sampleStat 7 7) (cstr "/srv") sampleFile Junk.zero.stats
    hstat rfl

/-- A file modified five seconds after the epoch: the client is told that it was modified at the
epoch. -/
theorem attribute_message_loses_seconds :
    ∃ stats t, (Client.afsGetattr sampleFile Junk.zero.stats).run (Env.exec ⟨cstr "/srv", .zero⟩)
        ((modifiedAt 5 0).state false (sampleTime 9 0) [] []) = (some (0, stats), t) ∧
      (modifiedAt 5 0).server.fs.lstat (getServerPath sampleFile (cstr "/srv")) =
        .ok (sampleStat 5 0).stat ∧
      ¬ SameAttributes stats (sampleStat 5 0).stat := by
  refine ⟨_, _, rfl, rfl, fun h => ?_⟩
  have hseconds : (0 : Int) = 5 := h.mtime
  omega

end Afs
