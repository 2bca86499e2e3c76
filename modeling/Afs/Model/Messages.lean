import Afs.Model.Common

/-!
# Messages of the service

The requests of `afs.proto` that the programs send and the replies they read, with the wire type
of every field. A handler answers with a status and a message; the client sees the message only
with an OK status.
-/

namespace Afs

open Posix

/-- `StoreReq`. -/
structure StoreReq where
  path : Path
  size : Int32
  buf : Bytes
  deriving DecidableEq

/-- `StoreRes`. -/
structure StoreRes where
  error : Int32 := 0
  time : Int64 := 0
  deriving DecidableEq

/-- `CreateRes`. -/
structure CreateRes where
  ack : Int32 := 0
  time : Int64 := 0
  deriving DecidableEq

/-- `FetchReply`. -/
structure FetchReply where
  error : Int32 := 0
  size : Int32 := 0
  buf : Bytes := []
  time : Int64 := 0
  deriving DecidableEq

/-- `GetattrRes`. -/
structure GetattrRes where
  ino : UInt32 := 0
  mode : Int32 := 0
  nlink : UInt32 := 0
  uid : UInt32 := 0
  gid : UInt32 := 0
  size : Int64 := 0
  blksize : Int64 := 0
  blocks : Int64 := 0
  atime : Int32 := 0
  mtime : Int32 := 0
  ctime : Int32 := 0
  err : Int32 := 0
  deriving DecidableEq

/-- `UnlinkRes`, `ChmodRes`, `MkdirRes` and `RmdirRes`: an error number and nothing else. -/
structure ErrorRes where
  error : Int32 := 0
  deriving DecidableEq

/-- `LsRes`, one element of the reply stream. -/
structure LsRes where
  error : Int32 := 0
  name : Path := []
  deriving DecidableEq

/-- The calls that the client makes. -/
inductive Request where
  | create (path : Path)
  | store (r : StoreReq)
  | getattr (path : Path)
  | unlink (path : Path)
  | chmod (path : Path) (mode : UInt32)
  | mkdir (path : Path) (mode : UInt32)
  | rmdir (path : Path)
  | fetch (path : Path)
  | ls (path : Path)
  deriving DecidableEq

/-- The reply message of each call; `ls` answers with a stream. -/
@[reducible] def Request.Reply : Request → Type
  | .create _ => CreateRes
  | .store _ => StoreRes
  | .getattr _ => GetattrRes
  | .unlink _ | .chmod .. | .mkdir .. | .rmdir _ => ErrorRes
  | .fetch _ => FetchReply
  | .ls _ => List LsRes

/-- A handler's status and message. -/
structure Response (α : Type) where
  /-- Whether the status is OK. -/
  ok : Bool := true
  /-- The message. -/
  reply : α

end Afs
