import Mathlib.Data.List.AList

/-!
# Strings, commands and store entries

The vocabulary every other module speaks. A `std::string` is a sequence of
bytes with no encoding attached, so it is a list of bytes here; literals of
the source are spelled as character lists and go through `bytes`.
-/

namespace TinyKV

/-- A `std::string`: bytes, in order, no encoding attached. -/
abbrev Str := List UInt8

/-- A source literal as bytes. -/
def bytes (cs : List Char) : Str := cs.map fun c => UInt8.ofNat c.toNat

/-- `CommandType` of `protocol/request.h`. -/
inductive CommandType
  | ping | put | get | del | exists | expire | ttl
  | replicaPut | replicaGet | replicaDel | replicaExpire
  | raftPut | raftDel | raftExpire
  | raftRequestVote | raftAppendEntries | raftStatus | raftInstallSnapshot
  | metrics | unknown
  deriving DecidableEq, Repr

/-- `StoreEntry` of `storage/kv_store.h`: what a snapshot carries per key. -/
structure StoreEntry where
  key : Str
  value : Str
  expireAtMs : Int
  deriving DecidableEq, Repr

/-- `KVServer::RaftLogEntry`. -/
structure RaftLogEntry where
  index : Int
  term : Int
  type : CommandType
  key : Str
  value : Str
  ttlSeconds : Int
  deriving DecidableEq, Repr

end TinyKV
