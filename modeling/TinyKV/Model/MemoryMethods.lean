import TinyKV.Model.MemoryStore

/-!
# All methods of the in-memory store

Every public method of `MemoryStore` as one call, with the reading of the
clock it is made at and what it returns. The two that return the contents of
the map return them in the order in which the map keeps its keys.
-/

namespace TinyKV

inductive MemoryMethod
  | put (key value : Str)
  | putWithExpireAt (key value : Str) (expireAtMs : Int)
  | putTtl (key value : Str) (ttlSeconds : Int)
  | get (key : Str)
  | del (key : Str)
  | exists_ (key : Str)
  | expire (key : Str) (ttlSeconds : Int)
  | expireAt (key : Str) (expireAtMs : Int)
  | ttl (key : Str)
  | setMaxKeys (maxKeys : Nat)
  | size
  | snapshotEntries
  | replaceWithSnapshot (entries : List StoreEntry)
  | snapshot
  | clear
  deriving DecidableEq, Repr

inductive MemoryResult
  | flag (b : Bool)
  | value (v : Option Str)
  | seconds (n : Int)
  | count (n : Nat)
  | entries (es : List StoreEntry)
  | pairs (ps : List (Str × Str))
  | nothing
  deriving DecidableEq, Repr

namespace MemoryMethod

def exec (now : Int) (s : MemoryStore) : MemoryMethod → MemoryResult × MemoryStore
  | put key value => (s.put now key value).map .flag id
  | putWithExpireAt key value d => (s.putWithExpireAt now key value d).map .flag id
  | putTtl key value ttlSeconds => (s.putTtl now key value ttlSeconds).map .flag id
  | get key => (s.get now key).map .value id
  | del key => (s.del key).map .flag id
  | exists_ key => (s.exists_ now key).map .flag id
  | expire key ttlSeconds => (s.expire now key ttlSeconds).map .flag id
  | expireAt key d => (s.expireAt now key d).map .flag id
  | ttl key => (s.ttl now key).map .seconds id
  | setMaxKeys maxKeys => (.nothing, s.setMaxKeys now maxKeys)
  | size => (s.size now).map .count id
  | snapshotEntries => (s.snapshotEntries now).map .entries id
  | replaceWithSnapshot entries => (s.replaceWithSnapshot now entries).map .flag id
  | snapshot => (s.snapshot now).map (fun out => .pairs (out.entries.map fun kv => (kv.1, kv.2))) id
  | clear => (.nothing, s.clear)

/-- Methods called one after the other, each with the clock it is called at. -/
def execAll (s : MemoryStore) : List (Int × MemoryMethod) → List MemoryResult × MemoryStore
  | [] => ([], s)
  | (now, m) :: rest =>
    let (result, s) := m.exec now s
    (execAll s rest).map (result :: ·) id

end MemoryMethod

end TinyKV
