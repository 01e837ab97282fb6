import TinyKV.Model.Persistence

/-!
# The methods of the persistent store

`PersistentMemoryStore` as its callers see it: any method, with any
arguments, at any reading of the clock. A method that returns nothing or a
value answers `true` here; `false` is the `return false` of the source.
-/

namespace TinyKV

/-- The methods that only read. They go straight to the memory, and purge
or touch what they meet there. -/
inductive StoreRead
  | get (key : Str)
  | exists_ (key : Str)
  | ttl (key : Str)
  | size
  | snapshotEntries
  deriving DecidableEq, Repr

/-- The memory a read leaves behind. -/
def StoreRead.leaves (now : Int) (m : MemoryStore) : StoreRead → MemoryStore
  | .get key => (m.get now key).2
  | .exists_ key => (m.exists_ now key).2
  | .ttl key => (m.ttl now key).2
  | .size => (m.size now).2
  | .snapshotEntries => (m.snapshotEntries now).2

inductive StoreCall
  | put (key value : Str)
  | putTtl (key value : Str) (ttlSeconds : Int)
  | putWithExpireAt (key value : Str) (expireAtMs : Int)
  | del (key : Str)
  | expire (key : Str) (ttlSeconds : Int)
  | expireAt (key : Str) (expireAtMs : Int)
  | read (r : StoreRead)
  | setMaxKeys (maxKeys : Nat)
  | replaceWithSnapshot (entries : List StoreEntry)
  deriving DecidableEq, Repr

def StoreCall.exec (ord : IterOrder) (now : Int) (s : PersistentMemoryStore) :
    StoreCall → Bool × PersistentMemoryStore
  | .put key value => s.put ord now key value
  | .putTtl key value ttl => s.putTtl ord now key value ttl
  | .putWithExpireAt key value d => s.putWithExpireAt ord now key value d
  | .del key => s.del ord now key
  | .expire key ttl => s.expire ord now key ttl
  | .expireAt key d => s.expireAt ord now key d
  | .read r => (true, { s with memory := r.leaves now s.memory })
  | .setMaxKeys maxKeys => (true, { s with memory := s.memory.setMaxKeys now maxKeys })
  | .replaceWithSnapshot entries => s.replaceWithSnapshot ord now entries

/-- The record the call appends to the log, unless it returns before that. -/
def StoreCall.record? (now : Int) : StoreCall → Option WalRecord
  | .put key value => some (.put key value 0)
  | .putTtl key value ttl =>
    if ttl ≤ 0 then none
    else some (.put key value (MemoryStore.ttlToExpireAtMs now ttl))
  | .putWithExpireAt key value d => some (.put key value d)
  | .del key => some (.del key)
  | .expire key ttl =>
    if ttl ≤ 0 then none else some (.expire key (MemoryStore.ttlToExpireAtMs now ttl))
  | .expireAt key d => some (.expire key d)
  | .read _ | .setMaxKeys _ | .replaceWithSnapshot _ => none

end TinyKV
