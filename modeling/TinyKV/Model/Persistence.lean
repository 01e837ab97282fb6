import TinyKV.Model.KVStore
import TinyKV.Model.MemoryStore

/-!
# The persistent store

`PersistentMemoryStore` is a `MemoryStore` that writes every update to a log
before applying it, and after `snapshot_threshold` applied updates replaces
the snapshot file by the current contents and empties the log. `init` fills
the memory from both files.

The snapshot lists the entries of an `unordered_map`, in whatever order the
map iterates; `IterOrder` stands for that order.
-/

namespace TinyKV

/-! ## Reading the files into memory -/

/-- The store of the server, with its clock at `now`. -/
def MemoryStore.kvStore (now : Int) : KVStore MemoryStore where
  putWithExpireAt s key value d := s.putWithExpireAt now key value d
  expireAt s key d := s.expireAt now key d
  del s key := s.del key

/-- One line of `WriteAheadLog::replay`, applied to the store. -/
def replayLine (now : Int) : MemoryStore → Str → Except LoadError MemoryStore :=
  (MemoryStore.kvStore now).replayLine

/-- `WriteAheadLog::replay`. -/
def replay (now : Int) : MemoryStore → Str → Except LoadError MemoryStore :=
  (MemoryStore.kvStore now).replay

/-- `SnapshotFile::load`. -/
def snapshotLoad (now : Int) : MemoryStore → Option Str → Except LoadError MemoryStore :=
  (MemoryStore.kvStore now).load

/-! ## The persistent store -/

/-- The order in which an `unordered_map` hands out its entries. -/
structure IterOrder where
  arrange : List StoreEntry → List StoreEntry
  perm : ∀ l, (arrange l).Perm l

/-- The order in which the model's map keeps its keys. -/
def IterOrder.asStored : IterOrder := ⟨id, fun _ => List.Perm.refl _⟩

structure PersistentMemoryStore where
  memory : MemoryStore
  wal : Str
  snapshot : Option Str
  snapshotThreshold : Nat
  opsSinceSnapshot : Nat

namespace PersistentMemoryStore

/-- `init` on the files found on disk, with its clock at `now`. The bound on
the number of keys is set by the caller afterwards. -/
def init (now : Int) (wal : Str) (snapshot : Option Str) (snapshotThreshold : Nat) :
    Except LoadError PersistentMemoryStore := do
  let memory ← snapshotLoad now {} snapshot
  let memory ← replay now memory wal
  .ok ⟨memory, wal, snapshot, snapshotThreshold, 0⟩

def maybeSnapshotLocked (ord : IterOrder) (now : Int) (s : PersistentMemoryStore) :
    Bool × PersistentMemoryStore :=
  if s.snapshotThreshold = 0 ∨ s.opsSinceSnapshot < s.snapshotThreshold then (true, s)
  else
    let (entries, memory) := s.memory.snapshotEntries now
    (true, { s with
      memory := memory
      snapshot := some (snapshotText (ord.arrange entries))
      wal := []
      opsSinceSnapshot := 0 })

def putWithExpireAt (ord : IterOrder) (now : Int) (s : PersistentMemoryStore)
    (key value : Str) (expireAtMs : Int) : Bool × PersistentMemoryStore :=
  let s := { s with wal := walAppend s.wal (.put key value expireAtMs) }
  match s.memory.putWithExpireAt now key value expireAtMs with
  | (false, memory) => (false, { s with memory := memory })
  | (true, memory) =>
    maybeSnapshotLocked ord now
      { s with memory := memory, opsSinceSnapshot := s.opsSinceSnapshot + 1 }

def put (ord : IterOrder) (now : Int) (s : PersistentMemoryStore) (key value : Str) :
    Bool × PersistentMemoryStore :=
  s.putWithExpireAt ord now key value 0

def putTtl (ord : IterOrder) (now : Int) (s : PersistentMemoryStore) (key value : Str)
    (ttlSeconds : Int) : Bool × PersistentMemoryStore :=
  if ttlSeconds ≤ 0 then (false, s)
  else s.putWithExpireAt ord now key value (MemoryStore.ttlToExpireAtMs now ttlSeconds)

def del (ord : IterOrder) (now : Int) (s : PersistentMemoryStore) (key : Str) :
    Bool × PersistentMemoryStore :=
  maybeSnapshotLocked ord now
    { s with
      wal := walAppend s.wal (.del key)
      memory := (s.memory.del key).2
      opsSinceSnapshot := s.opsSinceSnapshot + 1 }

def expireAt (ord : IterOrder) (now : Int) (s : PersistentMemoryStore) (key : Str)
    (expireAtMs : Int) : Bool × PersistentMemoryStore :=
  let s := { s with wal := walAppend s.wal (.expire key expireAtMs) }
  match s.memory.expireAt now key expireAtMs with
  | (false, memory) => (false, { s with memory := memory })
  | (true, memory) =>
    maybeSnapshotLocked ord now
      { s with memory := memory, opsSinceSnapshot := s.opsSinceSnapshot + 1 }

def expire (ord : IterOrder) (now : Int) (s : PersistentMemoryStore) (key : Str)
    (ttlSeconds : Int) : Bool × PersistentMemoryStore :=
  if ttlSeconds ≤ 0 then (false, s)
  else s.expireAt ord now key (MemoryStore.ttlToExpireAtMs now ttlSeconds)

/-- `replace_with_snapshot`, all file steps succeeding. -/
def replaceWithSnapshot (ord : IterOrder) (now : Int) (s : PersistentMemoryStore)
    (entries : List StoreEntry) : Bool × PersistentMemoryStore :=
  match s.memory.replaceWithSnapshot now entries with
  | (false, memory) => (false, { s with memory := memory })
  | (true, memory) =>
    let (kept, memory) := memory.snapshotEntries now
    (true, { s with
      memory := memory
      snapshot := some (snapshotText (ord.arrange kept))
      wal := []
      opsSinceSnapshot := 0 })

end PersistentMemoryStore

end TinyKV
