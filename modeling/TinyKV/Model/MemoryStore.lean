import TinyKV.Model.Types

/-!
# The in-memory store

`MemoryStore` keeps a hash map from keys to entries and a linked list of
keys in recency order, front first. An entry holds an iterator into that
list. An iterator names a list node, not a position, so the nodes carry
identities here: `nextNode` is the identity the next `push_front` hands
out, and erasing through an iterator erases the node of that identity.

Every operation of the source that reads the clock takes the reading as
`now`, also where it reads it twice: `put` with a time to live and `expire`
once for the deadline and once under the lock. Times are counted in the
integers, without the bounds of a `long long`. The operations the source
declares `const` are not: the members are `mutable`, and a read purges an
expired key or moves a live one to the front, so reads return the new store as
well.
-/

namespace TinyKV

/-- `MemoryStore::Entry`. -/
structure Entry where
  value : Str
  expireAtMs : Int
  lruIt : Nat
  deriving DecidableEq, Repr

structure MemoryStore where
  data : AList (fun _ : Str => Entry) := ∅
  lru : List (Nat × Str) := []
  nextNode : Nat := 0
  maxKeys : Nat := 0

namespace MemoryStore

def expired (entry : Entry) (now : Int) : Bool :=
  decide (0 < entry.expireAtMs) && decide (entry.expireAtMs ≤ now)

def ttlToExpireAtMs (now ttlSeconds : Int) : Int := now + ttlSeconds * 1000

/-- `m_lru.erase(it)`: the node of that identity leaves the list. -/
def lruErase (it : Nat) (lru : List (Nat × Str)) : List (Nat × Str) :=
  lru.eraseP fun node => node.1 == it

/-- The pair `m_lru.erase(it->second.lru_it); m_data.erase(it)`. -/
def drop (s : MemoryStore) (key : Str) (entry : Entry) : MemoryStore :=
  { s with data := s.data.erase key, lru := lruErase entry.lruIt s.lru }

def touchLocked (s : MemoryStore) (key : Str) : MemoryStore :=
  match s.data.lookup key with
  | none => s
  | some entry =>
    { s with
      lru := (s.nextNode, key) :: lruErase entry.lruIt s.lru
      data := s.data.insert key { entry with lruIt := s.nextNode }
      nextNode := s.nextNode + 1 }

def evictExpiredLocked (s : MemoryStore) (now : Int) : MemoryStore :=
  s.data.entries.foldl
    (fun s kv => if expired kv.2 now then s.drop kv.1 kv.2 else s) s

/-- The `while` of `enforce_capacity_locked`, which pops from the back: the
recency list is given back to front. -/
def evictLru (maxKeys : Nat) (data : AList (fun _ : Str => Entry)) :
    List (Nat × Str) → AList (fun _ : Str => Entry) × List (Nat × Str)
  | [] => (data, [])
  | node :: rest =>
    if 0 < maxKeys ∧ maxKeys < data.keys.length then
      evictLru maxKeys (data.erase node.2) rest
    else (data, node :: rest)

def enforceCapacityLocked (s : MemoryStore) (now : Int) : MemoryStore :=
  let s := s.evictExpiredLocked now
  let (data, back) := evictLru s.maxKeys s.data s.lru.reverse
  { s with data := data, lru := back.reverse }

def putWithExpireAt (s : MemoryStore) (now : Int) (key value : Str)
    (expireAtMs : Int) : Bool × MemoryStore :=
  if key = [] then (false, s)
  else
    let s := match s.data.lookup key with
      | some entry =>
        let entry := { entry with value := value, expireAtMs := expireAtMs }
        { s with data := s.data.insert key entry }.touchLocked key
      | none =>
        { s with
          lru := (s.nextNode, key) :: s.lru
          data := s.data.insert key ⟨value, expireAtMs, s.nextNode⟩
          nextNode := s.nextNode + 1 }
    (true, s.enforceCapacityLocked now)

/-- What a client can see of a key at an instant: its value and deadline,
unless the deadline has passed. -/
def visible (s : MemoryStore) (now : Int) (key : Str) : Option StoreEntry :=
  match s.data.lookup key with
  | none => none
  | some entry =>
    if expired entry now then none else some ⟨key, entry.value, entry.expireAtMs⟩

def put (s : MemoryStore) (now : Int) (key value : Str) : Bool × MemoryStore :=
  s.putWithExpireAt now key value 0

def putTtl (s : MemoryStore) (now : Int) (key value : Str) (ttlSeconds : Int) :
    Bool × MemoryStore :=
  if ttlSeconds ≤ 0 then (false, s)
  else s.putWithExpireAt now key value (ttlToExpireAtMs now ttlSeconds)

def get (s : MemoryStore) (now : Int) (key : Str) : Option Str × MemoryStore :=
  match s.data.lookup key with
  | none => (none, s)
  | some entry =>
    if expired entry now then (none, s.drop key entry)
    else (some entry.value, s.touchLocked key)

def del (s : MemoryStore) (key : Str) : Bool × MemoryStore :=
  match s.data.lookup key with
  | none => (false, s)
  | some entry => (true, s.drop key entry)

def exists_ (s : MemoryStore) (now : Int) (key : Str) : Bool × MemoryStore :=
  let (value, s) := s.get now key
  (value.isSome, s)

def expireAt (s : MemoryStore) (now : Int) (key : Str) (expireAtMs : Int) :
    Bool × MemoryStore :=
  match s.data.lookup key with
  | none => (false, s)
  | some entry =>
    if expired entry now then (false, s.drop key entry)
    else
      let entry := { entry with expireAtMs := expireAtMs }
      (true, { s with data := s.data.insert key entry }.touchLocked key)

def expire (s : MemoryStore) (now : Int) (key : Str) (ttlSeconds : Int) :
    Bool × MemoryStore :=
  if ttlSeconds ≤ 0 then (false, s)
  else s.expireAt now key (ttlToExpireAtMs now ttlSeconds)

def ttl (s : MemoryStore) (now : Int) (key : Str) : Int × MemoryStore :=
  match s.data.lookup key with
  | none => (-2, s)
  | some entry =>
    if expired entry now then (-2, s.drop key entry)
    else if entry.expireAtMs = 0 then (-1, s)
    else
      let remainingMs := entry.expireAtMs - now
      (if remainingMs ≤ 0 then -2 else (remainingMs + 999).tdiv 1000, s)

def setMaxKeys (s : MemoryStore) (now : Int) (maxKeys : Nat) : MemoryStore :=
  { s with maxKeys := maxKeys }.enforceCapacityLocked now

def size (s : MemoryStore) (now : Int) : Nat × MemoryStore :=
  let s := s.evictExpiredLocked now
  (s.data.keys.length, s)

def snapshotEntries (s : MemoryStore) (now : Int) : List StoreEntry × MemoryStore :=
  let s := s.evictExpiredLocked now
  (s.data.entries.map fun kv => ⟨kv.1, kv.2.value, kv.2.expireAtMs⟩, s)

/-- One round of the loop of `replace_with_snapshot`. -/
def load (s : MemoryStore) (entry : StoreEntry) : MemoryStore :=
  { s with
    lru := (s.nextNode, entry.key) :: s.lru
    data := s.data.insert entry.key ⟨entry.value, entry.expireAtMs, s.nextNode⟩
    nextNode := s.nextNode + 1 }

/-- The loop stops at the first empty key, with the entries before it already
stored. -/
def loadEntries (s : MemoryStore) : List StoreEntry → Bool × MemoryStore
  | [] => (true, s)
  | entry :: rest => if entry.key = [] then (false, s) else (s.load entry).loadEntries rest

def clear (s : MemoryStore) : MemoryStore := { s with data := ∅, lru := [] }

def replaceWithSnapshot (s : MemoryStore) (now : Int) (entries : List StoreEntry) :
    Bool × MemoryStore :=
  match s.clear.loadEntries entries with
  | (false, s) => (false, s)
  | (true, s) => (true, s.enforceCapacityLocked now)

/-- `out.emplace(key, value)`: a key that is there already keeps its value. -/
def emplace (out : AList (fun _ : Str => Str)) (key value : Str) : AList (fun _ : Str => Str) :=
  if key ∈ out then out else out.insert key value

def snapshot (s : MemoryStore) (now : Int) : AList (fun _ : Str => Str) × MemoryStore :=
  let s := s.evictExpiredLocked now
  (s.data.entries.foldl (fun out kv => emplace out kv.1 kv.2.value) ∅, s)

end MemoryStore

end TinyKV
