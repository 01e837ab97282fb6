import TinyKV.Model.Persistence

/-!
# The store behind the server

`KVStore` is an abstract class with two implementations, and `init_store`
picks one of them by `wal_enabled`. `Store` is the object behind the
server's `m_store` pointer: one of the two, with the virtual calls
dispatched. The persistent store reads through to its memory.
-/

namespace TinyKV

/-- `ServerConfig::Store`, as far as the memory engine reads it. `validate`
refuses negative numbers. -/
structure StoreConfig where
  walEnabled : Bool := false
  snapshotThreshold : Nat := 1000
  maxKeys : Nat := 0
  deriving DecidableEq, Repr

inductive Store
  | memory (s : MemoryStore)
  | persistent (ord : IterOrder) (s : PersistentMemoryStore)

namespace Store

/-- The memory a read goes to. -/
def mem : Store → MemoryStore
  | .memory s => s
  | .persistent _ s => s.memory

def setMem : Store → MemoryStore → Store
  | .memory _, m => .memory m
  | .persistent ord s, m => .persistent ord { s with memory := m }

def put (now : Int) (s : Store) (key value : Str) : Bool × Store :=
  match s with
  | .memory s => (s.put now key value).map id .memory
  | .persistent ord s => (s.put ord now key value).map id (.persistent ord)

def putTtl (now : Int) (s : Store) (key value : Str) (ttlSeconds : Int) : Bool × Store :=
  match s with
  | .memory s => (s.putTtl now key value ttlSeconds).map id .memory
  | .persistent ord s => (s.putTtl ord now key value ttlSeconds).map id (.persistent ord)

def del (now : Int) (s : Store) (key : Str) : Bool × Store :=
  match s with
  | .memory s => (s.del key).map id .memory
  | .persistent ord s => (s.del ord now key).map id (.persistent ord)

def expire (now : Int) (s : Store) (key : Str) (ttlSeconds : Int) : Bool × Store :=
  match s with
  | .memory s => (s.expire now key ttlSeconds).map id .memory
  | .persistent ord s => (s.expire ord now key ttlSeconds).map id (.persistent ord)

def get (now : Int) (s : Store) (key : Str) : Option Str × Store :=
  (s.mem.get now key).map id s.setMem

def exists_ (now : Int) (s : Store) (key : Str) : Bool × Store :=
  (s.mem.exists_ now key).map id s.setMem

def ttl (now : Int) (s : Store) (key : Str) : Int × Store :=
  (s.mem.ttl now key).map id s.setMem

def snapshotEntries (now : Int) (s : Store) : List StoreEntry × Store :=
  (s.mem.snapshotEntries now).map id s.setMem

def replaceWithSnapshot (now : Int) (s : Store) (entries : List StoreEntry) :
    Bool × Store :=
  match s with
  | .memory s => (s.replaceWithSnapshot now entries).map id .memory
  | .persistent ord s =>
    (s.replaceWithSnapshot ord now entries).map id (.persistent ord)

/-- `KVServer::init_store` on the files found on disk. -/
def init (cfg : StoreConfig) (ord : IterOrder) (now : Int) (wal : Str)
    (snapshot : Option Str) : Except LoadError Store :=
  if cfg.walEnabled then do
    let s ← PersistentMemoryStore.init now wal snapshot cfg.snapshotThreshold
    .ok (.persistent ord { s with memory := s.memory.setMaxKeys now cfg.maxKeys })
  else .ok (.memory (({} : MemoryStore).setMaxKeys now cfg.maxKeys))

/-- `init_store` of a process that starts again on the files the last one
left. The memory engine leaves none. -/
def restart (now : Int) : Store → Except LoadError Store
  | .memory s => init { maxKeys := s.maxKeys } .asStored now [] none
  | .persistent ord s =>
    init ⟨true, s.snapshotThreshold, s.memory.maxKeys⟩ ord now s.wal s.snapshot

end Store

/-- `KVServer::apply_raft_entry_locked`. -/
def applyRaftEntryLocked (now : Int) (s : Store) (entry : RaftLogEntry) : Bool × Store :=
  match entry.type with
  | .put =>
    if 0 < entry.ttlSeconds then s.putTtl now entry.key entry.value entry.ttlSeconds
    else s.put now entry.key entry.value
  | .del => (true, (s.del now entry.key).2)
  | .expire => (true, (s.expire now entry.key entry.ttlSeconds).2)
  | _ => (false, s)

/-- The write that applying the entry at `now` makes, if it makes one. -/
def RaftLogEntry.recordAt (now : Int) (entry : RaftLogEntry) : Option WalRecord :=
  match entry.type with
  | .put =>
    if entry.key = [] then none
    else some (.put entry.key entry.value
      (if 0 < entry.ttlSeconds then now + entry.ttlSeconds * 1000 else 0))
  | .del => some (.del entry.key)
  | .expire =>
    if 0 < entry.ttlSeconds then
      some (.expire entry.key (now + entry.ttlSeconds * 1000))
    else none
  | _ => none

/-- Entries applied one after the other at one instant, whatever they answer. -/
def applyEntries (now : Int) (s : Store) (es : List RaftLogEntry) : Store :=
  es.foldl (fun s entry => (applyRaftEntryLocked now s entry).2) s

end TinyKV
