import TinyKV.Model.Persistence

/-!
# The persistent store, one file step at a time

`Model/Persistence` takes every file step to succeed and shows the files
only between two calls. Here a call also hands out the files as they stand
after each of its steps (the append to the log, the steps of
`SnapshotFile::save` and those of `WriteAheadLog::reset`), and an outcome is
given for every step of the last two. The append itself succeeds whenever
the log's stream is open, which a failed `reset` leaves it not to be.

The temporary file `save` writes to is not part of the files: no function
reads it, and `save` truncates it before use.
-/

namespace TinyKV

/-- The two files `init` reads. -/
structure StoreFiles where
  wal : Str
  snapshot : Option Str
  deriving DecidableEq, Repr

/-- How `SnapshotFile::save` goes: the directory or the temporary file fails
before the first rename, the first rename succeeds, or it fails and `remove`
and the second rename each go one way or the other. -/
inductive SaveOutcome
  | notWritten
  | renamed
  | replaced (removed again : Bool)
  deriving DecidableEq, Repr

/-- What `save` returns. -/
def SaveOutcome.saved : SaveOutcome → Bool
  | .notWritten => false
  | .renamed => true
  | .replaced _ again => again

/-- The files after each step of `save` that concerns them. -/
def SaveOutcome.steps (text : Str) (f : StoreFiles) : SaveOutcome → List StoreFiles
  | .notWritten => []
  | .renamed => [{ f with snapshot := some text }]
  | .replaced removed again =>
    let f' := if removed then { f with snapshot := none } else f
    [f', if again then { f' with snapshot := some text } else f']

/-- How `WriteAheadLog::reset` goes: opening with `trunc` fails, reopening
for appending fails, or neither. -/
inductive ResetOutcome
  | notTruncated | notReopened | done
  deriving DecidableEq, Repr

/-- What `reset` returns, which is also whether the stream is open after it. -/
def ResetOutcome.reopened : ResetOutcome → Bool
  | .notTruncated | .notReopened => false
  | .done => true

def ResetOutcome.steps (f : StoreFiles) : ResetOutcome → List StoreFiles
  | .notTruncated => []
  | .notReopened | .done => [{ f with wal := [] }]

/-- The outcomes of one call's file steps. -/
structure FileOutcomes where
  save : SaveOutcome := .renamed
  reset : ResetOutcome := .done
  deriving DecidableEq, Repr

/-- The store with the state of the log's stream `m_out`. -/
structure SteppedStore where
  store : PersistentMemoryStore
  walOpen : Bool

/-- What a call leaves: its answer, the store, and the files after each of
its file steps, in order. -/
structure SteppedResult where
  answer : Bool
  after : SteppedStore
  trace : List StoreFiles

namespace SteppedStore

def files (s : SteppedStore) : StoreFiles := ⟨s.store.wal, s.store.snapshot⟩

def setFiles (s : SteppedStore) (f : StoreFiles) : SteppedStore :=
  { s with store := { s.store with wal := f.wal, snapshot := f.snapshot } }

/-- `maybe_snapshot_locked`. A failed `save` or `reset` keeps the count, so
the next update tries again. -/
def maybeSnapshotLocked (ord : IterOrder) (now : Int) (o : FileOutcomes) (s : SteppedStore) :
    SteppedResult :=
  if s.store.snapshotThreshold = 0 ∨ s.store.opsSinceSnapshot < s.store.snapshotThreshold then
    ⟨true, s, []⟩
  else
    let (entries, memory) := s.store.memory.snapshotEntries now
    let saving := o.save.steps (snapshotText (ord.arrange entries)) s.files
    let s := { s with store := { s.store with memory := memory } }
    let s := s.setFiles (saving.getLastD s.files)
    if o.save.saved then
      let emptying := o.reset.steps s.files
      let s := { s.setFiles (emptying.getLastD s.files) with walOpen := o.reset.reopened }
      if o.reset.reopened then
        ⟨true, { s with store := { s.store with opsSinceSnapshot := 0 } }, saving ++ emptying⟩
      else ⟨false, s, saving ++ emptying⟩
    else ⟨false, s, saving⟩

/-- What the memory does with a record; `del` goes on whatever it answers. -/
def applyMemory (now : Int) (memory : MemoryStore) : WalRecord → Bool × MemoryStore
  | .put key value d => memory.putWithExpireAt now key value d
  | .expire key d => memory.expireAt now key d
  | .del key => (true, (memory.del key).2)

/-- The shape `put_with_expire_at`, `del` and `expire_at` share: append the
record, apply it, count it and see whether a snapshot is due. -/
def update (ord : IterOrder) (now : Int) (o : FileOutcomes) (s : SteppedStore)
    (r : WalRecord) : SteppedResult :=
  if s.walOpen then
    let s := s.setFiles { s.files with wal := walAppend s.store.wal r }
    match applyMemory now s.store.memory r with
    | (false, memory) =>
      ⟨false, { s with store := { s.store with memory := memory } }, [s.files]⟩
    | (true, memory) =>
      let r := maybeSnapshotLocked ord now o
        { s with store := { s.store with
            memory := memory, opsSinceSnapshot := s.store.opsSinceSnapshot + 1 } }
      { r with trace := s.files :: r.trace }
  else ⟨false, s, []⟩

def putWithExpireAt (ord : IterOrder) (now : Int) (o : FileOutcomes) (s : SteppedStore)
    (key value : Str) (expireAtMs : Int) : SteppedResult :=
  s.update ord now o (.put key value expireAtMs)

def put (ord : IterOrder) (now : Int) (o : FileOutcomes) (s : SteppedStore)
    (key value : Str) : SteppedResult :=
  s.putWithExpireAt ord now o key value 0

def putTtl (ord : IterOrder) (now : Int) (o : FileOutcomes) (s : SteppedStore)
    (key value : Str) (ttlSeconds : Int) : SteppedResult :=
  if ttlSeconds ≤ 0 then ⟨false, s, []⟩
  else s.putWithExpireAt ord now o key value (MemoryStore.ttlToExpireAtMs now ttlSeconds)

def del (ord : IterOrder) (now : Int) (o : FileOutcomes) (s : SteppedStore) (key : Str) :
    SteppedResult :=
  s.update ord now o (.del key)

def expireAt (ord : IterOrder) (now : Int) (o : FileOutcomes) (s : SteppedStore)
    (key : Str) (expireAtMs : Int) : SteppedResult :=
  s.update ord now o (.expire key expireAtMs)

def expire (ord : IterOrder) (now : Int) (o : FileOutcomes) (s : SteppedStore)
    (key : Str) (ttlSeconds : Int) : SteppedResult :=
  if ttlSeconds ≤ 0 then ⟨false, s, []⟩
  else s.expireAt ord now o key (MemoryStore.ttlToExpireAtMs now ttlSeconds)

end SteppedStore

/-! ## What the files say

Read off the files' text the way `replay` and `load` cut it into lines and
fields. -/

/-- The deadline a line of the log records. -/
def walDeadline (line : Str) : Option Int :=
  match Text.splitOn 9 line with
  | [_, _, _, d] => (stoll d).toOption
  | [tag, _, d] => if tag = tagExpire then (stoll d).toOption else none
  | _ => none

/-- The deadline a line of a snapshot records. -/
def snapshotDeadline (line : Str) : Option Int :=
  match Text.splitOn 9 line with
  | [_, _, d] => (stoll d).toOption
  | _ => none

/-- The key a line of the log puts or deletes. -/
def walRewritten (line : Str) : Option Str :=
  match Text.splitOn 9 line with
  | tag :: k :: _ => if tag = tagPut ∨ tag = tagDel then unescape k else none
  | _ => none

/-- The key of a line of a snapshot. -/
def snapshotKey (line : Str) : Option Str :=
  match Text.splitOn 9 line with
  | k :: _ => unescape k
  | [] => none

namespace StoreFiles

def walLines (f : StoreFiles) : List Str := Text.getlines 10 f.wal

/-- The lines of the snapshot after the first, which names its version. -/
def snapshotLines (f : StoreFiles) : List Str :=
  match f.snapshot with
  | none => []
  | some text => (Text.getlines 10 text).tail

def deadlines (f : StoreFiles) : List Int :=
  f.walLines.filterMap walDeadline ++ f.snapshotLines.filterMap snapshotDeadline

/-- No deadline the files record has passed at `now`. -/
def NonePassed (now : Int) (f : StoreFiles) : Prop :=
  ∀ d ∈ f.deadlines, ¬ (0 < d ∧ d ≤ now)

instance (now : Int) (f : StoreFiles) : Decidable (f.NonePassed now) :=
  inferInstanceAs (Decidable (∀ d ∈ _, _))

/-- Every key of the snapshot has been put or deleted since the log was last
emptied. -/
def Rewritten (f : StoreFiles) : Prop :=
  ∀ key ∈ f.snapshotLines.filterMap snapshotKey, key ∈ f.walLines.filterMap walRewritten

instance (f : StoreFiles) : Decidable f.Rewritten :=
  inferInstanceAs (Decidable (∀ key ∈ _, _))

end StoreFiles

end TinyKV
