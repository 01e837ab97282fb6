import TinyKV.Model.RaftFiles
import TinyKV.Model.Store

/-!
# The server's half of Raft

`KVServer` owns the log. Everything that touches it runs under
`m_raft_log_mutex`, and what happens between two acquisitions of that mutex
is one function here: the update an AppendEntries request makes once the
router has accepted its term, the check, the installation and the update of
an InstallSnapshot request, the append and the commit of a client write.

Indices are the source's: the first entry of the log has the index after
`last_included_index`, and `raft_term_at_locked` answers −1 for an index it
does not know. The log is only contiguous if everything that touches it
keeps it so, and nothing here assumes it.

`applied` is not in the source. It records the calls of
`apply_raft_entry_locked`, with the index each entry was applied at.
-/

namespace TinyKV

/-! ## Requests and replies -/

/-- `RAFT_APPEND term success match_index`. The term is read when the answer
is written. -/
structure AppendReply where
  term : Int
  success : Bool
  matchIndex : Int
  deriving DecidableEq, Repr

/-- The fields of a `Request` that AppendEntries reads. `entries` is what
`decode_raft_entries_payload` makes of the payload: nothing if a line of it
is malformed. -/
structure AppendRequest where
  term : Int
  nodeId : Str
  prevLogIndex : Int := 0
  prevLogTerm : Int := 0
  leaderCommit : Int := 0
  entryCount : Int := 0
  entries : List RaftLogEntry := []
  logIndex : Int := -1
  logTerm : Int := 0
  raftOp : Str := []
  key : Str := []
  value : Str := []
  ttlSeconds : Int := 0
  deriving DecidableEq, Repr

/-- The fields of a `Request` that InstallSnapshot reads. `payload` is what
`install_snapshot_payload` parses, if it can. -/
structure InstallRequest where
  term : Int
  nodeId : Str
  lastLogIndex : Int
  lastLogTerm : Int
  payload : Option (List StoreEntry)
  deriving DecidableEq, Repr

/-- `RAFT_SNAPSHOT term success`. -/
structure InstallReply where
  term : Int
  success : Bool
  deriving DecidableEq, Repr

/-- The fields of a `Request` that a client write reads. -/
structure WriteRequest where
  type : CommandType
  key : Str
  value : Str
  ttlSeconds : Int
  deriving DecidableEq, Repr

/-- What `replicate_raft_write` copies in its first locked section and works
with from then on. -/
structure WriteSnapshot where
  entry : RaftLogEntry
  log : List RaftLogEntry
  commit : Int
  snapshotIndex : Int
  snapshotTerm : Int
  deriving DecidableEq, Repr

/-! ## The state -/

/-- `KVServer`, as far as Raft reads it, with the texts of its two files. -/
structure KVServer where
  router : Router
  store : Store
  raftLog : List RaftLogEntry := []
  raftCommitIndex : Int := 0
  raftLastApplied : Int := 0
  raftLastIncludedIndex : Int := 0
  raftLastIncludedTerm : Int := 0
  raftSnapshotThreshold : Int := 1
  raftLogFile : Option Str := none
  raftStateFile : Option Str := none
  applied : List (Int × RaftLogEntry) := []

namespace KVServer

def raftLastLogIndex (s : KVServer) : Int :=
  match s.raftLog.getLast? with
  | none => s.raftLastIncludedIndex
  | some entry => entry.index

def raftLastLogTerm (s : KVServer) : Int :=
  match s.raftLog.getLast? with
  | none => s.raftLastIncludedTerm
  | some entry => entry.term

/-- `raft_log_offset_locked`, where −1 is no offset. -/
def raftLogOffset (s : KVServer) (index : Int) : Option Nat :=
  let offset := index - s.raftLastIncludedIndex - 1
  if offset < 0 ∨ (s.raftLog.length : Int) ≤ offset then none else some offset.toNat

def raftTermAt (s : KVServer) (index : Int) : Int :=
  if index ≤ 0 then 0
  else if index = s.raftLastIncludedIndex then s.raftLastIncludedTerm
  else
    match s.raftLogOffset index with
    | none => -1
    | some offset =>
      match s.raftLog[offset]? with
      | none => -1
      | some entry => entry.term

/-! ## Files -/

def raftIndices (s : KVServer) : RaftIndices :=
  ⟨s.raftCommitIndex, s.raftLastApplied, s.raftLastIncludedIndex, s.raftLastIncludedTerm⟩

def persistRaftState (s : KVServer) : KVServer :=
  { s with raftStateFile := some (raftStateText s.raftIndices) }

def persistRaftLog (s : KVServer) : KVServer :=
  { s with raftLogFile := some (raftLogText s.raftLog) }

def persistRaft (s : KVServer) : KVServer := s.persistRaftLog.persistRaftState

/-- `m_router.update_log_info(raft_last_log_index_locked(), ...)`. -/
def updateLogInfo (s : KVServer) : KVServer :=
  { s with router := s.router.updateLogInfo s.raftLastLogIndex s.raftLastLogTerm }

/-! ## Applying and compacting -/

def compactRaftLogIfNeeded (s : KVServer) : KVServer :=
  let compactTo := s.raftLastApplied
  if compactTo ≤ s.raftLastIncludedIndex then s
  else if compactTo - s.raftLastIncludedIndex < s.raftSnapshotThreshold then s
  else
    let compactTerm := s.raftTermAt compactTo
    if compactTerm < 0 then s
    else
      updateLogInfo (persistRaft
        { s with
          raftLog := s.raftLog.filter fun entry => !decide (entry.index ≤ compactTo)
          raftLastIncludedIndex := compactTo
          raftLastIncludedTerm := compactTerm })

def applyNext (now : Int) (s : KVServer) (entry : RaftLogEntry) : KVServer :=
  { s with
    store := (applyRaftEntryLocked now s.store entry).2
    applied := s.applied ++ [(s.raftLastApplied + 1, entry)]
    raftLastApplied := entry.index }

/-- The loop of `apply_committed_raft_entries_locked`. In a contiguous log
every round raises `last_applied` by one. -/
def applyLoop (now : Int) : Nat → KVServer → KVServer
  | 0, s => s
  | fuel + 1, s =>
    if s.raftLastApplied < s.raftCommitIndex then
      match s.raftLogOffset (s.raftLastApplied + 1) with
      | none => s
      | some offset =>
        match s.raftLog[offset]? with
        | none => s
        | some entry => applyLoop now fuel (s.applyNext now entry)
    else s

def applyCommittedRaftEntries (now : Int) (s : KVServer) : KVServer :=
  let s :=
    if s.raftLastApplied < s.raftLastIncludedIndex then
      { s with raftLastApplied := s.raftLastIncludedIndex }
    else s
  let s := applyLoop now (s.raftCommitIndex - s.raftLastApplied).toNat s
  s.compactRaftLogIfNeeded.persistRaftState

/-! ## AppendEntries -/

/-- `m_raft_log.erase(begin + offset, end)` for the offset of an index, if
it has one. -/
def eraseFrom (s : KVServer) (index : Int) : KVServer :=
  match s.raftLogOffset index with
  | none => s
  | some offset => { s with raftLog := s.raftLog.take offset }

def pushBack (s : KVServer) (entry : RaftLogEntry) : KVServer :=
  { s with raftLog := s.raftLog ++ [entry] }

/-- The branch for a previous entry of another term. -/
def rejectPrev (s : KVServer) (prev : Int) : KVServer :=
  let s := s.eraseFrom prev
  updateLogInfo (persistRaft
    { s with
      raftCommitIndex := if prev ≤ s.raftCommitIndex then prev - 1 else s.raftCommitIndex
      raftLastApplied := if prev ≤ s.raftLastApplied then prev - 1 else s.raftLastApplied })

/-- One round of the batch loop, past its two checks: an entry of another
term goes with everything behind it, and an entry one past the end is
appended. -/
def appendOne (s : KVServer) (entry : RaftLogEntry) : KVServer :=
  let existing := s.raftTermAt entry.index
  let s := if existing ≠ -1 ∧ existing ≠ entry.term then s.eraseFrom entry.index else s
  if entry.index = s.raftLastLogIndex + 1 then s.pushBack entry else s

/-- The batch loop. `false` is a return out of the middle of it, which
leaves the file and the router's copy of the last entry as they were. -/
def appendLoop (s : KVServer) (expected : Int) : List RaftLogEntry → KVServer × Bool
  | [] => (s, true)
  | entry :: rest =>
    if entry.index ≠ expected then (s, false)
    else if s.raftLastLogIndex + 1 < entry.index then (s, false)
    else appendLoop (s.appendOne entry) (expected + 1) rest

/-- The single-entry form. -/
def appendSingle (s : KVServer) (request : AppendRequest) : KVServer :=
  let existing := s.raftTermAt request.logIndex
  let s := if existing ≠ -1 ∧ existing ≠ request.logTerm then
      persistRaft (s.eraseFrom request.logIndex)
    else s
  if request.logIndex = s.raftLastLogIndex + 1 then
    match opType request.raftOp with
    | none => s
    | some type =>
      updateLogInfo (persistRaftLog (s.pushBack
        ⟨request.logIndex, request.logTerm, type, request.key, request.value,
          request.ttlSeconds⟩))
  else s

def advanceCommit (now : Int) (s : KVServer) (leaderCommit : Int) : KVServer :=
  if s.raftCommitIndex < leaderCommit then
    applyCommittedRaftEntries now
      { s with raftCommitIndex := min leaderCommit s.raftLastLogIndex }
  else s

/-- The locked section of `handle_raft_append_entries`: the new state,
whether the request succeeded, and the index it answers. -/
def appendLocked (now : Int) (s : KVServer) (request : AppendRequest) :
    KVServer × Bool × Int :=
  if request.prevLogIndex < s.raftLastIncludedIndex then
    (s, false, s.raftLastIncludedIndex)
  else if s.raftLastLogIndex < request.prevLogIndex then
    (s, false, s.raftLastLogIndex)
  else if 0 < request.prevLogIndex ∧
      s.raftTermAt request.prevLogIndex ≠ request.prevLogTerm then
    let s := s.rejectPrev request.prevLogIndex
    (s, false, s.raftLastLogIndex)
  else if 0 < request.entryCount then
    if (request.entries.length : Int) ≠ request.entryCount then
      (s, false, s.raftLastLogIndex)
    else
      match s.appendLoop (request.prevLogIndex + 1) request.entries with
      | (s, false) => (s, false, s.raftLastLogIndex)
      | (s, true) =>
        let s := advanceCommit now s.persistRaftLog.updateLogInfo request.leaderCommit
        (s, true, s.raftLastLogIndex)
  else if 0 < request.logIndex then
    if s.raftLastLogIndex + 1 < request.logIndex then (s, false, s.raftLastLogIndex)
    else
      let s := advanceCommit now (s.appendSingle request) request.leaderCommit
      (s, true, s.raftLastLogIndex)
  else
    let s := advanceCommit now s request.leaderCommit
    (s, true, s.raftLastLogIndex)

/-- The router's part of the request, and whether the server takes it as a
refusal. -/
def checkTerm (s : KVServer) (term : Int) (leaderId : Str) : KVServer × Bool :=
  let (router, reply) := s.router.handleAppendEntries term leaderId
  ({ s with router := router }, !reply.refused)

/-- `handle_raft_append_entries` with nothing in between its sections. -/
def handleRaftAppendEntries (now : Int) (s : KVServer) (request : AppendRequest) :
    KVServer × AppendReply :=
  match s.checkTerm request.term request.nodeId with
  | (s, false) => (s, ⟨s.router.currentTerm, false, s.raftLastLogIndex⟩)
  | (s, true) =>
    let (s, success, matchIndex) := s.appendLocked now request
    (s, ⟨s.router.currentTerm, success, matchIndex⟩)

/-! ## InstallSnapshot -/

/-- The first locked section: a snapshot that brings nothing new. -/
def installCovered (s : KVServer) (request : InstallRequest) : Bool :=
  decide (request.lastLogIndex ≤ s.raftLastIncludedIndex)

/-- `install_snapshot_payload`, which does not take the mutex. -/
def installPayload (now : Int) (s : KVServer) (payload : Option (List StoreEntry)) :
    KVServer × Bool :=
  match payload with
  | none => (s, false)
  | some entries =>
    let (ok, store) := s.store.replaceWithSnapshot now entries
    ({ s with store := store }, ok)

/-- The second locked section. Entries behind the snapshot's last index stay. -/
def installSet (s : KVServer) (request : InstallRequest) : KVServer :=
  updateLogInfo (persistRaft
    { s with
      raftLastIncludedIndex := request.lastLogIndex
      raftLastIncludedTerm := request.lastLogTerm
      raftLog := s.raftLog.filter fun entry => !decide (entry.index ≤ request.lastLogIndex)
      raftCommitIndex := max s.raftCommitIndex request.lastLogIndex
      raftLastApplied := max s.raftLastApplied request.lastLogIndex })

/-- The InstallSnapshot branch of `process_request_line` with nothing in
between its sections. -/
def handleInstallSnapshot (now : Int) (s : KVServer) (request : InstallRequest) :
    KVServer × InstallReply :=
  match s.checkTerm request.term request.nodeId with
  | (s, false) => (s, ⟨s.router.currentTerm, false⟩)
  | (s, true) =>
    if s.installCovered request then (s, ⟨s.router.currentTerm, true⟩)
    else
      match s.installPayload now request.payload with
      | (s, false) => (s, ⟨s.router.currentTerm, false⟩)
      | (s, true) => (s.installSet request, ⟨s.router.currentTerm, true⟩)

/-! ## Client writes -/

/-- The first locked section of `replicate_raft_write`. The entry gets the
term the router has now, whatever role it has. -/
def appendWrite (s : KVServer) (request : WriteRequest) : KVServer × WriteSnapshot :=
  let entry : RaftLogEntry :=
    ⟨s.raftLastLogIndex + 1, s.router.currentTerm, request.type, request.key,
      request.value, request.ttlSeconds⟩
  let s := (s.pushBack entry).persistRaftLog.updateLogInfo
  (s, ⟨entry, s.raftLog, s.raftCommitIndex, s.raftLastIncludedIndex, s.raftLastIncludedTerm⟩)

/-- `encode_raft_append_batch`, as the receiver parses it. -/
def encodeRaftAppendBatch (s : KVServer) (entries : List RaftLogEntry)
    (prevIndex prevTerm leaderCommit : Int) : AppendRequest where
  term := match entries.getLast? with
    | none => s.router.currentTerm
    | some entry => entry.term
  nodeId := s.router.localId
  prevLogIndex := prevIndex
  prevLogTerm := prevTerm
  leaderCommit := leaderCommit
  entryCount := entries.length
  entries := entries
  logIndex := 0

/-- `encode_raft_commit`, as the receiver parses it. -/
def encodeRaftCommit (s : KVServer) (term leaderCommit prevIndex prevTerm : Int) :
    AppendRequest where
  term := term
  nodeId := s.router.localId
  prevLogIndex := prevIndex
  prevLogTerm := prevTerm
  leaderCommit := leaderCommit
  logIndex := 0

/-- `encode_raft_snapshot`, as the receiver parses it: the index and the
contents of this moment, under the term of the write. Listing the contents
purges the store. -/
def encodeRaftSnapshot (now : Int) (s : KVServer) (term : Int) :
    KVServer × InstallRequest :=
  let (entries, store) := s.store.snapshotEntries now
  ({ s with store := store },
    ⟨term, s.router.localId, s.raftLastIncludedIndex, s.raftLastIncludedTerm, some entries⟩)

end KVServer

namespace WriteSnapshot

/-- The entry at an index of the copied log. -/
def entryAt (w : WriteSnapshot) (index : Int) : Option RaftLogEntry :=
  let offset := index - w.snapshotIndex - 1
  if offset < 0 then none else w.log[offset.toNat]?

/-- The term of the entry before the batch, or no batch. -/
def prevTerm (w : WriteSnapshot) (prevIndex : Int) : Option Int :=
  if prevIndex = w.snapshotIndex then some w.snapshotTerm
  else if w.snapshotIndex < prevIndex then (w.entryAt prevIndex).map RaftLogEntry.term
  else some 0

/-- A number of entries from an index on, unless one is missing. -/
def collect (w : WriteSnapshot) : Nat → Int → Option (List RaftLogEntry)
  | 0, _ => some []
  | n + 1, index =>
    match w.entryAt index, w.collect n (index + 1) with
    | some entry, some rest => some (entry :: rest)
    | _, _ => none

/-- The entries from `next` to the new one, or none at all. Behind the largest
`int` the loop goes on with the smallest, finds no entry and drops them all. -/
def toSend (w : WriteSnapshot) (next : Int) : List RaftLogEntry :=
  if w.entry.index < 2147483647 then
    (w.collect (w.entry.index - next + 1).toNat next).getD []
  else []

/-- The batch for a follower whose next entry is `next`, once the snapshot
is behind it. -/
def batch (w : WriteSnapshot) (s : KVServer) (next : Int) : Option AppendRequest :=
  match w.prevTerm (next - 1) with
  | none => none
  | some prevTerm =>
    match w.toSend next with
    | [] => none
    | entries => some (s.encodeRaftAppendBatch entries (next - 1) prevTerm w.commit)

end WriteSnapshot

namespace KVServer

/-- The last locked section of `replicate_raft_write`, and the index it
tells the followers to commit. -/
def commitWrite (now : Int) (s : KVServer) (entry : RaftLogEntry) : KVServer :=
  if s.raftCommitIndex < entry.index then
    applyCommittedRaftEntries now { s with raftCommitIndex := entry.index }
  else s

/-- The message each follower gets after the commit. -/
def commitMessage (s : KVServer) (entry : RaftLogEntry) : AppendRequest :=
  s.encodeRaftCommit entry.term s.raftCommitIndex s.raftLastLogIndex s.raftLastLogTerm

/-! ## Restart -/

/-- `load_raft_state`. -/
def loadRaftState (s : KVServer) : Option KVServer :=
  let r := loadRaftIndices s.raftStateFile
  let s := { s with
    raftLog := []
    raftCommitIndex := r.commitIndex
    raftLastApplied := min r.lastApplied r.commitIndex
    raftLastIncludedIndex := r.lastIncludedIndex
    raftLastIncludedTerm := r.lastIncludedTerm }
  match s.raftLogFile with
  | none => some s
  | some text =>
    match loadRaftLog text with
    | none => none
    | some log =>
      let s := { s with raftLog := log }
      let commit := max s.raftLastIncludedIndex (min s.raftCommitIndex s.raftLastLogIndex)
      some { s with
        raftCommitIndex := commit
        raftLastApplied := max s.raftLastIncludedIndex (min s.raftLastApplied commit) }

/-- `init_store`, `init_cluster` and `init_raft_persistence` on the files a
process left behind. -/
def restart (now : Int) (s : KVServer) : Option KVServer :=
  match s.store.restart now with
  | .error _ => none
  | .ok store =>
    match loadRaftState { s with store := store, router := s.router.restart } with
    | none => none
    | some s => some (applyCommittedRaftEntries now s.updateLogInfo)

end KVServer

end TinyKV
