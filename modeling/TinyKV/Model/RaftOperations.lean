import TinyKV.Model.Node

/-!
# The file steps of the Raft operations

Raft keeps three files. `persist_raft_log_locked`,
`persist_raft_state_locked` and `persist_raft_meta_locked` each open their
file with `trunc` and then write it from the members, so between the two the
file is empty, and `persist_raft_locked` writes `raft.log` before
`raft.state`.

A request goes through several operations that end in such a call.
`RaftOperation` has one constructor for each place of the source that makes
one, `writes` are the files the operation writes, in order, and `raftCrashPoints`
what the disk holds between any two of its steps. `operations` follows a
request through its branches and lists the operations it meets, each with
the state it runs in.
-/

namespace TinyKV

open Text

inductive RaftFile
  | log | state | metadata
  deriving DecidableEq, Repr

/-- `raft.log`, `raft.state` and `raft.meta`. -/
structure RaftDisk where
  log : Option Str
  state : Option Str
  metadata : Option Str
  deriving DecidableEq, Repr

def RaftDisk.set (d : RaftDisk) : RaftFile → Str → RaftDisk
  | .log, text => { d with log := some text }
  | .state, text => { d with state := some text }
  | .metadata, text => { d with metadata := some text }

namespace KVServer

def disk (s : KVServer) : RaftDisk := ⟨s.raftLogFile, s.raftStateFile, s.router.raftMetaFile⟩

/-- A server that finds other files. -/
def onDisk (s : KVServer) (d : RaftDisk) : KVServer :=
  { s with
    raftLogFile := d.log
    raftStateFile := d.state
    router := { s.router with raftMetaFile := d.metadata } }

/-- What the persist function of a file writes. -/
def fileText (s : KVServer) : RaftFile → Str
  | .log => raftLogText s.raftLog
  | .state => raftStateText s.raftIndices
  | .metadata => raftMetaText s.router.currentTerm s.router.votedFor

/-- The hard state: the term and the vote cast in it. -/
def hardState (s : KVServer) : Int × Str := (s.router.currentTerm, s.router.votedFor)

end KVServer

/-- The places of the source that call a persist function. -/
inductive RaftOperation
  /-- the append of `replicate_raft_write` -/
  | appendWrite (request : WriteRequest)
  /-- the batch loop of `handle_raft_append_entries` -/
  | appendBatch (expected : Int) (entries : List RaftLogEntry)
  /-- the conflict of its single-entry form, and its append -/
  | truncate (index : Int)
  | appendEntry (entry : RaftLogEntry)
  /-- a previous entry of another term -/
  | rejectPrev (prev : Int)
  /-- `apply_committed_raft_entries_locked` with its compaction -/
  | applyCommitted
  /-- the second section of an InstallSnapshot request -/
  | installSet (request : InstallRequest)
  /-- a newer term, seen in a vote request or in a reply -/
  | newTerm (term : Int)
  | castVote (candidateId : Str) (lastLogIndex lastLogTerm : Int)
  /-- the router's part of AppendEntries and InstallSnapshot -/
  | acceptTerm (term : Int) (leaderId : Str)
  | beginElection
  deriving DecidableEq, Repr

namespace RaftOperation

/-- The server after the operation. -/
def exec (now : Int) (s : KVServer) : RaftOperation → KVServer
  | appendWrite request => (s.appendWrite request).1
  | appendBatch expected entries =>
    match s.appendLoop expected entries with
    | (s, false) => s
    | (s, true) => s.persistRaftLog.updateLogInfo
  | truncate index => (s.eraseFrom index).persistRaft
  | appendEntry entry => (s.pushBack entry).persistRaftLog.updateLogInfo
  | rejectPrev prev => s.rejectPrev prev
  | applyCommitted => s.applyCommittedRaftEntries now
  | installSet request => s.installSet request
  | newTerm term => { s with router := s.router.newTerm term }
  | castVote candidateId lastLogIndex lastLogTerm =>
    { s with router := (s.router.castVote candidateId lastLogIndex lastLogTerm).1 }
  | acceptTerm term leaderId => { s with router := s.router.acceptTerm term leaderId }
  | beginElection => { s with router := s.router.beginElection }

/-- The files the operation writes. Compaction writes the same `raft.state`
as the end of the operation it is part of. -/
def writes (now : Int) (s : KVServer) : RaftOperation → List RaftFile
  | appendWrite _ => [.log]
  | appendBatch expected entries =>
    if (s.appendLoop expected entries).2 = true then [.log] else []
  | truncate _ => [.log, .state]
  | appendEntry _ => [.log]
  | rejectPrev _ => [.log, .state]
  | applyCommitted =>
    if (s.applyCommittedRaftEntries now).raftLastIncludedIndex = s.raftLastIncludedIndex then
      [.state]
    else [.log, .state, .state]
  | installSet _ => [.log, .state]
  | newTerm _ => [.metadata]
  | castVote candidateId lastLogIndex lastLogTerm =>
    if (s.router.castVote candidateId lastLogIndex lastLogTerm).2.granted = true then
      [.metadata]
    else []
  | acceptTerm term _ => if s.router.currentTerm < term then [.metadata] else []
  | beginElection => [.metadata]

end RaftOperation

/-- The disk before, between and after the steps that write the given files
of `s`. -/
def raftCrashPoints (s : KVServer) (d : RaftDisk) : List RaftFile → List RaftDisk
  | [] => [d]
  | file :: rest =>
    d :: d.set file [] :: raftCrashPoints s (d.set file (s.fileText file)) rest

/-! ## The operations of a request -/

/-- The numbers of the request are `int`s. -/
def AppendRequest.InRange (request : AppendRequest) : Prop :=
  ∀ n ∈ [request.term, request.prevLogIndex, request.prevLogTerm, request.leaderCommit,
    request.entryCount, request.logIndex, request.logTerm, request.ttlSeconds], InRange32 n

/-- What the parser makes of any bytes: numbers are `int`s, and the entries of a
batch come out of its payload. -/
def NodeEvent.Parsed : NodeEvent → Prop
  | .raft (.append request) =>
    request.InRange ∧ ∃ payload, request.entries = decodeRaftEntriesPayload payload
  | .raft (.install request) =>
    InRange32 request.term ∧ InRange32 request.lastLogIndex ∧ InRange32 request.lastLogTerm
  | .raft (.requestVote term _ lastLogIndex lastLogTerm) =>
    InRange32 term ∧ InRange32 lastLogIndex ∧ InRange32 lastLogTerm
  | .raft (.heartbeat term _) => InRange32 term
  | .write request _ => InRange32 request.ttlSeconds
  | .newerTerm term => InRange32 term
  | _ => True

/-- An event and its time, as far as it can come out of the parser. -/
abbrev ParsedEvent := { e : NodeEvent × Int // e.1.Parsed }

namespace KVServer

/-- Operations, each with the state it runs in. -/
abbrev Trace := List (KVServer × RaftOperation)

def advanceCommitOperations (s : KVServer) (leaderCommit : Int) : Trace :=
  if s.raftCommitIndex < leaderCommit then
    [({ s with raftCommitIndex := min leaderCommit s.raftLastLogIndex }, .applyCommitted)]
  else []

def appendSingleOperations (s : KVServer) (request : AppendRequest) : Trace :=
  let existing := s.raftTermAt request.logIndex
  let conflict := existing ≠ -1 ∧ existing ≠ request.logTerm
  let cut := if conflict then [(s, .truncate request.logIndex)] else []
  let s := if conflict then persistRaft (s.eraseFrom request.logIndex) else s
  if request.logIndex = s.raftLastLogIndex + 1 then
    match opType request.raftOp with
    | none => cut
    | some type =>
      cut ++ [(s, .appendEntry
        ⟨request.logIndex, request.logTerm, type, request.key, request.value,
          request.ttlSeconds⟩)]
  else cut

def appendLockedOperations (s : KVServer) (request : AppendRequest) : Trace :=
  if request.prevLogIndex < s.raftLastIncludedIndex then []
  else if s.raftLastLogIndex < request.prevLogIndex then []
  else if 0 < request.prevLogIndex ∧
      s.raftTermAt request.prevLogIndex ≠ request.prevLogTerm then
    [(s, .rejectPrev request.prevLogIndex)]
  else if 0 < request.entryCount then
    if (request.entries.length : Int) ≠ request.entryCount then []
    else
      (s, .appendBatch (request.prevLogIndex + 1) request.entries) ::
        match s.appendLoop (request.prevLogIndex + 1) request.entries with
        | (_, false) => []
        | (s, true) => s.persistRaftLog.updateLogInfo.advanceCommitOperations request.leaderCommit
  else if 0 < request.logIndex then
    if s.raftLastLogIndex + 1 < request.logIndex then []
    else
      s.appendSingleOperations request ++
        (s.appendSingle request).advanceCommitOperations request.leaderCommit
  else s.advanceCommitOperations request.leaderCommit

def checkTermOperations (s : KVServer) (term : Int) (leaderId : Str) : Trace :=
  if term < s.router.currentTerm then [] else [(s, .acceptTerm term leaderId)]

def voteOperations (s : KVServer) (term : Int) (candidateId : Str)
    (lastLogIndex lastLogTerm : Int) : Trace :=
  if term < s.router.currentTerm then []
  else if s.router.currentTerm < term then
    [(s, .newTerm term),
      ({ s with router := s.router.newTerm term },
        .castVote candidateId lastLogIndex lastLogTerm)]
  else [(s, .castVote candidateId lastLogIndex lastLogTerm)]

def raftOperations (now : Int) (s : KVServer) : RaftRequest → Trace
  | .requestVote term candidateId lastLogIndex lastLogTerm =>
    s.voteOperations term candidateId lastLogIndex lastLogTerm
  | .heartbeat term leaderId => s.checkTermOperations term leaderId
  | .append request =>
    s.checkTermOperations request.term request.nodeId ++
      match s.checkTerm request.term request.nodeId with
      | (_, false) => []
      | (s, true) => s.appendLockedOperations request
  | .install request =>
    s.checkTermOperations request.term request.nodeId ++
      match s.checkTerm request.term request.nodeId with
      | (_, false) => []
      | (s, true) =>
        if s.installCovered request then []
        else
          match s.installPayload now request.payload with
          | (_, false) => []
          | (s, true) => [(s, .installSet request)]

def writeOperations (s : KVServer) (request : WriteRequest) (followers : Replication) : Trace :=
  if isClientWrite request.type = true ∧ s.router.role = .leader then
    (s, .appendWrite request) ::
      (let (s, w) := s.appendWrite request
      let s := followers.snapshots.foldl (fun s t => (s.encodeRaftSnapshot t w.entry.term).1) s
      if followers.acks + 1 < s.router.majoritySize then []
      else if s.raftCommitIndex < w.entry.index then
        [({ s with raftCommitIndex := w.entry.index }, .applyCommitted)]
      else [])
  else []

def restartOperations (now : Int) (s : KVServer) : Trace :=
  match s.store.restart now with
  | .error _ => []
  | .ok store =>
    match loadRaftState { s with store := store, router := s.router.restart } with
    | none => []
    | some s => [(s.updateLogInfo, .applyCommitted)]

/-- The operations of what a node goes through. -/
def operations (s : KVServer) : NodeEvent × Int → Trace
  | (.raft request, now) => s.raftOperations now request
  | (.write request followers, _) => s.writeOperations request followers
  | (.election _, _) => [(s, .beginElection)]
  | (.newerTerm term, _) => if s.router.currentTerm < term then [(s, .newTerm term)] else []
  | (.restart, now) => s.restartOperations now

end KVServer

/-! ## Runs with crashes -/

/-- An event runs to its end, or the process dies at a crash point of one of
its operations and is started again, with the store it then finds. -/
inductive CrashEvent
  | event (e : ParsedEvent)
  | crash (e : ParsedEvent) (operation point : Nat) (store : Store) (now : Int)

/-- The event that is handled, or begun. -/
def CrashEvent.begun : CrashEvent → ParsedEvent
  | event e => e
  | crash e _ _ _ _ => e

def KVServer.survive (s : KVServer) : CrashEvent → Option KVServer
  | .event e => s.handle e.1
  | .crash e operation point store now =>
    match (s.operations e.1)[operation]? with
    | none => none
    | some (t, op) =>
      match (raftCrashPoints (op.exec e.1.2 t) t.disk (op.writes e.1.2 t))[point]? with
      | none => none
      | some d => restart now { t.onDisk d with store := store }

end TinyKV
