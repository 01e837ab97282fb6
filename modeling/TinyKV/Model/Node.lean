import TinyKV.Model.RaftWorker

/-!
# One node, one request at a time

What a node goes through if no two requests overlap: each request runs to
its end before the next one comes in. A client write is then a single step,
and of the followers it only matters how many acknowledged it and when a
snapshot had to be encoded for one of them. Between requests the node may
stand for election, learn of a newer term, or be started again on the files
it has written.

Terms and indices are `int`s in the source and integers here. The two are the
same as long as nothing is added to 2147483647, and a state in which one of
them is out of range stands for none of the source's.
-/

namespace TinyKV

open Text

def isClientWrite (type : CommandType) : Bool :=
  decide (type = .put) || decide (type = .del) || decide (type = .expire)

/-- What `replicate_raft_write` gets from the followers: the times at which
it encoded a snapshot for one of them, and how many acknowledged. -/
structure Replication where
  snapshots : List Int := []
  acks : Nat
  deriving DecidableEq, Repr

/-- The answers of `replicate_raft_write`. -/
inductive WriteReply
  | ok | raftNoQuorum
  deriving DecidableEq, Repr

/-- `replicate_raft_write` with nothing in between its sections. -/
def KVServer.replicateRaftWrite (now : Int) (s : KVServer) (request : WriteRequest)
    (followers : Replication) : KVServer × WriteReply :=
  let (s, w) := s.appendWrite request
  let s := followers.snapshots.foldl (fun s t => (s.encodeRaftSnapshot t w.entry.term).1) s
  if followers.acks + 1 < s.router.majoritySize then (s, .raftNoQuorum)
  else (s.commitWrite now w.entry, .ok)

inductive NodeEvent
  | raft (request : RaftRequest)
  | write (request : WriteRequest) (followers : Replication)
  /-- `start_election`, with or without a majority of votes -/
  | election (won : Bool)
  /-- a reply with a newer term -/
  | newerTerm (term : Int)
  | restart
  deriving DecidableEq, Repr

/-- The index behind a batch is an `int` as well. -/
def AppendRequest.Bounded (request : AppendRequest) : Prop :=
  request.prevLogIndex + request.entries.length < 2147483647

instance (request : AppendRequest) : Decidable request.Bounded :=
  inferInstanceAs (Decidable (_ < _))

def NodeEvent.Bounded : NodeEvent → Prop
  | .raft (.append request) => request.Bounded
  | _ => True

namespace KVServer

/-- Only a leader takes a write; any other node sends it on. -/
def handleWrite (now : Int) (s : KVServer) (request : WriteRequest) (followers : Replication) :
    KVServer :=
  if isClientWrite request.type = true ∧ s.router.role = .leader then
    (s.replicateRaftWrite now request followers).1
  else s

def handleRaft (now : Int) (s : KVServer) : RaftRequest → KVServer
  | .requestVote term candidateId lastLogIndex lastLogTerm =>
    { s with
      router := (s.router.handleRequestVote term candidateId lastLogIndex lastLogTerm).1 }
  | .heartbeat term leaderId => { s with router := (s.router.handleAppendEntries term leaderId).1 }
  | .append request => (s.handleRaftAppendEntries now request).1
  | .install request => (s.handleInstallSnapshot now request).1

def startElection (s : KVServer) (won : Bool) : KVServer :=
  let router := s.router.beginElection
  { s with router := if won then router.winElection router.currentTerm else router }

/-- The term and the indices are `int`s. -/
def InRange (s : KVServer) : Prop := InRange32 s.router.currentTerm ∧ s.raftIndices.InRange

instance (s : KVServer) : Decidable s.InRange := inferInstanceAs (Decidable (_ ∧ _))

/-- One more term and one more index are `int`s as well. -/
def Bounded (s : KVServer) : Prop :=
  s.router.currentTerm < 2147483647 ∧ s.raftLastLogIndex < 2147483647

instance (s : KVServer) : Decidable s.Bounded := inferInstanceAs (Decidable (_ ∧ _))

/-- A process that was one of the source's is started again. -/
def startAgain (now : Int) (s : KVServer) : Option KVServer :=
  if s.InRange then s.restart now else none

/-- The node after an event, unless it does not start again. -/
def handle (s : KVServer) : NodeEvent × Int → Option KVServer
  | (.raft request, now) => some (s.handleRaft now request)
  | (.write request followers, now) => some (s.handleWrite now request followers)
  | (.election won, _) => some (s.startElection won)
  | (.newerTerm term, _) => some { s with router := s.router.stepDown term }
  | (.restart, now) => s.startAgain now

/-- A node that starts on empty files. -/
def fresh (router : Router) (store : Store) (snapshotThreshold : Int) : KVServer where
  router := router
  store := store
  raftSnapshotThreshold := snapshotThreshold

end KVServer

end TinyKV
