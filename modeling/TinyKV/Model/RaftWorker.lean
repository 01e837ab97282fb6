import TinyKV.Lib.Runs
import TinyKV.Model.RaftServer

/-!
# Requests in the hands of worker threads

The server hands every request to a worker thread, and between two locked
sections of one request any other thread may run. `Work` is how far a thread
has come with a request of another node, and `Work.step` runs its next
section. The reply's term is read from the router when the reply is
written, which is a step of its own.
-/

namespace TinyKV

/-- The requests one node sends another. A heartbeat is the short form of
AppendEntries, which does not reach the log. -/
inductive RaftRequest
  | requestVote (term : Int) (candidateId : Str) (lastLogIndex lastLogTerm : Int)
  | heartbeat (term : Int) (leaderId : Str)
  | append (request : AppendRequest)
  | install (request : InstallRequest)
  deriving DecidableEq, Repr

inductive RaftReply
  | vote (reply : Router.VoteReply)
  | heartbeat (reply : Router.HeartbeatReply)
  | append (reply : AppendReply)
  | install (reply : InstallReply)
  deriving DecidableEq, Repr

/-- How far a worker thread has come with a request. -/
inductive Work
  | arrived (request : RaftRequest)
  /-- the router accepted the term of an AppendEntries request -/
  | appendChecked (request : AppendRequest)
  | appendRefused
  | appendDone (success : Bool) (matchIndex : Int)
  /-- the router accepted the term of an InstallSnapshot request -/
  | installChecked (request : InstallRequest)
  /-- and its index was found to be new -/
  | installAdmitted (request : InstallRequest)
  /-- and its payload is in the store -/
  | installInstalled (request : InstallRequest)
  | installDone (success : Bool)
  | answered (reply : RaftReply)
  deriving DecidableEq, Repr

namespace Work

/-- The first section: all of a vote or a heartbeat, and the router's part
of the others. -/
def receive (s : KVServer) : RaftRequest → KVServer × Work
  | .requestVote term candidateId lastLogIndex lastLogTerm =>
    let (router, reply) :=
      s.router.handleRequestVote term candidateId lastLogIndex lastLogTerm
    ({ s with router := router }, .answered (.vote reply))
  | .heartbeat term leaderId =>
    let (router, reply) := s.router.handleAppendEntries term leaderId
    ({ s with router := router }, .answered (.heartbeat reply))
  | .append request =>
    match s.checkTerm request.term request.nodeId with
    | (s, true) => (s, .appendChecked request)
    | (s, false) => (s, .appendRefused)
  | .install request =>
    match s.checkTerm request.term request.nodeId with
    | (s, true) => (s, .installChecked request)
    | (s, false) => (s, .installDone false)

/-- The next section of a thread, if it is not through. -/
def step (now : Int) (s : KVServer) : Work → Option (KVServer × Work)
  | .arrived request => some (receive s request)
  | .appendChecked request =>
    let (s, success, matchIndex) := s.appendLocked now request
    some (s, .appendDone success matchIndex)
  | .appendRefused =>
    some (s, .answered (.append ⟨s.router.currentTerm, false, s.raftLastLogIndex⟩))
  | .appendDone success matchIndex =>
    some (s, .answered (.append ⟨s.router.currentTerm, success, matchIndex⟩))
  | .installChecked request =>
    if s.installCovered request then some (s, .installDone true)
    else some (s, .installAdmitted request)
  | .installAdmitted request =>
    match s.installPayload now request.payload with
    | (s, true) => some (s, .installInstalled request)
    | (s, false) => some (s, .installDone false)
  | .installInstalled request => some (s.installSet request, .installDone true)
  | .installDone success =>
    some (s, .answered (.install ⟨s.router.currentTerm, success⟩))
  | .answered _ => none

/-- The handler of a request up to its reply, with no other thread in
between. -/
def handle (now : Int) (s : KVServer) (request : RaftRequest) : KVServer × Work :=
  match receive s request with
  | (s, .appendChecked request) =>
    let (s, success, matchIndex) := s.appendLocked now request
    (s, .appendDone success matchIndex)
  | (s, .installChecked request) =>
    if s.installCovered request then (s, .installDone true)
    else
      match s.installPayload now request.payload with
      | (s, true) => (s.installSet request, .installDone true)
      | (s, false) => (s, .installDone false)
  | (s, work) => (s, work)

end Work

/-! ## One follower and its worker threads -/

/-- A server and the requests its threads are working on. -/
structure Follower where
  server : KVServer
  threads : List Work

/-- A request comes in, or a thread runs its next section at some time. -/
inductive FollowerEvent
  | arrive (request : RaftRequest)
  | turn (thread : Nat) (now : Int)
  deriving DecidableEq, Repr

def Follower.step (f : Follower) : FollowerEvent → Option Follower
  | .arrive request => some { f with threads := f.threads ++ [.arrived request] }
  | .turn thread now =>
    match f.threads[thread]? with
    | none => none
    | some work =>
      match work.step now f.server with
      | none => none
      | some (server, work) => some ⟨server, f.threads.set thread work⟩

end TinyKV
