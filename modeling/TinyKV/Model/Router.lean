import TinyKV.Lib.Text
import TinyKV.Model.Types

/-!
# The router's half of Raft

`ClusterRouter` keeps what Raft calls the hard state: the current term, the
vote cast in it and the role. Its methods run under the router's own mutex,
so each locked section is one function here, and the loops of
`start_election` and `send_heartbeats`, which release the mutex around every
message, appear as the sections they are made of.

The term and the vote are written to `raft.meta` whenever they change. The
file is text, and an empty vote is written as a dash; what a restart reads
back is `loadRaftMeta` of that text.
-/

namespace TinyKV

open Text

/-- `ClusterNode` of `cluster/consistent_hash.h`. -/
structure ClusterNode where
  id : Str
  host : Str
  port : Int
  deriving DecidableEq, Repr

/-- `ClusterRouter::RaftRole`. -/
inductive RaftRole
  | follower | candidate | leader
  deriving DecidableEq, Repr

/-- `ClusterRouter`, as far as Raft reads it, with the text of `raft.meta`. -/
structure Router where
  localId : Str
  localPort : Int
  allNodes : List ClusterNode
  role : RaftRole := .follower
  currentTerm : Int := 0
  votedFor : Str := []
  leaderId : Str := []
  lastLogIndex : Int := 0
  lastLogTerm : Int := 0
  raftMetaFile : Option Str := none
  deriving DecidableEq, Repr

/-! ## raft.meta -/

def dash : Str := bytes ['-']

def keyTerm : Str := bytes ['t', 'e', 'r', 'm']

def keyVotedFor : Str := bytes ['v', 'o', 't', 'e', 'd', '_', 'f', 'o', 'r']

/-- What `persist_raft_meta_locked` writes. -/
def raftMetaText (term : Int) (votedFor : Str) : Str :=
  keyTerm ++ 32 :: (showInt term ++ 10 ::
    (keyVotedFor ++ 32 :: ((if votedFor = [] then dash else votedFor) ++ [10])))

/-- The loop of `load_raft_meta_locked`. A failed extraction ends it. -/
def loadRaftMetaAux : Nat → Str → Int → Str → Int × Str
  | 0, _, term, votedFor => (term, votedFor)
  | fuel + 1, s, term, votedFor =>
    match readWord s with
    | none => (term, votedFor)
    | some (key, rest) =>
      if key = keyTerm then
        match extractInt rest term with
        | (term, some rest) => loadRaftMetaAux fuel rest term votedFor
        | (term, none) => (term, votedFor)
      else if key = keyVotedFor then
        match readWord rest with
        | some (v, rest) => loadRaftMetaAux fuel rest term (if v = dash then [] else v)
        | none => (term, if votedFor = dash then [] else votedFor)
      else loadRaftMetaAux fuel rest term votedFor

def loadRaftMeta : Option Str → Int × Str
  | none => (0, [])
  | some text => loadRaftMetaAux text.length text 0 []

namespace Router

def persistRaftMeta (r : Router) : Router :=
  { r with raftMetaFile := some (raftMetaText r.currentTerm r.votedFor) }

/-- `ClusterRouter::init` in raft mode, on the `raft.meta` it finds. -/
def restart (r : Router) : Router :=
  { r with
    role := .follower
    currentTerm := (loadRaftMeta r.raftMetaFile).1
    votedFor := (loadRaftMeta r.raftMetaFile).2
    leaderId := []
    lastLogIndex := 0
    lastLogTerm := 0 }

def updateLogInfo (r : Router) (lastLogIndex lastLogTerm : Int) : Router :=
  { r with lastLogIndex := lastLogIndex, lastLogTerm := lastLogTerm }

def majoritySize (r : Router) : Nat := r.allNodes.length / 2 + 1

/-! ## Votes -/

/-- `RAFT_VOTE term granted`. -/
structure VoteReply where
  term : Int
  granted : Bool
  deriving DecidableEq, Repr

/-- The step every locked section that learns of a newer term takes. -/
def newTerm (r : Router) (term : Int) : Router :=
  persistRaftMeta
    { r with currentTerm := term, role := .follower, votedFor := [], leaderId := [] }

def logIsUpToDate (r : Router) (lastLogIndex lastLogTerm : Int) : Bool :=
  decide (r.lastLogTerm < lastLogTerm) ||
    (decide (lastLogTerm = r.lastLogTerm) && decide (r.lastLogIndex ≤ lastLogIndex))

/-- The second half of `handle_request_vote`, in the candidate's term. -/
def castVote (r : Router) (candidateId : Str) (lastLogIndex lastLogTerm : Int) :
    Router × VoteReply :=
  if r.logIsUpToDate lastLogIndex lastLogTerm = true ∧
      (r.votedFor = [] ∨ r.votedFor = candidateId) then
    (persistRaftMeta { r with votedFor := candidateId, role := .follower },
      ⟨r.currentTerm, true⟩)
  else (r, ⟨r.currentTerm, false⟩)

def handleRequestVote (r : Router) (term : Int) (candidateId : Str)
    (lastLogIndex lastLogTerm : Int) : Router × VoteReply :=
  if term < r.currentTerm then (r, ⟨r.currentTerm, false⟩)
  else if r.currentTerm < term then
    (r.newTerm term).castVote candidateId lastLogIndex lastLogTerm
  else r.castVote candidateId lastLogIndex lastLogTerm

/-! ## Elections -/

/-- The first section of `start_election`. -/
def beginElection (r : Router) : Router :=
  persistRaftMeta
    { r with
      role := .candidate, currentTerm := r.currentTerm + 1, votedFor := r.localId,
      leaderId := [] }

/-- The section `start_election` and `send_heartbeats` run on a reply with a
newer term than the one they work in. -/
def stepDown (r : Router) (responseTerm : Int) : Router :=
  if r.currentTerm < responseTerm then r.newTerm responseTerm else r

/-- The section `start_election` runs once it counts a majority. -/
def winElection (r : Router) (term : Int) : Router :=
  if r.role = .candidate ∧ r.currentTerm = term then
    { r with role := .leader, leaderId := r.localId }
  else r

/-- The section of `send_heartbeats`: only a leader sends any. -/
def beginHeartbeats (r : Router) : Option Router :=
  if r.role = .leader then some { r with leaderId := r.localId } else none

/-- The nodes `start_election` and `send_heartbeats` contact. -/
def contacts (r : Router) : List ClusterNode :=
  r.allNodes.filter fun node =>
    !(decide (node.id = r.localId) || decide (node.port = r.localPort))

/-- `leader_node`: where a node that does not lead forwards a client's line. -/
def leaderNode (r : Router) : Option ClusterNode :=
  if r.leaderId = [] then none
  else r.allNodes.find? fun node => decide (node.id = r.leaderId)

/-! ## Heartbeats -/

/-- `RAFT_APPEND term accepted`, the answer of `handle_append_entries`. -/
structure HeartbeatReply where
  term : Int
  accepted : Bool
  deriving DecidableEq, Repr

/-- The answer as text. -/
def HeartbeatReply.text (reply : HeartbeatReply) : Str :=
  bytes ['R', 'A', 'F', 'T', '_', 'A', 'P', 'P', 'E', 'N', 'D'] ++ 32 ::
    (showInt reply.term ++ 32 :: [if reply.accepted then 49 else 48, 10])

/-- `find(" 0") != npos`. -/
def hasZeroField : Str → Bool
  | a :: b :: rest => (decide (a = 32) && decide (b = 48)) || hasZeroField (b :: rest)
  | _ => false

/-- How `KVServer` reads the answer: it looks for a zero that follows a
blank, which is the flag of a refusal but also the term zero. -/
def HeartbeatReply.refused (reply : HeartbeatReply) : Bool := hasZeroField reply.text

/-- What `handle_append_entries` does with a term that is not behind. -/
def acceptTerm (r : Router) (term : Int) (leaderId : Str) : Router :=
  let r := if r.currentTerm < term then
      persistRaftMeta { r with currentTerm := term, votedFor := [] }
    else r
  { r with role := .follower, leaderId := leaderId }

def handleAppendEntries (r : Router) (term : Int) (leaderId : Str) :
    Router × HeartbeatReply :=
  if term < r.currentTerm then (r, ⟨r.currentTerm, false⟩)
  else
    let r := r.acceptTerm term leaderId
    (r, ⟨r.currentTerm, true⟩)

end Router

end TinyKV
