import TinyKV.Model.RequestLine

/-!
# The answer to a request line

What `process_request_line` returns. Requests of other nodes are answered in
lines of text of their own, and so are `RAFT_STATUS` and `METRICS`; all other
requests are answered in the protocol they came in, by the node that takes
the write, by the local store, or by the node they were sent on to.
-/

namespace TinyKV

open Text

/-! ## Answers to other nodes -/

def flagDigit (b : Bool) : Str := [if b then 49 else 48]

def Router.VoteReply.text (reply : Router.VoteReply) : Str :=
  wordLine (str "RAFT_VOTE") [showInt reply.term, flagDigit reply.granted] ++ [10]

def AppendReply.text (reply : AppendReply) : Str :=
  wordLine (str "RAFT_APPEND")
    [showInt reply.term, flagDigit reply.success, showInt reply.matchIndex] ++ [10]

def InstallReply.text (reply : InstallReply) : Str :=
  wordLine (str "RAFT_SNAPSHOT") [showInt reply.term, flagDigit reply.success] ++ [10]

/-! ## Status and metrics -/

/-- `role_name`. -/
def RaftRole.name : RaftRole → Str
  | .leader => str "leader"
  | .candidate => str "candidate"
  | .follower => str "follower"

/-- What `metrics_response` reads beside the log and the store. The rate and
the percentiles are taken as computed: they involve floating point numbers. -/
structure Metrics where
  electionCount : Nat := 0
  replicationFailures : Nat := 0
  aliveNodes : Nat := 1
  requests : Nat := 0
  failedRequests : Nat := 0
  qps : Nat := 0
  latencyP95 : Nat := 0
  latencyP99 : Nat := 0

namespace KVServer

def statusText (s : KVServer) : Str :=
  str "RAFT_STATUS node=" ++ s.router.localId ++ str " role=" ++ s.router.role.name ++
    str " term=" ++ showInt s.router.currentTerm ++ str " leader=" ++ s.router.leaderId ++
    str " commit=" ++ showInt s.raftCommitIndex ++ str " applied=" ++ showInt s.raftLastApplied ++
    str " last_log=" ++ showInt s.raftLastLogIndex

def metricsResponse (now : Int) (s : KVServer) (raftEnabled : Bool) (m : Metrics) : Str :=
  [(str "tinykv_node_id", s.router.localId),
    (str "tinykv_raft_role", if raftEnabled then s.router.role.name else str "standalone"),
    (str "tinykv_raft_term", showInt s.router.currentTerm),
    (str "tinykv_raft_leader", s.router.leaderId),
    (str "tinykv_raft_commit_index", showInt s.raftCommitIndex),
    (str "tinykv_raft_last_applied", showInt s.raftLastApplied),
    (str "tinykv_raft_log_size", showNat s.raftLog.length),
    (str "tinykv_raft_last_log_index", showInt s.raftLastLogIndex),
    (str "tinykv_raft_snapshot_last_included_index", showInt s.raftLastIncludedIndex),
    (str "tinykv_raft_snapshot_last_included_term", showInt s.raftLastIncludedTerm),
    (str "tinykv_raft_election_count", showNat m.electionCount),
    (str "tinykv_raft_replication_failure_count", showNat m.replicationFailures),
    (str "tinykv_alive_nodes", showNat m.aliveNodes),
    (str "tinykv_store_keys", showNat (s.store.mem.size now).1),
    (str "tinykv_requests_total", showNat m.requests),
    (str "tinykv_failed_requests_total", showNat m.failedRequests),
    (str "tinykv_qps", showNat m.qps),
    (str "tinykv_latency_p95_us", showNat m.latencyP95),
    (str "tinykv_latency_p99_us", showNat m.latencyP99)].flatMap
      fun p => p.1 ++ 32 :: (p.2 ++ [10])

end KVServer

/-! ## Answers to clients -/

namespace Request

/-- The end of `replicate_raft_write`, and its refusal. -/
def writeReply (r : Request) : WriteReply → Str
  | .ok => r.answer (if r.type = .put then respSimple (str "OK") else respInteger 1) (str "OK")
  | .raftNoQuorum =>
    r.answer (respError (str "ERROR raft_no_quorum")) (str "ERROR raft_no_quorum")

/-- What becomes of the answer of the node the line was sent on to, if there
is such a node. -/
def forwardReply (r : Request) (unavailable : Str) : Option Str → Str
  | none => r.answer (respError unavailable) unavailable
  | some response =>
    if r.protocol = .resp ∧ str "ERROR " <+: response then respError (stripLineEnd response)
    else response

end Request

/-- A server without a cluster. It is the owner of every key. -/
def LineEnv.standalone : LineEnv where
  enabled := false
  raftEnabled := false
  leadsFirst := true
  leadsSecond := true

namespace KVServer

/-- The answer of `process_request_line` to what the parser returns.
`forwarded` is what the leader or the owner answers, if there is one to forward
to. -/
def requestReply (now : Int) (s : KVServer) (env : LineEnv) (m : Metrics)
    (forwarded : Option Str) (r : Request) : Str :=
  if r.error ≠ [] then r.answer (respError r.error) r.error
  else
    match r.type with
    | .raftRequestVote =>
      (s.router.handleRequestVote r.term r.nodeId r.lastLogIndex r.lastLogTerm).2.text
    | .raftAppendEntries =>
      if 0 ≤ r.logIndex then (s.handleRaftAppendEntries now r.toAppend).2.text
      else (s.router.handleAppendEntries r.term r.nodeId).2.text
    | .raftInstallSnapshot => (s.handleInstallSnapshot now r.toInstall).2.text
    | .raftStatus => textResponse s.statusText
    | .metrics => s.metricsResponse now env.raftEnabled m
    | type =>
      if env.raftEnabled && shouldRoute type && !env.leadsFirst then
        r.forwardReply (str "ERROR leader_unavailable") forwarded
      else if env.raftEnabled && isClientWrite type && env.leadsSecond then
        r.writeReply (s.replicateRaftWrite now r.toWrite env.followers).2
      else if !env.raftEnabled && shouldRoute type && !env.localOwner then
        r.forwardReply (str "ERROR route_unavailable") forwarded
      else (executeLocal env.toLocalEnv now s.store r).reply

def lineReply (room : Nat) (now : Int) (s : KVServer) (env : LineEnv) (m : Metrics)
    (forwarded : Option Str) (line : Str) : Except StdException Str :=
  (parseRequestIn room line).map (s.requestReply now env m forwarded)

/-- The replies to requests one after the other, each at its time. -/
def replies (room : Nat) (env : LineEnv) (m : Metrics) :
    KVServer → List (Int × Str) → Except StdException (List Str)
  | _, [] => .ok []
  | s, (now, line) :: rest => do
    let reply ← s.lineReply room now env m none line
    let s ← s.processRequestLine room now env line
    let rest ← replies room env m s rest
    .ok (reply :: rest)

/-- `process_request_line` of a server without a cluster. A line that the
parser throws on ends the process: nothing is answered, and what the server has
become is of no account. -/
def serve (room : Nat) (m : Metrics) (now : Int) (s : KVServer) (line : Str) : Str × KVServer :=
  match s.lineReply room now .standalone m none line,
      s.processRequestLine room now .standalone line with
  | .ok reply, .ok t => (reply, t)
  | _, _ => ([], s)

end KVServer

end TinyKV
