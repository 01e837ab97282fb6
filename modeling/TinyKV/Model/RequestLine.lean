import TinyKV.Model.Node
import TinyKV.Model.Protocol

/-!
# One request line

`process_request_line` parses a frame and carries it out. Requests of other
nodes go to the handlers of the log. A client's request for data is sent on,
appended to the log or carried out on the local store, depending on the mode
and the role of the node; everything else that reaches the end of the
function is carried out on the local store as well.

The second half of the file is about the lines nodes send each other: to
replicas, without Raft, and to followers, with it.
-/

namespace TinyKV

open Text

/-! ## Replies -/

def respSimple (value : Str) : Str := 43 :: (value ++ crlf)

/-- `ERROR ` at the front becomes `ERR `. -/
def respError (value : Str) : Str :=
  let message := if str "ERROR " <+: value then str "ERR " ++ value.drop 6 else value
  45 :: (message ++ crlf)

def respInteger (value : Int) : Str := 58 :: (showInt value ++ crlf)

def respBulkReply : Option Str → Str
  | none => str "$-1" ++ crlf
  | some value => 36 :: (showNat value.length ++ crlf ++ value ++ crlf)

/-- `text_response`, that is `KVProtocol::encode_response`. -/
def textResponse (text : Str) : Str := if text = [] then [] else text ++ [10]

def isLineEnd (c : UInt8) : Bool := decide (c = 10) || decide (c = 13)

def stripLineEnd (value : Str) : Str := value.rdropWhile isLineEnd

/-- `parse_text_value`: what a node reads out of the answer to `REPL_GET`. -/
def parseTextValue (response : Str) : Option Str :=
  if str "VALUE " <+: response then some (stripLineEnd (response.drop 6)) else none

/-- An answer in the protocol of the request. -/
def Request.answer (r : Request) (resp text : Str) : Str :=
  match r.protocol with
  | .resp => resp
  | .text => textResponse text

/-! ## Lines to replicas -/

/-- The lines a node sends to replicas without Raft, and to any node that
may know a key it does not. -/
inductive ReplicaLine
  | put (key value : Str)
  | get (key : Str)
  | del (key : Str)
  | expire (key : Str) (ttlSeconds : Int)
  deriving DecidableEq, Repr

namespace ReplicaLine

/-- The bytes of the line. -/
def text : ReplicaLine → Str
  | put key value => str "REPL_PUT" ++ 32 :: key ++ 32 :: value ++ [10]
  | get key => str "REPL_GET" ++ 32 :: key ++ [10]
  | del key => str "REPL_DEL" ++ 32 :: key ++ [10]
  | expire key ttlSeconds =>
    str "REPL_EXPIRE" ++ 32 :: key ++ 32 :: showInt ttlSeconds ++ [10]

end ReplicaLine

/-! ## The local store -/

/-- What the router tells a node that carries out a request: the replicas of
the key, and the nodes to ask for a key that is not there, with what they
answer. -/
structure LocalEnv where
  enabled : Bool := true
  raftEnabled : Bool := true
  replicas : List ClusterNode := []
  others : List (ClusterNode × Str) := []

structure LocalResult where
  reply : Str
  store : Store
  sent : List (ClusterNode × ReplicaLine) := []

/-- The lines for the replicas, if the update is one to pass on. -/
def LocalEnv.replicate (env : LocalEnv) (passOn : Bool) (lines : List ReplicaLine) :
    List (ClusterNode × ReplicaLine) :=
  if passOn && env.enabled && !env.raftEnabled then
    env.replicas.flatMap fun node => lines.map fun line => (node, line)
  else []

/-- The loop over the other nodes ends with the first that has the value. -/
def askOthers (key : Str) :
    List (ClusterNode × Str) → Option Str × List (ClusterNode × ReplicaLine)
  | [] => (none, [])
  | (node, response) :: others =>
    match parseTextValue response with
    | some value => (some value, [(node, .get key)])
    | none =>
      let p := askOthers key others
      (p.1, (node, .get key) :: p.2)

def executePut (env : LocalEnv) (now : Int) (s : Store) (r : Request) : LocalResult :=
  let p := if 0 < r.ttlSeconds then s.putTtl now r.key r.value r.ttlSeconds
    else s.put now r.key r.value
  { reply :=
      if p.1 then r.answer (respSimple (str "OK")) (str "OK")
      else r.answer (respError (str "ERR put_failed")) (str "ERROR put_failed")
    store := p.2
    sent := env.replicate (p.1 && decide (r.type = .put))
      (.put r.key r.value ::
        if 0 < r.ttlSeconds then [.expire r.key r.ttlSeconds] else []) }

def executeGet (env : LocalEnv) (now : Int) (s : Store) (r : Request) : LocalResult :=
  let p := s.get now r.key
  let asked := if p.1 = none ∧ r.type = .get ∧ env.enabled = true then askOthers r.key env.others
    else (p.1, [])
  { reply := r.answer (respBulkReply asked.1)
      (match asked.1 with
        | none => str "NOT_FOUND"
        | some value => str "VALUE " ++ value)
    store := p.2
    sent := asked.2 }

def executeDel (env : LocalEnv) (now : Int) (s : Store) (r : Request) : LocalResult :=
  let p := s.del now r.key
  { reply := r.answer (respInteger (if p.1 then 1 else 0))
      (if p.1 then str "OK" else str "NOT_FOUND")
    store := p.2
    sent := env.replicate (decide (r.type = .del)) [.del r.key] }

def executeExists (now : Int) (s : Store) (r : Request) : LocalResult :=
  let p := s.exists_ now r.key
  { reply := r.answer (respInteger (if p.1 then 1 else 0))
      (if p.1 then str "TRUE" else str "FALSE")
    store := p.2 }

def executeExpire (env : LocalEnv) (now : Int) (s : Store) (r : Request) : LocalResult :=
  let p := s.expire now r.key r.ttlSeconds
  { reply := r.answer (respInteger (if p.1 then 1 else 0))
      (if p.1 then str "OK" else str "NOT_FOUND")
    store := p.2
    sent := env.replicate (p.1 && decide (r.type = .expire)) [.expire r.key r.ttlSeconds] }

def executeTtl (now : Int) (s : Store) (r : Request) : LocalResult :=
  let p := s.ttl now r.key
  { reply := r.answer (respInteger p.1) (str "TTL " ++ showInt p.1)
    store := p.2 }

/-- The switch at the end of `process_request_line`. -/
def executeLocal (env : LocalEnv) (now : Int) (s : Store) (r : Request) : LocalResult :=
  match r.type with
  | .ping => { reply := r.answer (respSimple (str "PONG")) (str "PONG"), store := s }
  | .put | .replicaPut | .raftPut => executePut env now s r
  | .get | .replicaGet => executeGet env now s r
  | .del | .replicaDel | .raftDel => executeDel env now s r
  | .exists => executeExists now s r
  | .expire | .replicaExpire | .raftExpire => executeExpire env now s r
  | .ttl => executeTtl now s r
  | .raftRequestVote | .raftAppendEntries | .raftStatus | .raftInstallSnapshot | .metrics
  | .unknown => { reply := [], store := s }

/-! ## Lines to followers -/

/-- Words with a blank in front of each but the first. -/
def wordLine (command : Str) (args : List Str) : Str := command ++ args.flatMap (32 :: ·)

/-- One line of `encode_snapshot_payload`. -/
def storeEntryLine (e : StoreEntry) : Str :=
  hexEncode e.key ++ 32 :: (hexEncode e.value ++ 32 :: showInt e.expireAtMs)

def snapshotPayloadText : List StoreEntry → Str
  | [] => []
  | e :: entries => storeEntryLine e ++ 10 :: snapshotPayloadText entries

def parseStoreEntryLine (line : Str) : Option StoreEntry := do
  let (keyHex, s) ← readWord line
  let (valueHex, s) ← readWord s
  let (expireAtMs, _) ← readInt s
  if -2 ^ 63 ≤ expireAtMs ∧ expireAtMs < 2 ^ 63 then
    let key ← hexDecode keyHex
    let value ← hexDecode valueHex
    some ⟨key, value, expireAtMs⟩
  else none

/-- The line loop of `install_snapshot_payload`. -/
def decodeSnapshotPayload (payload : Str) : Option (List StoreEntry) :=
  ((getlines 10 payload).filter fun line => !decide (line = [])).mapM parseStoreEntryLine

namespace KVServer

/-- The line `encode_raft_append_batch` builds. -/
def appendBatchLine (s : KVServer) (entries : List RaftLogEntry)
    (prevIndex prevTerm leaderCommit : Int) : Str :=
  let term := match entries.getLast? with
    | none => s.router.currentTerm
    | some entry => entry.term
  wordLine (str "RAFT_APPEND_ENTRIES")
    [showInt term, s.router.localId, showInt prevIndex, showInt prevTerm, showInt leaderCommit,
      showNat entries.length, hexEncode (raftLogText entries)] ++ [10]

/-- The line `encode_raft_commit` builds. -/
def commitLine (s : KVServer) (term leaderCommit prevIndex prevTerm : Int) : Str :=
  wordLine (str "RAFT_APPEND_ENTRIES")
    [showInt term, s.router.localId, showInt prevIndex, showInt prevTerm, showInt leaderCommit,
      str "0", hexEncode []] ++ [10]

/-- The line `encode_raft_snapshot` builds of the entries it lists. -/
def snapshotLine (s : KVServer) (term : Int) (entries : List StoreEntry) : Str :=
  wordLine (str "RAFT_INSTALL_SNAPSHOT")
    [showInt term, s.router.localId, showInt s.raftLastIncludedIndex,
      showInt s.raftLastIncludedTerm, hexEncode (snapshotPayloadText entries)] ++ [10]

end KVServer

/-! ## The whole line -/

namespace Request

/-- What `handle_raft_append_entries` reads of a request. -/
def toAppend (r : Request) : AppendRequest where
  term := r.term
  nodeId := r.nodeId
  prevLogIndex := r.prevLogIndex
  prevLogTerm := r.prevLogTerm
  leaderCommit := r.leaderCommit
  entryCount := r.entryCount
  entries := decodeRaftEntriesPayload r.snapshotPayload
  logIndex := r.logIndex
  logTerm := r.logTerm
  raftOp := r.raftOp
  key := r.key
  value := r.value
  ttlSeconds := r.ttlSeconds

/-- What the InstallSnapshot branch reads of a request. -/
def toInstall (r : Request) : InstallRequest :=
  ⟨r.term, r.nodeId, r.lastLogIndex, r.lastLogTerm, decodeSnapshotPayload r.snapshotPayload⟩

def toWrite (r : Request) : WriteRequest := ⟨r.type, r.key, r.value, r.ttlSeconds⟩

end Request

/-- `should_route` of an enabled cluster. -/
def shouldRoute (type : CommandType) : Bool :=
  decide (type = .put) || decide (type = .get) || decide (type = .del) ||
    decide (type = .exists) || decide (type = .expire) || decide (type = .ttl)

/-- What a request meets on its way through `process_request_line`. The role
is read twice, under a mutex of its own each time. -/
structure LineEnv extends LocalEnv where
  leadsFirst : Bool
  leadsSecond : Bool
  localOwner : Bool := true
  followers : Replication := { acks := 0 }

/-- The server after `process_request_line`, behind the parser. A request that
is sent on to another node leaves it as it is. The store purges when
`metrics_response` asks for its size. -/
def KVServer.processRequest (now : Int) (s : KVServer) (env : LineEnv) (r : Request) : KVServer :=
  if r.error ≠ [] then s
  else
    match r.type with
    | .raftRequestVote =>
      s.handleRaft now (.requestVote r.term r.nodeId r.lastLogIndex r.lastLogTerm)
    | .raftAppendEntries =>
      if 0 ≤ r.logIndex then s.handleRaft now (.append r.toAppend)
      else s.handleRaft now (.heartbeat r.term r.nodeId)
    | .raftInstallSnapshot => s.handleRaft now (.install r.toInstall)
    | .raftStatus => s
    | .metrics => { s with store := s.store.setMem (s.store.mem.size now).2 }
    | type =>
      if env.raftEnabled && shouldRoute type && !env.leadsFirst then s
      else if env.raftEnabled && isClientWrite type && env.leadsSecond then
        (s.replicateRaftWrite now r.toWrite env.followers).1
      else if !env.raftEnabled && shouldRoute type && !env.localOwner then s
      else { s with store := (executeLocal env.toLocalEnv now s.store r).store }

/-- Nothing catches what the parser throws. -/
def KVServer.processRequestLine (room : Nat) (now : Int) (s : KVServer) (env : LineEnv)
    (line : Str) : Except StdException KVServer :=
  (parseRequestIn room line).map (s.processRequest now env)

end TinyKV
