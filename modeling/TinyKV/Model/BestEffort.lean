import TinyKV.Model.ConsistentHash
import TinyKV.Model.Framing
import TinyKV.Model.LineReply

/-!
# A node of a cluster without Raft

What a node needs of the others to answer a client: the owner of the key on
its own ring, and what the other nodes send back when it opens a connection
and writes a line. A connection is answered frame by frame, and the answers
are sent as one string; a node that sends nothing back counts as unreachable,
and one that does not survive a line sends nothing.
-/

namespace TinyKV

open Text

/-- Another node: its server, its clock and its memory, and what its own router
and its own peers make of a line. -/
structure Peer where
  server : KVServer
  now : Int
  room : Nat
  env : Str → LineEnv
  metrics : Metrics := {}
  forwarded : Str → Option Str := fun _ => none

namespace Peer

/-- `process_client_lines`: the string that is sent. -/
def processClientLines (p : Peer) : KVServer → List Str → Except StdException Str
  | _, [] => .ok []
  | s, line :: lines => do
    let reply ← s.lineReply p.room p.now (p.env line) p.metrics (p.forwarded line) line
    let s ← s.processRequestLine p.room p.now (p.env line) line
    let rest ← p.processClientLines s lines
    .ok (reply ++ rest)

/-- `forward`, with the connection and all of its bytes going through. -/
def forward (p : Peer) (line : Str) : Str :=
  let requestLine := if line.getLast? = some 10 then line else line ++ [10]
  match p.processClientLines p.server (handedOn [requestLine]) with
  | .ok (c :: response) => c :: response
  | _ => str "ERROR route_unavailable" ++ [10]

end Peer

/-- A node with its view of the cluster and the nodes in it. -/
structure BestEffort where
  hasher : Str → Nat
  alive : List ClusterNode
  localId : Str
  replicationFactor : Int
  server : KVServer
  now : Int
  metrics : Metrics := {}
  peers : ClusterNode → Peer

namespace BestEffort

def ownerFor (c : BestEffort) (key : Str) : Option ClusterNode :=
  (ConsistentHash.build c.hasher c.alive).ownerFor c.hasher key

/-- The nodes the GET branch asks for a key that is not in the local store. -/
def asked (c : BestEffort) (key : Str) : List ClusterNode :=
  c.alive.filter fun node =>
    match c.ownerFor key with
    | none => true
    | some owner => decide (node.id ≠ owner.id)

/-- What the router tells `process_request_line` about the key of a line. -/
def env (c : BestEffort) (key : Str) : LineEnv where
  enabled := true
  raftEnabled := false
  replicas := Router.replicasFor c.hasher true c.replicationFactor c.alive c.localId key
  others := (c.asked key).map fun node =>
    (node, (c.peers node).forward (ReplicaLine.get key).text)
  leadsFirst := false
  leadsSecond := false
  localOwner := Router.isLocalOwner c.hasher c.alive c.localId key

/-- The answer to a client whose line the parser returns from. -/
def reply (c : BestEffort) (line : Str) : Str :=
  let r := parseRequest line
  c.server.requestReply c.now (c.env r.key) c.metrics
    ((c.ownerFor r.key).map fun owner => (c.peers owner).forward line) r

end BestEffort

end TinyKV
