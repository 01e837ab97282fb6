import TinyKV.Model.Router

/-!
# One election, start to end

`start_election` asks the members one after the other and leads as soon as it
counts a majority; a leader sends its first heartbeats before the function
returns. Here nothing else happens on the node in the meantime, and what each
member answers, if anything, is given.

Both loops run over all nodes and pass over the local one. They know it by
its id or by its port.
-/

namespace TinyKV.Router

/-- The members both loops pass over. -/
def passedOver (r : Router) (node : ClusterNode) : Bool :=
  decide (node.id = r.localId) || decide (node.port = r.localPort)

/-- The loop of `send_heartbeats`. -/
def heartbeatLoop (r : Router) (term : Int) (beat : ClusterNode → Option HeartbeatReply) :
    List ClusterNode → Router
  | [] => r
  | node :: rest =>
    if r.passedOver node then heartbeatLoop r term beat rest
    else
      match beat node with
      | none => heartbeatLoop r term beat rest
      | some reply =>
        if term < reply.term then r.stepDown reply.term else heartbeatLoop r term beat rest

def sendHeartbeats (r : Router) (beat : ClusterNode → Option HeartbeatReply) : Router :=
  match r.beginHeartbeats with
  | none => r
  | some r => r.heartbeatLoop r.currentTerm beat r.allNodes

/-- The loop of `start_election`, with the votes counted so far. The majority
is looked for only after a member has been asked. -/
def electionLoop (r : Router) (term : Int) (ask : ClusterNode → Option VoteReply)
    (beat : ClusterNode → Option HeartbeatReply) (votes : Nat) : List ClusterNode → Router
  | [] => r
  | node :: rest =>
    if r.passedOver node then electionLoop r term ask beat votes rest
    else
      let answer := ask node
      match answer.filter fun reply => decide (term < reply.term) with
      | some reply => r.stepDown reply.term
      | none =>
        let votes := if answer.any VoteReply.granted then votes + 1 else votes
        if r.majoritySize ≤ votes then (r.winElection term).sendHeartbeats beat
        else electionLoop r term ask beat votes rest

/-- `start_election`. -/
def startElection (r : Router) (ask : ClusterNode → Option VoteReply)
    (beat : ClusterNode → Option HeartbeatReply) : Router :=
  let r := r.beginElection
  r.electionLoop r.currentTerm ask beat 1 r.allNodes

end TinyKV.Router
