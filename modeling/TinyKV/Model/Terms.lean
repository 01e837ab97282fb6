import TinyKV.Model.RequestLine

/-!
# Terms as the machine has them

`m_current_term` is an `int`. The rest of the development counts terms in the
integers; here they are the 32 bits they are in the source. Two places make a
difference. An election adds one, which takes the largest term to the smallest.
And a header or a reply brings a number that has been narrowed.
-/

namespace TinyKV

open Text

/-- The first section of `start_election`, where `++m_current_term` wraps
around. -/
def Router.beginElectionInt (r : Router) : Router :=
  persistRaftMeta
    { r with
      role := .candidate, currentTerm := toInt32 (r.currentTerm + 1), votedFor := r.localId,
      leaderId := [] }

/-- What happens to the term of a node: requests, the sections of its own
elections and heartbeats, and restarts. A reply has any `int` for its term. -/
inductive TermEvent
  | line (room : Nat) (now : Int) (env : LineEnv) (line : Str)
  | election
  | reply (term : Int)
  | won (term : Int)
  | heartbeats
  | restart (now : Int)

namespace KVServer

def termStep (s : KVServer) : TermEvent → Option KVServer
  | .line room now env line => (s.processRequestLine room now env line).toOption
  | .election => some { s with router := s.router.beginElectionInt }
  | .reply term => some { s with router := s.router.stepDown (toInt32 term) }
  | .won term => some { s with router := s.router.winElection term }
  | .heartbeats => some { s with router := s.router.beginHeartbeats.getD s.router }
  | .restart now => s.restart now

end KVServer

end TinyKV
