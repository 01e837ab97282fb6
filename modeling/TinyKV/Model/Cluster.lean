import Mathlib.Logic.Function.Basic
import TinyKV.Model.Node

/-!
# A cluster

The nodes of one membership list, the requests they send each other and the
threads that send them. A request that has been sent is a task of its
receiver, which may stay where it is for ever: that is a message that is
delayed or lost. Its receiver works on it section by section (`Work`), and
whoever sent it waits for the answer or gives up.

A thread that sends is a job: `start_election`, `send_heartbeats` and
`replicate_raft_write` are followed from one locked section, message or
answer to the next, with every other thread free to run in between. A client
write is first checked twice for the role of its node. If the node is deposed
between the two checks, the write falls through to the code below them, which
writes to the local store.

`rejected` is not in the source: the entries of the writes answered with
`raft_no_quorum`. Terms and indices are counted in the integers: a run is one
of the source as long as they stay below the largest `int`.
-/

namespace TinyKV

open Function

/-- A request and how far its receiver has come with it. A process that is
started again leaves nothing of what it had begun. -/
structure Task where
  node : Str
  work : Option Work
  deriving DecidableEq, Repr

/-- How far a thread of a node has come with what it does for itself. -/
inductive Job
  /-- `start_election` past its first section -/
  | stood (term : Int)
  | canvass (term lastLogIndex lastLogTerm : Int) (votes : Nat) (rest : List ClusterNode)
  | polling (term lastLogIndex lastLogTerm : Int) (votes : Nat) (rest : List ClusterNode)
      (task : Nat)
  | elected (term : Int)
  /-- a reply had a newer term -/
  | deposed (responseTerm : Int)
  /-- `send_heartbeats` before its first section -/
  | heartbeat
  | beating (term : Int) (rest : List ClusterNode)
  | listening (term : Int) (rest : List ClusterNode) (task : Nat)
  /-- a client write past the first check of the role, and past the second -/
  | routed (request : WriteRequest)
  | accepted (request : WriteRequest)
  | fallenThrough (request : WriteRequest)
  /-- `replicate_raft_write`: before a follower, before a message to it, and
  waiting for the answer -/
  | replicate (w : WriteSnapshot) (acks : Nat) (rest : List ClusterNode)
  | send (w : WriteSnapshot) (acks : Nat) (rest : List ClusterNode) (follower : ClusterNode)
      (next : Int)
  | awaiting (w : WriteSnapshot) (acks : Nat) (rest : List ClusterNode) (follower : ClusterNode)
      (next : Int) (task : Nat)
  | counted (w : WriteSnapshot) (acks : Nat)
  | announce (message : AppendRequest) (rest : List ClusterNode)
  | replied (reply : WriteReply)
  | done
  deriving DecidableEq, Repr

structure World where
  members : List ClusterNode
  servers : Str → KVServer
  tasks : List Task := []
  jobs : List (Str × Job) := []
  rejected : List RaftLogEntry := []

/-- A job runs its next step at some time. If it waits for an answer, the
answer is there or it gives up; if it asks for the followers, some of the
nodes are found alive. -/
inductive ClusterEvent
  | election (node : Str)
  | heartbeat (node : Str)
  | write (node : Str) (request : WriteRequest)
  | job (job : Nat) (now : Int) (lost : Bool) (alive : List Str)
  | task (task : Nat) (now : Int)
  | restart (node : Str) (now : Int)
  deriving DecidableEq, Repr

/-- `raft_followers`, for the nodes that were found alive. -/
def Router.raftFollowers (r : Router) (alive : List Str) : List ClusterNode :=
  r.allNodes.filter fun node => decide (node.id ∈ alive) && !decide (node.id = r.localId)

/-- The update of a client write that falls through to the local store. -/
def KVServer.writeLocal (now : Int) (s : KVServer) (request : WriteRequest) : KVServer :=
  match request.type with
  | .put =>
    if 0 < request.ttlSeconds then
      { s with store := (s.store.putTtl now request.key request.value request.ttlSeconds).2 }
    else { s with store := (s.store.put now request.key request.value).2 }
  | .del => { s with store := (s.store.del now request.key).2 }
  | .expire => { s with store := (s.store.expire now request.key request.ttlSeconds).2 }
  | _ => s

namespace WriteSnapshot

/-- What the loop of `replicate_raft_write` does after an answer: it goes on
with another index, or is through with the follower. -/
inductive Outcome
  | again (next : Int)
  | replicated
  | failed
  deriving DecidableEq, Repr

def onInstall (w : WriteSnapshot) (reply : InstallReply) : Outcome :=
  if w.entry.term < reply.term then .failed
  else if reply.success then .again (w.snapshotIndex + 1)
  else .failed

def onAppend (w : WriteSnapshot) (next : Int) (reply : AppendReply) : Outcome :=
  if w.entry.term < reply.term then .failed
  else if reply.success then
    if w.entry.index ≤ reply.matchIndex then .replicated else .again (reply.matchIndex + 1)
  else if reply.matchIndex < next - 1 then .again (reply.matchIndex + 1)
  else .failed

/-- No answer, or one that does not parse, ends the loop. -/
def onReply (w : WriteSnapshot) (next : Int) : Option RaftReply → Outcome
  | some (.install reply) => w.onInstall reply
  | some (.append reply) => w.onAppend next reply
  | _ => .failed

/-- One round of the loop over a follower, which takes the message and
answers at once. -/
def round (w : WriteSnapshot) (now : Int) (leader follower : KVServer) (next : Int) :
    KVServer × KVServer × Outcome :=
  if next ≤ w.snapshotIndex then
    let (leader, request) := leader.encodeRaftSnapshot now w.entry.term
    let (follower, reply) := follower.handleInstallSnapshot now request
    (leader, follower, w.onInstall reply)
  else
    match w.batch leader next with
    | none => (leader, follower, .failed)
    | some request =>
      let (follower, reply) := follower.handleRaftAppendEntries now request
      (leader, follower, w.onAppend next reply)

end WriteSnapshot

namespace World

def setServer (w : World) (node : Str) (s : KVServer) : World :=
  { w with servers := update w.servers node s }

def setJob (w : World) (i : Nat) (node : Str) (job : Job) : World :=
  { w with jobs := w.jobs.set i (node, job) }

/-- A new thread. -/
def spawn (w : World) (node : Str) (job : Job) : World :=
  { w with jobs := w.jobs ++ [(node, job)] }

/-- `forward`, as far as the sender takes part in it. -/
def forward (w : World) (follower : ClusterNode) (request : RaftRequest) : World :=
  { w with tasks := w.tasks ++ [⟨follower.id, some (.arrived request)⟩] }

/-- The answer to a request, if there is one. -/
def reply? (w : World) (task : Nat) : Option RaftReply :=
  match w.tasks[task]? with
  | some ⟨_, some (.answered reply)⟩ => some reply
  | _ => none

/-- What a sender gets: the answer, or nothing once it gives up. -/
def answer (w : World) (lost : Bool) (task : Nat) : Option (Option RaftReply) :=
  if lost then some none else (w.reply? task).map some

/-- `start_election` counts a vote and looks at the number. -/
def countVote (r : Router) (term lastLogIndex lastLogTerm : Int) (votes : Nat)
    (rest : List ClusterNode) : Option RaftReply → Job
  | some (.vote reply) =>
    if term < reply.term then .deposed reply.term
    else
      let votes := if reply.granted then votes + 1 else votes
      if r.majoritySize ≤ votes then .elected term
      else .canvass term lastLogIndex lastLogTerm votes rest
  | _ =>
    if r.majoritySize ≤ votes then .elected term
    else .canvass term lastLogIndex lastLogTerm votes rest

def heardBeat (term : Int) (rest : List ClusterNode) : Option RaftReply → Job
  | some (.heartbeat reply) =>
    if term < reply.term then .deposed reply.term else .beating term rest
  | _ => .beating term rest

/-- The next step of a job of a node. -/
def jobStep (w : World) (i : Nat) (node : Str) (now : Int) (lost : Bool) (alive : List Str) :
    Job → Option World
  | .stood term =>
    let r := (w.servers node).router
    some (w.setJob i node (.canvass term r.lastLogIndex r.lastLogTerm 1 r.contacts))
  | .canvass _ _ _ _ [] => some (w.setJob i node .done)
  | .canvass term lastLogIndex lastLogTerm votes (contact :: rest) =>
    some ((w.forward contact (.requestVote term node lastLogIndex lastLogTerm)).setJob i node
      (.polling term lastLogIndex lastLogTerm votes rest w.tasks.length))
  | .polling term lastLogIndex lastLogTerm votes rest task =>
    (w.answer lost task).map fun reply =>
      w.setJob i node
        (countVote (w.servers node).router term lastLogIndex lastLogTerm votes rest reply)
  | .elected term =>
    let s := w.servers node
    some ((w.setServer node { s with router := s.router.winElection term }).setJob i node
      .heartbeat)
  | .deposed responseTerm =>
    let s := w.servers node
    some ((w.setServer node { s with router := s.router.stepDown responseTerm }).setJob i node
      .done)
  | .heartbeat =>
    let s := w.servers node
    match s.router.beginHeartbeats with
    | none => some (w.setJob i node .done)
    | some router =>
      some ((w.setServer node { s with router := router }).setJob i node
        (.beating router.currentTerm router.contacts))
  | .beating _ [] => some (w.setJob i node .done)
  | .beating term (contact :: rest) =>
    some ((w.forward contact (.heartbeat term node)).setJob i node
      (.listening term rest w.tasks.length))
  | .listening term rest task =>
    (w.answer lost task).map fun reply => w.setJob i node (heardBeat term rest reply)
  | .routed request =>
    if (w.servers node).router.role = .leader then some (w.setJob i node (.accepted request))
    else some (w.setJob i node (.fallenThrough request))
  | .fallenThrough request =>
    some ((w.setServer node ((w.servers node).writeLocal now request)).setJob i node .done)
  | .accepted request =>
    let (s, snapshot) := (w.servers node).appendWrite request
    some ((w.setServer node s).setJob i node
      (.replicate snapshot 1 (s.router.raftFollowers alive)))
  | .replicate snapshot acks [] => some (w.setJob i node (.counted snapshot acks))
  | .replicate snapshot acks (follower :: rest) =>
    some (w.setJob i node (.send snapshot acks rest follower snapshot.entry.index))
  | .send snapshot acks rest follower next =>
    if next ≤ snapshot.entry.index ∧ 0 < next then
      if next ≤ snapshot.snapshotIndex then
        let (s, request) := (w.servers node).encodeRaftSnapshot now snapshot.entry.term
        some (((w.setServer node s).forward follower (.install request)).setJob i node
          (.awaiting snapshot acks rest follower next w.tasks.length))
      else
        match snapshot.batch (w.servers node) next with
        | none => some (w.setJob i node (.replicate snapshot acks rest))
        | some request =>
          some ((w.forward follower (.append request)).setJob i node
            (.awaiting snapshot acks rest follower next w.tasks.length))
    else some (w.setJob i node (.replicate snapshot acks rest))
  | .awaiting snapshot acks rest follower next task =>
    (w.answer lost task).map fun reply =>
      match snapshot.onReply next reply with
      | .again next => w.setJob i node (.send snapshot acks rest follower next)
      | .replicated => w.setJob i node (.replicate snapshot (acks + 1) rest)
      | .failed => w.setJob i node (.replicate snapshot acks rest)
  | .counted snapshot acks =>
    let s := w.servers node
    if acks < s.router.majoritySize then
      some { w.setJob i node (.replied .raftNoQuorum) with
        rejected := w.rejected ++ [snapshot.entry] }
    else
      let s := s.commitWrite now snapshot.entry
      some ((w.setServer node s).setJob i node
        (.announce (s.commitMessage snapshot.entry) (s.router.raftFollowers alive)))
  | .announce _ [] => some (w.setJob i node (.replied .ok))
  | .announce message (follower :: rest) =>
    some ((w.forward follower (.append message)).setJob i node (.announce message rest))
  | .replied _ => none
  | .done => none

def taskStep (w : World) (i : Nat) (now : Int) : Option World :=
  match w.tasks[i]? with
  | some ⟨node, some work⟩ =>
    match work.step now (w.servers node) with
    | none => none
    | some (s, work) =>
      some { w.setServer node s with tasks := w.tasks.set i ⟨node, some work⟩ }
  | _ => none

/-- What is left of a request once its receiver has been started again. A
request that had not arrived yet still does. -/
def Task.outlive (node : Str) (task : Task) : Task :=
  match task.work with
  | some (.arrived _) | some (.answered _) | none => task
  | some _ => if task.node = node then { task with work := none } else task

/-- The threads of a process end with it. -/
def endJobs (node : Str) (job : Str × Job) : Str × Job :=
  if job.1 = node then (node, .done) else job

def step (w : World) : ClusterEvent → Option World
  | .election node =>
    let s := w.servers node
    if node ∈ w.members.map ClusterNode.id ∧ s.router.role ≠ .leader then
      let router := s.router.beginElection
      some ((w.setServer node { s with router := router }).spawn node
        (.stood router.currentTerm))
    else none
  | .heartbeat node =>
    if node ∈ w.members.map ClusterNode.id ∧ (w.servers node).router.role = .leader then
      some (w.spawn node .heartbeat)
    else none
  | .write node request =>
    if node ∈ w.members.map ClusterNode.id ∧ isClientWrite request.type = true ∧
        (w.servers node).router.role = .leader then
      some (w.spawn node (.routed request))
    else none
  | .job i now lost alive =>
    match w.jobs[i]? with
    | none => none
    | some (node, job) => w.jobStep i node now lost alive job
  | .task i now => w.taskStep i now
  | .restart node now =>
    match (w.servers node).startAgain now with
    | none => none
    | some s =>
      some { w.setServer node s with
        tasks := w.tasks.map (Task.outlive node)
        jobs := w.jobs.map (endJobs node) }

/-! ## Handlers as single steps -/

/-- A request is handled without interruption. Its reply is written, and the
term for it read, in a step of its own. -/
def atomicTask (w : World) (i : Nat) (now : Int) : Option World :=
  match w.tasks[i]? with
  | some ⟨node, some (.arrived request)⟩ =>
    let (s, work) := Work.handle now (w.servers node) request
    some { w.setServer node s with tasks := w.tasks.set i ⟨node, some work⟩ }
  | some ⟨_, some .appendRefused⟩ | some ⟨_, some (.appendDone _ _)⟩
  | some ⟨_, some (.installDone _)⟩ => w.taskStep i now
  | _ => none

/-- The cluster with every handler, and the second check of a write's role
together with its append, as a single step. -/
def atomicStep (w : World) : ClusterEvent → Option World
  | .task i now => w.atomicTask i now
  | .job i now lost alive =>
    match w.jobs[i]? with
    | none => none
    | some (node, .routed request) =>
      if (w.servers node).router.role = .leader then
        w.jobStep i node now lost alive (.accepted request)
      else w.jobStep i node now lost alive (.routed request)
    | some (_, .accepted _) => none
    | some (node, job) => w.jobStep i node now lost alive job
  | e => w.step e

/-- The router a node of the membership list starts with. -/
def router (members : List ClusterNode) (node : Str) : Router where
  localId := node
  localPort := ((members.find? fun m => decide (m.id = node)).map ClusterNode.port).getD 0
  allNodes := members

/-- Every node starts on empty files. -/
def start (members : List ClusterNode) (store : Str → Store) (threshold : Str → Int) : World where
  members := members
  servers := fun node => .fresh (router members node) (store node) (threshold node)

end World

end TinyKV
