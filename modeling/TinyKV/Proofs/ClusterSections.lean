import TinyKV.Model.Cluster

/-!
# What a step of the cluster does to its nodes

However many threads there are, one step runs at most one section of one
node. `Section` names the sections, `section?` says which one an event runs,
and `step_servers` that nothing else happens to the nodes. Whatever a section
keeps, the cluster keeps (`World.keeps`). `step_turns` is the same for the
threads: one of them moves on, and may send a request.
-/

namespace TinyKV

open Function

inductive Section
  | beginElection
  | winElection (term : Int)
  | stepDown (responseTerm : Int)
  | beginHeartbeats
  | requestVote (term : Int) (candidateId : Str) (lastLogIndex lastLogTerm : Int)
  | appendEntries (term : Int) (leaderId : Str)
  | writeLocal (request : WriteRequest)
  | appendWrite (request : WriteRequest)
  | encodeSnapshot (term : Int)
  | commitWrite (entry : RaftLogEntry)
  | append (request : AppendRequest)
  | installPayload (payload : Option (List StoreEntry))
  | installSet (request : InstallRequest)
  | restart
  deriving DecidableEq, Repr

/-- The server after the section. Only a restart can fail. -/
def Section.run (now : Int) (s : KVServer) : Section → Option KVServer
  | beginElection => some { s with router := s.router.beginElection }
  | winElection term => some { s with router := s.router.winElection term }
  | stepDown responseTerm => some { s with router := s.router.stepDown responseTerm }
  | beginHeartbeats => some { s with router := s.router.beginHeartbeats.getD s.router }
  | requestVote term candidateId lastLogIndex lastLogTerm =>
    some { s with
      router := (s.router.handleRequestVote term candidateId lastLogIndex lastLogTerm).1 }
  | appendEntries term leaderId =>
    some { s with router := (s.router.handleAppendEntries term leaderId).1 }
  | writeLocal request => some (s.writeLocal now request)
  | appendWrite request => some (s.appendWrite request).1
  | encodeSnapshot term => some (s.encodeRaftSnapshot now term).1
  | commitWrite entry => some (s.commitWrite now entry)
  | append request => some (s.appendLocked now request).1
  | installPayload payload => some (s.installPayload now payload).1
  | installSet request => some (s.installSet request)
  | restart => s.startAgain now

/-- The section is one of the router's. -/
def Section.ofRouter : Section → Bool
  | .beginElection | .winElection _ | .stepDown _ | .beginHeartbeats | .requestVote _ _ _ _
  | .appendEntries _ _ | .restart => true
  | _ => false

/-- The section a worker thread runs next, if it touches the server. -/
def Work.section? : Work → Option Section
  | .arrived (.requestVote term candidateId lastLogIndex lastLogTerm) =>
    some (.requestVote term candidateId lastLogIndex lastLogTerm)
  | .arrived (.heartbeat term leaderId) => some (.appendEntries term leaderId)
  | .arrived (.append request) => some (.appendEntries request.term request.nodeId)
  | .arrived (.install request) => some (.appendEntries request.term request.nodeId)
  | .appendChecked request => some (.append request)
  | .installAdmitted request => some (.installPayload request.payload)
  | .installInstalled request => some (.installSet request)
  | _ => none

/-- The section a job runs next, if it touches the server. -/
def Job.section? (s : KVServer) : Job → Option Section
  | .elected term => some (.winElection term)
  | .deposed responseTerm => some (.stepDown responseTerm)
  | .heartbeat => some .beginHeartbeats
  | .fallenThrough request => some (.writeLocal request)
  | .accepted request => some (.appendWrite request)
  | .send snapshot _ _ _ next =>
    if (next ≤ snapshot.entry.index ∧ 0 < next) ∧ next ≤ snapshot.snapshotIndex then
      some (.encodeSnapshot snapshot.entry.term)
    else none
  | .counted snapshot acks =>
    if acks < s.router.majoritySize then none else some (.commitWrite snapshot.entry)
  | _ => none

theorem Job.section_cases {job : Job} {s : KVServer} {sec : Section}
    (h : job.section? s = some sec) :
    (∃ term, job = .elected term ∧ sec = .winElection term) ∨ (∃ term, sec = .stepDown term) ∨
      sec = .beginHeartbeats ∨ sec.ofRouter = false := by
  cases job with
  | elected term =>
    cases h
    exact Or.inl ⟨term, rfl, rfl⟩
  | deposed responseTerm =>
    cases h
    exact Or.inr (Or.inl ⟨responseTerm, rfl⟩)
  | heartbeat =>
    cases h
    exact Or.inr (Or.inr (Or.inl rfl))
  | fallenThrough request =>
    cases h
    exact Or.inr (Or.inr (Or.inr rfl))
  | accepted request =>
    cases h
    exact Or.inr (Or.inr (Or.inr rfl))
  | send snapshot acks rest follower next =>
    rw [section?] at h
    split at h
    · cases h
      exact Or.inr (Or.inr (Or.inr rfl))
    · cases h
  | counted snapshot acks =>
    rw [section?] at h
    split at h
    · cases h
    · cases h
      exact Or.inr (Or.inr (Or.inr rfl))
  | _ => cases h

namespace World

/-- The node an event is about, the time, and the section it runs there. -/
def section? (w : World) : ClusterEvent → Option (Str × Int × Section)
  | .election node => some (node, 0, .beginElection)
  | .job i now _ _ =>
    match w.jobs[i]? with
    | none => none
    | some (node, job) => (job.section? (w.servers node)).map fun sec => (node, now, sec)
  | .task i now =>
    match w.tasks[i]? with
    | some ⟨node, some work⟩ =>
      (work.section?).map fun sec => (node, now, sec)
    | _ => none
  | .restart node now => some (node, now, .restart)
  | _ => none

/-- The servers after an event are those before it, but for the section. -/
def Moves (w w' : World) : Option (Str × Int × Section) → Prop
  | none => w'.servers = w.servers
  | some (node, now, sec) =>
    ∃ s, sec.run now (w.servers node) = some s ∧ w'.servers = update w.servers node s

end World

theorem Work.step_section {s t : KVServer} {work work' : Work} {now : Int}
    (h : work.step now s = some (t, work')) :
    match work.section? with
    | none => t = s
    | some sec => sec.run now s = some t := by
  -- the server part of an equation between results
  have fst : ∀ {u : KVServer} {v : Work}, some (u, v) = some (t, work') → u = t :=
    fun heq => congrArg Prod.fst (Option.some.inj heq)
  cases work with
  | arrived request =>
    cases request with
    | requestVote term candidateId lastLogIndex lastLogTerm => exact congrArg some (fst h)
    | heartbeat term leaderId => exact congrArg some (fst h)
    | append request =>
      rw [step, receive] at h
      split at h
      · next hck => exact congrArg some ((congrArg Prod.fst hck).trans (fst h))
      · next hck => exact congrArg some ((congrArg Prod.fst hck).trans (fst h))
    | install request =>
      rw [step, receive] at h
      split at h
      · next hck => exact congrArg some ((congrArg Prod.fst hck).trans (fst h))
      · next hck => exact congrArg some ((congrArg Prod.fst hck).trans (fst h))
  | appendChecked request => exact congrArg some (fst h)
  | appendRefused => exact (fst h).symm
  | appendDone success matchIndex => exact (fst h).symm
  | installChecked request =>
    rw [step] at h
    split at h
    · exact (fst h).symm
    · exact (fst h).symm
  | installAdmitted request =>
    rw [step] at h
    split at h
    · next hp => exact congrArg some ((congrArg Prod.fst hp).trans (fst h))
    · next hp => exact congrArg some ((congrArg Prod.fst hp).trans (fst h))
  | installInstalled request => exact congrArg some (fst h)
  | installDone success => exact (fst h).symm
  | answered reply => cases h

namespace World

variable {w w' : World}

theorem jobStep_section {i : Nat} {node : Str} {now : Int} {lost : Bool} {alive : List Str}
    {job : Job} (h : w.jobStep i node now lost alive job = some w') :
    w.Moves w' ((job.section? (w.servers node)).map fun sec => (node, now, sec)) := by
  have still : ∀ {u : World}, some u = some w' → u.servers = w.servers →
      w'.servers = w.servers := fun heq hu => Option.some.inj heq ▸ hu
  have moved : ∀ {u : World} {sec : Section} {s : KVServer}, some u = some w' →
      sec.run now (w.servers node) = some s → u.servers = update w.servers node s →
      w.Moves w' (some (node, now, sec)) := fun heq hrun hu =>
    ⟨_, hrun, Option.some.inj heq ▸ hu⟩
  cases job with
  | stood term => exact still h rfl
  | canvass term lastLogIndex lastLogTerm votes rest =>
    cases rest with
    | nil => exact still h rfl
    | cons contact rest => exact still h rfl
  | polling term lastLogIndex lastLogTerm votes rest task =>
    obtain ⟨reply, -, h⟩ := Option.map_eq_some_iff.mp h
    rw [← h]
    rfl
  | elected term => exact moved h rfl rfl
  | deposed responseTerm => exact moved h rfl rfl
  | heartbeat =>
    rw [jobStep] at h
    show ∃ s, _ = some s ∧ _
    split at h
    · next hb =>
      injection h with h
      rw [← h]
      refine ⟨w.servers node, ?_, (update_eq_self node w.servers).symm⟩
      rw [Section.run, hb]
      rfl
    · next router hb =>
      injection h with h
      rw [← h]
      refine ⟨_, ?_, rfl⟩
      rw [Section.run, hb]
      rfl
  | beating term rest =>
    cases rest with
    | nil => exact still h rfl
    | cons contact rest => exact still h rfl
  | listening term rest task =>
    obtain ⟨reply, -, h⟩ := Option.map_eq_some_iff.mp h
    rw [← h]
    rfl
  | routed request =>
    rw [jobStep] at h
    split at h
    · exact still h rfl
    · exact still h rfl
  | fallenThrough request => exact moved h rfl rfl
  | accepted request => exact moved h rfl rfl
  | replicate snapshot acks rest =>
    cases rest with
    | nil => exact still h rfl
    | cons follower rest => exact still h rfl
  | send snapshot acks rest follower next =>
    rw [jobStep] at h
    rw [Job.section?]
    split at h
    · next hloop =>
      split at h
      · next hsnap =>
        injection h with h
        rw [← h, if_pos ⟨hloop, hsnap⟩]
        exact ⟨_, rfl, rfl⟩
      · next hsnap =>
        rw [if_neg fun hc => hsnap hc.2]
        split at h
        · exact still h rfl
        · exact still h rfl
    · next hloop =>
      injection h with h
      rw [← h, if_neg fun hc => hloop hc.1]
      rfl
  | awaiting snapshot acks rest follower next task =>
    obtain ⟨reply, -, h⟩ := Option.map_eq_some_iff.mp h
    split at h
    · rw [← h]
      rfl
    · rw [← h]
      rfl
    · rw [← h]
      rfl
  | counted snapshot acks =>
    rw [jobStep] at h
    rw [Job.section?]
    split at h
    · next hlt =>
      injection h with h
      rw [← h, if_pos hlt]
      rfl
    · next hlt =>
      injection h with h
      rw [← h, if_neg hlt]
      exact ⟨_, rfl, rfl⟩
  | announce message rest =>
    cases rest with
    | nil => exact still h rfl
    | cons follower rest => exact still h rfl
  | replied reply => cases h
  | done => cases h

theorem step_servers {e : ClusterEvent} (h : w.step e = some w') : w.Moves w' (w.section? e) := by
  cases e with
  | election node =>
    rw [step] at h
    split at h
    · injection h with h
      rw [← h]
      exact ⟨_, rfl, rfl⟩
    · cases h
  | heartbeat node =>
    rw [step] at h
    split at h
    · injection h with h
      rw [← h]
      rfl
    · cases h
  | write node request =>
    rw [step] at h
    split at h
    · injection h with h
      rw [← h]
      rfl
    · cases h
  | job i now lost alive =>
    rw [step] at h
    split at h
    · cases h
    · next node job hjob =>
      rw [section?, hjob]
      exact jobStep_section h
  | task i now =>
    rw [step, taskStep] at h
    split at h
    · next node work htask =>
      rw [section?, htask]
      show w.Moves w' (work.section?.map fun sec => (node, now, sec))
      split at h
      · cases h
      · next s work' hwork =>
        injection h with h
        have hsec := Work.step_section hwork
        rw [← h]
        cases hs : work.section? with
        | none =>
          rw [hs] at hsec
          have hsame : s = w.servers node := hsec
          subst hsame
          exact update_eq_self node w.servers
        | some sec =>
          rw [hs] at hsec
          exact ⟨s, hsec, rfl⟩
    · cases h
  | restart node now =>
    rw [step] at h
    split at h
    · cases h
    · next s hs =>
      injection h with h
      rw [← h]
      exact ⟨s, hs, rfl⟩

end World

/-- A request that has been looked at is no longer on its way. -/
theorem Work.step_ne_arrived {s t : KVServer} {work work' : Work} {now : Int}
    (h : work.step now s = some (t, work')) (request : RaftRequest) :
    work' ≠ .arrived request := by
  rintro rfl
  cases work with
  | arrived received =>
    cases received with
    | requestVote term candidateId lastLogIndex lastLogTerm => cases h
    | heartbeat term leaderId => cases h
    | append received =>
      rw [step, receive] at h
      split at h
      · cases h
      · cases h
    | install received =>
      rw [step, receive] at h
      split at h
      · cases h
      · cases h
  | installChecked received =>
    rw [step] at h
    split at h
    · cases h
    · cases h
  | installAdmitted received =>
    rw [step] at h
    split at h
    · cases h
    · cases h
  | _ => cases h

/-! ## What a step does to the threads -/

/-- The thread works on a client's write. -/
def Job.Writes : Job → Prop
  | .routed _ | .accepted _ | .fallenThrough _ | .replicate _ _ _ | .send _ _ _ _ _
  | .awaiting _ _ _ _ _ _ | .counted _ _ | .announce _ _ | .replied _ => True
  | _ => False

/-- The request brings entries of the log, or a snapshot. -/
def Task.Writes (task : Task) : Prop :=
  (∃ request, task.work = some (.arrived (.append request))) ∨
    ∃ request, task.work = some (.arrived (.install request))

/-- A job of a node becomes another, and some requests are sent. -/
inductive Job.Goes (w : World) (node : Str) : Job → Job → List Task → Prop
  | stood (term : Int) :
      Goes w node (.stood term)
        (.canvass term (w.servers node).router.lastLogIndex (w.servers node).router.lastLogTerm 1
          (w.servers node).router.contacts) []
  | ask (term lastLogIndex lastLogTerm : Int) (votes : Nat) (contact : ClusterNode)
      (rest : List ClusterNode) :
      Goes w node (.canvass term lastLogIndex lastLogTerm votes (contact :: rest))
        (.polling term lastLogIndex lastLogTerm votes rest w.tasks.length)
        [⟨contact.id, some (.arrived (.requestVote term node lastLogIndex lastLogTerm))⟩]
  | count (term lastLogIndex lastLogTerm : Int) (votes : Nat) (rest : List ClusterNode)
      (task : Nat) (lost : Bool) (reply : Option RaftReply) (h : w.answer lost task = some reply) :
      Goes w node (.polling term lastLogIndex lastLogTerm votes rest task)
        (World.countVote (w.servers node).router term lastLogIndex lastLogTerm votes rest reply) []
  | elected (term : Int) : Goes w node (.elected term) .heartbeat []
  | lead (router : Router) (h : (w.servers node).router.beginHeartbeats = some router) :
      Goes w node .heartbeat (.beating router.currentTerm router.contacts) []
  | beat (term : Int) (contact : ClusterNode) (rest : List ClusterNode) :
      Goes w node (.beating term (contact :: rest)) (.listening term rest w.tasks.length)
        [⟨contact.id, some (.arrived (.heartbeat term node))⟩]
  | hear (term : Int) (rest : List ClusterNode) (task : Nat) (reply : Option RaftReply) :
      Goes w node (.listening term rest task) (World.heardBeat term rest reply) []
  | finish (job : Job) : Goes w node job .done []
  | write (job job' : Job) (sent : List Task) (h : job.Writes) (h' : job'.Writes)
      (hsent : ∀ task ∈ sent, task.Writes) : Goes w node job job' sent

namespace World

variable {w w' : World}

/-- The threads after an event are those before it, but for the one that
moved, and the requests are those before it and those it sent. -/
def Turns (w w' : World) : ClusterEvent → Prop
  | .election node =>
    node ∈ w.members.map ClusterNode.id ∧ w'.tasks = w.tasks ∧
      w'.jobs = w.jobs ++ [(node, .stood (w.servers node).router.beginElection.currentTerm)]
  | .heartbeat node => w'.tasks = w.tasks ∧ w'.jobs = w.jobs ++ [(node, .heartbeat)]
  | .write node request => w'.tasks = w.tasks ∧ w'.jobs = w.jobs ++ [(node, .routed request)]
  | .job i _ _ _ =>
    ∃ node job job' sent, w.jobs[i]? = some (node, job) ∧ job.Goes w node job' sent ∧
      w'.tasks = w.tasks ++ sent ∧ w'.jobs = w.jobs.set i (node, job')
  | .task i now =>
    ∃ node work s work', w.tasks[i]? = some ⟨node, some work⟩ ∧
      work.step now (w.servers node) = some (s, work') ∧
      w'.tasks = w.tasks.set i ⟨node, some work'⟩ ∧ w'.jobs = w.jobs
  | .restart node _ =>
    w'.tasks = w.tasks.map (Task.outlive node) ∧ w'.jobs = w.jobs.map (endJobs node)

theorem jobStep_goes {i : Nat} {node : Str} {now : Int} {lost : Bool} {alive : List Str}
    {job : Job} (h : w.jobStep i node now lost alive job = some w') :
    ∃ job' sent, job.Goes w node job' sent ∧ w'.members = w.members ∧
      w'.tasks = w.tasks ++ sent ∧ w'.jobs = w.jobs.set i (node, job') := by
  have sends : ∀ {u : World} {job' : Job} {sent : List Task}, some u = some w' →
      u.members = w.members → u.tasks = w.tasks ++ sent → u.jobs = w.jobs.set i (node, job') →
      job.Goes w node job' sent → ∃ job' sent, job.Goes w node job' sent ∧
        w'.members = w.members ∧ w'.tasks = w.tasks ++ sent ∧
        w'.jobs = w.jobs.set i (node, job') :=
    fun heq hm ht hj hg => Option.some.inj heq ▸ ⟨_, _, hg, hm, ht, hj⟩
  have quiet : ∀ {u : World} {job' : Job}, some u = some w' → u.members = w.members →
      u.tasks = w.tasks → u.jobs = w.jobs.set i (node, job') → job.Goes w node job' [] →
      ∃ job' sent, job.Goes w node job' sent ∧ w'.members = w.members ∧
        w'.tasks = w.tasks ++ sent ∧ w'.jobs = w.jobs.set i (node, job') :=
    fun heq hm ht hj hg => sends heq hm (ht.trans (List.append_nil _).symm) hj hg
  have none_sent : ∀ task ∈ ([] : List Task), task.Writes := fun task ht => by cases ht
  have one_sent : ∀ {x : Task}, x.Writes → ∀ task ∈ [x], task.Writes := fun hx task ht =>
    List.mem_singleton.mp ht ▸ hx
  cases job with
  | stood term => exact quiet h rfl rfl rfl (.stood term)
  | canvass term lastLogIndex lastLogTerm votes rest =>
    cases rest with
    | nil => exact quiet h rfl rfl rfl (.finish _)
    | cons contact rest => exact sends h rfl rfl rfl (.ask ..)
  | polling term lastLogIndex lastLogTerm votes rest task =>
    obtain ⟨reply, hreply, h⟩ := Option.map_eq_some_iff.mp h
    exact quiet (congrArg some h) rfl rfl rfl (.count _ _ _ _ _ _ lost reply hreply)
  | elected term => exact quiet h rfl rfl rfl (.elected term)
  | deposed responseTerm => exact quiet h rfl rfl rfl (.finish _)
  | heartbeat =>
    rw [jobStep] at h
    split at h
    · exact quiet h rfl rfl rfl (.finish _)
    · next router hb => exact quiet h rfl rfl rfl (.lead router hb)
  | beating term rest =>
    cases rest with
    | nil => exact quiet h rfl rfl rfl (.finish _)
    | cons contact rest => exact sends h rfl rfl rfl (.beat ..)
  | listening term rest task =>
    obtain ⟨reply, -, h⟩ := Option.map_eq_some_iff.mp h
    exact quiet (congrArg some h) rfl rfl rfl (.hear term rest task reply)
  | routed request =>
    rw [jobStep] at h
    split at h
    · exact quiet h rfl rfl rfl (.write _ _ _ trivial trivial none_sent)
    · exact quiet h rfl rfl rfl (.write _ _ _ trivial trivial none_sent)
  | fallenThrough request => exact quiet h rfl rfl rfl (.finish _)
  | accepted request =>
    exact quiet h rfl rfl rfl (.write _ (.replicate _ _ _) _ trivial trivial none_sent)
  | replicate snapshot acks rest =>
    cases rest with
    | nil => exact quiet h rfl rfl rfl (.write _ _ _ trivial trivial none_sent)
    | cons follower rest => exact quiet h rfl rfl rfl (.write _ _ _ trivial trivial none_sent)
  | send snapshot acks rest follower next =>
    rw [jobStep] at h
    split at h
    · split at h
      · exact sends h rfl rfl rfl (.write _ _ _ trivial trivial (one_sent (Or.inr ⟨_, rfl⟩)))
      · split at h
        · exact quiet h rfl rfl rfl (.write _ _ _ trivial trivial none_sent)
        · exact sends h rfl rfl rfl (.write _ _ _ trivial trivial (one_sent (Or.inl ⟨_, rfl⟩)))
    · exact quiet h rfl rfl rfl (.write _ _ _ trivial trivial none_sent)
  | awaiting snapshot acks rest follower next task =>
    obtain ⟨reply, -, h⟩ := Option.map_eq_some_iff.mp h
    split at h
    · exact quiet (congrArg some h) rfl rfl rfl (.write _ _ _ trivial trivial none_sent)
    · exact quiet (congrArg some h) rfl rfl rfl (.write _ _ _ trivial trivial none_sent)
    · exact quiet (congrArg some h) rfl rfl rfl (.write _ _ _ trivial trivial none_sent)
  | counted snapshot acks =>
    rw [jobStep] at h
    split at h
    · exact quiet h rfl rfl rfl (.write _ _ _ trivial trivial none_sent)
    · exact quiet h rfl rfl rfl (.write _ _ _ trivial trivial none_sent)
  | announce message rest =>
    cases rest with
    | nil => exact quiet h rfl rfl rfl (.write _ _ _ trivial trivial none_sent)
    | cons follower rest =>
      exact sends h rfl rfl rfl (.write _ _ _ trivial trivial (one_sent (Or.inl ⟨_, rfl⟩)))
  | replied reply => cases h
  | done => cases h

theorem step_turns {e : ClusterEvent} (h : w.step e = some w') :
    w'.members = w.members ∧ w.Turns w' e := by
  cases e with
  | election node =>
    rw [step] at h
    split at h
    · next hg =>
      injection h with h
      rw [← h]
      exact ⟨rfl, hg.1, rfl, rfl⟩
    · cases h
  | heartbeat node =>
    rw [step] at h
    split at h
    · injection h with h
      rw [← h]
      exact ⟨rfl, rfl, rfl⟩
    · cases h
  | write node request =>
    rw [step] at h
    split at h
    · injection h with h
      rw [← h]
      exact ⟨rfl, rfl, rfl⟩
    · cases h
  | job i now lost alive =>
    rw [step] at h
    split at h
    · cases h
    · next node job hjob =>
      obtain ⟨job', sent, hgo, hm, ht, hj⟩ := jobStep_goes h
      exact ⟨hm, node, job, job', sent, hjob, hgo, ht, hj⟩
  | task i now =>
    rw [step, taskStep] at h
    split at h
    · next node work htask =>
      split at h
      · cases h
      · next s work' hwork =>
        injection h with h
        rw [← h]
        exact ⟨rfl, node, work, s, work', htask, hwork, rfl, rfl⟩
    · cases h
  | restart node now =>
    rw [step] at h
    split at h
    · cases h
    · injection h with h
      rw [← h]
      exact ⟨rfl, rfl, rfl⟩

/-- What every section keeps, a step of the cluster keeps. -/
theorem keeps {P : KVServer → Prop} {e : ClusterEvent} (h : w.step e = some w')
    (hsec : ∀ node now sec s, w.section? e = some (node, now, sec) → P (w.servers node) →
      sec.run now (w.servers node) = some s → P s)
    (hw : ∀ node, P (w.servers node)) : ∀ node, P (w'.servers node) := by
  have hm := step_servers h
  intro m
  cases hs : w.section? e with
  | none =>
    rw [hs] at hm
    rw [show w'.servers = w.servers from hm]
    exact hw m
  | some x =>
    obtain ⟨node, now, sec⟩ := x
    rw [hs] at hm
    obtain ⟨s, hrun, hservers⟩ := hm
    rw [hservers]
    by_cases hmn : m = node
    · subst hmn
      rw [update_self]
      exact hsec m now sec s hs (hw m) hrun
    · rw [update_of_ne hmn]
      exact hw m

/-- The next steps of a job and of a task. -/
def jobSteps (n job : Nat) (alive : List Str) : List ClusterEvent :=
  List.replicate n (.job job 0 false alive)

def taskSteps (n task : Nat) : List ClusterEvent := List.replicate n (.task task 0)

end World

end TinyKV
