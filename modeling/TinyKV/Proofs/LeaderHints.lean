import Mathlib.Logic.Relation
import TinyKV.Proofs.Elections

/-!
# Leader hints

A node that does not lead forwards a client's line to the node its leader
hint names, and that node does the same. Nothing counts the hops, so the
forwarding ends only because the hints do not form a cycle.

They do not, for two reasons. A hint names a node that has won the term the
node is in, so a chain of hints goes through ever later terms: a node in the
same term as the one before it would have to name itself. And no node but
the leader names itself, since nobody is asked for a vote or told of a leader
by itself, and a leader gives its vote to no one else.

The first reason is that no term has two leaders. Where a restart forgets a
vote, two leaders of one term hear from each other, and each forwards to the
other.
-/

namespace TinyKV

open Function Text Ballot

variable {members : List ClusterNode} {b b' : Tally} {n : Str}

/-! ## Routers -/

structure Router.Hinted (b : Tally) (n : Str) (r : Router) : Prop where
  led : r.leaderId ≠ [] → b.Led r.leaderId r.currentTerm
  own : r.leaderId ≠ [] → r.leaderId = n → r.role = .leader

/-- What a section may be told by another node. -/
def Section.Told (b : Tally) (n : Str) : Section → Prop
  | .requestVote _ candidateId _ _ => candidateId ≠ n
  | .appendEntries term leaderId => b.Led leaderId term ∧ leaderId ≠ n
  | _ => True

namespace Router.Hinted

variable {r r' : Router}

theorem none (h : r.leaderId = []) : r.Hinted b n :=
  ⟨fun hne => absurd h hne, fun hne => absurd h hne⟩

theorem mono {Quorum : Set Str → Prop} {m : Str} (h : r.Hinted b n)
    (hf : Follows Quorum m b b') : r.Hinted b' n :=
  ⟨fun hne => hf.led (h.led hne), h.own⟩

theorem congr (h : r.Hinted b n) (hc : r'.core = r.core) : r'.Hinted b n := by
  obtain ⟨-, -, hrole, hterm, -, hid, -⟩ := Router.fields_of_core hc
  constructor
  · rw [hid, hterm]
    exact h.led
  · rw [hid, hrole]
    exact h.own

/-- A leader that names itself. -/
theorem leader {Quorum : Set Str → Prop} (hinv : Ballot.Inv Quorum b)
    (hb : r.Backed members b n) (hrole : r.role = .leader) (hid : r.leaderId = n) :
    r.Hinted b n := by
  constructor
  · intro _
    rw [hid, ← hb.term]
    exact hinv.leading n (by rw [hb.role, hrole]; rfl)
  · intro _ _
    exact hrole

theorem castVote {candidateId : Str} (h : r.Hinted b n) (hb : r.Backed members b n)
    (hc : candidateId ≠ n) (lastLogIndex lastLogTerm : Int) :
    (r.castVote candidateId lastLogIndex lastLogTerm).1.Hinted b n := by
  rcases r.castVote_cases candidateId lastLogIndex lastLogTerm with ⟨hfree, -, heq⟩ | heq
  · rw [heq]
    refine ⟨h.led, fun hne hid => ?_⟩
    -- the leader has voted for itself
    have hvote : r.votedFor = n := hb.own (by rw [h.own hne hid]; decide)
    rw [hvote] at hfree
    rcases hfree with hnil | hcand
    · exact absurd (hid.trans hnil) hne
    · exact absurd hcand.symm hc
  · rw [heq]
    exact h

end Router.Hinted

theorem Section.hinted {sec : Section} {s t : KVServer} {now : Int} {m : Str}
    {Quorum : Set Str → Prop} (h : s.router.Hinted b n) (hb : s.router.Backed members b n)
    (htold : sec.Told b n) (hrun : sec.run now s = some t) (hf : Follows Quorum m b b')
    (hinv : Ballot.Inv Quorum b') (hb' : t.router.Backed members b' n) :
    t.router.Hinted b' n := by
  cases sec with
  | beginElection =>
    injection hrun with hrun
    rw [← hrun]
    exact .none rfl
  | winElection term =>
    injection hrun with hrun
    rw [← hrun] at hb' ⊢
    by_cases hwin : s.router.role = .candidate ∧ s.router.currentTerm = term
    · have heq : s.router.winElection term =
          { s.router with role := .leader, leaderId := s.router.localId } := if_pos hwin
      simp only [heq] at hb' ⊢
      exact .leader hinv hb' rfl hb.localId
    · have heq : s.router.winElection term = s.router := if_neg hwin
      simp only [heq]
      exact h.mono hf
  | stepDown responseTerm =>
    injection hrun with hrun
    rw [← hrun]
    show (s.router.stepDown responseTerm).Hinted b' n
    rw [Router.stepDown]
    split
    · exact .none rfl
    · exact h.mono hf
  | beginHeartbeats =>
    injection hrun with hrun
    rw [← hrun] at hb' ⊢
    by_cases hlead : s.router.role = .leader
    · have heq : s.router.beginHeartbeats =
          some { s.router with leaderId := s.router.localId } := if_pos hlead
      simp only [heq, Option.getD_some] at hb' ⊢
      exact .leader hinv hb' hlead hb.localId
    · have heq : s.router.beginHeartbeats = Option.none := if_neg hlead
      simp only [heq, Option.getD_none]
      exact h.mono hf
  | requestVote term candidateId lastLogIndex lastLogTerm =>
    injection hrun with hrun
    rw [← hrun]
    show (s.router.handleRequestVote term candidateId lastLogIndex lastLogTerm).1.Hinted b' n
    rw [Router.handleRequestVote]
    split
    · exact h.mono hf
    · split
      · refine .none ?_
        rcases (s.router.newTerm term).castVote_cases candidateId lastLogIndex lastLogTerm with
          ⟨-, -, heq⟩ | heq
        · rw [heq]
          rfl
        · rw [heq]
          rfl
      · exact (h.castVote hb htold lastLogIndex lastLogTerm).mono hf
  | appendEntries term leaderId =>
    injection hrun with hrun
    rw [← hrun]
    show (s.router.handleAppendEntries term leaderId).1.Hinted b' n
    rw [Router.handleAppendEntries]
    split
    · exact h.mono hf
    · next hge =>
      have hid : (s.router.acceptTerm term leaderId).leaderId = leaderId := rfl
      constructor
      · intro _
        rw [hid, Router.acceptTerm_term (by omega)]
        exact hf.led htold.1
      · intro _ heq
        exact absurd heq htold.2
  | restart =>
    refine .none ?_
    obtain ⟨-, hrun⟩ := KVServer.startAgain_eq _ hrun
    obtain ⟨-, -, -, -, -, hid, -⟩ := Router.fields_of_core (KVServer.restart_core hrun)
    exact hid
  | _ => exact (h.congr (run_core hrun rfl)).mono hf

theorem Section.told_of_log {sec : Section} (h : sec.ofRouter = false) : sec.Told b n := by
  cases sec with
  | requestVote term candidateId lastLogIndex lastLogTerm => cases h
  | appendEntries term leaderId => cases h
  | _ => trivial

/-! ## A cluster in which nobody writes -/

/-- The event is not a client's write. -/
def ClusterEvent.OfRouter : ClusterEvent → Prop
  | .write _ _ => False
  | _ => True

instance : (e : ClusterEvent) → Decidable e.OfRouter
  | .write _ _ => inferInstanceAs (Decidable False)
  | .election _ | .heartbeat _ | .job _ _ _ _ | .task _ _ | .restart _ _ =>
    inferInstanceAs (Decidable True)

/-- The request is one of the router's, or has been answered. -/
def Task.OfRouter (task : Task) : Prop :=
  match task.work with
  | some (.arrived (.requestVote _ _ _ _)) | some (.arrived (.heartbeat _ _))
  | some (.answered _) => True
  | _ => False

theorem Job.Goes.ofRouter {w : World} {job job' : Job} {sent : List Task}
    (hgo : job.Goes w n job' sent) (h : ¬ job.Writes) :
    ¬ job'.Writes ∧ ∀ task ∈ sent, task.OfRouter := by
  have none_sent : ∀ task ∈ ([] : List Task), task.OfRouter := fun task ht => by cases ht
  have one_sent : ∀ {x : Task}, x.OfRouter → ∀ task ∈ [x], task.OfRouter := fun hx task ht =>
    List.mem_singleton.mp ht ▸ hx
  cases hgo with
  | stood term => exact ⟨id, none_sent⟩
  | ask term lastLogIndex lastLogTerm votes contact rest => exact ⟨id, one_sent trivial⟩
  | count term lastLogIndex lastLogTerm votes rest task lost reply ha =>
    refine ⟨?_, none_sent⟩
    have goon : ∀ votes : Nat, ¬ (if (w.servers n).router.majoritySize ≤ votes then
        Job.elected term else .canvass term lastLogIndex lastLogTerm votes rest).Writes := by
      intro votes
      split
      · exact id
      · exact id
    unfold World.countVote
    split
    · split
      · exact id
      · exact goon _
    · exact goon _
  | elected term => exact ⟨id, none_sent⟩
  | lead router hlead => exact ⟨id, none_sent⟩
  | beat term contact rest => exact ⟨id, one_sent trivial⟩
  | hear term rest task reply =>
    refine ⟨?_, none_sent⟩
    unfold World.heardBeat
    split
    · split
      · exact id
      · exact id
    · exact id
  | finish => exact ⟨id, none_sent⟩
  | write _ _ _ hw _ _ => exact absurd hw h

theorem Task.OfRouter.turn {node : Str} {work work' : Work} {now : Int} {s t : KVServer}
    (h : Task.OfRouter ⟨node, some work⟩) (hstep : work.step now s = some (t, work')) :
    Task.OfRouter ⟨node, some work'⟩ := by
  cases work with
  | arrived request =>
    cases request with
    | requestVote term candidateId lastLogIndex lastLogTerm =>
      cases hstep
      trivial
    | heartbeat term leaderId =>
      cases hstep
      trivial
    | _ => cases h
  | answered reply => cases hstep
  | _ => cases h

theorem Task.OfRouter.outlive {task : Task} (h : task.OfRouter) (node : Str) :
    (World.Task.outlive node task).OfRouter := by
  obtain ⟨receiver, work⟩ := task
  revert h
  unfold Task.OfRouter
  cases work with
  | none => exact id
  | some work =>
    cases work with
    | arrived request => exact id
    | answered reply => exact id
    | _ => exact False.elim

namespace World

variable {w w' : World} {e : ClusterEvent}

structure Quiet (w : World) : Prop where
  tasks : ∀ task ∈ w.tasks, task.OfRouter
  jobs : ∀ x ∈ w.jobs, ¬ x.2.Writes

theorem Quiet.step (h : w.Quiet) (hs : w.step e = some w') (he : e.OfRouter) : w'.Quiet := by
  obtain ⟨-, hturns⟩ := step_turns hs
  have spawned : ∀ {node job}, w'.tasks = w.tasks → w'.jobs = w.jobs ++ [(node, job)] →
      ¬ job.Writes → w'.Quiet := by
    intro node job ht hj hjob
    refine ⟨ht ▸ h.tasks, fun x hx => ?_⟩
    rw [hj] at hx
    rcases List.mem_append.mp hx with hx | hx
    · exact h.jobs x hx
    · rw [List.mem_singleton.mp hx]
      exact hjob
  cases e with
  | election node => exact spawned hturns.2.1 hturns.2.2 id
  | heartbeat node => exact spawned hturns.1 hturns.2 id
  | write node request => cases he
  | job i now lost alive =>
    obtain ⟨node, job, job', sent, hjob, hgo, ht, hj⟩ := hturns
    obtain ⟨hjob', hsent⟩ := hgo.ofRouter (h.jobs _ (List.mem_of_getElem? hjob))
    constructor
    · intro task hmem
      rw [ht] at hmem
      rcases List.mem_append.mp hmem with hmem | hmem
      · exact h.tasks task hmem
      · exact hsent task hmem
    · intro x hx
      rw [hj] at hx
      rcases List.mem_or_eq_of_mem_set hx with hx | rfl
      · exact h.jobs x hx
      · exact hjob'
  | task i now =>
    obtain ⟨node, work, s, work', htask, hwork, ht, hj⟩ := hturns
    refine ⟨fun task hmem => ?_, hj ▸ h.jobs⟩
    rw [ht] at hmem
    rcases List.mem_or_eq_of_mem_set hmem with hmem | rfl
    · exact h.tasks task hmem
    · exact (h.tasks _ (List.mem_of_getElem? htask)).turn hwork
  | restart node now =>
    obtain ⟨ht, hj⟩ := hturns
    constructor
    · intro task hmem
      rw [ht] at hmem
      obtain ⟨task, hold, rfl⟩ := List.mem_map.mp hmem
      exact (h.tasks task hold).outlive node
    · intro x hx
      rw [hj] at hx
      obtain ⟨x, hold, rfl⟩ := List.mem_map.mp hx
      rw [endJobs]
      split
      · exact id
      · exact h.jobs x hold

/-- All that a section can be told in such a cluster. -/
theorem Quiet.told (h : w.Quiet) (hb : w.Tallied members b) {node : Str} {now : Int}
    {sec : Section} (hsec : w.section? e = some (node, now, sec)) : sec.Told b node := by
  cases e with
  | election node =>
    cases hsec
    trivial
  | heartbeat node => cases hsec
  | write node request => cases hsec
  | job i now lost alive =>
    rw [section?] at hsec
    split at hsec
    · cases hsec
    · next job hjob =>
      obtain ⟨sec, hs, heq⟩ := Option.map_eq_some_iff.mp hsec
      cases heq
      rcases Job.section_cases hs with ⟨term, rfl, rfl⟩ | ⟨term, rfl⟩ | rfl | hlog
      · trivial
      · trivial
      · trivial
      · exact Section.told_of_log hlog
  | task i now =>
    rw [section?] at hsec
    split at hsec
    · next work htask =>
      have hq := h.tasks _ (List.mem_of_getElem? htask)
      have ht := hb.tasks _ (List.mem_of_getElem? htask)
      obtain ⟨sec, hs, heq⟩ := Option.map_eq_some_iff.mp hsec
      cases heq
      cases work with
      | arrived request =>
        cases request with
        | requestVote term candidateId lastLogIndex lastLogTerm =>
          cases hs
          exact ht.2.2
        | heartbeat term leaderId =>
          cases hs
          exact ht
        | _ => cases hq
      | answered reply => cases hs
      | _ => cases hq
    · cases hsec
  | restart node now =>
    cases hsec
    trivial

/-- The node does not lead and forwards to another. -/
def ForwardsTo (w : World) (n m : Str) : Prop :=
  (w.servers n).router.role ≠ .leader ∧
    ∃ node, (w.servers n).router.leaderNode = some node ∧ node.id = m

/-- The hints of a cluster in which nobody writes. -/
structure Guided (w : World) (b : Tally) : Prop where
  quiet : w.Quiet
  hinted : ∀ n, (w.servers n).router.Hinted b n

theorem Guided.step {m : Str} (h : w.Guided b) (hb : w.Tallied members b)
    (hb' : w'.Tallied members b') (hf : Follows (Majority (memberIds members)) m b b')
    (hs : w.step e = some w') (he : e.OfRouter) : w'.Guided b' := by
  refine ⟨h.quiet.step hs he, fun n => ?_⟩
  have hmoves := step_servers hs
  cases hsec : w.section? e with
  | none =>
    rw [hsec] at hmoves
    rw [show w'.servers = w.servers from hmoves]
    exact (h.hinted n).mono hf
  | some x =>
    obtain ⟨node, now, sec⟩ := x
    rw [hsec] at hmoves
    obtain ⟨s, hrun, hservers⟩ := hmoves
    by_cases hn : n = node
    · subst hn
      have hback := hb'.servers n
      rw [hservers, update_self] at hback ⊢
      exact Section.hinted (h.hinted n) (hb.servers n) (h.quiet.told hb hsec) hrun hf hb'.inv
        hback
    · rw [hservers, update_of_ne hn]
      exact (h.hinted n).mono hf

theorem guided_start (members : List ClusterNode) (store : Str → Store) (threshold : Str → Int) :
    (start members store threshold).Guided (Ballot.State.start 0) where
  quiet :=
    { tasks := fun _ ht => by cases ht
      jobs := fun _ hx => by cases hx }
  hinted _ := .none rfl

/-! ## Chains of hints -/

theorem ForwardsTo.leaderId {m : Str} (h : w.ForwardsTo n m) :
    (w.servers n).router.leaderId = m ∧ (w.servers n).router.leaderId ≠ [] := by
  obtain ⟨-, node, hnode, rfl⟩ := h
  rw [Router.leaderNode] at hnode
  split at hnode
  · cases hnode
  · next hne =>
    have hid := List.find?_some hnode
    exact ⟨(of_decide_eq_true hid).symm, hne⟩

/-- Whoever is forwarded to and forwards is in a later term. -/
theorem Guided.term_lt (h : w.Guided b) (hb : w.Tallied members b) {m k : Str}
    (hnm : w.ForwardsTo n m) (hmk : w.ForwardsTo m k) : b.term n < b.term m := by
  obtain ⟨rfl, hn⟩ := hnm.leaderId
  obtain ⟨rfl, hm⟩ := hmk.leaderId
  have hled := (h.hinted n).led hn
  have hled' := (h.hinted _).led hm
  rw [← (hb.servers _).term] at hled hled'
  have hle := hb.inv.led_le _ _ hled
  refine lt_of_le_of_ne hle fun heq => ?_
  -- two leaders of one term: the second names itself, and leads
  rw [heq] at hled
  exact hmk.1 ((h.hinted _).own hm (hb.inv.led_unique hled' hled))

theorem Guided.acyclic (h : w.Guided b) (hb : w.Tallied members b) :
    ¬ Relation.TransGen w.ForwardsTo n n := by
  have later : ∀ {m}, Relation.TransGen w.ForwardsTo n m → ∀ k, w.ForwardsTo m k →
      b.term n < b.term m := by
    intro m hnm
    induction hnm with
    | single hstep => exact fun k hk => h.term_lt hb hstep hk
    | tail _ hstep ih => exact fun k hk => (ih _ hstep).trans (h.term_lt hb hstep hk)
  intro hloop
  obtain ⟨k, hk, -⟩ := Relation.TransGen.head'_iff.mp hloop
  exact absurd (later hloop k hk) (lt_irrefl _)

end World

open World

/-- A hint names a leader of the node's term, and no chain of hints comes back. -/
theorem leader_hints (members : List ClusterNode) (hids : (members.map ClusterNode.id).Nodup)
    (store : Str → Store) (threshold : Str → Int) (es : List ClusterEvent)
    (hes : ∀ e ∈ es, e.OfRouter)
    (hkept : Runs.Always World.step VoteKept (start members store threshold) es) (w : World)
    (hrun : Runs.run World.step (start members store threshold) es = some w) :
    (∀ n, (w.servers n).router.leaderId ≠ [] →
      Runs.Passes World.step
        (·.Leads (w.servers n).router.leaderId (w.servers n).router.currentTerm)
        (start members store threshold) es) ∧
      ∀ n, ¬ Relation.TransGen w.ForwardsTo n n := by
  obtain ⟨b, hb, hguided, hled⟩ := exists_tally hids store threshold (I := Guided)
    (C := fun w e w' => w.VoteKept e w' ∧ e.OfRouter) (fun _ _ _ hc => hc.1)
    (fun _ _ _ _ _ _ hb hb' hf hs hc h => h.step hb hb' hf hs hc.2)
    (guided_start members store threshold) hrun
    (Runs.always_and.mpr ⟨hkept, Runs.always_of_forall hes⟩)
  constructor
  · intro n hn
    exact (hled _ _).mp ((hguided.hinted n).led hn)
  · intro n
    exact hguided.acyclic hb

/-! The first leader tells `b`; after the restart, the two leaders tell each
other. -/

namespace World

def tellB : List ClusterEvent := jobSteps 2 0 [] ++ taskSteps 1 1

def tellEachOther : List ClusterEvent :=
  jobSteps 2 1 [] ++ jobSteps 2 0 [] ++ [.job 0 0 true []] ++ jobSteps 1 0 [] ++
    taskSteps 1 3 ++ taskSteps 1 5

end World

theorem leader_hints_dash :
    ∃ w, Runs.run World.step dashStart (electDash ++ tellB) = some w ∧
      (w.servers (bytes ['b'])).router.leaderId = dash ∧
      Runs.Passes World.step (·.Leads dash 1) dashStart (electDash ++ tellB) ∧
      ∀ n, ¬ Relation.TransGen w.ForwardsTo n n := by
  obtain ⟨w, hw⟩ : ∃ w, Runs.run World.step dashStart (electDash ++ tellB) = some w := ⟨_, rfl⟩
  have hrouter : (Runs.run World.step dashStart (electDash ++ tellB)).map (fun w =>
      ((w.servers (bytes ['b'])).router.leaderId, (w.servers (bytes ['b'])).router.currentTerm)) =
        some (dash, 1) := by
    decide +kernel
  rw [hw] at hrouter
  obtain ⟨hid, hterm⟩ := Prod.mk.inj (Option.some.inj hrouter)
  obtain ⟨hsound, hacyclic⟩ := leader_hints dashMembers (by decide) (fun _ => .memory {}) _
    (electDash ++ tellB) (by decide) (by decide +kernel) w hw
  refine ⟨w, hw, hid, ?_, hacyclic⟩
  have hb := hsound (bytes ['b']) (by rw [hid]; decide)
  rw [hid, hterm] at hb
  exact hb

theorem leaders_forward_to_each_other :
    ∃ w, Runs.run World.step dashStart
        (electDash ++ [.restart (bytes ['b']) 0] ++ electNext ++ tellEachOther) = some w ∧
      (∀ e ∈ electDash ++ [.restart (bytes ['b']) 0] ++ electNext ++ tellEachOther, e.OfRouter) ∧
      (dashMembers.map ClusterNode.id).Nodup ∧
      Relation.TransGen w.ForwardsTo dash dash := by
  refine ⟨_, rfl, by decide, by decide, ?_⟩
  refine Relation.TransGen.tail (.single (b := bytes ['c']) ⟨?_, ⟨bytes ['c'], [], 3⟩, ?_, rfl⟩)
    ⟨?_, ⟨dash, [], 1⟩, ?_, rfl⟩
  · decide +kernel
  · decide +kernel
  · decide +kernel
  · decide +kernel

end TinyKV
