import TinyKV.Proofs.ClusterRefinement
import TinyKV.Proofs.RejectedWrites

/-!
# Leader completeness

Handlers that run without interruption are sections that run one after the
other, and what `Section.InTerm` asks for then comes from the sections before:
a request is handled in the term its first section has accepted, and a write
is appended by the leader its second check has found. The commit section may
still run after its node has been deposed.

So a cluster of such handlers follows the machine, in which a leader has
everything that was acknowledged by a majority in an earlier term. What is
left to ask for is that votes are remembered.
-/

namespace TinyKV

open Function Raft

/-! ## Handlers as runs of sections -/

namespace Work

/-- Sections of one request that run one after the other, each in the term it
belongs to. -/
inductive Turns (now : Int) : KVServer → Work → KVServer → Work → Prop
  | last {s t : KVServer} {work work' : Work} (hs : work.step now s = some (t, work'))
      (hin : ∀ sec ∈ work.section?, sec.InTerm False s) : Turns now s work t work'
  | turn {s t u : KVServer} {work work' work'' : Work}
      (hs : work.step now s = some (t, work'))
      (hin : ∀ sec ∈ work.section?, sec.InTerm False s) (h : Turns now t work' u work'') :
      Turns now s work u work''

/-- The first section of a request is in no term yet. -/
theorem arrived_inTerm (s : KVServer) (request : RaftRequest) :
    ∀ sec ∈ (Work.arrived request).section?, sec.InTerm False s := by
  intro sec hsec
  cases request <;> cases hsec <;> trivial

theorem checkTerm_term {s t : KVServer} {term : Int} {leaderId : Str}
    (h : s.checkTerm term leaderId = (t, true)) : t.router.currentTerm = term := by
  rcases lt_or_ge term s.router.currentTerm with hlt | hge
  · rw [KVServer.checkTerm_stale hlt] at h
    cases congrArg Prod.snd h
  · rw [KVServer.checkTerm_fresh hge] at h
    injection h with ht
    rw [← ht]
    exact Router.acceptTerm_term hge leaderId

theorem turns_append {s : KVServer} {request : AppendRequest}
    (hterm : s.router.currentTerm = request.term) (now : Int) :
    Turns now s (.appendChecked request) (s.appendLocked now request).1
      (.appendDone (s.appendLocked now request).2.1 (s.appendLocked now request).2.2) := by
  refine .last rfl fun sec hsec => ?_
  cases hsec
  exact hterm

theorem installPayload_log (now : Int) (s : KVServer) (payload : Option (List StoreEntry)) :
    (s.installPayload now payload).1.router = s.router ∧
      (s.installPayload now payload).1.raftLastIncludedIndex = s.raftLastIncludedIndex := by
  cases payload <;> exact ⟨rfl, rfl⟩

/-- The payload changes the store only, so the base the request was compared
with is still the base when the server takes it over. -/
theorem turns_install {s t : KVServer} {request : InstallRequest} {work : Work}
    (hterm : s.router.currentTerm = request.term) (now : Int)
    (h : (if s.installCovered request then (s, Work.installDone true)
      else
        match s.installPayload now request.payload with
        | (s, true) => (s.installSet request, .installDone true)
        | (s, false) => (s, .installDone false)) = (t, work)) :
    Turns now s (.installChecked request) t work := by
  have unchecked : ∀ (u : KVServer), ∀ sec ∈ (Work.installChecked request).section?,
      sec.InTerm False u := fun u sec hsec => by cases hsec
  have admitted : ∀ (u : KVServer), ∀ sec ∈ (Work.installAdmitted request).section?,
      sec.InTerm False u := fun u sec hsec => by cases hsec; trivial
  by_cases hcovered : s.installCovered request = true
  · rw [if_pos hcovered] at h
    obtain ⟨rfl, rfl⟩ := Prod.mk.inj h
    exact .last (by rw [step, if_pos hcovered]) (unchecked s)
  · rw [if_neg hcovered] at h
    have hnext : (Work.installChecked request).step now s = some (s, .installAdmitted request) := by
      rw [step, if_neg hcovered]
    refine .turn hnext (unchecked s) ?_
    obtain ⟨hrouter, hbase⟩ := installPayload_log now s request.payload
    rcases hp : s.installPayload now request.payload with ⟨u, ok⟩
    rw [hp] at h hrouter hbase
    cases ok with
    | false =>
      obtain ⟨rfl, rfl⟩ := Prod.mk.inj h
      exact .last (by rw [step, hp]) (admitted s)
    | true =>
      obtain ⟨rfl, rfl⟩ := Prod.mk.inj h
      refine .turn (by rw [step, hp]) (admitted s) (.last rfl fun sec hsec => ?_)
      cases hsec
      refine ⟨hrouter ▸ hterm, ?_⟩
      rw [hbase]
      exact not_le.mp fun hle => hcovered (decide_eq_true hle)

theorem handle_turns (now : Int) (s : KVServer) (request : RaftRequest) :
    Turns now s (.arrived request) (handle now s request).1 (handle now s request).2 := by
  have first := arrived_inTerm s request
  cases request with
  | requestVote term candidateId lastLogIndex lastLogTerm => exact .last rfl first
  | heartbeat term leaderId => exact .last rfl first
  | append request =>
    rcases hc : s.checkTerm request.term request.nodeId with ⟨t, ok⟩
    cases ok with
    | false =>
      have hr : receive s (.append request) = (t, .appendRefused) := by rw [receive, hc]
      rw [handle, hr]
      exact .last (congrArg some hr) first
    | true =>
      have hr : receive s (.append request) = (t, .appendChecked request) := by
        rw [receive, hc]
      rw [handle, hr]
      exact .turn (congrArg some hr) first (turns_append (checkTerm_term hc) now)
  | install request =>
    rcases hc : s.checkTerm request.term request.nodeId with ⟨t, ok⟩
    cases ok with
    | false =>
      have hr : receive s (.install request) = (t, .installDone false) := by rw [receive, hc]
      rw [handle, hr]
      exact .last (congrArg some hr) first
    | true =>
      have hr : receive s (.install request) = (t, .installChecked request) := by
        rw [receive, hc]
      rw [handle, hr]
      exact .turn (congrArg some hr) first (turns_install (checkTerm_term hc) now rfl)

end Work

namespace World

variable {members : List ClusterNode} {a : Ledger} {w w' : World} {e : ClusterEvent}

/-- What a run of single sections keeps to. -/
abbrev Orderly (w : World) (e : ClusterEvent) (w' : World) : Prop :=
  w.VoteKept e w' ∧ w.InTerm False e w'

/-- A request has come further. -/
def turn (w : World) (i : Nat) (node : Str) (s : KVServer) (work : Work) : World :=
  { w.setServer node s with tasks := w.tasks.set i ⟨node, some work⟩ }

variable {i : Nat} {node : Str} {s : KVServer} {work work' : Work} {now : Int}

theorem step_turn (hw : w.tasks[i]? = some ⟨node, some work⟩)
    (hs : work.step now (w.servers node) = some (s, work')) :
    w.step (.task i now) = some (w.turn i node s work') := by
  rw [step, taskStep, hw]
  simp only [hs]
  rfl

theorem turn_tasks (hw : w.tasks[i]? = some ⟨node, some work⟩) :
    (w.turn i node s work').tasks[i]? = some ⟨node, some work'⟩ :=
  List.getElem?_set_self (List.getElem?_eq_some_iff.mp hw).1

theorem turn_turn (w : World) (i : Nat) (node : Str) (s t : KVServer) (work work' : Work) :
    (w.turn i node s work).turn i node t work' = w.turn i node t work' := by
  simp only [turn, setServer, update_idem, List.set_set]

theorem task_inTerm (hw : w.tasks[i]? = some ⟨node, some work⟩)
    (hin : ∀ sec ∈ work.section?, sec.InTerm False (w.servers node)) :
    w.InTerm False (.task i now) w' := by
  intro x hx
  rw [section?, hw] at hx
  obtain ⟨sec, hsec, rfl⟩ := Option.map_eq_some_iff.mp hx
  exact hin sec hsec

/-- The sections of a handler are steps of the cluster. -/
theorem run_turns {t : KVServer} (h : Work.Turns now s work t work')
    (hw : w.tasks[i]? = some ⟨node, some work⟩) (hs : w.servers node = s) :
    ∃ es, Runs.run World.step w es = some (w.turn i node t work') ∧
      Runs.Always World.step Orderly w es := by
  induction h generalizing w with
  | last hstep hin =>
    subst hs
    have hnext := step_turn hw hstep
    exact ⟨[.task i now], Runs.run_cons hnext [],
      (Runs.always_cons hnext []).mpr ⟨⟨trivial, task_inTerm hw hin⟩, trivial⟩⟩
  | turn hstep hin _ ih =>
    subst hs
    have hnext := step_turn hw hstep
    obtain ⟨es, hrun, horder⟩ := ih (turn_tasks hw) (update_self _ _ _)
    rw [turn_turn] at hrun
    exact ⟨.task i now :: es, (Runs.run_cons hnext es).trans hrun,
      (Runs.always_cons hnext es).mpr ⟨⟨trivial, task_inTerm hw hin⟩, horder⟩⟩

theorem run_single (hs : w.step e = some w') (hkept : w.VoteKept e w')
    (hin : w.InTerm False e w') :
    ∃ es, Runs.run World.step w es = some w' ∧ Runs.Always World.step Orderly w es :=
  ⟨[e], Runs.run_cons hs [], (Runs.always_cons hs []).mpr ⟨⟨hkept, hin⟩, trivial⟩⟩

/-- Of the sections of a job only the append of a write asks for a role. -/
theorem job_inTerm {job : Job} {lost : Bool} {alive : List Str}
    (hjob : w.jobs[i]? = some (node, job))
    (hrole : ∀ request, job = .accepted request → (w.servers node).router.role = .leader) :
    w.InTerm False (.job i now lost alive) w' := by
  intro x hx
  rw [section?, hjob] at hx
  obtain ⟨sec, hsec, rfl⟩ := Option.map_eq_some_iff.mp hx
  cases job with
  | accepted request =>
    cases hsec
    exact hrole request rfl
  | elected term | deposed responseTerm | heartbeat | fallenThrough request =>
    cases hsec
    trivial
  | send snapshot acks rest follower next =>
    rw [Job.section?] at hsec
    split at hsec
    · cases hsec
      trivial
    · cases hsec
  | counted snapshot acks =>
    rw [Job.section?] at hsec
    split at hsec
    · cases hsec
    · cases hsec
      exact False.elim
  | _ => cases hsec

/-- The check of the role and the append behind it. -/
theorem run_write {request : WriteRequest} {lost : Bool} {alive : List Str}
    (hjob : w.jobs[i]? = some (node, .routed request))
    (hrole : (w.servers node).router.role = .leader)
    (hs : w.jobStep i node now lost alive (.accepted request) = some w') :
    ∃ es, Runs.run World.step w es = some w' ∧ Runs.Always World.step Orderly w es := by
  have hfirst : w.step (.job i now lost alive) = some (w.setJob i node (.accepted request)) := by
    rw [step, hjob]
    simp only [jobStep, if_pos hrole]
  have hjob' : (w.setJob i node (.accepted request)).jobs[i]? = some (node, .accepted request) :=
    List.getElem?_set_self (List.getElem?_eq_some_iff.mp hjob).1
  have hsecond : (w.setJob i node (.accepted request)).step (.job i now lost alive) =
      some w' := by
    rw [step, hjob', ← hs]
    simp only [jobStep, setJob, setServer, List.set_set]
  refine ⟨[.job i now lost alive, .job i now lost alive], ?_, ?_⟩
  · rw [Runs.run_cons hfirst, Runs.run_cons hsecond, Runs.run_nil]
  · refine (Runs.always_cons hfirst _).mpr ⟨⟨trivial, job_inTerm hjob fun _ hno => by cases hno⟩,
      (Runs.always_cons hsecond []).mpr ⟨⟨trivial, job_inTerm hjob' fun _ _ => hrole⟩, trivial⟩⟩

/-- A step of the cluster with uninterrupted handlers is a run of single
sections, each in the term it belongs to. -/
theorem atomicStep_run (hs : w.atomicStep e = some w') (hkept : w.VoteKept e w') :
    ∃ es, Runs.run World.step w es = some w' ∧ Runs.Always World.step Orderly w es := by
  cases e with
  | election node =>
    refine run_single (e := .election node) hs hkept fun x hx => ?_
    cases hx
    trivial
  | heartbeat node =>
    exact run_single (e := .heartbeat node) hs hkept fun x hx => by cases hx
  | write node request =>
    exact run_single (e := .write node request) hs hkept fun x hx => by cases hx
  | restart node now =>
    refine run_single (e := .restart node now) hs hkept fun x hx => ?_
    cases hx
    trivial
  | task i now =>
    -- a reply touches no server
    have reply : ∀ {node : Str} {work : Work}, w.tasks[i]? = some ⟨node, some work⟩ →
        work.section? = none → w.taskStep i now = some w' →
        ∃ es, Runs.run World.step w es = some w' ∧ Runs.Always World.step Orderly w es :=
      fun hw hnone hs => run_single (e := .task i now) hs trivial
        (task_inTerm hw fun sec hsec => by rw [hnone] at hsec; cases hsec)
    rw [atomicStep, atomicTask] at hs
    split at hs
    · next node request hw =>
      injection hs with hs
      subst hs
      exact run_turns (Work.handle_turns now (w.servers node) request) hw rfl
    · next hw => exact reply hw rfl hs
    · next hw => exact reply hw rfl hs
    · next hw => exact reply hw rfl hs
    · cases hs
  | job i now lost alive =>
    rw [atomicStep] at hs
    split at hs
    · cases hs
    · next node request hjob =>
      split at hs
      · next hrole => exact run_write hjob hrole hs
      · refine run_single (e := .job i now lost alive) ?_ trivial
          (job_inTerm hjob fun _ hno => by cases hno)
        rw [step, hjob]
        exact hs
    · cases hs
    · next node job hno hne hjob =>
      refine run_single (e := .job i now lost alive) ?_ trivial
        (job_inTerm hjob fun request heq => ?_)
      · rw [step, hjob]
        exact hs
      · exact absurd heq (hne request)

theorem Replicates.atomicRun (h : w.Replicates members False a)
    (hids : (memberIds members).Nodup) {es : List ClusterEvent}
    (hrun : Runs.run World.atomicStep w es = some w')
    (hkept : Runs.Always World.atomicStep VoteKept w es) :
    ∃ a', Grows a a' ∧ w'.Replicates members False a' := by
  refine Runs.inv_of_always (I := fun w => ∃ a', Grows a a' ∧ w.Replicates members False a')
    (fun w e w' hw hs hc => ?_) ⟨a, Raft.Moves.grows_refl a, h⟩ hrun hkept
  obtain ⟨a₁, hg, hr⟩ := hw
  obtain ⟨fs, hrun, horder⟩ := atomicStep_run hs hc
  obtain ⟨a', hg', hr'⟩ := hr.run hids hrun horder
  exact ⟨a', Raft.Moves.grows_trans hg hg', hr'⟩

end World

/-! ## What a later leader has -/

/-- The entry a thread replicates, and the acknowledgements it has. -/
def Job.gathered : Job → Option (RaftLogEntry × Nat)
  | .replicate w acks _ | .send w acks _ _ _ | .awaiting w acks _ _ _ _ | .counted w acks =>
    some (w.entry, acks)
  | _ => none

theorem Job.Carries.gathers {members : List ClusterNode} {a : Ledger} {tasks : List Task} {n : Str}
    {job : Job} {entry : RaftLogEntry} {acks : Nat} (h : job.Carries members a tasks n)
    (hg : job.gathered = some (entry, acks)) :
    ∃ w i ackers rest, w.entry = entry ∧ ackers.length = acks ∧
      Gathers members a n w i ackers rest := by
  cases job with
  | replicate w acks' rest | send w acks' rest follower next | counted w acks' =>
    cases hg
    obtain ⟨i, ackers, hlen, hgather⟩ := h
    exact ⟨w, i, ackers, _, rfl, hlen, hgather⟩
  | awaiting w acks' rest follower next task =>
    cases hg
    obtain ⟨i, ackers, hlen, hgather, -⟩ := h
    exact ⟨w, i, ackers, _, rfl, hlen, hgather⟩
  | _ => cases hg

namespace World

variable {members : List ClusterNode} {strict : Prop} {a : Ledger} {w : World} {n : Str}
  {entry : RaftLogEntry}

/-- A thread of the node has a majority of acknowledgements for the entry. -/
def Collects (w : World) (n : Str) (entry : RaftLogEntry) : Prop :=
  ∃ x ∈ w.jobs, x.1 = n ∧ ∃ y ∈ x.2.gathered, y.1 = entry ∧
    (w.servers n).router.majoritySize ≤ y.2

instance (w : World) (n : Str) (entry : RaftLogEntry) : Decidable (w.Collects n entry) :=
  inferInstanceAs (Decidable (∃ x ∈ w.jobs, _))

/-- What a majority has acknowledged is committed in the machine. -/
theorem Replicates.committed (h : w.Replicates members strict a) (hc : w.Collects n entry) :
    ∃ i q, entry.index = (i : Nat) + 1 ∧ (a.tlog entry.term)[i]? = some entry ∧
      a.Committed (QuorumOf members) entry.term i q := by
  obtain ⟨⟨n', job⟩, hmem, rfl, ⟨e, acks⟩, hg, rfl, hmajor⟩ := hc
  obtain ⟨snapshot, i, ackers, rest, rfl, hlen, hgather⟩ := (h.jobs _ hmem).gathers hg
  obtain ⟨k, c, hcopied⟩ := hgather.copied
  rw [Router.majoritySize, (h.tallied.servers n').allNodes, ← hlen] at hmajor
  exact ⟨i, _, hcopied.index h.kept, hcopied.entry, hgather.committed hmajor⟩

/-- A leader of a later term has it behind its snapshot, or in it. -/
theorem Replicates.leader_has (h : w.Replicates members strict a) {term u : Int} {i : Nat}
    {q : Set Str} (hc : a.Committed (QuorumOf members) u i q) (he : (a.tlog u)[i]? = some entry)
    (hlead : w.Leads n term) (hlt : u < term) :
    (w.servers n).entryAt (i + 1) = some entry ∨
      (i : Int) + 1 ≤ (w.servers n).raftLastIncludedIndex := by
  have hb := h.tallied.servers n
  have hrole : a.role n = .leader := by
    rw [hb.role, hlead.1]
    rfl
  have hterm : u < a.term n := by
    rw [hb.term, hlead.2]
    exact hlt
  have hlog := (h.kept.inv.leader_has Ballot.Majority.meet hc hrole hterm).trans he
  have hbase := (h.servers n).base
  rcases Nat.lt_or_ge i (a.snap n).length with hin | hout
  · refine Or.inr ?_
    rw [hbase]
    omega
  · refine Or.inl ?_
    obtain ⟨j, rfl⟩ := Nat.exists_eq_add_of_le hout
    rw [← hlog, ← (h.servers n).getElem? j, ← KVServer.entryAt_offset, hbase]
    congr 1
    push_cast
    omega

end World

open World

/-- Once a majority has acknowledged an entry, every leader of a later term
has it in its log or in its snapshot. -/
theorem leader_completeness (members : List ClusterNode)
    (hids : (members.map ClusterNode.id).Nodup) (store : Str → Store) (threshold : Str → Int)
    (es later : List ClusterEvent)
    (hkept : Runs.Always World.atomicStep VoteKept (start members store threshold) (es ++ later))
    (w w' : World) (hw : Runs.run World.atomicStep (start members store threshold) es = some w)
    (hw' : Runs.run World.atomicStep w later = some w') (n m : Str) (entry : RaftLogEntry)
    (term : Int) (hacks : w.Collects n entry) (hlead : w'.Leads m term)
    (hlt : entry.term < term) :
    (w'.servers m).entryAt entry.index = some entry ∨
      entry.index ≤ (w'.servers m).raftLastIncludedIndex := by
  obtain ⟨a, -, ha⟩ := (replicates_start members store threshold).atomicRun hids hw
    (Runs.always_of_prefix hkept (List.prefix_append es later))
  obtain ⟨i, q, hindex, hentry, hc⟩ := ha.committed hacks
  obtain ⟨a', hg, ha'⟩ := ha.atomicRun hids hw' (Runs.always_append_right hkept hw)
  rw [hindex]
  exact ha'.leader_has (hg.committed hc) (getElem?_mono (hg.tlog _) hentry) hlead hlt

/-! ## Two leaders of one term -/

namespace World

/-- The first entry of a log, of the first term. -/
def firstEntry : RaftLogEntry := ⟨1, 1, .put, bytes ['k'], bytes ['v'], 0⟩

/-- `b` acknowledges a write of `a`. -/
def replicateA : List ClusterEvent :=
  [.write (bytes ['a']) (putRequest 'k' 'v')] ++ jobSteps 3 1 [bytes ['b']] ++ taskSteps 2 1 ++
    jobSteps 1 1 []

def electB : List ClusterEvent :=
  [.election (bytes ['b'])] ++ jobSteps 2 2 [] ++ taskSteps 1 2 ++ jobSteps 2 2 []

/-- `b` acknowledges a write of the first node, although it has voted again
in its term. -/
def replicateDash : List ClusterEvent :=
  [.write dash (putRequest 'k' 'v')] ++ jobSteps 3 2 [bytes ['b']] ++ taskSteps 2 3 ++
    jobSteps 1 2 []

/-- The other leader of the term writes too, starts again and wins the next
term with the vote of `b`. -/
def electAgain : List ClusterEvent :=
  [.write (bytes ['c']) (putRequest 'k' 'x')] ++ jobSteps 1 3 [] ++ [.restart (bytes ['c']) 0] ++
    [.election (bytes ['c'])] ++ jobSteps 2 4 [] ++ [.job 4 0 true []] ++ jobSteps 1 4 [] ++
    taskSteps 1 5 ++ jobSteps 2 4 []

end World

theorem leader_completeness_second_term :
    ∃ w w', Runs.run World.atomicStep threeStart (electA ++ replicateA) = some w ∧
      Runs.run World.atomicStep w electB = some w' ∧ w.Collects (bytes ['a']) firstEntry ∧
      w'.Leads (bytes ['b']) 2 ∧
      ((w'.servers (bytes ['b'])).entryAt 1 = some firstEntry ∨
        1 ≤ (w'.servers (bytes ['b'])).raftLastIncludedIndex) := by
  have hkept : Runs.Always World.atomicStep VoteKept threeStart
      ((electA ++ replicateA) ++ electB) := by decide +kernel
  refine ⟨_, _, rfl, rfl, by decide +kernel, by decide +kernel, ?_⟩
  exact leader_completeness threeMembers (by decide) (fun _ => .memory {}) _ (electA ++ replicateA)
    electB hkept _ _ rfl rfl (bytes ['a']) (bytes ['b']) firstEntry 2 (by decide +kernel)
    (by decide +kernel) (by decide)

theorem forgotten_vote_loses_entry :
    ∃ w w', Runs.run World.atomicStep dashStart
        (electDash ++ [.restart (bytes ['b']) 0] ++ electNext ++ replicateDash) = some w ∧
      Runs.run World.atomicStep w electAgain = some w' ∧ w.Collects dash firstEntry ∧
      w'.Leads (bytes ['c']) 2 ∧ firstEntry.term < 2 ∧
      (w'.servers (bytes ['c'])).entryAt firstEntry.index ≠ some firstEntry ∧
      (w'.servers (bytes ['c'])).raftLastIncludedIndex < firstEntry.index ∧
      (dashMembers.map ClusterNode.id).Nodup := by
  exact ⟨_, _, rfl, rfl, by decide +kernel, by decide +kernel, by decide, by decide +kernel,
    by decide +kernel, by decide⟩

end TinyKV
