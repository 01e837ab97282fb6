import TinyKV.Proofs.NodeRefinement

/-!
# The cluster as the log machine

Every step of the cluster is some steps of the machine, as long as the
sections of a write and of a request from a leader run in the term they
belong to and no install is overtaken by another. `Section.InTerm` names what
has to hold when a section is entered, and it is all that is asked of a run
besides what elections ask for.

The rest is bookkeeping along the way of a message. A request stands for a
message of the machine from the moment it is sent. A thread that replicates a
write has its own copy of the log, which is the log of its term, and counts
acknowledgements the machine has recorded.
-/

namespace TinyKV

open Function Raft Text

/-- The quorums of a cluster are the majorities of its members. -/
abbrev QuorumOf (members : List ClusterNode) : Set Str → Prop :=
  Ballot.Majority (memberIds members)

/-! ## Sections -/

/-- While `c` stands in this term, this is where its log ends. -/
def StandsWith (a : Ledger) (c : Str) (term lastLogIndex lastLogTerm : Int) : Prop :=
  a.role c = .candidate → a.term c = term →
    lastLogIndex = (a.log c).length ∧ lastLogTerm = lastTerm (a.log c)

/-- `v` has accepted the term, and leaves it before it stands again. -/
def Accepted (a : Ledger) (v : Str) (term : Int) : Prop :=
  term ≤ a.term v ∧ (a.term v = term → a.role v = .follower)

namespace Section

/-- The section runs in the term it belongs to, and the end of an install finds
the node behind the snapshot it brings. -/
def InTerm (strict : Prop) (s : KVServer) : Section → Prop
  | .appendWrite _ => s.router.role = .leader
  | .append request => s.router.currentTerm = request.term
  | .installSet request =>
    s.router.currentTerm = request.term ∧ s.raftLastIncludedIndex < request.lastLogIndex
  | .commitWrite entry =>
    strict → s.router.role = .leader ∧ s.router.currentTerm = entry.term
  | _ => True

instance (strict : Prop) [Decidable strict] (s : KVServer) :
    (sec : Section) → Decidable (sec.InTerm strict s)
  | .appendWrite _ => inferInstanceAs (Decidable (_ = _))
  | .append _ => inferInstanceAs (Decidable (_ = _))
  | .installSet _ => inferInstanceAs (Decidable (_ ∧ _))
  | .commitWrite _ => inferInstanceAs (Decidable (_ → _))
  | .beginElection | .winElection _ | .stepDown _ | .beginHeartbeats | .requestVote _ _ _ _
  | .appendEntries _ _ | .writeLocal _ | .encodeSnapshot _ | .installPayload _ | .restart =>
    inferInstanceAs (Decidable True)

/-- What is known of the messages and of the copies a section works with. -/
def Licensed (members : List ClusterNode) (a : Ledger) (n : Str) : Section → Prop
  | .requestVote term candidateId lastLogIndex lastLogTerm =>
    StandsWith a candidateId term lastLogIndex lastLogTerm
  | .encodeSnapshot term => a.Led n term
  | .commitWrite entry =>
    a.Led n entry.term ∧ ∃ i q, entry.index = (i : Nat) + 1 ∧
      a.Committed (QuorumOf members) entry.term i q
  | .append request =>
    request.Vouched a ∧ Accepted a n request.term ∧ ∃ m, m ≠ n ∧ a.Led m request.term
  | .installSet request =>
    (∃ content, request.Vouched a content) ∧ Accepted a n request.term ∧
      ∃ m, m ≠ n ∧ a.Led m request.term
  | _ => True

/-- What a section leaves behind in the machine. -/
def Leaves (a : Ledger) (n : Str) (now : Int) (s : KVServer) : Section → Prop
  | .appendEntries term _ => s.router.currentTerm ≤ term → Accepted a n term
  | .appendWrite request =>
    ∃ i k c, (s.appendWrite request).2.Copied a n i k c ∧
      (n, (s.appendWrite request).2.entry.term, i) ∈ a.acks
  | .encodeSnapshot term => ∃ content, (s.encodeRaftSnapshot now term).2.Vouched a content
  | .commitWrite entry => ((s.commitWrite now entry).commitMessage entry).Vouched a
  | .append request =>
    (s.appendLocked now request).2.1 = true → 0 < request.entryCount →
      (n, request.term, request.lastPosition) ∈ a.acks
  | _ => True

end Section

section Sections

variable {members : List ClusterNode} {strict : Prop} {a : Ledger} {n : Str} {s t : KVServer}

/-- The node follows the leader of the request's term. -/
theorem follows_of_accepted {Quorum : Set Str → Prop} (hk : Kept Quorum strict Placed a)
    (hb : s.router.Backed members a.toState n) {term : Int} (hacc : Accepted a n term)
    (hled : ∃ m, m ≠ n ∧ a.Led m term) (hterm : s.router.currentTerm = term) :
    a.Follows n term := by
  have hat : a.term n = term := hb.term.trans hterm
  obtain ⟨m, hne, hm⟩ := hled
  exact ⟨hat, hacc.2 hat, fun hn => hne (hk.inv.ballot.led_unique hm hn)⟩

theorem StandsWith.mono {Quorum : Set Str → Prop} {P : Nat → RaftLogEntry → Prop} {a' : Ledger}
    {m c : Str} {term lastLogIndex lastLogTerm : Int}
    (h : StandsWith a c term lastLogIndex lastLogTerm) (hle : term ≤ a.term c)
    (hm : Moves Quorum strict P m a a') : StandsWith a' c term lastLogIndex lastLogTerm := by
  intro hrole hterm
  rcases hm.stands hrole with ⟨hr, ht, hl⟩ | hlt
  · rw [hl]
    exact h hr (ht.symm.trans hterm)
  · omega

/-- Votes and elections leave the logs alone. -/
theorem KVServer.Mirrors.ballot {m : Str} (hm : s.Mirrors (QuorumOf members) strict a n)
    {b : Ballot.State Str Int (List RaftLogEntry × Nat) (List RaftLogEntry)}
    (hmv : Moves (QuorumOf members) strict Placed m a { a with toState := b }) :
    s.Mirrors (QuorumOf members) strict { a with toState := b } n :=
  hm.stay hmv.grows rfl rfl (Nat.le_refl _)

section Ballots

variable (hk : Kept (QuorumOf members) strict Placed a)
  (hb : s.router.Backed members a.toState n) (hm : s.Mirrors (QuorumOf members) strict a n)
include hk hb hm

/-- A node votes for a candidate whose log is at least as good as its own. -/
theorem move_castVote {candidateId : Str} {lastLogIndex lastLogTerm : Int}
    (hc : IsWord candidateId) (hterm : s.router.currentTerm ≤ a.term candidateId)
    (hstands : StandsWith a candidateId s.router.currentTerm lastLogIndex lastLogTerm) :
    ∃ a', Moves (QuorumOf members) strict Placed n a a' ∧
      (s.router.castVote candidateId lastLogIndex lastLogTerm).1.Backed members a'.toState n ∧
      ({ s with router := (s.router.castVote candidateId lastLogIndex lastLogTerm).1 } :
        KVServer).Mirrors (QuorumOf members) strict a' n ∧
      ((s.router.castVote candidateId lastLogIndex lastLogTerm).2.granted = true →
        a'.Voted n s.router.currentTerm candidateId) := by
  rcases s.router.castVote_cases candidateId lastLogIndex lastLogTerm with
    ⟨hfree, hup, heq⟩ | heq
  · rw [heq]
    have hlog : a.role candidateId = .candidate → a.term candidateId = a.term n →
        AtLeast (a.log n) (a.log candidateId) := by
      intro hrole hat
      obtain ⟨hindex, hlast⟩ := hstands hrole (hat.trans hb.term)
      refine atLeast_of_upToDate hk (hk.inv.holds n).log_valid ?_
      rw [Router.logIsUpToDate] at hup
      simp only [Bool.or_eq_true, Bool.and_eq_true, decide_eq_true_eq, hm.copies.index,
        hm.copies.term, hm.lastLogIndex hk, hm.lastLogTerm hk, hindex, hlast, Int.ofNat_le] at hup
      exact hup
    have hmoves := Moves.vote Ballot.Majority.meet hk (fun c => hb.free hfree)
      (hb.term ▸ hterm) hlog
    refine ⟨_, hmoves, hb.grant hc hfree _, (hm.ballot hmoves).congr rfl, fun _ => ?_⟩
    exact (Ballot.voted_addVote _ _ _ _).mpr (Or.inl ⟨rfl, hb.term, rfl⟩)
  · rw [heq]
    exact ⟨a, .refl n hk, hb, hm, fun hg => by cases hg⟩

theorem move_newTerm {term : Int} (ht : s.router.currentTerm < term) :
    ∃ a', Moves (QuorumOf members) strict Placed n a a' ∧
      (∀ m u, a'.Led m u → a.Led m u) ∧
      (s.router.newTerm term).Backed members a'.toState n ∧
      ({ s with router := s.router.newTerm term } : KVServer).Mirrors (QuorumOf members) strict
        a' n := by
  have hbump := Moves.bump Ballot.Majority.meet hk (u := term) (hb.term ▸ ht)
  exact ⟨_, hbump, fun _ _ hled => hled, hb.newTerm hk.inv.ballot ht,
    (hm.ballot hbump).congr rfl⟩

theorem move_requestVote {term : Int} {candidateId : Str} {lastLogIndex lastLogTerm : Int}
    (hc : IsWord candidateId) (hterm : term ≤ a.term candidateId)
    (hstands : StandsWith a candidateId term lastLogIndex lastLogTerm) :
    ∃ a', Moves (QuorumOf members) strict Placed n a a' ∧
      (s.router.handleRequestVote term candidateId lastLogIndex lastLogTerm).1.Backed members
        a'.toState n ∧
      ({ s with
        router := (s.router.handleRequestVote term candidateId lastLogIndex lastLogTerm).1 } :
          KVServer).Mirrors (QuorumOf members) strict a' n ∧
      ((s.router.handleRequestVote term candidateId lastLogIndex lastLogTerm).2.granted = true →
        a'.Voted n term candidateId) := by
  rw [Router.handleRequestVote]
  split
  · exact ⟨a, .refl n hk, hb, hm, fun hg => by cases hg⟩
  · split
    · next hlt =>
      obtain ⟨a₁, hm₁, hled, hb₁, hmir⟩ := move_newTerm hk hb hm hlt
      obtain ⟨a', hm', hb', hmir', hg⟩ := move_castVote hm₁.kept hb₁ hmir hc
        (hterm.trans (hm₁.grows.term candidateId)) (hstands.mono hterm hm₁)
      exact ⟨a', hm₁.trans hled hm', hb', hmir', hg⟩
    · next hge hle =>
      have heq : term = s.router.currentTerm := by omega
      subst heq
      exact move_castVote hk hb hm hc hterm hstands

theorem move_acceptTerm {term : Int} (leaderId : Str) (hle : s.router.currentTerm ≤ term) :
    ∃ a', Moves (QuorumOf members) strict Placed n a a' ∧
      (s.router.acceptTerm term leaderId).Backed members a'.toState n ∧
      ({ s with router := s.router.acceptTerm term leaderId } : KVServer).Mirrors
        (QuorumOf members) strict a' n ∧
      Accepted a' n term := by
  rw [Router.acceptTerm]
  split
  · next hlt =>
    have hbump := Moves.bump Ballot.Majority.meet hk (u := term) (hb.term ▸ hlt)
    refine ⟨_, hbump, ?_, (hm.ballot hbump).congr rfl, ?_, fun _ => update_self _ _ _⟩
    · exact { hb.newTerm hk.inv.ballot hlt with own := fun hr => absurd rfl hr }
    · show term ≤ update a.term n term n
      rw [update_self]
  · next hge =>
    have hretire := Moves.retire Ballot.Majority.meet hk n
    refine ⟨_, hretire, hb.retire leaderId, (hm.ballot hretire).congr rfl, ?_,
      fun _ => update_self _ _ _⟩
    show term ≤ a.term n
    rw [hb.term]
    omega

theorem move_winElection {term : Int}
    (hready : ∃ voters, Ballot.Majority (memberIds members) voters ∧
      ∀ v ∈ voters, a.Voted v term n) :
    ∃ a', Moves (QuorumOf members) strict Placed n a a' ∧
      (s.router.winElection term).Backed members a'.toState n ∧
      ({ s with router := s.router.winElection term } : KVServer).Mirrors (QuorumOf members) strict
        a' n := by
  rw [Router.winElection]
  split
  · next hwin =>
    obtain ⟨voters, hq, hvotes⟩ := hready
    rw [← hwin.2, ← hb.term] at hvotes
    have hrole : a.role n = .candidate := by
      rw [hb.role, hwin.1]
      rfl
    have helect := Moves.elect Ballot.Majority.meet hk hrole hq hvotes
    have hs := hm.stay helect.grows rfl rfl (Nat.le_refl _)
    exact ⟨_, helect, hb.lead hwin.1 voters (a.log n), hs.congr rfl⟩
  · exact ⟨a, .refl n hk, hb, hm⟩

end Ballots

/-- Every section is some steps of the machine. -/
theorem Section.move {sec : Section} {now : Int}
    (hk : Kept (QuorumOf members) strict Placed a)
    (hb : s.router.Backed members a.toState n) (hnonneg : 0 ≤ a.term n)
    (hm : s.Mirrors (QuorumOf members) strict a n)
    (hready : sec.Ready members a.toState n s) (hlic : sec.Licensed members a n)
    (hin : sec.InTerm strict s) (hrun : sec.run now s = some t) :
    ∃ a', Moves (QuorumOf members) strict Placed n a a' ∧
      t.router.Backed members a'.toState n ∧ t.Mirrors (QuorumOf members) strict a' n ∧
      sec.Recorded a'.toState n s ∧ sec.Leaves a' n now s := by
  -- a section of the log leaves the router's part of Raft alone
  have local' : sec.ofRouter = false → ∀ {a' : Ledger}, a'.toState = a.toState →
      t.router.Backed members a'.toState n := fun hof a' heq =>
    heq ▸ hb.congr (Section.run_core hrun hof)
  cases sec with
  | beginElection =>
    injection hrun with hrun
    subst hrun
    have hstand := Moves.stand Ballot.Majority.meet hk (n := n) (u := s.router.currentTerm + 1)
      (by rw [hb.term]; omega)
    refine ⟨_, hstand, hb.beginElection hk.inv.ballot hready _,
      (hm.ballot hstand).congr rfl, ?_, trivial⟩
    exact (Ballot.voted_addVote _ _ _ _).mpr (Or.inl ⟨rfl, rfl, rfl⟩)
  | winElection term =>
    injection hrun with hrun
    subst hrun
    obtain ⟨a', hmv, hb', hmir⟩ := move_winElection hk hb hm hready
    exact ⟨a', hmv, hb', hmir, trivial, trivial⟩
  | stepDown responseTerm =>
    injection hrun with hrun
    subst hrun
    show ∃ a', _ ∧ (s.router.stepDown responseTerm).Backed members a'.toState n ∧
      ({ s with router := s.router.stepDown responseTerm } : KVServer).Mirrors
        (QuorumOf members) strict a' n ∧ _
    rw [Router.stepDown]
    split
    · next hlt =>
      obtain ⟨a', hmv, -, hb', hmir⟩ := move_newTerm hk hb hm hlt
      exact ⟨a', hmv, hb', hmir, trivial, trivial⟩
    · exact ⟨a, .refl n hk, hb, hm, trivial, trivial⟩
  | beginHeartbeats =>
    injection hrun with hrun
    subst hrun
    show ∃ a', _ ∧ (s.router.beginHeartbeats.getD s.router).Backed members a'.toState n ∧
      ({ s with router := s.router.beginHeartbeats.getD s.router } : KVServer).Mirrors
        (QuorumOf members) strict a' n ∧ _
    rw [Router.beginHeartbeats]
    split
    · exact ⟨a, .refl n hk, { hb with }, hm.congr rfl, trivial, trivial⟩
    · exact ⟨a, .refl n hk, hb, hm, trivial, trivial⟩
  | requestVote term candidateId lastLogIndex lastLogTerm =>
    injection hrun with hrun
    subst hrun
    obtain ⟨a', hmv, hb', hmir, hg⟩ := move_requestVote hk hb hm hready.1 hready.2 hlic
    exact ⟨a', hmv, hb', hmir, hg, trivial⟩
  | appendEntries term leaderId =>
    injection hrun with hrun
    subst hrun
    show ∃ a', _ ∧ (s.router.handleAppendEntries term leaderId).1.Backed members a'.toState n ∧
      ({ s with router := (s.router.handleAppendEntries term leaderId).1 } :
        KVServer).Mirrors (QuorumOf members) strict a' n ∧ True ∧ (_ → _)
    rw [Router.handleAppendEntries]
    split
    · next hlt => exact ⟨a, .refl n hk, hb, hm, trivial, fun hle => absurd hlt (not_lt.mpr hle)⟩
    · next hge =>
      obtain ⟨a', hmv, hb', hmir, hacc⟩ := move_acceptTerm hk hb hm leaderId (not_lt.mp hge)
      exact ⟨a', hmv, hb', hmir, trivial, fun _ => hacc⟩
  | writeLocal request =>
    injection hrun with hrun
    subst hrun
    refine ⟨a, .refl n hk, local' rfl rfl, hm.congr ?_, trivial, trivial⟩
    rw [KVServer.writeLocal]
    split
    · split <;> rfl
    · rfl
    · rfl
    · rfl
  | appendWrite request =>
    injection hrun with hrun
    subst hrun
    have hrole : a.role n = .leader := by
      rw [hb.role, show s.router.role = .leader from hin]
      rfl
    obtain ⟨a', hmv, heq, hmir, hcopied⟩ := hm.appendWrite Ballot.Majority.meet hk hrole hb.term
      (hb.term ▸ hnonneg)
    exact ⟨a', hmv, local' rfl heq, hmir, trivial, hcopied⟩
  | encodeSnapshot term =>
    injection hrun with hrun
    subst hrun
    obtain ⟨a', hmv, heq, hmir, hv⟩ := hm.encodeRaftSnapshot Ballot.Majority.meet hk hlic now
    exact ⟨a', hmv, local' rfl heq, hmir, trivial, _, hv⟩
  | commitWrite entry =>
    injection hrun with hrun
    subst hrun
    obtain ⟨hled, i, q, hindex, hq⟩ := hlic
    have hstrict : strict → a.role n = .leader ∧ a.term n = entry.term := by
      intro hs
      obtain ⟨hrole, hterm⟩ := hin hs
      refine ⟨?_, hb.term.trans hterm⟩
      rw [hb.role, hrole]
      rfl
    obtain ⟨a', hmv, heq, hmir, content, c, hann⟩ :=
      hm.commitWrite Ballot.Majority.meet hk hled hq hindex hstrict now
    exact ⟨a', hmv, local' rfl heq, hmir, trivial, .announces content c hann⟩
  | append request =>
    injection hrun with hrun
    subst hrun
    obtain ⟨hv, hacc, hled⟩ := hlic
    obtain ⟨a', hmv, heq, hmir, hack⟩ := hm.appendLocked Ballot.Majority.meet hk hv
      (follows_of_accepted hk hb hacc hled hin) now
    exact ⟨a', hmv, local' rfl heq, hmir, trivial, hack⟩
  | installPayload payload =>
    injection hrun with hrun
    subst hrun
    refine ⟨a, .refl n hk, local' rfl rfl, hm.congr ?_, trivial, trivial⟩
    cases payload with
    | none => rfl
    | some entries => rfl
  | installSet request =>
    injection hrun with hrun
    subst hrun
    obtain ⟨⟨content, hv⟩, hacc, hled⟩ := hlic
    obtain ⟨a', hmv, heq, hmir⟩ := hm.installSet Ballot.Majority.meet hk hv
      (follows_of_accepted hk hb hacc hled hin.1) hin.2
    exact ⟨a', hmv, local' rfl heq, hmir, trivial, trivial⟩
  | restart =>
    obtain ⟨a', hmv, heq, hmir⟩ := hm.restart Ballot.Majority.meet hk hrun
    refine ⟨a', hmv, ?_, hmir, trivial, trivial⟩
    rw [heq]
    obtain ⟨hrange, hrestart⟩ := KVServer.startAgain_eq now hrun
    exact (hb.restart hrange.1 hready).congr (KVServer.restart_core hrestart)

end Sections

/-! ## Requests on their way -/

/-- The request is one of a leader of its term, on the way to another node. -/
def AppendRequest.Sent (a : Ledger) (v : Str) (request : AppendRequest) : Prop :=
  request.Vouched a ∧ ∃ m, m ≠ v ∧ a.Led m request.term

def InstallRequest.Sent (a : Ledger) (v : Str) (request : InstallRequest) : Prop :=
  (∃ content, request.Vouched a content) ∧ ∃ m, m ≠ v ∧ a.Led m request.term

def Task.Carries (a : Ledger) (task : Task) : Prop :=
  match task.work with
  | some (.arrived (.requestVote term candidateId lastLogIndex lastLogTerm)) =>
    term ≤ a.term candidateId ∧ StandsWith a candidateId term lastLogIndex lastLogTerm
  | some (.arrived (.append request)) => request.Sent a task.node
  | some (.appendChecked request) => request.Sent a task.node ∧ Accepted a task.node request.term
  | some (.arrived (.install request)) => request.Sent a task.node
  | some (.installChecked request) | some (.installAdmitted request)
  | some (.installInstalled request) =>
    request.Sent a task.node ∧ Accepted a task.node request.term
  | _ => True

section Tasks

variable {members : List ClusterNode} {strict : Prop} {Quorum : Set Str → Prop} {a a' : Ledger}
  {m v : Str} (hk : Kept Quorum strict Placed a) (hm : Moves Quorum strict Placed m a a')

section Mono

include hm

theorem Accepted.mono {term : Int} (h : Accepted a v term) : Accepted a' v term := by
  have hle := hm.grows.term v
  have hold := h.1
  refine ⟨hold.trans hle, fun heq => ?_⟩
  have hterm : a.term v = term := by omega
  exact hm.follows (h.2 hterm) (heq.trans hterm.symm)

theorem InstallRequest.Sent.mono {request : InstallRequest} (h : request.Sent a v) :
    request.Sent a' v := by
  obtain ⟨⟨content, hv⟩, l, hne, hled⟩ := h
  exact ⟨⟨content, { hv with msg := hm.grows.msgs hv.msg }⟩, l, hne, hm.ballot.led hled⟩

include hk

theorem AppendRequest.Sent.mono {request : AppendRequest} (h : request.Sent a v) :
    request.Sent a' v := by
  obtain ⟨hv, l, hne, hled⟩ := h
  exact ⟨hv.mono hk hm, l, hne, hm.ballot.led hled⟩

theorem Task.Carries.mono {task : Task} (h : task.Carries a) : task.Carries a' := by
  obtain ⟨node, work⟩ := task
  revert h
  unfold Task.Carries
  split
  · rintro ⟨hle, hs⟩
    exact ⟨hle.trans (hm.grows.term _), hs.mono hle hm⟩
  · exact fun hs => hs.mono hk hm
  · exact fun ⟨hs, hacc⟩ => ⟨hs.mono hk hm, hacc.mono hm⟩
  · exact fun hs => hs.mono hm
  · exact fun ⟨hs, hacc⟩ => ⟨hs.mono hm, hacc.mono hm⟩
  · exact fun ⟨hs, hacc⟩ => ⟨hs.mono hm, hacc.mono hm⟩
  · exact fun ⟨hs, hacc⟩ => ⟨hs.mono hm, hacc.mono hm⟩
  · exact id

end Mono

theorem Task.Carries.licensed {node : Str} {work : Work} {sec : Section}
    (h : Task.Carries a ⟨node, some work⟩) (hsec : work.section? = some sec) :
    sec.Licensed members a node := by
  cases work with
  | arrived request =>
    cases request with
    | requestVote term candidateId lastLogIndex lastLogTerm =>
      cases hsec
      exact h.2
    | _ =>
      cases hsec
      trivial
  | appendChecked request =>
    cases hsec
    exact ⟨h.1.1, h.2, h.1.2⟩
  | installAdmitted request =>
    cases hsec
    trivial
  | installInstalled request =>
    cases hsec
    exact ⟨h.1.1, h.2, h.1.2⟩
  | _ => cases hsec

/-- The term of a request that is not refused is not behind. -/
theorem KVServer.checkTerm_le {s t : KVServer} {term : Int} {leaderId : Str}
    (h : s.checkTerm term leaderId = (t, true)) : s.router.currentTerm ≤ term := by
  by_contra hlt
  rw [checkTerm_stale (by omega)] at h
  cases h

include hk hm in
/-- A request that moves on is still what it was. -/
theorem Task.Carries.turn {node : Str} {work work' : Work} {now : Int} {s t : KVServer}
    (h : Task.Carries a ⟨node, some work⟩) (hstep : work.step now s = some (t, work'))
    (hleaves : ∀ sec, work.section? = some sec → sec.Leaves a' node now s) :
    Task.Carries a' ⟨node, some work'⟩ := by
  cases work with
  | arrived request =>
    cases request with
    | requestVote term candidateId lastLogIndex lastLogTerm =>
      cases hstep
      trivial
    | heartbeat term leaderId =>
      cases hstep
      trivial
    | append request =>
      rw [Work.step, Work.receive] at hstep
      split at hstep
      · next hcheck =>
        cases hstep
        exact ⟨AppendRequest.Sent.mono hk hm h,
          hleaves _ rfl (KVServer.checkTerm_le hcheck)⟩
      · cases hstep
        trivial
    | install request =>
      rw [Work.step, Work.receive] at hstep
      split at hstep
      · next hcheck =>
        cases hstep
        exact ⟨InstallRequest.Sent.mono hm h,
          hleaves _ rfl (KVServer.checkTerm_le hcheck)⟩
      · cases hstep
        trivial
  | installChecked request =>
    rw [Work.step] at hstep
    split at hstep
    · cases hstep
      trivial
    · cases hstep
      exact ⟨h.1.mono hm, h.2.mono hm⟩
  | installAdmitted request =>
    rw [Work.step] at hstep
    split at hstep
    · cases hstep
      exact ⟨h.1.mono hm, h.2.mono hm⟩
    · cases hstep
      trivial
  | answered reply => cases hstep
  | _ =>
    cases hstep
    trivial

theorem Task.Carries.outlive {task : Task} (h : task.Carries a) (node : Str) :
    (World.Task.outlive node task).Carries a := by
  rw [World.Task.outlive]
  split
  · exact h
  · exact h
  · exact h
  · split
    · trivial
    · exact h

end Tasks

/-! ## Writes -/

/-- A thread of `n` replicates the entry at position `i`. The nodes of
`ackers` have acknowledged it, those of `rest` have not been asked yet. -/
structure Gathers (members : List ClusterNode) (a : Ledger) (n : Str) (w : WriteSnapshot) (i : Nat)
    (ackers rest : List Str) : Prop where
  copied : ∃ k c, w.Copied a n i k c
  own : n ∈ ackers
  acked : ∀ v ∈ ackers, (v, w.entry.term, i) ∈ a.acks
  nodup : (ackers ++ rest).Nodup
  member : ackers ++ rest ⊆ memberIds members

/-- How far `v` has come with the batch that ends at position `i`. -/
def Awaits (a : Ledger) (w : WriteSnapshot) (i : Nat) (v : Str) : Option Task → Prop
  | none => False
  | some ⟨node, some (.arrived (.append request))⟩ =>
    node = v ∧ request.term = w.entry.term ∧ 0 < request.entryCount ∧ request.lastPosition = i
  | some ⟨node, some (.appendChecked request)⟩ =>
    node = v ∧ request.term = w.entry.term ∧ 0 < request.entryCount ∧ request.lastPosition = i
  | some ⟨_, some (.appendDone success _)⟩ => success = true → (v, w.entry.term, i) ∈ a.acks
  | some ⟨_, some (.answered (.append reply))⟩ =>
    reply.success = true → (v, w.entry.term, i) ∈ a.acks
  | some _ => True

def Job.Carries (members : List ClusterNode) (a : Ledger) (tasks : List Task) (n : Str) :
    Job → Prop
  | .canvass term lastLogIndex lastLogTerm _ _ | .polling term lastLogIndex lastLogTerm _ _ _ =>
    term ≤ a.term n ∧ StandsWith a n term lastLogIndex lastLogTerm
  | .routed _ | .accepted _ => n ∈ memberIds members
  | .replicate w acks rest =>
    ∃ i ackers, ackers.length = acks ∧
      Gathers members a n w i ackers (rest.map ClusterNode.id)
  | .send w acks rest follower _ =>
    ∃ i ackers, ackers.length = acks ∧
      Gathers members a n w i ackers (follower.id :: rest.map ClusterNode.id)
  | .awaiting w acks rest follower _ task =>
    ∃ i ackers, ackers.length = acks ∧
      Gathers members a n w i ackers (follower.id :: rest.map ClusterNode.id) ∧
      Awaits a w i follower.id tasks[task]?
  | .counted w acks =>
    ∃ i ackers, ackers.length = acks ∧ Gathers members a n w i ackers []
  | .announce message rest =>
    message.Vouched a ∧ a.Led n message.term ∧ ∀ contact ∈ rest, contact.id ≠ n
  | _ => True

namespace Gathers

variable {members : List ClusterNode} {a a' : Ledger} {n v : Str} {w : WriteSnapshot} {i : Nat}
  {ackers rest : List Str}

theorem mono {Quorum : Set Str → Prop} {strict : Prop} {m : Str}
    (h : Gathers members a n w i ackers rest) (hk : Kept Quorum strict Placed a)
    (hm : Moves Quorum strict Placed m a a') : Gathers members a' n w i ackers rest := by
  obtain ⟨k, c, hcopied⟩ := h.copied
  exact { h with
    copied := ⟨k, c, hcopied.mono hk hm⟩
    acked := fun v hv => hm.grows.acks (h.acked v hv) }

theorem led (h : Gathers members a n w i ackers rest) : a.Led n w.entry.term := by
  obtain ⟨k, c, hcopied⟩ := h.copied
  exact hcopied.led

theorem not_asked (h : Gathers members a n w i ackers (v :: rest)) : n ≠ v :=
  (List.nodup_append.mp h.nodup).2.2 n h.own v (List.mem_cons_self ..)

theorem count (h : Gathers members a n w i ackers (v :: rest))
    (hv : (v, w.entry.term, i) ∈ a.acks) : Gathers members a n w i (v :: ackers) rest where
  copied := h.copied
  own := List.mem_cons_of_mem _ h.own
  acked u hmem := by
    rcases List.mem_cons.mp hmem with rfl | hmem
    · exact hv
    · exact h.acked u hmem
  nodup := List.perm_middle.nodup_iff.mp h.nodup
  member := fun u hmem => h.member (List.perm_middle.mem_iff.mpr hmem)

theorem skip (h : Gathers members a n w i ackers (v :: rest)) :
    Gathers members a n w i ackers rest :=
  have hsub : (ackers ++ rest).Sublist (ackers ++ v :: rest) :=
    (List.sublist_cons_self v rest).append_left ackers
  { h with
    nodup := h.nodup.sublist hsub
    member := List.Subset.trans hsub.subset h.member }

theorem committed (h : Gathers members a n w i ackers rest)
    (hlen : members.length / 2 + 1 ≤ ackers.length) :
    a.Committed (QuorumOf members) w.entry.term i {v | v ∈ ackers} := by
  refine ⟨⟨ackers, ?_, ?_, fun v hv => hv, ?_⟩, h.acked⟩
  · exact (List.nodup_append.mp h.nodup).1
  · exact List.Subset.trans (List.subset_append_left ackers rest) h.member
  · rw [memberIds, List.length_map]
    exact hlen

end Gathers

/-- The next step of a thread that works on a write, and what it sends. -/
inductive Job.Advances (w : World) (node : Str) (now : Int) : Job → Job → List Task → Prop
  | accept (request : WriteRequest) : Advances w node now (.routed request) (.accepted request) []
  | fall (request : WriteRequest) :
      Advances w node now (.routed request) (.fallenThrough request) []
  | leave (request : WriteRequest) : Advances w node now (.fallenThrough request) .done []
  | write (request : WriteRequest) (alive : List Str) :
      Advances w node now (.accepted request)
        (.replicate ((w.servers node).appendWrite request).2 1
          ((w.servers node).router.raftFollowers alive)) []
  | through (snapshot : WriteSnapshot) (acks : Nat) :
      Advances w node now (.replicate snapshot acks []) (.counted snapshot acks) []
  | next (snapshot : WriteSnapshot) (acks : Nat) (follower : ClusterNode)
      (rest : List ClusterNode) :
      Advances w node now (.replicate snapshot acks (follower :: rest))
        (.send snapshot acks rest follower snapshot.entry.index) []
  | install (snapshot : WriteSnapshot) (acks : Nat) (rest : List ClusterNode)
      (follower : ClusterNode) (next : Int)
      (h : (Job.send snapshot acks rest follower next).section? (w.servers node) =
        some (.encodeSnapshot snapshot.entry.term)) :
      Advances w node now (.send snapshot acks rest follower next)
        (.awaiting snapshot acks rest follower next w.tasks.length)
        [⟨follower.id, some (.arrived (.install
          ((w.servers node).encodeRaftSnapshot now snapshot.entry.term).2))⟩]
  | batch (snapshot : WriteSnapshot) (acks : Nat) (rest : List ClusterNode)
      (follower : ClusterNode) (next : Int) (request : AppendRequest)
      (hlt : snapshot.snapshotIndex < next) (hle : next ≤ snapshot.entry.index)
      (h : snapshot.batch (w.servers node) next = some request) :
      Advances w node now (.send snapshot acks rest follower next)
        (.awaiting snapshot acks rest follower next w.tasks.length)
        [⟨follower.id, some (.arrived (.append request))⟩]
  | drop (snapshot : WriteSnapshot) (acks : Nat) (rest : List ClusterNode)
      (follower : ClusterNode) (next : Int) :
      Advances w node now (.send snapshot acks rest follower next)
        (.replicate snapshot acks rest) []
  | again (snapshot : WriteSnapshot) (acks : Nat) (rest : List ClusterNode)
      (follower : ClusterNode) (next next' : Int) (task : Nat) :
      Advances w node now (.awaiting snapshot acks rest follower next task)
        (.send snapshot acks rest follower next') []
  | replicated (snapshot : WriteSnapshot) (acks : Nat) (rest : List ClusterNode)
      (follower : ClusterNode) (next : Int) (task : Nat) (lost : Bool) (reply : Option RaftReply)
      (ha : w.answer lost task = some reply) (h : snapshot.onReply next reply = .replicated) :
      Advances w node now (.awaiting snapshot acks rest follower next task)
        (.replicate snapshot (acks + 1) rest) []
  | failed (snapshot : WriteSnapshot) (acks : Nat) (rest : List ClusterNode)
      (follower : ClusterNode) (next : Int) (task : Nat) :
      Advances w node now (.awaiting snapshot acks rest follower next task)
        (.replicate snapshot acks rest) []
  | reject (snapshot : WriteSnapshot) (acks : Nat) :
      Advances w node now (.counted snapshot acks) (.replied .raftNoQuorum) []
  | commit (snapshot : WriteSnapshot) (acks : Nat) (alive : List Str)
      (h : (w.servers node).router.majoritySize ≤ acks) :
      Advances w node now (.counted snapshot acks)
        (.announce
          (((w.servers node).commitWrite now snapshot.entry).commitMessage snapshot.entry)
          (((w.servers node).commitWrite now snapshot.entry).router.raftFollowers alive)) []
  | announce (message : AppendRequest) (follower : ClusterNode) (rest : List ClusterNode) :
      Advances w node now (.announce message (follower :: rest)) (.announce message rest)
        [⟨follower.id, some (.arrived (.append message))⟩]
  | answer (message : AppendRequest) :
      Advances w node now (.announce message []) (.replied .ok) []

namespace World

variable {w w' : World}

theorem jobStep_advances {i : Nat} {node : Str} {now : Int} {lost : Bool} {alive : List Str}
    {job : Job} (hw : job.Writes) (h : w.jobStep i node now lost alive job = some w') :
    ∃ job' sent, job.Advances w node now job' sent ∧ w'.tasks = w.tasks ++ sent ∧
      w'.jobs = w.jobs.set i (node, job') := by
  have sends : ∀ {u : World} {job' : Job} {sent : List Task}, some u = some w' →
      u.tasks = w.tasks ++ sent → u.jobs = w.jobs.set i (node, job') →
      job.Advances w node now job' sent → ∃ job' sent, job.Advances w node now job' sent ∧
        w'.tasks = w.tasks ++ sent ∧ w'.jobs = w.jobs.set i (node, job') :=
    fun heq ht hj hg => Option.some.inj heq ▸ ⟨_, _, hg, ht, hj⟩
  have quiet : ∀ {u : World} {job' : Job}, some u = some w' → u.tasks = w.tasks →
      u.jobs = w.jobs.set i (node, job') → job.Advances w node now job' [] →
      ∃ job' sent, job.Advances w node now job' sent ∧ w'.tasks = w.tasks ++ sent ∧
        w'.jobs = w.jobs.set i (node, job') :=
    fun heq ht hj hg => sends heq (ht.trans (List.append_nil _).symm) hj hg
  cases job with
  | routed request =>
    rw [jobStep] at h
    split at h
    · exact quiet h rfl rfl (.accept request)
    · exact quiet h rfl rfl (.fall request)
  | fallenThrough request => exact quiet h rfl rfl (.leave request)
  | accepted request => exact quiet h rfl rfl (.write request alive)
  | replicate snapshot acks rest =>
    cases rest with
    | nil => exact quiet h rfl rfl (.through snapshot acks)
    | cons follower rest => exact quiet h rfl rfl (.next snapshot acks follower rest)
  | send snapshot acks rest follower next =>
    rw [jobStep] at h
    split at h
    · next hloop =>
      split at h
      · next hsnap =>
        refine sends h rfl rfl (.install snapshot acks rest follower next ?_)
        rw [Job.section?, if_pos ⟨hloop, hsnap⟩]
      · next hsnap =>
        split at h
        · exact quiet h rfl rfl (.drop snapshot acks rest follower next)
        · next request hbatch =>
          exact sends h rfl rfl
            (.batch snapshot acks rest follower next request (by omega) hloop.1 hbatch)
    · exact quiet h rfl rfl (.drop snapshot acks rest follower next)
  | awaiting snapshot acks rest follower next task =>
    obtain ⟨reply, ha, h⟩ := Option.map_eq_some_iff.mp h
    split at h
    · next next' _ =>
      exact quiet (congrArg some h) rfl rfl
        (.again snapshot acks rest follower next next' task)
    · next hrep =>
      exact quiet (congrArg some h) rfl rfl
        (.replicated snapshot acks rest follower next task lost reply ha hrep)
    · exact quiet (congrArg some h) rfl rfl (.failed snapshot acks rest follower next task)
  | counted snapshot acks =>
    rw [jobStep] at h
    split at h
    · exact quiet h rfl rfl (.reject snapshot acks)
    · next hmaj => exact quiet h rfl rfl (.commit snapshot acks alive (not_lt.mp hmaj))
  | announce message rest =>
    cases rest with
    | nil => exact quiet h rfl rfl (.answer message)
    | cons follower rest => exact sends h rfl rfl (.announce message follower rest)
  | replied reply => cases h
  | _ => cases hw

end World

/-! ## Threads move on -/

section Threads

variable {members : List ClusterNode} {strict : Prop} {a a' : Ledger} {m n v : Str} {w : World}
  {x : WriteSnapshot} {i : Nat}

section Mono

variable {Quorum : Set Str → Prop} (hm : Moves Quorum strict Placed m a a')
include hm

theorem Awaits.mono {task : Option Task} (h : Awaits a x i v task) : Awaits a' x i v task := by
  revert h
  unfold Awaits
  split
  · exact id
  · exact id
  · exact id
  · exact fun h hs => hm.grows.acks (h hs)
  · exact fun h hs => hm.grows.acks (h hs)
  · exact id

variable {tasks : List Task} {k : Nat} (h : Awaits a x i v tasks[k]?)
include h

omit hm in
theorem Awaits.lt : k < tasks.length := by
  by_contra hge
  rw [List.getElem?_eq_none (by omega)] at h
  exact h

omit hm in
theorem Awaits.append (sent : List Task) : Awaits a x i v (tasks ++ sent)[k]? := by
  rw [List.getElem?_append_left h.lt]
  exact h

omit hm in
theorem Awaits.outlive (node : Str) :
    Awaits a x i v (tasks.map (World.Task.outlive node))[k]? := by
  rw [List.getElem?_map]
  generalize tasks[k]? = task at h
  cases task with
  | none => exact h
  | some task =>
    rw [Option.map_some, World.Task.outlive]
    split
    · exact h
    · exact h
    · exact h
    · split
      · trivial
      · exact h

/-- The batch is acknowledged when the log has taken it. -/
theorem Awaits.turn {j : Nat} {node : Str} {work work' : Work} {now : Int} {s t : KVServer}
    (htask : tasks[j]? = some ⟨node, some work⟩) (hstep : work.step now s = some (t, work'))
    (hleaves : ∀ sec, work.section? = some sec → sec.Leaves a' node now s) :
    Awaits a' x i v (tasks.set j ⟨node, some work'⟩)[k]? := by
  by_cases hjk : j = k
  · subst hjk
    rw [List.getElem?_set_self h.lt]
    rw [htask] at h
    cases work with
    | arrived request =>
      cases request with
      | append request =>
        rw [Work.step, Work.receive] at hstep
        split at hstep
        · cases hstep
          exact h
        · cases hstep
          trivial
      | install request =>
        rw [Work.step, Work.receive] at hstep
        split at hstep
        · cases hstep
          trivial
        · cases hstep
          trivial
      | _ =>
        cases hstep
        trivial
    | appendChecked request =>
      cases hstep
      intro hs
      obtain ⟨rfl, hterm, hpos, hlast⟩ := h
      have hack := hleaves _ rfl hs hpos
      rwa [hterm, hlast] at hack
    | appendRefused =>
      cases hstep
      intro hs
      cases hs
    | appendDone success matchIndex =>
      cases hstep
      exact fun hs => hm.grows.acks (h hs)
    | installChecked request =>
      rw [Work.step] at hstep
      split at hstep
      · cases hstep
        trivial
      · cases hstep
        trivial
    | installAdmitted request =>
      rw [Work.step] at hstep
      split at hstep
      · cases hstep
        trivial
      · cases hstep
        trivial
    | answered reply => cases hstep
    | _ =>
      cases hstep
      trivial
  · rw [List.getElem?_set_ne hjk]
    exact h.mono hm

end Mono

/-- An answer that counts is an acknowledgement. -/
theorem acked_of_answer {task : Nat} {lost : Bool} {reply : Option RaftReply} {next : Int}
    (h : Awaits a x i v w.tasks[task]?) (ha : w.answer lost task = some reply)
    (hrep : x.onReply next reply = .replicated) : (v, x.entry.term, i) ∈ a.acks := by
  unfold WriteSnapshot.onReply at hrep
  split at hrep
  · next reply =>
    rw [WriteSnapshot.onInstall] at hrep
    split at hrep
    · cases hrep
    · split at hrep
      · cases hrep
      · cases hrep
  · next reply =>
    have hs : reply.success = true := by
      rw [WriteSnapshot.onAppend] at hrep
      split at hrep
      · cases hrep
      · split at hrep
        · next hs => exact hs
        · split at hrep
          · cases hrep
          · cases hrep
    rw [World.answer] at ha
    split at ha
    · cases ha
    · obtain ⟨r, hr, heq⟩ := Option.map_eq_some_iff.mp ha
      injection heq with heq
      subst heq
      rw [World.reply?] at hr
      split at hr
      · next htask =>
        injection hr with hr
        subst hr
        rw [htask] at h
        exact h hs
      · cases hr
  · cases hrep

theorem Router.raftFollowers_ids {r : Router} (h : r.Backed members a.toState n)
    (alive : List Str) :
    (∀ contact ∈ r.raftFollowers alive, contact.id ≠ n) ∧
      ((r.raftFollowers alive).map ClusterNode.id).Sublist (memberIds members) := by
  constructor
  · intro contact hc
    rw [raftFollowers, List.mem_filter] at hc
    have hne := hc.2
    simp only [Bool.and_eq_true, Bool.not_eq_true', decide_eq_false_iff_not, h.localId] at hne
    exact hne.2
  · rw [memberIds, ← h.allNodes]
    exact (List.filter_sublist).map _

theorem Job.Carries.licensed {job : Job} {tasks : List Task} {sec : Section} {s : KVServer}
    (hk : Kept (QuorumOf members) strict Placed a)
    (h : job.Carries members a tasks n) (hall : s.router.allNodes = members)
    (hsec : job.section? s = some sec) : sec.Licensed members a n := by
  cases job with
  | elected term =>
    cases hsec
    trivial
  | deposed responseTerm =>
    cases hsec
    trivial
  | heartbeat =>
    cases hsec
    trivial
  | fallenThrough request =>
    cases hsec
    trivial
  | accepted request =>
    cases hsec
    trivial
  | send snapshot acks rest follower next =>
    rw [section?] at hsec
    split at hsec
    · cases hsec
      obtain ⟨i, ackers, -, hg⟩ := h
      exact hg.led
    · cases hsec
  | counted snapshot acks =>
    rw [section?] at hsec
    split at hsec
    · cases hsec
    · next hmaj =>
      cases hsec
      obtain ⟨i, ackers, rfl, hg⟩ := h
      rw [Router.majoritySize, hall] at hmaj
      obtain ⟨k, c, hcopied⟩ := hg.copied
      exact ⟨hg.led, i, _, hcopied.index hk, hg.committed (not_lt.mp hmaj)⟩
  | _ => cases hsec

/-- A thread that does not move, while no answer it waits for is lost. -/
theorem Job.Carries.mono {job : Job} {tasks tasks' : List Task} {Quorum : Set Str → Prop}
    (hk : Kept Quorum strict Placed a) (hm : Moves Quorum strict Placed m a a')
    (h : job.Carries members a tasks n)
    (ht : ∀ (x : WriteSnapshot) (i : Nat) (v : Str) (k : Nat), Awaits a x i v tasks[k]? →
      Awaits a' x i v tasks'[k]?) : job.Carries members a' tasks' n := by
  cases job with
  | canvass term lastLogIndex lastLogTerm votes rest =>
    exact ⟨h.1.trans (hm.grows.term n), h.2.mono h.1 hm⟩
  | polling term lastLogIndex lastLogTerm votes rest task =>
    exact ⟨h.1.trans (hm.grows.term n), h.2.mono h.1 hm⟩
  | routed request => exact h
  | accepted request => exact h
  | replicate snapshot acks rest =>
    obtain ⟨i, ackers, hlen, hg⟩ := h
    exact ⟨i, ackers, hlen, hg.mono hk hm⟩
  | send snapshot acks rest follower next =>
    obtain ⟨i, ackers, hlen, hg⟩ := h
    exact ⟨i, ackers, hlen, hg.mono hk hm⟩
  | awaiting snapshot acks rest follower next task =>
    obtain ⟨i, ackers, hlen, hg, haw⟩ := h
    exact ⟨i, ackers, hlen, hg.mono hk hm, ht _ _ _ _ haw⟩
  | counted snapshot acks =>
    obtain ⟨i, ackers, hlen, hg⟩ := h
    exact ⟨i, ackers, hlen, hg.mono hk hm⟩
  | announce message rest => exact ⟨h.1.mono hk hm, hm.ballot.led h.2.1, h.2.2⟩
  | _ => trivial

/-- A thread that works on a write stands for the same part of the machine
where it arrives, and so does what it sends. -/
theorem Job.Advances.carries {job job' : Job} {sent : List Task} {now : Int}
    (hgo : job.Advances w n now job' sent) (h : job.Carries members a w.tasks n)
    (hk : Kept (QuorumOf members) strict Placed a)
    (hm : Moves (QuorumOf members) strict Placed m a a')
    (hr : (w.servers n).router.Backed members a.toState n) (hids : (memberIds members).Nodup)
    (hleaves : ∀ sec, job.section? (w.servers n) = some sec →
      sec.Leaves a' n now (w.servers n)) :
    job'.Carries members a' (w.tasks ++ sent) n ∧ ∀ task ∈ sent, task.Carries a' := by
  have none_sent : ∀ task ∈ ([] : List Task), task.Carries a' := fun task ht => by cases ht
  have one_sent : ∀ {x : Task}, x.Carries a' → ∀ task ∈ [x], task.Carries a' := fun hx task ht =>
    List.mem_singleton.mp ht ▸ hx
  cases hgo with
  | accept request => exact ⟨h, none_sent⟩
  | fall request => exact ⟨trivial, none_sent⟩
  | leave request => exact ⟨trivial, none_sent⟩
  | write request alive =>
    obtain ⟨i, k, c, hcopied, hack⟩ := hleaves _ rfl
    obtain ⟨hne, hsub⟩ := Router.raftFollowers_ids hr alive
    refine ⟨⟨i, [n], rfl, ⟨k, c, hcopied⟩, List.mem_singleton_self n, ?_, ?_, ?_⟩, none_sent⟩
    · intro v hv
      rw [List.mem_singleton.mp hv]
      exact hack
    · refine List.nodup_cons.mpr ⟨fun hn => ?_, hids.sublist hsub⟩
      obtain ⟨contact, hc, heq⟩ := List.mem_map.mp hn
      exact hne contact hc heq
    · exact List.cons_subset.mpr ⟨h, hsub.subset⟩
  | through snapshot acks =>
    obtain ⟨i, ackers, hlen, hg⟩ := h
    exact ⟨⟨i, ackers, hlen, hg.mono hk hm⟩, none_sent⟩
  | next snapshot acks follower rest =>
    obtain ⟨i, ackers, hlen, hg⟩ := h
    exact ⟨⟨i, ackers, hlen, hg.mono hk hm⟩, none_sent⟩
  | install snapshot acks rest follower next hsec =>
    obtain ⟨i, ackers, hlen, hg⟩ := h
    obtain ⟨content, hv⟩ := hleaves _ hsec
    have hg' := hg.mono hk hm
    refine ⟨⟨i, ackers, hlen, hg', ?_⟩, one_sent ⟨⟨content, hv⟩, n, hg.not_asked, hg'.led⟩⟩
    rw [List.getElem?_concat_length]
    trivial
  | batch snapshot acks rest follower next request hlt hle hbatch =>
    obtain ⟨i, ackers, hlen, hg⟩ := h
    have hg' := hg.mono hk hm
    obtain ⟨k, c, hcopied⟩ := hg'.copied
    obtain ⟨hterm, prev, hb⟩ := hcopied.batch hm.kept hlt hle hbatch
    obtain ⟨hpos, hlast⟩ := hb.lastPosition hm.kept
    refine ⟨⟨i, ackers, hlen, hg', ?_⟩,
      one_sent ⟨.batch prev (i + 1) c hb, n, hg.not_asked, hterm ▸ hg'.led⟩⟩
    rw [List.getElem?_concat_length]
    exact ⟨rfl, hterm, hpos, hlast⟩
  | drop snapshot acks rest follower next =>
    obtain ⟨i, ackers, hlen, hg⟩ := h
    exact ⟨⟨i, ackers, hlen, (hg.mono hk hm).skip⟩, none_sent⟩
  | again snapshot acks rest follower next next' task =>
    obtain ⟨i, ackers, hlen, hg, -⟩ := h
    exact ⟨⟨i, ackers, hlen, hg.mono hk hm⟩, none_sent⟩
  | replicated snapshot acks rest follower next task lost reply ha hrep =>
    obtain ⟨i, ackers, hlen, hg, haw⟩ := h
    have hack := hm.grows.acks (acked_of_answer haw ha hrep)
    refine ⟨⟨i, follower.id :: ackers, ?_, (hg.mono hk hm).count hack⟩, none_sent⟩
    rw [List.length_cons, hlen]
  | failed snapshot acks rest follower next task =>
    obtain ⟨i, ackers, hlen, hg, -⟩ := h
    exact ⟨⟨i, ackers, hlen, (hg.mono hk hm).skip⟩, none_sent⟩
  | reject snapshot acks => exact ⟨trivial, none_sent⟩
  | commit snapshot acks alive hmaj =>
    obtain ⟨i, ackers, hlen, hg⟩ := h
    have hsec : (Job.counted snapshot acks).section? (w.servers n) =
        some (.commitWrite snapshot.entry) := by
      rw [section?, if_neg (not_lt.mpr hmaj)]
    have hcore := KVServer.commitWrite_core now (w.servers n) snapshot.entry
    exact ⟨⟨hleaves _ hsec, (hg.mono hk hm).led,
      (Router.raftFollowers_ids (hr.congr hcore) alive).1⟩, none_sent⟩
  | announce message follower rest =>
    obtain ⟨hv, hled, hne⟩ := h
    have hv' := hv.mono hk hm
    have hled' := hm.ballot.led hled
    have hfollower : follower.id ≠ n := hne follower (List.mem_cons_self ..)
    exact ⟨⟨hv', hled', fun contact hc => hne contact (List.mem_cons_of_mem _ hc)⟩,
      one_sent ⟨hv', n, hfollower.symm, hled'⟩⟩
  | answer message => exact ⟨trivial, none_sent⟩

/-- The same for a thread that does something else. -/
theorem Job.Goes.carries {job job' : Job} {sent : List Task} (hgo : job.Goes w n job' sent)
    (hw : ¬ job.Writes) (h : job.Carries members a w.tasks n)
    (hback : job.Backed members a.toState w.tasks n)
    (hk : Kept (QuorumOf members) strict Placed a)
    (hm : Moves (QuorumOf members) strict Placed m a a')
    (hmir : (w.servers n).Mirrors (QuorumOf members) strict a n) :
    job'.Carries members a' (w.tasks ++ sent) n ∧ ∀ task ∈ sent, task.Carries a' := by
  have none_sent : ∀ task ∈ ([] : List Task), task.Carries a' := fun task ht => by cases ht
  have one_sent : ∀ {x : Task}, x.Carries a' → ∀ task ∈ [x], task.Carries a' := fun hx task ht =>
    List.mem_singleton.mp ht ▸ hx
  cases hgo with
  | stood term =>
    have hle : term ≤ a.term n := hk.inv.ballot.voter_le n term n hback.2.2
    have hstands : StandsWith a n term (w.servers n).router.lastLogIndex
        (w.servers n).router.lastLogTerm := by
      intro _ _
      rw [hmir.copies.index, hmir.copies.term]
      exact ⟨hmir.lastLogIndex hk, hmir.lastLogTerm hk⟩
    exact ⟨⟨hle.trans (hm.grows.term n), hstands.mono hle hm⟩, none_sent⟩
  | ask term lastLogIndex lastLogTerm votes contact rest =>
    have hstands := h.2.mono h.1 hm
    have hle := h.1.trans (hm.grows.term n)
    exact ⟨⟨hle, hstands⟩, one_sent ⟨hle, hstands⟩⟩
  | count term lastLogIndex lastLogTerm votes rest task lost reply ha =>
    refine ⟨?_, none_sent⟩
    have goon : ∀ votes' : Nat, (if (w.servers n).router.majoritySize ≤ votes' then
        Job.elected term else Job.canvass term lastLogIndex lastLogTerm votes' rest).Carries
          members a' (w.tasks ++ []) n := by
      intro votes'
      split
      · trivial
      · exact ⟨h.1.trans (hm.grows.term n), h.2.mono h.1 hm⟩
    unfold World.countVote
    split
    · split
      · trivial
      · exact goon _
    · exact goon votes
  | elected term => exact ⟨trivial, none_sent⟩
  | lead router hlead => exact ⟨trivial, none_sent⟩
  | beat term contact rest => exact ⟨trivial, one_sent trivial⟩
  | hear term rest task reply =>
    refine ⟨?_, none_sent⟩
    unfold World.heardBeat
    split
    · split <;> trivial
    · trivial
  | finish => exact ⟨trivial, none_sent⟩
  | write _ _ _ hjob _ _ => exact absurd hjob hw

end Threads

/-! ## The cluster -/

namespace World

variable {members : List ClusterNode} {strict : Prop} {a : Ledger} {w w' : World}
  {e : ClusterEvent}

/-- Everything in the cluster stands for a state of the machine. -/
structure Replicates (members : List ClusterNode) (strict : Prop) (w : World) (a : Ledger) :
    Prop where
  kept : Kept (QuorumOf members) strict Placed a
  nonneg : ∀ n, 0 ≤ a.term n
  tallied : w.Tallied members a.toState
  servers : ∀ n, (w.servers n).Mirrors (QuorumOf members) strict a n
  tasks : ∀ task ∈ w.tasks, task.Carries a
  jobs : ∀ x ∈ w.jobs, x.2.Carries members a w.tasks x.1

/-- The section an event runs is in the term it belongs to. -/
def InTerm (strict : Prop) (w : World) (e : ClusterEvent) (_ : World) : Prop :=
  ∀ x ∈ w.section? e, x.2.2.InTerm strict (w.servers x.1)

instance (strict : Prop) [Decidable strict] (w : World) (e : ClusterEvent) (w' : World) :
    Decidable (w.InTerm strict e w') :=
  inferInstanceAs (Decidable (∀ x ∈ w.section? e, _))

theorem Replicates.licensed (h : w.Replicates members strict a) {node : Str} {now : Int}
    {sec : Section} (hsec : w.section? e = some (node, now, sec)) :
    sec.Licensed members a node := by
  cases e with
  | election node =>
    cases hsec
    trivial
  | heartbeat node => cases hsec
  | write node request => cases hsec
  | job i now lost alive =>
    rw [section?] at hsec
    split at hsec
    · cases hsec
    · next n job hjob =>
      obtain ⟨sec, hs, heq⟩ := Option.map_eq_some_iff.mp hsec
      cases heq
      exact (h.jobs _ (List.mem_of_getElem? hjob)).licensed h.kept
        (h.tallied.servers _).allNodes hs
  | task i now =>
    rw [section?] at hsec
    split at hsec
    · next n work htask =>
      obtain ⟨sec, hs, heq⟩ := Option.map_eq_some_iff.mp hsec
      cases heq
      exact (h.tasks _ (List.mem_of_getElem? htask)).licensed hs
    · cases hsec
  | restart node now =>
    cases hsec
    trivial

/-- The servers after an event are the nodes of the machine after some steps
of it. -/
theorem Replicates.follow (h : w.Replicates members strict a) (hkept : w.VoteKept e w')
    (hin : w.InTerm strict e w') (hs : w.step e = some w') :
    ∃ a' m, Raft.Moves (QuorumOf members) strict Placed m a a' ∧
      (∀ n, (w'.servers n).router.Backed members a'.toState n) ∧
      (∀ n, (w'.servers n).Mirrors (QuorumOf members) strict a' n) ∧
      ∀ node now sec, w.section? e = some (node, now, sec) →
        sec.Recorded a'.toState node (w.servers node) ∧
          sec.Leaves a' node now (w.servers node) := by
  have hmoves := step_servers hs
  cases hsec : w.section? e with
  | none =>
    rw [hsec] at hmoves
    have hservers : w'.servers = w.servers := hmoves
    refine ⟨a, [], .refl [] h.kept, fun n => ?_, fun n => ?_, fun node now sec hc => by cases hc⟩
    · rw [hservers]
      exact h.tallied.servers n
    · rw [hservers]
      exact h.servers n
  | some x =>
    obtain ⟨node, now, sec⟩ := x
    rw [hsec] at hmoves
    obtain ⟨s, hrun, hservers⟩ := hmoves
    obtain ⟨a', hm, hb, hmir, hrec, hleaves⟩ := Section.move h.kept (h.tallied.servers node)
      (h.nonneg node) (h.servers node) (h.tallied.ready hkept hsec) (h.licensed hsec)
      (hin _ hsec) hrun
    refine ⟨a', node, hm, fun n => ?_, fun n => ?_, fun node' now' sec' hc => ?_⟩
    · rw [hservers]
      by_cases hn : n = node
      · subst hn
        rw [update_self]
        exact hb
      · rw [update_of_ne hn]
        exact (h.tallied.servers n).other hm.ballot hn
    · rw [hservers]
      by_cases hn : n = node
      · subst hn
        rw [update_self]
        exact hmir
      · rw [update_of_ne hn]
        exact (h.servers n).other hm hn
    · cases hc
      exact ⟨hrec, hleaves⟩

/-- A client's write is about a member. -/
theorem step_write {node : Str} {request : WriteRequest}
    (h : w.step (.write node request) = some w') : node ∈ memberIds w.members := by
  rw [step] at h
  split at h
  · next hg => exact hg.1
  · cases h

/-- The threads and requests after an event stand for the machine, wherever
it has moved to. -/
theorem Replicates.threads (h : w.Replicates members strict a) (hids : (memberIds members).Nodup)
    (hs : w.step e = some w') {a' : Ledger} {m : Str}
    (hm : Raft.Moves (QuorumOf members) strict Placed m a a')
    (hleaves : ∀ node now sec, w.section? e = some (node, now, sec) →
      sec.Leaves a' node now (w.servers node)) :
    (∀ task ∈ w'.tasks, task.Carries a') ∧
      ∀ x ∈ w'.jobs, x.2.Carries members a' w'.tasks x.1 := by
  have hk := h.kept
  have oldTask : ∀ task ∈ w.tasks, task.Carries a' := fun task ht => (h.tasks task ht).mono hk hm
  have oldJob : ∀ x ∈ w.jobs, ∀ sent, x.2.Carries members a' (w.tasks ++ sent) x.1 :=
    fun x hx sent => (h.jobs x hx).mono hk hm fun _ _ _ _ haw => (haw.mono hm).append sent
  -- a thread that an event starts
  have spawned : ∀ {node : Str} {job : Job}, w'.tasks = w.tasks →
      w'.jobs = w.jobs ++ [(node, job)] → job.Carries members a' w.tasks node →
        (∀ task ∈ w'.tasks, task.Carries a') ∧
        ∀ x ∈ w'.jobs, x.2.Carries members a' w'.tasks x.1 := by
    intro node job ht hj hjob
    rw [ht, hj]
    refine ⟨oldTask, fun x hx => ?_⟩
    rcases List.mem_append.mp hx with hx | hx
    · exact (h.jobs x hx).mono hk hm fun _ _ _ _ haw => haw.mono hm
    · rw [List.mem_singleton.mp hx]
      exact hjob
  -- a thread that moves on
  have turned : ∀ {i : Nat} {node : Str} {job' : Job} {sent : List Task},
      w'.tasks = w.tasks ++ sent → w'.jobs = w.jobs.set i (node, job') →
      job'.Carries members a' (w.tasks ++ sent) node ∧ (∀ task ∈ sent, task.Carries a') →
      (∀ task ∈ w'.tasks, task.Carries a') ∧
        ∀ x ∈ w'.jobs, x.2.Carries members a' w'.tasks x.1 := by
    intro i node job' sent ht hj hnew
    rw [ht, hj]
    refine ⟨fun task hmem => ?_, fun x hx => ?_⟩
    · rcases List.mem_append.mp hmem with hmem | hmem
      · exact oldTask task hmem
      · exact hnew.2 task hmem
    · rcases List.mem_or_eq_of_mem_set hx with hx | rfl
      · exact oldJob x hx sent
      · exact hnew.1
  obtain ⟨-, hturns⟩ := step_turns hs
  cases e with
  | election node => exact spawned hturns.2.1 hturns.2.2 trivial
  | heartbeat node => exact spawned hturns.1 hturns.2 trivial
  | write node request =>
    have hmem := step_write hs
    exact spawned hturns.1 hturns.2 (h.tallied.shared ▸ hmem)
  | job i now lost alive =>
    obtain ⟨node, job, job', sent, hjob, hgo, ht, hj⟩ := hturns
    have hcarry := h.jobs _ (List.mem_of_getElem? hjob)
    by_cases hw : job.Writes
    · rw [step, hjob] at hs
      obtain ⟨job', sent, hadv, ht, hj⟩ := jobStep_advances hw hs
      refine turned ht hj (hadv.carries hcarry hk hm (h.tallied.servers node) hids ?_)
      intro sec hsec
      refine hleaves node now sec ?_
      rw [section?, hjob]
      exact Option.map_eq_some_iff.mpr ⟨sec, hsec, rfl⟩
    · exact turned ht hj (hgo.carries hw hcarry (h.tallied.jobs _ (List.mem_of_getElem? hjob)) hk
        hm (h.servers node))
  | task i now =>
    obtain ⟨node, work, s, work', htask, hwork, ht, hj⟩ := hturns
    have hleft : ∀ sec, work.section? = some sec → sec.Leaves a' node now (w.servers node) := by
      intro sec hsec
      refine hleaves node now sec ?_
      rw [section?, htask]
      exact Option.map_eq_some_iff.mpr ⟨sec, hsec, rfl⟩
    rw [ht, hj]
    refine ⟨fun task hmem => ?_, fun x hx => ?_⟩
    · rcases List.mem_or_eq_of_mem_set hmem with hmem | rfl
      · exact oldTask task hmem
      · exact (h.tasks _ (List.mem_of_getElem? htask)).turn hk hm hwork hleft
    · exact (h.jobs x hx).mono hk hm fun _ _ _ _ haw => haw.turn hm htask hwork hleft
  | restart node now =>
    rw [hturns.1, hturns.2]
    refine ⟨fun task hmem => ?_, fun x hx => ?_⟩
    · obtain ⟨task, hold, rfl⟩ := List.mem_map.mp hmem
      exact (oldTask task hold).outlive node
    · obtain ⟨x, hold, rfl⟩ := List.mem_map.mp hx
      rw [endJobs]
      split
      · trivial
      · exact (h.jobs x hold).mono hk hm fun _ _ _ _ haw => (haw.mono hm).outlive node

/-- Every step of the cluster that keeps the votes and runs its section in
the term it belongs to is some steps of the machine. -/
theorem Replicates.step (h : w.Replicates members strict a) (hids : (memberIds members).Nodup)
    (hkept : w.VoteKept e w') (hin : w.InTerm strict e w') (hs : w.step e = some w') :
    ∃ a' m, Raft.Moves (QuorumOf members) strict Placed m a a' ∧
      w'.Replicates members strict a' := by
  obtain ⟨a', m, hm, hb, hmir, hleft⟩ := h.follow hkept hin hs
  obtain ⟨htasks, hjobs⟩ := h.threads hids hs hm fun node now sec hsec =>
    (hleft node now sec hsec).2
  refine ⟨a', m, hm, hm.kept, fun n => (h.nonneg n).trans (hm.grows.term n), ?_, hmir, htasks,
    hjobs⟩
  exact h.tallied.step hids hkept hs hm.ballot hb fun node now sec hsec =>
    (hleft node now sec hsec).1

theorem Replicates.run (h : w.Replicates members strict a) (hids : (memberIds members).Nodup)
    {es : List ClusterEvent} (hrun : Runs.run World.step w es = some w')
    (horder : Runs.Always World.step (fun w e w' => w.VoteKept e w' ∧ w.InTerm strict e w') w es) :
    ∃ a', Grows a a' ∧ w'.Replicates members strict a' := by
  refine Runs.inv_of_always (I := fun w => ∃ a', Grows a a' ∧ w.Replicates members strict a')
    (fun w e w' hw hs hc => ?_) ⟨a, Raft.Moves.grows_refl a, h⟩ hrun horder
  obtain ⟨a₁, hg, hr⟩ := hw
  obtain ⟨a', m, hm, hr'⟩ := hr.step hids hc.1 hc.2 hs
  exact ⟨a', Raft.Moves.grows_trans hg hm.grows, hr'⟩

theorem replicates_start (members : List ClusterNode) (store : Str → Store)
    (threshold : Str → Int) :
    (start members store threshold).Replicates members strict (Raft.State.start 0) where
  kept := .start 0
  nonneg _ := Int.le_refl 0
  tallied := tallied_start members store threshold
  servers n :=
    { base := rfl, baseTerm := rfl, log := rfl, whole := fun _ => rfl
      commit_nonneg := Int.le_refl 0, commit := Int.le_refl 0, applied := Int.le_refl 0
      chosen := fun _ x hx => by cases hx
      copies := ⟨fun _ hlog => (Option.some.inj hlog).symm, rfl, rfl⟩
      state := fun _ => rfl }
  tasks _ ht := by cases ht
  jobs _ hx := by cases hx

end World

end TinyKV
