import Mathlib.Data.Int.Order.Basic
import TinyKV.Lib.Ballot
import TinyKV.Lib.Runs
import TinyKV.Proofs.ClusterSections
import TinyKV.Proofs.NodeLog
import TinyKV.Proofs.Router

/-!
# One leader in each term

The cluster refines the protocol of `Lib/Ballot`. A router is backed by a
state of the protocol if it has the term and the role the protocol gives the
node, and if the vote it remembers is the one the protocol has recorded for
the term. The six places that change the term, the vote or the role are then
steps of the protocol, and everything else leaves the router's part alone.

What travels between the nodes has to be backed too. A request for a vote
comes from a node that has reached its term. A thread that counts votes has
them from as many nodes as it counts, all of them different from those it
has not asked yet.

The vote is forgotten in one case. `raft.meta` has a dash for no vote, so a
vote for a node of that name does not survive a restart, and the node votes
twice.
-/

namespace TinyKV

open Function Text Ballot

def RaftRole.ballot : RaftRole → Ballot.Role
  | .follower => .follower
  | .candidate => .candidate
  | .leader => .leader

theorem RaftRole.ballot_leader {role : RaftRole} : role.ballot = .leader ↔ role = .leader := by
  cases role <;> simp [ballot]

/-- The ids of a membership list. -/
def memberIds (members : List ClusterNode) : List Str := members.map ClusterNode.id

/-- The protocol with nothing but terms, roles and votes. -/
abbrev Tally := Ballot.State Str Int Unit Unit

variable {V R : Type} {members : List ClusterNode} {b b' : Ballot.State Str Int V R} {n : Str}

/-! ## Routers -/

/-- The router of node `n` is where the protocol has it. -/
structure Router.Backed (members : List ClusterNode) (b : Ballot.State Str Int V R) (n : Str)
    (r : Router) : Prop where
  localId : r.localId = n
  allNodes : r.allNodes = members
  term : b.term n = r.currentTerm
  role : b.role n = r.role.ballot
  word : r.votedFor = [] ∨ IsWord r.votedFor
  voted : ∀ c, b.Voted n r.currentTerm c → r.votedFor = c ∧ IsWord c
  /-- whoever stands or leads has voted for itself -/
  own : r.role ≠ .follower → r.votedFor = n
  filed : InRange32 r.currentTerm →
    loadRaftMeta r.raftMetaFile = (r.currentTerm, reloadedVote r.votedFor)

namespace Router.Backed

variable {r : Router} {term : Int} {candidateId leaderId : Str}

theorem congr {r' : Router} (h : r.Backed members b n) (hc : r'.core = r.core) :
    r'.Backed members b n := by
  obtain ⟨hid, hall, hrole, hterm, hvote, -, hfile⟩ := Router.fields_of_core hc
  exact
    { localId := hid.trans h.localId
      allNodes := hall.trans h.allNodes
      term := h.term.trans hterm.symm
      role := hrole ▸ h.role
      word := hvote ▸ h.word
      voted := by
        rw [hterm, hvote]
        exact h.voted
      own := by
        rw [hrole, hvote]
        exact h.own
      filed := by
        rw [hfile, hterm, hvote]
        exact h.filed }

variable {Quorum : Set Str → Prop}

/-- Another node moves. -/
theorem other {m : Str} (h : r.Backed members b n) (hf : Follows Quorum m b b') (hmn : n ≠ m) :
    r.Backed members b' n :=
  { h with
    term := (hf.term_eq n hmn).trans h.term
    role := (hf.role_eq n hmn).trans h.role
    voted := fun c hc => h.voted c (hf.voted_of n hmn _ c hc) }

theorem newTerm (h : r.Backed members b n) (hinv : Ballot.Inv Quorum b)
    (ht : r.currentTerm < term) :
    (r.newTerm term).Backed members (b.enter n term .follower) n where
  localId := h.localId
  allNodes := h.allNodes
  term := update_self _ _ _
  role := update_self _ _ _
  word := Or.inl rfl
  voted c hc := by
    have hle : term ≤ b.term n := hinv.voter_le n term c hc
    rw [h.term] at hle
    omega
  own hr := absurd rfl hr
  filed hrange := loadRaftMeta_text hrange (Or.inl rfl)

theorem beginElection (h : r.Backed members b n) (hinv : Ballot.Inv Quorum b) (hn : IsWord n)
    (d : V) :
    r.beginElection.Backed members
      ((b.enter n (r.currentTerm + 1) .candidate).addVote ⟨n, r.currentTerm + 1, n, d⟩) n where
  localId := h.localId
  allNodes := h.allNodes
  term := update_self _ _ _
  role := update_self _ _ _
  word := by
    show r.localId = [] ∨ IsWord r.localId
    rw [h.localId]
    exact Or.inr hn
  voted c hc := by
    rcases (voted_addVote _ _ _ _).mp hc with ⟨-, -, rfl⟩ | hc
    · exact ⟨h.localId, hn⟩
    · have hle : r.currentTerm + 1 ≤ b.term n := hinv.voter_le n _ c hc
      rw [h.term] at hle
      omega
  own _ := h.localId
  filed hrange := by
    refine loadRaftMeta_text hrange ?_
    show r.localId = [] ∨ IsWord r.localId
    rw [h.localId]
    exact Or.inr hn

/-- Whoever may still vote for a candidate has voted for none else. -/
theorem free (h : r.Backed members b n) (hfree : r.votedFor = [] ∨ r.votedFor = candidateId)
    {c : Str} (hc : b.Voted n (b.term n) c) : c = candidateId := by
  rw [h.term] at hc
  obtain ⟨hv, hw⟩ := h.voted c hc
  rcases hfree with hnil | hcand
  · exact absurd (hv.symm.trans hnil) hw.1
  · exact hv.symm.trans hcand

theorem grant (h : r.Backed members b n) (hc : IsWord candidateId)
    (hfree : r.votedFor = [] ∨ r.votedFor = candidateId) (d : V) :
    (persistRaftMeta { r with votedFor := candidateId, role := .follower }).Backed members
      ((b.setRole n .follower).addVote ⟨n, b.term n, candidateId, d⟩) n where
  localId := h.localId
  allNodes := h.allNodes
  term := h.term
  role := update_self _ _ _
  word := Or.inr hc
  voted c hv := by
    rcases (voted_addVote _ _ _ _).mp hv with ⟨-, -, rfl⟩ | hv
    · exact ⟨rfl, hc⟩
    · have heq : c = candidateId := h.free hfree (h.term.symm ▸ hv)
      exact ⟨heq.symm, heq ▸ hc⟩
  own hr := absurd rfl hr
  filed hrange := loadRaftMeta_text hrange (Or.inr hc)

theorem retire (h : r.Backed members b n) (leaderId : Str) :
    ({ r with role := .follower, leaderId := leaderId } : Router).Backed members
      (b.setRole n .follower) n :=
  { h with
    role := update_self _ _ _
    own := fun hr => absurd rfl hr }

theorem lead (h : r.Backed members b n) (hrole : r.role = .candidate) (voters : Set Str) (d : R) :
    ({ r with role := .leader, leaderId := r.localId } : Router).Backed members
      ((b.setRole n .leader).addElection ⟨b.term n, n, voters, d⟩) n :=
  { h with
    role := update_self _ _ _
    own := fun _ => h.own (by rw [hrole]; decide) }

theorem restart (h : r.Backed members b n) (hrange : InRange32 r.currentTerm)
    (hvote : r.votedFor ≠ dash) :
    r.restart.Backed members (b.setRole n .follower) n := by
  have hload : loadRaftMeta r.raftMetaFile = (r.currentTerm, r.votedFor) := by
    rw [h.filed hrange, reloadedVote, if_neg hvote]
  have hr : r.restart =
      ({ r with role := .follower, leaderId := [] } : Router).updateLogInfo 0 0 := by
    rw [Router.restart, hload]
    rfl
  rw [hr]
  exact (h.retire []).congr rfl

end Router.Backed

/-! ## Sections -/

namespace Section

/-- What a section of node `n` may be entered with. -/
def Ready (members : List ClusterNode) (b : Ballot.State Str Int V R) (n : Str) (s : KVServer) :
    Section → Prop
  | .beginElection => IsWord n
  | .winElection term =>
    ∃ voters, Majority (memberIds members) voters ∧ ∀ v ∈ voters, b.Voted v term n
  | .requestVote term candidateId _ _ => IsWord candidateId ∧ term ≤ b.term candidateId
  | .restart => s.router.votedFor ≠ dash
  | _ => True

/-- What a section has recorded in the protocol. -/
def Recorded (b : Ballot.State Str Int V R) (n : Str) (s : KVServer) : Section → Prop
  | .beginElection => b.Voted n s.router.beginElection.currentTerm n
  | .requestVote term candidateId lastLogIndex lastLogTerm =>
    (s.router.handleRequestVote term candidateId lastLogIndex lastLogTerm).2.granted = true →
      b.Voted n term candidateId
  | _ => True

end Section

theorem Router.castVote_cases (r : Router) (candidateId : Str) (lastLogIndex lastLogTerm : Int) :
    (r.votedFor = [] ∨ r.votedFor = candidateId) ∧
        r.logIsUpToDate lastLogIndex lastLogTerm = true ∧
        r.castVote candidateId lastLogIndex lastLogTerm =
          (persistRaftMeta { r with votedFor := candidateId, role := .follower },
            ⟨r.currentTerm, true⟩) ∨
      r.castVote candidateId lastLogIndex lastLogTerm = (r, ⟨r.currentTerm, false⟩) := by
  rw [castVote]
  split
  · next h => exact Or.inl ⟨h.2, h.1, rfl⟩
  · exact Or.inr rfl

variable {s : KVServer} {sec : Section}

theorem KVServer.restart_core {t : KVServer} {now : Int} (h : s.restart now = some t) :
    t.router.core = s.router.restart.core := by
  obtain ⟨store, u, -, hu, rfl⟩ := restart_eq_some h
  have hrouter : u.router = s.router.restart := loadRaftState_router hu
  rw [applyCommitted_core, ← hrouter]
  rfl

theorem KVServer.writeLocal_router (now : Int) (s : KVServer) (request : WriteRequest) :
    (s.writeLocal now request).router = s.router := by
  rw [writeLocal]
  split
  · split <;> rfl
  · rfl
  · rfl
  · rfl

theorem KVServer.commitWrite_core (now : Int) (s : KVServer) (entry : RaftLogEntry) :
    (s.commitWrite now entry).router.core = s.router.core := by
  rw [commitWrite]
  split
  · exact applyCommitted_core now _
  · rfl

namespace Section

variable {t : KVServer}

/-- Of the router's part of Raft, the other sections leave everything as it is. -/
theorem run_core {sec : Section} {now : Int} (hrun : sec.run now s = some t)
    (h : sec.ofRouter = false) : t.router.core = s.router.core := by
  cases sec with
  | writeLocal request =>
    injection hrun with hrun
    rw [← hrun, KVServer.writeLocal_router]
  | appendWrite request =>
    injection hrun with hrun
    rw [← hrun]
    rfl
  | encodeSnapshot term =>
    injection hrun with hrun
    rw [← hrun]
    rfl
  | commitWrite entry =>
    injection hrun with hrun
    rw [← hrun, KVServer.commitWrite_core]
  | append request =>
    injection hrun with hrun
    rw [← hrun, KVServer.appendLocked_core]
  | installPayload payload =>
    injection hrun with hrun
    rw [← hrun]
    cases payload with
    | none => rfl
    | some entries => rfl
  | installSet request =>
    injection hrun with hrun
    rw [← hrun]
    rfl
  | _ => cases h

variable {r : Router} {Quorum : Set Str → Prop}

/-- The vote of a node that has reached the candidate's term. -/
theorem follow_castVote {candidateId : Str} (h : r.Backed members b n) (hc : IsWord candidateId)
    (hterm : r.currentTerm ≤ b.term candidateId) (lastLogIndex lastLogTerm : Int) (d : V) :
    ∃ b', Follows Quorum n b b' ∧
      (r.castVote candidateId lastLogIndex lastLogTerm).1.Backed members b' n ∧
      ((r.castVote candidateId lastLogIndex lastLogTerm).2.granted = true →
        b'.Voted n r.currentTerm candidateId) := by
  rcases r.castVote_cases candidateId lastLogIndex lastLogTerm with ⟨hfree, -, heq⟩ | heq
  · rw [heq]
    refine ⟨_, Follows.vote d (fun c => h.free hfree) (h.term ▸ hterm), h.grant hc hfree d, ?_⟩
    intro _
    exact (voted_addVote _ _ _ _).mpr (Or.inl ⟨rfl, h.term, rfl⟩)
  · rw [heq]
    refine ⟨b, Follows.refl n b, h, ?_⟩
    intro hg
    cases hg

theorem follow_requestVote {candidateId : Str} {term : Int} (h : r.Backed members b n)
    (hinv : Ballot.Inv Quorum b) (hc : IsWord candidateId) (hterm : term ≤ b.term candidateId)
    (lastLogIndex lastLogTerm : Int) (d : V) :
    ∃ b', Follows Quorum n b b' ∧
      (r.handleRequestVote term candidateId lastLogIndex lastLogTerm).1.Backed members b' n ∧
      ((r.handleRequestVote term candidateId lastLogIndex lastLogTerm).2.granted = true →
        b'.Voted n term candidateId) := by
  rw [Router.handleRequestVote]
  split
  · refine ⟨b, Follows.refl n b, h, ?_⟩
    intro hg
    cases hg
  · split
    · next hlt =>
      have hbump : Follows Quorum n b (b.enter n term .follower) := .bump (h.term ▸ hlt)
      obtain ⟨b', hf, hb, hg⟩ := follow_castVote (h.newTerm hinv hlt) hc
        (hterm.trans (hbump.term_le candidateId)) lastLogIndex lastLogTerm d
      exact ⟨b', hbump.trans (fun _ _ hm => hm) hf, hb, hg⟩
    · next hge hle =>
      have heq : r.currentTerm = term := by omega
      obtain ⟨b', hf, hb, hg⟩ := follow_castVote h hc (heq ▸ hterm) lastLogIndex lastLogTerm d
      exact ⟨b', hf, hb, heq ▸ hg⟩

theorem follow_acceptTerm {term : Int} (h : r.Backed members b n) (hinv : Ballot.Inv Quorum b)
    (leaderId : Str) :
    ∃ b', Follows Quorum n b b' ∧ (r.acceptTerm term leaderId).Backed members b' n := by
  rw [Router.acceptTerm]
  split
  · next hlt =>
    refine ⟨_, Follows.bump (h.term ▸ hlt), ?_⟩
    exact { h.newTerm hinv hlt with own := fun hr => absurd rfl hr }
  · exact ⟨_, Follows.retire n b, h.retire leaderId⟩

/-- Every section is a move of the protocol. -/
theorem follow {sec : Section} {now : Int} (hb : s.router.Backed members b n)
    (hinv : Ballot.Inv (Majority (memberIds members)) b) (hready : sec.Ready members b n s)
    (hrun : sec.run now s = some t) (d : V) (d' : R) :
    ∃ b', Follows (Majority (memberIds members)) n b b' ∧ t.router.Backed members b' n ∧
      sec.Recorded b' n s := by
  have silent : (∃ b', Follows (Majority (memberIds members)) n b b' ∧
      t.router.Backed members b' n) → ∃ b', Follows (Majority (memberIds members)) n b b' ∧
        t.router.Backed members b' n ∧ True := fun ⟨b', hf, hb⟩ => ⟨b', hf, hb, trivial⟩
  cases sec with
  | beginElection =>
    injection hrun with hrun
    rw [← hrun]
    refine ⟨_, Follows.stand d ?_, hb.beginElection hinv hready d, ?_⟩
    · rw [hb.term]
      omega
    · exact (voted_addVote _ _ _ _).mpr (Or.inl ⟨rfl, rfl, rfl⟩)
  | winElection term =>
    refine silent ?_
    injection hrun with hrun
    rw [← hrun]
    show ∃ b', _ ∧ (s.router.winElection term).Backed members b' n
    rw [Router.winElection]
    split
    · next hwin =>
      obtain ⟨voters, hq, hvotes⟩ := hready
      rw [← hwin.2, ← hb.term] at hvotes
      refine ⟨_, Follows.elect d' ?_ hq hvotes, hb.lead hwin.1 voters d'⟩
      rw [hb.role, hwin.1]
      rfl
    · exact ⟨b, Follows.refl n b, hb⟩
  | stepDown responseTerm =>
    refine silent ?_
    injection hrun with hrun
    rw [← hrun]
    show ∃ b', _ ∧ (s.router.stepDown responseTerm).Backed members b' n
    rw [Router.stepDown]
    split
    · next hlt => exact ⟨_, Follows.bump (hb.term ▸ hlt), hb.newTerm hinv hlt⟩
    · exact ⟨b, Follows.refl n b, hb⟩
  | beginHeartbeats =>
    refine silent ⟨b, Follows.refl n b, ?_⟩
    injection hrun with hrun
    rw [← hrun]
    show (s.router.beginHeartbeats.getD s.router).Backed members b n
    rw [Router.beginHeartbeats]
    split
    · exact { hb with }
    · exact hb
  | requestVote term candidateId lastLogIndex lastLogTerm =>
    injection hrun with hrun
    rw [← hrun]
    exact follow_requestVote hb hinv hready.1 hready.2 lastLogIndex lastLogTerm d
  | appendEntries term leaderId =>
    refine silent ?_
    injection hrun with hrun
    rw [← hrun]
    show ∃ b', _ ∧ (s.router.handleAppendEntries term leaderId).1.Backed members b' n
    rw [Router.handleAppendEntries]
    split
    · exact ⟨b, Follows.refl n b, hb⟩
    · exact follow_acceptTerm hb hinv leaderId
  | restart =>
    obtain ⟨hrange, hrun⟩ := KVServer.startAgain_eq now hrun
    exact silent ⟨_, Follows.retire n b,
      (hb.restart hrange.1 hready).congr (KVServer.restart_core hrun)⟩
  | _ => exact silent ⟨b, Follows.refl n b, hb.congr (run_core hrun rfl)⟩

end Section

/-! ## Threads and requests -/

/-- A thread of `n` has the votes of `voters` and is going to ask `rest`. -/
structure Canvass (members : List ClusterNode) (b : Ballot.State Str Int V R) (n : Str)
    (term : Int) (voters rest : List Str) : Prop where
  word : IsWord n
  own : n ∈ voters
  voted : ∀ v ∈ voters, b.Voted v term n
  nodup : (voters ++ rest).Nodup
  member : voters ++ rest ⊆ memberIds members

namespace Canvass

variable {term : Int} {voters rest : List Str} {contact : Str}

theorem mono {Quorum : Set Str → Prop} {m : Str} (h : Canvass members b n term voters rest)
    (hf : Follows Quorum m b b') : Canvass members b' n term voters rest :=
  { h with voted := fun v hv => hf.voted (h.voted v hv) }

theorem not_asked (h : Canvass members b n term voters (contact :: rest)) : n ≠ contact :=
  (List.nodup_append.mp h.nodup).2.2 n h.own contact (List.mem_cons_self ..)

theorem count (h : Canvass members b n term voters (contact :: rest))
    (hv : b.Voted contact term n) : Canvass members b n term (contact :: voters) rest where
  word := h.word
  own := List.mem_cons_of_mem _ h.own
  voted v hmem := by
    rcases List.mem_cons.mp hmem with rfl | hmem
    · exact hv
    · exact h.voted v hmem
  nodup := List.perm_middle.nodup_iff.mp h.nodup
  member := fun v hmem => h.member (List.perm_middle.mem_iff.mpr hmem)

theorem skip (h : Canvass members b n term voters (contact :: rest)) :
    Canvass members b n term voters rest :=
  have hsub : (voters ++ rest).Sublist (voters ++ contact :: rest) :=
    (List.sublist_cons_self contact rest).append_left voters
  { h with
    nodup := h.nodup.sublist hsub
    member := List.Subset.trans hsub.subset h.member }

theorem majority (h : Canvass members b n term voters rest)
    (hlen : members.length / 2 + 1 ≤ voters.length) :
    ∃ quorum, Majority (memberIds members) quorum ∧ ∀ v ∈ quorum, b.Voted v term n := by
  refine ⟨{v | v ∈ voters}, ⟨voters, ?_, ?_, fun v hv => hv, ?_⟩, h.voted⟩
  · exact (List.nodup_append.mp h.nodup).1
  · exact List.Subset.trans (List.subset_append_left voters rest) h.member
  · rw [memberIds, List.length_map]
    exact hlen

end Canvass

/-- The request for the vote of `contact`, and the answer to it. -/
inductive Polled (b : Ballot.State Str Int V R) (n : Str) (term : Int) (contact : Str) :
    Option Task → Prop
  | asked (lastLogIndex lastLogTerm : Int) :
      Polled b n term contact
        (some ⟨contact, some (.arrived (.requestVote term n lastLogIndex lastLogTerm))⟩)
  | answered (reply : Router.VoteReply) (h : reply.granted = true → b.Voted contact term n) :
      Polled b n term contact (some ⟨contact, some (.answered (.vote reply))⟩)

def Task.Backed (b : Ballot.State Str Int V R) (task : Task) : Prop :=
  match task.work with
  | some (.arrived (.requestVote term candidateId _ _)) =>
    IsWord candidateId ∧ term ≤ b.term candidateId ∧ candidateId ≠ task.node
  | some (.arrived (.heartbeat term leaderId)) => b.Led leaderId term ∧ leaderId ≠ task.node
  | _ => True

def Job.Backed (members : List ClusterNode) (b : Ballot.State Str Int V R) (tasks : List Task)
    (n : Str) : Job → Prop
  | .stood term => IsWord n ∧ n ∈ memberIds members ∧ b.Voted n term n
  | .canvass term _ _ votes rest =>
    ∃ voters, voters.length = votes ∧
      Canvass members b n term voters (rest.map ClusterNode.id)
  | .polling term _ _ votes rest task =>
    ∃ voters contact, voters.length = votes ∧
      Canvass members b n term voters (contact :: rest.map ClusterNode.id) ∧
      Polled b n term contact tasks[task]?
  | .elected term =>
    ∃ voters, Majority (memberIds members) voters ∧ ∀ v ∈ voters, b.Voted v term n
  | .beating term rest | .listening term rest _ =>
    b.Led n term ∧ ∀ contact ∈ rest, contact.id ≠ n
  | _ => True

section Mono

variable {Quorum : Set Str → Prop} {m : Str} (hf : Follows Quorum m b b')
include hf

theorem Polled.mono {term : Int} {contact : Str} {task : Option Task}
    (h : Polled b n term contact task) : Polled b' n term contact task := by
  cases h with
  | asked lastLogIndex lastLogTerm => exact .asked lastLogIndex lastLogTerm
  | answered reply h => exact .answered reply fun hg => hf.voted (h hg)

theorem Task.Backed.mono {task : Task} (h : task.Backed b) : task.Backed b' := by
  obtain ⟨node, work⟩ := task
  revert h
  unfold Task.Backed
  split
  · rintro ⟨hw, hle, hne⟩
    exact ⟨hw, hle.trans (hf.term_le _), hne⟩
  · rintro ⟨hl, hne⟩
    exact ⟨hf.led hl, hne⟩
  · exact id

/-- A thread that does not move, while no answer it waits for is lost. -/
theorem Job.Backed.mono {job : Job} {tasks tasks' : List Task} (h : job.Backed members b tasks n)
    (ht : ∀ (term : Int) (contact : Str) (i : Nat), Polled b n term contact tasks[i]? →
      Polled b' n term contact tasks'[i]?) : job.Backed members b' tasks' n := by
  cases job with
  | stood term => exact ⟨h.1, h.2.1, hf.voted h.2.2⟩
  | canvass term lastLogIndex lastLogTerm votes rest =>
    obtain ⟨voters, hlen, hc⟩ := h
    exact ⟨voters, hlen, hc.mono hf⟩
  | polling term lastLogIndex lastLogTerm votes rest task =>
    obtain ⟨voters, contact, hlen, hc, hp⟩ := h
    exact ⟨voters, contact, hlen, hc.mono hf, ht term contact task hp⟩
  | elected term =>
    obtain ⟨voters, hq, hv⟩ := h
    exact ⟨voters, hq, fun v hmem => hf.voted (hv v hmem)⟩
  | beating term rest => exact ⟨hf.led h.1, h.2⟩
  | listening term rest task => exact ⟨hf.led h.1, h.2⟩
  | _ => trivial

end Mono

section Tasks

variable {term : Int} {contact : Str} {tasks : List Task} {k : Nat}
  (h : Polled b n term contact tasks[k]?)
include h

theorem Polled.lt : k < tasks.length := by
  by_contra hge
  rw [List.getElem?_eq_none (by omega)] at h
  cases h

theorem Polled.append (sent : List Task) : Polled b n term contact (tasks ++ sent)[k]? := by
  rw [List.getElem?_append_left h.lt]
  exact h

theorem Polled.outlive (node : Str) :
    Polled b n term contact (tasks.map (World.Task.outlive node))[k]? := by
  rw [List.getElem?_map]
  generalize tasks[k]? = task at h
  cases h with
  | asked lastLogIndex lastLogTerm => exact .asked lastLogIndex lastLogTerm
  | answered reply hg => exact .answered reply hg

theorem Polled.turn {Quorum : Set Str → Prop} {m : Str} (hf : Follows Quorum m b b') {i : Nat}
    {node : Str} {work work' : Work} {now : Int} {s t : KVServer}
    (htask : tasks[i]? = some ⟨node, some work⟩) (hstep : work.step now s = some (t, work'))
    (hrec : ∀ sec, work.section? = some sec → sec.Recorded b' node s) :
    Polled b' n term contact (tasks.set i ⟨node, some work'⟩)[k]? := by
  by_cases hik : i = k
  · subst hik
    rw [List.getElem?_set_self h.lt]
    rw [htask] at h
    cases h with
    | asked lastLogIndex lastLogTerm =>
      have hwork : work' = .answered (.vote
          (s.router.handleRequestVote term n lastLogIndex lastLogTerm).2) :=
        (congrArg Prod.snd (Option.some.inj hstep)).symm
      rw [hwork]
      exact .answered _ (hrec _ rfl)
    | answered reply hg => cases hstep
  · rw [List.getElem?_set_ne hik]
    exact h.mono hf

end Tasks

theorem Task.Backed.ready {node : Str} {work : Work} (h : Task.Backed b ⟨node, some work⟩)
    (hsec : work.section? = some sec) : sec.Ready members b node s := by
  cases work with
  | arrived request =>
    cases request with
    | requestVote term candidateId lastLogIndex lastLogTerm =>
      cases hsec
      exact ⟨h.1, h.2.1⟩
    | _ =>
      cases hsec
      trivial
  | appendChecked request =>
    cases hsec
    trivial
  | installAdmitted request =>
    cases hsec
    trivial
  | installInstalled request =>
    cases hsec
    trivial
  | _ => cases hsec

theorem Section.ready_of_log (h : sec.ofRouter = false) : sec.Ready members b n s := by
  cases sec with
  | beginElection => cases h
  | winElection term => cases h
  | requestVote term candidateId lastLogIndex lastLogTerm => cases h
  | restart => cases h
  | _ => trivial

theorem Job.Backed.ready {job : Job} {tasks : List Task} (h : job.Backed members b tasks n)
    (hsec : job.section? s = some sec) : sec.Ready members b n s := by
  rcases Job.section_cases hsec with ⟨term, rfl, rfl⟩ | ⟨term, rfl⟩ | rfl | hlog
  · exact h
  · trivial
  · trivial
  · exact Section.ready_of_log hlog

/-! ## The cluster -/

namespace World

variable {w w' : World} {e : ClusterEvent}

/-- Everything in the cluster is backed by a state of the protocol. -/
structure Tallied (members : List ClusterNode) (w : World) (b : Ballot.State Str Int V R) :
    Prop where
  inv : Ballot.Inv (Majority (memberIds members)) b
  shared : w.members = members
  servers : ∀ n, (w.servers n).router.Backed members b n
  tasks : ∀ task ∈ w.tasks, task.Backed b
  jobs : ∀ x ∈ w.jobs, x.2.Backed members b w.tasks x.1

/-- Only nodes stand whose names can be written to `raft.meta` and sent, and
no node is started again after a vote that looks like none there. -/
def VoteKept (w : World) (e : ClusterEvent) (_ : World) : Prop :=
  match e with
  | .election node => IsWord node
  | .restart node _ => (w.servers node).router.votedFor ≠ dash
  | _ => True

instance (w w' : World) : (e : ClusterEvent) → Decidable (w.VoteKept e w')
  | .election node => inferInstanceAs (Decidable (IsWord node))
  | .restart node _ => inferInstanceAs (Decidable ((w.servers node).router.votedFor ≠ dash))
  | .heartbeat _ | .write _ _ | .job _ _ _ _ | .task _ _ => inferInstanceAs (Decidable True)

theorem Tallied.ready (h : w.Tallied members b) (hkept : w.VoteKept e w') {node : Str}
    {now : Int} {sec : Section} (hsec : w.section? e = some (node, now, sec)) :
    sec.Ready members b node (w.servers node) := by
  cases e with
  | election node =>
    cases hsec
    exact hkept
  | heartbeat node => cases hsec
  | write node request => cases hsec
  | job i now lost alive =>
    rw [section?] at hsec
    split at hsec
    · cases hsec
    · next n job hjob =>
      have hb := h.jobs _ (List.mem_of_getElem? hjob)
      obtain ⟨sec, hs, heq⟩ := Option.map_eq_some_iff.mp hsec
      cases heq
      exact hb.ready hs
  | task i now =>
    rw [section?] at hsec
    split at hsec
    · next n work htask =>
      have hb := h.tasks _ (List.mem_of_getElem? htask)
      obtain ⟨sec, hs, heq⟩ := Option.map_eq_some_iff.mp hsec
      cases heq
      exact hb.ready hs
    · cases hsec
  | restart node now =>
    cases hsec
    exact hkept

/-- Every step of the cluster is a move of the protocol. -/
theorem Tallied.follow (h : w.Tallied members b) (hkept : w.VoteKept e w')
    (hs : w.step e = some w') (d : V) (d' : R) :
    ∃ b' m, Follows (Majority (memberIds members)) m b b' ∧
      (∀ n, (w'.servers n).router.Backed members b' n) ∧
      ∀ node now sec, w.section? e = some (node, now, sec) →
        sec.Recorded b' node (w.servers node) := by
  have hmoves := step_servers hs
  cases hsec : w.section? e with
  | none =>
    rw [hsec] at hmoves
    refine ⟨b, [], Follows.refl [] b, fun n => ?_, fun node now sec hc => ?_⟩
    · rw [show w'.servers = w.servers from hmoves]
      exact h.servers n
    · cases hc
  | some x =>
    obtain ⟨node, now, sec⟩ := x
    rw [hsec] at hmoves
    obtain ⟨s, hrun, hservers⟩ := hmoves
    obtain ⟨b', hf, hb, hrec⟩ :=
      Section.follow (h.servers node) h.inv (h.ready hkept hsec) hrun d d'
    refine ⟨b', node, hf, fun n => ?_, fun node' now' sec' hc => ?_⟩
    · rw [hservers]
      by_cases hn : n = node
      · subst hn
        rw [update_self]
        exact hb
      · rw [update_of_ne hn]
        exact (h.servers n).other hf hn
    · cases hc
      exact hrec

end World

theorem Router.contacts_ids {r : Router} (h : r.Backed members b n) :
    (∀ contact ∈ r.contacts, contact.id ≠ n) ∧
      (r.contacts.map ClusterNode.id).Sublist (memberIds members) := by
  constructor
  · intro contact hc
    rw [contacts, List.mem_filter] at hc
    have hne := hc.2
    simp only [Bool.not_eq_true', Bool.or_eq_false_iff, decide_eq_false_iff_not, h.localId] at hne
    exact hne.1
  · rw [memberIds, ← h.allNodes]
    exact (List.filter_sublist).map _

theorem Task.backed_of_writes {task : Task} (h : task.Writes) : task.Backed b := by
  obtain ⟨node, work⟩ := task
  rcases h with ⟨request, hw⟩ | ⟨request, hw⟩
  · cases hw
    trivial
  · cases hw
    trivial

theorem Task.backed_of_step {work work' : Work} {now : Int} {t : KVServer}
    (h : work.step now s = some (t, work')) (node : Str) : Task.Backed b ⟨node, some work'⟩ := by
  cases work' with
  | arrived request => exact absurd rfl (Work.step_ne_arrived h request)
  | _ => trivial

theorem Task.Backed.outlive {task : Task} (h : task.Backed b) (node : Str) :
    (World.Task.outlive node task).Backed b := by
  rw [World.Task.outlive]
  split
  · exact h
  · exact h
  · exact h
  · split
    · trivial
    · exact h

namespace Job

variable {w : World} {tasks : List Task}

theorem backed_of_writes {job : Job} (h : job.Writes) : job.Backed members b tasks n := by
  cases job with
  | stood _ => cases h
  | canvass _ _ _ _ _ => cases h
  | polling _ _ _ _ _ _ => cases h
  | elected _ => cases h
  | beating _ _ => cases h
  | listening _ _ _ => cases h
  | _ => trivial

/-- The thread counts the answer of the node it has asked last. -/
theorem countVote_backed {r : Router} {term lastLogIndex lastLogTerm : Int} {voters : List Str}
    {contact : Str} {rest : List ClusterNode} {reply : Option RaftReply}
    (hall : r.allNodes = members)
    (hc : Canvass members b n term voters (contact :: rest.map ClusterNode.id))
    (hreply : ∀ vote, reply = some (.vote vote) → vote.granted = true → b.Voted contact term n) :
    (World.countVote r term lastLogIndex lastLogTerm voters.length rest reply).Backed members b
      tasks n := by
  have goon : ∀ voters', Canvass members b n term voters' (rest.map ClusterNode.id) →
      (if r.majoritySize ≤ voters'.length then elected term
        else canvass term lastLogIndex lastLogTerm voters'.length rest).Backed members b
          tasks n := by
    intro voters' hc'
    split
    · next hlen =>
      rw [Router.majoritySize, hall] at hlen
      exact hc'.majority hlen
    · exact ⟨voters', rfl, hc'⟩
  unfold World.countVote
  split
  · next vote =>
    split
    · trivial
    · cases hg : vote.granted with
      | true => exact goon (contact :: voters) (hc.count (hreply vote rfl hg))
      | false => exact goon voters hc.skip
  · exact goon voters hc.skip

/-- The answer a thread gets is the one of the node it has asked. -/
theorem answer_granted {term : Int} {contact : Str} {task : Nat} {lost : Bool}
    {reply : Option RaftReply} (h : Polled b n term contact w.tasks[task]?)
    (ha : w.answer lost task = some reply) {vote : Router.VoteReply}
    (hreply : reply = some (.vote vote)) (hg : vote.granted = true) :
    b.Voted contact term n := by
  subst hreply
  rw [World.answer] at ha
  split at ha
  · cases ha
  · obtain ⟨r, hr, heq⟩ := Option.map_eq_some_iff.mp ha
    injection heq with heq
    subst heq
    rw [World.reply?] at hr
    generalize w.tasks[task]? = found at h hr
    cases h with
    | asked lastLogIndex lastLogTerm => cases hr
    | answered vote' h =>
      cases hr
      exact h hg

/-- A thread that moves is backed where it arrives, and so is what it sends. -/
theorem Goes.backed {job job' : Job} {sent : List Task} (hgo : job.Goes w n job' sent)
    (h : job.Backed members b w.tasks n) (hr : (w.servers n).router.Backed members b n)
    (hinv : Ballot.Inv (Majority (memberIds members)) b) (hids : (memberIds members).Nodup) :
    job'.Backed members b (w.tasks ++ sent) n ∧ ∀ task ∈ sent, task.Backed b := by
  have none_sent : ∀ task ∈ ([] : List Task), task.Backed b := fun task ht => by cases ht
  have one_sent : ∀ {x : Task}, x.Backed b → ∀ task ∈ [x], task.Backed b := fun hx task ht =>
    List.mem_singleton.mp ht ▸ hx
  cases hgo with
  | stood term =>
    obtain ⟨hw, hmem, hv⟩ := h
    obtain ⟨hne, hsub⟩ := Router.contacts_ids hr
    refine ⟨⟨[n], rfl, ⟨hw, List.mem_singleton_self n, ?_, ?_, ?_⟩⟩, none_sent⟩
    · intro v hmem
      rw [List.mem_singleton.mp hmem]
      exact hv
    · refine List.nodup_cons.mpr ⟨fun hn => ?_, hids.sublist hsub⟩
      obtain ⟨contact, hc, heq⟩ := List.mem_map.mp hn
      exact hne contact hc heq
    · exact List.cons_subset.mpr ⟨hmem, hsub.subset⟩
  | ask term lastLogIndex lastLogTerm votes contact rest =>
    obtain ⟨voters, hlen, hc⟩ := h
    refine ⟨⟨voters, contact.id, hlen, hc, ?_⟩, one_sent ⟨hc.word, ?_, hc.not_asked⟩⟩
    · rw [List.getElem?_concat_length]
      exact .asked lastLogIndex lastLogTerm
    · exact hinv.cand_le n term n (hc.voted n hc.own)
  | count term lastLogIndex lastLogTerm votes rest task lost reply ha =>
    obtain ⟨voters, contact, rfl, hc, hp⟩ := h
    exact ⟨countVote_backed hr.allNodes hc fun vote => answer_granted hp ha, none_sent⟩
  | elected term => exact ⟨trivial, none_sent⟩
  | lead router hlead =>
    rw [Router.beginHeartbeats] at hlead
    split at hlead
    · next hrole =>
      injection hlead with hlead
      rw [← hlead]
      have hled := hinv.leading n (by rw [hr.role, hrole]; rfl)
      rw [hr.term] at hled
      exact ⟨⟨hled, (Router.contacts_ids hr).1⟩, none_sent⟩
    · cases hlead
  | beat term contact rest =>
    obtain ⟨hled, hne⟩ := h
    have hcontact : contact.id ≠ n := hne contact (List.mem_cons_self ..)
    exact ⟨⟨hled, fun c hc => hne c (List.mem_cons_of_mem _ hc)⟩,
      one_sent ⟨hled, hcontact.symm⟩⟩
  | hear term rest task reply =>
    refine ⟨?_, none_sent⟩
    unfold World.heardBeat
    split
    · split
      · trivial
      · exact h
    · exact h
  | finish => exact ⟨trivial, none_sent⟩
  | write _ _ _ _ h' hsent =>
    exact ⟨backed_of_writes h', fun task ht => Task.backed_of_writes (hsent task ht)⟩

end Job

namespace World

variable {w w' : World} {e : ClusterEvent}

/-- The threads and the requests stay backed, wherever the protocol has moved
to with the section the event runs. -/
theorem Tallied.step (h : w.Tallied members b) (hids : (memberIds members).Nodup)
    (hkept : w.VoteKept e w') (hs : w.step e = some w') {m : Str}
    (hf : Follows (Majority (memberIds members)) m b b')
    (hservers : ∀ n, (w'.servers n).router.Backed members b' n)
    (hrec : ∀ node now sec, w.section? e = some (node, now, sec) →
      sec.Recorded b' node (w.servers node)) : w'.Tallied members b' := by
  obtain ⟨hmembers, hturns⟩ := step_turns hs
  have old : ∀ x ∈ w.jobs, ∀ sent, x.2.Backed members b' (w.tasks ++ sent) x.1 :=
    fun x hx sent => (h.jobs x hx).mono hf fun _ _ _ hp => (hp.mono hf).append sent
  have old' : ∀ x ∈ w.jobs, x.2.Backed members b' w.tasks x.1 :=
    fun x hx => (h.jobs x hx).mono hf fun _ _ _ hp => hp.mono hf
  have oldTask : ∀ task ∈ w.tasks, task.Backed b' := fun task ht => (h.tasks task ht).mono hf
  -- a thread that an event starts
  have spawned : ∀ {node job}, w'.tasks = w.tasks → w'.jobs = w.jobs ++ [(node, job)] →
      job.Backed members b' w.tasks node → w'.Tallied members b' := by
    intro node job ht hj hjob
    refine ⟨hf.inv Majority.meet h.inv, hmembers.trans h.shared, hservers, ?_, ?_⟩
    · rw [ht]
      exact oldTask
    · intro x hx
      rw [hj] at hx
      rw [ht]
      rcases List.mem_append.mp hx with hx | hx
      · exact old' x hx
      · rw [List.mem_singleton.mp hx]
        exact hjob
  cases e with
  | election node =>
    obtain ⟨hmem, ht, hj⟩ := hturns
    rw [h.shared] at hmem
    exact spawned ht hj ⟨hkept, hmem, hrec node 0 .beginElection rfl⟩
  | heartbeat node =>
    obtain ⟨ht, hj⟩ := hturns
    exact spawned ht hj trivial
  | write node request =>
    obtain ⟨ht, hj⟩ := hturns
    exact spawned ht hj trivial
  | job i now lost alive =>
    obtain ⟨node, job, job', sent, hjob, hgo, ht, hj⟩ := hturns
    obtain ⟨hb, hsent⟩ := hgo.backed (h.jobs _ (List.mem_of_getElem? hjob)) (h.servers node)
      h.inv hids
    refine ⟨hf.inv Majority.meet h.inv, hmembers.trans h.shared, hservers, ?_, ?_⟩
    · intro task hmem
      rw [ht] at hmem
      rcases List.mem_append.mp hmem with hmem | hmem
      · exact oldTask task hmem
      · exact (hsent task hmem).mono hf
    · intro x hx
      rw [hj] at hx
      rw [ht]
      rcases List.mem_or_eq_of_mem_set hx with hx | rfl
      · exact old x hx sent
      · exact hb.mono hf fun _ _ _ hp => hp.mono hf
  | task i now =>
    obtain ⟨node, work, s, work', htask, hwork, ht, hj⟩ := hturns
    refine ⟨hf.inv Majority.meet h.inv, hmembers.trans h.shared, hservers, ?_, ?_⟩
    · intro task hmem
      rw [ht] at hmem
      rcases List.mem_or_eq_of_mem_set hmem with hmem | rfl
      · exact oldTask task hmem
      · exact Task.backed_of_step hwork node
    · intro x hx
      rw [hj] at hx
      rw [ht]
      refine (h.jobs x hx).mono hf fun _ _ _ hp => hp.turn hf htask hwork fun sec hsec => ?_
      refine hrec node now sec ?_
      rw [section?, htask]
      exact Option.map_eq_some_iff.mpr ⟨sec, hsec, rfl⟩
  | restart node now =>
    obtain ⟨ht, hj⟩ := hturns
    refine ⟨hf.inv Majority.meet h.inv, hmembers.trans h.shared, hservers, ?_, ?_⟩
    · intro task hmem
      rw [ht] at hmem
      obtain ⟨task, hold, rfl⟩ := List.mem_map.mp hmem
      exact (oldTask task hold).outlive node
    · intro x hx
      rw [hj] at hx
      rw [ht]
      obtain ⟨x, hold, rfl⟩ := List.mem_map.mp hx
      rw [endJobs]
      split
      · trivial
      · exact (h.jobs x hold).mono hf fun _ _ _ hp => (hp.mono hf).outlive node

theorem Tallied.next (h : w.Tallied members b) (hids : (memberIds members).Nodup)
    (hkept : w.VoteKept e w') (hs : w.step e = some w') (d : V) (d' : R) :
    ∃ b' m, Follows (Majority (memberIds members)) m b b' ∧ w'.Tallied members b' := by
  obtain ⟨b', m, hf, hservers, hrec⟩ := h.follow hkept hs d d'
  exact ⟨b', m, hf, h.step hids hkept hs hf hservers hrec⟩

/-- The node leads the term. -/
def Leads (w : World) (n : Str) (term : Int) : Prop :=
  (w.servers n).router.role = .leader ∧ (w.servers n).router.currentTerm = term

instance (w : World) (n : Str) (term : Int) : Decidable (w.Leads n term) :=
  inferInstanceAs (Decidable (_ ∧ _))

theorem Tallied.leads_iff (h : w.Tallied members b) {n : Str} {term : Int} :
    w.Leads n term ↔ b.role n = .leader ∧ b.term n = term := by
  rw [Leads, (h.servers n).role, (h.servers n).term, RaftRole.ballot_leader]

theorem tallied_start (members : List ClusterNode) (store : Str → Store) (threshold : Str → Int) :
    (start members store threshold).Tallied members
      (Ballot.State.start 0 : Ballot.State Str Int V R) where
  inv := Ballot.Inv.start 0
  shared := rfl
  servers n :=
    { localId := rfl, allNodes := rfl, term := rfl, role := rfl, word := Or.inl rfl
      voted := fun c hc => absurd hc (Ballot.not_voted_start 0)
      own := fun hr => absurd rfl hr, filed := fun _ => rfl }
  tasks _ ht := by cases ht
  jobs _ hx := by cases hx

/-- What a run of the cluster has passed through, the protocol remembers.
`I` is whatever else the steps keep. -/
theorem exists_tally {members : List ClusterNode} (hids : (memberIds members).Nodup)
    (store : Str → Store) (threshold : Str → Int) {I : World → Tally → Prop}
    {C : World → ClusterEvent → World → Prop} (hC : ∀ w e w', C w e w' → VoteKept w e w')
    (hI : ∀ w e w' b b' m, w.Tallied members b → w'.Tallied members b' →
      Follows (Majority (memberIds members)) m b b' → step w e = some w' → C w e w' →
      I w b → I w' b')
    (h : I (start members store threshold) (Ballot.State.start 0)) {es : List ClusterEvent}
    (hrun : Runs.run step (start members store threshold) es = some w)
    (hkept : Runs.Always step C (start members store threshold) es) :
    ∃ b : Tally, w.Tallied members b ∧ I w b ∧ ∀ n term, b.Led n term ↔
      Runs.Passes step (·.Leads n term) (start members store threshold) es := by
  have held : ∀ (w : World) (b : Tally) (p : Str × Int), w.Tallied members b ∧ I w b →
      w.Leads p.1 p.2 → b.Led p.1 p.2 := by
    intro w b p hw hp
    obtain ⟨hrole, hterm⟩ := hw.1.leads_iff.mp hp
    exact hterm ▸ hw.1.inv.leading p.1 hrole
  have matched : ∀ w e w' (b : Tally), w.Tallied members b ∧ I w b → step w e = some w' →
      C w e w' → ∃ b' : Tally, (w'.Tallied members b' ∧ I w' b') ∧
        (∀ p : Str × Int, b.Led p.1 p.2 → b'.Led p.1 p.2) ∧
        ∀ p : Str × Int, b'.Led p.1 p.2 → b.Led p.1 p.2 ∨ w'.Leads p.1 p.2 := by
    intro w e w' b hw hs hc
    obtain ⟨b', m, hf, hw'⟩ := hw.1.next hids (hC w e w' hc) hs () ()
    refine ⟨b', ⟨hw', hI w e w' b b' m hw.1 hw' hf hs hc hw.2⟩, fun p => hf.led, fun p hp => ?_⟩
    rcases hf.won p.1 p.2 hp with hp | ⟨hm, hrole, hterm⟩
    · exact Or.inl hp
    · rw [← hm] at hrole hterm
      exact Or.inr (hw'.leads_iff.mpr ⟨hrole, hterm⟩)
  obtain ⟨b, hb, hled⟩ := Runs.exists_history held matched
    ⟨tallied_start members store threshold, h⟩ hrun hkept
  exact ⟨b, hb.1, hb.2, fun n term =>
    (hled (n, term)).trans (or_iff_right (Ballot.not_led_start 0))⟩

end World

open World

/-- No two nodes ever lead one term. -/
theorem election_safety (members : List ClusterNode)
    (hids : (members.map ClusterNode.id).Nodup) (store : Str → Store) (threshold : Str → Int)
    (es : List ClusterEvent)
    (hkept : Runs.Always World.step VoteKept (start members store threshold) es) (term : Int)
    (n m : Str)
    (hn : Runs.Passes World.step (·.Leads n term) (start members store threshold) es)
    (hm : Runs.Passes World.step (·.Leads m term) (start members store threshold) es) :
    n = m := by
  have later : ∀ {n m : Str} {pre pre' : List ClusterEvent} {w w' : World}, pre <+: pre' →
      pre' <+: es → Runs.run World.step (start members store threshold) pre = some w →
      w.Leads n term → Runs.run World.step (start members store threshold) pre' = some w' →
      w'.Leads m term → n = m := by
    intro n m pre pre' w w' hpre hpre' hw hn hw' hm
    obtain ⟨b, hb, -, hled⟩ := exists_tally hids store threshold (I := fun _ _ => True)
      (fun _ _ _ hc => hc) (fun _ _ _ _ _ _ _ _ _ _ _ _ => trivial) trivial hw'
      (Runs.always_of_prefix hkept hpre')
    exact hb.inv.led_unique ((hled n term).mpr ⟨pre, w, hpre, hw, hn⟩)
      ((hled m term).mpr ⟨pre', w', List.prefix_refl _, hw', hm⟩)
  obtain ⟨pre, w, hpre, hw, hn⟩ := hn
  obtain ⟨pre', w', hpre', hw', hm⟩ := hm
  rcases List.prefix_or_prefix_of_prefix hpre hpre' with h | h
  · exact later h hpre' hw hn hw' hm
  · exact (later h hpre hw' hm hw hn).symm

/-! Of three nodes, the one called `-` is elected with the vote of `b`, which
`b` has forgotten when it is started again. -/

namespace World

def dashMembers : List ClusterNode := [⟨dash, [], 1⟩, ⟨bytes ['b'], [], 2⟩, ⟨bytes ['c'], [], 3⟩]

def dashStart : World := start dashMembers (fun _ => .memory {}) fun _ => 0

/-- The first node asks `b`, and wins. -/
def electDash : List ClusterEvent :=
  [.election dash] ++ jobSteps 2 0 [] ++ taskSteps 1 0 ++ jobSteps 2 0 []

/-- `c` gets no answer from the first node, asks `b`, and wins. -/
def electNext : List ClusterEvent :=
  [.election (bytes ['c'])] ++ jobSteps 2 1 [] ++ [.job 1 0 true []] ++ jobSteps 1 1 [] ++
    taskSteps 1 2 ++ jobSteps 2 1 []

end World

theorem election_safety_dash :
    Runs.Always World.step VoteKept dashStart electDash ∧
      Runs.Passes World.step (·.Leads dash 1) dashStart electDash ∧
      ¬ Runs.Passes World.step (·.Leads (bytes ['c']) 1) dashStart electDash := by
  have hkept : Runs.Always World.step VoteKept dashStart electDash := by decide +kernel
  have hfirst : Runs.Passes World.step (·.Leads dash 1) dashStart electDash :=
    ⟨electDash, _, List.prefix_refl _, rfl, by decide +kernel⟩
  refine ⟨hkept, hfirst, fun hnext => ?_⟩
  have heq := election_safety dashMembers (by decide) (fun _ => .memory {}) _ electDash hkept 1
    dash (bytes ['c']) hfirst hnext
  exact absurd heq (by decide)

theorem vote_for_dash_is_forgotten :
    Runs.Passes World.step (·.Leads dash 1) dashStart
        (electDash ++ [.restart (bytes ['b']) 0] ++ electNext) ∧
      Runs.Passes World.step (·.Leads (bytes ['c']) 1) dashStart
        (electDash ++ [.restart (bytes ['b']) 0] ++ electNext) ∧
      dash ≠ bytes ['c'] ∧ (dashMembers.map ClusterNode.id).Nodup ∧
      (dashMembers.map ClusterNode.port).Nodup := by
  refine ⟨⟨electDash, _, ?_, rfl, by decide +kernel⟩, ⟨_, _, List.prefix_refl _, rfl, ?_⟩,
    by decide, by decide, by decide⟩
  · rw [List.append_assoc]
    exact List.prefix_append _ _
  · decide +kernel

end TinyKV
