import TinyKV.Lib.Lists
import TinyKV.Model.Election
import TinyKV.Proofs.Ring

/-!
# Counting votes

The loop of `start_election` counts the votes of the members it asks. It
passes over every member with the port of the local node, whatever its host,
and it looks for a majority only after it has asked someone. So the tally is
that of the members it asks (`electionLoop_role`), and it is the tally of all
members exactly if there are two members at least and no other one has the
port of the local node.
-/

namespace TinyKV.Router

variable {r : Router} {term : Int} {ask : ClusterNode → Option VoteReply}
  {beat : ClusterNode → Option HeartbeatReply}

/-- The member votes for the candidate. -/
def grants (ask : ClusterNode → Option VoteReply) (node : ClusterNode) : Bool :=
  (ask node).any VoteReply.granted

/-- No answer comes from a later term. -/
structure NoLaterTerm (r : Router) (ask : ClusterNode → Option VoteReply)
    (beat : ClusterNode → Option HeartbeatReply) : Prop where
  votes : ∀ node ∈ r.allNodes, ∀ reply, ask node = some reply → reply.term ≤ r.currentTerm + 1
  beats : ∀ node ∈ r.allNodes, ∀ reply, beat node = some reply → reply.term ≤ r.currentTerm + 1

theorem heartbeatLoop_role {nodes : List ClusterNode}
    (h : ∀ node ∈ nodes, ∀ reply, beat node = some reply → reply.term ≤ term) :
    r.heartbeatLoop term beat nodes = r := by
  induction nodes with
  | nil => rfl
  | cons node rest ih =>
    have hrest := ih fun n hn => h n (List.mem_cons_of_mem _ hn)
    rw [heartbeatLoop]
    split
    · exact hrest
    · split
      · exact hrest
      · next reply hreply =>
        have hterm := h node List.mem_cons_self reply hreply
        rw [if_neg (by omega)]
        exact hrest

/-- A majority makes a candidate the leader, and its heartbeats leave it so. -/
theorem winElection_sendHeartbeats_role (hrole : r.role = .candidate)
    (h : ∀ node ∈ r.allNodes, ∀ reply, beat node = some reply → reply.term ≤ r.currentTerm) :
    ((r.winElection r.currentTerm).sendHeartbeats beat).role = .leader := by
  rw [winElection, if_pos ⟨hrole, rfl⟩, sendHeartbeats, beginHeartbeats, if_pos rfl]
  simp only
  rw [heartbeatLoop_role h]

/-- The tally of the loop: the votes it has and those of the members it asks. -/
theorem electionLoop_role (hrole : r.role = .candidate)
    (hbeats : ∀ node ∈ r.allNodes, ∀ reply, beat node = some reply → reply.term ≤ r.currentTerm)
    {nodes : List ClusterNode}
    (hvotes : ∀ node ∈ nodes, ∀ reply, ask node = some reply → reply.term ≤ r.currentTerm)
    (votes : Nat) :
    (r.electionLoop r.currentTerm ask beat votes nodes).role = .leader ↔
      (∃ node ∈ nodes, r.passedOver node = false) ∧
        r.majoritySize ≤
          votes + (nodes.filter fun node => !r.passedOver node).countP (grants ask) := by
  induction nodes generalizing votes with
  | nil => simp [electionLoop, hrole]
  | cons node rest ih =>
    have hrest := ih fun n hn => hvotes n (List.mem_cons_of_mem _ hn)
    rw [electionLoop]
    cases hover : r.passedOver node with
    | true =>
      rw [if_pos rfl, hrest votes]
      simp [hover]
    | false =>
      have hterm : (ask node).filter (fun reply => decide (r.currentTerm < reply.term)) =
          none := by
        rw [Option.filter_eq_none_iff]
        intro reply hreply
        have hle := hvotes node List.mem_cons_self reply hreply
        simpa using hle
      have hasked : ∃ n ∈ node :: rest, r.passedOver n = false :=
        ⟨node, List.mem_cons_self, hover⟩
      -- the vote of this member, counted now
      obtain ⟨votes', hvotes', hcount⟩ : ∃ votes',
          (if (ask node).any VoteReply.granted then votes + 1 else votes) = votes' ∧
            votes + ((node :: rest).filter fun n => !r.passedOver n).countP (grants ask) =
              votes' + (rest.filter fun n => !r.passedOver n).countP (grants ask) := by
        refine ⟨_, rfl, ?_⟩
        rw [List.filter_cons_of_pos (by simp [hover]), List.countP_cons, grants]
        split <;> omega
      rw [if_neg Bool.false_ne_true]
      simp only [hterm, hvotes', hcount]
      split
      · next hmajority =>
        rw [winElection_sendHeartbeats_role hrole hbeats]
        exact ⟨fun _ => ⟨hasked, by omega⟩, fun _ => rfl⟩
      · next hmajority =>
        rw [hrest votes']
        refine ⟨fun h => ⟨hasked, h.2⟩, fun h => ⟨?_, h.2⟩⟩
        -- a majority needs more votes, so someone is still to be asked
        by_contra hnone
        have hempty : rest.filter (fun n => !r.passedOver n) = [] := by
          rw [List.filter_eq_nil_iff]
          intro n hn hasks
          exact hnone ⟨n, hn, by simpa using hasks⟩
        have hle := h.2
        rw [hempty, List.countP_nil] at hle
        omega

/-- The members other than the local node. -/
def others (r : Router) : List ClusterNode := r.allNodes.filter fun node => node.id ≠ r.localId

/-- Whatever the members answer, short of a later term, the candidate leads
exactly if its vote and theirs make a majority. -/
def TallyExact (r : Router) : Prop :=
  ∀ ask beat, r.NoLaterTerm ask beat →
    ((r.startElection ask beat).role = .leader ↔
      r.majoritySize ≤ 1 + r.others.countP (grants ask))

theorem startElection_role (h : r.NoLaterTerm ask beat) :
    (r.startElection ask beat).role = .leader ↔
      (∃ node ∈ r.allNodes, r.passedOver node = false) ∧
        r.majoritySize ≤ 1 + r.contacts.countP (grants ask) :=
  electionLoop_role (r := r.beginElection) rfl h.beats h.votes 1

/-- The members that are asked are others. -/
theorem contacts_eq : r.contacts = r.others.filter fun node => node.port ≠ r.localPort := by
  rw [contacts, others, List.filter_filter]
  refine List.filter_congr fun node _ => ?_
  simp [Bool.and_comm]

section Membership

variable (hids : (r.allNodes.map ClusterNode.id).Nodup)
  (hself : ∃ node ∈ r.allNodes, node.id = r.localId)
include hids hself

theorem length_others : r.others.length + 1 = r.allNodes.length := by
  obtain ⟨self, hmem, hid⟩ := hself
  have hone := ConsistentHash.countP_id_eq_one hids hmem
  rw [hid] at hone
  have hsplit := List.length_eq_countP_add_countP
    (fun node : ClusterNode => decide (node.id = r.localId)) (l := r.allNodes)
  rw [hone] at hsplit
  rw [others, ← List.countP_eq_length_filter, hsplit]
  simp only [ne_eq, decide_not, decide_eq_true_eq]
  omega

/-- The tally is exact exactly if there is someone to ask and everybody else
is asked. -/
theorem tallyExact_iff :
    r.TallyExact ↔ 2 ≤ r.allNodes.length ∧ ∀ node ∈ r.others, node.port ≠ r.localPort := by
  have hlength := length_others hids hself
  constructor
  · intro hexact
    have htwo : 2 ≤ r.allNodes.length := by
      by_contra hlt
      have hempty : r.others = [] := List.length_eq_zero_iff.mp (by omega)
      -- nobody is asked, so nobody looks for a majority
      have hlater : r.NoLaterTerm (fun _ => none) (fun _ => none) := ⟨by simp, by simp⟩
      have hleads := (hexact _ _ hlater).mpr (by rw [majoritySize]; omega)
      obtain ⟨⟨node, hnode, hasked⟩, -⟩ := (startElection_role hlater).mp hleads
      have hcontact : node ∈ r.contacts := List.mem_filter.mpr ⟨hnode, by
        rw [passedOver] at hasked
        rw [hasked]
        rfl⟩
      rw [contacts_eq, hempty] at hcontact
      cases hcontact
    refine ⟨htwo, fun node hnode hport => ?_⟩
    have hnodup : r.others.Nodup := (List.Nodup.of_map _ hids).filter _
    obtain ⟨p, hp, hcount⟩ := List.exists_countP_eq hnodup hnode
      (show 1 ≤ r.allNodes.length / 2 by omega) (by omega)
    -- just enough votes, and one of them from a member that is not asked
    let ask : ClusterNode → Option VoteReply := fun node => some ⟨r.currentTerm, p node⟩
    have hgrants : grants ask = p := rfl
    have hlater : r.NoLaterTerm ask (fun _ => none) := by
      refine ⟨fun node _ reply hreply => ?_, by simp⟩
      obtain rfl := Option.some.inj hreply
      show r.currentTerm ≤ r.currentTerm + 1
      omega
    have hleads := (hexact ask _ hlater).mpr (by rw [hgrants, hcount, majoritySize]; omega)
    obtain ⟨-, hasked⟩ := (startElection_role hlater).mp hleads
    have hlost : r.contacts.countP p + 1 ≤ r.others.countP p := by
      have hsplit := List.countP_eq_countP_filter_add r.others p
        fun node => decide (node.port ≠ r.localPort)
      have hpos : 0 < (r.others.filter fun node => !decide (node.port ≠ r.localPort)).countP p :=
        List.countP_pos_iff.mpr ⟨node, List.mem_filter.mpr ⟨hnode, by simp [hport]⟩, hp⟩
      rw [contacts_eq, hsplit]
      simp only [decide_not, Bool.not_not] at hpos ⊢
      omega
    rw [hgrants, majoritySize] at hasked
    omega
  · rintro ⟨htwo, hports⟩ ask beat hlater
    have hall : r.contacts = r.others := by
      rw [contacts_eq]
      exact List.filter_eq_self.mpr fun node hnode => decide_eq_true (hports node hnode)
    have hsome : ∃ node ∈ r.allNodes, r.passedOver node = false := by
      have hne : r.contacts ≠ [] := by
        rw [hall]
        exact List.ne_nil_of_length_pos (by omega)
      obtain ⟨node, hnode⟩ := List.exists_mem_of_ne_nil _ hne
      obtain ⟨hmem, hasked⟩ := List.mem_filter.mp hnode
      exact ⟨node, hmem, by simpa [passedOver] using hasked⟩
    rw [startElection_role hlater, hall]
    exact ⟨fun h => h.2, fun h => ⟨hsome, h⟩⟩

end Membership

/-- Three members on one host. -/
def onePerPort : Router where
  localId := bytes ['a']
  localPort := 1
  allNodes := [⟨bytes ['a'], bytes ['h'], 1⟩, ⟨bytes ['b'], bytes ['h'], 2⟩,
    ⟨bytes ['c'], bytes ['h'], 3⟩]

theorem tallyExact_iff_onePerPort :
    onePerPort.TallyExact ↔
      2 ≤ onePerPort.allNodes.length ∧ ∀ node ∈ onePerPort.others, node.port ≠ 1 :=
  tallyExact_iff (by decide) (by decide)

/-- Three members on three hosts, at the same port of each. -/
def onePerHost : Router where
  localId := bytes ['a']
  localPort := 1
  allNodes := [⟨bytes ['a'], bytes ['h'], 1⟩, ⟨bytes ['b'], bytes ['i'], 1⟩,
    ⟨bytes ['c'], bytes ['j'], 1⟩]

/-- All members vote for the candidate, which does not ask any of them. -/
theorem onePerHost_never_leads :
    onePerHost.NoLaterTerm (fun _ => some ⟨1, true⟩) (fun _ => none) ∧
      onePerHost.majoritySize ≤ 1 + onePerHost.others.countP (grants fun _ => some ⟨1, true⟩) ∧
      (onePerHost.startElection (fun _ => some ⟨1, true⟩) fun _ => none).role = .candidate := by
  refine ⟨⟨fun node _ reply hreply => ?_, by simp⟩, by decide, by decide⟩
  obtain rfl := Option.some.inj hreply
  decide

end TinyKV.Router
