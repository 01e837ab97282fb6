import TinyKV.Model.Membership
import TinyKV.Proofs.Forwarding

/-!
# A node recognises itself

The router tells the local node from its peers in three ways: `init` by the id
or the address, a health check by the id or the port, the ownership test by
the id alone. They agree exactly if every peer that any of them could take
for the local node carries its id. A peer at the node's address under another
id owns keys that the node forwards to itself, and a peer with the node's
port on another host counts as alive without ever being pinged.
-/

namespace TinyKV.ClusterRouter

open ConsistentHash

variable {c : ClusterRouter} {config : ServerConfig}

/-- The node is reached at an address of the local node: one it listens on, or
the one `init` has found for it. -/
def AtLocalEndpoint (c : ClusterRouter) (config : ServerConfig) (node : ClusterNode) : Prop :=
  isLocalEndpoint node config = true ∨
    node.host = c.localNode.host ∧ node.port = c.localNode.port

structure KnowsItself (c : ClusterRouter) (config : ServerConfig) : Prop where
  one : c.aliveView.countP (fun node => decide (node.id = c.localId)) = 1
  others : ∀ node ∈ c.aliveView, ¬ c.AtLocalEndpoint config node → c.lastPing node = some true
  owner : ∀ hasher key owner, (build hasher c.aliveView).ownerFor hasher key = some owner →
    c.AtLocalEndpoint config owner →
      Router.isLocalOwner hasher c.aliveView c.localId key = true

/-- A configuration that is accepted, with a cluster of peers that differ in
their ids and in their addresses. -/
structure Admitted (config : ServerConfig) : Prop where
  valid : config.validate = true
  enabled : config.cluster.enabled = true
  ids : (config.cluster.peers.map ClusterPeerConfig.id).Nodup
  endpoints : (config.cluster.peers.map fun peer => (peer.host, peer.port)).Nodup

/-- From `init` on, through all health checks. -/
def RecognisesItself (config : ServerConfig) : Prop :=
  ∀ raftMeta booted now pingNode rounds, booted ≤ now →
    ((init config raftMeta booted now pingNode).refreshes rounds).KnowsItself config

/-! ## Keys at the local address -/

/-- Some hash function gives the node a key. -/
theorem exists_owned {nodes : List ClusterNode} {node : ClusterNode} (hnode : node ∈ nodes)
    (hdistinct : (nodes.map ClusterNode.id).Nodup) :
    ∃ hasher key, (build hasher nodes).ownerFor hasher key = some node := by
  -- the first virtual node comes first, everything else behind it
  let hasher : Str → Nat := fun s => if s = vnodeKey node.id 0 then 0 else 1
  have hfirst : hasher (vnodeKey node.id 0) = 0 := if_pos rfl
  obtain ⟨owner, howner, hfor, i, -, hmet⟩ := ownerFor_build hasher hnode (vnodeKey node.id 0)
  refine ⟨hasher, vnodeKey node.id 0, ?_⟩
  have hzero : hasher (vnodeKey owner.id i) = 0 := by
    have h := hmet node hnode 0 (by decide)
    rw [hfirst] at h
    rcases h with h | ⟨-, h⟩ | ⟨-, h⟩
    · exact h.symm
    · omega
    · omega
  have hkey : vnodeKey owner.id i = vnodeKey node.id 0 := by
    by_contra hne
    have hone : hasher (vnodeKey owner.id i) = 1 := if_neg hne
    omega
  rw [hfor, List.inj_on_of_nodup_map hdistinct howner hnode (vnodeKey_id hkey)]

theorem isLocalOwner_eq {hasher : Str → Nat} {nodes : List ClusterNode} {key localId : Str}
    {owner : ClusterNode} (h : (build hasher nodes).ownerFor hasher key = some owner) :
    Router.isLocalOwner hasher nodes localId key = decide (owner.id = localId) := by
  rw [Router.isLocalOwner, h]

/-- No key at a local address is forwarded, whatever the hash function, exactly
if the nodes alive there carry the local id. -/
theorem owner_iff (hdistinct : (c.aliveView.map ClusterNode.id).Nodup) :
    (∀ hasher key owner, (build hasher c.aliveView).ownerFor hasher key = some owner →
      c.AtLocalEndpoint config owner →
        Router.isLocalOwner hasher c.aliveView c.localId key = true) ↔
      ∀ node ∈ c.aliveView, c.AtLocalEndpoint config node → node.id = c.localId := by
  constructor
  · intro h node hnode hlocal
    obtain ⟨hasher, key, howner⟩ := exists_owned hnode hdistinct
    have hown := h hasher key node howner hlocal
    rw [isLocalOwner_eq howner] at hown
    exact of_decide_eq_true hown
  · intro h hasher key owner howner hlocal
    rw [isLocalOwner_eq howner]
    exact decide_eq_true (h owner (mem_of_ownerFor howner) hlocal)

/-! ## The members -/

theorem localNodeOf_id (config : ServerConfig) : (localNodeOf config).id = config.node.id := by
  rw [localNodeOf]
  split <;> rfl

theorem mem_allNodesOf {node : ClusterNode} (h : node ∈ allNodesOf config) :
    node ∈ peerNodes config ∨ node = localNodeOf config := by
  rw [allNodesOf] at h
  split at h
  · exact Or.inl h
  · exact (List.mem_append.mp h).imp_right List.mem_singleton.mp

theorem peerNodes_subset {node : ClusterNode} (h : node ∈ peerNodes config) :
    node ∈ allNodesOf config := by
  rw [allNodesOf]
  split
  · exact h
  · exact List.mem_append_left _ h

theorem allNodesOf_ids (h : Admitted config) :
    ((allNodesOf config).map ClusterNode.id).Nodup := by
  have hpeers : ((peerNodes config).map ClusterNode.id).Nodup := by
    rw [peerNodes, List.map_map]
    exact h.ids
  rw [allNodesOf]
  split
  · exact hpeers
  · next hnone =>
    rw [List.map_append, List.nodup_append]
    refine ⟨hpeers, List.nodup_singleton _, fun a ha b hb heq => ?_⟩
    obtain ⟨node, hnode, rfl⟩ := List.mem_map.mp ha
    have hno := List.find?_eq_none.mp hnone node hnode
    rw [List.map_singleton, localNodeOf_id, List.mem_singleton] at hb
    exact hno (by rw [heq, hb]; simp)

/-- The peers no check takes for the local node by mistake. -/
def Unambiguous (config : ServerConfig) : Prop :=
  ∀ node ∈ peerNodes config,
    isLocalEndpoint node config = true ∨ node.port = (localNodeOf config).port →
      node.id = config.node.id

section Unambiguous

variable (hpeers : Unambiguous config)
include hpeers

theorem localNodeOf_mem : localNodeOf config ∈ allNodesOf config := by
  cases hfind : findLocal config with
  | none => simp [allNodesOf, hfind]
  | some node =>
    have hmem : node ∈ peerNodes config := List.mem_of_find?_eq_some hfind
    have hfound := List.find?_some hfind
    have hid : node.id = config.node.id := by
      rcases Bool.or_eq_true _ _ ▸ hfound with hid | hlocal
      · exact of_decide_eq_true hid
      · exact hpeers node hmem (Or.inl hlocal)
    have hself : localNodeOf config = node := by
      rw [localNodeOf, hfind]
      simp only [← hid]
    rw [hself]
    exact peerNodes_subset hmem

theorem id_of_mem_allNodesOf {node : ClusterNode} (hnode : node ∈ allNodesOf config)
    (hlocal : isLocalEndpoint node config = true ∨ node.port = (localNodeOf config).port) :
    node.id = config.node.id := by
  rcases mem_allNodesOf hnode with hpeer | rfl
  · exact hpeers node hpeer hlocal
  · exact localNodeOf_id config

end Unambiguous

/-! ## Health checks -/

/-- What `init` sets once and a health check leaves alone. -/
structure Configured (c : ClusterRouter) (config : ServerConfig) : Prop where
  localId : c.localId = config.node.id
  localNode : c.localNode = localNodeOf config
  localPort : c.localPort = (localNodeOf config).port
  allNodes : c.allNodes = allNodesOf config

theorem configured_joinCluster (config : ServerConfig) (raftMeta : Option Str) (booted : Int) :
    (joinCluster config raftMeta booted).Configured config := ⟨rfl, rfl, rfl, rfl⟩

theorem Configured.refresh (h : c.Configured config) (now : Int)
    (pingNode : ClusterNode → Bool) : (c.refreshHealthIfNeeded now pingNode).Configured config := by
  rw [refreshHealthIfNeeded]
  split
  · exact ⟨h.localId, h.localNode, h.localPort, h.allNodes⟩
  · exact h

/-- A health check is made when it is due. -/
theorem refreshHealthIfNeeded_due {now : Int} (henabled : c.enabled = true)
    (hdue : c.healthCheckDue now = true) (pingNode : ClusterNode → Bool) :
    c.refreshHealthIfNeeded now pingNode =
      { c with
        lastHealthCheck := now
        aliveView := c.toRouter.aliveNodes c.localNode pingNode
        lastPing := fun node =>
          if c.pings node then some (pingNode node) else c.lastPing node } := by
  rw [refreshHealthIfNeeded, henabled, hdue]
  rfl

/-- If one of the members is alive, the view is made of members. -/
theorem aliveNodes_eq {r : Router} {localNode node : ClusterNode} {pingNode : ClusterNode → Bool}
    (hnode : node ∈ r.allNodes) (halive : node.id = r.localId ∨ pingNode node = true) :
    r.aliveNodes localNode pingNode = r.allNodes.filter fun node =>
      decide (node.id = r.localId) || decide (node.port = r.localPort) || pingNode node := by
  have hmem : node ∈ r.allNodes.filter fun node =>
      decide (node.id = r.localId) || decide (node.port = r.localPort) || pingNode node :=
    List.mem_filter.mpr ⟨hnode, by rcases halive with h | h <;> simp [h]⟩
  exact if_neg (List.ne_nil_of_mem hmem)

/-- The first health check is due at once. -/
theorem joinCluster_due (h : Admitted config) (raftMeta : Option Str) {booted now : Int}
    (htime : booted ≤ now) : (joinCluster config raftMeta booted).healthCheckDue now = true := by
  have hinterval : 0 ≤ config.cluster.healthCheckIntervalMs := by
    have hvalid := h.valid
    simp only [ServerConfig.validate, Bool.and_eq_true, decide_eq_true_eq] at hvalid
    omega
  show (!decide ((now - (booted - milliseconds config.cluster.healthCheckIntervalMs)).tdiv
    1000000 < config.cluster.healthCheckIntervalMs)) = true
  rw [Bool.not_eq_true', decide_eq_false_iff_not, milliseconds,
    Int.tdiv_eq_ediv_of_nonneg (by omega)]
  omega

theorem init_eq (h : Admitted config) (raftMeta : Option Str) (booted now : Int)
    (pingNode : ClusterNode → Bool) :
    init config raftMeta booted now pingNode =
      (joinCluster config raftMeta booted).refreshHealthIfNeeded now pingNode := by
  rw [init, if_pos h.enabled]

/-! ## The result -/

/-- One health check, under a configuration that leaves no doubt. -/
theorem KnowsItself.refresh (h : Admitted config) (hpeers : Unambiguous config)
    (hc : c.Configured config) (hknows : c.KnowsItself config) (now : Int)
    (pingNode : ClusterNode → Bool) :
    (c.refreshHealthIfNeeded now pingNode).KnowsItself config := by
  by_cases hdue : (c.enabled && c.healthCheckDue now) = true
  · obtain ⟨henabled, hdue⟩ := Bool.and_eq_true_iff.mp hdue
    have hself : c.localNode ∈ c.allNodes := by
      rw [hc.localNode, hc.allNodes]
      exact localNodeOf_mem hpeers
    have hid : c.localNode.id = c.localId := by
      rw [hc.localNode, hc.localId]
      exact localNodeOf_id config
    have hids : (c.allNodes.map ClusterNode.id).Nodup := by
      rw [hc.allNodes]
      exact allNodesOf_ids h
    have hlocal : ∀ node ∈ c.allNodes,
        isLocalEndpoint node config = true ∨ node.port = c.localPort → node.id = c.localId := by
      intro node hnode
      rw [hc.localId, hc.localPort]
      exact id_of_mem_allNodesOf hpeers (hc.allNodes ▸ hnode)
    have hport : c.localNode.port = c.localPort := by rw [hc.localNode, hc.localPort]
    rw [refreshHealthIfNeeded_due henabled hdue, aliveNodes_eq hself (Or.inl hid)]
    have hview : ((c.allNodes.filter fun node => decide (node.id = c.localId) ||
        decide (node.port = c.localPort) || pingNode node).map ClusterNode.id).Nodup :=
      hids.sublist (List.filter_sublist.map _)
    refine ⟨?_, ?_, ?_⟩
    · simp only [← hid]
      exact countP_id_eq_one (by simpa only [← hid] using hview)
        (List.mem_filter.mpr ⟨hself, by simp⟩)
    · intro node hnode helse
      obtain ⟨hnode, hwhy⟩ := List.mem_filter.mp hnode
      -- under its own id the node is at its own address
      have hother : node.id ≠ c.localId := by
        intro heq
        obtain rfl := List.inj_on_of_nodup_map hids hnode hself (heq.trans hid.symm)
        exact helse (Or.inr ⟨rfl, rfl⟩)
      have hport' : node.port ≠ c.localPort := fun heq =>
        hother (hlocal node hnode (Or.inr heq))
      have hping : c.pings node = true := by
        simp [pings, hnode, hother, hport, hport']
      simpa [hping, hother, hport'] using hwhy
    · refine (owner_iff hview).mpr fun node hnode hat => ?_
      refine hlocal node (List.mem_filter.mp hnode).1 (hat.imp_right fun hend => ?_)
      exact hend.2.trans hport
  · rw [refreshHealthIfNeeded, if_neg hdue]
    exact hknows

/-- Before the first health check the node is alone. -/
theorem knowsItself_joinCluster (raftMeta : Option Str) (booted : Int) :
    (joinCluster config raftMeta booted).KnowsItself config := by
  have hid := localNodeOf_id config
  refine ⟨?_, ?_, ?_⟩
  · simp [joinCluster, settings, hid]
  · intro node hnode helse
    obtain rfl := List.mem_singleton.mp hnode
    exact absurd (Or.inr ⟨rfl, rfl⟩) helse
  · have hdistinct : ([localNodeOf config].map ClusterNode.id).Nodup := List.nodup_singleton _
    refine (owner_iff hdistinct).mpr fun node hnode _ => ?_
    obtain rfl := List.mem_singleton.mp hnode
    exact hid

theorem KnowsItself.refreshes (h : Admitted config) (hpeers : Unambiguous config)
    (hc : c.Configured config) (hknows : c.KnowsItself config)
    (rounds : List (Int × (ClusterNode → Bool))) : (c.refreshes rounds).KnowsItself config := by
  induction rounds generalizing c with
  | nil => exact hknows
  | cons round rest ih =>
    exact ih (hc.refresh round.1 round.2) (hknows.refresh h hpeers hc round.1 round.2)

/-- A node recognises itself exactly if every peer with one of its addresses or
with its port carries its id. -/
theorem recognisesItself_iff (h : Admitted config) :
    RecognisesItself config ↔ Unambiguous config := by
  constructor
  · intro hrec node hnode hlocal
    have hc := configured_joinCluster config none 0
    -- with every ping answered all members are in the view
    have hknows := hrec none 0 0 (fun _ => true) [] le_rfl
    rw [init_eq h] at hknows
    have hdue := refreshHealthIfNeeded_due (c := joinCluster config none 0) h.enabled
      (joinCluster_due h none le_rfl) fun _ => true
    simp only [refreshes, List.foldl_nil, hdue] at hknows
    have hmember : node ∈ (joinCluster config none 0).allNodes := peerNodes_subset hnode
    have hall : (joinCluster config none 0).toRouter.aliveNodes (localNodeOf config)
        (fun _ => true) = allNodesOf config := by
      rw [aliveNodes_eq hmember (Or.inr rfl)]
      exact List.filter_eq_self.mpr fun _ _ => Bool.or_true _
    rw [hc.localNode, hall] at hknows
    by_cases hat : (joinCluster config none 0).AtLocalEndpoint config node
    · exact (owner_iff (allNodesOf_ids h)).mp hknows.owner node hmember hat
    · -- the port alone keeps the peer from being pinged
      have hport := hlocal.resolve_left fun hend => hat (Or.inl hend)
      have hnever : (joinCluster config none 0).pings node = false := by
        simp [pings, hport, hc.localNode]
      have hping := hknows.others node hmember hat
      simp only [hnever] at hping
      cases hping
  · intro hpeers raftMeta booted now pingNode rounds _
    rw [init_eq h]
    have hc := configured_joinCluster config raftMeta booted
    exact ((knowsItself_joinCluster raftMeta booted).refresh h hpeers hc now pingNode).refreshes
      h hpeers (hc.refresh now pingNode) rounds

/-- Two nodes, each at a port of its own. -/
def twoPorts : ServerConfig where
  node := { id := bytes ['a'], port := 1 }
  cluster := {
    enabled := true
    peers := [⟨bytes ['a'], bytes ['h'], 1⟩, ⟨bytes ['b'], bytes ['i'], 2⟩] }

theorem recognisesItself_iff_twoPorts :
    RecognisesItself twoPorts ↔ Unambiguous twoPorts :=
  recognisesItself_iff ⟨by decide, rfl, by decide, by decide⟩

/-- Two nodes at the same port of two hosts. -/
def twoHosts : ServerConfig where
  node := { id := bytes ['a'], port := 1 }
  cluster := {
    enabled := true
    peers := [⟨bytes ['a'], bytes ['h'], 1⟩, ⟨bytes ['b'], bytes ['i'], 1⟩] }

/-- Nobody answers a ping, and the other node is in the view: it was never
pinged. -/
theorem twoHosts_dead_peer_alive :
    Admitted twoHosts ∧
      (let c := init twoHosts none 0 0 fun _ => false
       ⟨bytes ['b'], bytes ['i'], 1⟩ ∈ c.aliveView ∧
        ¬ c.AtLocalEndpoint twoHosts ⟨bytes ['b'], bytes ['i'], 1⟩ ∧
        c.lastPing ⟨bytes ['b'], bytes ['i'], 1⟩ = none) ∧
      ¬ RecognisesItself twoHosts := by
  have hview : ⟨bytes ['b'], bytes ['i'], 1⟩ ∈
      (init twoHosts none 0 0 fun _ => false).aliveView := by
    decide
  have helse : ¬ (init twoHosts none 0 0 fun _ => false).AtLocalEndpoint twoHosts
      ⟨bytes ['b'], bytes ['i'], 1⟩ := by
    unfold AtLocalEndpoint
    decide
  have hping : (init twoHosts none 0 0 fun _ => false).lastPing ⟨bytes ['b'], bytes ['i'], 1⟩ =
      none := by
    decide
  refine ⟨⟨by decide, rfl, by decide, by decide⟩, ⟨hview, helse, hping⟩, fun hrec => ?_⟩
  have hsome := (hrec none 0 0 (fun _ => false) [] le_rfl).others _ hview helse
  rw [refreshes, List.foldl_nil, hping] at hsome
  cases hsome

/-- One node, whose address is listed under another id. -/
def misnamed : ServerConfig where
  node := { id := bytes ['a'], port := 1 }
  cluster := { enabled := true, peers := [⟨bytes ['b'], loopback, 1⟩] }

/-- Nobody in the view has the local id: the node forwards every request to
itself. -/
theorem misnamed_forwards_to_itself (hasher : Str → Nat) (key : Str) :
    Router.isLocalOwner hasher (init misnamed none 0 0 fun _ => true).aliveView
      (bytes ['a']) key = false := by
  have hview : (init misnamed none 0 0 fun _ => true).aliveView =
      [⟨bytes ['b'], loopback, 1⟩] := by
    decide
  have hmem : (⟨bytes ['b'], loopback, 1⟩ : ClusterNode) ∈
      [(⟨bytes ['b'], loopback, 1⟩ : ClusterNode)] := List.mem_cons_self
  obtain ⟨owner, howner, hfor, -⟩ := ownerFor_build hasher hmem key
  obtain rfl := List.mem_singleton.mp howner
  rw [hview, isLocalOwner_eq hfor]
  decide

end TinyKV.ClusterRouter
