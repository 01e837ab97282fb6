import TinyKV.Lib.OrderedMap
import TinyKV.Model.Router

/-!
# Which node owns a key

Without Raft a request is carried out by the owner of its key. Each node
computes the owner from a ring of virtual nodes, built from the nodes it
holds for alive, and forwards the request as it came if the owner is another
node. The hash function is `std::hash`, of which nothing is known; positions
on the ring are only ever compared.
-/

namespace TinyKV

open Text

/-- `node.id + "#" + std::to_string(i)`. -/
def vnodeKey (id : Str) (i : Nat) : Str := id ++ 35 :: showNat i

/-- `ConsistentHash`. -/
structure ConsistentHash where
  ring : OrderedMap Nat ClusterNode := {}

namespace ConsistentHash

/-- The default of the second argument of `build`, which no caller gives. -/
def virtualNodes : Nat := 64

/-- A negative number of virtual nodes is none, as `0` is. -/
def build (hasher : Str → Nat) (nodes : List ClusterNode) (count : Nat := virtualNodes) :
    ConsistentHash :=
  ⟨nodes.foldl (fun ring node =>
    (List.range count).foldl (fun ring i =>
      ring.emplace (hasher (vnodeKey node.id i)) node) ring) {}⟩

def ownerFor (hasher : Str → Nat) (h : ConsistentHash) (key : Str) : Option ClusterNode :=
  match h.ring.lowerBound (hasher key) with
  | some entry => some entry.2
  | none => h.ring.entries.head?.map Prod.snd

end ConsistentHash

namespace Router

/-- The nodes `refresh_health_if_needed` finds alive, by what `ping_node`
answers. -/
def aliveNodes (r : Router) (localNode : ClusterNode) (pingNode : ClusterNode → Bool) :
    List ClusterNode :=
  let alive := r.allNodes.filter fun node =>
    decide (node.id = r.localId) || decide (node.port = r.localPort) || pingNode node
  if alive = [] then [localNode] else alive

/-- `is_local_owner`, on the ring of the nodes held for alive. -/
def isLocalOwner (hasher : Str → Nat) (alive : List ClusterNode) (localId key : Str) : Bool :=
  match (ConsistentHash.build hasher alive).ownerFor hasher key with
  | none => true
  | some owner => owner.id = localId

/-- The node at which a request for the key arrives next: the owner in this
node's view. -/
def forwardsTo (hasher : Str → Nat) (view : Str → List ClusterNode) (key localId : Str) : Str :=
  match (ConsistentHash.build hasher (view localId)).ownerFor hasher key with
  | none => localId
  | some owner => owner.id

/-- `std::sort` by `id`. Ids that are equal are left as they come; `std::sort`
promises nothing about them. -/
def sortById (nodes : List ClusterNode) : List ClusterNode :=
  nodes.mergeSort fun a b => !decide (b.id < a.id)

/-- The loop of `replicas_for`, over the offsets it has still to look at. -/
def replicaLoop (localId : Str) (sorted : List ClusterNode) (ownerIndex target : Nat) :
    List Nat → List ClusterNode → List ClusterNode
  | [], replicas => replicas
  | offset :: offsets, replicas =>
    if replicas.length < target then
      match sorted[(ownerIndex + offset) % sorted.length]? with
      | none => replicas
      | some node =>
        replicaLoop localId sorted ownerIndex target offsets
          (if node.id ≠ localId then replicas ++ [node] else replicas)
    else replicas

/-- `replicas_for`, on the ring of the nodes held for alive. -/
def replicasFor (hasher : Str → Nat) (enabled : Bool) (replicationFactor : Int)
    (alive : List ClusterNode) (localId key : Str) : List ClusterNode :=
  if enabled = false ∨ replicationFactor ≤ 1 then []
  else if alive.length ≤ 1 then []
  else
    match (ConsistentHash.build hasher alive).ownerFor hasher key with
    | none => []
    | some owner =>
      let sorted := sortById alive
      match sorted.findIdx? fun node => decide (node.id = owner.id) with
      | none => []
      | some ownerIndex =>
        replicaLoop localId sorted ownerIndex
          (min (replicationFactor - 1).toNat (sorted.length - 1))
          (List.range' 1 (sorted.length - 1)) []

end Router

end TinyKV
