import TinyKV.Proofs.Ring

/-!
# Forwarding to the owner of a key

Nodes may disagree on who is alive, and a forwarded request carries no hop
count. What keeps it from going round in circles is that every node knows
itself: the owner it computes has a virtual node that is met, going round
from the key, before any of its own. This order does not depend on a view,
so a request only ever moves forward in it.
-/

namespace TinyKV

open OrderedMap

namespace ConsistentHash

variable {hasher : Str → Nat} {nodes : List ClusterNode}

/-- The owner of a key has a virtual node that no virtual node of the view
comes before. -/
theorem ownerFor_build (hasher : Str → Nat) {nodes : List ClusterNode} {node : ClusterNode}
    (hnode : node ∈ nodes) (key : Str) :
    ∃ owner ∈ nodes, (build hasher nodes).ownerFor hasher key = some owner ∧
      ∃ i < virtualNodes, ∀ m ∈ nodes, ∀ j < virtualNodes,
        hasher (vnodeKey m.id j) = hasher (vnodeKey owner.id i) ∨
          Before (hasher key) (hasher (vnodeKey owner.id i)) (hasher (vnodeKey m.id j)) := by
  have hne : (build hasher nodes).ring.entries ≠ [] := by
    have hsome : 0 < virtualNodes := by decide
    obtain ⟨e, he, -⟩ := exists_mem_build hasher hnode hsome
    exact List.ne_nil_of_mem he
  obtain ⟨o, hnext, ho, hfirst⟩ := next_spec (build hasher nodes).ring (hasher key) hne
  obtain ⟨owner, howner, i, hi, rfl⟩ := mem_vnodes.mp (mem_vnodes_of_mem_build ho)
  refine ⟨owner, howner, by rw [ownerFor_eq, hnext]; rfl, i, hi, fun m hm j hj => ?_⟩
  obtain ⟨e, he, hpos⟩ := exists_mem_build hasher hm hj
  rw [← hpos]
  exact (hfirst e he).imp_left fun h => by rw [h]

end ConsistentHash

namespace Router

open ConsistentHash

/-- Going round from `p`, some virtual node of `a` is met before any of `b`. -/
def Nearer (hasher : Str → Nat) (p : Nat) (a b : Str) : Prop :=
  ∃ i < virtualNodes, ∀ j < virtualNodes,
    Before p (hasher (vnodeKey a i)) (hasher (vnodeKey b j))

theorem nearer_irrefl (hasher : Str → Nat) (p : Nat) (a : Str) : ¬ Nearer hasher p a a := by
  rintro ⟨i, hi, h⟩
  exact before_irrefl _ _ (h i hi)

theorem nearer_trans {hasher : Str → Nat} {p : Nat} {a b d : Str} (hab : Nearer hasher p a b)
    (hbd : Nearer hasher p b d) : Nearer hasher p a d := by
  obtain ⟨i, hi, h⟩ := hab
  obtain ⟨j, hj, h'⟩ := hbd
  exact ⟨i, hi, fun k hk => before_trans (h j hj) (h' k hk)⟩

/-- No two virtual nodes of different nodes share a position. -/
def CollisionFree (hasher : Str → Nat) (ids : Finset Str) : Prop :=
  ∀ a ∈ ids, ∀ b ∈ ids, a ≠ b → ∀ i < virtualNodes, ∀ j < virtualNodes,
    hasher (vnodeKey a i) ≠ hasher (vnodeKey b j)

/-- What each node of a cluster holds for alive: any nodes of the cluster, and
always itself under its own id. -/
structure Views (ids : Finset Str) (view : Str → List ClusterNode) : Prop where
  inside : ∀ n ∈ ids, ∀ node ∈ view n, node.id ∈ ids
  self : ∀ n ∈ ids, ∃ node ∈ view n, node.id = n

section Walk

variable {hasher : Str → Nat} {ids : Finset Str} {view : Str → List ClusterNode}

theorem isLocalOwner_of_forwardsTo {key n : Str} (h : forwardsTo hasher view key n = n) :
    isLocalOwner hasher (view n) n key = true := by
  rw [forwardsTo] at h
  rw [isLocalOwner]
  split
  · rfl
  · next owner ho =>
    rw [ho] at h
    exact decide_eq_true h

/-- One hop: to another node of the cluster that is nearer to the key, or
nowhere. -/
theorem forwardsTo_step (hview : Views ids view) (hfree : CollisionFree hasher ids) (key : Str)
    {n : Str} (hn : n ∈ ids) :
    forwardsTo hasher view key n ∈ ids ∧
      (forwardsTo hasher view key n = n ∨
        Nearer hasher (hasher key) (forwardsTo hasher view key n) n) := by
  obtain ⟨self, hself, hid⟩ := hview.self n hn
  obtain ⟨owner, howner, hfor, i, hi, hfirst⟩ := ownerFor_build hasher hself key
  have hto : forwardsTo hasher view key n = owner.id := by rw [forwardsTo, hfor]
  have hin := hview.inside n hn owner howner
  rw [hto]
  refine ⟨hin, ?_⟩
  by_cases heq : owner.id = n
  · exact Or.inl heq
  · refine Or.inr ⟨i, hi, fun j hj => ?_⟩
    have h := hfirst self hself j hj
    rw [hid] at h
    exact h.resolve_left (hfree n hn owner.id hin (Ne.symm heq) j hj i hi)

/-- From every node a request reaches, in fewer hops than there are nodes, a
node that considers itself the owner. -/
theorem forwardsTo_reaches_owner (hview : Views ids view) (hfree : CollisionFree hasher ids)
    (key : Str) {n : Str} (hn : n ∈ ids) :
    ∃ hops < ids.card,
      isLocalOwner hasher (view ((forwardsTo hasher view key)^[hops] n))
        ((forwardsTo hasher view key)^[hops] n) key = true := by
  obtain ⟨hops, hlt, hfix⟩ := exists_fixed_of_descends (r := Nearer hasher (hasher key))
    (nearer_irrefl hasher _) (fun _ _ _ => nearer_trans)
    (fun n hn => (forwardsTo_step hview hfree key hn).1)
    (fun n hn => (forwardsTo_step hview hfree key hn).2) hn
  exact ⟨hops, hlt, isLocalOwner_of_forwardsTo hfix⟩

/-- What the pings answer does not matter: a cluster whose nodes know each
other and themselves has such views. -/
theorem views_aliveNodes {r : Str → Router} {localNode : Str → ClusterNode}
    (hid : ∀ n ∈ ids, (r n).localId = n)
    (hknown : ∀ n ∈ ids, ∀ node ∈ (r n).allNodes, node.id ∈ ids)
    (hself : ∀ n ∈ ids, ∃ node ∈ (r n).allNodes, node.id = n)
    (pingNode : Str → ClusterNode → Bool) :
    Views ids fun n => (r n).aliveNodes (localNode n) (pingNode n) := by
  have nonempty : ∀ n ∈ ids, ∃ node ∈ (r n).allNodes.filter fun node =>
      decide (node.id = (r n).localId) || decide (node.port = (r n).localPort) ||
        pingNode n node, node.id = n := by
    intro n hn
    obtain ⟨node, hmem, hnode⟩ := hself n hn
    exact ⟨node, List.mem_filter.mpr ⟨hmem, by simp [hid n hn, hnode]⟩, hnode⟩
  have same : ∀ n ∈ ids, (r n).aliveNodes (localNode n) (pingNode n) =
      (r n).allNodes.filter fun node =>
        decide (node.id = (r n).localId) || decide (node.port = (r n).localPort) ||
          pingNode n node := by
    intro n hn
    obtain ⟨node, hmem, -⟩ := nonempty n hn
    exact if_neg (List.ne_nil_of_mem hmem)
  constructor
  · intro n hn node hnode
    rw [same n hn] at hnode
    exact hknown n hn node (List.mem_filter.mp hnode).1
  · intro n hn
    rw [same n hn]
    exact nonempty n hn

end Walk

/-- Two nodes, of which the second holds the first for dead. -/
def twoIds : Finset Str := {bytes ['a'], bytes ['b']}

def twoViews (n : Str) : List ClusterNode :=
  if n = bytes ['a'] then [⟨bytes ['a'], [], 1⟩, ⟨bytes ['b'], [], 2⟩] else [⟨bytes ['b'], [], 2⟩]

theorem forwardsTo_reaches_owner_two :
    ∃ hops < twoIds.card,
      isLocalOwner firstByte
        (twoViews ((forwardsTo firstByte twoViews (bytes ['b']))^[hops] (bytes ['a'])))
        ((forwardsTo firstByte twoViews (bytes ['b']))^[hops] (bytes ['a'])) (bytes ['b'])
          = true := by
  have hview : Views twoIds twoViews := ⟨by decide, by decide⟩
  have hfree : CollisionFree firstByte twoIds := by
    intro a ha b hb hne i _ j _
    simp only [twoIds, Finset.mem_insert, Finset.mem_singleton] at ha hb
    rcases ha with rfl | rfl <;> rcases hb with rfl | rfl
    · exact absurd rfl hne
    · exact (by decide : (97 : Nat) ≠ 98)
    · exact (by decide : (98 : Nat) ≠ 97)
    · exact absurd rfl hne
  exact forwardsTo_reaches_owner hview hfree (bytes ['b']) (by decide)

end Router

end TinyKV
