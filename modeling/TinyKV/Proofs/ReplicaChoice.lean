import Mathlib.Data.List.Rotate
import TinyKV.Proofs.Ring

/-!
# The replicas of a key

`replicas_for` sorts the nodes held for alive by id, finds the owner among them
and walks on from there, around the end of the list, until it has as many nodes
as it wants or has seen them all. Turned so that the owner is in front, the
sorted list has the nodes to choose from behind it: with different ids none of
them is the owner, and the result is the front of that list.
-/

namespace TinyKV

namespace Router

variable {hasher : Str → Nat} {alive alive' : List ClusterNode} {localId key : Str}

/-! ## The sorted list -/

theorem sortById_perm (nodes : List ClusterNode) : (sortById nodes).Perm nodes :=
  List.mergeSort_perm nodes _

theorem sortById_sorted (nodes : List ClusterNode) :
    (sortById nodes).Pairwise fun a b => a.id ≤ b.id := by
  have hle : ∀ a b : ClusterNode, (!decide (b.id < a.id)) = true ↔ a.id ≤ b.id := by
    intro a b
    rw [Bool.not_eq_true', decide_eq_false_iff_not]
    exact Iff.rfl
  refine (List.pairwise_mergeSort ?_ ?_ nodes).imp fun h => (hle _ _).1 h
  · intro a b c hab hbc
    rw [hle] at hab hbc ⊢
    exact List.le_trans hab hbc
  · intro a b
    rw [Bool.or_eq_true, hle, hle]
    exact List.le_total a.id b.id

/-- With different ids the sorted list is that of the set. -/
theorem sortById_reorder (hdistinct : (alive.map ClusterNode.id).Nodup)
    (hperm : alive.Perm alive') : sortById alive' = sortById alive := by
  have hsame : (sortById alive').Perm (sortById alive) :=
    (sortById_perm alive').trans (hperm.symm.trans (sortById_perm alive).symm)
  refine hsame.eq_of_pairwise ?_ (sortById_sorted alive') (sortById_sorted alive)
  intro a b ha hb hab hba
  have ha' := (hperm.trans (sortById_perm alive').symm).mem_iff.2 ha
  have hb' := (sortById_perm alive).mem_iff.1 hb
  exact List.inj_on_of_nodup_map hdistinct ha' hb' (List.le_antisymm hab hba)

/-! ## The loop -/

/-- From offset `k` on, with the turned list's rest as the nodes to come. -/
theorem replicaLoop_eq {sorted : List ClusterNode} {ownerIndex target : Nat}
    {rest : List ClusterNode} (hne : ∀ node ∈ rest, node.id ≠ localId) {k : Nat}
    (hrest : (sorted.rotate ownerIndex).drop k = rest) (replicas : List ClusterNode) :
    replicaLoop localId sorted ownerIndex target (List.range' k rest.length) replicas =
      replicas ++ rest.take (target - replicas.length) := by
  induction rest generalizing k replicas with
  | nil => simp [replicaLoop]
  | cons node rest ih =>
    obtain ⟨hnode, hne⟩ := List.forall_mem_cons.1 hne
    have hat : (sorted.rotate ownerIndex)[k]? = some node := by
      have hhead := congrArg List.head? hrest
      rwa [List.head?_drop] at hhead
    have hk : k < sorted.length := by
      have := (List.getElem?_eq_some_iff.1 hat).1
      rwa [List.length_rotate] at this
    rw [List.getElem?_rotate hk, Nat.add_comm] at hat
    have htail : (sorted.rotate ownerIndex).drop (k + 1) = rest := by
      rw [← List.drop_drop, hrest]
      rfl
    rw [List.length_cons, List.range'_succ, replicaLoop]
    by_cases hfull : replicas.length < target
    · rw [if_pos hfull, hat]
      simp only [hnode, ne_eq, not_false_eq_true, if_true]
      rw [ih hne htail]
      have hcount : target - replicas.length = target - (replicas ++ [node]).length + 1 := by
        simp only [List.length_append, List.length_singleton]
        omega
      rw [hcount, List.take_succ_cons, List.append_assoc]
      rfl
    · have hzero : target - replicas.length = 0 := by omega
      rw [if_neg hfull, hzero, List.take_zero, List.append_nil]

/-! ## The choice -/

/-- The owner, and then the nodes to choose from. -/
theorem rotate_owner {sorted : List ClusterNode} (hdistinct : (sorted.map ClusterNode.id).Nodup)
    {owner : ClusterNode} (howner : owner ∈ sorted) :
    ∃ ownerIndex rest,
      sorted.findIdx? (fun node => decide (node.id = owner.id)) = some ownerIndex ∧
        sorted.rotate ownerIndex = owner :: rest ∧ ∀ node ∈ rest, node.id ≠ owner.id := by
  have hfound : (sorted.findIdx? fun node => decide (node.id = owner.id)).isSome = true := by
    rw [List.findIdx?_isSome, List.any_eq_true]
    exact ⟨owner, howner, by simp⟩
  obtain ⟨ownerIndex, hindex⟩ := Option.isSome_iff_exists.1 hfound
  obtain ⟨hlt, hid, -⟩ := List.findIdx?_eq_some_iff_getElem.1 hindex
  have hat : sorted[ownerIndex] = owner :=
    List.inj_on_of_nodup_map hdistinct (List.getElem_mem hlt) howner (by simpa using hid)
  have hturned : sorted.rotate ownerIndex =
      owner :: (sorted.drop (ownerIndex + 1) ++ sorted.take ownerIndex) := by
    rw [List.rotate_eq_drop_append_take (Nat.le_of_lt hlt), List.drop_eq_getElem_cons hlt, hat]
    rfl
  refine ⟨ownerIndex, _, hindex, hturned, ?_⟩
  intro node hnode heq
  have hnodup : ((sorted.rotate ownerIndex).map ClusterNode.id).Nodup :=
    ((List.rotate_perm sorted ownerIndex).map ClusterNode.id).nodup_iff.2 hdistinct
  rw [hturned, List.map_cons, List.nodup_cons] at hnodup
  exact hnodup.1 (heq ▸ List.mem_map_of_mem hnode)

/-- What the choice is: some nodes behind the owner in the turned list, as many
as asked for or as there are. -/
theorem replicasFor_eq {owner : ClusterNode} (hdistinct : (alive.map ClusterNode.id).Nodup)
    {replicationFactor : Int} (hfactor : 1 ≤ replicationFactor)
    (howner : (ConsistentHash.build hasher alive).ownerFor hasher key = some owner)
    (hlocal : owner.id = localId) :
    ∃ rest, (owner :: rest).Perm alive ∧
      replicasFor hasher true replicationFactor alive localId key =
        rest.take (replicationFactor - 1).toNat := by
  have hperm := sortById_perm alive
  have hsorted : ((sortById alive).map ClusterNode.id).Nodup :=
    (hperm.map ClusterNode.id).nodup_iff.2 hdistinct
  have hmem : owner ∈ sortById alive := hperm.mem_iff.2 (ConsistentHash.mem_of_ownerFor howner)
  obtain ⟨ownerIndex, rest, hindex, hturned, hne⟩ := rotate_owner hsorted hmem
  have hrest : (owner :: rest).Perm alive := hturned ▸ (List.rotate_perm _ _).trans hperm
  have hlength : (sortById alive).length - 1 = rest.length := by
    rw [hperm.length_eq, ← hrest.length_eq, List.length_cons, Nat.add_sub_cancel]
  refine ⟨rest, hrest, ?_⟩
  unfold replicasFor
  split
  · next hoff =>
    have hzero : (replicationFactor - 1).toNat = 0 := by
      have := hoff.resolve_left Bool.true_eq_false_eq_False
      omega
    rw [hzero, List.take_zero]
  · split
    · next hfew =>
      have hnil : rest = [] := by
        have := hrest.length_eq
        rw [List.length_cons] at this
        exact List.length_eq_zero_iff.1 (by omega)
      rw [hnil, List.take_nil]
    · simp only [howner, hindex, hlength]
      have hdrop : ((sortById alive).rotate ownerIndex).drop 1 = rest := by rw [hturned]; rfl
      rw [replicaLoop_eq (fun node hnode => hlocal ▸ hne node hnode) hdrop, List.nil_append,
        List.length_nil, Nat.sub_zero]
      exact (List.take_eq_take_min ..).symm

/-- Exactly as many replicas as wanted, or one on every other node: different
nodes of the view, none of them the owner, and the same for every view of the
same nodes. -/
theorem replicasFor_complete {owner : ClusterNode} (hdistinct : (alive.map ClusterNode.id).Nodup)
    {replicationFactor : Int} (hfactor : 1 ≤ replicationFactor)
    (howner : (ConsistentHash.build hasher alive).ownerFor hasher key = some owner)
    (hlocal : owner.id = localId) :
    (replicasFor hasher true replicationFactor alive localId key).length =
        min (replicationFactor - 1).toNat (alive.length - 1) ∧
      (replicasFor hasher true replicationFactor alive localId key).Nodup ∧
      (∀ node ∈ replicasFor hasher true replicationFactor alive localId key,
        node ∈ alive ∧ node.id ≠ owner.id) ∧
      (ConsistentHash.Separate hasher alive ConsistentHash.virtualNodes →
        ∀ alive', (alive'.map ClusterNode.id).Nodup → (∀ node, node ∈ alive' ↔ node ∈ alive) →
          replicasFor hasher true replicationFactor alive' localId key =
            replicasFor hasher true replicationFactor alive localId key) := by
  obtain ⟨rest, hperm, hchoice⟩ := replicasFor_eq hdistinct hfactor howner hlocal
  have hids : ((owner :: rest).map ClusterNode.id).Nodup :=
    (hperm.map ClusterNode.id).nodup_iff.2 hdistinct
  obtain ⟨hout, hrest⟩ := List.nodup_cons.1 hids
  refine ⟨?_, ?_, ?_, ?_⟩
  · rw [hchoice, List.length_take, ← hperm.length_eq, List.length_cons, Nat.add_sub_cancel]
  · rw [hchoice]
    exact (List.Nodup.of_map _ hrest).sublist (List.take_sublist _ _)
  · intro node hnode
    rw [hchoice] at hnode
    have hmem := List.mem_of_mem_take hnode
    refine ⟨hperm.mem_iff.1 (List.mem_cons_of_mem _ hmem), ?_⟩
    intro heq
    exact hout (heq ▸ List.mem_map_of_mem hmem)
  · intro hsep alive' hdistinct' hset
    have hsame : alive.Perm alive' :=
      (List.perm_ext_iff_of_nodup hdistinct.of_map hdistinct'.of_map).2 fun node => (hset node).symm
    unfold replicasFor
    rw [ConsistentHash.ownerFor_reorder hdistinct hsep hsame, sortById_reorder hdistinct hsame,
      hsame.length_eq]

/-- The owner of `b` among three nodes wants one replica, and gets one
whatever the order of the nodes. -/
theorem replicasFor_complete_three :
    let nodes := ConsistentHash.threeNodes
    let b := bytes ['b']
    (ConsistentHash.build firstByte nodes).ownerFor firstByte b = some ⟨b, [], 2⟩ ∧
      (replicasFor firstByte true 2 nodes b b).length = 1 ∧
      replicasFor firstByte true 2 nodes.reverse b b = replicasFor firstByte true 2 nodes b b := by
  intro nodes b
  have howner : (ConsistentHash.build firstByte nodes).ownerFor firstByte b = some ⟨b, [], 2⟩ := by
    decide +kernel
  have hdistinct : (nodes.map ClusterNode.id).Nodup := by decide
  have hfactor : (1 : Int) ≤ 2 := by decide
  obtain ⟨hlength, -, -, hview⟩ := replicasFor_complete hdistinct hfactor howner rfl
  refine ⟨howner, hlength, hview (ConsistentHash.separate_three _) _ (by decide) ?_⟩
  intro node
  exact List.mem_reverse

end Router

end TinyKV
