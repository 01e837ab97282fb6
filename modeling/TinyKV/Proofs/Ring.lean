import TinyKV.Model.ConsistentHash

/-!
# The ring of virtual nodes

`build` puts the virtual nodes of all nodes into an ordered map, and of two
that fall on one position the first stays. So the ring is known entry by
entry: a position belongs to the first node of the list that has a virtual
node there. The owner of a key is then the entry met first on the way round
from the hash of the key, and two rings are compared by their entries alone.

Without the nodes of one id the ring has fewer positions, and none of another
node changes hands, so a key that belonged to another node still does. In
which order the nodes are listed shows only where two of them share a
position.
-/

namespace TinyKV

open OrderedMap Text

/-- A hash that only looks at the first byte. -/
def firstByte (s : Str) : Nat := (s.headD 0).toNat

namespace ConsistentHash

variable {hasher : Str → Nat} {nodes nodes' : List ClusterNode} {count : Nat}

/-- The virtual nodes of a list of nodes, in the order `build` adds them. -/
def vnodes (hasher : Str → Nat) (nodes : List ClusterNode) (count : Nat) :
    List (Nat × ClusterNode) :=
  nodes.flatMap fun node =>
    (List.range count).map fun i => (hasher (vnodeKey node.id i), node)

variable {e : Nat × ClusterNode} {key x : Str}

theorem mem_vnodes :
    e ∈ vnodes hasher nodes count ↔
      ∃ node ∈ nodes, ∃ i < count, e = (hasher (vnodeKey node.id i), node) := by
  simp only [vnodes, List.mem_flatMap, List.mem_map, List.mem_range, eq_comm]

theorem build_eq (hasher : Str → Nat) (nodes : List ClusterNode) (count : Nat) :
    (build hasher nodes count).ring = ({} : OrderedMap Nat ClusterNode).emplaceAll
      (vnodes hasher nodes count) := by
  simp only [build, emplaceAll, vnodes, List.foldl_flatMap, List.foldl_map]

theorem ownerFor_eq (h : ConsistentHash) (key : Str) :
    h.ownerFor hasher key = (h.ring.next (hasher key)).map Prod.snd := by
  rw [ownerFor, OrderedMap.next]
  split
  · next e he => rw [he]; rfl
  · next he => rw [he]; rfl

theorem mem_build :
    e ∈ (build hasher nodes count).ring.entries ↔
      (vnodes hasher nodes count).find? (fun x => x.1 = e.1) = some e := by
  rw [build_eq, mem_emplaceAll_iff]
  simp

/-- Every virtual node has its position on the ring, if not as its own. -/
theorem exists_mem_build (hasher : Str → Nat) {node : ClusterNode} (hnode : node ∈ nodes)
    {i : Nat} (hi : i < count) :
    ∃ e ∈ (build hasher nodes count).ring.entries, e.1 = hasher (vnodeKey node.id i) := by
  rw [build_eq]
  exact exists_mem_emplaceAll _ (mem_vnodes.mpr ⟨node, hnode, i, hi, rfl⟩)

theorem mem_vnodes_of_mem_build (h : e ∈ (build hasher nodes count).ring.entries) :
    e ∈ vnodes hasher nodes count :=
  List.mem_of_find?_eq_some (mem_build.mp h)

theorem ownerFor_eq_none_iff :
    (build hasher nodes count).ownerFor hasher key = none ↔ nodes = [] ∨ count = 0 := by
  rw [ownerFor_eq, Option.map_eq_none_iff, next_eq_none_iff]
  constructor
  · intro hnil
    by_contra hno
    obtain ⟨hne, hcount⟩ := not_or.mp hno
    obtain ⟨node, hnode⟩ := List.exists_mem_of_ne_nil nodes hne
    obtain ⟨e, he, -⟩ := exists_mem_build hasher hnode (Nat.pos_of_ne_zero hcount)
    rw [hnil] at he
    cases he
  · intro hempty
    refine List.eq_nil_iff_forall_not_mem.mpr fun e he => ?_
    obtain ⟨node, hnode, i, hi, -⟩ := mem_vnodes.mp (mem_vnodes_of_mem_build he)
    rcases hempty with rfl | rfl
    · cases hnode
    · omega

theorem mem_of_ownerFor {owner : ClusterNode}
    (h : (build hasher nodes count).ownerFor hasher key = some owner) : owner ∈ nodes := by
  rw [ownerFor_eq, Option.map_eq_some_iff] at h
  obtain ⟨o, hnext, rfl⟩ := h
  obtain ⟨node, hnode, i, -, rfl⟩ :=
    mem_vnodes.mp (mem_vnodes_of_mem_build (next_eq_some_iff.mp hnext).1)
  exact hnode

/-- With distinct ids each is counted once. -/
theorem countP_id_eq_one (hdistinct : (nodes.map ClusterNode.id).Nodup) {self : ClusterNode}
    (hself : self ∈ nodes) : nodes.countP (fun node => decide (node.id = self.id)) = 1 := by
  have hcount := List.count_eq_one_of_mem hdistinct
    (List.mem_map_of_mem (f := ClusterNode.id) hself)
  rw [List.count, List.countP_map] at hcount
  rw [← hcount]
  exact List.countP_congr fun node _ => by simp

/-- The last `#` of the text is the one before the number. -/
theorem vnodeKey_id {a b : Str} {i j : Nat} (h : vnodeKey a i = vnodeKey b j) : a = b := by
  have hnumber : ∀ n, (35 : UInt8) ∉ showNat n := by
    intro n hmem
    have hdigit := showNat_digits hmem
    revert hdigit
    decide
  have longer : ∀ {a b rest : Str} {i j : Nat}, b = a ++ rest →
      35 :: showNat i = rest ++ 35 :: showNat j → a = b := by
    intro a b rest i j hb hrest
    cases rest with
    | nil => rw [hb, List.append_nil]
    | cons c rest =>
      injection hrest with _ hrest
      exact absurd (hrest ▸ List.mem_append_right _ List.mem_cons_self) (hnumber i)
  rcases List.append_eq_append_iff.mp h with ⟨rest, hb, hrest⟩ | ⟨rest, ha, hrest⟩
  · exact longer hb hrest
  · exact (longer ha hrest).symm

/-! ## A node less -/

/-- The list without the nodes of one id. -/
def without (x : Str) (nodes : List ClusterNode) : List ClusterNode :=
  nodes.filter fun node => node.id ≠ x

theorem vnodes_without (hasher : Str → Nat) (x : Str) (nodes : List ClusterNode) (count : Nat) :
    vnodes hasher (without x nodes) count =
      (vnodes hasher nodes count).filter fun e => e.2.id ≠ x := by
  induction nodes with
  | nil => rfl
  | cons node nodes ih =>
    have hcons : ∀ l, vnodes hasher (node :: l) count =
        (List.range count).map (fun i => (hasher (vnodeKey node.id i), node)) ++
          vnodes hasher l count := fun _ => rfl
    rw [without, List.filter_cons, hcons, List.filter_append, ← ih]
    by_cases hx : node.id = x
    · simp [hx, without, List.filter_map, Function.comp_def]
    · simp [hx, without, List.filter_map, Function.comp_def, hcons]

/-- A position that is not `x`'s keeps its node. -/
theorem mem_build_without (h : e ∈ (build hasher nodes count).ring.entries) (hx : e.2.id ≠ x) :
    e ∈ (build hasher (without x nodes) count).ring.entries := by
  rw [mem_build] at h ⊢
  -- what stands before `e` at other positions stands there still, or is gone
  obtain ⟨hk, front, back, hsplit, hfront⟩ := List.find?_eq_some_iff_append.mp h
  rw [vnodes_without, hsplit, List.filter_append, List.filter_cons_of_pos (by simpa using hx)]
  refine List.find?_eq_some_iff_append.mpr ⟨hk, _, _, rfl, fun a ha => ?_⟩
  exact hfront a (List.mem_of_mem_filter ha)

/-- Every position is one of the whole ring. -/
theorem exists_mem_build_of_without (h : e ∈ (build hasher (without x nodes) count).ring.entries) :
    ∃ e' ∈ (build hasher nodes count).ring.entries, e'.1 = e.1 := by
  obtain ⟨node, hnode, i, hi, rfl⟩ := mem_vnodes.mp (mem_vnodes_of_mem_build h)
  exact exists_mem_build hasher (List.mem_of_mem_filter hnode) hi

theorem ownerFor_without
    (h : ∀ owner, (build hasher nodes count).ownerFor hasher key = some owner → owner.id ≠ x) :
    (build hasher (without x nodes) count).ownerFor hasher key =
      (build hasher nodes count).ownerFor hasher key := by
  cases hnext : (build hasher nodes count).ring.next (hasher key) with
  | none =>
    have hnone : (build hasher nodes count).ownerFor hasher key = none := by
      rw [ownerFor_eq, hnext]
      rfl
    rw [hnone, ownerFor_eq_none_iff]
    rcases ownerFor_eq_none_iff.mp hnone with rfl | hcount
    · exact Or.inl rfl
    · exact Or.inr hcount
  | some o =>
    have howner : (build hasher nodes count).ownerFor hasher key = some o.2 := by
      rw [ownerFor_eq, hnext]
      rfl
    have ho := mem_build_without (next_eq_some_iff.mp hnext).1 (h o.2 howner)
    rw [howner, ownerFor_eq,
      next_of_keys_subset hnext ho fun e he => exists_mem_build_of_without he]
    rfl

/-- A key moves only when its owner leaves, and to a node that is new only. -/
theorem minimal_disruption (hasher : Str → Nat) (nodes : List ClusterNode) (count : Nat)
    (key : Str) :
    (∀ x : Str,
      (∀ owner, (build hasher nodes count).ownerFor hasher key = some owner → owner.id ≠ x) →
        (build hasher (without x nodes) count).ownerFor hasher key =
          (build hasher nodes count).ownerFor hasher key) ∧
    ∀ (front back : List ClusterNode) (node : ClusterNode), nodes = front ++ node :: back →
      (∀ m ∈ front ++ back, m.id ≠ node.id) →
        (build hasher nodes count).ownerFor hasher key = some node ∨
          (build hasher nodes count).ownerFor hasher key =
            (build hasher (front ++ back) count).ownerFor hasher key := by
  refine ⟨fun x h => ownerFor_without h, ?_⟩
  rintro front back node rfl hnew
  have hwithout : without node.id (front ++ node :: back) = front ++ back := by
    have hkeep : ∀ l : List ClusterNode, (∀ m ∈ l, m.id ≠ node.id) → without node.id l = l :=
      fun l hl => List.filter_eq_self.mpr fun m hm => by simpa using hl m hm
    rw [without, List.filter_append, List.filter_cons_of_neg (by simp), ← List.filter_append]
    exact hkeep _ hnew
  by_cases hleaves : ∀ owner,
      (build hasher (front ++ node :: back) count).ownerFor hasher key = some owner →
        owner.id ≠ node.id
  · rw [← ownerFor_without hleaves, hwithout]
    exact Or.inr rfl
  · push Not at hleaves
    obtain ⟨owner, howner, hid⟩ := hleaves
    have hmem := mem_of_ownerFor howner
    rw [List.mem_append, List.mem_cons, ← or_assoc, or_right_comm, ← List.mem_append] at hmem
    rcases hmem with hmem | rfl
    · exact absurd hid (hnew owner hmem)
    · exact Or.inl howner

/-- Three nodes on a ring with one virtual node each, at the byte of their
name. -/
def threeNodes : List ClusterNode :=
  [⟨bytes ['a'], [], 1⟩, ⟨bytes ['b'], [], 2⟩, ⟨bytes ['c'], [], 3⟩]

theorem minimal_disruption_three :
    (build firstByte (without (bytes ['b']) threeNodes) 1).ownerFor firstByte (bytes ['c']) =
        (build firstByte threeNodes 1).ownerFor firstByte (bytes ['c']) ∧
      ((build firstByte threeNodes 1).ownerFor firstByte (bytes ['b']) =
          some ⟨bytes ['b'], [], 2⟩ ∨
        (build firstByte threeNodes 1).ownerFor firstByte (bytes ['b']) =
          (build firstByte (without (bytes ['b']) threeNodes) 1).ownerFor firstByte
            (bytes ['b'])) :=
  ⟨(minimal_disruption firstByte threeNodes 1 (bytes ['c'])).1 (bytes ['b']) (by decide),
    (minimal_disruption firstByte threeNodes 1 (bytes ['b'])).2 [⟨bytes ['a'], [], 1⟩]
      [⟨bytes ['c'], [], 3⟩] ⟨bytes ['b'], [], 2⟩ rfl (by decide)⟩

/-! ## The order of the list -/

/-- No virtual nodes of two ids share a position. -/
def Separate (hasher : Str → Nat) (nodes : List ClusterNode) (count : Nat) : Prop :=
  ∀ a ∈ nodes, ∀ b ∈ nodes, a.id ≠ b.id → ∀ i < count, ∀ j < count,
    hasher (vnodeKey a.id i) ≠ hasher (vnodeKey b.id j)

/-- Some virtual node of the node is met, going round from `p`, before those
of all others. -/
def MetFirst (hasher : Str → Nat) (nodes : List ClusterNode) (count : Nat) (p : Nat)
    (node : ClusterNode) : Prop :=
  node ∈ nodes ∧ ∃ i < count, ∀ m ∈ nodes, m ≠ node → ∀ j < count,
    Before p (hasher (vnodeKey node.id i)) (hasher (vnodeKey m.id j))

theorem Separate.perm (h : Separate hasher nodes count) (hperm : nodes.Perm nodes') :
    Separate hasher nodes' count := fun a ha b hb =>
  h a (hperm.mem_iff.mpr ha) b (hperm.mem_iff.mpr hb)

section Order

variable (hdistinct : (nodes.map ClusterNode.id).Nodup) (hsep : Separate hasher nodes count)
include hdistinct hsep

/-- A position belongs to the one node that has a virtual node there. -/
theorem mem_build_of_separate {e : Nat × ClusterNode} :
    e ∈ (build hasher nodes count).ring.entries ↔ e ∈ vnodes hasher nodes count := by
  rw [build_eq]
  refine mem_emplaceAll_of_functional fun x hx y hy hk => ?_
  obtain ⟨a, ha, i, hi, rfl⟩ := mem_vnodes.mp hx
  obtain ⟨b, hb, j, hj, rfl⟩ := mem_vnodes.mp hy
  have hid : a.id = b.id := by
    by_contra hne
    exact hsep a ha b hb hne i hi j hj hk
  exact Prod.ext hk (List.inj_on_of_nodup_map hdistinct ha hb hid)

theorem ownerFor_eq_some_iff {key : Str} {owner : ClusterNode} :
    (build hasher nodes count).ownerFor hasher key = some owner ↔
      MetFirst hasher nodes count (hasher key) owner := by
  have hmem := fun e => mem_build_of_separate hdistinct hsep (e := e)
  rw [ownerFor_eq, Option.map_eq_some_iff]
  constructor
  · rintro ⟨o, hnext, rfl⟩
    obtain ⟨ho, hfirst⟩ := next_eq_some_iff.mp hnext
    obtain ⟨node, hnode, i, hi, rfl⟩ := mem_vnodes.mp ((hmem o).mp ho)
    refine ⟨hnode, i, hi, fun m hm hne j hj => ?_⟩
    have hpos := hfirst _ ((hmem _).mpr (mem_vnodes.mpr ⟨m, hm, j, hj, rfl⟩))
    have hid : m.id ≠ node.id := fun h => hne (List.inj_on_of_nodup_map hdistinct hm hnode h)
    exact hpos.resolve_left (hsep m hm node hnode hid j hj i hi)
  · rintro ⟨hnode, i, hi, hfirst⟩
    have hin := (hmem _).mpr (mem_vnodes.mpr ⟨owner, hnode, i, hi, rfl⟩)
    obtain ⟨o, hnext, ho, hmin⟩ :=
      next_spec (build hasher nodes count).ring (hasher key) (List.ne_nil_of_mem hin)
    obtain ⟨m, hm, j, hj, rfl⟩ := mem_vnodes.mp ((hmem o).mp ho)
    refine ⟨_, hnext, ?_⟩
    by_contra hne
    -- another node's position would come before the one that is met first
    have hbefore := hfirst m hm hne j hj
    rcases hmin _ hin with heq | hbefore'
    · exact hne (congrArg Prod.snd heq).symm
    · exact before_asymm hbefore hbefore'

end Order

/-- The owner does not depend on the order of the nodes. -/
theorem ownerFor_reorder (hdistinct : (nodes.map ClusterNode.id).Nodup)
    (hsep : Separate hasher nodes count) (hperm : nodes.Perm nodes') (key : Str) :
    (build hasher nodes' count).ownerFor hasher key =
      (build hasher nodes count).ownerFor hasher key := by
  have hdistinct' : (nodes'.map ClusterNode.id).Nodup :=
    (hperm.map ClusterNode.id).nodup_iff.mp hdistinct
  rw [ownerFor_eq, ownerFor_eq]
  congr 1
  refine next_congr (fun e => ?_) _
  rw [mem_build_of_separate hdistinct' (hsep.perm hperm), mem_build_of_separate hdistinct hsep,
    mem_vnodes, mem_vnodes]
  simp only [hperm.mem_iff]

/-- Members that list the nodes in different orders find the same owner of
every key: the node that is met first. -/
theorem ownerFor_perm (hdistinct : (nodes.map ClusterNode.id).Nodup)
    (hsep : Separate hasher nodes count) (hperm : nodes.Perm nodes') (key : Str) :
    (build hasher nodes' count).ownerFor hasher key =
        (build hasher nodes count).ownerFor hasher key ∧
      (∀ owner, (build hasher nodes count).ownerFor hasher key = some owner ↔
        MetFirst hasher nodes count (hasher key) owner) ∧
      ((build hasher nodes count).ownerFor hasher key = none ↔ nodes = [] ∨ count = 0) := by
  exact ⟨ownerFor_reorder hdistinct hsep hperm key,
    fun owner => ownerFor_eq_some_iff hdistinct hsep, ownerFor_eq_none_iff⟩

theorem separate_three (count : Nat) : Separate firstByte threeNodes count := by
  intro a ha b hb hne i _ j _
  have hpos : ∀ m ∈ threeNodes, ∀ k, firstByte (vnodeKey m.id k) = firstByte m.id := by
    intro m hm k
    simp only [threeNodes, List.mem_cons, List.not_mem_nil, or_false] at hm
    rcases hm with rfl | rfl | rfl <;> rfl
  rw [hpos a ha, hpos b hb]
  revert a b
  decide

theorem ownerFor_perm_three :
    (build firstByte threeNodes.reverse).ownerFor firstByte (bytes ['b', 'c']) =
        (build firstByte threeNodes).ownerFor firstByte (bytes ['b', 'c']) ∧
      (∀ owner, (build firstByte threeNodes).ownerFor firstByte (bytes ['b', 'c']) = some owner ↔
        MetFirst firstByte threeNodes virtualNodes (firstByte (bytes ['b', 'c'])) owner) ∧
      ((build firstByte threeNodes).ownerFor firstByte (bytes ['b', 'c']) = none ↔
        threeNodes = [] ∨ virtualNodes = 0) :=
  ownerFor_perm (by decide) (separate_three virtualNodes) (List.reverse_perm threeNodes).symm
    (bytes ['b', 'c'])

end ConsistentHash

end TinyKV
