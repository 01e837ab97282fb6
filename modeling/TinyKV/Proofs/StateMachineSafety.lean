import TinyKV.Proofs.LeaderCompleteness

/-!
# State machine safety

Between the sections of a request, and between a write's checks and its
append, anything may happen. A write that its node has found to be the leader
for may be appended when the node is so no longer, and is then given the term
of another leader. That is the end of one author for each term and index, and
of everything that rests on it: a follower that has one of the two entries
takes it for the other.

In runs in which every section finds the term it belongs to, the cluster
follows the machine, and what a server applies is committed there.
-/

namespace TinyKV

open Function Raft World

/-- No two nodes ever apply different entries at one index. -/
theorem state_machine_safety (members : List ClusterNode)
    (hids : (members.map ClusterNode.id).Nodup) (store : Str → Store) (threshold : Str → Int)
    (es : List ClusterEvent)
    (hkept : Runs.Always World.step VoteKept (start members store threshold) es)
    (hin : Runs.Always World.step (InTerm True) (start members store threshold) es) (w : World)
    (hw : Runs.run World.step (start members store threshold) es = some w) (n m : Str)
    (index : Int) (e e' : RaftLogEntry) (he : (index, e) ∈ (w.servers n).applied)
    (he' : (index, e') ∈ (w.servers m).applied) : e = e' := by
  obtain ⟨a, -, ha⟩ := (replicates_start members store threshold).run hids hw
    (Runs.always_and.mpr ⟨hkept, hin⟩)
  obtain ⟨i, hi, hc⟩ := (ha.servers n).chosen trivial _ he
  obtain ⟨j, hj, hc'⟩ := (ha.servers m).chosen trivial _ he'
  have hij : i = j := by
    have hi : index = i + 1 := hi
    have hj : index = j + 1 := hj
    omega
  subst hij
  exact ha.kept.inv.chosenAt_unique Ballot.Majority.meet hc hc'

namespace World

/-- `b` acknowledges a write of `a`, and is told that it is committed. -/
def commitA : List ClusterEvent :=
  [.write (bytes ['a']) (putRequest 'k' 'v')] ++ jobSteps 4 1 [bytes ['b']] ++ taskSteps 3 1 ++
    jobSteps 4 1 [bytes ['b']] ++ taskSteps 2 2

/-- A write of `a` passes the second check of the role, and then `b` wins the
next term with the vote of `a`. -/
def deposeA : List ClusterEvent :=
  [.write (bytes ['a']) (putRequest 'k' 'v')] ++ jobSteps 1 1 [] ++ [.election (bytes ['b'])] ++
    jobSteps 2 2 [] ++ taskSteps 1 1 ++ jobSteps 2 2 []

/-- `a` appends its write, in the term of `b`, and `c` acknowledges it. -/
def commitLate : List ClusterEvent :=
  jobSteps 3 1 [bytes ['c']] ++ taskSteps 3 2 ++ jobSteps 3 1 []

/-- `b` writes, and `c` has an entry of that index and term. -/
def commitB : List ClusterEvent :=
  [.write (bytes ['b']) (putRequest 'k' 'x')] ++ jobSteps 4 3 [bytes ['c']] ++ taskSteps 3 3 ++
    jobSteps 3 3 []

end World

theorem state_machine_safety_commit :
    ∃ w, Runs.run World.step threeStart (electA ++ commitA) = some w ∧
      (1, firstEntry) ∈ (w.servers (bytes ['a'])).applied ∧
      (w.servers (bytes ['b'])).applied ≠ [] ∧
      ∀ e, (1, e) ∈ (w.servers (bytes ['b'])).applied → firstEntry = e := by
  have hkept : Runs.Always World.step VoteKept threeStart (electA ++ commitA) := by
    decide +kernel
  have hin : Runs.Always World.step (InTerm True) threeStart (electA ++ commitA) := by
    decide +kernel
  refine ⟨_, rfl, by decide +kernel, by decide +kernel, fun e he => ?_⟩
  exact state_machine_safety threeMembers (by decide) (fun _ => .memory {}) _ (electA ++ commitA)
    hkept hin _ rfl (bytes ['a']) (bytes ['b']) 1 firstEntry e (by decide +kernel) he

theorem late_append_splits_index :
    ∃ w, Runs.run World.step threeStart (electA ++ deposeA ++ commitLate ++ commitB) = some w ∧
      (1, ⟨1, 2, .put, bytes ['k'], bytes ['v'], 0⟩) ∈ (w.servers (bytes ['a'])).applied ∧
      (1, ⟨1, 2, .put, bytes ['k'], bytes ['x'], 0⟩) ∈ (w.servers (bytes ['b'])).applied ∧
      (threeMembers.map ClusterNode.id).Nodup ∧
      Runs.Always World.step VoteKept threeStart
        (electA ++ deposeA ++ commitLate ++ commitB) := by
  exact ⟨_, rfl, by decide +kernel, by decide +kernel, by decide, by decide +kernel⟩

/-! ## Log matching -/

/-- Where an entry of a server's log stands in the log of the node. -/
theorem KVServer.LogOf.position {Q : Set Str → Prop} {strict : Prop} {a : Ledger} {n : Str}
    {s : KVServer} (h : s.LogOf Q strict a n) (hk : Kept Q strict Placed a) {e : RaftLogEntry}
    (he : e ∈ s.raftLog) : ∃ i : Nat, (a.log n)[i]? = some e ∧ e.index = i + 1 := by
  obtain ⟨j, hj⟩ := List.getElem?_of_mem he
  exact ⟨_, h.getElem? j ▸ hj, (h.placed hk hj).index⟩

/-- If the logs of two nodes have entries of one index and one term, they agree
there and on every index before it that they both have, in every run in which
appends and installs end in the term they belong to and an install finds the
node behind its index. -/
theorem log_matching (members : List ClusterNode) (hids : (members.map ClusterNode.id).Nodup)
    (store : Str → Store) (threshold : Str → Int) (es : List ClusterEvent)
    (hkept : Runs.Always World.step VoteKept (start members store threshold) es)
    (hin : Runs.Always World.step (InTerm False) (start members store threshold) es) (w : World)
    (hw : Runs.run World.step (start members store threshold) es = some w) (n m : Str)
    (e e' : RaftLogEntry) (he : e ∈ (w.servers n).raftLog) (he' : e' ∈ (w.servers m).raftLog)
    (hindex : e.index = e'.index) (hterm : e.term = e'.term) :
    ∀ x ∈ (w.servers n).raftLog, ∀ x' ∈ (w.servers m).raftLog,
      x.index = x'.index → x.index ≤ e.index → x = x' := by
  obtain ⟨a, -, ha⟩ := (replicates_start members store threshold).run hids hw
    (Runs.always_and.mpr ⟨hkept, hin⟩)
  have hn := (ha.servers n).toLogOf
  have hm := (ha.servers m).toLogOf
  obtain ⟨i, hi, hei⟩ := hn.position ha.kept he
  obtain ⟨i', hi', hei'⟩ := hm.position ha.kept he'
  obtain rfl : i = i' := by omega
  have htake := take_eq_of_term (ha.kept.inv.holds n).log_valid (ha.kept.inv.holds m).log_valid
    hi hi' hterm
  intro x hx x' hx' heq hle
  obtain ⟨j, hj, hxj⟩ := hn.position ha.kept hx
  obtain ⟨j', hj', hxj'⟩ := hm.position ha.kept hx'
  obtain rfl : j = j' := by omega
  have hlt : j < i + 1 := by omega
  have hget := congrArg (·[j]?) htake
  simpa only [List.getElem?_take_of_lt hlt, hj, hj', Option.some.injEq] using hget

/-- `b` has appended a write of `a`, and `a` has not heard of it yet. -/
def World.appendA : List ClusterEvent := electA ++ commitA.take 8

theorem log_matching_append :
    ∃ w, Runs.run World.step threeStart appendA = some w ∧
      (w.servers (bytes ['b'])).raftLog ≠ [] ∧
      ∀ e ∈ (w.servers (bytes ['b'])).raftLog, e.index = 1 → e.term = 1 → firstEntry = e := by
  have hkept : Runs.Always World.step VoteKept threeStart appendA := by decide +kernel
  have hin : Runs.Always World.step (InTerm False) threeStart appendA := by decide +kernel
  refine ⟨_, rfl, by decide +kernel, fun e he hindex hterm => ?_⟩
  exact log_matching threeMembers (by decide) (fun _ => .memory {}) _ appendA hkept hin _ rfl
    (bytes ['a']) (bytes ['b']) firstEntry e (by decide +kernel) he hindex.symm hterm.symm
    firstEntry (by decide +kernel) e he hindex.symm le_rfl

end TinyKV
