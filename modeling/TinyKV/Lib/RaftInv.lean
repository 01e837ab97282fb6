import TinyKV.Lib.RaftMachine

/-!
# What the machine keeps

The invariant has four parts. `Info` is about votes and acknowledgements,
`Holds` about what is in a node's log and snapshot, `Claims` about what a
node believes to be committed, and `Msg.Ok` about messages.

The delicate part is `Claims`. A node can learn that something is committed
from a leader that has been deposed, and hence in a term in which it is not
committed yet. Its log may then still be overwritten below its commit index,
or contradict its own snapshot. What rescues leader completeness is that such
a node cannot win an election any more before it has caught up: whoever
acknowledged the entry has left the node's term behind. `Timing` is this
fact, put such that it survives until the election.
-/

namespace TinyKV.Raft

open Function Ballot

variable {N T E : Type} [LinearOrder T]

namespace State

/-- While `n` stands in a term before `t`, it has no vote from `q`. -/
def Timing (s : State N T E) (n : N) (t : T) (q : Set N) : Prop :=
  s.role n = .candidate → s.term n < t → ∀ v ∈ q, ¬ s.Voted v (s.term n) n

/-- `c` is committed, and `n` learned it in time. -/
def Learned (s : State N T E) (Quorum : Set N → Prop) (n : N) (c : List E) : Prop :=
  ∃ t i q, s.Committed Quorum t i q ∧ c.length ≤ i + 1 ∧ c <+: s.tlog t ∧ s.Timing n t q

/-- `c` is committed in a term `n` has reached. -/
def Reached (s : State N T E) (Quorum : Set N → Prop) (n : N) (c : List E) : Prop :=
  ∃ t i q, s.Committed Quorum t i q ∧ c.length ≤ i + 1 ∧ c <+: s.tlog t ∧ t ≤ s.term n

/-- Something up to `k` is committed in a term that `n` has reached and that
is later than any it led. -/
def Behind (s : State N T E) (Quorum : Set N → Prop) (n : N) (k : Nat) : Prop :=
  ∃ t i q, s.Committed Quorum t i q ∧ i + 1 ≤ k ∧ t ≤ s.term n ∧ ∀ y, s.Led n y → y < t

/-- `n` is right to hold the first `k` entries for committed: they are those
of `log`, or at least no leader `n` has been can have said otherwise. -/
def Vouched (s : State N T E) (Quorum : Set N → Prop) (strict : Prop) (n : N) (log : List E)
    (k : Nat) : Prop :=
  ∃ p : List E, p.length = k ∧ (s.Reached Quorum n p ∧ p <+: log ∨
    ¬ strict ∧ s.Learned Quorum n p ∧ s.Behind Quorum n k)

end State

section Facts

variable {s : State N T E} {Quorum : Set N → Prop} {n : N} {c : List E}

theorem State.Reached.learned (h : s.Reached Quorum n c) : s.Learned Quorum n c := by
  obtain ⟨t, i, q, hc, hlen, hp, ht⟩ := h
  exact ⟨t, i, q, hc, hlen, hp, fun _ hlt => absurd hlt (not_lt.mpr ht)⟩

theorem State.Learned.chosen (h : s.Learned Quorum n c) : s.Chosen Quorum c := by
  obtain ⟨t, i, q, hc, hlen, hp, -⟩ := h
  exact ⟨t, i, q, hc, hlen, hp⟩

end Facts

/-! ## Nodes that a step does not touch -/

/-- What `n` has learned stays learned. -/
structure Kin (Quorum : Set N → Prop) (s t : State N T E) (n : N) : Prop where
  grows : Grows s t
  led : ∀ y, t.Led n y → s.Led n y
  timing : ∀ u i q, s.Committed Quorum u i q → s.Timing n u q → t.Timing n u q

/-- Everything that `Holds` and `Claims` ask about `n` is as it was, or only
grew. -/
structure Same (Quorum : Set N → Prop) (s t : State N T E) (n : N) : Prop
    extends Kin Quorum s t n where
  log : t.log n = s.log n
  snap : t.snap n = s.snap n
  commit : t.commit n = s.commit n
  acks : ∀ u i, (n, u, i) ∈ t.acks → (n, u, i) ∈ s.acks
  leader : t.role n = .leader → s.role n = .leader ∧ t.tlog (t.term n) = s.tlog (s.term n)

namespace Kin

variable {s t : State N T E} {Quorum : Set N → Prop} {n : N} (h : Kin Quorum s t n)
include h

theorem learned {c : List E} (hc : s.Learned Quorum n c) : t.Learned Quorum n c := by
  obtain ⟨u, i, q, hq, hlen, hp, ht⟩ := hc
  exact ⟨u, i, q, h.grows.committed hq, hlen, hp.trans (h.grows.tlog u), h.timing u i q hq ht⟩

theorem reached {c : List E} (hc : s.Reached Quorum n c) : t.Reached Quorum n c := by
  obtain ⟨u, i, q, hq, hlen, hp, hu⟩ := hc
  exact ⟨u, i, q, h.grows.committed hq, hlen, hp.trans (h.grows.tlog u),
    hu.trans (h.grows.term n)⟩

theorem behind {k : Nat} (hc : s.Behind Quorum n k) : t.Behind Quorum n k := by
  obtain ⟨u, i, q, hq, hlen, hu, hy⟩ := hc
  exact ⟨u, i, q, h.grows.committed hq, hlen, hu.trans (h.grows.term n),
    fun y hly => hy y (h.led y hly)⟩

theorem vouched {strict : Prop} {log log' : List E} {k : Nat}
    (hc : s.Vouched Quorum strict n log k)
    (hlog : ∀ p : List E, p.length = k → s.Reached Quorum n p → p <+: log → p <+: log') :
    t.Vouched Quorum strict n log' k := by
  obtain ⟨p, hlen, hp⟩ := hc
  refine ⟨p, hlen, ?_⟩
  rcases hp with ⟨hr, hp⟩ | ⟨hs, hl, hb⟩
  · exact Or.inl ⟨h.reached hr, hlog p hlen hr hp⟩
  · exact Or.inr ⟨hs, h.learned hl, h.behind hb⟩

end Kin

theorem Grows.take_eq {s t : State N T E} (h : Grows s t) {u : T} {k : Nat} {c : List E}
    (hk : k ≤ (s.tlog u).length) (hc : c = (s.tlog u).take k) : c = (t.tlog u).take k := by
  obtain ⟨rest, hrest⟩ := h.tlog u
  rw [hc, ← hrest, List.take_append_of_le_length hk]

/-! ## The invariant -/

variable [Termed E T]

namespace State

structure Info (s : State N T E) : Prop where
  vote_seen : ∀ x ∈ s.votes, x.data.2 ≤ s.elections.length
  vote_log : ∀ x ∈ s.votes, s.role x.cand = .candidate → s.term x.cand = x.term →
    AtLeast x.data.1 (s.log x.cand)
  ack_le : ∀ v t i, (v, t, i) ∈ s.acks → t ≤ s.term v
  own_ack : ∀ n t i e, s.Led n t → (s.tlog t)[i]? = some e → termOf e = t → (n, t, i) ∈ s.acks

structure Holds (s : State N T E) (n : N) : Prop where
  log_valid : s.Valid (s.log n)
  snap_valid : s.Valid (s.snap n)
  snap_le : (s.snap n).length ≤ (s.log n).length
  snap_commit : (s.snap n).length ≤ s.commit n
  tail_terms : ∀ i e, (s.snap n).length ≤ i → (s.log n)[i]? = some e → termOf e ≤ s.term n
  kept : ∀ t i, (n, t, i) ∈ s.acks →
    (s.log n)[i]? = (s.tlog t)[i]? ∨ Against s.elections t i
  kept_snap : ∀ t i, (n, t, i) ∈ s.acks → i < (s.snap n).length →
    (s.snap n)[i]? = (s.tlog t)[i]? ∨ Against s.elections t i
  fine_log : ∀ y, s.Led n y → s.Fine (s.log n) y
  fine_snap : ∀ y, s.Led n y → s.Fine (s.snap n) y
  leader_log : s.role n = .leader → s.log n = s.tlog (s.term n)
  leader_snap : s.role n = .leader → s.snap n <+: s.log n

structure Claims (s : State N T E) (Quorum : Set N → Prop) (strict : Prop) (n : N) : Prop where
  snap_ok : s.snap n = [] ∨ ∃ p, p.length = (s.snap n).length ∧ s.Learned Quorum n p ∧
    (s.snap n = p ∨ ¬ p <+: s.log n) ∧
    (s.snap n = p ∨ ¬ strict ∧ ∀ y, s.Led n y → ∀ e ∈ p.getLast?, y < termOf e)
  commit_ok : ∀ k, (s.snap n).length < k → k ≤ s.commit n →
    s.Vouched Quorum strict n (s.log n) k
  leader_commit : s.role n = .leader → s.commit n = 0 ∨
    ∃ t i q, s.Committed Quorum t i q ∧ t ≤ s.term n ∧ s.commit n ≤ i + 1

/-- What holds of a message from the moment it is sent. -/
def MsgOk (s : State N T E) (Quorum : Set N → Prop) (strict : Prop) : Msg T E → Prop
  | .batch t upTo c =>
    c < upTo ∧ (∃ e, (s.tlog t)[upTo - 1]? = some e ∧ termOf e = t) ∧
      (c = 0 ∨ ∃ u i q, s.Committed Quorum u i q ∧ u ≤ t ∧ c ≤ i + 1)
  | .tail t content c =>
    s.Fine content t ∧ s.Valid content ∧
      (∃ i q, s.Committed Quorum t i q ∧ content.take (i + 1) = (s.tlog t).take (i + 1)) ∧
      ∃ u i q, s.Committed Quorum u i q ∧ c ≤ i + 1 ∧ (strict → u ≤ t) ∧
        (u = t → content.take (i + 1) = (s.tlog t).take (i + 1))
  | .snapshot t content =>
    s.Fine content t ∧ s.Valid content ∧ (content = [] ∨ ∃ p, p.length = content.length ∧
      s.Chosen Quorum p ∧
      (content = p ∨ ¬ strict ∧ ∀ e ∈ p.getLast?, t < termOf e))

end State

structure Inv (Quorum : Set N → Prop) (strict : Prop) (s : State N T E) : Prop where
  ballot : Ballot.Inv Quorum s.toState
  history : History s
  info : s.Info
  holds : ∀ n, s.Holds n
  claims : ∀ n, s.Claims Quorum strict n
  msgs : ∀ m ∈ s.msgs, s.MsgOk Quorum strict m

/-- What was acknowledged and is still there, or can be given up, stays so. -/
theorem Grows.kept {s t : State N T E} (h : Grows s t) (hist : History s) {n : N} {u : T}
    {i : Nat} (ha : (n, u, i) ∈ s.acks) {xs : List E}
    (hk : xs[i]? = (s.tlog u)[i]? ∨ Against s.elections u i) :
    xs[i]? = (t.tlog u)[i]? ∨ Against t.elections u i := by
  rcases hk with hk | hk
  · obtain ⟨e, he, -⟩ := hist.ack_entry n u i ha
    rw [hk, he, getElem?_mono (h.tlog u) he]
    exact Or.inl rfl
  · exact Or.inr (h.against hk)

namespace Same

variable {s t : State N T E} {Quorum : Set N → Prop} {n : N} (h : Same Quorum s t n)
include h

theorem holds (hist : History s) (hh : s.Holds n) : t.Holds n := by
  refine
    { log_valid := h.log ▸ h.grows.valid hh.log_valid
      snap_valid := h.snap ▸ h.grows.valid hh.snap_valid
      snap_le := by rw [h.log, h.snap]; exact hh.snap_le
      snap_commit := by rw [h.snap, h.commit]; exact hh.snap_commit
      tail_terms := fun i e hi he => ?_
      kept := fun u i ha => ?_
      kept_snap := fun u i ha hi => ?_
      fine_log := fun y hy => h.log ▸ h.grows.fine (hh.fine_log y (h.led y hy))
      fine_snap := fun y hy => h.snap ▸ h.grows.fine (hh.fine_snap y (h.led y hy))
      leader_log := fun hr => ?_
      leader_snap := fun hr => ?_ }
  · rw [h.snap] at hi
    rw [h.log] at he
    exact (hh.tail_terms i e hi he).trans (h.grows.term n)
  · rw [h.log]
    exact h.grows.kept hist (h.acks u i ha) (hh.kept u i (h.acks u i ha))
  · rw [h.snap] at hi ⊢
    exact h.grows.kept hist (h.acks u i ha) (hh.kept_snap u i (h.acks u i ha) hi)
  · obtain ⟨hr, htl⟩ := h.leader hr
    rw [h.log, htl, hh.leader_log hr]
  · rw [h.log, h.snap]
    exact hh.leader_snap (h.leader hr).1

theorem claims {strict : Prop} (hc : s.Claims Quorum strict n) : t.Claims Quorum strict n := by
  refine ⟨?_, fun k h1 h2 => ?_, fun hr => ?_⟩
  · rw [h.snap, h.log]
    rcases hc.snap_ok with hnil | ⟨p, hlen, hl, hp, hy⟩
    · exact Or.inl hnil
    · refine Or.inr ⟨p, hlen, h.toKin.learned hl, hp, ?_⟩
      rcases hy with hy | ⟨hs, hy⟩
      · exact Or.inl hy
      · exact Or.inr ⟨hs, fun y hly => hy y (h.led y hly)⟩
  · rw [h.snap] at h1
    rw [h.commit] at h2
    rw [h.log]
    exact h.toKin.vouched (hc.commit_ok k h1 h2) fun p _ _ hp => hp
  · rw [h.commit]
    rcases hc.leader_commit (h.leader hr).1 with h0 | ⟨u, i, q, hq, hu, hle⟩
    · exact Or.inl h0
    · exact Or.inr ⟨u, i, q, h.grows.committed hq, hu.trans (h.grows.term n), hle⟩

end Same

theorem Grows.msgOk {s t : State N T E} (h : Grows s t) (hist : History s)
    {Quorum : Set N → Prop} {strict : Prop}
    (hmeet : ∀ A B, Quorum A → Quorum B → ∃ v, v ∈ A ∧ v ∈ B)
    {m : Msg T E} (hm : s.MsgOk Quorum strict m) : t.MsgOk Quorum strict m := by
  have hlong : ∀ {u : T} {i : Nat} {q : Set N}, s.Committed Quorum u i q →
      i + 1 ≤ (s.tlog u).length := by
    intro u i q hq
    obtain ⟨e, he, -⟩ := hist.committed_entry hmeet hq
    exact (List.getElem?_eq_some_iff.mp he).1
  cases m with
  | batch u upTo c =>
    obtain ⟨hlt, ⟨e, he, hte⟩, hc⟩ := hm
    refine ⟨hlt, ⟨e, getElem?_mono (h.tlog u) he, hte⟩, ?_⟩
    rcases hc with hc | ⟨x, i, q, hq, hx, hle⟩
    · exact Or.inl hc
    · exact Or.inr ⟨x, i, q, h.committed hq, hx, hle⟩
  | tail u content c =>
    obtain ⟨hf, hv, ⟨i, q, hq, hi⟩, x, j, p, hp, hle, hs, hx⟩ := hm
    refine ⟨h.fine hf, h.valid hv, ⟨i, q, h.committed hq, h.take_eq (hlong hq) hi⟩,
      x, j, p, h.committed hp, hle, hs, fun hxu => ?_⟩
    exact h.take_eq (hxu ▸ hlong hp) (hx hxu)
  | snapshot u content =>
    obtain ⟨hf, hv, hc⟩ := hm
    refine ⟨h.fine hf, h.valid hv, ?_⟩
    rcases hc with hc | ⟨p, hlen, hp, hc⟩
    · exact Or.inl hc
    · exact Or.inr ⟨p, hlen, h.chosen hp, hc⟩

end TinyKV.Raft
