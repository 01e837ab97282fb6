import TinyKV.Lib.RaftHistory

/-!
# The machine

The steps of a node, each with the least it has to check. A node that hears
from the leader of its own term may take over the log, cut its own log where
it contradicts, raise its commit index, or install a snapshot. `commit n`
bounds what node `n` holds for committed; it is never lowered.

`strict` rules out one thing, namely that a node announces a commit in the
name of a term it does not lead any more. Leader completeness does not need
it; that all nodes apply the same entries does.
-/

namespace TinyKV.Raft

open Function Ballot

variable {N T E : Type} [DecidableEq N]

namespace State

/-- A new log of a node, with everything up to `c` committed. -/
def settle (s : State N T E) (v : N) (log : List E) (c : Nat) : State N T E :=
  { s with
    log := update s.log v log
    commit := update s.commit v (max (s.commit v) c) }

def setLog (s : State N T E) (v : N) (log : List E) : State N T E :=
  { s with log := update s.log v log }

/-- The first `k` entries of a node's log become its snapshot. -/
def compacted (s : State N T E) (n : N) (k : Nat) : State N T E :=
  { s with snap := update s.snap n ((s.log n).take k) }

/-- A node gets a snapshot, in front of `log`. -/
def installed (s : State N T E) (v : N) (content log : List E) : State N T E :=
  { s with
    log := update s.log v log
    snap := update s.snap v content
    commit := update s.commit v (max (s.commit v) content.length) }

def send (s : State N T E) (m : Msg T E) : State N T E := { s with msgs := insert m s.msgs }

def ack (s : State N T E) (v : N) (t : T) (i : Nat) : State N T E :=
  { s with acks := insert (v, t, i) s.acks }

/-- `n` leads its term from now on, with the log it has. -/
def elected [DecidableEq T] (s : State N T E) (n : N) (voters : Set N) : State N T E :=
  { s with
    toState := (s.toState.setRole n .leader).addElection ⟨s.term n, n, voters, s.log n⟩
    tlog := update s.tlog (s.term n) (s.log n) }

/-- `n` appends an entry and offers its log, under a commit index. -/
def written [DecidableEq T] (s : State N T E) (n : N) (e : E) (c : Nat) : State N T E :=
  ({ s with
    tlog := update s.tlog (s.term n) (s.log n ++ [e])
    log := update s.log n (s.log n ++ [e]) }.ack n (s.term n) (s.log n).length).send
      (.batch (s.term n) ((s.log n).length + 1) c)

/-- The content a message of term `t` vouches for. -/
def Offers (s : State N T E) (t : T) (c : List E) : Prop :=
  (∃ upTo k, Msg.batch t upTo k ∈ s.msgs ∧ c = (s.tlog t).take upTo) ∨
    ∃ k, Msg.tail t c k ∈ s.msgs

/-- `v` follows the leader of term `t`, which is another node. -/
structure Follows (s : State N T E) (v : N) (t : T) : Prop where
  term : s.term v = t
  role : s.role v = .follower
  other : ¬ s.Led v t

end State

section Lookup

variable [DecidableEq T] {s : State N T E} {n : N} {voters : Set N} {e : E} {c : Nat}

theorem elected_tlog_ne {t : T} (ht : t ≠ s.term n) :
    (s.elected n voters).tlog t = s.tlog t := update_of_ne ht _ _

theorem elected_tlog_self : (s.elected n voters).tlog (s.term n) = s.log n :=
  update_self _ _ _

theorem elected_role_ne {m : N} (hmn : m ≠ n) : (s.elected n voters).role m = s.role m :=
  update_of_ne hmn _ _

theorem written_tlog_ne {t : T} (ht : t ≠ s.term n) : (s.written n e c).tlog t = s.tlog t :=
  update_of_ne ht _ _

theorem written_tlog_self : (s.written n e c).tlog (s.term n) = s.log n ++ [e] :=
  update_self _ _ _

theorem written_log_self : (s.written n e c).log n = s.log n ++ [e] := update_self _ _ _

theorem written_log_ne {m : N} (hmn : m ≠ n) : (s.written n e c).log m = s.log m :=
  update_of_ne hmn _ _

end Lookup

variable [LinearOrder T] [Termed E T]

inductive Step (Quorum : Set N → Prop) (strict : Prop) : State N T E → State N T E → Prop
  | bump (s : State N T E) (n : N) (t : T) (h : s.term n < t) :
      Step Quorum strict s { s with toState := s.toState.enter n t .follower }
  | retire (s : State N T E) (n : N) :
      Step Quorum strict s { s with toState := s.toState.setRole n .follower }
  | stand (s : State N T E) (n : N) (t : T) (h : s.term n < t) :
      Step Quorum strict s
        { s with
          toState := (s.toState.enter n t .candidate).addVote
            ⟨n, t, n, s.log n, s.elections.length⟩ }
  | vote (s : State N T E) (v c : N) (hfree : ∀ c', s.Voted v (s.term v) c' → c' = c)
      (hterm : s.term v ≤ s.term c)
      (hlog : s.role c = .candidate → s.term c = s.term v → AtLeast (s.log v) (s.log c)) :
      Step Quorum strict s
        { s with
          toState := (s.toState.setRole v .follower).addVote
            ⟨v, s.term v, c, s.log v, s.elections.length⟩ }
  | elect (s : State N T E) (n : N) (voters : Set N) (hrole : s.role n = .candidate)
      (hquorum : Quorum voters) (hvotes : ∀ v ∈ voters, s.Voted v (s.term n) n) :
      Step Quorum strict s (s.elected n voters)
  | write (s : State N T E) (n : N) (e : E) (c : Nat) (hrole : s.role n = .leader)
      (he : termOf e = s.term n) (hc : c ≤ s.commit n) :
      Step Quorum strict s (s.written n e c)
  | commitOwn (s : State N T E) (n : N) (t : T) (i c : Nat) (q : Set N) (hled : s.Led n t)
      (hq : s.Committed Quorum t i q) (hc : c ≤ max (s.commit n) (i + 1))
      (hstrict : strict → s.role n = .leader ∧ s.term n = t) :
      Step Quorum strict s ((s.settle n (s.log n) (i + 1)).send (.tail t (s.log n) c))
  | sendSnapshot (s : State N T E) (n : N) (t : T) (hled : s.Led n t) :
      Step Quorum strict s (s.send (.snapshot t (s.snap n)))
  | compact (s : State N T E) (n : N) (k : Nat) (hbase : (s.snap n).length < k)
      (hcommit : k ≤ s.commit n) (hlog : k ≤ (s.log n).length) :
      Step Quorum strict s (s.compacted n k)
  | recvBatch (s : State N T E) (v : N) (t : T) (upTo c : Nat) (log : List E)
      (hm : .batch t upTo c ∈ s.msgs) (hv : s.Follows v t)
      (hlog : (s.log v).take upTo = (s.tlog t).take upTo ∧ log = s.log v ∨
        (s.log v).take upTo ≠ (s.tlog t).take upTo ∧ log = (s.tlog t).take upTo)
      (hbase : (s.snap v).length < upTo)
      (hfront : s.snap v <+: log ∨
        log.take (s.snap v).length = (s.log v).take (s.snap v).length) :
      Step Quorum strict s ((s.settle v log c).ack v t (upTo - 1))
  | recvTail (s : State N T E) (v : N) (t : T) (content : List E) (c : Nat)
      (hm : .tail t content c ∈ s.msgs) (hv : s.Follows v t)
      (hmatch : content <+: s.log v ∨ content = s.snap v) :
      Step Quorum strict s (s.settle v (s.log v) (min c (s.log v).length))
  | cut (s : State N T E) (v : N) (t : T) (content log : List E) (j : Nat)
      (hm : s.Offers t content) (hv : s.Follows v t) (hj : j < content.length)
      (hne : content[j]? ≠ (s.log v)[j]?)
      (hlog : j = (s.snap v).length ∧ log = s.snap v ∨
        (s.snap v).length < j ∧ log = (s.log v).take j) :
      Step Quorum strict s (s.setLog v log)
  | install (s : State N T E) (v : N) (t : T) (content log : List E)
      (hm : .snapshot t content ∈ s.msgs) (hv : s.Follows v t)
      (hbase : (s.snap v).length < content.length)
      (hlog : (s.log v).length ≤ content.length ∧ log = content ∨
        content.length < (s.log v).length ∧ log = s.log v) :
      Step Quorum strict s (s.installed v content log)

end TinyKV.Raft
