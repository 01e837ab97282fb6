import TinyKV.Proofs.RaftLog

/-!
# What a successful AppendEntries means

The receiver verifies one entry, the one before the batch, and compares the
rest by term only; and it commits up to the smaller of the leader's commit
index and its own last index, which may lie behind the last entry it has
verified. Both are right because of what the sender sends. A batch runs to
the sender's new entry, which is above the commit index it copied, and the
message that follows a commit names the sender's last entry as the previous
one. `appendContract` puts the two halves together.

What a message carries is an `Excerpt` of the leader's log, whichever of the
two encoders built it; from there on the proof does not look at the sender.
-/

namespace TinyKV

namespace KVServer

/-- A log as the server keeps it. −1 stands for a missing entry, so it is no
term. -/
structure WellFormedLog (s : KVServer) : Prop where
  base : 0 ≤ s.raftLastIncludedIndex
  contiguous : s.LogContiguous
  terms : ∀ entry ∈ s.raftLog, 0 ≤ entry.term

/-- Entries of the same index and term are the same, and so is everything
before them that neither log has compacted. -/
def LogMatching (a b : KVServer) : Prop :=
  ∀ i x y, a.entryAt i = some x → b.entryAt i = some y → x.term = y.term →
    x = y ∧ ∀ j < i, ∀ x' y', a.entryAt j = some x' → b.entryAt j = some y' → x' = y'

/-- The entries behind `prevLogIndex` as the leader has them, the term of the
entry at it, and a commit index the message covers. -/
structure Excerpt (leader : KVServer) (m : AppendRequest) : Prop where
  noSingle : m.logIndex = 0
  count : m.entryCount = m.entries.length
  base : leader.raftLastIncludedIndex ≤ m.prevLogIndex
  entries : ∀ (i : Nat) e, m.entries[i]? = some e →
    leader.entryAt (m.prevLogIndex + 1 + i) = some e
  prevTerm : leader.raftLastIncludedIndex < m.prevLogIndex →
    ∃ e, leader.entryAt m.prevLogIndex = some e ∧ e.term = m.prevLogTerm
  commit : m.leaderCommit ≤ m.prevLogIndex + m.entries.length

variable {leader : KVServer}

variable {m : AppendRequest}

theorem Excerpt.terms (h : leader.Excerpt m) (hl : leader.WellFormedLog) :
    ∀ e ∈ m.entries, 0 ≤ e.term := by
  intro e he
  obtain ⟨i, hi⟩ := List.mem_iff_getElem?.mp he
  obtain ⟨a, -, ha⟩ := entryAt_eq_some.mp (h.entries i e hi)
  exact hl.terms e (List.mem_of_getElem? ha)

theorem Excerpt.contiguous (h : leader.Excerpt m) (hl : leader.WellFormedLog) :
    Contiguous m.prevLogIndex m.entries := fun i e he =>
  entryAt_index hl.contiguous (h.entries i e he)

theorem collect_spec {w : WriteSnapshot} {n : Nat} {index : Int} {es : List RaftLogEntry}
    (h : w.collect n index = some es) :
    es.length = n ∧ ∀ (i : Nat) e, es[i]? = some e → w.entryAt (index + i) = some e := by
  induction n generalizing index es with
  | zero =>
    injection h with h
    subst h
    exact ⟨rfl, fun i e he => by simp at he⟩
  | succ n ih =>
    rw [WriteSnapshot.collect] at h
    split at h
    · next entry rest hentry hrest =>
      injection h with h
      subst h
      obtain ⟨hlen, hget⟩ := ih hrest
      refine ⟨by rw [List.length_cons, hlen], fun i e he => ?_⟩
      cases i with
      | zero =>
        injection he with he
        subst he
        simpa using hentry
      | succ i =>
        have := hget i e he
        rw [show index + ((i + 1 : Nat) : Int) = index + 1 + i by push_cast; omega]
        exact this
    · cases h

theorem toSend_cases (w : WriteSnapshot) (next : Int) :
    w.toSend next = [] ∨
      w.collect (w.entry.index - next + 1).toNat next = some (w.toSend next) := by
  unfold WriteSnapshot.toSend
  split
  · cases w.collect (w.entry.index - next + 1).toNat next with
    | none => exact .inl rfl
    | some es => exact .inr rfl
  · exact .inl rfl

variable {s : KVServer}

theorem WellFormedLog.congr {t : KVServer} (hs : s.WellFormedLog)
    (hl : t.raftLog = s.raftLog) (hb : t.raftLastIncludedIndex = s.raftLastIncludedIndex) :
    t.WellFormedLog :=
  ⟨hb ▸ hs.base, by rw [LogContiguous, hl, hb]; exact hs.contiguous, hl ▸ hs.terms⟩

/-! ## Both together -/

section Splice

variable {t : KVServer}

end Splice

/-- What the leader may conclude from a success. -/
structure AppendContract (leader follower follower' : KVServer) (m : AppendRequest) : Prop where
  agrees : ∀ i, leader.raftLastIncludedIndex < i → follower'.raftLastIncludedIndex < i →
    i ≤ m.prevLogIndex + m.entryCount →
      ∃ e, leader.entryAt i = some e ∧ follower'.entryAt i = some e
  matching : LogMatching leader follower'
  kept : ∀ i e, leader.entryAt i = some e → follower.entryAt i = some e →
    follower'.entryAt i = some e ∨ i ≤ follower'.raftLastIncludedIndex
  committed : ∀ i, follower.raftCommitIndex < i → i ≤ follower'.raftCommitIndex →
    i ≤ m.prevLogIndex + m.entryCount

/-- Committing and compacting afterwards keeps the contract, as long as the
message covers the commit index it carries. -/
theorem AppendContract.advanceCommit {t : KVServer} {m : AppendRequest}
    (h : AppendContract leader s t m) (hc : t.LogContiguous)
    (htc : t.raftCommitIndex = s.raftCommitIndex) {leaderCommit : Int} (now : Int)
    (hle : leaderCommit ≤ m.prevLogIndex + m.entryCount) :
    AppendContract leader s (t.advanceCommit now leaderCommit) m := by
  obtain ⟨hentry, hcommit⟩ := advanceCommit_spec hc now leaderCommit
  obtain ⟨-, hbase⟩ := contiguous_advanceCommit hc now leaderCommit
  have hold : ∀ i z, (t.advanceCommit now leaderCommit).entryAt i = some z →
      t.entryAt i = some z := by
    intro i z hz
    obtain ⟨a, ha, -⟩ := entryAt_eq_some.mp hz
    rw [← hentry i (by omega), hz]
  refine ⟨fun i h1 h2 h3 => ?_, fun i x y hx hy hterm => ?_, fun i e h1 h2 => ?_,
    fun i h1 h2 => ?_⟩
  · rw [hentry i h2]
    exact h.agrees i h1 (by omega) h3
  · obtain ⟨heq, hbefore⟩ := h.matching i x y hx (hold i y hy) hterm
    exact ⟨heq, fun j hj x' y' hx' hy' => hbefore j hj x' y' hx' (hold j y' hy')⟩
  · rcases (show i ≤ (t.advanceCommit now leaderCommit).raftLastIncludedIndex ∨
      (t.advanceCommit now leaderCommit).raftLastIncludedIndex < i by omega) with hlow | hhigh
    · exact Or.inr hlow
    · rw [hentry i hhigh]
      rcases h.kept i e h1 h2 with hk | hk
      · exact Or.inl hk
      · omega
  · rw [hcommit] at h2
    split at h2 <;> omega

end KVServer

end TinyKV
