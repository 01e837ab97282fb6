import Mathlib.Data.Int.Order.Basic
import TinyKV.Lib.RaftMoves
import TinyKV.Proofs.AppendContract
import TinyKV.Proofs.Elections
import TinyKV.Proofs.LogCopies

/-!
# Servers as nodes of the log machine

The machine of `Lib/Raft` speaks of whole logs, a server only has what comes
behind its snapshot. `LogOf` says how the two go together, and `Mirrors` adds
the copies a server keeps: the two files, and the router's note of the last
entry, which is what votes are compared by.

Every section that touches the log is then some steps of the machine. The
commit index of the machine is an upper bound only, because a server lowers
its own when it cuts its log.
-/

namespace TinyKV

open Function Raft

instance : Termed RaftLogEntry Int := ⟨RaftLogEntry.term⟩

/-- The machine, with the log entries of the cluster. -/
abbrev Ledger := Raft.State Str Int RaftLogEntry

/-- What the cluster knows of an entry and the position it was written at. -/
structure Placed (i : Nat) (e : RaftLogEntry) : Prop where
  index : e.index = i + 1
  term : 0 ≤ e.term

/-- The term of the last entry, as the source has it for an empty log. -/
def lastTerm (log : List RaftLogEntry) : Int := (log.getLast?.map RaftLogEntry.term).getD 0

theorem lastTerm_take {log : List RaftLogEntry} {i : Nat} {e : RaftLogEntry}
    (he : log[i]? = some e) : lastTerm (log.take (i + 1)) = e.term := by
  have hi := (List.getElem?_eq_some_iff.mp he).1
  rw [lastTerm, List.getLast?_take, if_neg (by omega), Nat.add_sub_cancel, he]
  rfl

theorem lastTerm_eq {a b : List RaftLogEntry} (hlen : a.length = b.length) (hpos : 0 < a.length)
    (h : lastTerm a = lastTerm b) : a.getLast?.map termOf = b.getLast?.map termOf := by
  have ha : a ≠ [] := List.length_pos_iff.mp hpos
  have hb : b ≠ [] := List.length_pos_iff.mp (hlen ▸ hpos)
  rw [lastTerm, lastTerm, List.getLast?_eq_some_getLast ha, List.getLast?_eq_some_getLast hb] at h
  rw [List.getLast?_eq_some_getLast ha, List.getLast?_eq_some_getLast hb]
  exact congrArg some h

section Valid

variable {a : Ledger} {Q : Set Str → Prop} {strict : Prop}

/-- The comparison of the source is the one of the machine. -/
theorem atLeast_of_upToDate (h : Kept Q strict Placed a) {xs ys : List RaftLogEntry}
    (hx : a.Valid xs) (hle : lastTerm xs < lastTerm ys ∨
      lastTerm ys = lastTerm xs ∧ xs.length ≤ ys.length) : AtLeast xs ys := by
  intro x hxl
  have hxl : xs.getLast? = some x := hxl
  have hpos : 0 < xs.length := by
    rcases xs with - | ⟨y, xs⟩
    · cases hxl
    · exact Nat.succ_pos _
  have htx : lastTerm xs = x.term := by rw [lastTerm, hxl]; rfl
  have hplaced : Placed (xs.length - 1) x :=
    h.valid hx (List.getLast?_eq_getElem? ▸ hxl)
  cases hyl : ys.getLast? with
  | none =>
    have hty : lastTerm ys = 0 := by rw [lastTerm, hyl]; rfl
    have hys : ys.length = 0 := by
      rw [List.getLast?_eq_none_iff.mp hyl]
      rfl
    have := hplaced.term
    omega
  | some y =>
    have hty : lastTerm ys = y.term := by rw [lastTerm, hyl]; rfl
    rw [htx, hty] at hle
    exact ⟨y, rfl, hle.imp_right fun ⟨heq, hlen⟩ => ⟨heq.symm, hlen⟩⟩

theorem valid_take_tlog (h : Kept Q strict Placed a) (u : Int) (k : Nat) :
    a.Valid ((a.tlog u).take k) :=
  (h.inv.history.tlog_valid u).sub (List.take_prefix k _)

/-- Where a log has an entry of the right term, it has all that the other log
has up to there. -/
theorem take_eq_of_term {xs ys : List RaftLogEntry} (hx : a.Valid xs) (hy : a.Valid ys) {i : Nat}
    {x y : RaftLogEntry} (hxi : xs[i]? = some x) (hyi : ys[i]? = some y)
    (hterm : x.term = y.term) : xs.take (i + 1) = ys.take (i + 1) := by
  have hi := (List.getElem?_eq_some_iff.mp hxi).1
  have hj := (List.getElem?_eq_some_iff.mp hyi).1
  have hlen : (xs.take (i + 1)).length = (ys.take (i + 1)).length := by
    rw [List.length_take, List.length_take]
    omega
  refine (hx.sub (List.take_prefix _ _)).eq_of_last (hy.sub (List.take_prefix _ _)) hlen
    (lastTerm_eq hlen ?_ ?_)
  · rw [List.length_take]
    omega
  · rw [lastTerm_take hxi, lastTerm_take hyi, hterm]

end Valid

/-! ## What a server has of the log -/

namespace KVServer

/-- The log, the base and the indices are those of the node, and if commits
are strict, only what is committed has been applied. -/
structure LogOf (Q : Set Str → Prop) (strict : Prop) (a : Ledger) (n : Str) (s : KVServer) :
    Prop where
  base : s.raftLastIncludedIndex = (a.snap n).length
  baseTerm : s.raftLastIncludedTerm = lastTerm (a.snap n)
  log : s.raftLog = (a.log n).drop (a.snap n).length
  /-- with nothing behind the snapshot, the snapshot is all there is -/
  whole : (a.log n).length = (a.snap n).length → a.log n = a.snap n
  commit_nonneg : 0 ≤ s.raftCommitIndex
  commit : s.raftCommitIndex ≤ a.commit n
  applied : s.raftLastApplied ≤ a.commit n
  chosen : strict → ∀ x ∈ s.applied, ∃ i : Nat, x.1 = i + 1 ∧ a.ChosenAt Q i x.2

/-- What a start can read from `raft.log` is the log, and the router knows the
last entry. -/
structure Copied (s : KVServer) : Prop where
  file : ∀ log, s.disk.entries? = some log → log = s.raftLog
  index : s.router.lastLogIndex = s.raftLastLogIndex
  term : s.router.lastLogTerm = s.raftLastLogTerm

theorem Copied.congr {s t : KVServer} (h : s.Copied) (hc : t.copies = s.copies) : t.Copied := by
  obtain ⟨hlog, hfile, hlast⟩ := last_congr hc h.index h.term
  refine ⟨?_, hlast.1, hlast.2⟩
  rw [RaftDisk.entries?, disk, hfile, hlog]
  exact h.file

theorem Saved.copied {s : KVServer} (h : s.Saved) : s.Copied := by
  refine ⟨fun log hlog => ?_, h.index, h.term⟩
  rw [RaftDisk.entries?, disk, h.file] at hlog
  exact loadRaftLog_text hlog

structure Mirrors (Q : Set Str → Prop) (strict : Prop) (a : Ledger) (n : Str) (s : KVServer) :
    Prop extends LogOf Q strict a n s where
  copies : s.Copied
  state : s.StateFiled

section LogOf

variable {a a' : Ledger} {n : Str} {s t : KVServer} {Q : Set Str → Prop} {strict : Prop}

theorem LogOf.congr (h : s.LogOf Q strict a n) (hl : t.raftLog = s.raftLog)
    (hb : t.raftLastIncludedIndex = s.raftLastIncludedIndex)
    (hbt : t.raftLastIncludedTerm = s.raftLastIncludedTerm)
    (hc0 : 0 ≤ t.raftCommitIndex) (hc : t.raftCommitIndex ≤ a.commit n)
    (ha : t.raftLastApplied ≤ a.commit n) (hlist : t.applied = s.applied) :
    t.LogOf Q strict a n :=
  ⟨hb.trans h.base, hbt.trans h.baseTerm, hl.trans h.log, h.whole, hc0, hc, ha, hlist ▸ h.chosen⟩

/-- What was committed stays committed. -/
theorem LogOf.chosen_mono (h : s.LogOf Q strict a n) (hg : Grows a a') (hstrict : strict) :
    ∀ x ∈ s.applied, ∃ i : Nat, x.1 = i + 1 ∧ a'.ChosenAt Q i x.2 := by
  intro x hx
  obtain ⟨i, hi, hc⟩ := h.chosen hstrict x hx
  exact ⟨i, hi, hg.chosenAt hc⟩

/-- The node of the machine stays where it is, up to its commit index. -/
theorem Mirrors.stay (h : s.Mirrors Q strict a n) (hg : Grows a a')
    (hlog : a'.log n = a.log n) (hsnap : a'.snap n = a.snap n)
    (hcommit : a.commit n ≤ a'.commit n) : s.Mirrors Q strict a' n where
  base := hsnap ▸ h.base
  baseTerm := hsnap ▸ h.baseTerm
  log := by rw [hlog, hsnap, h.log]
  whole := by
    rw [hlog, hsnap]
    exact h.whole
  commit_nonneg := h.commit_nonneg
  commit := h.commit.trans (Int.ofNat_le.mpr hcommit)
  applied := h.applied.trans (Int.ofNat_le.mpr hcommit)
  chosen := h.chosen_mono hg
  copies := h.copies
  state := h.state

/-- Everything `Mirrors` looks at. -/
def mirrored (s : KVServer) :=
  (s.copies, s.raftCommitIndex, s.raftLastApplied, s.applied, s.raftStateFile)

theorem Mirrors.congr (h : s.Mirrors Q strict a n) (ht : t.mirrored = s.mirrored) :
    t.Mirrors Q strict a n := by
  simp only [mirrored, Prod.mk.injEq] at ht
  obtain ⟨hcopies, hc, happ, hlist, hstate⟩ := ht
  have hagree := h.copies.congr hcopies
  simp only [KVServer.copies, Prod.mk.injEq] at hcopies
  obtain ⟨hlog, hbase, hterm, -, -, -⟩ := hcopies
  refine ⟨h.toLogOf.congr hlog hbase hterm ?_ ?_ ?_ hlist, hagree, ?_⟩
  · rw [hc]
    exact h.commit_nonneg
  · rw [hc]
    exact h.commit
  · rw [happ]
    exact h.applied
  · rw [StateFiled, hstate, raftIndices, hc, happ, hbase, hterm]
    exact h.state

/-- Another node moves. -/
theorem Mirrors.other {P : Nat → RaftLogEntry → Prop} {m : Str} (h : s.Mirrors Q strict a n)
    (hm : Moves Q strict P m a a') (hne : n ≠ m) : s.Mirrors Q strict a' n := by
  obtain ⟨hl, hs, hc⟩ := hm.others n hne
  exact h.stay hm.grows hl hs hc.ge

variable (h : s.LogOf Q strict a n)
include h

theorem LogOf.getElem? (j : Nat) : s.raftLog[j]? = (a.log n)[(a.snap n).length + j]? := by
  rw [h.log, List.getElem?_drop]

/-- The term the server finds at an index behind its snapshot. -/
theorem LogOf.termAt {k : Nat} (hb : (a.snap n).length < k) (hle : k ≤ (a.log n).length) :
    s.raftTermAt k = lastTerm ((a.log n).take k) := by
  obtain ⟨j, rfl⟩ : ∃ j, k = (a.snap n).length + j + 1 := ⟨k - (a.snap n).length - 1, by omega⟩
  have hlt : (a.snap n).length + j < (a.log n).length := by omega
  have he : s.raftLog[j]? = some (a.log n)[(a.snap n).length + j] := by
    rw [h.getElem?, List.getElem?_eq_getElem hlt]
  have h0 : 0 ≤ s.raftLastIncludedIndex := by
    rw [h.base]
    omega
  rw [lastTerm_take (List.getElem?_eq_getElem hlt), ← termAt_log h0 he, h.base]
  congr 1
  push_cast
  omega

theorem LogOf.termAt_base (hb : 0 < (a.snap n).length) :
    s.raftTermAt (a.snap n).length = lastTerm (a.snap n) := by
  rw [← h.base, KVServer.termAt_base (by rw [h.base]; omega), h.baseTerm]

variable (hk : Kept Q strict Placed a)
include hk

theorem LogOf.placed {j : Nat} {e : RaftLogEntry} (he : s.raftLog[j]? = some e) :
    Placed ((a.snap n).length + j) e :=
  hk.valid (hk.inv.holds n).log_valid (h.getElem? j ▸ he)

theorem LogOf.contiguous : s.LogContiguous := by
  intro j e he
  have hp := (h.placed hk he).index
  rw [hp, h.base]
  push_cast
  omega

theorem LogOf.terms : ∀ e ∈ s.raftLog, 0 ≤ e.term := by
  intro e he
  obtain ⟨j, hj⟩ := List.getElem?_of_mem he
  exact (h.placed hk hj).term

theorem LogOf.length : (s.raftLog.length : Int) = (a.log n).length - (a.snap n).length := by
  have hle := (hk.inv.holds n).snap_le
  rw [h.log, List.length_drop]
  omega

theorem LogOf.lastLogIndex : s.raftLastLogIndex = (a.log n).length := by
  rw [lastLogIndex_eq (h.contiguous hk), h.base, h.length hk]
  omega

theorem LogOf.lastLogTerm : s.raftLastLogTerm = lastTerm (a.log n) := by
  have hle := (hk.inv.holds n).snap_le
  rw [raftLastLogTerm, h.log, List.getLast?_drop]
  split
  · next hnone =>
    rw [h.baseTerm]
    by_cases hlen : (a.log n).length ≤ (a.snap n).length
    · rw [h.whole (by omega)]
    · rw [if_neg hlen] at hnone
      rw [List.getLast?_eq_none_iff.mp hnone] at hlen
      exact absurd (Nat.zero_le _) hlen
  · next e hsome =>
    split at hsome
    · cases hsome
    · rw [lastTerm, hsome]
      rfl

end LogOf

/-! ## Applying and compacting -/

section Apply

variable {a : Ledger} {n : Str} {s t : KVServer} {Q : Set Str → Prop} {strict : Prop}

/-- What the loop applies is committed, as the commit index says. -/
theorem LogOf.applyNext (h : s.LogOf Q strict a n) (hk : Kept Q strict Placed a) (now : Int)
    {offset : Nat} {entry : RaftLogEntry} (hlt : s.raftLastApplied < s.raftCommitIndex)
    (hoff : s.raftLogOffset (s.raftLastApplied + 1) = some offset)
    (hget : s.raftLog[offset]? = some entry) : (s.applyNext now entry).LogOf Q strict a n := by
  have hidx := h.contiguous hk offset entry hget
  have hoff := (logOffset_eq_some.mp hoff).1
  have hbase := h.base
  have hcommit := h.commit
  have hat : s.raftLastApplied + 1 = ((a.snap n).length + offset : Nat) + 1 := by
    push_cast
    omega
  refine { h with applied := ?_, chosen := fun hstrict x hx => ?_ }
  · show entry.index ≤ _
    omega
  · rcases List.mem_append.mp hx with hx | hx
    · exact h.chosen hstrict x hx
    · rw [List.mem_singleton.mp hx]
      exact ⟨_, hat, hk.inv.chosenAt hstrict (Nat.le_add_right _ offset) (by omega)
        (h.getElem? offset ▸ hget)⟩

variable (hmeet : ∀ A B, Q A → Q B → ∃ v, v ∈ A ∧ v ∈ B)
  (hk : Kept Q strict Placed a) (h : s.LogOf Q strict a n)
include hmeet hk h

/-- A compaction up to the last applied entry. -/
theorem LogOf.rebase (hlt : s.raftLastIncludedIndex < s.raftLastApplied)
    (hterm : 0 ≤ s.raftTermAt s.raftLastApplied) :
    ∃ a', Moves Q strict Placed n a a' ∧ a'.toState = a.toState ∧ a'.log = a.log ∧
      (s.rebase s.raftLastApplied (s.raftTermAt s.raftLastApplied)).LogOf Q strict a' n := by
  have hb := h.base
  have hcommit := h.applied
  obtain ⟨k, hkapp⟩ : ∃ k : Nat, s.raftLastApplied = k := ⟨s.raftLastApplied.toNat, by omega⟩
  have hklog : k ≤ (a.log n).length := by
    by_contra hgt
    have hlen := h.length hk
    rw [hkapp, termAt_beyond (by omega) (by omega)] at hterm
    omega
  rw [hkapp] at hlt hcommit
  have hmoves := Moves.compact hmeet hk (n := n) (k := k) (by omega) (by omega) hklog
  have hsnap : (a.compacted n k).snap n = (a.log n).take k := update_self _ _ _
  have hlen : ((a.log n).take k).length = k := by
    rw [List.length_take]
    omega
  refine ⟨_, hmoves, rfl, rfl, ?_, ?_, ?_, ?_, h.commit_nonneg, h.commit, h.applied,
    h.chosen_mono hmoves.grows⟩
  · show s.raftLastApplied = _
    rw [hsnap, hlen, hkapp]
  · show s.raftTermAt s.raftLastApplied = _
    rw [hsnap, hkapp, h.termAt (by omega) hklog]
  · show s.raftLog.filter _ = (a.log n).drop _
    rw [((h.contiguous hk).filter (by omega)).1, hsnap, hlen, h.log, List.drop_drop, hb, hkapp]
    congr 1
    omega
  · rw [hsnap]
    intro hall
    rw [hlen] at hall
    exact (List.take_of_length_le (Nat.le_of_eq hall)).symm

theorem LogOf.applyCommitted (hc : s.Copied) (now : Int) :
    ∃ a', Moves Q strict Placed n a a' ∧ a'.toState = a.toState ∧ a'.log = a.log ∧
      (s.applyCommittedRaftEntries now).Mirrors Q strict a' n := by
  have hsnap : s.raftLastIncludedIndex ≤ a.commit n := by
    rw [h.base]
    exact Int.ofNat_le.mpr (hk.inv.holds n).snap_commit
  refine applyCommitted_elim (P := fun t => t.LogOf Q strict a n ∧ t.Copied)
    (Q := fun t => ∃ a', Moves Q strict Placed n a a' ∧ a'.toState = a.toState ∧ a'.log = a.log ∧
      t.Mirrors Q strict a' n) ⟨?_, hc.congr rfl⟩ ?_ ?_ ?_
  · exact h.congr rfl rfl rfl h.commit_nonneg h.commit (max_le h.applied hsnap) rfl
  · rintro t offset entry ⟨ht, hct⟩ hlt hoff hget
    exact ⟨ht.applyNext hk now hlt hoff hget, hct.congr rfl⟩
  · rintro t ⟨ht, hct⟩ _
    exact ⟨a, .refl n hk, rfl, rfl, ht.congr rfl rfl rfl ht.commit_nonneg ht.commit ht.applied rfl,
      hct.congr rfl, stateFiled_of_saved rfl⟩
  · rintro t ⟨ht, -⟩ _ hlt hterm
    obtain ⟨a', hm, hb, hl, hof⟩ := ht.rebase hmeet hk hlt hterm
    exact ⟨a', hm, hb, hl, hof.congr rfl rfl rfl hof.commit_nonneg hof.commit hof.applied rfl,
      Saved.copied ⟨rfl, rfl, rfl⟩, stateFiled_of_saved rfl⟩

theorem LogOf.advanceCommit (hc : s.Copied) (hstate : s.StateFiled) (now : Int)
    {leaderCommit : Int} (hle : min leaderCommit (a.log n).length ≤ a.commit n) :
    ∃ a', Moves Q strict Placed n a a' ∧ a'.toState = a.toState ∧
      (s.advanceCommit now leaderCommit).Mirrors Q strict a' n := by
  unfold KVServer.advanceCommit
  split
  · next hlt =>
    have hlast := h.lastLogIndex hk
    have hnonneg := h.commit_nonneg
    have hof : ({ s with raftCommitIndex := min leaderCommit s.raftLastLogIndex } :
        KVServer).LogOf Q strict a n := by
      refine h.congr rfl rfl rfl ?_ ?_ h.applied rfl
      · show 0 ≤ min leaderCommit s.raftLastLogIndex
        rw [hlast]
        omega
      · show min leaderCommit s.raftLastLogIndex ≤ _
        rw [hlast]
        exact hle
    obtain ⟨a', hm, hb, -, hmir⟩ := hof.applyCommitted hmeet hk (hc.congr rfl) now
    exact ⟨a', hm, hb, hmir⟩
  · exact ⟨a, .refl n hk, rfl, h, hc, hstate⟩

end Apply

end KVServer

/-! ## Requests -/

/-- The request is a batch of the log of its term, from behind `prev` up to
`upTo`. -/
structure AppendRequest.Batch (a : Ledger) (request : AppendRequest) (prev upTo c : Nat) :
    Prop where
  msg : Msg.batch request.term upTo c ∈ a.msgs
  commit : request.leaderCommit = c
  prev_lt : prev < upTo
  prevIndex : request.prevLogIndex = prev
  prevTerm : request.prevLogTerm = lastTerm ((a.tlog request.term).take prev)
  entries : request.entries = ((a.tlog request.term).take upTo).drop prev
  count : request.entryCount = request.entries.length

/-- The request announces a commit index to whoever has the given log. -/
structure AppendRequest.Announces (a : Ledger) (request : AppendRequest)
    (content : List RaftLogEntry) (c : Nat) : Prop where
  msg : Msg.tail request.term content c ∈ a.msgs
  commit : request.leaderCommit = c
  prevIndex : request.prevLogIndex = content.length
  prevTerm : request.prevLogTerm = lastTerm content
  count : request.entryCount = 0
  single : request.logIndex = 0

/-- The position in the log of the last entry a request brings. -/
def AppendRequest.lastPosition (request : AppendRequest) : Nat :=
  (request.prevLogIndex + request.entryCount - 1).toNat

inductive AppendRequest.Vouched (a : Ledger) (request : AppendRequest) : Prop
  | batch (prev upTo c : Nat) (h : request.Batch a prev upTo c)
  | announces (content : List RaftLogEntry) (c : Nat) (h : request.Announces a content c)

/-- The request brings a snapshot the machine has a message for. -/
structure InstallRequest.Vouched (a : Ledger) (request : InstallRequest)
    (content : List RaftLogEntry) : Prop where
  msg : Msg.snapshot request.term content ∈ a.msgs
  index : request.lastLogIndex = content.length
  term : request.lastLogTerm = lastTerm content

section Requests

variable {a a' : Ledger} {n : Str} {Q : Set Str → Prop} {strict : Prop}

variable {upTo c prev : Nat} {request : AppendRequest}

theorem Raft.Kept.batch_le (hk : Kept Q strict Placed a) {u : Int}
    (hm : Msg.batch u upTo c ∈ a.msgs) : upTo ≤ (a.tlog u).length := by
  obtain ⟨-, ⟨e, he, -⟩, -⟩ := hk.inv.msgs _ hm
  have := (List.getElem?_eq_some_iff.mp he).1
  omega

theorem AppendRequest.Batch.lastPosition (hk : Kept Q strict Placed a)
    (h : request.Batch a prev upTo c) :
    0 < request.entryCount ∧ request.lastPosition = upTo - 1 := by
  have hup := hk.batch_le h.msg
  have hlt := h.prev_lt
  have hprev := h.prevIndex
  have hlen : request.entries.length = upTo - prev := by
    rw [h.entries, List.length_drop, List.length_take]
    omega
  rw [AppendRequest.lastPosition, h.count]
  omega

theorem AppendRequest.Batch.placed (hk : Kept Q strict Placed a) {j : Nat}
    (h : request.Batch a prev upTo c) {e : RaftLogEntry} (he : request.entries[j]? = some e) :
    Placed (prev + j) e := by
  rw [h.entries, List.getElem?_drop] at he
  exact hk.valid (valid_take_tlog hk request.term upTo) he

variable (hk : Kept Q strict Placed a) (hm : Moves Q strict Placed n a a')
include hk hm

theorem AppendRequest.Batch.mono (h : request.Batch a prev upTo c) :
    request.Batch a' prev upTo c := by
  have hle := hk.batch_le h.msg
  have hlt := h.prev_lt
  refine { h with msg := hm.grows.msgs h.msg, prevTerm := ?_, entries := ?_ }
  · rw [hm.take_tlog (by omega)]
    exact h.prevTerm
  · rw [hm.take_tlog hle]
    exact h.entries

theorem AppendRequest.Vouched.mono (h : request.Vouched a) : request.Vouched a' := by
  cases h with
  | batch prev upTo c h => exact .batch prev upTo c (h.mono hk hm)
  | announces content c h => exact .announces content c { h with msg := hm.grows.msgs h.msg }

end Requests

/-! ## AppendEntries -/

section Splice

variable {a : Ledger} {Q : Set Str → Prop} {strict : Prop}

/-- What the loop has found equal is equal, with everything before it. -/
theorem take_eq_of_terms (hk : Kept Q strict Placed a) {log : List RaftLogEntry}
    (hlog : a.Valid log) {u : Int} {prev m : Nat} (hpos : 0 < m)
    (hle : prev + m ≤ (a.tlog u).length)
    (hterms : ∀ i < m, ∀ e, (a.tlog u)[prev + i]? = some e →
      ∃ x, log[prev + i]? = some x ∧ x.term = e.term) :
    log.take (prev + m) = (a.tlog u).take (prev + m) := by
  have hlast : prev + (m - 1) < (a.tlog u).length := by omega
  have he := List.getElem?_eq_getElem hlast
  obtain ⟨x, hx, hterm⟩ := hterms (m - 1) (by omega) _ he
  have heq := take_eq_of_term hlog (hk.inv.history.tlog_valid u) hx he hterm
  rwa [show prev + (m - 1) + 1 = prev + m by omega] at heq

/-- Behind the base, a log that is kept up to some place and continued with
another is that other one. -/
theorem take_append_drop_eq {xs ys : List RaftLogEntry} {base k : Nat} (hk : base ≤ k)
    (h : k = base ∨ xs.take k = ys.take k) :
    (xs.drop base).take (k - base) ++ ys.drop k = ys.drop base := by
  have hrest : ys.drop k = (ys.drop base).drop (k - base) := by
    rw [List.drop_drop]
    congr 1
    omega
  have hkeep : (xs.drop base).take (k - base) = (ys.drop base).take (k - base) := by
    rcases h with rfl | h
    · rw [Nat.sub_self, List.take_zero, List.take_zero]
    · rw [List.take_drop, List.take_drop, show base + (k - base) = k by omega, h]
  rw [hrest, hkeep, List.take_append_drop]

/-- What the batch loop makes of a log: nothing new if it has the batch, and
the log of the term otherwise. -/
theorem splice_log (hk : Kept Q strict Placed a) {log : List RaftLogEntry}
    (hlog : a.Valid log) {u : Int} {base prev upTo : Nat} (hbase : base ≤ prev)
    (hprev : prev ≤ log.length) (hlt : prev < upTo) (hle : upTo ≤ (a.tlog u).length)
    (hmatch : prev = base ∨ log.take prev = (a.tlog u).take prev) :
    ∃ log', (log.take upTo = (a.tlog u).take upTo ∧ log' = log ∨
        log.take upTo ≠ (a.tlog u).take upTo ∧ log' = (a.tlog u).take upTo) ∧
      splice (log.drop base) (prev - base) (((a.tlog u).take upTo).drop prev) =
        log'.drop base ∧
      (log'.take prev = log.take prev ∨ prev = base ∧ log' = (a.tlog u).take upTo) := by
  have hget : ∀ i, i < upTo - prev →
      (((a.tlog u).take upTo).drop prev)[i]? = (a.tlog u)[prev + i]? := by
    intro i hi
    rw [List.getElem?_drop, List.getElem?_take_of_lt (by omega)]
  have hdrop : ∀ i, (log.drop base)[prev - base + i]? = log[prev + i]? := by
    intro i
    rw [List.getElem?_drop]
    congr 1
    omega
  have hlen : (((a.tlog u).take upTo).drop prev).length = upTo - prev := by
    rw [List.length_drop, List.length_take]
    omega
  have hpos : prev - base ≤ (log.drop base).length := by
    rw [List.length_drop]
    omega
  obtain ⟨m, hm, hpm, hterms, hcases⟩ :=
    splice_cases hpos (((a.tlog u).take upTo).drop prev)
  rw [hlen] at hm hcases
  rw [List.length_drop] at hpm
  have hsame : 0 < m → log.take (prev + m) = (a.tlog u).take (prev + m) := by
    intro hpos
    refine take_eq_of_terms hk hlog hpos (by omega) fun i hi e he => ?_
    rw [← hdrop]
    exact hterms i hi e ((hget i (by omega)).trans he)
  rcases hcases with ⟨rfl, hsp⟩ | ⟨hlt', hsp, hne⟩
  · refine ⟨log, Or.inl ⟨?_, rfl⟩, hsp, Or.inl rfl⟩
    have heq := hsame (by omega)
    rwa [show prev + (upTo - prev) = upTo by omega] at heq
  · have hdiff : log.take upTo ≠ (a.tlog u).take upTo := by
      intro heq
      have hi : prev + m < (a.tlog u).length := by omega
      have hx : log[prev + m]? = some (a.tlog u)[prev + m] :=
        (getElem?_of_take heq (by omega)).trans (List.getElem?_eq_getElem hi)
      refine hne _ _ ((hdrop m).trans hx) ?_ rfl
      rw [hget m hlt', List.getElem?_eq_getElem hi]
    -- the part that is kept is the same in both logs
    have hfront : prev + m = base ∨
        log.take (prev + m) = ((a.tlog u).take upTo).take (prev + m) := by
      rw [List.take_take, Nat.min_eq_left (by omega)]
      rcases Nat.eq_zero_or_pos m with rfl | hpos
      · exact hmatch
      · exact Or.inr (hsame hpos)
    refine ⟨_, Or.inr ⟨hdiff, rfl⟩, ?_, ?_⟩
    · have heq := take_append_drop_eq (show base ≤ prev + m by omega) hfront
      rwa [hsp, List.drop_drop, show prev - base + m = prev + m - base by omega]
    · rcases hmatch with heq | heq
      · exact Or.inr ⟨heq, rfl⟩
      · refine Or.inl ?_
        rw [List.take_take, show min prev upTo = prev by omega, heq]

end Splice

namespace KVServer

section Append

variable {a : Ledger} {n : Str} {s : KVServer} {Q : Set Str → Prop} {strict : Prop}

/-- A request whose previous entry the server finds in its place: it is the
end of the snapshot, or all before it is in the log. -/
theorem LogOf.prev_match (hk : Kept Q strict Placed a) (h : s.LogOf Q strict a n)
    {front : List RaftLogEntry} (hv : a.Valid front) (hb : (a.snap n).length ≤ front.length)
    (hle : front.length ≤ (a.log n).length)
    (hterm : 0 < front.length → s.raftTermAt front.length = lastTerm front) :
    front = a.snap n ∨
      (a.snap n).length < front.length ∧ front = (a.log n).take front.length := by
  have hh := hk.inv.holds n
  rcases Nat.eq_or_lt_of_le hb with heq | hlt
  · refine Or.inl ?_
    rcases Nat.eq_zero_or_pos front.length with h0 | hpos
    · rw [List.length_eq_zero_iff.mp h0, List.length_eq_zero_iff.mp (heq.trans h0)]
    · have hlast := hterm hpos
      rw [← heq, h.termAt_base (by omega)] at hlast
      exact hv.eq_of_last hh.snap_valid heq.symm (lastTerm_eq heq.symm hpos hlast.symm)
  · refine Or.inr ⟨hlt, ?_⟩
    have hlast := hterm (by omega)
    rw [h.termAt hlt hle] at hlast
    have hlen : front.length = ((a.log n).take front.length).length := by
      rw [List.length_take]
      omega
    exact hv.eq_of_last (hh.log_valid.sub (List.take_prefix _ _)) hlen
      (lastTerm_eq hlen (by omega) hlast.symm)

/-- The first `j` entries behind the snapshot, or the snapshot alone. -/
def logTo (a : Ledger) (n : Str) (j : Nat) : List RaftLogEntry :=
  if j = 0 then a.snap n else (a.log n).take ((a.snap n).length + j)

theorem LogOf.takeLog (h : s.LogOf Q strict a n) (j : Nat)
    (hg : Grows a (a.setLog n (logTo a n j))) :
    ({ s with raftLog := s.raftLog.take j } : KVServer).LogOf Q strict
      (a.setLog n (logTo a n j)) n := by
  have hlog : (a.setLog n (logTo a n j)).log n = logTo a n j := update_self _ _ _
  refine ⟨h.base, h.baseTerm, ?_, ?_, h.commit_nonneg, h.commit, h.applied, h.chosen_mono hg⟩
  · show s.raftLog.take j = ((a.setLog n (logTo a n j)).log n).drop (a.snap n).length
    rw [hlog, h.log, logTo]
    split
    · next h0 => rw [h0, List.take_zero, List.drop_length]
    · rw [List.take_drop]
  · show _ = (a.snap n).length → _ = a.snap n
    rw [hlog, logTo]
    split
    · exact fun _ => rfl
    · intro hlen
      rw [List.length_take] at hlen
      have hshort : (a.log n).length = (a.snap n).length := by omega
      rw [List.take_of_length_le (by omega)]
      exact h.whole hshort

/-- The server takes over a longer log of its node. -/
theorem LogOf.grow {a' : Ledger} (h : s.LogOf Q strict a n) (hg : Grows a a')
    (hsnap : a'.snap n = a.snap n) (hcommit : a.commit n ≤ a'.commit n)
    (hlong : (a.snap n).length < (a'.log n).length) :
    ({ s with raftLog := (a'.log n).drop (a.snap n).length } : KVServer).LogOf Q strict a' n where
  base := hsnap ▸ h.base
  baseTerm := hsnap ▸ h.baseTerm
  log := by rw [hsnap]
  whole hall := by
    rw [hsnap] at hall
    omega
  commit_nonneg := h.commit_nonneg
  commit := h.commit.trans (Int.ofNat_le.mpr hcommit)
  applied := h.applied.trans (Int.ofNat_le.mpr hcommit)
  chosen := h.chosen_mono hg

theorem LogOf.saved (h : s.LogOf Q strict a n) :
    s.persistRaftLog.updateLogInfo.LogOf Q strict a n :=
  h.congr rfl rfl rfl h.commit_nonneg h.commit h.applied rfl

variable (hmeet : ∀ A B, Q A → Q B → ∃ v, v ∈ A ∧ v ∈ B)
  (hk : Kept Q strict Placed a)
include hmeet hk

variable {content : List RaftLogEntry} {prev c : Nat} {request : AppendRequest}

/-- The branch for a previous entry of another term. At the base there is
nothing to erase. -/
theorem LogOf.rejectPrev (h : s.LogOf Q strict a n) {u : Int} (hm : a.Offers u content)
    (hf : a.Follows n u) (hpos : 0 < prev) (hle : prev ≤ content.length)
    (hb : (a.snap n).length ≤ prev) (hlog : prev ≤ (a.log n).length)
    (hterm : s.raftTermAt prev ≠ lastTerm (content.take prev)) :
    ∃ a', Moves Q strict Placed n a a' ∧ a'.toState = a.toState ∧
      (s.rejectPrev prev).Mirrors Q strict a' n := by
  have hnonneg := h.commit_nonneg
  have lower : ∀ {x : Int}, x ≤ a.commit n →
      (if (prev : Int) ≤ x then (prev : Int) - 1 else x) ≤ a.commit n := by
    intro x hx
    split <;> omega
  have nonneg : (0 : Int) ≤
      if (prev : Int) ≤ s.raftCommitIndex then (prev : Int) - 1 else s.raftCommitIndex := by
    split <;> omega
  -- whatever log is left, it is saved together with the indices
  have save : ∀ {a' : Ledger} {u : KVServer}, Moves Q strict Placed n a a' →
      u.LogOf Q strict a' n → ∀ {c k : Int}, 0 ≤ c → c ≤ a'.commit n → k ≤ a'.commit n →
        (updateLogInfo (persistRaft
          { u with raftCommitIndex := c, raftLastApplied := k })).Mirrors Q strict a' n := by
    intro a' u hmoves hu c k h0 hc hk'
    have hof : (updateLogInfo (persistRaft
        { u with raftCommitIndex := c, raftLastApplied := k })).LogOf Q strict a' n :=
      hu.congr rfl rfl rfl h0 hc hk' rfl
    exact ⟨hof, (saved_both _).copied, stateFiled_of_saved rfl⟩
  unfold KVServer.rejectPrev
  simp only []
  rcases Nat.eq_or_lt_of_le hb with heq | hlt
  · have herase : s.eraseFrom prev = s := by
      rw [eraseFrom, logOffset_eq_none.mpr (Or.inl (by rw [h.base]; omega))]
    rw [herase]
    exact ⟨a, .refl n hk, rfl, save (.refl n hk) h nonneg (lower h.commit) (lower h.applied)⟩
  · obtain ⟨j, rfl⟩ : ∃ j, prev = (a.snap n).length + j + 1 :=
      ⟨prev - (a.snap n).length - 1, by omega⟩
    have herase : s.eraseFrom ((a.snap n).length + j + 1 : Nat) =
        { s with raftLog := s.raftLog.take j } := by
      rw [← eraseFrom_log, h.base]
      congr 1
      push_cast
      omega
    rw [herase]
    -- the two logs have entries of different terms there
    have hne : content[(a.snap n).length + j]? ≠ (a.log n)[(a.snap n).length + j]? := by
      intro heq
      have hx := List.getElem?_eq_getElem (l := a.log n) (i := (a.snap n).length + j) (by omega)
      rw [hx] at heq
      rw [h.termAt hlt hlog, lastTerm_take hx, lastTerm_take heq] at hterm
      exact hterm rfl
    have hto : (a.snap n).length + j = (a.snap n).length ∧ logTo a n j = a.snap n ∨
        (a.snap n).length < (a.snap n).length + j ∧
          logTo a n j = (a.log n).take ((a.snap n).length + j) := by
      rw [logTo]
      split
      · next h0 => exact Or.inl ⟨by omega, rfl⟩
      · next h0 => exact Or.inr ⟨by omega, rfl⟩
    have hcut := Moves.cut hmeet hk hm hf (by omega) hne hto
    exact ⟨_, hcut, rfl, save hcut (h.takeLog j hcut.grows) nonneg (lower h.commit)
      (lower h.applied)⟩

omit hmeet in
/-- The batch loop, for a request whose previous entry is in its place. -/
theorem LogOf.appendLoop (h : s.LogOf Q strict a n) {upTo : Nat} (hr : request.Batch a prev upTo c)
    (hb : (a.snap n).length ≤ prev) (hle : prev ≤ (a.log n).length)
    (hmatch : prev = (a.snap n).length ∨
      (a.log n).take prev = (a.tlog request.term).take prev) :
    ∃ log', ((a.log n).take upTo = (a.tlog request.term).take upTo ∧ log' = a.log n ∨
        (a.log n).take upTo ≠ (a.tlog request.term).take upTo ∧
          log' = (a.tlog request.term).take upTo) ∧
      (log'.take prev = (a.log n).take prev ∨
        prev = (a.snap n).length ∧ log' = (a.tlog request.term).take upTo) ∧
      s.appendLoop (request.prevLogIndex + 1) request.entries =
        ({ s with raftLog := log'.drop (a.snap n).length }, true) := by
  obtain ⟨log', hlog', hsplice, hkeep⟩ := splice_log hk (hk.inv.holds n).log_valid hb hle
    hr.prev_lt (hk.batch_le hr.msg) hmatch
  have hcont : Contiguous (s.raftLastIncludedIndex + ((prev - (a.snap n).length : Nat) : Int))
      request.entries := by
    intro j e he
    rw [(hr.placed hk he).index, h.base]
    push_cast
    omega
  have hterms : ∀ e ∈ request.entries, e.term ≠ -1 := by
    intro e he
    obtain ⟨j, hj⟩ := List.getElem?_of_mem he
    have := (hr.placed hk hj).term
    omega
  have hloop := appendLoop_eq s (prev - (a.snap n).length) (by rw [h.base]; omega)
    (h.contiguous hk) (fun x hx => by have := h.terms hk x hx; omega) hterms
    (by have := h.length hk; omega) hcont
  have hindex : s.raftLastIncludedIndex + ((prev - (a.snap n).length : Nat) : Int) + 1 =
      request.prevLogIndex + 1 := by
    rw [h.base, hr.prevIndex]
    omega
  have hafter : splice s.raftLog (prev - (a.snap n).length) request.entries =
      log'.drop (a.snap n).length := by
    rw [h.log, hr.entries, hsplice]
  rw [hindex, hafter] at hloop
  exact ⟨log', hlog', hkeep, hloop⟩

/-- A batch whose previous entry matches is taken over and acknowledged. -/
theorem Mirrors.takeBatch (h : s.Mirrors Q strict a n) {upTo : Nat}
    (hr : request.Batch a prev upTo c) (hf : a.Follows n request.term)
    (hb : (a.snap n).length ≤ prev) (hle : prev ≤ (a.log n).length)
    (hterm : 0 < prev → s.raftTermAt prev = request.prevLogTerm) (now : Int) :
    ∃ t, s.appendLoop (request.prevLogIndex + 1) request.entries = (t, true) ∧
      ∃ a', Moves Q strict Placed n a a' ∧ a'.toState = a.toState ∧
        (advanceCommit now t.persistRaftLog.updateLogInfo request.leaderCommit).Mirrors Q strict
          a' n ∧
        (n, request.term, upTo - 1) ∈ a'.acks := by
  have hup := hk.batch_le hr.msg
  have hlt := hr.prev_lt
  have hlen : ((a.tlog request.term).take prev).length = prev := by
    rw [List.length_take]
    omega
  have hfront := h.prev_match hk (valid_take_tlog hk request.term prev)
    (by rw [hlen]; exact hb) (by rw [hlen]; exact hle)
    (by rw [hlen, ← hr.prevTerm]; exact hterm)
  rw [hlen] at hfront
  have hmatch : prev = (a.snap n).length ∨
      (a.log n).take prev = (a.tlog request.term).take prev := by
    rcases hfront with heq | ⟨-, heq⟩
    · exact Or.inl (by rw [← heq, hlen])
    · exact Or.inr heq.symm
  obtain ⟨log', hlog', hkeep, hloop⟩ := h.appendLoop hk hr hb hle hmatch
  refine ⟨_, hloop, ?_⟩
  have hlong : upTo ≤ log'.length := by
    rcases hlog' with ⟨heq, rfl⟩ | ⟨-, rfl⟩
    · have := congrArg List.length heq
      rw [List.length_take, List.length_take] at this
      omega
    · rw [List.length_take]
      omega
  have hmoves := Moves.recvBatch hmeet hk hr.msg hf hlog' (by omega) (by
    rcases hkeep with heq | ⟨heq, rfl⟩
    · refine Or.inr ?_
      have htake := congrArg (List.take (a.snap n).length) heq
      rwa [List.take_take, List.take_take, Nat.min_eq_left hb] at htake
    · refine Or.inl ?_
      rcases hfront with hsnap | ⟨hlt', -⟩
      · rw [← hsnap]
        exact List.take_prefix_take_left (by omega)
      · omega)
  generalize ha₁ : (a.settle n log' c).ack n request.term (upTo - 1) = a₁ at hmoves
  have hlogn : a₁.log n = log' := by
    rw [← ha₁]
    exact update_self _ _ _
  have hsnapn : a₁.snap n = a.snap n := by
    rw [← ha₁]
    rfl
  have hcommit : a₁.commit n = max (a.commit n) c := by
    rw [← ha₁]
    exact update_self _ _ _
  have hbound : a.commit n ≤ a₁.commit n := hcommit ▸ le_max_left _ _
  have hof := h.grow hmoves.grows hsnapn hbound (by rw [hlogn]; omega)
  rw [hlogn] at hof
  have hof' := hof.saved
  have hadvance : min request.leaderCommit (a₁.log n).length ≤ a₁.commit n := by
    rw [hcommit, hr.commit]
    omega
  obtain ⟨a', hm', hb', hmir⟩ := hof'.advanceCommit hmeet hmoves.kept
    (saved_log _).copied h.state now hadvance
  refine ⟨a', hmoves.trans ?_ hm', hb'.trans ?_, hmir, hm'.grows.acks ?_⟩
  · rw [← ha₁]
    exact fun _ _ hled => hled
  · rw [← ha₁]
    rfl
  · rw [← ha₁]
    exact Set.mem_insert _ _

/-- A commit message whose log the server has. -/
theorem Mirrors.takeCommit (h : s.Mirrors Q strict a n) (hr : request.Announces a content c)
    (hf : a.Follows n request.term) (hb : (a.snap n).length ≤ content.length)
    (hle : content.length ≤ (a.log n).length)
    (hterm : 0 < content.length → s.raftTermAt content.length = request.prevLogTerm) (now : Int) :
    ∃ a', Moves Q strict Placed n a a' ∧ a'.toState = a.toState ∧
      (advanceCommit now s request.leaderCommit).Mirrors Q strict a' n := by
  obtain ⟨-, hvalid, -⟩ := hk.inv.msgs _ hr.msg
  have hfront := h.prev_match hk hvalid hb hle (hr.prevTerm ▸ hterm)
  have hmatch : content <+: a.log n ∨ content = a.snap n := by
    rcases hfront with heq | ⟨-, heq⟩
    · exact Or.inr heq
    · rw [heq]
      exact Or.inl (List.take_prefix _ _)
  have hmoves := Moves.recvTail hmeet hk hr.msg hf hmatch
  have hlogn : (a.settle n (a.log n) (min c (a.log n).length)).log n = a.log n :=
    update_self _ _ _
  have hcommit : (a.settle n (a.log n) (min c (a.log n).length)).commit n =
      max (a.commit n) (min c (a.log n).length) := update_self _ _ _
  have hs := h.stay hmoves.grows hlogn rfl (hcommit ▸ le_max_left _ _)
  have hadvance : min request.leaderCommit
      ((a.settle n (a.log n) (min c (a.log n).length)).log n).length ≤
        (a.settle n (a.log n) (min c (a.log n).length)).commit n := by
    rw [hcommit, hlogn, hr.commit]
    omega
  obtain ⟨a', hm', hb', hmir⟩ := hs.advanceCommit hmeet hmoves.kept hs.copies hs.state now hadvance
  exact ⟨a', hmoves.trans (fun _ _ hled => hled) hm', hb', hmir⟩

omit hmeet in
/-- The front of a request, and what it offers behind it. -/
theorem vouched_front (hr : request.Vouched a) :
    ∃ content prev, request.prevLogIndex = (prev : Nat) ∧ prev ≤ content.length ∧
      request.prevLogTerm = lastTerm (content.take prev) ∧ a.Offers request.term content := by
  cases hr with
  | batch prev upTo c hr =>
    have hup := hk.batch_le hr.msg
    have hlt := hr.prev_lt
    refine ⟨(a.tlog request.term).take upTo, prev, hr.prevIndex, ?_, ?_,
      Or.inl ⟨upTo, c, hr.msg, rfl⟩⟩
    · rw [List.length_take]
      omega
    · rw [hr.prevTerm, List.take_take, Nat.min_eq_left hlt.le]
  | announces content c hr =>
    refine ⟨content, content.length, hr.prevIndex, Nat.le_refl _, ?_, Or.inr ⟨c, hr.msg⟩⟩
    rw [hr.prevTerm, List.take_length]

theorem Mirrors.appendLocked (h : s.Mirrors Q strict a n) (hr : request.Vouched a)
    (hf : a.Follows n request.term) (now : Int) :
    ∃ a', Moves Q strict Placed n a a' ∧ a'.toState = a.toState ∧
      (s.appendLocked now request).1.Mirrors Q strict a' n ∧
      ((s.appendLocked now request).2.1 = true → 0 < request.entryCount →
        (n, request.term, request.lastPosition) ∈ a'.acks) := by
  have refused : ∃ a', Moves Q strict Placed n a a' ∧ a'.toState = a.toState ∧
      s.Mirrors Q strict a' n ∧ (false = true → 0 < request.entryCount →
        (n, request.term, request.lastPosition) ∈ a'.acks) :=
    ⟨a, .refl n hk, rfl, h, fun hno => by cases hno⟩
  have hbase := h.base
  have hlast := h.lastLogIndex hk
  unfold KVServer.appendLocked
  split
  · exact refused
  · next hprev =>
    split
    · exact refused
    · next hbeyond =>
      split
      · next hterm =>
        obtain ⟨content, prev, hindex, hle, hprevTerm, hoffers⟩ := vouched_front hk hr
        rw [hindex, hprevTerm] at hterm
        rw [hindex] at hprev hbeyond
        obtain ⟨a', hm, hb, hmir⟩ := h.rejectPrev hmeet hk hoffers hf (by omega) hle
          (by omega) (by omega) hterm.2
        rw [hindex]
        exact ⟨a', hm, hb, hmir, fun hno => by cases hno⟩
      · next hterm =>
        cases hr with
        | batch prev upTo c hr =>
          have hindex := hr.prevIndex
          rw [hindex] at hprev hbeyond hterm
          obtain ⟨t, hloop, a', hm, hb, hmir, hack⟩ := h.takeBatch hmeet hk hr hf
            (by omega) (by omega) (fun hpos => by_contra fun hne =>
              hterm ⟨by omega, hne⟩) now
          obtain ⟨hpos, hposition⟩ := hr.lastPosition hk
          rw [if_pos hpos, if_neg (not_not.mpr hr.count.symm), hloop]
          exact ⟨a', hm, hb, hmir, fun _ _ => hposition ▸ hack⟩
        | announces content c hr =>
          rw [hr.prevIndex] at hprev hbeyond hterm
          obtain ⟨a', hm, hb, hmir⟩ := h.takeCommit hmeet hk hr hf (by omega) (by omega)
            (fun hpos => by_contra fun hne => hterm ⟨by omega, hne⟩) now
          rw [if_neg (by rw [hr.count]; omega), if_neg (by rw [hr.single]; omega)]
          refine ⟨a', hm, hb, hmir, fun _ hpos => ?_⟩
          rw [hr.count] at hpos
          cases hpos

/-! ## InstallSnapshot -/

theorem Mirrors.installSet (h : s.Mirrors Q strict a n) {request : InstallRequest}
    (hr : request.Vouched a content) (hf : a.Follows n request.term)
    (hnew : s.raftLastIncludedIndex < request.lastLogIndex) :
    ∃ a', Moves Q strict Placed n a a' ∧ a'.toState = a.toState ∧
      (s.installSet request).Mirrors Q strict a' n := by
  have hbase := h.base
  have hindex := hr.index
  obtain ⟨log', hlog'⟩ : ∃ log', log' = if (a.log n).length ≤ content.length then content
      else a.log n := ⟨_, rfl⟩
  have hcases : (a.log n).length ≤ content.length ∧ log' = content ∨
      content.length < (a.log n).length ∧ log' = a.log n := by
    rw [hlog']
    split
    · next hle => exact Or.inl ⟨hle, rfl⟩
    · next hgt => exact Or.inr ⟨by omega, rfl⟩
  have hmoves := Moves.install hmeet hk hr.msg hf (by omega) hcases
  refine ⟨_, hmoves, rfl, ?_⟩
  have hlogn : (a.installed n content log').log n = log' := update_self _ _ _
  have hsnapn : (a.installed n content log').snap n = content := update_self _ _ _
  have hcommit : (a.installed n content log').commit n = max (a.commit n) content.length :=
    update_self _ _ _
  have hc := h.commit
  have hc0 := h.commit_nonneg
  have happ := h.applied
  have hof : (s.installSet request).LogOf Q strict (a.installed n content log') n := by
    refine ⟨?_, ?_, ?_, ?_, ?_, ?_, ?_, h.chosen_mono hmoves.grows⟩
    · show request.lastLogIndex = _
      rw [hsnapn, hindex]
    · show request.lastLogTerm = _
      rw [hsnapn, hr.term]
    · show s.raftLog.filter _ = _
      rw [((h.contiguous hk).filter hnew.le).1, hsnapn, hlogn, h.log, List.drop_drop, hbase,
        hindex, hlog']
      have hsum : (a.snap n).length + ((content.length : Int) - (a.snap n).length).toNat =
          content.length := by omega
      rw [hsum]
      split
      · next hle => rw [List.drop_length, List.drop_eq_nil_of_le hle]
      · rfl
    · rw [hlogn, hsnapn, hlog']
      split
      · exact fun _ => rfl
      · intro hlen
        omega
    · show 0 ≤ max s.raftCommitIndex request.lastLogIndex
      omega
    · show max s.raftCommitIndex request.lastLogIndex ≤ _
      rw [hcommit]
      omega
    · show max s.raftLastApplied request.lastLogIndex ≤ _
      rw [hcommit]
      omega
  exact ⟨hof, (saved_both _).copied, stateFiled_of_saved rfl⟩

end Append

end KVServer

/-! ## Writes -/

/-- What a write has copied is the log of the term it wrote in, up to its
entry at position `i`, without the `k` entries in the snapshot. -/
structure WriteSnapshot.Copied (a : Ledger) (n : Str) (w : WriteSnapshot) (i k c : Nat) :
    Prop where
  led : a.Led n w.entry.term
  entry : (a.tlog w.entry.term)[i]? = some w.entry
  msg : Msg.batch w.entry.term (i + 1) c ∈ a.msgs
  commit : w.commit = c
  base_le : k ≤ i
  base : w.snapshotIndex = k
  baseTerm : w.snapshotTerm = lastTerm ((a.tlog w.entry.term).take k)
  log : w.log = ((a.tlog w.entry.term).take (i + 1)).drop k

theorem WriteSnapshot.Copied.mono {a a' : Ledger} {n m : Str} {Q : Set Str → Prop}
    {strict : Prop} {w : WriteSnapshot} {i k c : Nat} (h : w.Copied a n i k c)
    (hk : Kept Q strict Placed a) (hm : Moves Q strict Placed m a a') :
    w.Copied a' n i k c := by
  have hle := hk.batch_le h.msg
  have hki := h.base_le
  exact
    { led := hm.ballot.led h.led
      entry := getElem?_mono (hm.grows.tlog _) h.entry
      msg := hm.grows.msgs h.msg
      commit := h.commit
      base_le := h.base_le
      base := h.base
      baseTerm := by
        rw [hm.take_tlog (by omega)]
        exact h.baseTerm
      log := by
        rw [hm.take_tlog hle]
        exact h.log }

section Batches

variable {a : Ledger} {n : Str} {w : WriteSnapshot} {i k c : Nat}

theorem WriteSnapshot.Copied.entryAt (h : w.Copied a n i k c) {j : Nat} (hj : k ≤ j) :
    w.entryAt (j + 1) = ((a.tlog w.entry.term).take (i + 1))[j]? := by
  have hoffset : ((j : Int) + 1 - w.snapshotIndex - 1) = ((j - k : Nat) : Int) := by
    rw [h.base]
    omega
  rw [WriteSnapshot.entryAt]
  simp only [hoffset]
  rw [if_neg (by omega), Int.toNat_natCast, h.log, List.getElem?_drop]
  congr 1
  omega

variable {Q : Set Str → Prop} {strict : Prop} (hk : Kept Q strict Placed a)
  (h : w.Copied a n i k c)
include hk h

theorem WriteSnapshot.Copied.index : w.entry.index = i + 1 := (hk.entry _ _ _ h.entry).index

/-- The entries a write sends from an index on are those of its term. -/
theorem WriteSnapshot.Copied.collect {prev : Nat} (hprev : k ≤ prev) (hle : prev ≤ i)
    {es : List RaftLogEntry}
    (hes : w.collect (w.entry.index - (prev + 1) + 1).toNat (prev + 1) = some es) :
    es = ((a.tlog w.entry.term).take (i + 1)).drop prev := by
  obtain ⟨hlen, hget⟩ := KVServer.collect_spec hes
  have hup := hk.batch_le h.msg
  rw [h.index hk] at hlen
  have hlen' : (((a.tlog w.entry.term).take (i + 1)).drop prev).length = es.length := by
    rw [List.length_drop, List.length_take]
    omega
  refine List.ext_getElem? fun j => ?_
  rcases Nat.lt_or_ge j es.length with hj | hj
  · have hj' := List.getElem?_eq_getElem hj
    have hat := hget j _ hj'
    rw [show (prev : Int) + 1 + j = ((prev + j : Nat) : Int) + 1 by omega,
      h.entryAt (by omega)] at hat
    rw [List.getElem?_drop, hat, hj']
  · rw [List.getElem?_eq_none hj, List.getElem?_eq_none (by omega)]

omit hk in
theorem WriteSnapshot.Copied.prevTerm {prev : Nat} (hprev : k ≤ prev) {term : Int}
    (ht : w.prevTerm prev = some term) : term = lastTerm ((a.tlog w.entry.term).take prev) := by
  have hbase := h.base
  rw [WriteSnapshot.prevTerm] at ht
  split at ht
  · next heq =>
    injection ht with ht
    rw [← ht, h.baseTerm, show k = prev by omega]
  · split at ht
    · next hlt =>
      obtain ⟨j, rfl⟩ : ∃ j, prev = j + 1 := ⟨prev - 1, by omega⟩
      obtain ⟨e, he, hterm⟩ := Option.map_eq_some_iff.mp ht
      rw [show ((j + 1 : Nat) : Int) = (j : Int) + 1 by omega, h.entryAt (by omega)] at he
      rw [← hterm, lastTerm_take (getElem?_mono (List.take_prefix _ _) he)]
    · omega

/-- The batch a write sends is one of the log of its term. -/
theorem WriteSnapshot.Copied.batch {s : KVServer} {next : Int} (hlt : w.snapshotIndex < next)
    (hle : next ≤ w.entry.index) {request : AppendRequest}
    (hr : w.batch s next = some request) :
    request.term = w.entry.term ∧ ∃ prev, request.Batch a prev (i + 1) c := by
  have hbase := h.base
  have hindex := h.index hk
  obtain ⟨prev, rfl⟩ : ∃ prev : Nat, next = prev + 1 := ⟨(next - 1).toNat, by omega⟩
  rw [WriteSnapshot.batch, Int.add_sub_cancel] at hr
  split at hr
  · cases hr
  · next term hterm =>
    split at hr
    · cases hr
    · next hne =>
      injection hr with hr
      have hentries : w.toSend (prev + 1) =
          ((a.tlog w.entry.term).take (i + 1)).drop prev := by
        rcases KVServer.toSend_cases w (prev + 1) with hnil | hes
        · rw [hnil] at hne
          exact absurd rfl hne
        · exact h.collect hk (by omega) (by omega) hes
      have hup := hk.batch_le h.msg
      have hlast : (w.toSend (prev + 1)).getLast? = some w.entry := by
        rw [hentries, List.getLast?_drop, if_neg (by rw [List.length_take]; omega),
          List.getLast?_take, if_neg (by omega), Nat.add_sub_cancel, h.entry]
        rfl
      have hrequest : request.term = w.entry.term := by
        rw [← hr, KVServer.encodeRaftAppendBatch, hlast]
      refine ⟨hrequest, prev, ?_⟩
      have hprevTerm := h.prevTerm (by omega) hterm
      refine ⟨hrequest ▸ h.msg, ?_, by omega, ?_, ?_, ?_, ?_⟩
      · rw [← hr]
        exact h.commit
      · rw [← hr]
        rfl
      · rw [hrequest, ← hr]
        exact hprevTerm
      · rw [hrequest, ← hr]
        exact hentries
      · rw [← hr]
        rfl

end Batches

namespace KVServer

/-- The entry a write appends. -/
def newEntry (s : KVServer) (request : WriteRequest) : RaftLogEntry :=
  ⟨s.raftLastLogIndex + 1, s.router.currentTerm, request.type, request.key, request.value,
    request.ttlSeconds⟩

theorem newEntry_term (s : KVServer) (request : WriteRequest) :
    (s.newEntry request).term = s.router.currentTerm := rfl

theorem appendWrite_snapshot (s : KVServer) (request : WriteRequest) :
    (s.appendWrite request).2 = ⟨s.newEntry request, s.raftLog ++ [s.newEntry request],
      s.raftCommitIndex, s.raftLastIncludedIndex, s.raftLastIncludedTerm⟩ := rfl

section Write

variable {a : Ledger} {n : Str} {s : KVServer} {Q : Set Str → Prop} {strict : Prop}
  (hmeet : ∀ A B, Q A → Q B → ∃ v, v ∈ A ∧ v ∈ B)
  (hk : Kept Q strict Placed a) (h : s.Mirrors Q strict a n)
include hmeet hk h

theorem Mirrors.appendWrite {request : WriteRequest} (hrole : a.role n = .leader)
    (hterm : a.term n = s.router.currentTerm) (hnonneg : 0 ≤ s.router.currentTerm) :
    ∃ a', Moves Q strict Placed n a a' ∧ a'.toState = a.toState ∧
      (s.appendWrite request).1.Mirrors Q strict a' n ∧
      ∃ i k c, (s.appendWrite request).2.Copied a' n i k c ∧
        (n, (s.appendWrite request).2.entry.term, i) ∈ a'.acks := by
  have hh := hk.inv.holds n
  have hc0 := h.commit_nonneg
  have hcle := h.commit
  obtain ⟨c, hc⟩ : ∃ c : Nat, s.raftCommitIndex = c := ⟨s.raftCommitIndex.toNat, by omega⟩
  have hplaced : Placed (a.log n).length (s.newEntry request) :=
    ⟨by rw [newEntry, h.lastLogIndex hk], hnonneg⟩
  have hmoves := Moves.write hmeet hk (c := c) hrole (e := s.newEntry request) hterm.symm
    (by omega) hplaced
  have hlogn : (a.written n (s.newEntry request) c).log n = a.log n ++ [s.newEntry request] :=
    written_log_self
  have htlog : (a.written n (s.newEntry request) c).tlog s.router.currentTerm =
      a.log n ++ [s.newEntry request] := by
    rw [← hterm]
    exact written_tlog_self
  have hraftLog : s.raftLog ++ [s.newEntry request] =
      (a.log n ++ [s.newEntry request]).drop (a.snap n).length := by
    rw [List.drop_append_of_le_length hh.snap_le, h.log]
  have hlong : (a.snap n).length < ((a.written n (s.newEntry request) c).log n).length := by
    have := hh.snap_le
    rw [hlogn, List.length_append, List.length_singleton]
    omega
  have hof : (s.appendWrite request).1.LogOf Q strict (a.written n (s.newEntry request) c) n := by
    have hgrown := (h.grow hmoves.grows rfl (Nat.le_refl _) hlong).saved
    rw [hlogn, ← hraftLog] at hgrown
    exact hgrown
  refine ⟨_, hmoves, rfl, ⟨hof, (saved_log _).copied, h.state⟩, (a.log n).length,
    (a.snap n).length, c, ?_, ?_⟩
  · rw [appendWrite_snapshot]
    have hsnap := List.prefix_iff_eq_take.mp (hh.leader_snap hrole)
    refine ⟨?_, ?_, ?_, hc, hh.snap_le, h.base, ?_, ?_⟩
    · show a.Led n s.router.currentTerm
      rw [← hterm]
      exact hk.inv.ballot.leading n hrole
    · rw [newEntry_term, htlog, List.getElem?_concat_length]
    · rw [newEntry_term, ← hterm]
      exact Set.mem_insert _ _
    · rw [newEntry_term, htlog, List.take_append_of_le_length hh.snap_le, ← hsnap]
      exact h.baseTerm
    · rw [newEntry_term, htlog, List.take_of_length_le (by rw [List.length_append]; rfl)]
      exact hraftLog
  · rw [appendWrite_snapshot, newEntry_term, ← hterm]
    exact Set.mem_insert _ _

theorem Mirrors.commitWrite {entry : RaftLogEntry} {i : Nat} {q : Set Str}
    (hled : a.Led n entry.term) (hq : a.Committed Q entry.term i q)
    (hindex : entry.index = i + 1)
    (hstrict : strict → a.role n = .leader ∧ a.term n = entry.term) (now : Int) :
    ∃ a', Moves Q strict Placed n a a' ∧ a'.toState = a.toState ∧
      (s.commitWrite now entry).Mirrors Q strict a' n ∧
      ∃ content c, ((s.commitWrite now entry).commitMessage entry).Announces a' content c := by
  have hc0 := h.commit_nonneg
  have hcle := h.commit
  obtain ⟨c, hc⟩ : ∃ c : Nat, max s.raftCommitIndex entry.index = c :=
    ⟨(max s.raftCommitIndex entry.index).toNat, by omega⟩
  have hmoves := Moves.commitOwn hmeet hk hled hq (c := c) (by omega) hstrict
  generalize ha₁ : (a.settle n (a.log n) (i + 1)).send (.tail entry.term (a.log n) c) = a₁
    at hmoves
  have hlogn : a₁.log n = a.log n := by
    rw [← ha₁]
    exact update_self _ _ _
  have hsnapn : a₁.snap n = a.snap n := by
    rw [← ha₁]
    rfl
  have hcommit : a₁.commit n = max (a.commit n) (i + 1) := by
    rw [← ha₁]
    exact update_self _ _ _
  have hmsg : Msg.tail entry.term (a.log n) c ∈ a₁.msgs := by
    rw [← ha₁]
    exact Set.mem_insert _ _
  have hb : a₁.toState = a.toState := by
    rw [← ha₁]
    rfl
  have hs := h.stay hmoves.grows hlogn hsnapn (hcommit ▸ le_max_left _ _)
  -- the message is about the log as it is, and the index that is committed now
  have announces : ∀ {t : KVServer} {a' : Ledger}, t.Mirrors Q strict a' n → a'.log n = a.log n →
      Kept Q strict Placed a' → a₁.msgs ⊆ a'.msgs → t.raftCommitIndex = c →
      (t.commitMessage entry).Announces a' (a.log n) c := by
    intro t a' ht hl hk' hsub hcom
    refine ⟨hsub hmsg, hcom, ?_, ?_, rfl, rfl⟩
    · exact (ht.lastLogIndex hk').trans (by rw [hl])
    · exact (ht.lastLogTerm hk').trans (by rw [hl])
  unfold KVServer.commitWrite
  split
  · next hlt =>
    have hof : ({ s with raftCommitIndex := entry.index } : KVServer).LogOf Q strict a₁ n := by
      refine hs.toLogOf.congr rfl rfl rfl ?_ ?_ hs.applied rfl
      · show 0 ≤ entry.index
        omega
      · show entry.index ≤ _
        rw [hcommit]
        omega
    obtain ⟨a', hm', hb', hl', hmir⟩ := hof.applyCommitted hmeet hmoves.kept
      (hs.copies.congr rfl) now
    refine ⟨a', hmoves.trans (fun _ _ => hb ▸ id) hm', hb'.trans hb, hmir, _, c,
      announces hmir ((congrFun hl' n).trans hlogn) hm'.kept hm'.grows.msgs ?_⟩
    rw [applyCommitted_commit]
    show entry.index = c
    omega
  · exact ⟨a₁, hmoves, hb, hs, _, c,
      announces hs hlogn hmoves.kept Set.Subset.rfl (by omega)⟩

theorem Mirrors.encodeRaftSnapshot {u : Int} (hled : a.Led n u) (now : Int) :
    ∃ a', Moves Q strict Placed n a a' ∧ a'.toState = a.toState ∧
      (s.encodeRaftSnapshot now u).1.Mirrors Q strict a' n ∧
      (s.encodeRaftSnapshot now u).2.Vouched a' (a'.snap n) := by
  have hmoves := Moves.sendSnapshot hmeet hk hled
  have hs : s.Mirrors Q strict (a.send (.snapshot u (a.snap n))) n :=
    h.stay hmoves.grows rfl rfl (Nat.le_refl _)
  exact ⟨_, hmoves, rfl, hs.congr rfl, Set.mem_insert _ _, h.base, h.baseTerm⟩

end Write

/-! ## Restart -/

section Restart

variable {a : Ledger} {n : Str} {s t : KVServer} {Q : Set Str → Prop} {strict : Prop}

/-- What the files give is what the machine still has. -/
theorem Mirrors.loadRaftState (hk : Kept Q strict Placed a) (h : s.Mirrors Q strict a n)
    (hrange : s.raftIndices.InRange) {store : Store} {r : Router}
    (ht : ({ s with store := store, router := r } : KVServer).loadRaftState = some t) :
    t.LogOf Q strict a n ∧ t.updateLogInfo.Copied := by
  have hsnap := (hk.inv.holds n).snap_commit
  have hstate : loadRaftIndices s.raftStateFile = s.raftIndices := h.state hrange
  have hbase : s.raftIndices.lastIncludedIndex = (a.snap n).length := h.base
  have hcommit : s.raftIndices.commitIndex ≤ a.commit n := h.commit
  have hfile := h.copies.file
  rw [RaftDisk.entries?, disk] at hfile
  rw [KVServer.loadRaftState] at ht
  simp only [hstate] at ht
  split at ht
  · next hnone =>
    injection ht with ht
    have hnone : s.raftLogFile = none := hnone
    rw [hnone] at hfile
    have hlog := hfile [] rfl
    subst ht
    refine ⟨⟨h.base, h.baseTerm, hlog.trans h.log, h.whole, h.commit_nonneg, hcommit,
      (min_le_right _ _).trans hcommit, h.chosen⟩, fun log hload => ?_, rfl, rfl⟩
    rw [RaftDisk.entries?, disk, updateLogInfo, hnone] at hload
    exact (Option.some.inj hload).symm
  · next text hsome =>
    have hsome : s.raftLogFile = some text := hsome
    rw [hsome] at hfile
    split at ht
    · cases ht
    · next log hload =>
      have hlog := hfile log hload
      injection ht with ht
      have hle : ∀ last : Int, max s.raftIndices.lastIncludedIndex
          (min s.raftIndices.commitIndex last) ≤ a.commit n := by
        intro last
        omega
      subst ht
      refine ⟨⟨h.base, h.baseTerm, hlog.trans h.log, h.whole, ?_, hle _, ?_, h.chosen⟩,
        fun log' hload' => ?_, rfl, rfl⟩
      · refine le_trans ?_ (le_max_left _ _)
        show 0 ≤ s.raftIndices.lastIncludedIndex
        omega
      · refine max_le ?_ ((min_le_right _ _).trans (hle _))
        show s.raftIndices.lastIncludedIndex ≤ _
        omega
      · rw [RaftDisk.entries?, disk, updateLogInfo, hsome] at hload'
        exact Option.some.inj (hload'.symm.trans hload)

theorem Mirrors.restart (hmeet : ∀ A B, Q A → Q B → ∃ v, v ∈ A ∧ v ∈ B)
    (hk : Kept Q strict Placed a) (h : s.Mirrors Q strict a n) {now : Int}
    (hr : s.startAgain now = some t) :
    ∃ a', Moves Q strict Placed n a a' ∧
      a'.toState = a.toState.setRole n .follower ∧ t.Mirrors Q strict a' n := by
  have hretire := Moves.retire hmeet hk n
  have hs : s.Mirrors Q strict { a with toState := a.toState.setRole n .follower } n :=
    h.stay hretire.grows rfl rfl (Nat.le_refl _)
  obtain ⟨hrange, hr⟩ := startAgain_eq now hr
  rw [KVServer.restart] at hr
  split at hr
  · cases hr
  · split at hr
    · cases hr
    · next u hu =>
      injection hr with hr
      subst hr
      obtain ⟨hof, hcopies⟩ := hs.loadRaftState hretire.kept hrange.2 hu
      have hof' : u.updateLogInfo.LogOf Q strict _ n :=
        hof.congr rfl rfl rfl hof.commit_nonneg hof.commit hof.applied rfl
      obtain ⟨a', hm, hb, -, hmir⟩ := hof'.applyCommitted hmeet hretire.kept hcopies now
      exact ⟨a', hretire.trans (fun _ _ hled => hled) hm, hb, hmir⟩

end Restart

end KVServer

end TinyKV
