import TinyKV.Model.RaftOperations
import TinyKV.Proofs.NodeLog
import TinyKV.Proofs.Router

/-!
# Crashes between the steps of a Raft operation

What a restart finds depends on how far an operation came with its files. A
log that is empty or not yet written does no harm. But `raft.log` holds
entries from the index after `last_included_index` on, and that index is in
`raft.state`: while `raft.state` is empty the log has to start at one, and
when an operation moves the base, the log it has just written does not go
with the old `raft.state`. `raft.meta` reads as term zero without a vote
while it is empty, which is older than the term of any node that has seen an
election.

Whether an operation has such a point can be told before it runs (`Safe`),
from the log, the base, the term and the vote it starts from.
-/

namespace TinyKV

open Relation Text

/-! ## What a restart reads -/

namespace RaftDisk

/-- The entries of `raft.log`. No file reads as no entries. -/
def entries? (d : RaftDisk) : Option (List RaftLogEntry) :=
  match d.log with
  | none => some []
  | some text => loadRaftLog text

def base (d : RaftDisk) : Int := (loadRaftIndices d.state).lastIncludedIndex

def hardState (d : RaftDisk) : Int × Str := loadRaftMeta d.metadata

/-- The log can be read and starts where `raft.state` says. -/
def LogGood (d : RaftDisk) : Prop := ∃ log, d.entries? = some log ∧ Contiguous d.base log

end RaftDisk

/-- `load_raft_state` succeeds with a contiguous log. -/
def KVServer.Loads (s : KVServer) (d : RaftDisk) : Prop :=
  ∃ t, (s.onDisk d).loadRaftState = some t ∧ t.LogContiguous

variable {s : KVServer} {op : RaftOperation}

theorem KVServer.loadRaftState_none (h : s.disk.entries? = none) : s.loadRaftState = none := by
  cases hf : s.raftLogFile with
  | none => simp [RaftDisk.entries?, disk, hf] at h
  | some text =>
    have hl : loadRaftLog text = none := by simpa [RaftDisk.entries?, disk, hf] using h
    simp [loadRaftState, hf, hl]

theorem KVServer.loadRaftState_some {log : List RaftLogEntry} (h : s.disk.entries? = some log) :
    ∃ t, s.loadRaftState = some t ∧ t.raftLog = log ∧
      t.raftLastIncludedIndex = s.disk.base ∧ t.disk = s.disk := by
  cases hf : s.raftLogFile with
  | none =>
    have hl : [] = log := by simpa [RaftDisk.entries?, disk, hf] using h
    simp [loadRaftState, hf, hl, disk, RaftDisk.base]
  | some text =>
    have hl : loadRaftLog text = some log := by simpa [RaftDisk.entries?, disk, hf] using h
    simp [loadRaftState, hf, hl, disk, RaftDisk.base]

theorem KVServer.loads_iff (s : KVServer) (d : RaftDisk) : s.Loads d ↔ d.LogGood := by
  have hdisk : (s.onDisk d).disk = d := rfl
  cases hlog : d.entries? with
  | none =>
    refine iff_of_false ?_ ?_
    · rintro ⟨t, ht, -⟩
      rw [loadRaftState_none (hdisk.symm ▸ hlog)] at ht
      cases ht
    · rintro ⟨log, hlog', -⟩
      rw [hlog] at hlog'
      cases hlog'
  | some log =>
    obtain ⟨t, ht, hl, hb, -⟩ := loadRaftState_some (s := s.onDisk d) hlog
    rw [Loads, RaftDisk.LogGood, ht, hlog]
    simp [LogContiguous, hl, hb, hdisk]

/-- A log that starts at two bases has no entries. -/
theorem contiguous_two {b c : Int} {log : List RaftLogEntry} (h : Contiguous b log) :
    Contiguous c log ↔ log = [] ∨ b = c := by
  constructor
  · intro hc
    cases log with
    | nil => exact Or.inl rfl
    | cons entry log =>
      have hb := h 0 entry rfl
      have hc := hc 0 entry rfl
      exact Or.inr (by omega)
  · rintro (rfl | rfl)
    · exact contiguous_nil c
    · exact h

/-! ## Crash points -/

/-- At every crash point of the operation the log comes back contiguous, with
the term and the vote from before or after it. -/
def CrashConsistent (now : Int) (s : KVServer) (op : RaftOperation) : Prop :=
  ∀ d ∈ raftCrashPoints (op.exec now s) s.disk (op.writes now s),
    s.Loads d ∧ (d.hardState = s.hardState ∨ d.hardState = (op.exec now s).hardState) ∧
      s.hardState.1 ≤ d.hardState.1

namespace KVServer

/-- Applying what is committed ends in a compaction. -/
def Compacts (s : KVServer) : Prop :=
  s.raftLastIncludedIndex < s.reach ∧
    s.raftSnapshotThreshold ≤ s.reach - s.raftLastIncludedIndex ∧ 0 ≤ s.raftTermAt s.reach

instance (s : KVServer) : Decidable s.Compacts := inferInstanceAs (Decidable (_ ∧ _))

end KVServer

/-- The operation empties `raft.state` only with no entries in `raft.log` or at
base zero, moves the base only over the whole log, and empties `raft.meta` only
at term zero without a vote. -/
def RaftOperation.Safe (s : KVServer) : RaftOperation → Prop
  | truncate index | rejectPrev index =>
    s.raftLastIncludedIndex = 0 ∨ s.raftLog = [] ∨ index = s.raftLastIncludedIndex + 1
  | applyCommitted =>
    if s.Compacts then s.raftLastLogIndex ≤ s.reach
    else s.raftLastIncludedIndex = 0 ∨ s.disk.entries? = some []
  | installSet request => s.raftLastLogIndex ≤ request.lastLogIndex
  | newTerm _ | beginElection => s.hardState = (0, [])
  | castVote candidateId lastLogIndex lastLogTerm =>
    s.router.logIsUpToDate lastLogIndex lastLogTerm = true →
      s.router.votedFor = [] ∨ s.router.votedFor = candidateId → s.hardState = (0, [])
  | acceptTerm term _ => s.router.currentTerm < term → s.hardState = (0, [])
  | appendWrite _ | appendBatch _ _ | appendEntry _ => True

/-! ## Where the operations leave the files -/

namespace KVServer

section Disk

variable (now : Int)

@[simp] theorem eraseFrom_disk (s : KVServer) (index : Int) : (s.eraseFrom index).disk = s.disk :=
  eraseFrom_same (f := disk) (fun _ _ => rfl) s index

theorem appendLoop_disk (s : KVServer) (expected : Int) (entries : List RaftLogEntry) :
    (s.appendLoop expected entries).1.disk = s.disk :=
  appendLoop_same (f := disk) (fun _ _ => rfl) s expected entries

/-- Applying leaves the log alone, or cuts it off at a new base. -/
theorem applyCommitted_eq (h : s.LogContiguous) :
    ∃ (store : Store) (applied : List (Int × RaftLogEntry)),
      s.applyCommittedRaftEntries now = persistRaftState (if s.Compacts then
        rebase { s with store := store, applied := applied, raftLastApplied := s.reach } s.reach
          (s.raftTermAt s.reach)
      else { s with store := store, applied := applied, raftLastApplied := s.reach }) := by
  have hreach := applyLoop_applied now
    (s := { s with raftLastApplied := max s.raftLastApplied s.raftLastIncludedIndex }) h
    (Int.le_max_right _ _) (Nat.le_refl _)
  rw [applyCommitted_loop]
  obtain ⟨store, applied, last, hu⟩ := applyLoop_frame now
    (s.raftCommitIndex - max s.raftLastApplied s.raftLastIncludedIndex).toNat
    { s with raftLastApplied := max s.raftLastApplied s.raftLastIncludedIndex }
  obtain rfl : last = s.reach := (congrArg raftLastApplied hu).symm.trans hreach
  rw [hu, compactRaftLog_eq]
  exact ⟨store, applied, rfl⟩

end Disk

end KVServer

theorem RaftOperation.writes_applyCommitted (h : s.LogContiguous) (now : Int) :
    applyCommitted.writes now s = if s.Compacts then [.log, .state, .state] else [.state] := by
  obtain ⟨store, applied, ht⟩ := KVServer.applyCommitted_eq now h
  rw [writes, ht]
  by_cases hk : s.Compacts
  · rw [if_pos hk, if_pos hk]
    exact if_neg (Int.ne_of_gt hk.1)
  · rw [if_neg hk, if_neg hk]
    exact if_pos rfl

/-- The files that an operation does not write stay, and the others are those
of the state after it. -/
theorem RaftOperation.exec_disk (h : s.LogContiguous) (now : Int) (op : RaftOperation) :
    (op.exec now s).disk = (op.writes now s).foldl
      (fun d file => d.set file ((op.exec now s).fileText file)) s.disk := by
  cases op with
  | appendWrite request => rfl
  | appendBatch expected entries =>
    have hd := s.appendLoop_disk expected entries
    rw [exec, writes]
    rcases hl : s.appendLoop expected entries with ⟨t, ok⟩
    rw [hl] at hd
    cases ok with
    | false => exact hd
    | true =>
      show t.persistRaftLog.updateLogInfo.disk = s.disk.set .log (raftLogText t.raftLog)
      rw [← hd]
      rfl
  | truncate index =>
    show (s.eraseFrom index).persistRaft.disk =
      (s.disk.set .log _).set .state _
    rw [← s.eraseFrom_disk index]
    rfl
  | appendEntry entry => rfl
  | rejectPrev prev =>
    show (s.rejectPrev prev).disk = (s.disk.set .log _).set .state _
    rw [← s.eraseFrom_disk prev]
    rfl
  | applyCommitted =>
    obtain ⟨store, applied, ht⟩ := KVServer.applyCommitted_eq now h
    rw [writes_applyCommitted h, exec, ht]
    by_cases hk : s.Compacts
    · rw [if_pos hk, if_pos hk]
      rfl
    · rw [if_neg hk, if_neg hk]
      rfl
  | installSet request => rfl
  | newTerm term => rfl
  | castVote candidateId lastLogIndex lastLogTerm =>
    rw [exec, writes, Router.castVote]
    split
    · rfl
    · rfl
  | acceptTerm term leaderId =>
    rw [exec, writes, Router.acceptTerm]
    split
    · rfl
    · rfl
  | beginElection => rfl

/-! ## What the operations keep -/

/-- What holds of the operations a request goes through, if `ok` holds of the
candidates it names. -/
def RaftOperation.Allowed (ok : Str → Prop) (s : KVServer) : RaftOperation → Prop
  | appendWrite request => (s.appendWrite request).2.entry.Logged
  | appendBatch _ entries => ∀ entry ∈ entries, entry.Logged
  | appendEntry entry => entry.Logged ∧ entry.index = s.raftLastLogIndex + 1
  | rejectPrev prev => 0 < prev
  | installSet request => s.raftLastIncludedIndex < request.lastLogIndex ∧
      InRange32 request.lastLogIndex ∧ InRange32 request.lastLogTerm
  | newTerm term => s.router.currentTerm < term ∧ InRange32 term
  | castVote candidateId _ _ => ok candidateId
  | acceptTerm term _ => s.router.currentTerm ≤ term ∧ InRange32 term
  | beginElection => s.router.currentTerm < 2147483647
  | _ => True

namespace KVServer

/-- The files agree with each other, and all of it can be written down. -/
structure Filed (s : KVServer) : Prop where
  log : s.LogFiled
  logged : ∀ entry ∈ s.raftLog, entry.Logged
  loads : ∃ log, s.disk.entries? = some log
  indices : s.raftIndices.InRange
  base : s.disk.base = s.raftLastIncludedIndex
  term : InRange32 s.router.currentTerm

section Filed

variable {now : Int} {t : KVServer} {ok : Str → Prop}

theorem Filed.congr (h : s.Filed) (hl : t.raftLog = s.raftLog)
    (hb : t.raftLastIncludedIndex = s.raftLastIncludedIndex)
    (hlf : t.raftLogFile = s.raftLogFile) (hsf : t.raftStateFile = s.raftStateFile)
    (hi : t.raftIndices.InRange) (ht : InRange32 t.router.currentTerm) : t.Filed := by
  refine ⟨h.log.congr hl hb hlf, ?_, ?_, hi, ?_, ht⟩
  · rw [hl]
    exact h.logged
  · rw [RaftDisk.entries?, disk, hlf]
    exact h.loads
  · rw [RaftDisk.base, disk, hsf, hb]
    exact h.base

theorem Filed.logGood (h : s.Filed) : s.disk.LogGood := by
  obtain ⟨log, hlog⟩ := h.loads
  refine ⟨log, hlog, ?_⟩
  rw [h.base]
  cases hf : s.raftLogFile with
  | none =>
    obtain rfl : [] = log := by simpa [RaftDisk.entries?, disk, hf] using hlog
    exact contiguous_nil _
  | some text =>
    exact h.log.log_file text log hf (by simpa [RaftDisk.entries?, disk, hf] using hlog)

/-- A log that was just written can be read. -/
theorem entries_written (hl : ∀ entry ∈ s.raftLog, entry.Logged)
    (hf : s.raftLogFile = some (raftLogText s.raftLog)) : s.disk.entries? = some s.raftLog := by
  rw [RaftDisk.entries?, disk, hf]
  exact loadRaftLog_logged hl

/-- And so can indices that are `int`s. -/
theorem base_written (hi : s.raftIndices.InRange)
    (hf : s.raftStateFile = some (raftStateText s.raftIndices)) :
    s.disk.base = s.raftLastIncludedIndex := by
  rw [RaftDisk.base, disk, hf, loadRaftIndices_text hi]
  rfl

/-- The log was written, and the indices were written or have not changed. -/
theorem Filed.written (h : s.Filed) (hs : t.LogFiled) (hl : ∀ entry ∈ t.raftLog, entry.Logged)
    (hf : t.raftLogFile = some (raftLogText t.raftLog)) (hi : t.raftIndices.InRange)
    (hst : StateSaved s t) (ht : t.router.currentTerm = s.router.currentTerm) : t.Filed := by
  refine ⟨hs, hl, ⟨_, entries_written hl hf⟩, hi, ?_, ht ▸ h.term⟩
  rcases hst with hst | ⟨hst, heq⟩
  · exact base_written hi hst
  · rw [RaftDisk.base, disk, hst, show t.raftLastIncludedIndex = s.raftLastIncludedIndex from
      congrArg RaftIndices.lastIncludedIndex heq]
    exact h.base

theorem Filed.lastLogIndex (h : s.Filed) : InRange32 s.raftLastLogIndex := by
  rw [raftLastLogIndex]
  split
  · exact h.indices.2.2.1
  · next entry he => exact (h.logged entry (List.mem_of_getLast? he)).2.1

theorem termAt_inRange (hl : ∀ entry ∈ s.raftLog, entry.Logged)
    (ht : InRange32 s.raftLastIncludedTerm) (index : Int) : InRange32 (s.raftTermAt index) := by
  unfold raftTermAt
  split
  · exact ⟨by decide, by decide⟩
  · split
    · exact ht
    · split
      · exact ⟨by decide, by decide⟩
      · split
        · exact ⟨by decide, by decide⟩
        · next entry he => exact (hl entry (List.mem_of_getElem? he)).2.2.1

theorem Filed.termAt (h : s.Filed) (index : Int) : InRange32 (s.raftTermAt index) :=
  termAt_inRange h.logged h.indices.2.2.2 index

theorem Filed.reach (h : s.Filed) : InRange32 s.reach := by
  obtain ⟨hcommit, happlied, hbase, -⟩ := h.indices
  have hlast := h.lastLogIndex
  unfold InRange32 at *
  simp only [raftIndices] at hcommit happlied hbase
  rw [KVServer.reach]
  omega

theorem Filed.exec (h : s.Filed) {op : RaftOperation} (ha : op.Allowed ok s) :
    (op.exec now s).Filed := by
  cases op with
  | appendWrite request =>
    refine h.written (h.log.steps (appendWrite_steps now s request)) (fun e he => ?_) rfl
      h.indices (.inr ⟨rfl, rfl⟩) rfl
    rcases List.mem_append.mp he with he | he
    · exact h.logged e he
    · rw [List.mem_singleton.mp he]
      exact ha
  | appendBatch expected entries =>
    have hd := s.appendLoop_disk expected entries
    have hs := h.log.steps (appendLoop_steps now s expected entries)
    have hi := appendLoop_same (f := raftIndices) (fun _ _ => rfl) s expected entries
    have hr := appendLoop_same (f := router) (fun _ _ => rfl) s expected entries
    have hst := appendLoop_saved s expected entries
    have hm : ∀ e ∈ (s.appendLoop expected entries).1.raftLog, e.Logged := by
      intro e he
      rcases appendLoop_mem he with he | he
      · exact h.logged e he
      · exact ha e he
    rw [RaftOperation.exec]
    rcases hl : s.appendLoop expected entries with ⟨t, ok⟩
    rw [hl] at hd hs hi hr hst hm
    have hindices : t.raftIndices.InRange := hi ▸ h.indices
    have hterm : t.router.currentTerm = s.router.currentTerm := congrArg Router.currentTerm hr
    cases ok with
    | false =>
      refine ⟨hs, hm, hd.symm ▸ h.loads, hindices, ?_, hterm ▸ h.term⟩
      show t.disk.base = t.raftLastIncludedIndex
      rw [hd, show t.raftLastIncludedIndex = s.raftLastIncludedIndex from
        congrArg RaftIndices.lastIncludedIndex hi]
      exact h.base
    | true =>
      have hsave : LogSteps now t t.persistRaftLog.updateLogInfo :=
        (ReflTransGen.single (.saveLog t)).tail (.logInfo _)
      exact h.written (hs.steps hsave) hm rfl hindices (hst.trans (.inr ⟨rfl, rfl⟩)) hterm
  | truncate index =>
    have hi := eraseFrom_same (f := raftIndices) (fun _ _ => rfl) s index
    have hr := eraseFrom_same (f := router) (fun _ _ => rfl) s index
    exact h.written (h.log.steps ((ReflTransGen.single (.erase s index)).trans
      (persistRaft_steps now _))) (fun e he => h.logged e (eraseFrom_subset index he)) rfl
      (hi.symm ▸ h.indices) (.inl rfl) (congrArg Router.currentTerm hr)
  | appendEntry entry =>
    have hsave : LogSteps now s (s.pushBack entry).persistRaftLog.updateLogInfo :=
      ((ReflTransGen.single (.push s entry ha.2)).tail (.saveLog _)).tail (.logInfo _)
    refine h.written (h.log.steps hsave) (fun e he => ?_) rfl h.indices (.inr ⟨rfl, rfl⟩) rfl
    rcases List.mem_append.mp he with he | he
    · exact h.logged e he
    · rw [List.mem_singleton.mp he]
      exact ha.1
  | rejectPrev prev =>
    have hi := eraseFrom_same (f := raftIndices) (fun _ _ => rfl) s prev
    have hr := eraseFrom_same (f := router) (fun _ _ => rfl) s prev
    have hterm : (s.eraseFrom prev).router.currentTerm = s.router.currentTerm :=
      congrArg Router.currentTerm hr
    refine h.written (h.log.steps (rejectPrev_steps now s prev))
      (fun e he => h.logged e (eraseFrom_subset prev he)) rfl ?_ (.inl rfl) hterm
    obtain ⟨hcommit, happlied, hbase, hlast⟩ : (s.eraseFrom prev).raftIndices.InRange :=
      hi.symm ▸ h.indices
    have hpos : 0 < prev := ha
    have hback : ∀ k, InRange32 k → InRange32 (if prev ≤ k then prev - 1 else k) := by
      intro k hk
      unfold InRange32 at hk ⊢
      split <;> omega
    exact ⟨hback _ hcommit, hback _ happlied, hbase, hlast⟩
  | applyCommitted =>
    obtain ⟨store, applied, ht⟩ := applyCommitted_eq now h.log.contiguous
    obtain ⟨hcommit, -, hbase, hlast⟩ := h.indices
    have hterm : (s.applyCommittedRaftEntries now).router.currentTerm = s.router.currentTerm :=
      (Router.fields_of_core (applyCommitted_core now s)).2.2.2.1
    have hs := h.log.steps (applyCommitted_steps now s)
    rw [RaftOperation.exec]
    rw [ht] at hterm hs ⊢
    by_cases hk : s.Compacts
    · rw [if_pos hk] at hterm hs ⊢
      exact h.written hs (fun e he => h.logged e (List.mem_filter.mp he).1) rfl
        ⟨hcommit, h.reach, h.reach, h.termAt _⟩ (.inl rfl) hterm
    · rw [if_neg hk] at hterm hs ⊢
      have hindices : RaftIndices.InRange ⟨s.raftCommitIndex, s.reach, s.raftLastIncludedIndex,
        s.raftLastIncludedTerm⟩ := ⟨hcommit, h.reach, hbase, hlast⟩
      exact ⟨hs, h.logged, h.loads, hindices, base_written hindices rfl, h.term⟩
  | installSet request =>
    obtain ⟨hcommit, happlied, -, -⟩ := h.indices
    obtain ⟨hlt, hindex, hterm⟩ := ha
    refine h.written (h.log.steps (installSet_steps now s hlt))
      (fun e he => h.logged e (List.mem_filter.mp he).1) rfl ?_ (.inl rfl) rfl
    have hmax : ∀ k, InRange32 k → InRange32 (max k request.lastLogIndex) := by
      intro k hk
      unfold InRange32 at hk hindex ⊢
      omega
    exact ⟨hmax _ hcommit, hmax _ happlied, hindex, hterm⟩
  | newTerm term => exact h.congr rfl rfl rfl rfl h.indices ha.2
  | castVote candidateId lastLogIndex lastLogTerm =>
    refine h.congr rfl rfl rfl rfl h.indices ?_
    show InRange32 (s.router.castVote candidateId lastLogIndex lastLogTerm).1.currentTerm
    rw [Router.castVote]
    split <;> exact h.term
  | acceptTerm term leaderId =>
    refine h.congr rfl rfl rfl rfl h.indices ?_
    show InRange32 (s.router.acceptTerm term leaderId).currentTerm
    rw [Router.acceptTerm_term ha.1]
    exact ha.2
  | beginElection =>
    refine h.congr rfl rfl rfl rfl h.indices ?_
    have hlow := h.term.1
    have hhigh : s.router.currentTerm < 2147483647 := ha
    exact ⟨show -2147483648 ≤ s.router.currentTerm + 1 by omega,
      show s.router.currentTerm + 1 ≤ 2147483647 by omega⟩

end Filed

end KVServer

/-! ## The term and the vote -/

/-- A name that comes back from `raft.meta`. -/
def StorableName (name : Str) : Prop := IsWord name ∧ name ≠ dash

instance (name : Str) : Decidable (StorableName name) := inferInstanceAs (Decidable (_ ∧ _))

/-- A term and a vote that come back from `raft.meta`. -/
structure StorableState (p : Int × Str) : Prop where
  nonneg : 0 ≤ p.1
  le : p.1 ≤ 2147483647
  vote : p.2 = [] ∨ StorableName p.2

theorem StorableState.read {term : Int} {votedFor : Str} (h : StorableState (term, votedFor)) :
    loadRaftMeta (some (raftMetaText term votedFor)) = (term, votedFor) := by
  have hterm : InRange32 term := by
    have h1 : 0 ≤ term := h.nonneg
    have h2 : term ≤ 2147483647 := h.le
    unfold InRange32
    omega
  rw [loadRaftMeta_text hterm (h.vote.imp id And.left), reloadedVote]
  refine congrArg (Prod.mk term) (if_neg ?_)
  rcases h.vote with hnil | hname
  · exact fun hd => absurd (hnil.symm.trans hd) (by decide)
  · exact hname.2

theorem hardState_of_core {t : KVServer} (h : t.router.core = s.router.core) :
    t.hardState = s.hardState := by
  obtain ⟨-, -, -, hterm, hvote, -, -⟩ := Router.fields_of_core h
  exact Prod.ext hterm hvote

/-- `raft.meta` has the term and the vote. -/
structure KVServer.MetaFiled (s : KVServer) : Prop where
  file : s.disk.hardState = s.hardState
  storable : StorableState s.hardState
  self : StorableName s.router.localId

theorem KVServer.MetaFiled.congr {t : KVServer} (h : s.MetaFiled)
    (hc : t.router.core = s.router.core) : t.MetaFiled := by
  obtain ⟨hid, -, -, -, -, -, hfile⟩ := Router.fields_of_core hc
  refine ⟨?_, (hardState_of_core hc).symm ▸ h.storable, hid.symm ▸ h.self⟩
  rw [hardState_of_core hc, ← h.file]
  exact congrArg loadRaftMeta hfile

/-- The operations that leave the term and the vote to others. -/
theorem RaftOperation.exec_core (now : Int) (s : KVServer)
    (h : RaftFile.metadata ∉ op.writes now s) :
    (op.exec now s).hardState = s.hardState ∧ (op.exec now s).disk.metadata = s.disk.metadata ∧
      (op.exec now s).router.localId = s.router.localId := by
  have of_core : (op.exec now s).router.core = s.router.core →
      (op.exec now s).hardState = s.hardState ∧ (op.exec now s).disk.metadata = s.disk.metadata ∧
        (op.exec now s).router.localId = s.router.localId := by
    intro hc
    obtain ⟨hid, -, -, -, -, -, hfile⟩ := Router.fields_of_core hc
    exact ⟨hardState_of_core hc, hfile, hid⟩
  cases op with
  | appendWrite request => exact of_core rfl
  | appendBatch expected entries =>
    refine of_core ?_
    have hcore := KVServer.appendLoop_core s expected entries
    rw [exec]
    rcases hl : s.appendLoop expected entries with ⟨t, ok⟩
    rw [hl] at hcore
    cases ok with
    | false => exact hcore
    | true => exact hcore
  | truncate index => exact of_core (KVServer.eraseFrom_core s index)
  | appendEntry entry => exact of_core rfl
  | rejectPrev prev => exact of_core (KVServer.eraseFrom_core s prev)
  | applyCommitted => exact of_core (KVServer.applyCommitted_core now s)
  | installSet request => exact of_core rfl
  | newTerm term => simp [writes] at h
  | castVote candidateId lastLogIndex lastLogTerm =>
    rw [writes] at h
    rw [exec]
    unfold Router.castVote at h ⊢
    split at h
    · simp at h
    · next hno =>
      rw [if_neg hno]
      exact ⟨rfl, rfl, rfl⟩
  | acceptTerm term leaderId =>
    rw [writes] at h
    rw [exec, Router.acceptTerm]
    split at h
    · simp at h
    · next hno =>
      rw [if_neg hno]
      exact ⟨rfl, rfl, rfl⟩
  | beginElection => simp [writes] at h

/-- The operations that write them start a term or cast a vote, and write what
they have then. -/
theorem RaftOperation.exec_meta {ok : Str → Prop} {now : Int}
    (h : RaftFile.metadata ∈ op.writes now s) (ha : op.Allowed ok s) :
    (op.exec now s).disk.metadata = some (raftMetaText (op.exec now s).router.currentTerm
        (op.exec now s).router.votedFor) ∧
      (op.exec now s).router.localId = s.router.localId ∧
      (s.router.currentTerm < (op.exec now s).router.currentTerm ∧
          (op.exec now s).router.currentTerm ≤ 2147483647 ∧
          ((op.exec now s).router.votedFor = [] ∨
            (op.exec now s).router.votedFor = s.router.localId) ∨
        (op.exec now s).router.currentTerm = s.router.currentTerm ∧
          ok (op.exec now s).router.votedFor) := by
  cases op with
  | appendBatch expected entries =>
    rw [writes] at h
    split at h <;> simp at h
  | applyCommitted =>
    rw [writes] at h
    split at h <;> simp at h
  | newTerm term => exact ⟨rfl, rfl, .inl ⟨ha.1, ha.2.2, .inl rfl⟩⟩
  | castVote candidateId lastLogIndex lastLogTerm =>
    rw [writes] at h
    rw [exec]
    unfold Router.castVote at h ⊢
    split at h
    · next hyes =>
      rw [if_pos hyes]
      exact ⟨rfl, rfl, .inr ⟨rfl, ha⟩⟩
    · simp at h
  | acceptTerm term leaderId =>
    rw [writes] at h
    rw [exec, Router.acceptTerm]
    split at h
    · next hlt =>
      rw [if_pos hlt]
      exact ⟨rfl, rfl, .inl ⟨hlt, ha.2.2, .inl rfl⟩⟩
    · simp at h
  | beginElection =>
    have hlt : s.router.currentTerm < 2147483647 := ha
    refine ⟨rfl, rfl, .inl ⟨?_, ?_, .inr rfl⟩⟩
    · show s.router.currentTerm < s.router.currentTerm + 1
      omega
    · show s.router.currentTerm + 1 ≤ 2147483647
      omega
  | _ => simp [writes] at h

theorem KVServer.MetaFiled.exec {now : Int} (h : s.MetaFiled) (ha : op.Allowed StorableName s) :
    (op.exec now s).MetaFiled := by
  by_cases hw : RaftFile.metadata ∈ op.writes now s
  · obtain ⟨hfile, hid, hnew⟩ := RaftOperation.exec_meta hw ha
    have hnonneg : 0 ≤ s.router.currentTerm := h.storable.nonneg
    have hle : s.router.currentTerm ≤ 2147483647 := h.storable.le
    have hok : StorableState (op.exec now s).hardState := by
      rcases hnew with ⟨hlt, hmax, hvote⟩ | ⟨heq, hvote⟩
      · refine ⟨show 0 ≤ (op.exec now s).router.currentTerm by omega, hmax, ?_⟩
        rcases hvote with hvote | hvote
        · exact .inl hvote
        · exact .inr (show StorableName (op.exec now s).router.votedFor from hvote.symm ▸ h.self)
      · exact ⟨show 0 ≤ (op.exec now s).router.currentTerm by omega,
          show (op.exec now s).router.currentTerm ≤ 2147483647 by omega, .inr hvote⟩
    refine ⟨?_, hok, hid.symm ▸ h.self⟩
    rw [RaftDisk.hardState, hfile]
    exact hok.read
  · obtain ⟨hhard, hfile, hid⟩ := RaftOperation.exec_core now s hw
    refine ⟨?_, hhard.symm ▸ h.storable, hid.symm ▸ h.self⟩
    rw [hhard, ← h.file, RaftDisk.hardState, hfile]
    rfl

/-- The term never falls. -/
theorem RaftOperation.Allowed.term_le {ok : Str → Prop} (h : op.Allowed ok s) (now : Int) :
    s.hardState.1 ≤ (op.exec now s).hardState.1 := by
  by_cases hw : RaftFile.metadata ∈ op.writes now s
  · obtain ⟨-, -, ⟨hlt, -⟩ | ⟨heq, -⟩⟩ := RaftOperation.exec_meta hw h
    · exact Int.le_of_lt hlt
    · exact Int.le_of_eq heq.symm
  · exact Int.le_of_eq (congrArg Prod.fst (RaftOperation.exec_core now s hw).1).symm

/-- Nor is it zero with no vote after a write. -/
theorem RaftOperation.exec_ne_zero (now : Int) (h : s.MetaFiled) (ha : op.Allowed StorableName s)
    (hw : RaftFile.metadata ∈ op.writes now s) : (op.exec now s).hardState ≠ (0, []) := by
  intro hzero
  have hnonneg : 0 ≤ s.router.currentTerm := h.storable.nonneg
  have hterm : (op.exec now s).router.currentTerm = 0 := congrArg Prod.fst hzero
  have hvote : (op.exec now s).router.votedFor = [] := congrArg Prod.snd hzero
  obtain ⟨-, -, ⟨hlt, -⟩ | ⟨-, hname⟩⟩ := RaftOperation.exec_meta hw ha
  · omega
  · exact hname.1.1 hvote

/-! ## When every crash point is good -/

section Points

variable {now : Int}

/-- The lists of files an operation can write. -/
theorem RaftOperation.writes_cases (now : Int) (s : KVServer) (op : RaftOperation) :
    op.writes now s = [] ∨ op.writes now s = [.log] ∨ op.writes now s = [.log, .state] ∨
      op.writes now s = [.log, .state, .state] ∨ op.writes now s = [.metadata] ∨
      op.writes now s = [.state] ∧
        (op.exec now s).raftLastIncludedIndex = s.raftLastIncludedIndex := by
  cases op with
  | appendBatch expected entries =>
    rw [writes]
    split <;> simp
  | applyCommitted =>
    rw [writes]
    split
    · next hb => simp [exec, hb]
    · simp
  | castVote candidateId lastLogIndex lastLogTerm =>
    rw [writes]
    split <;> simp
  | acceptTerm term leaderId =>
    rw [writes]
    split <;> simp
  | _ => simp [writes]

variable {log : List RaftLogEntry}

theorem RaftDisk.logGood_iff {d : RaftDisk} (h : d.entries? = some log) :
    d.LogGood ↔ Contiguous d.base log := by
  constructor
  · rintro ⟨log', hlog, hc⟩
    rw [h] at hlog
    injection hlog with hlog
    rw [hlog]
    exact hc
  · exact fun hc => ⟨log, h, hc⟩

theorem RaftDisk.logGood_empty (d : RaftDisk) : (d.set .log []).LogGood :=
  ⟨[], rfl, contiguous_nil _⟩

/-- A log written before the `raft.state` of its base, on a disk with the
base `b`: while that file is old, and while it is empty. -/
theorem contiguous_between {b c : Int} (h : Contiguous c log) :
    Contiguous b log ∧ Contiguous 0 log ↔ log = [] ∨ b = 0 ∧ c = 0 := by
  rw [contiguous_two h, contiguous_two h]
  constructor
  · rintro ⟨hl | hb, hl' | h0⟩
    · exact Or.inl hl
    · exact Or.inl hl
    · exact Or.inl hl'
    · exact Or.inr ⟨by omega, h0⟩
  · rintro (hl | ⟨hb, hc⟩)
    · exact ⟨Or.inl hl, Or.inl hl⟩
    · exact ⟨Or.inr (by omega), Or.inr hc⟩

theorem logGood_points (h : s.Filed) (he : (op.exec now s).Filed) :
    (∀ d ∈ raftCrashPoints (op.exec now s) s.disk (op.writes now s), d.LogGood) ↔
      (RaftFile.state ∈ op.writes now s → (op.exec now s).disk.entries? = some [] ∨
        s.raftLastIncludedIndex = 0 ∧ (op.exec now s).raftLastIncludedIndex = 0) := by
  have hdisk := op.exec_disk h.log.contiguous now
  have hgood := h.logGood
  obtain ⟨log, hlog, hc⟩ := he.logGood
  have hend : (op.exec now s).disk.LogGood := ⟨log, hlog, hc⟩
  rw [he.base] at hc
  rw [hlog, Option.some.injEq]
  -- the disk with the new log, before and after `raft.state` is emptied
  have hmid : ∀ d : RaftDisk, d.entries? = some log → d.base = s.raftLastIncludedIndex →
      (d.LogGood ∧ (d.set .state []).LogGood ↔ log = [] ∨
        s.raftLastIncludedIndex = 0 ∧ (op.exec now s).raftLastIncludedIndex = 0) := by
    intro d hd hb
    have hd' : (d.set .state []).entries? = some log := hd
    rw [RaftDisk.logGood_iff hd, RaftDisk.logGood_iff hd', hb]
    exact contiguous_between hc
  rcases op.writes_cases now s with hw | hw | hw | hw | hw | ⟨hw, hb⟩
  all_goals
    rw [hw] at hdisk ⊢
    simp only [List.foldl] at hdisk
  · simp [raftCrashPoints, hgood]
  · rw [hdisk] at hend
    simp [raftCrashPoints, hgood, RaftDisk.logGood_empty, hend]
  · have hnew := hmid (s.disk.set .log ((op.exec now s).fileText .log))
      (by rw [← hlog, hdisk]; rfl) h.base
    rw [hdisk] at hend
    simp [raftCrashPoints, hgood, RaftDisk.logGood_empty, hend, hnew]
  · have hnew := hmid (s.disk.set .log ((op.exec now s).fileText .log))
      (by rw [← hlog, hdisk]; rfl) h.base
    rw [hdisk] at hend
    have hend' : ((s.disk.set .log ((op.exec now s).fileText .log)).set .state
      ((op.exec now s).fileText .state)).LogGood := hend
    have hagain : ∀ d : RaftDisk, ∀ text, (d.set .state text).set .state [] = d.set .state [] :=
      fun _ _ => rfl
    simp [raftCrashPoints, hgood, RaftDisk.logGood_empty, hend, hend', hagain, hnew]
  · have hmeta : (s.disk.set .metadata []).LogGood := hgood
    rw [hdisk] at hend
    simp [raftCrashPoints, hgood, hmeta, hend]
  · have hold := hmid s.disk (by rw [← hlog, hdisk]; rfl) h.base
    rw [hdisk] at hend
    rw [and_iff_right hgood] at hold
    simp [raftCrashPoints, hgood, hend, hold]

theorem base_points (h : s.Filed) (he : (op.exec now s).Filed) :
    ∀ d ∈ raftCrashPoints (op.exec now s) s.disk (op.writes now s), 0 ≤ d.base := by
  have hs : 0 ≤ s.disk.base := h.base.symm ▸ h.log.base_nonneg
  -- one step at a time, from a disk whose base is not negative
  have hset : ∀ (d : RaftDisk) (file : RaftFile), 0 ≤ d.base →
      0 ≤ (d.set file []).base ∧ 0 ≤ (d.set file ((op.exec now s).fileText file)).base := by
    intro d file hd
    cases file with
    | log => exact ⟨hd, hd⟩
    | state =>
      refine ⟨Int.le_refl 0, ?_⟩
      show 0 ≤ (loadRaftIndices (some (raftStateText _))).lastIncludedIndex
      rw [loadRaftIndices_text he.indices]
      exact he.log.base_nonneg
    | metadata => exact ⟨hd, hd⟩
  generalize op.writes now s = files
  generalize s.disk = d at hs
  induction files generalizing d with
  | nil =>
    intro d' hd'
    rw [List.mem_singleton.mp hd']
    exact hs
  | cons file rest ih =>
    intro d' hd'
    rcases List.mem_cons.mp hd' with rfl | hd'
    · exact hs
    · rcases List.mem_cons.mp hd' with rfl | hd'
      · exact (hset d file hs).1
      · exact ih _ (hset d file hs).2 d' hd'

theorem hardState_points (h : s.Filed) (hm : s.MetaFiled) (ha : op.Allowed StorableName s) :
    (∀ d ∈ raftCrashPoints (op.exec now s) s.disk (op.writes now s),
      d.hardState = s.hardState ∨ d.hardState = (op.exec now s).hardState) ↔
      (RaftFile.metadata ∈ op.writes now s → s.hardState = (0, [])) := by
  have hdisk := op.exec_disk h.log.contiguous now
  have hne := RaftOperation.exec_ne_zero now hm ha
  have hend : (op.exec now s).disk.hardState = (op.exec now s).hardState := (hm.exec ha).file
  have hset : ∀ (d : RaftDisk) (text : Str), (d.set .log text).hardState = d.hardState :=
    fun _ _ => rfl
  have hset' : ∀ (d : RaftDisk) (text : Str), (d.set .state text).hardState = d.hardState :=
    fun _ _ => rfl
  have hempty : (s.disk.set .metadata []).hardState = (0, []) := rfl
  rcases op.writes_cases now s with hw | hw | hw | hw | hw | ⟨hw, -⟩
  all_goals
    rw [hw] at hdisk hne ⊢
    simp only [List.foldl] at hdisk
  · simp [raftCrashPoints, hm.file]
  · simp [raftCrashPoints, hset, hm.file]
  · simp [raftCrashPoints, hset, hset', hm.file]
  · simp [raftCrashPoints, hset, hset', hm.file]
  · rw [hdisk] at hend
    have hne' := (hne (List.mem_singleton.mpr rfl)).symm
    simp [raftCrashPoints, hempty, hm.file, hend, hne', eq_comm]
  · simp [raftCrashPoints, hset', hm.file]

/-! ### What is known before the operation runs -/

theorem KVServer.eraseFrom_eq_nil (s : KVServer) (index : Int) :
    (s.eraseFrom index).raftLog = [] ↔ s.raftLog = [] ∨ index = s.raftLastIncludedIndex + 1 := by
  unfold eraseFrom
  split
  · next hnone =>
    refine ⟨.inl, fun h => h.elim id fun hindex => ?_⟩
    have := logOffset_eq_none.mp hnone
    exact List.length_eq_zero_iff.mp (by omega)
  · next offset hoff =>
    obtain ⟨hindex, -⟩ := logOffset_eq_some.mp hoff
    rw [List.take_eq_nil_iff, or_comm]
    exact or_congr_right ⟨fun h => by omega, fun h => by omega⟩

/-- A new base leaves nothing of a log that does not reach beyond it. -/
theorem Contiguous.filter_eq_nil {base k : Int} (h : Contiguous base log) (hk : base ≤ k) :
    log.filter (fun entry => !decide (entry.index ≤ k)) = [] ↔ base + log.length ≤ k := by
  rw [(h.filter hk).1, List.drop_eq_nil_iff]
  omega

/-- The files that are found empty are the ones that `Safe` speaks of. -/
theorem RaftOperation.safe_iff (now : Int) {ok : Str → Prop} (h : s.Filed) (ha : op.Allowed ok s) :
    op.Safe s ↔ (RaftFile.state ∈ op.writes now s → (op.exec now s).disk.entries? = some [] ∨
        s.raftLastIncludedIndex = 0 ∧ (op.exec now s).raftLastIncludedIndex = 0) ∧
      (RaftFile.metadata ∈ op.writes now s → s.hardState = (0, [])) := by
  have he : (op.exec now s).Filed := h.exec ha
  have h0 := h.log.base_nonneg
  have hc := h.log.contiguous
  have hlast := KVServer.lastLogIndex_eq hc
  -- the log is erased from some index on and written down
  have cut : ∀ (index : Int) (t : KVServer), t.raftLog = (s.eraseFrom index).raftLog →
      t.raftLogFile = some (raftLogText t.raftLog) →
      t.raftLastIncludedIndex = s.raftLastIncludedIndex → t.Filed →
      ((s.raftLastIncludedIndex = 0 ∨ s.raftLog = [] ∨ index = s.raftLastIncludedIndex + 1) ↔
        t.disk.entries? = some [] ∨ s.raftLastIncludedIndex = 0 ∧ t.raftLastIncludedIndex = 0) := by
    intro index t hl hf hb ht
    rw [KVServer.entries_written ht.logged hf, Option.some.injEq, hl, s.eraseFrom_eq_nil index, hb,
      and_self, or_comm]
  -- the log is cut off at a new base and written down
  have move : ∀ (index : Int) (t : KVServer), s.raftLastIncludedIndex < index →
      t.raftLog = s.raftLog.filter (fun entry => !decide (entry.index ≤ index)) →
      t.raftLogFile = some (raftLogText t.raftLog) → t.raftLastIncludedIndex = index → t.Filed →
      (s.raftLastLogIndex ≤ index ↔
        t.disk.entries? = some [] ∨ s.raftLastIncludedIndex = 0 ∧ t.raftLastIncludedIndex = 0) := by
    intro index t hlt hl hf hb ht
    rw [KVServer.entries_written ht.logged hf, Option.some.injEq, hl,
      hc.filter_eq_nil (Int.le_of_lt hlt), hb, hlast]
    omega
  cases op with
  | appendBatch expected entries =>
    rw [writes]
    split <;> simp [Safe]
  | truncate index =>
    have := cut index (exec now s (.truncate index)) rfl rfl (KVServer.eraseFrom_base s index) he
    simp [Safe, writes, this]
  | rejectPrev index =>
    have := cut index (exec now s (.rejectPrev index)) rfl rfl (KVServer.eraseFrom_base s index)
      he
    simp [Safe, writes, this]
  | applyCommitted =>
    obtain ⟨store, applied, ht⟩ := KVServer.applyCommitted_eq now hc
    have he : (s.applyCommittedRaftEntries now).Filed := he
    rw [Safe, writes_applyCommitted hc, exec, ht]
    rw [ht] at he
    by_cases hk : s.Compacts
    · simp only [if_pos hk] at he ⊢
      rw [move s.reach _ hk.1 rfl rfl rfl he]
      simp
    · simp only [if_neg hk]
      rw [or_comm]
      simp [KVServer.persistRaftState, KVServer.disk, RaftDisk.entries?]
  | installSet request =>
    have := move request.lastLogIndex _ ha.1 rfl rfl rfl he
    simp [Safe, writes, this]
  | castVote candidateId lastLogIndex lastLogTerm =>
    rw [writes, Router.castVote]
    split
    · next hyes => simp [Safe, hyes]
    · next hno => simpa [Safe] using fun h1 h2 => absurd ⟨h1, h2⟩ hno
  | acceptTerm term leaderId =>
    rw [writes]
    split
    · next hlt => simp [Safe, hlt]
    · next hge => simp [Safe, hge]
  | _ => simp [Safe, writes]

/-- An operation is consistent at every crash point exactly if it is safe. -/
theorem crashConsistent_iff_safe (now : Int) (h : s.Filed) (hm : s.MetaFiled)
    (ha : op.Allowed StorableName s) : CrashConsistent now s op ↔ op.Safe s := by
  rw [RaftOperation.safe_iff now h ha, ← logGood_points h (h.exec ha),
    ← hardState_points h hm ha]
  constructor
  · intro hcrash
    exact ⟨fun d hd => (s.loads_iff d).mp (hcrash d hd).1, fun d hd => (hcrash d hd).2.1⟩
  · rintro ⟨hlog, hhard⟩ d hd
    refine ⟨(s.loads_iff d).mpr (hlog d hd), hhard d hd, ?_⟩
    rcases hhard d hd with heq | heq
    · exact Int.le_of_eq (congrArg Prod.fst heq).symm
    · rw [heq]
      exact ha.term_le now

end Points

/-! ## The operations of a request -/

/-- The candidate that the event asks a vote for has such a name. -/
def NodeEvent.Votes (ok : Str → Prop) : NodeEvent → Prop
  | .raft (.requestVote _ candidateId _ _) => ok candidateId
  | _ => True

namespace KVServer

/-- Nothing has changed that the files have to agree with. -/
structure Quiet (s t : KVServer) : Prop where
  filed : s.Filed → t.Filed
  metaFiled : s.MetaFiled → t.MetaFiled

/-- From `s` to `t` the operations of the trace run one after the other, with
nothing between them that the files have to agree with. -/
inductive Follows (ok : Str → Prop) (now : Int) : KVServer → Trace → KVServer → Prop
  | quiet {s t : KVServer} (h : Quiet s t) : Follows ok now s [] t
  | op {s t u : KVServer} {op : RaftOperation} {rest : Trace} (h : Quiet s t)
      (ha : op.Allowed ok t) (hrest : Follows ok now (op.exec now t) rest u) :
      Follows ok now s ((t, op) :: rest) u

section Follows

variable {ok : Str → Prop} {now : Int} {t u : KVServer} {tr tr' : Trace}

theorem Quiet.refl (s : KVServer) : Quiet s s := ⟨id, id⟩

theorem Quiet.trans (h : Quiet s t) (h' : Quiet t u) : Quiet s u :=
  ⟨h'.filed ∘ h.filed, h'.metaFiled ∘ h.metaFiled⟩

/-- The store is not looked at. -/
theorem quiet_store (store : Store) : Quiet s { s with store := store } :=
  ⟨fun h => h.congr rfl rfl rfl rfl h.indices h.term, fun h => h.congr rfl⟩

theorem quiet_commitIndex {commit : Int} (h : s.Filed → InRange32 commit) :
    Quiet s { s with raftCommitIndex := commit } :=
  ⟨fun hs => hs.congr rfl rfl rfl rfl ⟨h hs, hs.indices.2⟩ hs.term, fun hs => hs.congr rfl⟩

theorem quiet_winElection (term : Int) :
    Quiet s { s with router := s.router.winElection term } := by
  have hsame : (s.router.winElection term).currentTerm = s.router.currentTerm ∧
      (s.router.winElection term).votedFor = s.router.votedFor ∧
      (s.router.winElection term).localId = s.router.localId ∧
      (s.router.winElection term).raftMetaFile = s.router.raftMetaFile := by
    rw [Router.winElection]
    split <;> exact ⟨rfl, rfl, rfl, rfl⟩
  obtain ⟨hterm, hvote, hid, hfile⟩ := hsame
  refine ⟨fun h => h.congr rfl rfl rfl rfl h.indices (hterm.symm ▸ h.term), fun h => ?_⟩
  have hhard : hardState { s with router := s.router.winElection term } = s.hardState :=
    Prod.ext hterm hvote
  refine ⟨?_, hhard.symm ▸ h.storable, hid.symm ▸ h.self⟩
  rw [hhard, ← h.file]
  exact congrArg loadRaftMeta hfile

theorem Follows.nil (now : Int) (s : KVServer) : Follows ok now s [] s := .quiet (Quiet.refl s)

theorem Follows.single {op : RaftOperation} (ha : op.Allowed ok s) :
    Follows ok now s [(s, op)] (op.exec now s) :=
  .op (Quiet.refl s) ha (.nil now _)

theorem Follows.after (h : Quiet s t) (hf : Follows ok now t tr u) : Follows ok now s tr u := by
  cases hf with
  | quiet h' => exact .quiet (h.trans h')
  | op h' ha hrest => exact .op (h.trans h') ha hrest

theorem Follows.append (h : Follows ok now s tr t) (h' : Follows ok now t tr' u) :
    Follows ok now s (tr ++ tr') u := by
  induction h with
  | quiet hq => exact h'.after hq
  | op hq ha _ ih => exact .op hq ha (ih h')

/-- What the operations keep, a trace keeps. -/
theorem Follows.always {P : KVServer → Prop} (hquiet : ∀ s t, Quiet s t → P s → P t)
    (hexec : ∀ s op, P s → RaftOperation.Allowed ok s op → P (op.exec now s))
    (h : Follows ok now s tr t) (hs : P s) : P t ∧ ∀ x ∈ tr, P x.1 ∧ x.2.Allowed ok x.1 := by
  induction h with
  | quiet hq => exact ⟨hquiet _ _ hq hs, by simp⟩
  | op hq ha _ ih =>
    have ht := hquiet _ _ hq hs
    obtain ⟨hu, hrest⟩ := ih (hexec _ _ ht ha)
    refine ⟨hu, fun x hx => ?_⟩
    rcases List.mem_cons.mp hx with rfl | hx
    · exact ⟨ht, ha⟩
    · exact hrest x hx

theorem follows_advanceCommit (now : Int) (s : KVServer) (leaderCommit : Int) :
    Follows ok now s (s.advanceCommitOperations leaderCommit)
      (s.advanceCommit now leaderCommit) := by
  unfold advanceCommitOperations advanceCommit
  split
  · next hlt =>
    refine .op (quiet_commitIndex fun hs => ?_) trivial (.nil now _)
    have hcommit : InRange32 s.raftCommitIndex := hs.indices.1
    have hlast := hs.lastLogIndex
    unfold InRange32 at hcommit hlast ⊢
    omega
  · exact .nil now s

theorem follows_appendSingle (now : Int) (s : KVServer) {request : AppendRequest}
    (hr : request.InRange) :
    Follows ok now s (s.appendSingleOperations request) (s.appendSingle request) := by
  unfold appendSingleOperations appendSingle
  simp only []
  have hcut : Follows ok now s
      (if s.raftTermAt request.logIndex ≠ -1 ∧ s.raftTermAt request.logIndex ≠ request.logTerm then
        [(s, .truncate request.logIndex)] else [])
      (if s.raftTermAt request.logIndex ≠ -1 ∧ s.raftTermAt request.logIndex ≠ request.logTerm then
        persistRaft (s.eraseFrom request.logIndex) else s) := by
    split
    · exact .op (Quiet.refl s) trivial (.nil now _)
    · exact .nil now s
  -- what follows the conflict, from the state it leaves
  generalize (if s.raftTermAt request.logIndex ≠ -1 ∧
    s.raftTermAt request.logIndex ≠ request.logTerm then
      persistRaft (s.eraseFrom request.logIndex) else s) = t at hcut ⊢
  split
  · next hidx =>
    cases hop : opType request.raftOp with
    | none => exact hcut
    | some type =>
      exact hcut.append (Follows.single ⟨⟨opType_some_logged hop, hr _ (by simp),
        hr _ (by simp), hr _ (by simp)⟩, hidx⟩)
  · exact hcut

theorem follows_appendLocked (now : Int) (s : KVServer) {request : AppendRequest}
    (hr : request.InRange) (h : ∀ entry ∈ request.entries, entry.Logged) :
    Follows ok now s (s.appendLockedOperations request) (s.appendLocked now request).1 := by
  unfold appendLockedOperations appendLocked
  split
  · exact .nil now s
  · split
    · exact .nil now s
    · split
      · next hprev => exact .op (Quiet.refl s) hprev.1 (.nil now _)
      · split
        · split
          · exact .nil now s
          · have hbatch : Follows ok now s [(s, .appendBatch (request.prevLogIndex + 1)
                request.entries)] _ := Follows.single h
            rw [RaftOperation.exec] at hbatch
            rcases hl : s.appendLoop (request.prevLogIndex + 1) request.entries with ⟨t, ok⟩
            rw [hl] at hbatch
            cases ok with
            | false => exact hbatch
            | true => exact hbatch.append (follows_advanceCommit now _ _)
        · split
          · split
            · exact .nil now s
            · exact (follows_appendSingle now s hr).append (follows_advanceCommit now _ _)
          · exact follows_advanceCommit now s _

theorem follows_checkTerm (now : Int) (s : KVServer) {term : Int} (ht : InRange32 term)
    (leaderId : Str) :
    Follows ok now s (s.checkTermOperations term leaderId) (s.checkTerm term leaderId).1 := by
  unfold checkTermOperations checkTerm Router.handleAppendEntries
  split
  · exact .nil now s
  · next hterm =>
    exact .op (Quiet.refl s) ⟨Int.not_lt.mp hterm, ht⟩ (.nil now _)

theorem follows_vote (now : Int) (s : KVServer) {term : Int} (ht : InRange32 term)
    {candidateId : Str} (hok : ok candidateId) (lastLogIndex lastLogTerm : Int) :
    Follows ok now s (s.voteOperations term candidateId lastLogIndex lastLogTerm)
      { s with
        router := (s.router.handleRequestVote term candidateId lastLogIndex lastLogTerm).1 } := by
  unfold voteOperations Router.handleRequestVote
  split
  · exact .nil now s
  · split
    · next hterm =>
      exact .op (Quiet.refl s) ⟨hterm, ht⟩ (.op (Quiet.refl _) hok (.nil now _))
    · exact .op (Quiet.refl s) hok (.nil now _)

theorem follows_install (now : Int) (s : KVServer) {request : InstallRequest}
    (hr : InRange32 request.term ∧ InRange32 request.lastLogIndex ∧
      InRange32 request.lastLogTerm) :
    Follows ok now s (s.raftOperations now (.install request))
      (s.handleInstallSnapshot now request).1 := by
  have hcheck : Follows ok now s _ _ := follows_checkTerm now s hr.1 request.nodeId
  rw [raftOperations, handleInstallSnapshot]
  rcases hck : s.checkTerm request.term request.nodeId with ⟨t, _ | _⟩
  · rw [hck] at hcheck
    exact hcheck.append (.nil now t)
  · rw [hck] at hcheck
    refine hcheck.append ?_
    simp only []
    split
    · exact .nil now t
    · next hnew =>
      have hlt : t.raftLastIncludedIndex < request.lastLogIndex := by
        simp only [installCovered, decide_eq_true_eq] at hnew
        omega
      have hquiet : Quiet t (t.installPayload now request.payload).1 ∧
          (t.installPayload now request.payload).1.raftLastIncludedIndex =
            t.raftLastIncludedIndex := by
        unfold installPayload
        split
        · exact ⟨Quiet.refl t, rfl⟩
        · exact ⟨quiet_store _, rfl⟩
      rcases hp : t.installPayload now request.payload with ⟨u, _ | _⟩
      · rw [hp] at hquiet
        exact .quiet hquiet.1
      · rw [hp] at hquiet
        exact .op hquiet.1 ⟨hquiet.2 ▸ hlt, hr.2⟩ (.nil now _)

theorem follows_write (now : Int) (hs : s.Filed) (hb : s.Bounded) {request : WriteRequest}
    (hr : InRange32 request.ttlSeconds) (followers : Replication) :
    Follows ok now s (s.writeOperations request followers)
      (s.handleWrite now request followers) := by
  have hsnap : ∀ (times : List Int) (term : Int) (u : KVServer),
      Quiet u (times.foldl (fun s t => (s.encodeRaftSnapshot t term).1) u) := by
    intro times term
    induction times with
    | nil => exact Quiet.refl
    | cons t times ih =>
      intro u
      have hone : Quiet u (u.encodeRaftSnapshot t term).1 := quiet_store _
      exact hone.trans (ih _)
  unfold writeOperations handleWrite
  split
  · next hw =>
    have htype : request.type.Logged := by
      have hc := hw.1
      simp only [isClientWrite, Bool.or_eq_true, decide_eq_true_eq] at hc
      exact or_assoc.mp hc
    have hindex : InRange32 (s.raftLastLogIndex + 1) := by
      have hlast := hs.lastLogIndex
      have hlt := hb.2
      unfold InRange32 at hlast ⊢
      omega
    refine .op (Quiet.refl s) ⟨htype, hindex, hs.term, hr⟩ ?_
    unfold replicateRaftWrite
    simp only []
    refine Follows.after (hsnap followers.snapshots (s.appendWrite request).2.entry.term
      (s.appendWrite request).1) ?_
    split
    · exact .nil now _
    · unfold commitWrite
      split
      · exact .op (quiet_commitIndex fun _ => hindex) trivial (.nil now _)
      · exact .nil now _
  · exact .nil now s

/-- A trace is what the event does to the files. -/
theorem follows_operations (hf : s.Filed) (hb : s.Bounded) {e : NodeEvent × Int}
    (he : e.1.Parsed) (hok : e.1.Votes ok) (hne : e.1 ≠ .restart) (hs : s.handle e = some t) :
    Follows ok e.2 s (s.operations e) t := by
  obtain ⟨e, now⟩ := e
  cases e with
  | raft request =>
    injection hs with hs
    subst hs
    cases request with
    | requestVote term candidateId lastLogIndex lastLogTerm =>
      exact follows_vote now s he.1 hok lastLogIndex lastLogTerm
    | heartbeat term leaderId => exact follows_checkTerm now s he leaderId
    | append request =>
      obtain ⟨hr, payload, hp⟩ := he
      have hlogged : ∀ entry ∈ request.entries, entry.Logged := fun entry hentry =>
        decodeRaftEntriesPayload_logged (hp ▸ hentry)
      have hcheck : Follows ok now s _ _ :=
        follows_checkTerm now s (hr request.term (by simp)) request.nodeId
      show Follows ok now s (s.raftOperations now (.append request))
        (s.handleRaftAppendEntries now request).1
      rw [raftOperations, handleRaftAppendEntries]
      rcases hck : s.checkTerm request.term request.nodeId with ⟨u, _ | _⟩
      · rw [hck] at hcheck
        exact hcheck.append (.nil now u)
      · rw [hck] at hcheck
        exact hcheck.append (follows_appendLocked now u hr hlogged)
    | install request => exact follows_install now s he
  | write request followers =>
    injection hs with hs
    subst hs
    exact follows_write now hf hb he followers
  | election won =>
    injection hs with hs
    subst hs
    refine .op (Quiet.refl s) hb.1 (.quiet ?_)
    cases won with
    | false => exact Quiet.refl _
    | true => exact quiet_winElection s.router.beginElection.currentTerm
  | newerTerm term =>
    injection hs with hs
    subst hs
    show Follows ok now s (if s.router.currentTerm < term then [(s, .newTerm term)] else [])
      { s with router := s.router.stepDown term }
    rw [Router.stepDown]
    split
    · next hterm => exact .op (Quiet.refl s) ⟨hterm, he⟩ (.nil now _)
    · exact .nil now s
  | restart => exact absurd rfl hne

/-! ## Restarts -/

/-- The indices a start ends with are `int`s if the entries it finds are. -/
theorem loadRaftState_inRange (hlogged : ∀ entry ∈ t.raftLog, entry.Logged)
    (hl : s.loadRaftState = some t) : t.raftIndices.InRange := by
  obtain ⟨hcommit, happlied, hbase, hterm⟩ := loadRaftIndices_inRange s.raftStateFile
  have hmin : ∀ m n, InRange32 m → InRange32 n → InRange32 (min m n) := by
    unfold InRange32
    omega
  have hmax : ∀ m n, InRange32 m → InRange32 n → InRange32 (max m n) := by
    unfold InRange32
    omega
  unfold loadRaftState at hl
  simp only [] at hl
  split at hl
  · injection hl with hl
    rw [← hl]
    exact ⟨hcommit, hmin _ _ happlied hcommit, hbase, hterm⟩
  · split at hl
    · cases hl
    · next log _ =>
      injection hl with hl
      have hlog : t.raftLog = log := by rw [← hl]
      have hlast : ∀ u : KVServer, u.raftLog = log →
          u.raftLastIncludedIndex = (loadRaftIndices s.raftStateFile).lastIncludedIndex →
          InRange32 u.raftLastLogIndex := by
        intro u hu hb
        rw [raftLastLogIndex, hb]
        split
        · exact hbase
        · next entry he =>
          exact (hlogged entry (hlog.trans hu.symm ▸ List.mem_of_getLast? he)).2.1
      have hclamp : InRange32 t.raftCommitIndex := by
        rw [← hl]
        exact hmax _ _ hbase (hmin _ _ hcommit (hlast _ rfl rfl))
      refine ⟨hclamp, ?_, ?_, ?_⟩
      · rw [← hl] at hclamp ⊢
        exact hmax _ _ hbase (hmin _ _ (hmin _ _ happlied hcommit) hclamp)
      · rw [← hl]
        exact hbase
      · rw [← hl]
        exact hterm

/-- Whatever is found on a disk whose log and base go together. -/
theorem filed_of_load (hgood : s.disk.LogGood) (hbase : 0 ≤ s.disk.base)
    (hterm : InRange32 s.router.currentTerm) (hl : s.loadRaftState = some t) : t.Filed := by
  obtain ⟨log, hlog, hc⟩ := hgood
  obtain ⟨t', ht, hl', hb, hd⟩ := loadRaftState_some hlog
  obtain rfl : t = t' := Option.some.inj (hl.symm.trans ht)
  have hread : ∀ text, s.raftLogFile = some text → loadRaftLog text = some log := by
    intro text htext
    rw [← hlog, RaftDisk.entries?, disk, htext]
  have hlogged : ∀ entry ∈ log, entry.Logged := by
    intro entry hentry
    cases hf : s.raftLogFile with
    | none =>
      obtain rfl : [] = log := by simpa [RaftDisk.entries?, disk, hf] using hlog
      cases hentry
    | some text => exact loadRaftLog_mem (hread text hf) hentry
  refine ⟨⟨?_, hb ▸ hbase, fun text log' htext hload => ?_⟩, hl'.symm ▸ hlogged,
    ⟨log, hd.symm ▸ hlog⟩, loadRaftState_inRange (hl'.symm ▸ hlogged) hl, hd.symm ▸ hb.symm,
    (loadRaftState_router hl).symm ▸ hterm⟩
  · rw [LogContiguous, hl', hb]
    exact hc
  · rw [show t.raftLogFile = s.raftLogFile from congrArg RaftDisk.log hd] at htext
    rw [← Option.some.inj ((hread text htext).symm.trans hload), hb]
    exact hc

/-- The one operation of a restart runs on what was loaded. -/
theorem restart_always {P : KVServer → Prop} (ok : Str → Prop)
    (hload : ∀ store u, loadRaftState { s with store := store, router := s.router.restart } =
      some u → P u.updateLogInfo)
    (hexec : ∀ u, P u → P (u.applyCommittedRaftEntries now)) :
    (∀ x ∈ s.restartOperations now, P x.1 ∧ x.2.Allowed ok x.1) ∧
      ∀ t, s.restart now = some t → P t := by
  refine ⟨?_, fun t ht => ?_⟩
  · unfold restartOperations
    split
    · simp
    · next store _ =>
      split
      · simp
      · next u hu =>
        intro x hx
        rw [List.mem_singleton.mp hx]
        exact ⟨hload store u hu, trivial⟩
  · obtain ⟨store, u, -, hu, rfl⟩ := restart_eq_some ht
    exact hexec _ (hload store u hu)

/-- A restart on such a disk. -/
theorem filed_updateLogInfo (hgood : s.disk.LogGood) (hbase : 0 ≤ s.disk.base) {store : Store}
    (hl : loadRaftState { s with store := store, router := s.router.restart } = some t) :
    t.updateLogInfo.Filed := by
  have ht : t.Filed := filed_of_load (s := { s with store := store, router := s.router.restart })
    hgood hbase (loadRaftMeta_spec s.router.raftMetaFile).1 hl
  exact ht.congr rfl rfl rfl rfl ht.indices ht.term

/-- And what is known of the term and the vote it finds. -/
theorem metaFiled_updateLogInfo (hfile : StorableState s.disk.hardState)
    (hself : StorableName s.router.localId) {store : Store}
    (hl : loadRaftState { s with store := store, router := s.router.restart } = some t) :
    t.updateLogInfo.MetaFiled := by
  have hs : MetaFiled { s with store := store, router := s.router.restart } := ⟨rfl, hfile, hself⟩
  have hcore : t.router.core = s.router.restart.core :=
    congrArg Router.core (loadRaftState_router hl)
  exact hs.congr hcore

end Follows

/-! ## Runs with crashes -/

section Runs

variable {t : KVServer} {e : CrashEvent}

theorem handle_some (s : KVServer) {e : NodeEvent} (h : e ≠ .restart) (now : Int) :
    ∃ t, s.handle (e, now) = some t := by
  cases e with
  | restart => exact absurd rfl h
  | _ => exact ⟨_, rfl⟩

/-- What the operations and what is loaded keep, an event keeps. -/
theorem operations_always {P : KVServer → Prop} {ok : Str → Prop}
    (hquiet : ∀ s t, Quiet s t → P s → P t)
    (hexec : ∀ now s op, P s → RaftOperation.Allowed ok s op → P (op.exec now s))
    (hload : ∀ store u, loadRaftState { s with store := store, router := s.router.restart } =
      some u → P u.updateLogInfo)
    (hs : P s) (h : s.Filed) (hb : s.Bounded) (e : ParsedEvent) (hok : e.1.1.Votes ok) :
    (∀ x ∈ s.operations e.1, P x.1 ∧ x.2.Allowed ok x.1) ∧
      ∀ t, s.handle e.1 = some t → P t := by
  obtain ⟨⟨e, now⟩, he⟩ := e
  by_cases hr : e = .restart
  · subst hr
    have hrestart := restart_always ok hload fun u hu =>
      hexec now u .applyCommitted hu (show RaftOperation.applyCommitted.Allowed ok u from trivial)
    exact ⟨hrestart.1, fun t ht => hrestart.2 t (startAgain_eq now ht).2⟩
  · obtain ⟨t, ht⟩ := handle_some s hr now
    obtain ⟨htp, hops⟩ := (follows_operations h hb he hok hr ht).always hquiet (hexec now) hs
    refine ⟨hops, fun t' ht' => ?_⟩
    rw [ht] at ht'
    injection ht' with ht'
    exact ht' ▸ htp

theorem Filed.operations {ok : Str → Prop} (h : s.Filed) (hb : s.Bounded) (e : ParsedEvent)
    (hok : e.1.1.Votes ok) :
    (∀ x ∈ s.operations e.1, x.1.Filed ∧ x.2.Allowed ok x.1) ∧
      ∀ t, s.handle e.1 = some t → t.Filed :=
  operations_always (fun _ _ hq => hq.filed) (fun _ _ _ hs ha => hs.exec ha)
    (fun _ _ => filed_updateLogInfo h.logGood (h.base.symm ▸ h.log.base_nonneg)) h h hb e hok

theorem MetaFiled.operations (hm : s.MetaFiled) (h : s.Filed) (hb : s.Bounded) (e : ParsedEvent)
    (hok : e.1.1.Votes StorableName) :
    (∀ x ∈ s.operations e.1, x.1.MetaFiled ∧ x.2.Allowed StorableName x.1) ∧
      ∀ t, s.handle e.1 = some t → t.MetaFiled :=
  operations_always (fun _ _ hq => hq.metaFiled) (fun _ _ _ hs ha => hs.exec ha)
    (fun _ _ => metaFiled_updateLogInfo (hm.file.symm ▸ hm.storable) hm.self) hm h hb e hok

theorem filed_fresh (router : Router) (store : Store) (threshold : Int) :
    (fresh router.restart store threshold).Filed :=
  ⟨logFiled_fresh _ _ _, by simp [fresh], ⟨[], rfl⟩,
    show RaftIndices.InRange ⟨0, 0, 0, 0⟩ by decide, rfl, (loadRaftMeta_spec router.raftMetaFile).1⟩

/-- Every operation of the event is consistent at every crash point. -/
def EventConsistent (s : KVServer) (e : CrashEvent) (_ : KVServer) : Prop :=
  ∀ x ∈ s.operations e.begun.1, CrashConsistent e.begun.1.2 x.1 x.2

/-- Every operation of the event is safe where it begins. -/
def EventSafe (s : KVServer) (e : CrashEvent) (_ : KVServer) : Prop :=
  ∀ x ∈ s.operations e.begun.1, x.2.Safe x.1

/-- No counter is about to leave its `int`, and a candidate that asks for a vote
has a name that comes back from `raft.meta`. -/
def EventStorable (s : KVServer) (e : CrashEvent) (_ : KVServer) : Prop :=
  s.Bounded ∧ e.begun.1.1.Bounded ∧ e.begun.1.1.Votes StorableName

theorem eventConsistent_iff (h : s.Filed) (hm : s.MetaFiled) (hw : EventStorable s e t) :
    EventConsistent s e t ↔ EventSafe s e t := by
  have hops := (h.operations hw.1 e.begun hw.2.2).1
  have hmops := (hm.operations h hw.1 e.begun hw.2.2).1
  have hiff := fun x hx => crashConsistent_iff_safe e.begun.1.2 (hops x hx).1
    (hmops x hx).1 (hops x hx).2
  exact ⟨fun hc x hx => (hiff x hx).mp (hc x hx), fun hsafe x hx => (hiff x hx).mpr (hsafe x hx)⟩

/-- After a crash at a consistent point the files agree again. -/
theorem filed_survive (h : s.Filed) (hm : s.MetaFiled) (hw : EventStorable s e t)
    (hc : EventConsistent s e t) (hs : s.survive e = some t) : t.Filed ∧ t.MetaFiled := by
  obtain ⟨hb, -, hok⟩ := hw
  cases e with
  | event e => exact ⟨(h.operations hb e hok).2 t hs, (hm.operations h hb e hok).2 t hs⟩
  | crash e operation point store now =>
    rw [KVServer.survive] at hs
    split at hs
    · cases hs
    · next u op hop =>
      have hmem := List.mem_of_getElem? hop
      obtain ⟨hu, ha⟩ := (h.operations hb e hok).1 _ hmem
      have hum := ((hm.operations h hb e hok).1 _ hmem).1
      split at hs
      · cases hs
      · next d hd =>
        have hpoint := List.mem_of_getElem? hd
        obtain ⟨hloads, hhard, -⟩ := hc _ hmem d hpoint
        have hbase := base_points hu (hu.exec ha) d hpoint
        have hstorable : StorableState d.hardState := by
          rcases hhard with heq | heq <;> rw [heq]
          · exact hum.storable
          · exact (hum.exec ha).storable
        have hload : ∀ store' v, loadRaftState { u.onDisk d with
            store := store', router := (u.onDisk d).router.restart } = some v →
            v.updateLogInfo.Filed ∧ v.updateLogInfo.MetaFiled := fun _ _ hl =>
          ⟨filed_updateLogInfo (s := u.onDisk d) ((u.loads_iff d).mp hloads) hbase hl,
            metaFiled_updateLogInfo (s := u.onDisk d) hstorable hum.self hl⟩
        refine (restart_always (s := { u.onDisk d with store := store })
          (P := fun t => t.Filed ∧ t.MetaFiled) StorableName hload ?_).2 t hs
        intro v hv
        have happly : RaftOperation.applyCommitted.Allowed StorableName v := trivial
        exact ⟨hv.1.exec happly, hv.2.congr (applyCommitted_core now v)⟩

end Runs

end KVServer

open KVServer

/-- The files of a node are consistent at every crash point of a run exactly
if every operation of the run is safe. -/
theorem crashConsistent_iff (router : Router) (hid : StorableName router.localId)
    (hmeta : StorableState (loadRaftMeta router.raftMetaFile)) (store : Store) (threshold : Int)
    (es : List CrashEvent)
    (hes : Runs.Always survive EventStorable (fresh router.restart store threshold) es) :
    Runs.Always survive EventConsistent (fresh router.restart store threshold) es ↔
      Runs.Always survive EventSafe (fresh router.restart store threshold) es := by
  have hfresh : (fresh router.restart store threshold).Filed ∧
      (fresh router.restart store threshold).MetaFiled :=
    ⟨filed_fresh router store threshold, rfl, hmeta, hid⟩
  exact Runs.always_iff_of_always (I := fun s => s.Filed ∧ s.MetaFiled) (C := EventStorable)
    (fun s e t h _ hw => eventConsistent_iff h.1 h.2 hw)
    (fun s e t h hs hw hc => filed_survive h.1 h.2 hw hc hs) hfresh hes

section Example

/-- The first election of a node. -/
def firstElection : CrashEvent := .event ⟨(.election false, 0), trivial⟩

/-- A candidate of term one learns of term five. -/
def learnsOfFive : CrashEvent := .event ⟨(.newerTerm 5, 1), show Text.InRange32 5 by decide⟩

def candidateOfOne : KVServer :=
  (fresh threeNodes.restart (.memory {}) 1000).startElection false

/-- The first election of a new node: there is nothing to forget. -/
theorem crashConsistent_first_election :
    Runs.Always survive EventConsistent (fresh threeNodes.restart (.memory {}) 1000)
      [firstElection] := by
  have hstorable : Runs.Always survive EventStorable (fresh threeNodes.restart (.memory {}) 1000)
      [firstElection] := ⟨⟨by decide, trivial, trivial⟩, trivial⟩
  refine (crashConsistent_iff threeNodes (by decide) ⟨by decide, by decide, .inl rfl⟩ (.memory {})
    1000 [firstElection] hstorable).mpr ⟨fun x hx => ?_, trivial⟩
  rw [List.mem_singleton.mp hx]
  rfl

/-- `raft.meta` is empty while the new term is being written. -/
theorem emptied_meta_forgets_term :
    ¬ ∀ (router : Router) (store : Store) (threshold : Int) (es : List CrashEvent),
      Runs.Always survive EventConsistent (fresh router.restart store threshold) es := by
  intro h
  have hall := h threeNodes (.memory {}) 1000 [firstElection, learnsOfFive]
  have hlast : EventConsistent candidateOfOne learnsOfFive _ :=
    ((Runs.always_cons rfl []).mp ((Runs.always_cons rfl _).mp hall).2).1
  have hop : (candidateOfOne, RaftOperation.newTerm 5) ∈
      candidateOfOne.operations learnsOfFive.begun.1 := List.mem_singleton.mpr rfl
  have hpoint : candidateOfOne.disk.set .metadata [] ∈
      raftCrashPoints ((RaftOperation.newTerm 5).exec 1 candidateOfOne) candidateOfOne.disk
        [.metadata] :=
    List.mem_cons_of_mem _ List.mem_cons_self
  have hterm : (1 : Int) ≤ 0 := (hlast _ hop _ hpoint).2.2
  exact absurd hterm (by decide)

end Example

end TinyKV
