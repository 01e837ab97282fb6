import Mathlib.Logic.Relation
import TinyKV.Model.Node
import TinyKV.Proofs.RaftFiles
import TinyKV.Proofs.RaftLog

/-!
# The log of a node, across requests and restarts

Everything a request does to the log is made of a few small steps: entries
are erased from some index on, one is appended behind the last, the base of
the log is moved up and the entries below it go, and from time to time a file
is written (`LogStep`). What these steps keep, every request keeps.

For restarts it matters that the two files agree on the base. `raft.log` may
be older than the log, as a batch that fails halfway leaves its entries in
memory only; but the base never moves without both files being written, so
whatever log the file has, it starts at the base. `raft.state` is behind the
indices only within a section (`StateSaved`), and is read back as long as they
are `int`s.
-/

namespace TinyKV

open Relation

namespace KVServer

/-- The small steps of the log sections. -/
inductive LogStep (now : Int) : KVServer → KVServer → Prop
  | erase (s : KVServer) (index : Int) : LogStep now s (s.eraseFrom index)
  | push (s : KVServer) (entry : RaftLogEntry) (h : entry.index = s.raftLastLogIndex + 1) :
      LogStep now s (s.pushBack entry)
  | saveLog (s : KVServer) : LogStep now s s.persistRaftLog
  | saveState (s : KVServer) : LogStep now s s.persistRaftState
  | logInfo (s : KVServer) : LogStep now s s.updateLogInfo
  | indices (s : KVServer) (commit applied : Int) :
      LogStep now s { s with raftCommitIndex := commit, raftLastApplied := applied }
  | apply (s : KVServer) (entry : RaftLogEntry) (h : entry ∈ s.raftLog) :
      LogStep now s (s.applyNext now entry)
  | rebase (s : KVServer) (index term : Int) (h : s.raftLastIncludedIndex < index) :
      LogStep now s (s.rebase index term)

abbrev LogSteps (now : Int) : KVServer → KVServer → Prop := ReflTransGen (LogStep now)

section Sections

variable (now : Int) (s : KVServer)

theorem appendOne_steps (entry : RaftLogEntry) : LogSteps now s (s.appendOne entry) := by
  refine appendOne_elim (P := LogSteps now s) (fun _ => .single (.erase s _)) .refl ?_
  intro t ht hi
  exact ht.tail (.push t entry hi)

theorem appendLoop_steps (expected : Int) (entries : List RaftLogEntry) :
    LogSteps now s (s.appendLoop expected entries).1 := by
  induction entries generalizing s expected with
  | nil => exact .refl
  | cons entry rest ih =>
    rw [appendLoop]
    split
    · exact .refl
    · split
      · exact .refl
      · exact (appendOne_steps now s entry).trans (ih _ _)

theorem persistRaft_steps : LogSteps now s s.persistRaft :=
  .tail (.single (.saveLog s)) (.saveState _)

theorem appendSingle_steps (request : AppendRequest) :
    LogSteps now s (s.appendSingle request) := by
  refine appendSingle_elim (P := LogSteps now s)
    (fun _ => (ReflTransGen.single (.erase s _)).trans (persistRaft_steps now _)) .refl
    (fun t ht _ => ht) ?_
  intro t type ht _ hi
  exact ((ht.tail (.push t _ hi)).tail (.saveLog _)).tail (.logInfo _)

theorem rejectPrev_steps (prev : Int) : LogSteps now s (s.rejectPrev prev) := by
  unfold rejectPrev
  exact (((ReflTransGen.single (.erase s prev)).tail (.indices _ _ _)).trans
    (persistRaft_steps now _)).tail (.logInfo _)

theorem applyCommitted_steps : LogSteps now s (s.applyCommittedRaftEntries now) := by
  refine applyCommitted_elim (P := LogSteps now s) (.single (.indices s s.raftCommitIndex _)) ?_
    (fun t ht _ => ht.tail (.saveState t)) ?_
  · intro t _ entry ht _ _ he
    exact ht.tail (.apply t entry (List.mem_of_getElem? he))
  · intro t ht _ hlt _
    exact (ht.tail (.rebase t _ _ hlt)).tail (.saveState _)

theorem advanceCommit_steps (leaderCommit : Int) :
    LogSteps now s (s.advanceCommit now leaderCommit) := by
  unfold advanceCommit
  split
  · exact (ReflTransGen.single (.indices s _ s.raftLastApplied)).trans
      (applyCommitted_steps now _)
  · exact .refl

theorem appendLocked_steps (request : AppendRequest) :
    LogSteps now s (s.appendLocked now request).1 := by
  have hloop := appendLoop_steps now s (request.prevLogIndex + 1) request.entries
  refine appendLocked_elim (P := LogSteps now s) .refl ?_ ?_ ?_ ?_
    (fun _ _ _ => advanceCommit_steps now s _)
  · exact fun _ _ _ => rejectPrev_steps now s _
  · exact fun _ => hloop
  · intro _ _
    exact ((hloop.tail (.saveLog _)).tail (.logInfo _)).trans (advanceCommit_steps now _ _)
  · exact fun _ => (appendSingle_steps now s request).trans (advanceCommit_steps now _ _)

theorem installSet_steps {request : InstallRequest}
    (h : s.raftLastIncludedIndex < request.lastLogIndex) :
    LogSteps now s (s.installSet request) :=
  .tail (.single (.indices s (max s.raftCommitIndex request.lastLogIndex)
    (max s.raftLastApplied request.lastLogIndex))) (.rebase _ _ request.lastLogTerm h)

theorem commitWrite_steps (entry : RaftLogEntry) : LogSteps now s (s.commitWrite now entry) := by
  unfold commitWrite
  split
  · exact (ReflTransGen.single (.indices s _ s.raftLastApplied)).trans
      (applyCommitted_steps now _)
  · exact .refl

theorem appendWrite_steps (request : WriteRequest) : LogSteps now s (s.appendWrite request).1 := by
  unfold appendWrite
  exact ((ReflTransGen.single (.push s _ rfl)).tail (.saveLog _)).tail (.logInfo _)

end Sections

/-! ## What every small step keeps -/

/-- The log is contiguous, and so is whatever `raft.log` has. -/
structure LogFiled (s : KVServer) : Prop where
  contiguous : s.LogContiguous
  base_nonneg : 0 ≤ s.raftLastIncludedIndex
  log_file : ∀ text log, s.raftLogFile = some text → loadRaftLog text = some log →
    Contiguous s.raftLastIncludedIndex log

variable {s t : KVServer} {now : Int}

/-- Other fields do not matter. -/
theorem LogFiled.congr (h : s.LogFiled) (hl : t.raftLog = s.raftLog)
    (hb : t.raftLastIncludedIndex = s.raftLastIncludedIndex) (hlf : t.raftLogFile = s.raftLogFile) :
    t.LogFiled := by
  refine ⟨?_, ?_, ?_⟩
  · rw [LogContiguous, hl, hb]
    exact h.contiguous
  · rw [hb]
    exact h.base_nonneg
  · rw [hlf, hb]
    exact h.log_file

/-- With the log written, nothing else has to be known about the file. -/
theorem logFiled_persistRaft (h : s.LogContiguous) (h0 : 0 ≤ s.raftLastIncludedIndex) :
    s.persistRaft.LogFiled := by
  refine ⟨h, h0, fun text log ht hlog => ?_⟩
  injection ht with ht
  subst ht
  exact loadRaftLog_text hlog ▸ h

theorem LogFiled.step (h : s.LogFiled) (hs : LogStep now s t) : t.LogFiled := by
  cases hs with
  | erase index =>
    refine ⟨contiguous_eraseFrom h.contiguous index, ?_, ?_⟩
    all_goals unfold eraseFrom; split
    · exact h.base_nonneg
    · exact h.base_nonneg
    · exact h.log_file
    · exact h.log_file
  | push entry hi => exact ⟨contiguous_pushBack h.contiguous hi, h.base_nonneg, h.log_file⟩
  | saveLog => exact (logFiled_persistRaft h.contiguous h.base_nonneg).congr rfl rfl rfl
  | saveState => exact h.congr rfl rfl rfl
  | logInfo => exact h.congr rfl rfl rfl
  | indices commit applied => exact h.congr rfl rfl rfl
  | apply entry he => exact h.congr rfl rfl rfl
  | rebase index term hlt =>
    obtain ⟨hf, hc⟩ := h.contiguous.filter (Int.le_of_lt hlt)
    refine (logFiled_persistRaft ?_ ?_).congr rfl rfl rfl
    · show Contiguous index (s.raftLog.filter _)
      rw [hf]
      exact hc
    · show 0 ≤ index
      have := h.base_nonneg
      omega

theorem LogFiled.steps (h : s.LogFiled) (hs : LogSteps now s t) : t.LogFiled := by
  induction hs with
  | refl => exact h
  | tail _ hstep ih => exact ih.step hstep

/-! ## raft.state -/

/-- From `s` to `t`, `raft.state` was written from the indices or neither has
changed. -/
def StateSaved (s t : KVServer) : Prop :=
  t.raftStateFile = some (raftStateText t.raftIndices) ∨
    t.raftStateFile = s.raftStateFile ∧ t.raftIndices = s.raftIndices

/-- Indices that are `int`s are in `raft.state`. -/
def StateFiled (s : KVServer) : Prop :=
  s.raftIndices.InRange → loadRaftIndices s.raftStateFile = s.raftIndices

theorem stateFiled_of_saved (h : s.raftStateFile = some (raftStateText s.raftIndices)) :
    s.StateFiled := by
  intro hrange
  rw [h, loadRaftIndices_text hrange]

theorem StateFiled.saved (h : s.StateFiled) (hs : StateSaved s t) : t.StateFiled := by
  rcases hs with hf | ⟨hf, hi⟩
  · exact stateFiled_of_saved hf
  · rw [StateFiled, hf, hi]
    exact h

section Saved

variable (now : Int) {u : KVServer}

theorem StateSaved.refl (s : KVServer) : StateSaved s s := .inr ⟨rfl, rfl⟩

theorem StateSaved.trans (h : StateSaved s t) (h' : StateSaved t u) : StateSaved s u := by
  rcases h' with hf | ⟨hf, hi⟩
  · exact .inl hf
  · rcases h with h | ⟨hf', hi'⟩
    · exact .inl (by rw [hf, hi, h])
    · exact .inr ⟨hf.trans hf', hi.trans hi'⟩

theorem appendLoop_saved (s : KVServer) (expected : Int) (entries : List RaftLogEntry) :
    StateSaved s (s.appendLoop expected entries).1 :=
  .inr ⟨appendLoop_same (f := raftStateFile) (fun _ _ => rfl) s expected entries,
    appendLoop_same (f := raftIndices) (fun _ _ => rfl) s expected entries⟩

theorem appendSingle_saved (s : KVServer) (request : AppendRequest) :
    StateSaved s (s.appendSingle request) := by
  refine appendSingle_elim (P := StateSaved s) (fun _ => .inl rfl) (.refl s) (fun t ht _ => ht) ?_
  intro t type ht _ _
  exact ht.trans (.inr ⟨rfl, rfl⟩)

theorem advanceCommit_saved (s : KVServer) (leaderCommit : Int) :
    StateSaved s (s.advanceCommit now leaderCommit) := by
  unfold advanceCommit
  split
  · exact .inl rfl
  · exact .refl s

theorem appendLocked_saved (s : KVServer) (request : AppendRequest) :
    StateSaved s (s.appendLocked now request).1 := by
  have hloop := appendLoop_saved s (request.prevLogIndex + 1) request.entries
  refine appendLocked_elim (P := StateSaved s) (.refl s) (fun _ _ _ => .inl rfl)
    (fun _ => hloop) ?_ ?_ (fun _ _ _ => advanceCommit_saved now s _)
  · intro _ _
    exact (hloop.trans (.inr ⟨rfl, rfl⟩)).trans (advanceCommit_saved now _ _)
  · exact fun _ => (appendSingle_saved s request).trans (advanceCommit_saved now _ _)

theorem commitWrite_saved (s : KVServer) (entry : RaftLogEntry) :
    StateSaved s (s.commitWrite now entry) := by
  unfold commitWrite
  split
  · exact .inl rfl
  · exact .refl s

theorem restart_saved (h : s.restart now = some t) : StateSaved s t := by
  obtain ⟨_, _, _, _, rfl⟩ := restart_eq_some h
  exact .inl rfl

theorem handleRaft_saved (s : KVServer) (request : RaftRequest) :
    StateSaved s (s.handleRaft now request) := by
  cases request with
  | requestVote term candidateId lastLogIndex lastLogTerm => exact .inr ⟨rfl, rfl⟩
  | heartbeat term leaderId => exact .inr ⟨rfl, rfl⟩
  | append request =>
    refine handleAppend_elim (P := StateSaved s) (.inr ⟨rfl, rfl⟩) fun _ => ?_
    exact .trans (.inr ⟨rfl, rfl⟩) (appendLocked_saved now _ request)
  | install request =>
    exact handleInstall_elim (P := StateSaved s) (fun _ => .inr ⟨rfl, rfl⟩) fun _ _ => .inl rfl

theorem handleWrite_saved (s : KVServer) (request : WriteRequest) (followers : Replication) :
    StateSaved s (s.handleWrite now request followers) :=
  handleWrite_elim (P := StateSaved s) (.refl s) (fun _ => .inr ⟨rfl, rfl⟩) fun _ _ => .inl rfl

theorem loadRaftState_router (h : s.loadRaftState = some t) :
    t.router = s.router := by
  rw [loadRaftState] at h
  split at h
  · injection h with h
    rw [← h]
  · split at h
    · cases h
    · injection h with h
      rw [← h]

theorem startAgain_eq (h : s.startAgain now = some t) : s.InRange ∧ s.restart now = some t := by
  unfold startAgain at h
  split at h
  · next hr => exact ⟨hr, h⟩
  · cases h

theorem handle_saved {e : NodeEvent × Int} (hs : s.handle e = some t) : StateSaved s t := by
  obtain ⟨e, now⟩ := e
  cases e with
  | raft request => exact Option.some.inj hs ▸ handleRaft_saved now s request
  | write request followers => exact Option.some.inj hs ▸ handleWrite_saved now s request followers
  | election won => exact Option.some.inj hs ▸ .inr ⟨rfl, rfl⟩
  | newerTerm term => exact Option.some.inj hs ▸ .inr ⟨rfl, rfl⟩
  | restart => exact restart_saved now (startAgain_eq now hs).2

end Saved

/-! ## Requests and restarts -/

theorem LogFiled.loadRaftState (h : s.LogFiled)
    (hstate : (loadRaftIndices s.raftStateFile).lastIncludedIndex = s.raftLastIncludedIndex)
    (hl : s.loadRaftState = some t) : t.LogFiled := by
  unfold KVServer.loadRaftState at hl
  simp only [] at hl
  split at hl
  · next hnone =>
    injection hl with hl
    subst hl
    refine ⟨contiguous_nil _, ?_, fun text log ht => ?_⟩
    · show 0 ≤ (loadRaftIndices s.raftStateFile).lastIncludedIndex
      rw [hstate]
      exact h.base_nonneg
    · rw [show s.raftLogFile = none from hnone] at ht
      cases ht
  · next text htext =>
    split at hl
    · cases hl
    · next log hlog =>
      injection hl with hl
      subst hl
      refine ⟨?_, ?_, ?_⟩
      · show Contiguous (loadRaftIndices s.raftStateFile).lastIncludedIndex log
        rw [hstate]
        exact h.log_file text log htext hlog
      · show 0 ≤ (loadRaftIndices s.raftStateFile).lastIncludedIndex
        rw [hstate]
        exact h.base_nonneg
      · show ∀ text log, s.raftLogFile = some text → loadRaftLog text = some log →
          Contiguous (loadRaftIndices s.raftStateFile).lastIncludedIndex log
        rw [hstate]
        exact h.log_file

theorem LogFiled.startAgain (h : s.LogFiled) (hstate : s.StateFiled)
    (hr : s.startAgain now = some t) : t.LogFiled := by
  obtain ⟨hrange, hr⟩ := startAgain_eq now hr
  have hbase := congrArg RaftIndices.lastIncludedIndex (hstate hrange.2)
  obtain ⟨store, u, -, hu, rfl⟩ := restart_eq_some hr
  have hstart : LogFiled { s with store := store, router := s.router.restart } :=
    h.congr rfl rfl rfl
  exact (hstart.loadRaftState hbase hu).steps ((ReflTransGen.single (.logInfo u)).trans
    (applyCommitted_steps now _))

theorem LogFiled.handleRaft (h : s.LogFiled) (now : Int) (request : RaftRequest) :
    (s.handleRaft now request).LogFiled := by
  cases request with
  | requestVote term candidateId lastLogIndex lastLogTerm => exact h.congr rfl rfl rfl
  | heartbeat term leaderId => exact h.congr rfl rfl rfl
  | append request =>
    have hc : (s.checkTerm request.term request.nodeId).1.LogFiled := h.congr rfl rfl rfl
    exact handleAppend_elim hc fun _ => hc.steps (appendLocked_steps now _ request)
  | install request =>
    have hc : ∀ store : Store, LogFiled
        { (s.checkTerm request.term request.nodeId).1 with store := store } :=
      fun _ => h.congr rfl rfl rfl
    exact handleInstall_elim hc fun store hlt => (hc store).steps (installSet_steps now _ hlt)

theorem LogFiled.handleWrite (h : s.LogFiled) (now : Int) (request : WriteRequest)
    (followers : Replication) : (s.handleWrite now request followers).LogFiled := by
  have hw := h.steps (appendWrite_steps now s request)
  refine handleWrite_elim h (fun store => hw.congr rfl rfl rfl) fun store _ => ?_
  have hu : LogFiled { (s.appendWrite request).1 with
      store := store, raftCommitIndex := s.raftLastLogIndex + 1 } := hw.congr rfl rfl rfl
  exact hu.steps (applyCommitted_steps now _)

theorem LogFiled.handle (h : s.LogFiled) (hstate : s.StateFiled) {e : NodeEvent × Int}
    (hs : s.handle e = some t) : t.LogFiled := by
  obtain ⟨e, now⟩ := e
  cases e with
  | raft request =>
    injection hs with hs
    subst hs
    exact h.handleRaft now request
  | write request followers =>
    injection hs with hs
    subst hs
    exact h.handleWrite now request followers
  | election won =>
    injection hs with hs
    subst hs
    exact h.congr rfl rfl rfl
  | newerTerm term =>
    injection hs with hs
    subst hs
    exact h.congr rfl rfl rfl
  | restart => exact h.startAgain hstate hs

theorem logFiled_fresh (router : Router) (store : Store) (threshold : Int) :
    (fresh router store threshold).LogFiled :=
  ⟨contiguous_nil _, Int.le_refl 0, nofun⟩

theorem stateFiled_fresh (router : Router) (store : Store) (threshold : Int) :
    (fresh router store threshold).StateFiled := fun _ => rfl

theorem logFiled_run {router : Router} {store : Store} {threshold : Int}
    {es : List (NodeEvent × Int)}
    (hr : Runs.run handle (fresh router store threshold) es = some t) : t.LogFiled := by
  have h := Runs.inv_of_run (I := fun s => s.LogFiled ∧ s.StateFiled)
    (fun _ _ _ hs hstep => ⟨hs.1.handle hs.2 hstep, hs.2.saved (handle_saved hstep)⟩)
    ⟨logFiled_fresh router store threshold, stateFiled_fresh router store threshold⟩ hr
  exact h.1

/-- Whatever requests a node has handled, and however often it was started
again, looking an index up finds the entry that carries it. -/
theorem log_lookups_exact (router : Router) (store : Store) (threshold : Int)
    (es : List (NodeEvent × Int)) (s : KVServer)
    (hr : Runs.run handle (fresh router store threshold) es = some s) :
    s.LogContiguous ∧ s.raftLastLogIndex = s.raftLastIncludedIndex + s.raftLog.length ∧
      (∀ (j : Nat) (entry : RaftLogEntry), s.raftLog[j]? = some entry →
        s.raftLogOffset entry.index = some j ∧ s.raftTermAt entry.index = entry.term) ∧
      ∀ (index : Int) (offset : Nat), s.raftLogOffset index = some offset →
        ∃ entry, s.raftLog[offset]? = some entry ∧ entry.index = index := by
  have h := logFiled_run hr
  refine ⟨h.contiguous, lastLogIndex_eq h.contiguous, fun j entry he => ?_,
    fun index offset ho => ?_⟩
  · have hlt := (List.getElem?_eq_some_iff.mp he).1
    rw [h.contiguous j entry he]
    exact ⟨logOffset_eq_some.mpr ⟨rfl, hlt⟩, termAt_log h.base_nonneg he⟩
  · obtain ⟨rfl, hlt⟩ := logOffset_eq_some.mp ho
    exact ⟨s.raftLog[offset], List.getElem?_eq_getElem hlt,
      h.contiguous offset _ (List.getElem?_eq_getElem hlt)⟩

end KVServer

/-! A leader of three writes two entries, with compaction after each commit,
and is started again before the second one is committed. -/

def threeNodes : Router where
  localId := bytes ['a']
  localPort := 1
  allNodes := [⟨bytes ['a'], [], 1⟩, ⟨bytes ['b'], [], 2⟩, ⟨bytes ['c'], [], 3⟩]

def putRequest (key value : Char) : WriteRequest := ⟨.put, bytes [key], bytes [value], 0⟩

def writesAndRestart : List (NodeEvent × Int) :=
  [(.election true, 0), (.write (putRequest 'k' 'v') { acks := 2 }, 1),
    (.write (putRequest 'k' 'w') { acks := 0 }, 2), (.restart, 3)]

theorem log_lookups_exact_restarted :
    ∃ s, Runs.run KVServer.handle (KVServer.fresh threeNodes (.memory {}) 1) writesAndRestart =
        some s ∧ s.raftLastIncludedIndex = 1 ∧ s.raftLog.map RaftLogEntry.index = [2] ∧
      s.LogContiguous := by
  obtain ⟨s, hs⟩ : ∃ s, Runs.run KVServer.handle (KVServer.fresh threeNodes (.memory {}) 1)
      writesAndRestart = some s := ⟨_, rfl⟩
  refine ⟨s, hs, ?_, ?_, (KVServer.log_lookups_exact _ _ _ _ s hs).1⟩
  · injection hs with hs
    rw [← hs]
    rfl
  · injection hs with hs
    rw [← hs]
    rfl

end TinyKV
