import TinyKV.Proofs.ClusterSections
import TinyKV.Proofs.NodeLog

/-!
# Writes that were answered with `raft_no_quorum`

`replicate_raft_write` appends its entry before it asks anyone, and an answer
of `raft_no_quorum` leaves it there. The entry is then like any other: as
soon as a later write of this leader finds a quorum, or another node that has
received the entry is elected and commits something behind it, it is
committed and applied with the rest.

So an entry stays without effect as long as no commit index passes it where it
is in a log. What passes an entry is seen before a section runs
(`Section.LeavesOut`): a commit of a later index, a request whose
`leader_commit` reaches it and that brings it or does not replace it, and a
restart on a `raft.log` that has it below the commit index.
-/

namespace TinyKV

open Function

/-- The entries that a request asks to append. -/
def AppendRequest.brought (request : AppendRequest) : List RaftLogEntry :=
  if 0 < request.entryCount then request.entries
  else if 0 < request.logIndex then ((opType request.raftOp).map request.single).toList
  else []

namespace KVServer

def HasApplied (s : KVServer) (e : RaftLogEntry) : Prop := ∃ x ∈ s.applied, x.2 = e

/-- The entry comes with the request, or is in the log and none of another
term comes in its place. Term −1 is what an index without an entry answers. -/
def Leaves (s : KVServer) (request : AppendRequest) (r : RaftLogEntry) : Prop :=
  r ∈ request.brought ∨ r ∈ s.raftLog ∧
    ∀ x ∈ request.brought, x.index = r.index → x.term = r.term ∨ r.term = -1

instance (s : KVServer) (request : AppendRequest) (r : RaftLogEntry) :
    Decidable (s.Leaves request r) := inferInstanceAs (Decidable (_ ∨ _))

instance (s : KVServer) (request : AppendRequest) : Decidable (s.PrevMatches request) :=
  decidable_of_iff (_ ≤ _ ∧ _ ≤ _ ∧ (0 < _ → s.raftTermAt _ = _))
    ⟨fun h => ⟨h.1, h.2.1, h.2.2⟩, fun h => ⟨h.base, h.last, h.term⟩⟩

/-- The entry is not applied, and the commit index has not passed it. -/
structure LeftOut (r : RaftLogEntry) (s : KVServer) : Prop where
  notApplied : ¬ s.HasApplied r
  behind : r ∈ s.raftLog → s.raftLastApplied < r.index → s.raftCommitIndex < r.index

section LeftOut

variable {r : RaftLogEntry} {s t : KVServer}

theorem LeftOut.congr (h : s.LeftOut r) (hl : t.raftLog = s.raftLog)
    (hi : t.raftIndices = s.raftIndices) (ha : t.applied = s.applied) : t.LeftOut r := by
  have hcommit : t.raftCommitIndex = s.raftCommitIndex := congrArg RaftIndices.commitIndex hi
  have happlied : t.raftLastApplied = s.raftLastApplied := congrArg RaftIndices.lastApplied hi
  refine ⟨?_, ?_⟩
  · rw [HasApplied, ha]
    exact h.notApplied
  · rw [hl, hcommit, happlied]
    exact h.behind

/-! ## The apply loop -/

theorem LeftOut.applyNext (h : s.LeftOut r) (hc : s.LogContiguous) (now : Int) {offset : Nat}
    {entry : RaftLogEntry} (hlt : s.raftLastApplied < s.raftCommitIndex)
    (ho : s.raftLogOffset (s.raftLastApplied + 1) = some offset)
    (he : s.raftLog[offset]? = some entry) : (s.applyNext now entry).LeftOut r := by
  have hindex : entry.index = s.raftLastApplied + 1 := by
    rw [hc offset entry he]
    exact (logOffset_eq_some.mp ho).1.symm
  refine ⟨?_, fun hr hbehind => ?_⟩
  · rintro ⟨x, hx, rfl⟩
    rcases List.mem_append.mp hx with hx | hx
    · exact h.notApplied ⟨x, hx, rfl⟩
    · rw [List.mem_singleton.mp hx] at h
      have := h.behind (List.mem_of_getElem? he) (by show _ < entry.index; omega)
      simp only at this
      omega
  · have hbehind : entry.index < r.index := hbehind
    exact h.behind hr (by omega)

theorem LeftOut.applyCommitted (h : s.LeftOut r) (hc : s.LogContiguous) (now : Int) :
    (s.applyCommittedRaftEntries now).LeftOut r := by
  refine applyCommitted_elim (P := fun t => t.LeftOut r ∧ t.LogContiguous) (Q := LeftOut r) ?_ ?_
    (fun t ht _ => ⟨ht.1.notApplied, ht.1.behind⟩) ?_
  · refine ⟨⟨h.notApplied, fun hr hlt => h.behind hr ?_⟩, hc⟩
    have hlt : max s.raftLastApplied s.raftLastIncludedIndex < r.index := hlt
    omega
  · intro t offset entry ht hlt ho he
    exact ⟨ht.1.applyNext ht.2 now hlt ho he, ht.2⟩
  · intro t ht _ _ _
    exact ⟨ht.1.notApplied, fun hr => ht.1.behind (List.mem_filter.mp hr).1⟩

theorem leftOut_advanceCommit (hc : s.LogContiguous) (now : Int) {leaderCommit : Int}
    (hr : ¬ s.HasApplied r) (h : r ∈ s.raftLog → s.raftLastApplied < r.index →
      max s.raftCommitIndex leaderCommit < r.index) :
    (s.advanceCommit now leaderCommit).LeftOut r := by
  unfold advanceCommit
  split
  · refine LeftOut.applyCommitted
      (s := { s with raftCommitIndex := min leaderCommit s.raftLastLogIndex })
      ⟨hr, fun hm hlt => ?_⟩ hc now
    have := h hm hlt
    show min leaderCommit s.raftLastLogIndex < r.index
    omega
  · refine ⟨hr, fun hm hlt => ?_⟩
    have := h hm hlt
    omega

/-! ## AppendEntries -/

/-- What is in the log after one entry of a request. -/
theorem appendOne_leaves (h0 : 0 ≤ s.raftLastIncludedIndex) (hc : s.LogContiguous)
    {x : RaftLogEntry} {u : KVServer}
    (hu : u.raftLog = (if s.raftTermAt x.index ≠ -1 ∧ s.raftTermAt x.index ≠ x.term then
      s.eraseFrom x.index else s).raftLog) (h : r ∈ u.raftLog) :
    r ∈ s.raftLog ∧ (x.index = r.index → x.term = r.term ∨ r.term = -1) := by
  -- an entry at the index of `x` is found by looking its term up
  have hfind : ∀ {j : Nat}, s.raftLog[j]? = some r → x.index = r.index →
      s.raftLogOffset x.index = some j ∧ s.raftTermAt x.index = r.term := by
    intro j hj hx
    rw [hx, hc j r hj]
    exact ⟨logOffset_eq_some.mpr ⟨rfl, (List.getElem?_eq_some_iff.mp hj).1⟩, termAt_log h0 hj⟩
  rw [hu] at h
  split at h
  · refine ⟨eraseFrom_subset _ h, fun hx => ?_⟩
    obtain ⟨j, hj⟩ := List.getElem?_of_mem (eraseFrom_subset _ h)
    rw [eraseFrom, (hfind hj hx).1] at h
    obtain ⟨i, hi⟩ := List.getElem?_of_mem h
    rw [List.getElem?_take] at hi
    split at hi
    · have := hc i r hi
      have := hc j r hj
      omega
    · cases hi
  · next hno =>
    refine ⟨h, fun hx => ?_⟩
    obtain ⟨j, hj⟩ := List.getElem?_of_mem h
    rw [(hfind hj hx).2] at hno
    by_contra hne
    exact hno ⟨fun h => hne (.inr h), fun h => hne (.inl h.symm)⟩

theorem appendLoop_leaves (h0 : 0 ≤ s.raftLastIncludedIndex) (hc : s.LogContiguous)
    {expected : Int} {entries : List RaftLogEntry}
    (hok : (s.appendLoop expected entries).2 = true)
    (h : r ∈ (s.appendLoop expected entries).1.raftLog) :
    r ∈ entries ∨ r ∈ s.raftLog ∧
      ∀ x ∈ entries, x.index = r.index → x.term = r.term ∨ r.term = -1 := by
  induction entries generalizing s expected with
  | nil => exact .inr ⟨h, by simp⟩
  | cons entry rest ih =>
    rw [appendLoop] at h hok
    split at h
    · next hne =>
      rw [if_pos hne] at hok
      cases hok
    · next hne =>
      rw [if_neg hne] at hok
      split at h
      · next hfar =>
        rw [if_pos hfar] at hok
        cases hok
      · next hfar =>
        rw [if_neg hfar] at hok
        obtain ⟨hc', hb⟩ := contiguous_appendOne hc entry
        rcases ih (hb ▸ h0) hc' hok h with hin | ⟨hlog, hrest⟩
        · exact .inl (List.mem_cons_of_mem _ hin)
        · rw [appendOne] at hlog
          have hold : ∀ u : KVServer, r ∈ (if entry.index = u.raftLastLogIndex + 1 then
              u.pushBack entry else u).raftLog → r ∈ u.raftLog ∨ r = entry := by
            intro u hu
            split at hu
            · rcases List.mem_append.mp hu with hu | hu
              · exact .inl hu
              · exact .inr (List.mem_singleton.mp hu)
            · exact .inl hu
          rcases hold _ hlog with hlog | rfl
          · obtain ⟨hs, hx⟩ := appendOne_leaves h0 hc rfl hlog
            refine .inr ⟨hs, fun y hy => ?_⟩
            rcases List.mem_cons.mp hy with rfl | hy
            · exact hx
            · exact hrest y hy
          · exact .inl List.mem_cons_self

theorem appendSingle_leaves (h0 : 0 ≤ s.raftLastIncludedIndex) (hc : s.LogContiguous)
    {request : AppendRequest} (hb : s.BringsEntry request)
    (h : r ∈ (s.appendSingle request).raftLog) : s.Leaves request r := by
  have hbrought : request.brought = ((opType request.raftOp).map request.single).toList := by
    rw [AppendRequest.brought, if_neg (Int.not_lt.mpr hb.single), if_pos hb.index]
  rw [Leaves, hbrought]
  unfold appendSingle at h
  simp only [] at h
  have hcut : (if s.raftTermAt request.logIndex ≠ -1 ∧ s.raftTermAt request.logIndex ≠
      request.logTerm then persistRaft (s.eraseFrom request.logIndex) else s).raftLog =
      (if s.raftTermAt request.logIndex ≠ -1 ∧ s.raftTermAt request.logIndex ≠
        request.logTerm then s.eraseFrom request.logIndex else s).raftLog := by
    split <;> rfl
  generalize (if s.raftTermAt request.logIndex ≠ -1 ∧ s.raftTermAt request.logIndex ≠
    request.logTerm then persistRaft (s.eraseFrom request.logIndex) else s) = u at h hcut
  have hstay : r ∈ u.raftLog → r ∈ s.raftLog ∧
      ∀ type, request.logIndex = r.index → (request.single type).term = r.term ∨ r.term = -1 :=
    fun hu => ⟨(appendOne_leaves h0 hc (x := request.single .put) hcut hu).1,
      fun type => (appendOne_leaves h0 hc (x := request.single type) hcut hu).2⟩
  cases hop : opType request.raftOp with
  | none =>
    rw [hop] at h
    simp only [ite_self] at h
    exact .inr ⟨(hstay h).1, by simp⟩
  | some type =>
    rw [hop] at h
    have hleft : r ∈ u.raftLog → r ∈ [request.single type] ∨ r ∈ s.raftLog ∧
        ∀ x ∈ [request.single type], x.index = r.index → x.term = r.term ∨ r.term = -1 := by
      intro hu
      refine .inr ⟨(hstay hu).1, fun x hx => ?_⟩
      rw [List.mem_singleton.mp hx]
      exact (hstay hu).2 type
    simp only [] at h
    split at h
    · rcases List.mem_append.mp h with h | h
      · exact hleft h
      · exact .inl h
    · exact hleft h

theorem LeftOut.rejectPrev (h : s.LeftOut r) (prev : Int) :
    (s.rejectPrev prev).LeftOut r := by
  refine ⟨?_, fun hr hlt => ?_⟩
  · rw [HasApplied, show (s.rejectPrev prev).applied = s.applied from
      eraseFrom_same (f := applied) (fun _ _ => rfl) s prev]
    exact h.notApplied
  · have hr : r ∈ (s.eraseFrom prev).raftLog := hr
    have hcommit : (s.eraseFrom prev).raftCommitIndex = s.raftCommitIndex :=
      eraseFrom_same (f := raftCommitIndex) (fun _ _ => rfl) s prev
    have happlied : (s.eraseFrom prev).raftLastApplied = s.raftLastApplied :=
      eraseFrom_same (f := raftLastApplied) (fun _ _ => rfl) s prev
    have hbehind := h.behind (eraseFrom_subset prev hr)
    simp only [KVServer.rejectPrev, updateLogInfo, persistRaft, persistRaftState, persistRaftLog,
      hcommit, happlied] at hlt ⊢
    split at hlt
    · split
      · omega
      · omega
    · split
      · omega
      · omega

theorem LeftOut.appendLocked (h : s.LeftOut r) (hs : s.LogFiled) (now : Int)
    {request : AppendRequest} (hr : s.PrevMatches request → s.Leaves request r →
      s.raftLastApplied < r.index → max s.raftCommitIndex request.leaderCommit < r.index) :
    (s.appendLocked now request).1.LeftOut r := by
  have h0 := hs.base_nonneg
  have hc := hs.contiguous
  have hindices := appendLoop_same (f := raftIndices) (fun _ _ => rfl) s
    (request.prevLogIndex + 1) request.entries
  have happlied := appendLoop_same (f := applied) (fun _ _ => rfl) s
    (request.prevLogIndex + 1) request.entries
  have hbrought : s.BringsBatch request → request.brought = request.entries :=
    fun hb => if_pos hb.batch
  -- appending changes the log only, and then the commit index may advance
  have key : ∀ t : KVServer, s.PrevMatches request → t.raftIndices = s.raftIndices →
      t.applied = s.applied → t.LogContiguous → (r ∈ t.raftLog → s.Leaves request r) →
      (t.advanceCommit now request.leaderCommit).LeftOut r := by
    intro t hprev hi ha ht hm
    refine leftOut_advanceCommit ht now ?_ fun hmem hlt => ?_
    · rw [HasApplied, ha]
      exact h.notApplied
    · rw [show t.raftCommitIndex = s.raftCommitIndex from congrArg RaftIndices.commitIndex hi]
      rw [show t.raftLastApplied = s.raftLastApplied from
        congrArg RaftIndices.lastApplied hi] at hlt
      exact hr hprev (hm hmem) hlt
  refine appendLocked_elim (P := LeftOut r) h (fun _ _ _ => h.rejectPrev _) ?_ ?_ ?_ ?_
  · intro hb
    refine ⟨?_, ?_⟩
    · rw [HasApplied, happlied]
      exact h.notApplied
    · rw [show KVServer.raftCommitIndex _ = _ from congrArg RaftIndices.commitIndex hindices,
        show KVServer.raftLastApplied _ = _ from congrArg RaftIndices.lastApplied hindices]
      intro hmem hlt
      rcases appendLoop_mem hmem with hmem | hmem
      · exact h.behind hmem hlt
      · have := hr hb.toPrevMatches (.inl (hbrought hb ▸ hmem)) hlt
        show s.raftCommitIndex < r.index
        omega
  · intro hb hok
    refine key _ hb.toPrevMatches hindices happlied
      (contiguous_appendLoop hc _ _).1 fun hmem => ?_
    rw [Leaves, hbrought hb]
    exact appendLoop_leaves h0 hc hok hmem
  · intro hb
    refine key _ hb.toPrevMatches ?_ ?_ (contiguous_appendSingle hc request).1
      (appendSingle_leaves h0 hc hb)
    · exact appendSingle_same (f := raftIndices) (fun _ _ => rfl) (fun _ => rfl) (fun _ => rfl) s _
    · exact appendSingle_same (f := applied) (fun _ _ => rfl) (fun _ => rfl) (fun _ => rfl) s _
  · intro hprev hcount hindex
    refine key s hprev rfl rfl hc fun hmem => .inr ⟨hmem, ?_⟩
    rw [AppendRequest.brought, if_neg (Int.not_lt.mpr hcount), if_neg (Int.not_lt.mpr hindex)]
    simp

/-! ## Restarts -/

theorem LeftOut.startAgain (h : s.LeftOut r) (hs : s.LogFiled) (hstate : s.StateFiled)
    {now : Int} (hr : ∀ text ∈ s.raftLogFile, ∀ log ∈ loadRaftLog text, r ∈ log →
      s.raftLastApplied < r.index → s.raftCommitIndex < r.index)
    (hstart : s.startAgain now = some t) : t.LeftOut r := by
  obtain ⟨hrange, hstart⟩ := startAgain_eq now hstart
  have hread := hstate hrange.2
  obtain ⟨store, u, -, hu, rfl⟩ := restart_eq_some hstart
  have hfiled : LogFiled { s with store := store, router := s.router.restart } :=
    hs.congr rfl rfl rfl
  have hcu := (hfiled.loadRaftState
    (congrArg RaftIndices.lastIncludedIndex hread) hu).contiguous
  refine LeftOut.applyCommitted (s := u.updateLogInfo) ?_ hcu now
  unfold loadRaftState at hu
  simp only [hread] at hu
  split at hu
  · injection hu with hu
    rw [← hu]
    exact ⟨h.notApplied, nofun⟩
  · next text htext =>
    split at hu
    · cases hu
    · next log hlog =>
      injection hu with hu
      rw [← hu] at hcu ⊢
      refine ⟨h.notApplied, fun hmem hlt => ?_⟩
      have hbehind := hr text htext log hlog hmem
      obtain ⟨j, hj⟩ := List.getElem?_of_mem hmem
      have hindex := hcu j r hj
      simp only [updateLogInfo, raftIndices] at hlt hindex ⊢
      omega

end LeftOut

end KVServer

namespace Section

/-- The section leaves the entry out of what it applies, and does not set a
snapshot behind the base of a newer one. -/
def LeavesOut (r : RaftLogEntry) (s : KVServer) : Section → Prop
  | append request => request.Bounded ∧ (s.PrevMatches request → s.Leaves request r →
      s.raftLastApplied < r.index → max s.raftCommitIndex request.leaderCommit < r.index)
  | appendWrite _ => r.index = s.raftLastLogIndex + 1 → s.raftLastApplied < r.index →
      s.raftCommitIndex < r.index
  | commitWrite entry => r ∈ s.raftLog → s.raftLastApplied < r.index → entry.index < r.index
  | installSet request => s.raftLastIncludedIndex < request.lastLogIndex
  | restart => ∀ text ∈ s.raftLogFile, ∀ log ∈ loadRaftLog text, r ∈ log →
      s.raftLastApplied < r.index → s.raftCommitIndex < r.index
  | _ => True

instance (r : RaftLogEntry) (s : KVServer) : DecidablePred (LeavesOut r s)
  | append _ => inferInstanceAs (Decidable (_ ∧ (_ → _ → _ → _)))
  | appendWrite _ => inferInstanceAs (Decidable (_ → _ → _))
  | commitWrite _ => inferInstanceAs (Decidable (_ → _ → _))
  | installSet _ => inferInstanceAs (Decidable (_ < _))
  | restart => inferInstanceAs (Decidable (∀ text ∈ s.raftLogFile, ∀ log ∈ loadRaftLog text, _))
  | beginElection | winElection _ | stepDown _ | beginHeartbeats | requestVote _ _ _ _
  | appendEntries _ _ | writeLocal _ | encodeSnapshot _ | installPayload _ =>
    inferInstanceAs (Decidable True)

/-- What a section keeps of a node. -/
structure StaysOut (r : RaftLogEntry) (s : KVServer) : Prop where
  log : s.LogFiled
  state : s.StateFiled
  out : s.LeftOut r

theorem run_kept {now : Int} {r : RaftLogEntry} {s t : KVServer} {sec : Section}
    (h : StaysOut r s) (hc : sec.LeavesOut r s) (hrun : sec.run now s = some t) : StaysOut r t := by
  have same : ∀ u : KVServer, some u = some t → u.raftLog = s.raftLog →
      u.raftIndices = s.raftIndices → u.raftLogFile = s.raftLogFile →
      u.raftStateFile = s.raftStateFile → u.applied = s.applied → StaysOut r t := by
    intro u heq hl hi hlf hsf ha
    rw [← Option.some.inj heq]
    exact ⟨h.log.congr hl (congrArg RaftIndices.lastIncludedIndex hi) hlf,
      h.state.saved (.inr ⟨hsf, hi⟩), h.out.congr hl hi ha⟩
  have steps : ∀ u : KVServer, some u = some t → KVServer.LogSteps now s u →
      KVServer.StateSaved s u → u.LeftOut r → StaysOut r t := fun u heq hs hst hout =>
    Option.some.inj heq ▸ ⟨h.log.steps hs, h.state.saved hst, hout⟩
  cases sec with
  | restart =>
    have hsaved := KVServer.restart_saved now (KVServer.startAgain_eq now hrun).2
    exact ⟨h.log.startAgain h.state hrun, h.state.saved hsaved,
      h.out.startAgain h.log h.state hc hrun⟩
  | append request =>
    exact steps _ hrun (KVServer.appendLocked_steps now s request)
      (KVServer.appendLocked_saved now s request) (h.out.appendLocked h.log now hc.2)
  | commitWrite entry =>
    refine steps _ hrun (KVServer.commitWrite_steps now s entry)
      (KVServer.commitWrite_saved now s entry) ?_
    unfold KVServer.commitWrite
    split
    · exact KVServer.LeftOut.applyCommitted (s := { s with raftCommitIndex := entry.index })
        ⟨h.out.notApplied, hc⟩ h.log.contiguous now
    · exact h.out
  | appendWrite request =>
    refine steps _ hrun (KVServer.appendWrite_steps now s request) (.inr ⟨rfl, rfl⟩)
      ⟨h.out.notApplied, fun hmem hlt => ?_⟩
    rcases List.mem_append.mp hmem with hmem | hmem
    · exact h.out.behind hmem hlt
    · exact hc (by rw [List.mem_singleton.mp hmem]) hlt
  | installSet request =>
    refine steps _ hrun (KVServer.installSet_steps now s hc) (.inl rfl)
      ⟨h.out.notApplied, fun hmem hlt => ?_⟩
    have hbehind := h.out.behind (List.mem_filter.mp hmem).1
    have hlt : max s.raftLastApplied request.lastLogIndex < r.index := hlt
    show max s.raftCommitIndex request.lastLogIndex < r.index
    omega
  | writeLocal request =>
    have hw : ∃ store, s.writeLocal now request = { s with store := store } := by
      unfold KVServer.writeLocal
      split
      · split <;> exact ⟨_, rfl⟩
      · exact ⟨_, rfl⟩
      · exact ⟨_, rfl⟩
      · exact ⟨s.store, rfl⟩
    obtain ⟨store, hw⟩ := hw
    rw [run, hw] at hrun
    exact same _ hrun rfl rfl rfl rfl rfl
  | installPayload payload =>
    cases payload with
    | none => exact same _ hrun rfl rfl rfl rfl rfl
    | some entries => exact same _ hrun rfl rfl rfl rfl rfl
  | _ => exact same _ hrun rfl rfl rfl rfl rfl

end Section

/-! ## The cluster -/

namespace World

/-- No node has applied the entry of a write that was rejected. -/
def NoneApplied (w : World) : Prop :=
  ∀ entry ∈ w.rejected, ∀ node, ¬ (w.servers node).HasApplied entry

/-- Whatever the event runs leaves the entry out, on a node whose term and
indices stay `int`s. -/
def LeavesOut (r : RaftLogEntry) (w : World) (e : ClusterEvent) (_ : World) : Prop :=
  ∀ x ∈ w.section? e, (w.servers x.1).Bounded ∧ x.2.2.LeavesOut r (w.servers x.1)

instance (r : RaftLogEntry) (w : World) (e : ClusterEvent) (w' : World) :
    Decidable (w.LeavesOut r e w') := inferInstanceAs (Decidable (∀ x ∈ w.section? e, _))

theorem step_kept {r : RaftLogEntry} {w w' : World} {e : ClusterEvent}
    (hw : ∀ node, Section.StaysOut r (w.servers node)) (hs : w.step e = some w')
    (hc : w.LeavesOut r e w') : ∀ node, Section.StaysOut r (w'.servers node) :=
  keeps hs (fun _ _ _ _ hsec hi hrun => Section.run_kept hi (hc _ hsec).2 hrun) hw

/-- An entry that every step leaves out is applied nowhere. -/
theorem never_applied {members : List ClusterNode} {store : Str → Store} {threshold : Str → Int}
    {es : List ClusterEvent} {w : World} {r : RaftLogEntry}
    (hrun : Runs.run step (start members store threshold) es = some w)
    (h : Runs.Always step (LeavesOut r) (start members store threshold) es) (node : Str) :
    ¬ (w.servers node).HasApplied r := by
  have hstart : ∀ node, Section.StaysOut r ((start members store threshold).servers node) := by
    intro node
    refine ⟨KVServer.logFiled_fresh _ _ _, KVServer.stateFiled_fresh _ _ _, ?_, ?_⟩
    · rintro ⟨x, hx, -⟩
      cases hx
    · intro hr
      cases hr
  exact (Runs.inv_of_always (fun _ _ _ => step_kept) hstart hrun h node).out.notApplied

end World

/-- A rejected write has no effect in the runs whose every step leaves its
entry out. -/
theorem rejected_never_applied (members : List ClusterNode) (store : Str → Store)
    (threshold : Str → Int) (es : List ClusterEvent) (w : World)
    (hrun : Runs.run World.step (World.start members store threshold) es = some w)
    (h : ∀ entry ∈ w.rejected, Runs.Always World.step (World.LeavesOut entry)
      (World.start members store threshold) es) : w.NoneApplied :=
  fun entry hentry node => World.never_applied hrun (h entry hentry) node

/-! Of three nodes, `a` is elected with the vote of `b`. A write that finds
no follower alive is rejected, and the next one finds `b`. -/

namespace World

def threeMembers : List ClusterNode :=
  [⟨bytes ['a'], [], 1⟩, ⟨bytes ['b'], [], 2⟩, ⟨bytes ['c'], [], 3⟩]

def threeStart : World := start threeMembers (fun _ => .memory {}) fun _ => 0

def electA : List ClusterEvent :=
  [.election (bytes ['a'])] ++ jobSteps 2 0 [] ++ taskSteps 1 0 ++ jobSteps 2 0 []

def rejectWrite : List ClusterEvent :=
  [.write (bytes ['a']) (putRequest 'k' 'v')] ++ jobSteps 4 1 []

def commitNext : List ClusterEvent :=
  [.write (bytes ['a']) (putRequest 'l' 'w')] ++ jobSteps 4 2 [bytes ['b']] ++ taskSteps 3 1 ++
    jobSteps 2 2 [] ++ taskSteps 3 2 ++ jobSteps 3 2 []

end World

open World

theorem rejected_never_applied_restarted :
    ∃ w, Runs.run World.step threeStart (electA ++ rejectWrite ++ [.restart (bytes ['a']) 3]) =
        some w ∧ w.rejected ≠ [] ∧ w.NoneApplied := by
  obtain ⟨w, hw⟩ : ∃ w, Runs.run World.step threeStart
      (electA ++ rejectWrite ++ [.restart (bytes ['a']) 3]) = some w := ⟨_, rfl⟩
  have hout : (Runs.run World.step threeStart
      (electA ++ rejectWrite ++ [.restart (bytes ['a']) 3])).any (fun w => w.rejected ≠ [] ∧
        ∀ entry ∈ w.rejected, Runs.Always World.step (World.LeavesOut entry) threeStart
          (electA ++ rejectWrite ++ [.restart (bytes ['a']) 3])) = true := by
    decide +kernel
  rw [hw, Option.any_some, decide_eq_true_eq] at hout
  exact ⟨w, hw, hout.1, rejected_never_applied threeMembers _ _ _ w hw hout.2⟩

/-- The entry of the rejected write is applied with that of the next one. -/
theorem rejected_write_is_applied :
    ∃ w, Runs.run World.step threeStart (electA ++ rejectWrite ++ commitNext) = some w ∧
      ∃ entry ∈ w.rejected, ∃ node, (w.servers node).HasApplied entry := by
  obtain ⟨w, hw⟩ : ∃ w, Runs.run World.step threeStart (electA ++ rejectWrite ++ commitNext) =
      some w := ⟨_, rfl⟩
  have happ : (Runs.run World.step threeStart (electA ++ rejectWrite ++ commitNext)).any (fun w =>
      w.rejected.any fun entry => (w.servers (bytes ['a'])).applied.any fun x => x.2 = entry) =
        true := by
    decide +kernel
  rw [hw] at happ
  simp only [Option.any_some, List.any_eq_true, decide_eq_true_eq] at happ
  obtain ⟨entry, hentry, x, hx, heq⟩ := happ
  exact ⟨w, hw, entry, hentry, bytes ['a'], x, hx, heq⟩

end TinyKV
