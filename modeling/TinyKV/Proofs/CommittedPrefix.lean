import TinyKV.Proofs.NodeLog

/-!
# What is committed stays

`last_included_index ≤ last_applied ≤ commit_index ≤` last index, the two in
the middle never go back, and an entry up to the commit index leaves the log
only by compaction or a snapshot. `Keeps` says this of two states, and almost
everything a request does has it.

The exception is an AppendEntries request that contradicts a committed
entry. If its previous entry does, the commit index and `last_applied` are
set back; if one of its entries does, the log is cut there and both indices
stay where they are, beyond the end of the log. `Spares` rules out just these
requests.
-/

namespace TinyKV

namespace KVServer

/-- The indices are in order. -/
structure Ordered (s : KVServer) : Prop where
  contiguous : s.LogContiguous
  base_nonneg : 0 ≤ s.raftLastIncludedIndex
  base_le : s.raftLastIncludedIndex ≤ s.raftLastApplied
  applied_le : s.raftLastApplied ≤ s.raftCommitIndex
  commit_le : s.raftCommitIndex ≤ s.raftLastLogIndex

instance (s : KVServer) : Decidable s.Ordered :=
  have : Decidable s.LogContiguous :=
    inferInstanceAs (Decidable (Contiguous s.raftLastIncludedIndex s.raftLog))
  decidable_of_iff (s.LogContiguous ∧ 0 ≤ s.raftLastIncludedIndex ∧
      s.raftLastIncludedIndex ≤ s.raftLastApplied ∧ s.raftLastApplied ≤ s.raftCommitIndex ∧
      s.raftCommitIndex ≤ s.raftLastLogIndex)
    ⟨fun ⟨h1, h2, h3, h4, h5⟩ => ⟨h1, h2, h3, h4, h5⟩,
      fun h => ⟨h.contiguous, h.base_nonneg, h.base_le, h.applied_le, h.commit_le⟩⟩

/-- From an ordered state to an ordered state, with nothing committed lost. -/
structure Keeps (s t : KVServer) : Prop where
  ordered : t.Ordered
  base : s.raftLastIncludedIndex ≤ t.raftLastIncludedIndex
  applied : s.raftLastApplied ≤ t.raftLastApplied
  commit : s.raftCommitIndex ≤ t.raftCommitIndex
  entries : ∀ index, index ≤ s.raftCommitIndex → t.raftLastIncludedIndex < index →
    t.entryAt index = s.entryAt index

variable {s t u : KVServer}

theorem Keeps.refl (h : s.Ordered) : Keeps s s :=
  ⟨h, Int.le_refl _, Int.le_refl _, Int.le_refl _, fun _ _ _ => rfl⟩

theorem Keeps.trans (h : Keeps s t) (h' : Keeps t u) : Keeps s u := by
  refine ⟨h'.ordered, Int.le_trans h.base h'.base, Int.le_trans h.applied h'.applied,
    Int.le_trans h.commit h'.commit, fun index hi hu => ?_⟩
  rw [h'.entries index (Int.le_trans hi h.commit) hu,
    h.entries index hi (Int.lt_of_le_of_lt h'.base hu)]

/-- Other fields do not matter. -/
theorem Ordered.congr (h : s.Ordered) (hl : t.raftLog = s.raftLog)
    (hb : t.raftLastIncludedIndex = s.raftLastIncludedIndex)
    (ha : t.raftLastApplied = s.raftLastApplied) (hc : t.raftCommitIndex = s.raftCommitIndex) :
    t.Ordered := by
  have hlast : t.raftLastLogIndex = s.raftLastLogIndex := by
    unfold raftLastLogIndex
    rw [hl, hb]
  refine ⟨?_, by rw [hb]; exact h.base_nonneg, by rw [hb, ha]; exact h.base_le,
    by rw [ha, hc]; exact h.applied_le, by rw [hc, hlast]; exact h.commit_le⟩
  rw [LogContiguous, hl, hb]
  exact h.contiguous

theorem Keeps.of_eq (h : s.Ordered) (hl : t.raftLog = s.raftLog)
    (hb : t.raftLastIncludedIndex = s.raftLastIncludedIndex)
    (ha : t.raftLastApplied = s.raftLastApplied) (hc : t.raftCommitIndex = s.raftCommitIndex) :
    Keeps s t :=
  ⟨h.congr hl hb ha hc, Int.le_of_eq hb.symm, Int.le_of_eq ha.symm, Int.le_of_eq hc.symm,
    fun index _ _ => entryAt_congr hl hb index⟩

/-! ## The small steps -/

variable {index : Int} {entry : RaftLogEntry} {request : AppendRequest}

theorem entryAt_eraseFrom {i : Int} (hi : i < index) :
    (s.eraseFrom index).entryAt i = s.entryAt i := by
  unfold eraseFrom
  split
  · rfl
  · next offset ho =>
    obtain ⟨rfl, -⟩ := logOffset_eq_some.mp ho
    unfold entryAt
    simp only []
    split
    · rw [List.getElem?_take, if_pos (by omega)]
    · rfl

theorem eraseFrom_lastLogIndex (h : s.LogContiguous) (hi : s.raftLastIncludedIndex < index) :
    (s.eraseFrom index).raftLastLogIndex = min s.raftLastLogIndex (index - 1) := by
  rw [lastLogIndex_eq (contiguous_eraseFrom h index), lastLogIndex_eq h]
  unfold eraseFrom
  split
  · next ho =>
    have := logOffset_eq_none.mp ho
    omega
  · next offset ho =>
    obtain ⟨rfl, hlt⟩ := logOffset_eq_some.mp ho
    show s.raftLastIncludedIndex + ((s.raftLog.take offset).length : Int) = _
    rw [List.length_take]
    omega

theorem keeps_eraseFrom (h : s.Ordered) (hi : s.raftCommitIndex < index) :
    Keeps s (s.eraseFrom index) := by
  have hbase : s.raftLastIncludedIndex < index := by
    have := h.base_le
    have := h.applied_le
    omega
  have hlast := eraseFrom_lastLogIndex h.contiguous hbase
  have hfix : (s.eraseFrom index).raftLastIncludedIndex = s.raftLastIncludedIndex ∧
      (s.eraseFrom index).raftLastApplied = s.raftLastApplied ∧
      (s.eraseFrom index).raftCommitIndex = s.raftCommitIndex := by
    unfold eraseFrom
    split <;> exact ⟨rfl, rfl, rfl⟩
  obtain ⟨hb, ha, hc⟩ := hfix
  have hle := h.commit_le
  refine ⟨⟨contiguous_eraseFrom h.contiguous index, ?_, ?_, ?_, ?_⟩, ?_, ?_, ?_, fun i hic _ => ?_⟩
  · rw [hb]
    exact h.base_nonneg
  · rw [hb, ha]
    exact h.base_le
  · rw [ha, hc]
    exact h.applied_le
  · rw [hc, hlast]
    omega
  · exact Int.le_of_eq hb.symm
  · exact Int.le_of_eq ha.symm
  · exact Int.le_of_eq hc.symm
  · exact entryAt_eraseFrom (by omega)

theorem keeps_pushBack (h : s.Ordered) (hi : entry.index = s.raftLastLogIndex + 1) :
    Keeps s (s.pushBack entry) := by
  have hc := contiguous_pushBack h.contiguous hi
  have hlast := lastLogIndex_eq h.contiguous
  have hle := h.commit_le
  refine ⟨⟨hc, h.base_nonneg, h.base_le, h.applied_le, ?_⟩, Int.le_refl _, Int.le_refl _,
    Int.le_refl _, fun i hic _ => ?_⟩
  · rw [lastLogIndex_eq hc]
    show s.raftCommitIndex ≤ s.raftLastIncludedIndex + ((s.raftLog ++ [entry]).length : Int)
    rw [List.length_append]
    omega
  · unfold entryAt
    show (if s.raftLastIncludedIndex < i then
      (s.raftLog ++ [entry])[(i - s.raftLastIncludedIndex - 1).toNat]? else none) = _
    split
    · rw [List.getElem?_append_left (by omega)]
    · rfl

theorem keeps_commitIndex (h : s.Ordered) {k : Int} (hk : s.raftCommitIndex ≤ k)
    (hle : k ≤ s.raftLastLogIndex) : Keeps s { s with raftCommitIndex := k } :=
  ⟨⟨h.contiguous, h.base_nonneg, h.base_le, Int.le_trans h.applied_le hk, hle⟩, Int.le_refl _,
    Int.le_refl _, hk, fun _ _ _ => rfl⟩

/-- Moving the base up to something applied. -/
theorem keeps_rebase (h : s.Ordered) {k : Int} (hk : s.raftLastIncludedIndex < k)
    (hle : k ≤ s.raftLastApplied) (term : Int) : Keeps s (s.rebase k term) := by
  have hlog : (s.rebase k term).raftLog = s.raftLog.drop (k - s.raftLastIncludedIndex).toNat :=
    (h.contiguous.filter (Int.le_of_lt hk)).1
  have hcon : (s.rebase k term).LogContiguous := contiguous_rebase h.contiguous (Int.le_of_lt hk) _
  have h0 := h.base_nonneg
  have happ := h.applied_le
  have hcl := h.commit_le
  rw [lastLogIndex_eq h.contiguous] at hcl
  refine ⟨⟨hcon, by show 0 ≤ k; omega, hle, happ, ?_⟩, Int.le_of_lt hk, Int.le_refl _,
    Int.le_refl _, fun i _ hi => entryAt_drop (Int.le_of_lt hk) hlog rfl hi⟩
  rw [lastLogIndex_eq hcon, hlog, List.length_drop]
  show s.raftCommitIndex ≤ k + _
  omega

/-! ## Applying and compacting -/

theorem keeps_applyNext (h : s.Ordered) (now : Int) {offset : Nat}
    (hlt : s.raftLastApplied < s.raftCommitIndex)
    (ho : s.raftLogOffset (s.raftLastApplied + 1) = some offset)
    (he : s.raftLog[offset]? = some entry) : Keeps s (s.applyNext now entry) := by
  have hidx : entry.index = s.raftLastApplied + 1 := by
    rw [h.contiguous offset entry he]
    exact (logOffset_eq_some.mp ho).1.symm
  have hbase := h.base_le
  refine ⟨⟨h.contiguous, h.base_nonneg, ?_, ?_, h.commit_le⟩, Int.le_refl _, ?_,
    Int.le_refl _, fun _ _ _ => rfl⟩
  · show s.raftLastIncludedIndex ≤ entry.index
    omega
  · show entry.index ≤ s.raftCommitIndex
    omega
  · show s.raftLastApplied ≤ entry.index
    omega

theorem keeps_applyCommitted (h : s.Ordered) (now : Int) :
    Keeps s (s.applyCommittedRaftEntries now) := by
  refine applyCommitted_elim (P := Keeps s) ?_ ?_ (fun t ht _ => ?_) (fun t ht _ hlt _ => ?_)
  · rw [Int.max_eq_left h.base_le]
    exact Keeps.refl h
  · intro t offset entry ht hlt ho he
    exact ht.trans (keeps_applyNext ht.ordered now hlt ho he)
  · exact ht.trans (Keeps.of_eq ht.ordered rfl rfl rfl rfl)
  · have hk := ht.trans (keeps_rebase ht.ordered hlt (Int.le_refl _)
      (t.raftTermAt t.raftLastApplied))
    exact hk.trans (Keeps.of_eq hk.ordered rfl rfl rfl rfl)

theorem keeps_advanceCommit (h : s.Ordered) (now leaderCommit : Int) :
    Keeps s (s.advanceCommit now leaderCommit) := by
  unfold advanceCommit
  split
  · next hlt =>
    have hle := h.commit_le
    have hk := keeps_commitIndex h (k := min leaderCommit s.raftLastLogIndex) (by omega)
      (by omega)
    exact hk.trans (keeps_applyCommitted hk.ordered now)
  · exact Keeps.refl h

/-! ## AppendEntries -/

theorem eraseFrom_frame (s : KVServer) (index : Int) :
    ∃ log, s.eraseFrom index = { s with raftLog := log } := by
  unfold eraseFrom
  split
  · exact ⟨s.raftLog, rfl⟩
  · exact ⟨_, rfl⟩

theorem appendOne_frame (s : KVServer) (entry : RaftLogEntry) :
    ∃ log, s.appendOne entry = { s with raftLog := log } := by
  refine appendOne_elim (P := fun t => ∃ log, t = { s with raftLog := log })
    (fun _ => eraseFrom_frame s _) ⟨s.raftLog, rfl⟩ ?_
  rintro t ⟨log, rfl⟩ _
  exact ⟨log ++ [entry], rfl⟩

theorem termAt_entryAt (h0 : 0 ≤ s.raftLastIncludedIndex) (hi : s.raftLastIncludedIndex < index) :
    s.raftTermAt index = ((s.entryAt index).map RaftLogEntry.term).getD (-1) := by
  obtain ⟨j, rfl⟩ : ∃ j : Nat, index = s.raftLastIncludedIndex + 1 + j :=
    ⟨(index - s.raftLastIncludedIndex - 1).toNat, by omega⟩
  rw [entryAt_offset]
  cases he : s.raftLog[j]? with
  | none =>
    have := List.getElem?_eq_none_iff.mp he
    rw [termAt_beyond h0 (by omega)]
    rfl
  | some entry =>
    rw [termAt_log h0 he]
    rfl

/-- An entry of the batch either agrees with what is committed or lies behind
it. -/
theorem keeps_appendOne (h : s.Ordered)
    (ht : entry.index ≤ s.raftCommitIndex → s.raftTermAt entry.index = entry.term) :
    Keeps s (s.appendOne entry) := by
  refine appendOne_elim (P := Keeps s) (fun hne => ?_) (Keeps.refl h) ?_
  · have hlt : s.raftCommitIndex < entry.index := by
      by_contra hge
      exact hne.2 (ht (by omega))
    exact keeps_eraseFrom h hlt
  · intro t hk hi
    exact hk.trans (keeps_pushBack hk.ordered hi)

theorem keeps_appendLoop (entries : List RaftLogEntry) :
    ∀ (s : KVServer) (expected : Int), s.Ordered → s.raftLastIncludedIndex < expected →
      (∀ (j : Nat) (entry : RaftLogEntry), entries[j]? = some entry →
        Contiguous (expected - 1) (entries.take (j + 1)) →
        entry.index ≤ s.raftCommitIndex → s.raftTermAt entry.index = entry.term) →
      Keeps s (s.appendLoop expected entries).1 := by
  induction entries with
  | nil => exact fun s _ h _ _ => Keeps.refl h
  | cons entry rest ih =>
    intro s expected h hb hclash
    rw [appendLoop]
    split
    · exact Keeps.refl h
    · next hidx =>
      have hidx : entry.index = expected := not_not.mp hidx
      split
      · exact Keeps.refl h
      · have hk := keeps_appendOne h (hclash 0 entry rfl
          (contiguous_cons.mpr ⟨by omega, contiguous_nil _⟩))
        obtain ⟨log, hframe⟩ := appendOne_frame s entry
        have hbase : (s.appendOne entry).raftLastIncludedIndex = s.raftLastIncludedIndex := by
          rw [hframe]
        have hcommit : (s.appendOne entry).raftCommitIndex = s.raftCommitIndex := by
          rw [hframe]
        refine hk.trans (ih _ _ hk.ordered (by omega) fun j x hx hc hle => ?_)
        rw [hcommit] at hle
        -- up to the commit index the terms are still the ones before
        have hx' := hclash (j + 1) x hx (contiguous_cons.mpr
          ⟨by omega, fun i e he => by have := hc i e he; omega⟩) hle
        have hlt : s.raftLastIncludedIndex < x.index := by
          have := hc j x (by rw [List.getElem?_take, if_pos (by omega)]; exact hx)
          omega
        rw [termAt_entryAt hk.ordered.base_nonneg (by omega),
          hk.entries x.index hle (by omega), ← termAt_entryAt h.base_nonneg hlt]
        exact hx'

theorem keeps_appendSingle (h : s.Ordered) (ht : s.raftLastIncludedIndex < request.logIndex →
      request.logIndex ≤ s.raftCommitIndex → s.raftTermAt request.logIndex = request.logTerm) :
    Keeps s (s.appendSingle request) := by
  refine appendSingle_elim (P := Keeps s) (fun hne => ?_) (Keeps.refl h) (fun t hk _ => hk) ?_
  · rcases Int.lt_or_le s.raftCommitIndex request.logIndex with hlt | hle
    · have hk := keeps_eraseFrom h hlt
      exact hk.trans (Keeps.of_eq hk.ordered rfl rfl rfl rfl)
    · -- an index at or below the base has no entry to erase
      have hbase : request.logIndex ≤ s.raftLastIncludedIndex := by
        by_contra hgt
        exact hne.2 (ht (by omega) hle)
      have hsame : s.eraseFrom request.logIndex = s := by
        unfold eraseFrom
        rw [logOffset_eq_none.mpr (Or.inl hbase)]
      rw [hsame]
      exact Keeps.of_eq h rfl rfl rfl rfl
  · intro t type hk _ hi
    have hp := hk.trans (keeps_pushBack hk.ordered (show (request.single type).index = _ from hi))
    exact hp.trans (Keeps.of_eq hp.ordered rfl rfl rfl rfl)

/-- The request contradicts nothing that is committed. -/
structure Spares (s : KVServer) (request : AppendRequest) : Prop where
  prev : s.raftLastIncludedIndex ≤ request.prevLogIndex → 0 < request.prevLogIndex →
    request.prevLogIndex ≤ s.raftCommitIndex →
      s.raftTermAt request.prevLogIndex = request.prevLogTerm
  batch : s.BringsBatch request →
    ∀ (j : Nat) (entry : RaftLogEntry), request.entries[j]? = some entry →
      Contiguous request.prevLogIndex (request.entries.take (j + 1)) →
      entry.index ≤ s.raftCommitIndex → s.raftTermAt entry.index = entry.term
  single : s.BringsEntry request → s.raftLastIncludedIndex < request.logIndex →
    request.logIndex ≤ s.raftCommitIndex → s.raftTermAt request.logIndex = request.logTerm

theorem keeps_rejectPrev (h : s.Ordered) {prev : Int} (hlt : s.raftCommitIndex < prev) :
    Keeps s (s.rejectPrev prev) := by
  have hk := keeps_eraseFrom h hlt
  have happ := h.applied_le
  obtain ⟨log, hframe⟩ := eraseFrom_frame s prev
  unfold rejectPrev
  simp only []
  rw [hframe] at hk ⊢
  refine hk.trans (Keeps.of_eq hk.ordered rfl rfl ?_ ?_)
  · exact if_neg (by simp only []; omega)
  · exact if_neg (by simp only []; omega)

theorem keeps_appendLocked (h : s.Ordered) (now : Int) (hs : Spares s request) :
    Keeps s (s.appendLocked now request).1 := by
  have hloop : s.BringsBatch request →
      Keeps s (s.appendLoop (request.prevLogIndex + 1) request.entries).1 := by
    intro hb
    have hbase := hb.base
    refine keeps_appendLoop request.entries s (request.prevLogIndex + 1) h (by omega) ?_
    intro j entry he hc
    rw [Int.add_sub_cancel] at hc
    exact hs.batch hb j entry he hc
  refine appendLocked_elim (P := Keeps s) (Keeps.refl h) ?_ hloop ?_ ?_
    (fun _ _ _ => keeps_advanceCommit h now _)
  · intro hbase hpos hprev
    refine keeps_rejectPrev h ?_
    by_contra hge
    exact hprev (hs.prev hbase hpos (by omega))
  · intro hb _
    have hk := hloop hb
    have hk' := hk.trans (Keeps.of_eq (t := (s.appendLoop _ _).1.persistRaftLog.updateLogInfo)
      hk.ordered rfl rfl rfl rfl)
    exact hk'.trans (keeps_advanceCommit hk'.ordered now _)
  · intro hb
    have hk := keeps_appendSingle h (hs.single hb)
    exact hk.trans (keeps_advanceCommit hk.ordered now _)

/-! ## Requests -/

/-- A snapshot may reach beyond everything the node has. -/
theorem keeps_installSet (h : s.Ordered) {request : InstallRequest}
    (hk : s.raftLastIncludedIndex < request.lastLogIndex) : Keeps s (s.installSet request) := by
  obtain ⟨hf, hc⟩ := h.contiguous.filter (Int.le_of_lt hk)
  have hlog : (s.installSet request).raftLog =
      s.raftLog.drop (request.lastLogIndex - s.raftLastIncludedIndex).toNat := hf
  have hcon := contiguous_installSet h.contiguous (Int.le_of_lt hk)
  have h0 := h.base_nonneg
  have happ := h.applied_le
  have hcl := h.commit_le
  rw [lastLogIndex_eq h.contiguous] at hcl
  refine ⟨⟨hcon, ?_, ?_, ?_, ?_⟩, Int.le_of_lt hk, ?_, ?_,
    fun i _ hi => entryAt_drop (Int.le_of_lt hk) hlog rfl hi⟩
  · show 0 ≤ request.lastLogIndex
    omega
  · show request.lastLogIndex ≤ max s.raftLastApplied request.lastLogIndex
    omega
  · show max s.raftLastApplied request.lastLogIndex ≤ max s.raftCommitIndex request.lastLogIndex
    omega
  · rw [lastLogIndex_eq hcon, hlog, List.length_drop]
    show max s.raftCommitIndex request.lastLogIndex ≤ request.lastLogIndex + _
    omega
  · show s.raftLastApplied ≤ max s.raftLastApplied request.lastLogIndex
    omega
  · show s.raftCommitIndex ≤ max s.raftCommitIndex request.lastLogIndex
    omega

theorem keeps_handleAppend (h : s.Ordered) (now : Int)
    (hs : (s.checkTerm request.term request.nodeId).2 = true → Spares s request) :
    Keeps s (s.handleRaftAppendEntries now request).1 := by
  have hk : Keeps s (s.checkTerm request.term request.nodeId).1 :=
    Keeps.of_eq h rfl rfl rfl rfl
  refine handleAppend_elim hk fun hok => hk.trans (keeps_appendLocked hk.ordered now ?_)
  have := hs hok
  exact ⟨this.prev, fun hb => this.batch ⟨⟨hb.base, hb.last, hb.term⟩, hb.batch, hb.count⟩,
    fun hb => this.single ⟨⟨hb.base, hb.last, hb.term⟩, hb.single, hb.index⟩⟩

theorem keeps_handleInstall (h : s.Ordered) (now : Int) (request : InstallRequest) :
    Keeps s (s.handleInstallSnapshot now request).1 := by
  have hk : ∀ store : Store, Keeps s
      { (s.checkTerm request.term request.nodeId).1 with store := store } :=
    fun _ => Keeps.of_eq h rfl rfl rfl rfl
  exact handleInstall_elim hk fun store hlt =>
    (hk store).trans (keeps_installSet (hk store).ordered hlt)

theorem keeps_handleWrite (h : s.Ordered) (now : Int) (request : WriteRequest)
    (followers : Replication) : Keeps s (s.handleWrite now request followers) := by
  have hpush : Keeps s (s.pushBack (s.appendWrite request).2.entry) := keeps_pushBack h rfl
  have hw : ∀ store : Store, Keeps s { (s.appendWrite request).1 with store := store } :=
    fun _ => hpush.trans (Keeps.of_eq hpush.ordered rfl rfl rfl rfl)
  have hlast : (s.appendWrite request).1.raftLastLogIndex = s.raftLastLogIndex + 1 := by
    have hgetLast : (s.appendWrite request).1.raftLog.getLast? =
        some (s.appendWrite request).2.entry := List.getLast?_concat
    simp only [raftLastLogIndex, hgetLast]
    rfl
  refine handleWrite_elim (Keeps.refl h) hw fun store hlt => ?_
  have hk := keeps_commitIndex (hw store).ordered (Int.le_of_lt hlt) (Int.le_of_eq hlast.symm)
  exact ((hw store).trans hk).trans (keeps_applyCommitted hk.ordered now)

end KVServer

open KVServer

/-- A request leaves the indices in order, does not set them back, and takes
no committed entry out of the log except by moving the base over it. -/
structure KeepsCommitted (s : KVServer) (_ : NodeEvent × Int) (t : KVServer) : Prop where
  base_le : t.raftLastIncludedIndex ≤ t.raftLastApplied
  applied_le : t.raftLastApplied ≤ t.raftCommitIndex
  commit_le : t.raftCommitIndex ≤ t.raftLastLogIndex
  applied : s.raftLastApplied ≤ t.raftLastApplied
  commit : s.raftCommitIndex ≤ t.raftCommitIndex
  entries : ∀ index, index ≤ s.raftCommitIndex → t.raftLastIncludedIndex < index →
    t.entryAt index = s.entryAt index

/-- Terms and indices stay `int`s, no AppendEntries request that is let through
contradicts what is committed, and the node is not started again. -/
def SparesCommitted (s : KVServer) (e : NodeEvent × Int) (_ : KVServer) : Prop :=
  s.Bounded ∧ e.1.Bounded ∧ match e.1 with
  | .raft (.append request) =>
    (s.checkTerm request.term request.nodeId).2 = true → Spares s request
  | .restart => False
  | _ => True

theorem keeps_handle {s t : KVServer} {e : NodeEvent × Int} (h : s.Ordered)
    (hs : s.handle e = some t) (hc : SparesCommitted s e t) : Keeps s t := by
  obtain ⟨e, now⟩ := e
  cases e with
  | raft request =>
    injection hs with hs
    subst hs
    cases request with
    | requestVote term candidateId lastLogIndex lastLogTerm =>
      exact Keeps.of_eq h rfl rfl rfl rfl
    | heartbeat term leaderId => exact Keeps.of_eq h rfl rfl rfl rfl
    | append request => exact keeps_handleAppend h now hc.2.2
    | install request => exact keeps_handleInstall h now request
  | write request followers =>
    injection hs with hs
    subst hs
    exact keeps_handleWrite h now request followers
  | election won =>
    injection hs with hs
    subst hs
    exact Keeps.of_eq h rfl rfl rfl rfl
  | newerTerm term =>
    injection hs with hs
    subst hs
    exact Keeps.of_eq h rfl rfl rfl rfl
  | restart => exact absurd hc.2.2 id

/-- As long as no request contradicts what is committed, what is committed
stays. -/
theorem committed_prefix_immutable (s : KVServer) (h : s.Ordered) (es : List (NodeEvent × Int))
    (hes : Runs.Always handle SparesCommitted s es) :
    Runs.Always handle KeepsCommitted s es := by
  refine Runs.always_of_always (fun s e t hi hs hc => ?_) h hes
  have hk := keeps_handle hi hs hc
  exact ⟨⟨hk.ordered.base_le, hk.ordered.applied_le, hk.ordered.commit_le, hk.applied,
    hk.commit, hk.entries⟩, hk.ordered⟩

/-! A leader of three commits one entry; then another node, in the name of a
later term, asks for a previous entry of that term. -/

def prevOfLaterTerm : AppendRequest where
  term := 2
  nodeId := bytes ['b']
  prevLogIndex := 1
  prevLogTerm := 2
  logIndex := 0

def commitThenReject : List (NodeEvent × Int) :=
  [(.election true, 0), (.write (putRequest 'k' 'v') { acks := 1 }, 1),
    (.raft (.append prevOfLaterTerm), 2)]

def commitThenConfirm : List (NodeEvent × Int) :=
  [(.election true, 0), (.write (putRequest 'k' 'v') { acks := 1 }, 1),
    (.raft (.append { prevOfLaterTerm with prevLogTerm := 1 }), 2)]

theorem ordered_fresh (router : Router) (store : Store) (threshold : Int) :
    (fresh router store threshold).Ordered :=
  ⟨contiguous_nil _, Int.le_refl _, Int.le_refl _, Int.le_refl _, Int.le_refl _⟩

theorem committed_prefix_immutable_confirmed :
    Runs.Always handle KeepsCommitted (fresh threeNodes (.memory {}) 100) commitThenConfirm := by
  refine committed_prefix_immutable _ (ordered_fresh _ _ _) _
    ⟨⟨by decide, trivial, trivial⟩, ⟨by decide, trivial, trivial⟩,
      ⟨by decide, show AppendRequest.Bounded _ by decide, fun _ => ?_⟩, trivial⟩
  refine ⟨fun _ _ _ => rfl, fun hb => absurd hb.batch (by decide),
    fun hb => absurd hb.index (by decide)⟩

/-- The commit index goes from 1 back to 0. -/
theorem prev_mismatch_uncommits :
    ¬ Runs.Always handle KeepsCommitted (fresh threeNodes (.memory {}) 100) commitThenReject := by
  rintro ⟨-, -, h, -⟩
  exact absurd h.commit (by decide)

end TinyKV
