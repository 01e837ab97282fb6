import TinyKV.Model.RequestLine
import TinyKV.Proofs.CommittedPrefix
import TinyKV.Proofs.Elections
import TinyKV.Proofs.RejectedWrites

/-!
# Keys that have been deleted

A leader that has answered a DEL has applied it, and as long as it leads,
nothing but a later PUT through its log brings the key back to its own store.
That takes some order among its threads: an AppendEntries request or a
snapshot it took up as a follower, or a write that fell through to the local
store, must not be finished once it leads.

A GET does not stop at the leader's store, though. It goes on to ask the
other nodes for a key that is not there, with Raft as without it, and one
that has not applied the DEL yet still has the value. So the answer is that
the key is not found exactly if no node that is asked has it.
-/

namespace TinyKV

open Function Text

/-! ## Stores without a key -/

namespace MemoryStore

variable {s : MemoryStore} {k : Str}

def Lacks (s : MemoryStore) (key : Str) : Prop := s.data.lookup key = none

theorem Lacks.erase {data : AList (fun _ : Str => Entry)} (h : data.lookup k = none)
    (key : Str) : (data.erase key).lookup k = none := by
  by_cases hk : k = key
  · subst hk
    exact AList.lookup_erase k data
  · rw [AList.lookup_erase_ne hk]
    exact h

theorem Lacks.drop (h : s.Lacks k) (key : Str) (entry : Entry) : (s.drop key entry).Lacks k :=
  Lacks.erase h key

theorem Lacks.insert {key : Str} (h : s.Lacks k) (hne : k ≠ key) (entry : Entry) :
    ({ s with data := s.data.insert key entry } : MemoryStore).Lacks k :=
  (AList.lookup_insert_ne hne).trans h

theorem Lacks.touchLocked (h : s.Lacks k) (key : Str) : (s.touchLocked key).Lacks k := by
  unfold MemoryStore.touchLocked
  split
  · exact h
  · next entry he =>
    have hne : k ≠ key := by
      rintro rfl
      rw [h] at he
      cases he
    exact (AList.lookup_insert_ne hne).trans h

theorem Lacks.evictExpired (h : s.Lacks k) (now : Int) : (s.evictExpiredLocked now).Lacks k := by
  unfold evictExpiredLocked
  refine List.foldlRecOn (motive := fun t : MemoryStore => t.Lacks k) _ _ h fun t ht kv _ => ?_
  split
  · exact ht.drop kv.1 kv.2
  · exact ht

theorem Lacks.evictLru {data : AList (fun _ : Str => Entry)} (h : data.lookup k = none)
    (maxKeys : Nat) (back : List (Nat × Str)) :
    (evictLru maxKeys data back).1.lookup k = none := by
  induction back generalizing data with
  | nil => exact h
  | cons node rest ih =>
    rw [MemoryStore.evictLru]
    split
    · exact ih (Lacks.erase h node.2)
    · exact h

theorem Lacks.enforceCapacity (h : s.Lacks k) (now : Int) :
    (s.enforceCapacityLocked now).Lacks k :=
  Lacks.evictLru (h.evictExpired now) _ _

theorem Lacks.putWithExpireAt {key : Str} (h : s.Lacks k) (hne : k ≠ key) (now : Int)
    (value : Str) (d : Int) : (s.putWithExpireAt now key value d).2.Lacks k := by
  unfold MemoryStore.putWithExpireAt
  split
  · exact h
  · refine Lacks.enforceCapacity ?_ now
    split
    · exact (h.insert hne _).touchLocked key
    · exact (AList.lookup_insert_ne hne).trans h

theorem Lacks.del (h : s.Lacks k) (key : Str) : (s.del key).2.Lacks k := by
  unfold MemoryStore.del
  split
  · exact h
  · exact h.drop key _

theorem lacks_del (s : MemoryStore) (key : Str) : (s.del key).2.Lacks key := by
  unfold MemoryStore.del
  split
  · next h => exact h
  · exact AList.lookup_erase key s.data

theorem Lacks.expireAt (h : s.Lacks k) (now : Int) (key : Str) (d : Int) :
    (s.expireAt now key d).2.Lacks k := by
  unfold MemoryStore.expireAt
  split
  · exact h
  · next entry he =>
    have hne : k ≠ key := by
      rintro rfl
      rw [h] at he
      cases he
    split
    · exact h.drop key entry
    · exact (h.insert hne _).touchLocked key

end MemoryStore

namespace Store

variable {s : Store} {k : Str}

def Lacks (s : Store) (key : Str) : Prop := s.mem.Lacks key

variable {p : PersistentMemoryStore} {key : Str}

theorem lacks_maybeSnapshot (h : p.memory.Lacks k) (ord : IterOrder) (now : Int) :
    (p.maybeSnapshotLocked ord now).2.memory.Lacks k := by
  unfold PersistentMemoryStore.maybeSnapshotLocked
  split
  · exact h
  · exact h.evictExpired now

theorem Lacks.putWithExpireAt (h : p.memory.Lacks k) (hne : k ≠ key) (ord : IterOrder) (now : Int)
    (value : Str) (d : Int) : (p.putWithExpireAt ord now key value d).2.memory.Lacks k := by
  have hput := h.putWithExpireAt hne now value d
  unfold PersistentMemoryStore.putWithExpireAt
  simp only []
  split
  · next heq =>
    rw [heq] at hput
    exact hput
  · next heq =>
    rw [heq] at hput
    exact lacks_maybeSnapshot hput ord now

theorem Lacks.put (h : s.Lacks k) (hne : k ≠ key) (now : Int) (value : Str) :
    (s.put now key value).2.Lacks k := by
  cases s with
  | memory m => exact MemoryStore.Lacks.putWithExpireAt h hne now value 0
  | persistent ord p => exact Lacks.putWithExpireAt h hne ord now value 0

theorem Lacks.putTtl (h : s.Lacks k) (hne : k ≠ key) (now : Int) (value : Str) (ttl : Int) :
    (s.putTtl now key value ttl).2.Lacks k := by
  cases s with
  | memory m =>
    show (m.putTtl now key value ttl).2.Lacks k
    unfold MemoryStore.putTtl
    split
    · exact h
    · exact MemoryStore.Lacks.putWithExpireAt h hne now value _
  | persistent ord p =>
    show (p.putTtl ord now key value ttl).2.memory.Lacks k
    unfold PersistentMemoryStore.putTtl
    split
    · exact h
    · exact Lacks.putWithExpireAt h hne ord now value _

theorem Lacks.del (h : s.Lacks k) (now : Int) (key : Str) : (s.del now key).2.Lacks k := by
  cases s with
  | memory m => exact MemoryStore.Lacks.del h key
  | persistent ord p => exact lacks_maybeSnapshot (MemoryStore.Lacks.del h key) ord now

theorem lacks_del (s : Store) (now : Int) (key : Str) : (s.del now key).2.Lacks key := by
  cases s with
  | memory m => exact m.lacks_del key
  | persistent ord p => exact lacks_maybeSnapshot (p.memory.lacks_del key) ord now

theorem Lacks.expireAt (h : p.memory.Lacks k) (ord : IterOrder) (now : Int) (key : Str) (d : Int) :
    (p.expireAt ord now key d).2.memory.Lacks k := by
  have hexp := h.expireAt now key d
  unfold PersistentMemoryStore.expireAt
  simp only []
  split
  · next heq =>
    rw [heq] at hexp
    exact hexp
  · next heq =>
    rw [heq] at hexp
    exact lacks_maybeSnapshot hexp ord now

theorem Lacks.expire (h : s.Lacks k) (now : Int) (key : Str) (ttl : Int) :
    (s.expire now key ttl).2.Lacks k := by
  cases s with
  | memory m =>
    show (m.expire now key ttl).2.Lacks k
    unfold MemoryStore.expire
    split
    · exact h
    · exact MemoryStore.Lacks.expireAt h now key _
  | persistent ord p =>
    show (p.expire ord now key ttl).2.memory.Lacks k
    unfold PersistentMemoryStore.expire
    split
    · exact h
    · exact Lacks.expireAt h ord now key _

theorem Lacks.setMem {m : MemoryStore} (h : m.Lacks k) (s : Store) : (s.setMem m).Lacks k := by
  cases s with
  | memory _ => exact h
  | persistent _ _ => exact h

theorem Lacks.snapshotEntries (h : s.Lacks k) (now : Int) :
    (s.snapshotEntries now).2.Lacks k := Lacks.setMem (h.evictExpired now) s

theorem Lacks.get (h : s.Lacks k) (now : Int) : (s.get now k).1 = none := by
  show (s.mem.get now k).1 = none
  rw [MemoryStore.get, show s.mem.data.lookup k = none from h]

end Store

/-- The entry puts the key into the store. -/
def RaftLogEntry.Puts (entry : RaftLogEntry) (key : Str) : Prop :=
  entry.type = .put ∧ entry.key = key

theorem Store.Lacks.apply {s : Store} {k : Str} {entry : RaftLogEntry} (h : s.Lacks k)
    (hne : ¬ entry.Puts k) (now : Int) : (applyRaftEntryLocked now s entry).2.Lacks k := by
  unfold applyRaftEntryLocked
  split
  · next htype =>
    have hkey : k ≠ entry.key := fun heq => hne ⟨htype, heq.symm⟩
    split
    · exact h.putTtl hkey now _ _
    · exact h.put hkey now _
  · exact h.del now _
  · exact h.expire now _ _
  · exact h

theorem Store.lacks_apply {entry : RaftLogEntry} (hdel : entry.type = .del) (s : Store)
    (now : Int) : (applyRaftEntryLocked now s entry).2.Lacks entry.key := by
  rw [applyRaftEntryLocked, hdel]
  exact s.lacks_del now entry.key

/-! ## The server that has appended the DEL -/

namespace KVServer

variable {s t : KVServer} {d : RaftLogEntry}

/-- The DEL `d` is in the log or below it, no PUT of its key is behind it,
and once it has been applied the key is gone. -/
structure Deleting (d : RaftLogEntry) (s : KVServer) : Prop where
  del : d.type = .del
  contiguous : s.LogContiguous
  held : s.raftLastIncludedIndex < d.index → s.entryAt d.index = some d
  after : ∀ e ∈ s.raftLog, d.index < e.index → ¬ e.Puts d.key
  covered : d.index ≤ s.raftLastIncludedIndex → d.index ≤ s.raftLastApplied
  gone : d.index ≤ s.raftLastApplied → s.store.Lacks d.key

/-- What is committed of the log up to `d` is applied. -/
def Settled (d : RaftLogEntry) (s : KVServer) : Prop :=
  d.index ≤ s.raftCommitIndex → d.index ≤ s.raftLastApplied

namespace Deleting

theorem congr (h : s.Deleting d) (hl : t.raftLog = s.raftLog)
    (hb : t.raftLastIncludedIndex = s.raftLastIncludedIndex)
    (ha : t.raftLastApplied = s.raftLastApplied)
    (hst : s.store.Lacks d.key → t.store.Lacks d.key) : t.Deleting d where
  del := h.del
  contiguous := by
    rw [LogContiguous, hl, hb]
    exact h.contiguous
  held := by
    rw [hb, entryAt_congr hl hb]
    exact h.held
  after := hl ▸ h.after
  covered := by
    rw [hb, ha]
    exact h.covered
  gone hle := hst (h.gone (ha ▸ hle))

/-- Nothing beyond the end of the log is `d`. -/
theorem index_le (h : s.Deleting d) (hlt : s.raftLastIncludedIndex < d.index) :
    d.index ≤ s.raftLastIncludedIndex + s.raftLog.length := by
  obtain ⟨j, hj, hget⟩ := entryAt_eq_some.mp (h.held hlt)
  obtain ⟨hlen, -⟩ := List.getElem?_eq_some_iff.mp hget
  omega

theorem applyNext (h : s.Deleting d) (now : Int)
    (hb : s.raftLastIncludedIndex ≤ s.raftLastApplied) {offset : Nat} {entry : RaftLogEntry}
    (ho : s.raftLogOffset (s.raftLastApplied + 1) = some offset)
    (he : s.raftLog[offset]? = some entry) : (s.applyNext now entry).Deleting d := by
  obtain ⟨hpos, -⟩ := logOffset_eq_some.mp ho
  have hidx : entry.index = s.raftLastApplied + 1 := by
    rw [h.contiguous offset entry he]
    exact hpos.symm
  refine ⟨h.del, h.contiguous, h.held, h.after, fun hle => ?_, fun hle => ?_⟩
  · have hle : d.index ≤ s.raftLastIncludedIndex := hle
    show d.index ≤ entry.index
    omega
  · have hle : d.index ≤ entry.index := hle
    show (applyRaftEntryLocked now s.store entry).2.Lacks d.key
    -- the entry is one behind `d`, or `d` itself
    rcases (show d.index ≤ s.raftLastApplied ∨ d.index = entry.index by omega) with hold | heq
    · refine (h.gone hold).apply (h.after entry (List.mem_of_getElem? he) ?_) now
      omega
    · have hd := h.held (by omega)
      rw [heq, hidx, hpos, entryAt_offset, he] at hd
      cases hd
      exact Store.lacks_apply h.del s.store now

/-- Moving the base up to what has been applied. -/
theorem rebase (h : s.Deleting d) (hlt : s.raftLastIncludedIndex < s.raftLastApplied)
    (term : Int) : (s.rebase s.raftLastApplied term).Deleting d := by
  have hle := Int.le_of_lt hlt
  refine ⟨h.del, contiguous_rebase h.contiguous hle term, fun hd => ?_,
    fun e he => h.after e (List.mem_of_mem_filter he), id, h.gone⟩
  exact (entryAt_drop hle (h.contiguous.filter hle).1 rfl hd).trans (h.held (Int.lt_trans hlt hd))

theorem applyCommitted (h : s.Deleting d) (now : Int) :
    (s.applyCommittedRaftEntries now).Deleting d ∧
      (s.applyCommittedRaftEntries now).Settled d := by
  -- the loop gets as far as `d`, if that is committed
  have hreach : d.index ≤ s.raftCommitIndex → d.index ≤ s.reach := by
    intro hle
    have hlast := lastLogIndex_eq h.contiguous
    rw [reach]
    by_cases hd : s.raftLastIncludedIndex < d.index
    · have := h.index_le hd
      omega
    · omega
  refine applyCommitted_elim (P := fun t => t.Deleting d ∧
      t.raftLastIncludedIndex ≤ t.raftLastApplied ∧ t.raftCommitIndex = s.raftCommitIndex)
    (Q := fun t => t.Deleting d ∧ t.Settled d) ⟨?_, Int.le_max_right _ _, rfl⟩ ?_ ?_ ?_
  · have hle := Int.le_max_right s.raftLastApplied s.raftLastIncludedIndex
    refine { h with covered := fun hd => Int.le_trans hd hle, gone := fun hd => h.gone ?_ }
    have hd : d.index ≤ max s.raftLastApplied s.raftLastIncludedIndex := hd
    by_cases hcov : d.index ≤ s.raftLastIncludedIndex
    · exact h.covered hcov
    · omega
  · rintro t offset entry ⟨ht, hb, hc⟩ _ ho he
    refine ⟨ht.applyNext now hb ho he, ?_, hc⟩
    show t.raftLastIncludedIndex ≤ entry.index
    rw [ht.contiguous offset entry he]
    omega
  · rintro t ⟨ht, -, hc⟩ hlast
    exact ⟨ht.congr rfl rfl rfl id, fun hle => hlast h.contiguous ▸ hreach (hc ▸ hle)⟩
  · rintro t ⟨ht, -, hc⟩ hlast hlt _
    exact ⟨(ht.rebase hlt _).congr rfl rfl rfl id, fun hle =>
      hlast h.contiguous ▸ hreach (hc ▸ hle)⟩

theorem commitWrite (h : s.Deleting d) (hset : s.Settled d) (now : Int) (entry : RaftLogEntry) :
    (s.commitWrite now entry).Deleting d ∧ (s.commitWrite now entry).Settled d ∧
      s.raftCommitIndex ≤ (s.commitWrite now entry).raftCommitIndex ∧
      entry.index ≤ (s.commitWrite now entry).raftCommitIndex := by
  unfold KVServer.commitWrite
  split
  · next hlt =>
    have hcommit := applyCommitted_commit now { s with raftCommitIndex := entry.index }
    have hu : ({ s with raftCommitIndex := entry.index } : KVServer).Deleting d := { h with }
    obtain ⟨hdel, hset'⟩ := hu.applyCommitted now
    rw [hcommit]
    exact ⟨hdel, hset', Int.le_of_lt hlt, Int.le_refl _⟩
  · next hge => exact ⟨h, hset, Int.le_refl _, by omega⟩

theorem appendWrite (h : s.Deleting d) {request : WriteRequest}
    (hno : ¬ (request.type = .put ∧ request.key = d.key)) :
    (s.appendWrite request).1.Deleting d := by
  have hnew : (s.pushBack ⟨s.raftLastLogIndex + 1, s.router.currentTerm, request.type,
      request.key, request.value, request.ttlSeconds⟩).LogContiguous :=
    contiguous_pushBack h.contiguous rfl
  refine ⟨h.del, hnew, fun hlt => ?_, fun e he => ?_, h.covered, h.gone⟩
  · obtain ⟨j, hj, hget⟩ := entryAt_eq_some.mp (h.held hlt)
    obtain ⟨hlen, -⟩ := List.getElem?_eq_some_iff.mp hget
    exact entryAt_eq_some.mpr ⟨j, hj, (List.getElem?_append_left hlen).trans hget⟩
  · rcases List.mem_append.mp he with he | he
    · exact h.after e he
    · rw [List.mem_singleton.mp he]
      exact fun _ => hno

end Deleting

/-- The section that appends the DEL. -/
theorem deleting_appendWrite (h : s.Ordered) {request : WriteRequest}
    (hdel : request.type = .del) :
    (s.appendWrite request).1.Deleting (s.appendWrite request).2.entry ∧
      (s.appendWrite request).1.Settled (s.appendWrite request).2.entry := by
  have hlast := lastLogIndex_eq h.contiguous
  have hbase := h.base_le
  have happ := h.applied_le
  have hcom := h.commit_le
  -- the new entry has the index behind all the others
  have hbehind : s.raftLastApplied < s.raftLastLogIndex + 1 := by omega
  refine ⟨⟨hdel, contiguous_pushBack h.contiguous rfl, fun _ => ?_, fun e he hlt => ?_,
    fun hle => ?_, fun hle => absurd hle (Int.not_le.mpr hbehind)⟩, fun hle => ?_⟩
  · refine entryAt_eq_some.mpr ⟨s.raftLog.length, ?_, List.getElem?_concat_length⟩
    show s.raftLastLogIndex + 1 = s.raftLastIncludedIndex + 1 + s.raftLog.length
    omega
  · have hlt : s.raftLastLogIndex + 1 < e.index := hlt
    rcases List.mem_append.mp he with he | he
    · obtain ⟨j, hj⟩ := List.getElem?_of_mem he
      obtain ⟨hlen, -⟩ := List.getElem?_eq_some_iff.mp hj
      have hidx := h.contiguous j e hj
      omega
    · rw [List.mem_singleton.mp he] at hlt
      exact absurd hlt (Int.lt_irrefl _)
  · have hle : s.raftLastLogIndex + 1 ≤ s.raftLastIncludedIndex := hle
    omega
  · have hle : s.raftLastLogIndex + 1 ≤ s.raftCommitIndex := hle
    omega

end KVServer

/-! ## Sections of the leader -/

namespace Section

variable {s t : KVServer} {d : RaftLogEntry}

/-- What a node takes up as a follower it finishes as a follower. -/
def InOrder (s : KVServer) : Section → Prop
  | .writeLocal _ | .append _ | .installPayload _ | .installSet _ => s.router.role = .follower
  | _ => True

/-- The section appends a PUT of the key. -/
def Appends (key : Str) : Section → Prop
  | .appendWrite request => request.type = .put ∧ request.key = key
  | _ => False

instance (s : KVServer) : (sec : Section) → Decidable (sec.InOrder s)
  | .writeLocal _ | .append _ | .installPayload _ | .installSet _ =>
    inferInstanceAs (Decidable (s.router.role = .follower))
  | .beginElection | .winElection _ | .stepDown _ | .beginHeartbeats | .requestVote _ _ _ _
  | .appendEntries _ _ | .appendWrite _ | .encodeSnapshot _ | .commitWrite _ | .restart =>
    inferInstanceAs (Decidable True)

instance (key : Str) : (sec : Section) → Decidable (sec.Appends key)
  | .appendWrite request => inferInstanceAs (Decidable (request.type = .put ∧ request.key = key))
  | .writeLocal _ | .append _ | .installPayload _ | .installSet _ | .beginElection
  | .winElection _ | .stepDown _ | .beginHeartbeats | .requestVote _ _ _ _ | .appendEntries _ _
  | .encodeSnapshot _ | .commitWrite _ | .restart => inferInstanceAs (Decidable False)

theorem restart_follower {now : Int} (hrun : Section.restart.run now s = some t) :
    t.router.role = .follower := by
  obtain ⟨-, hrun⟩ := KVServer.startAgain_eq now hrun
  obtain ⟨-, -, hrole, -⟩ := Router.fields_of_core (KVServer.restart_core hrun)
  exact hrole

/-- A node that stands or leads has done so since it entered the term. -/
theorem standing {sec : Section} {now : Int} (hrun : sec.run now s = some t)
    (hrole : t.router.role ≠ .follower)
    (hterm : t.router.currentTerm = s.router.currentTerm) : s.router.role ≠ .follower := by
  cases sec with
  | beginElection =>
    injection hrun with hrun
    rw [← hrun] at hterm
    have hterm : s.router.currentTerm + 1 = s.router.currentTerm := hterm
    omega
  | winElection term =>
    injection hrun with hrun
    rw [← hrun] at hrole
    revert hrole
    show (s.router.winElection term).role ≠ .follower → _
    rw [Router.winElection]
    split
    · next hwin =>
      intro _
      rw [hwin.1]
      decide
    · exact id
  | stepDown responseTerm =>
    injection hrun with hrun
    rw [← hrun] at hrole
    revert hrole
    show (s.router.stepDown responseTerm).role ≠ .follower → _
    rw [Router.stepDown]
    split
    · exact fun hr => absurd rfl hr
    · exact id
  | beginHeartbeats =>
    injection hrun with hrun
    rw [← hrun] at hrole
    revert hrole
    show (s.router.beginHeartbeats.getD s.router).role ≠ .follower → _
    rw [Router.beginHeartbeats]
    split
    · exact id
    · exact id
  | requestVote term candidateId lastLogIndex lastLogTerm =>
    injection hrun with hrun
    rw [← hrun] at hrole
    revert hrole
    have hvote : ∀ r : Router,
        (r.castVote candidateId lastLogIndex lastLogTerm).1.role ≠ .follower →
          r.role ≠ .follower := by
      intro r
      rcases r.castVote_cases candidateId lastLogIndex lastLogTerm with ⟨-, -, heq⟩ | heq
      · rw [heq]
        exact fun hr => absurd rfl hr
      · rw [heq]
        exact id
    show (s.router.handleRequestVote term candidateId lastLogIndex lastLogTerm).1.role ≠ _ → _
    rw [Router.handleRequestVote]
    split
    · exact id
    · split
      · exact fun hr => absurd rfl (hvote _ hr)
      · exact hvote s.router
  | appendEntries term leaderId =>
    injection hrun with hrun
    rw [← hrun] at hrole
    revert hrole
    show (s.router.handleAppendEntries term leaderId).1.role ≠ .follower → _
    rw [Router.handleAppendEntries]
    split
    · exact id
    · exact fun hr => absurd rfl hr
  | restart => exact absurd (restart_follower hrun) hrole
  | _ =>
    obtain ⟨-, -, hr, -⟩ := Router.fields_of_core (run_core hrun rfl)
    exact hr ▸ hrole

/-- What a node that stands or leads does to its log and its store. -/
theorem deleting {sec : Section} {now : Int} (h : s.Deleting d) (hset : s.Settled d)
    (hrole : s.router.role ≠ .follower) (hrole' : t.router.role ≠ .follower)
    (horder : sec.InOrder s) (hno : ¬ sec.Appends d.key) (hrun : sec.run now s = some t) :
    t.Deleting d ∧ t.Settled d ∧ s.raftCommitIndex ≤ t.raftCommitIndex := by
  have routed : ∀ r : Router, t = { s with router := r } →
      t.Deleting d ∧ t.Settled d ∧ s.raftCommitIndex ≤ t.raftCommitIndex := by
    rintro r rfl
    exact ⟨h.congr rfl rfl rfl id, hset, Int.le_refl _⟩
  cases sec with
  | beginElection => exact routed _ (Option.some.inj hrun).symm
  | winElection term => exact routed _ (Option.some.inj hrun).symm
  | stepDown responseTerm => exact routed _ (Option.some.inj hrun).symm
  | beginHeartbeats => exact routed _ (Option.some.inj hrun).symm
  | requestVote term candidateId lastLogIndex lastLogTerm =>
    exact routed _ (Option.some.inj hrun).symm
  | appendEntries term leaderId => exact routed _ (Option.some.inj hrun).symm
  | appendWrite request =>
    injection hrun with hrun
    rw [← hrun]
    exact ⟨h.appendWrite hno, hset, Int.le_refl _⟩
  | encodeSnapshot term =>
    injection hrun with hrun
    rw [← hrun]
    refine ⟨h.congr rfl rfl rfl fun hl => ?_, hset, Int.le_refl _⟩
    exact hl.snapshotEntries now
  | commitWrite entry =>
    injection hrun with hrun
    rw [← hrun]
    obtain ⟨hdel, hset', hle, -⟩ := h.commitWrite hset now entry
    exact ⟨hdel, hset', hle⟩
  | restart => exact absurd (restart_follower hrun) hrole'
  | _ => exact absurd horder hrole

end Section

/-! ## The thread that has appended the DEL -/

/-- The thread replicates `d`, or has got it committed and says so. -/
def Job.Pursues (d : RaftLogEntry) (commit : Int) : Job → Prop
  | .replicate w _ _ | .send w _ _ _ _ | .awaiting w _ _ _ _ _ | .counted w _ => w.entry = d
  | .announce _ _ | .replied .ok => d.index ≤ commit
  | .replied .raftNoQuorum => True
  | _ => False

theorem Job.Pursues.mono {d : RaftLogEntry} {commit commit' : Int} {job : Job}
    (h : job.Pursues d commit) (hle : commit ≤ commit') : job.Pursues d commit' := by
  cases job with
  | announce message rest => exact Int.le_trans h hle
  | replied reply =>
    cases reply with
    | ok => exact Int.le_trans h hle
    | raftNoQuorum => trivial
  | _ => exact h

namespace World

variable {w w' : World} {e : ClusterEvent} {n : Str} {d : RaftLogEntry}

theorem jobStep_pursues {i : Nat} {now : Int} {lost : Bool} {alive : List Str} {job : Job}
    (hd : (w.servers n).Deleting d) (hset : (w.servers n).Settled d)
    (h : job.Pursues d (w.servers n).raftCommitIndex)
    (hs : w.jobStep i n now lost alive job = some w') :
    ∃ job', w'.jobs = w.jobs.set i (n, job') ∧
      job'.Pursues d (w'.servers n).raftCommitIndex := by
  have goes : ∀ {u : World} {job' : Job}, some u = some w' → u.jobs = w.jobs.set i (n, job') →
      job'.Pursues d (u.servers n).raftCommitIndex →
      ∃ job', w'.jobs = w.jobs.set i (n, job') ∧
        job'.Pursues d (w'.servers n).raftCommitIndex :=
    fun heq hj hp => Option.some.inj heq ▸ ⟨_, hj, hp⟩
  cases job with
  | replicate snapshot acks rest =>
    cases rest with
    | nil => exact goes hs rfl h
    | cons follower rest => exact goes hs rfl h
  | send snapshot acks rest follower next =>
    rw [jobStep] at hs
    split at hs
    · split at hs
      · exact goes hs rfl h
      · split at hs
        · exact goes hs rfl h
        · exact goes hs rfl h
    · exact goes hs rfl h
  | awaiting snapshot acks rest follower next task =>
    obtain ⟨reply, -, hs⟩ := Option.map_eq_some_iff.mp hs
    split at hs
    · exact goes (congrArg some hs) rfl h
    · exact goes (congrArg some hs) rfl h
    · exact goes (congrArg some hs) rfl h
  | counted snapshot acks =>
    rw [jobStep] at hs
    split at hs
    · exact goes hs rfl trivial
    · refine goes hs rfl ?_
      have hentry : snapshot.entry = d := h
      show d.index ≤ (update w.servers n _ n).raftCommitIndex
      rw [update_self, hentry]
      exact (hd.commitWrite hset now d).2.2.2
  | announce message rest =>
    cases rest with
    | nil => exact goes hs rfl h
    | cons follower rest => exact goes hs rfl h
  | replied reply => cases hs
  | _ => cases h

/-- As long as node `n` leads term `T`, its thread `i` is about the DEL `d`. -/
structure Pursued (n : Str) (T : Int) (i : Nat) (d : RaftLogEntry) (w : World) : Prop where
  reached : T ≤ (w.servers n).router.currentTerm
  leading : (w.servers n).router.currentTerm = T → (w.servers n).router.role ≠ .follower →
    (w.servers n).Deleting d ∧ (w.servers n).Settled d ∧
      ∃ job, w.jobs[i]? = some (n, job) ∧ job.Pursues d (w.servers n).raftCommitIndex

/-- Node `n` finishes nothing as a leader that it took up as a follower. -/
def InOrder (n : Str) (w : World) (e : ClusterEvent) (_ : World) : Prop :=
  ∀ x ∈ w.section? e, x.1 = n → x.2.2.InOrder (w.servers n)

/-- Node `n` appends no PUT of the key. -/
def NoPut (n key : Str) (w : World) (e : ClusterEvent) (_ : World) : Prop :=
  ∀ x ∈ w.section? e, x.1 = n → ¬ x.2.2.Appends key

instance (n : Str) (w : World) (e : ClusterEvent) (w' : World) : Decidable (w.InOrder n e w') :=
  inferInstanceAs (Decidable (∀ x ∈ w.section? e, _))

instance (n key : Str) (w : World) (e : ClusterEvent) (w' : World) :
    Decidable (w.NoPut n key e w') :=
  inferInstanceAs (Decidable (∀ x ∈ w.section? e, _))

/-- A step that leaves `n` standing or leading in its term. -/
theorem step_standing (hs : w.step e = some w') (horder : w.InOrder n e w')
    (hno : w.NoPut n d.key e w') (hrole : (w'.servers n).router.role ≠ .follower)
    (hterm : (w'.servers n).router.currentTerm = (w.servers n).router.currentTerm) :
    (w.servers n).router.role ≠ .follower ∧
      ((w.servers n).Deleting d → (w.servers n).Settled d →
        (w'.servers n).Deleting d ∧ (w'.servers n).Settled d ∧
          (w.servers n).raftCommitIndex ≤ (w'.servers n).raftCommitIndex) := by
  have same : w'.servers n = w.servers n → (w.servers n).router.role ≠ .follower ∧
      ((w.servers n).Deleting d → (w.servers n).Settled d →
        (w'.servers n).Deleting d ∧ (w'.servers n).Settled d ∧
          (w.servers n).raftCommitIndex ≤ (w'.servers n).raftCommitIndex) := by
    intro heq
    rw [heq] at hrole ⊢
    exact ⟨hrole, fun hd hset => ⟨hd, hset, Int.le_refl _⟩⟩
  have hm := step_servers hs
  cases hsec : w.section? e with
  | none =>
    rw [hsec] at hm
    exact same (congrFun hm n)
  | some x =>
    obtain ⟨node, now, sec⟩ := x
    rw [hsec] at hm
    obtain ⟨s, hrun, hservers⟩ := hm
    by_cases hn : n = node
    · subst hn
      have hself : w'.servers n = s := by rw [hservers, update_self]
      rw [hself] at hrole hterm ⊢
      have hstand := Section.standing hrun hrole hterm
      exact ⟨hstand, fun hd hset => Section.deleting hd hset hstand hrole
        (horder _ hsec rfl) (hno _ hsec rfl) hrun⟩
    · exact same (by rw [hservers, update_of_ne hn])

/-- A thread of a node that is not started again either is the one that
moves, or stays as it is. -/
theorem step_job {i : Nat} {job : Job} (hs : w.step e = some w')
    (hjob : w.jobs[i]? = some (n, job)) :
    (w'.jobs[i]? = some (n, job) ∨ ∃ now, w.section? e = some (n, now, .restart)) ∨
      ∃ now lost alive, w.jobStep i n now lost alive job = some w' := by
  obtain ⟨hlen, -⟩ := List.getElem?_eq_some_iff.mp hjob
  have spawned : ∀ {x}, w'.jobs = w.jobs ++ [x] → w'.jobs[i]? = some (n, job) := by
    intro x hj
    rw [hj, List.getElem?_append_left hlen]
    exact hjob
  obtain ⟨-, hturns⟩ := step_turns hs
  cases e with
  | election node => exact Or.inl (Or.inl (spawned hturns.2.2))
  | heartbeat node => exact Or.inl (Or.inl (spawned hturns.2))
  | write node request => exact Or.inl (Or.inl (spawned hturns.2))
  | job j now lost alive =>
    by_cases hij : j = i
    · subst hij
      rw [step, hjob] at hs
      exact Or.inr ⟨now, lost, alive, hs⟩
    · obtain ⟨node, old, job', sent, -, -, -, hj⟩ := hturns
      rw [hj, List.getElem?_set_ne hij]
      exact Or.inl (Or.inl hjob)
  | task j now =>
    obtain ⟨node, work, s, work', -, -, -, hj⟩ := hturns
    rw [hj]
    exact Or.inl (Or.inl hjob)
  | restart node now =>
    by_cases hn : n = node
    · subst hn
      exact Or.inl (Or.inr ⟨now, rfl⟩)
    · refine Or.inl (Or.inl ?_)
      rw [hturns.2, List.getElem?_map, hjob]
      exact congrArg some (if_neg hn)

theorem Pursued.step {T : Int} {i : Nat} (h : w.Pursued n T i d) (hs : w.step e = some w')
    (horder : w.InOrder n e w') (hno : w.NoPut n d.key e w')
    (hle : (w.servers n).router.currentTerm ≤ (w'.servers n).router.currentTerm) :
    w'.Pursued n T i d := by
  refine ⟨h.reached.trans hle, fun hterm hrole => ?_⟩
  have hold : (w.servers n).router.currentTerm = T := by
    have := h.reached
    omega
  obtain ⟨hstand, hkeep⟩ := step_standing hs horder hno hrole (hterm.trans hold.symm)
  obtain ⟨hd, hset, job, hjob, hp⟩ := h.leading hold hstand
  obtain ⟨hd', hset', hcommit⟩ := hkeep hd hset
  refine ⟨hd', hset', ?_⟩
  rcases step_job hs hjob with (hsame | ⟨now, hsec⟩) | ⟨now, lost, alive, hstep⟩
  · exact ⟨job, hsame, hp.mono hcommit⟩
  · -- a node that is started again does not lead
    have hm := step_servers hs
    rw [hsec] at hm
    obtain ⟨s, hrun, hservers⟩ := hm
    rw [hservers, update_self] at hrole
    exact absurd (Section.restart_follower hrun) hrole
  · obtain ⟨job', hj, hp'⟩ := jobStep_pursues hd hset hp hstep
    obtain ⟨hlen, -⟩ := List.getElem?_eq_some_iff.mp hjob
    exact ⟨job', by rw [hj, List.getElem?_set_self hlen], hp'⟩

end World

/-! ## What a GET answers -/

theorem askOthers_eq_none (key : Str) {others : List (ClusterNode × Str)} :
    (askOthers key others).1 = none ↔ ∀ p ∈ others, parseTextValue p.2 = none := by
  induction others with
  | nil => simp [askOthers]
  | cons p others ih =>
    obtain ⟨node, response⟩ := p
    rw [askOthers, List.forall_mem_cons]
    cases hv : parseTextValue response with
    | none => simp [ih]
    | some value => simp

theorem respBulkReply_ne (value : Str) : respBulkReply (some value) ≠ respBulkReply none := by
  intro h
  rw [respBulkReply, respBulkReply] at h
  have htail := (List.cons.inj h).2
  cases hd : showNat value.length with
  | nil => exact showNat_ne_nil _ hd
  | cons c rest =>
    -- a length starts with a digit, not with a minus
    have hdigit : isDigit c = true :=
      showNat_digits (n := value.length) (hd ▸ List.mem_cons_self ..)
    rw [hd] at htail
    have hc : c = 45 := (List.cons.inj htail).1
    rw [hc] at hdigit
    exact absurd hdigit (by decide)

theorem Request.answer_value_ne (r : Request) (value : Str) :
    r.answer (respBulkReply (some value)) (str "VALUE " ++ value) ≠
      r.answer (respBulkReply none) (str "NOT_FOUND") := by
  unfold Request.answer
  cases r.protocol with
  | resp => exact respBulkReply_ne value
  | text =>
    intro h
    exact absurd (List.cons.inj h).1 (by decide)

theorem executeLocal_get_lacks {env : LocalEnv} (henv : env.enabled = true) {s : Store}
    {r : Request} (hr : r.type = .get) (h : s.Lacks r.key) (now : Int) :
    (executeLocal env now s r).reply = r.answer (respBulkReply none) (str "NOT_FOUND") ↔
      ∀ p ∈ env.others, parseTextValue p.2 = none := by
  rw [← askOthers_eq_none r.key, executeLocal, hr]
  simp only [executeGet, h.get now, hr, henv, and_self, if_true]
  cases (askOthers r.key env.others).1 with
  | none => exact iff_of_true rfl rfl
  | some value => exact iff_of_false (r.answer_value_ne value) (Option.some_ne_none value)

open World

/-- A GET of a deleted key. The leader `n` has appended a DEL with its thread
`i`, has answered it, and leads the same term still. -/
theorem deleted_key_not_found_iff (members : List ClusterNode)
    (hids : (members.map ClusterNode.id).Nodup) (store : Str → Store) (threshold : Str → Int)
    (pre post : List ClusterEvent) (i : Nat) (now : Int) (lost : Bool) (alive : List Str)
    (w₀ w₁ w₂ : World) (n : Str) (request : WriteRequest)
    (hpre : Runs.run World.step (start members store threshold) pre = some w₀)
    (hjob : w₀.jobs[i]? = some (n, .accepted request)) (hdel : request.type = .del)
    (hstep : w₀.step (.job i now lost alive) = some w₁)
    (hpost : Runs.run World.step w₁ post = some w₂)
    (hok : w₂.jobs[i]? = some (n, .replied .ok))
    (hlead : w₂.Leads n (w₁.servers n).router.currentTerm)
    (hkept : Runs.Always World.step VoteKept (start members store threshold)
      (pre ++ .job i now lost alive :: post))
    (hindices : (w₀.servers n).Ordered)
    (horder : Runs.Always World.step (InOrder n) w₁ post)
    (hno : Runs.Always World.step (NoPut n request.key) w₁ post)
    (env : LocalEnv) (henv : env.enabled = true) (t : Int) (r : Request) (hr : r.type = .get)
    (hkey : r.key = request.key) :
    (executeLocal env t (w₂.servers n).store r).reply =
        r.answer (respBulkReply none) (str "NOT_FOUND") ↔
      ∀ p ∈ env.others, parseTextValue p.2 = none := by
  refine executeLocal_get_lacks henv hr ?_ t
  rw [hkey]
  -- the terms of the protocol only grow
  obtain ⟨b₀, hb₀⟩ : ∃ b : Tally, w₀.Tallied members b := by
    refine Runs.inv_of_always (I := fun w => ∃ b : Tally, w.Tallied members b) (C := VoteKept)
      ?_ ⟨_, tallied_start members store threshold⟩ hpre
      (Runs.always_of_prefix hkept (List.prefix_append _ _))
    rintro w e w' ⟨b, hb⟩ hs hc
    obtain ⟨b', -, -, hb'⟩ := hb.next hids hc hs () ()
    exact ⟨b', hb'⟩
  obtain ⟨b₁, -, -, hb₁⟩ := hb₀.next hids (Runs.always_at hkept hpre hstep) hstep () ()
  have hrest : Runs.Always World.step VoteKept w₁ post := by
    have hall := Runs.always_append_right hkept hpre
    exact ((Runs.always_cons hstep post).mp hall).2
  -- the DEL is appended
  have hw₁ : w₁.Pursued n (w₁.servers n).router.currentTerm i
      ((w₀.servers n).appendWrite request).2.entry := by
    rw [World.step, hjob] at hstep
    injection hstep with hstep
    obtain ⟨hlen, -⟩ := List.getElem?_eq_some_iff.mp hjob
    obtain ⟨hd, hset⟩ := KVServer.deleting_appendWrite hindices hdel
    refine ⟨Int.le_refl _, fun _ _ => ?_⟩
    have hself : w₁.servers n = ((w₀.servers n).appendWrite request).1 := by
      rw [← hstep]
      exact update_self _ _ _
    have hjobs : w₁.jobs = w₀.jobs.set i (n, .replicate ((w₀.servers n).appendWrite request).2 1
        (((w₀.servers n).appendWrite request).1.router.raftFollowers alive)) := by
      rw [← hstep]
      rfl
    rw [hself, hjobs, List.getElem?_set_self hlen]
    exact ⟨hd, hset, _, rfl, rfl⟩
  obtain ⟨-, -, hw₂⟩ := Runs.inv_of_always
    (I := fun w => ∃ b : Tally, w.Tallied members b ∧
      w.Pursued n (w₁.servers n).router.currentTerm i
        ((w₀.servers n).appendWrite request).2.entry)
    (C := fun w e w' => VoteKept w e w' ∧ InOrder n w e w' ∧ NoPut n request.key w e w')
    (fun w e w' hw hs hc => by
      obtain ⟨b, hb, hp⟩ := hw
      obtain ⟨b', m, hf, hb'⟩ := hb.next hids hc.1 hs () ()
      refine ⟨b', hb', hp.step hs hc.2.1 hc.2.2 ?_⟩
      rw [← (hb.servers n).term, ← (hb'.servers n).term]
      exact hf.term_le n)
    ⟨b₁, hb₁, hw₁⟩ hpost
    (Runs.always_and.mpr ⟨hrest, Runs.always_and.mpr ⟨horder, hno⟩⟩)
  obtain ⟨hd, hset, job, hj, hp⟩ := hw₂.leading hlead.2 (by rw [hlead.1]; decide)
  rw [hok] at hj
  cases hj
  exact hd.gone (hset hp)

/-! Node `a` leads and gets a PUT to `b`, and the DEL behind it to `c`. While
`b` has not heard of the DEL, a GET at `a` finds what `b` still has. -/

namespace World

def roomyStart : World := start threeMembers (fun _ => .memory {}) fun _ => 100

def putAtB : List ClusterEvent :=
  [.write (bytes ['a']) (putRequest 'k' 'v')] ++ jobSteps 4 1 [bytes ['b']] ++ taskSteps 3 1 ++
    jobSteps 4 1 [bytes ['b']] ++ taskSteps 3 2 ++ jobSteps 1 1 []

def delRequest (key : Char) : WriteRequest := ⟨.del, bytes [key], [], 0⟩

def delAccepted : List ClusterEvent :=
  electA ++ putAtB ++ [.write (bytes ['a']) (delRequest 'k')] ++ jobSteps 1 2 []

def delAppended : ClusterEvent := .job 2 0 false [bytes ['c']]

/-- `c` has nothing of the log, and gets it all. -/
def delAtC : List ClusterEvent :=
  jobSteps 2 2 [] ++ taskSteps 3 3 ++ jobSteps 2 2 [] ++ taskSteps 3 4 ++ jobSteps 4 2 []

def getK : Request := { type := .get, key := bytes ['k'] }

/-- Node `m` is the only one to ask, and has answered. It may be `a` itself. -/
def asking (w : World) (m : ClusterNode) : LocalEnv where
  others :=
    [(m, (executeLocal {} 0 (w.servers m.id).store { getK with type := .replicaGet }).reply)]

/-- Before the DEL is appended, after it, and when it has been answered. -/
def delWaiting : World := (Runs.run World.step roomyStart delAccepted).getD roomyStart

def delPending : World := (delWaiting.step delAppended).getD roomyStart

def delAnswered : World := (Runs.run World.step delPending delAtC).getD roomyStart

theorem eq_some_getD {o : Option World} (h : o.isSome = true) (w : World) :
    o = some (o.getD w) := by
  obtain ⟨x, rfl⟩ := Option.isSome_iff_exists.mp h
  rfl

theorem run_delAccepted : Runs.run World.step roomyStart delAccepted = some delWaiting :=
  eq_some_getD (by decide +kernel) _

theorem step_delAppended : delWaiting.step delAppended = some delPending :=
  eq_some_getD (by decide +kernel) _

theorem run_delAtC : Runs.run World.step delPending delAtC = some delAnswered :=
  eq_some_getD (by decide +kernel) _

end World

theorem deleted_key_not_found_iff_at_a :
    Runs.run World.step roomyStart delAccepted = some delWaiting ∧
      delWaiting.step delAppended = some delPending ∧
      Runs.run World.step delPending delAtC = some delAnswered ∧
      delAnswered.jobs[2]? = some (bytes ['a'], .replied .ok) ∧
      (executeLocal (delAnswered.asking ⟨bytes ['a'], [], 1⟩) 0
          (delAnswered.servers (bytes ['a'])).store getK).reply =
        getK.answer (respBulkReply none) (str "NOT_FOUND") := by
  have hok : delAnswered.jobs[2]? = some (bytes ['a'], .replied .ok) := by decide +kernel
  have hkept : Runs.Always World.step VoteKept roomyStart
      (delAccepted ++ delAppended :: delAtC) := by decide +kernel
  refine ⟨run_delAccepted, step_delAppended, run_delAtC, hok, ?_⟩
  exact (deleted_key_not_found_iff threeMembers (by decide) (fun _ => .memory {}) _ delAccepted
    delAtC 2 0 false [bytes ['c']] delWaiting delPending delAnswered (bytes ['a'])
    (delRequest 'k') run_delAccepted (by decide +kernel) rfl step_delAppended run_delAtC hok
    (by decide +kernel) hkept (by decide +kernel) (by decide +kernel) (by decide +kernel)
    (delAnswered.asking ⟨bytes ['a'], [], 1⟩) rfl 0 getK rfl rfl).mpr (by decide +kernel)

/-- Nothing is out of order here: that `b` is behind is enough. -/
theorem deleted_key_found_at_b :
    Runs.run World.step roomyStart delAccepted = some delWaiting ∧
      delWaiting.jobs[2]? = some (bytes ['a'], .accepted (delRequest 'k')) ∧
      delWaiting.step delAppended = some delPending ∧
      Runs.run World.step delPending delAtC = some delAnswered ∧
      delAnswered.jobs[2]? = some (bytes ['a'], .replied .ok) ∧
      delAnswered.Leads (bytes ['a']) 1 ∧
      Runs.Always World.step (NoPut (bytes ['a']) (bytes ['k'])) delPending delAtC ∧
      (executeLocal (delAnswered.asking ⟨bytes ['b'], [], 2⟩) 0
          (delAnswered.servers (bytes ['a'])).store getK).reply = str "VALUE v\n" :=
  ⟨run_delAccepted, by decide +kernel, step_delAppended, run_delAtC, by decide +kernel,
    by decide +kernel, by decide +kernel, by decide +kernel⟩

end TinyKV
