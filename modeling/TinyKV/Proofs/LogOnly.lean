import TinyKV.Model.RequestLine
import TinyKV.Proofs.NodeLog
import TinyKV.Proofs.Protocol
import TinyKV.Proofs.Reapply
import TinyKV.Proofs.Router

/-!
# Ways past the log

With Raft a node's store should hold what the log says: it changes when
committed entries are applied, or when a snapshot is installed. A request
for data that comes from a client goes to the leader, and a write goes
through the log there.

The switch at the end of `process_request_line` does not know about any of
this. A write that gets there is carried out on the local store. The `REPL_`
and the `RAFT_` forms of the three writes get there on every node, since
they are neither routed nor client writes. A client's write gets there if
the node was the leader when the request was routed and is not any more when
the write is to be replicated.

There is one other way. `replace_with_snapshot` clears the store, loads the
entries one by one and gives up at an empty key, so that a snapshot can be
refused after the contents are gone. Everything else a request line can say
leaves them to the log.
-/

namespace TinyKV

open Recency

/-! ## What a client sees -/

namespace MemoryStore

variable {s : MemoryStore} {now : Int} {key : Str} {entry : Entry}

theorem visible_of_lookup {t : MemoryStore} (h : t.data.lookup key = s.data.lookup key) :
    t.visible now key = s.visible now key := by
  rw [visible, visible, h]

/-- Dropping an entry whose deadline has passed. -/
theorem drop_visible (h : ∀ e, s.data.lookup key = some e → expired e now = true) (k : Str) :
    (s.drop key entry).visible now k = s.visible now k := by
  by_cases hk : k = key
  · subst hk
    have hgone : (s.drop k entry).data.lookup k = none := AList.lookup_erase k s.data
    have hnone : s.visible now k = none := by
      rw [visible]
      split
      · rfl
      · next e he => rw [if_pos (h e he)]
    rw [hnone, visible, hgone]
  · exact visible_of_lookup (AList.lookup_erase_ne hk)

theorem drop_expired_visible (hl : s.data.lookup key = some entry)
    (hx : expired entry now = true) (k : Str) :
    (s.drop key entry).visible now k = s.visible now k := by
  refine drop_visible (fun e he => ?_) k
  rw [hl] at he
  injection he with he
  rw [← he]
  exact hx

theorem touchLocked_visible (s : MemoryStore) (now : Int) (key k : Str) :
    (s.touchLocked key).visible now k = s.visible now k := by
  unfold touchLocked
  split
  · rfl
  · next e he =>
    by_cases hk : k = key
    · subst hk
      simp only [visible, AList.lookup_insert, he]
      rfl
    · exact visible_of_lookup (AList.lookup_insert_ne hk)

theorem get_visible (s : MemoryStore) (now : Int) (key k : Str) :
    (s.get now key).2.visible now k = s.visible now k := by
  unfold get
  split
  · rfl
  · next e he =>
    split
    · next hx => exact drop_expired_visible he hx k
    · exact touchLocked_visible s now key k

theorem ttl_visible (s : MemoryStore) (now : Int) (key k : Str) :
    (s.ttl now key).2.visible now k = s.visible now k := by
  unfold ttl
  split
  · rfl
  · next e he =>
    split
    · next hx => exact drop_expired_visible he hx k
    · split
      · rfl
      · rfl

theorem expired_later {t : Int} (hle : t ≤ now) (h : expired entry t = true) :
    expired entry now = true := by
  simp only [expired, Bool.and_eq_true, decide_eq_true_iff] at h ⊢
  omega

/-- A purge shows nothing to a later reader. -/
theorem snapshotEntries_visible (s : MemoryStore) {t : Int} (hle : t ≤ now) (k : Str) :
    (s.snapshotEntries t).2.visible now k = s.visible now k := by
  have key : ∀ (es : List (Σ _ : Str, Entry)) (u : MemoryStore),
      (∀ kv ∈ es, ∀ e, u.data.lookup kv.1 = some e → e = kv.2) →
      (es.foldl (fun u kv => if expired kv.2 t then u.drop kv.1 kv.2 else u) u).visible now k =
        u.visible now k := by
    intro es
    induction es with
    | nil => exact fun _ _ => rfl
    | cons kv es ih =>
      intro u hu
      rw [List.foldl_cons]
      split
      · next hx =>
        rw [ih]
        · refine drop_visible (fun e he => ?_) k
          rw [hu kv List.mem_cons_self e he]
          exact expired_later hle hx
        · -- what is left of the others is what they were
          intro kv' hkv' e he
          by_cases hk : kv'.1 = kv.1
          · rw [drop, hk, AList.lookup_erase] at he
            cases he
          · rw [drop, AList.lookup_erase_ne hk] at he
            exact hu kv' (List.mem_cons_of_mem _ hkv') e he
      · exact ih u fun kv' hkv' => hu kv' (List.mem_cons_of_mem _ hkv')
  refine key s.data.entries s fun kv hkv e he => ?_
  rw [lookup_of_mem_entries hkv] at he
  injection he with he
  exact he.symm

/-! ## A snapshot that is refused -/

theorem loadEntries_refused (s : MemoryStore) (es : List StoreEntry) :
    (s.loadEntries es).1 = false ↔ ∃ e ∈ es, e.key = [] := by
  induction es generalizing s with
  | nil => simp [loadEntries]
  | cons e es ih =>
    rw [loadEntries]
    split
    · next hkey => exact iff_of_true rfl ⟨e, List.mem_cons_self, hkey⟩
    · next hkey =>
      rw [ih]
      simp [hkey]

/-- Loading adds no key but those of the entries. -/
theorem loadEntries_lookup {es : List StoreEntry} (hes : ∀ e ∈ es, e.key ≠ key)
    (h : s.data.lookup key = none) : (s.loadEntries es).2.data.lookup key = none := by
  induction es generalizing s with
  | nil => exact h
  | cons e es ih =>
    rw [loadEntries]
    split
    · exact h
    · refine ih (fun e' he' => hes e' (List.mem_cons_of_mem _ he')) ?_
      rw [load, AList.lookup_insert_ne (hes e List.mem_cons_self).symm]
      exact h

end MemoryStore

theorem replaceWithSnapshot_refused {now : Int} {s : Store} {entries : List StoreEntry} :
    (s.replaceWithSnapshot now entries).1 = false ↔ ∃ e ∈ entries, e.key = [] := by
  have hmem : ∀ p : MemoryStore, (p.replaceWithSnapshot now entries).1 = false ↔
      ∃ e ∈ entries, e.key = [] := by
    intro p
    rw [← MemoryStore.loadEntries_refused p.clear, MemoryStore.replaceWithSnapshot]
    rcases p.clear.loadEntries entries with ⟨ok, q⟩
    cases ok with
    | false => exact Iff.rfl
    | true => exact Iff.rfl
  cases s with
  | memory p => exact hmem p
  | persistent ord p =>
    rw [← hmem p.memory, Store.replaceWithSnapshot, PersistentMemoryStore.replaceWithSnapshot]
    rcases p.memory.replaceWithSnapshot now entries with ⟨ok, q⟩
    cases ok with
    | false => exact Iff.rfl
    | true => exact Iff.rfl

/-- Of a store whose new contents are refused, only they are left. -/
theorem replaceWithSnapshot_lookup {now : Int} {s : Store} {entries : List StoreEntry}
    {key : Str} (h : (s.replaceWithSnapshot now entries).1 = false)
    (hkey : ∀ e ∈ entries, e.key ≠ key) :
    (s.replaceWithSnapshot now entries).2.mem.data.lookup key = none := by
  have hmem : ∀ p : MemoryStore, (p.replaceWithSnapshot now entries).1 = false →
      (p.replaceWithSnapshot now entries).2.data.lookup key = none := by
    intro p hp
    have hlookup := MemoryStore.loadEntries_lookup (s := p.clear) hkey rfl
    rw [MemoryStore.replaceWithSnapshot] at hp ⊢
    rcases hload : p.clear.loadEntries entries with ⟨ok, q⟩
    rw [hload] at hp hlookup
    cases ok with
    | false => exact hlookup
    | true => cases hp
  cases s with
  | memory p => exact hmem p h
  | persistent ord p =>
    have hq := hmem p.memory
    rw [Store.replaceWithSnapshot, PersistentMemoryStore.replaceWithSnapshot] at h ⊢
    rcases hload : p.memory.replaceWithSnapshot now entries with ⟨ok, q⟩
    rw [hload] at h hq
    cases ok with
    | false => exact hq rfl
    | true => cases h

/-! ## Requests -/

namespace Request

/-- A write that the switch at the end carries out. A time to live that is
not positive makes an expiry do nothing. -/
def WritesLocally (r : Request) : Prop :=
  r.type ∈ [CommandType.put, .replicaPut, .raftPut, .del, .replicaDel, .raftDel] ∨
    r.type ∈ [CommandType.expire, .replicaExpire, .raftExpire] ∧ 0 < r.ttlSeconds

/-- A snapshot that is loaded up to an entry without a key. -/
def FailsToInstall (r : Request) : Prop :=
  r.type = .raftInstallSnapshot ∧ 0 < r.term ∧ 0 < r.lastLogIndex ∧
    ∃ entries, decodeSnapshotPayload r.snapshotPayload = some entries ∧
      ∃ e ∈ entries, e.key = []

/-- The ways past the log, given what the two reads of the role say. -/
def Bypasses (r : Request) (leadsFirst leadsSecond : Bool) : Prop :=
  r.error = [] ∧
    (r.WritesLocally ∧ (isClientWrite r.type = true → leadsFirst = true ∧ leadsSecond = false) ∨
      r.FailsToInstall)

/-- The entry that would make the same write. -/
def entry (r : Request) : RaftLogEntry where
  index := 0
  term := 0
  type := match r.type with
    | .put | .replicaPut | .raftPut => .put
    | .del | .replicaDel | .raftDel => .del
    | _ => .expire
  key := r.key
  value := r.value
  ttlSeconds := r.ttlSeconds

end Request

theorem Request.WritesLocally.kinds {r : Request} (h : r.WritesLocally) :
    r.type ∉ [CommandType.raftRequestVote, .raftAppendEntries, .raftInstallSnapshot, .raftStatus,
        .metrics] ∧
      (shouldRoute r.type = true → isClientWrite r.type = true) := by
  rcases h with h | ⟨h, -⟩
  · simp only [List.mem_cons, List.not_mem_nil, or_false] at h
    rcases h with h | h | h | h | h | h
    all_goals
      rw [h]
      decide
  · simp only [List.mem_cons, List.not_mem_nil, or_false] at h
    rcases h with h | h | h
    all_goals
      rw [h]
      decide

/-- The parser lets no write through without a key. -/
theorem parseRequest_key (line : Str) :
    (parseRequest line).WritesLocally → (parseRequest line).key ≠ [] := by
  have herror : ∀ e protocol, (errorRequest e protocol).WritesLocally →
      (errorRequest e protocol).key ≠ [] := by
    intro e protocol h
    simp [Request.WritesLocally, errorRequest] at h
  refine parseRequest_holds (P := fun r => r.WritesLocally → r.key ≠ []) herror ?_ line
  intro args protocol
  refine parseArgs_holds (P := fun r => r.WritesLocally → r.key ≠ []) (herror · protocol) ?_
    (fun _ _ _ _ hkey _ => hkey) ?_
  · intro type htype h
    simp only [List.mem_cons, List.not_mem_nil, or_false] at htype
    rcases htype with rfl | rfl | rfl
    all_goals simp [Request.WritesLocally] at h
  · intro r _ _ htype h
    simp only [List.mem_cons, List.not_mem_nil, or_false] at htype
    rcases htype with htype | htype | htype
    all_goals simp [Request.WritesLocally, htype] at h

theorem shouldRoute_of_isClientWrite {type : CommandType} (h : isClientWrite type = true) :
    shouldRoute type = true := by
  cases type with
  | put | del | expire => rfl
  | _ => cases h

section Local

variable {env : LocalEnv} {now : Int} {s : Store} {r : Request}

theorem executeLocal_write (h : r.WritesLocally) :
    (executeLocal env now s r).store = (applyRaftEntryLocked now s r.entry).2 := by
  unfold executeLocal applyRaftEntryLocked Request.entry
  rcases h with h | ⟨h, -⟩
  · simp only [List.mem_cons, List.not_mem_nil, or_false] at h
    rcases h with h | h | h | h | h | h
    all_goals
      rw [h]
      rfl
  · simp only [List.mem_cons, List.not_mem_nil, or_false] at h
    rcases h with h | h | h
    all_goals
      rw [h]
      rfl

/-- Everything else leaves what a client sees. -/
theorem executeLocal_read (h : ¬ r.WritesLocally) (key : Str) :
    (executeLocal env now s r).store.mem.visible now key = s.mem.visible now key := by
  have hget : (s.get now r.key).2.mem.visible now key = s.mem.visible now key := by
    show (s.setMem (s.mem.get now r.key).2).mem.visible now key = _
    rw [setMem_mem]
    exact MemoryStore.get_visible s.mem now r.key key
  have hexpire : r.type ∈ [CommandType.expire, .replicaExpire, .raftExpire] →
      (s.expire now r.key r.ttlSeconds).2.mem.visible now key = s.mem.visible now key := by
    intro htype
    have httl : r.ttlSeconds ≤ 0 := by
      by_contra hpos
      exact h (Or.inr ⟨htype, by omega⟩)
    rw [expire_le_zero httl]
  unfold executeLocal
  cases htype : r.type with
  | put | replicaPut | raftPut | del | replicaDel | raftDel =>
    exact absurd (Or.inl (by simp [htype])) h
  | get | replicaGet => exact hget
  | «exists» =>
    show (s.setMem (s.mem.exists_ now r.key).2).mem.visible now key = _
    rw [setMem_mem]
    exact MemoryStore.get_visible s.mem now r.key key
  | expire | replicaExpire | raftExpire => exact hexpire (by simp [htype])
  | ttl =>
    show (s.setMem (s.mem.ttl now r.key).2).mem.visible now key = _
    rw [setMem_mem]
    exact MemoryStore.ttl_visible s.mem now r.key key
  | _ => rfl

end Local

/-! ## What the log does -/

namespace KVServer

/-- The contents of `t` come out of those of `s` by the entries that were
applied in between, none of them beyond the commit index. -/
def ThroughLog (now : Int) (s t : KVServer) : Prop :=
  ∃ (u : Store) (es : List (Int × RaftLogEntry)),
    (∀ key, u.mem.visible now key = s.store.mem.visible now key) ∧
      t.applied = s.applied ++ es ∧ (∀ x ∈ es, x.1 ≤ t.raftCommitIndex) ∧
      t.store = applyEntries now u (es.map Prod.snd)

/-- The contents of `t` are those of a snapshot that was accepted. -/
def Installed (now : Int) (s : KVServer) (r : Request) (t : KVServer) : Prop :=
  r.type = .raftInstallSnapshot ∧ (s.handleInstallSnapshot now r.toInstall).2.success = true ∧
    ∃ entries, decodeSnapshotPayload r.snapshotPayload = some entries ∧
      s.store.replaceWithSnapshot now entries = (true, t.store)

section Log

variable {now : Int} {s t u : KVServer}

theorem throughLog_shows
    (h : ∀ key, t.store.mem.visible now key = s.store.mem.visible now key)
    (ha : t.applied = s.applied) : s.ThroughLog now t :=
  ⟨t.store, [], h, by rw [ha, List.append_nil], nofun, rfl⟩

theorem throughLog_same (h : (t.store, t.applied) = (s.store, s.applied)) :
    s.ThroughLog now t := by
  injection h with hstore happlied
  exact throughLog_shows (fun key => by rw [hstore]) happlied

theorem ThroughLog.of_shows (h : u.ThroughLog now t)
    (hs : ∀ key, u.store.mem.visible now key = s.store.mem.visible now key)
    (ha : u.applied = s.applied) : s.ThroughLog now t := by
  obtain ⟨v, es, hv, happlied, hcommit, hstore⟩ := h
  exact ⟨v, es, fun key => (hv key).trans (hs key), ha ▸ happlied, hcommit, hstore⟩

theorem ThroughLog.of_same (h : u.ThroughLog now t)
    (hs : (u.store, u.applied) = (s.store, s.applied)) : s.ThroughLog now t := by
  injection hs with hstore happlied
  exact h.of_shows (fun key => by rw [hstore]) happlied

/-- If no entry was applied, a client sees what it saw. -/
theorem ThroughLog.shows (h : s.ThroughLog now t) (ha : t.applied = s.applied) (key : Str) :
    t.store.mem.visible now key = s.store.mem.visible now key := by
  obtain ⟨u, es, hu, happlied, -, hstore⟩ := h
  have hes : es = [] := by
    rw [ha] at happlied
    exact List.append_right_eq_self.mp happlied.symm
  rw [hstore, hes]
  exact hu key

/-- Each round of the loop applies one entry. -/
theorem ThroughLog.applyNext (h : s.ThroughLog now t) (hlt : t.raftLastApplied < t.raftCommitIndex)
    (entry : RaftLogEntry) : s.ThroughLog now (t.applyNext now entry) := by
  obtain ⟨u, es, hu, happlied, hcommit, hstore⟩ := h
  refine ⟨u, es ++ [(t.raftLastApplied + 1, entry)], hu, ?_, fun x hx => ?_, ?_⟩
  · rw [← List.append_assoc, ← happlied]
    rfl
  · rcases List.mem_append.mp hx with hx | hx
    · exact hcommit x hx
    · rw [List.mem_singleton.mp hx]
      exact hlt
  · show (applyRaftEntryLocked now t.store entry).2 = _
    rw [hstore, List.map_append, applyEntries, applyEntries, List.foldl_append]
    rfl

theorem applyCommitted_through (now : Int) (s : KVServer) :
    s.ThroughLog now (s.applyCommittedRaftEntries now) :=
  applyCommitted_elim (P := s.ThroughLog now) (throughLog_same rfl)
    (fun _ _ entry ht hlt _ _ => ht.applyNext hlt entry) (fun _ ht _ => ht) fun _ ht _ _ _ => ht

theorem advanceCommit_through (now : Int) (s : KVServer) (leaderCommit : Int) :
    s.ThroughLog now (s.advanceCommit now leaderCommit) := by
  unfold advanceCommit
  split
  · exact (applyCommitted_through now _).of_same rfl
  · exact throughLog_same rfl

theorem appendLocked_through (now : Int) (s : KVServer) (request : AppendRequest) :
    s.ThroughLog now (s.appendLocked now request).1 := by
  have hloop := appendLoop_same (f := fun t => (t.store, t.applied)) (fun _ _ => rfl) s
    (request.prevLogIndex + 1) request.entries
  refine appendLocked_elim (P := s.ThroughLog now) (throughLog_same rfl) ?_ ?_ ?_ ?_
    (fun _ _ _ => advanceCommit_through now s _)
  · intro _ _ _
    exact throughLog_same (eraseFrom_same (f := fun t => (t.store, t.applied))
      (fun _ _ => rfl) s _)
  · exact fun _ => throughLog_same hloop
  · exact fun _ _ => (advanceCommit_through now _ _).of_same hloop
  · intro _
    exact (advanceCommit_through now _ _).of_same
      (appendSingle_same (f := fun t => (t.store, t.applied)) (fun _ _ => rfl)
        (fun _ => rfl) (fun _ => rfl) s request)

theorem handleAppend_through (now : Int) (s : KVServer) (request : AppendRequest) :
    s.ThroughLog now (s.handleRaftAppendEntries now request).1 :=
  handleAppend_elim (throughLog_same rfl) fun _ => (appendLocked_through now _ request).of_same rfl

/-- Encoding snapshots for followers purges the store, before the write is
applied. -/
theorem replicate_through (s : KVServer) (request : WriteRequest) {followers : Replication}
    (h : ∀ t ∈ followers.snapshots, t ≤ now) :
    s.ThroughLog now (s.replicateRaftWrite now request followers).1 := by
  have hsnap : ∀ (times : List Int) (term : Int) (u : KVServer), (∀ t ∈ times, t ≤ now) →
      (∀ key, (times.foldl (fun s t => (s.encodeRaftSnapshot t term).1) u).store.mem.visible now
          key = u.store.mem.visible now key) ∧
        (times.foldl (fun s t => (s.encodeRaftSnapshot t term).1) u).applied = u.applied := by
    intro times term
    induction times with
    | nil => exact fun u _ => ⟨fun _ => rfl, rfl⟩
    | cons time times ih =>
      intro u hu
      obtain ⟨hshow, happlied⟩ := ih (u.encodeRaftSnapshot time term).1
        fun t ht => hu t (List.mem_cons_of_mem _ ht)
      refine ⟨fun key => (hshow key).trans ?_, happlied⟩
      show (u.store.setMem (u.store.mem.snapshotEntries time).2).mem.visible now key = _
      rw [setMem_mem]
      exact MemoryStore.snapshotEntries_visible u.store.mem (hu time List.mem_cons_self) key
  obtain ⟨hshow, happlied⟩ := hsnap followers.snapshots (s.appendWrite request).2.entry.term
    (s.appendWrite request).1 h
  unfold replicateRaftWrite
  simp only []
  split
  · exact throughLog_shows hshow happlied
  · unfold commitWrite
    split
    · exact (applyCommitted_through now _).of_shows hshow happlied
    · exact throughLog_shows hshow happlied

/-- A snapshot that gets as far as the store. -/
theorem handleInstall_loads (now : Int) (s : KVServer) (request : InstallRequest)
    {entries : List StoreEntry} (hterm : s.router.currentTerm ≤ request.term)
    (hzero : request.term ≠ 0)
    (hnew : ¬ request.lastLogIndex ≤ s.raftLastIncludedIndex)
    (hpayload : request.payload = some entries) :
    (s.handleInstallSnapshot now request).1.store =
        (s.store.replaceWithSnapshot now entries).2 ∧
      (s.handleInstallSnapshot now request).1.applied = s.applied ∧
      (s.handleInstallSnapshot now request).2.success =
        (s.store.replaceWithSnapshot now entries).1 := by
  rw [handleInstallSnapshot, checkTerm_fresh hterm, decide_eq_true hzero]
  simp only [installCovered, decide_eq_false hnew, hpayload, installPayload, Bool.false_eq_true,
    if_false]
  rcases s.store.replaceWithSnapshot now entries with ⟨ok, store⟩
  cases ok with
  | false => exact ⟨rfl, rfl, rfl⟩
  | true => exact ⟨rfl, rfl, rfl⟩

theorem handleInstall_through (now : Int) (s : KVServer) {r : Request}
    (htype : r.type = .raftInstallSnapshot) (h0 : 0 ≤ s.router.currentTerm)
    (hbase : 0 ≤ s.raftLastIncludedIndex) (h : ¬ r.FailsToInstall) :
    s.ThroughLog now (s.handleInstallSnapshot now r.toInstall).1 ∨
      s.Installed now r (s.handleInstallSnapshot now r.toInstall).1 := by
  by_cases hstale : r.term < s.router.currentTerm
  · left
    rw [handleInstallSnapshot, Request.toInstall, checkTerm_stale hstale]
    exact throughLog_same rfl
  · have hterm := Int.not_lt.mp hstale
    by_cases hzero : r.term = 0
    · left
      rw [handleInstallSnapshot, Request.toInstall, checkTerm_fresh hterm,
        decide_eq_false (not_not.mpr hzero)]
      exact throughLog_same rfl
    · by_cases hcovered : r.lastLogIndex ≤ s.raftLastIncludedIndex
      · left
        rw [handleInstallSnapshot, Request.toInstall, checkTerm_fresh hterm, decide_eq_true hzero]
        simp only [installCovered, decide_eq_true hcovered, if_true]
        exact throughLog_same rfl
      · cases hpayload : decodeSnapshotPayload r.snapshotPayload with
        | none =>
          left
          rw [handleInstallSnapshot, Request.toInstall, checkTerm_fresh hterm,
            decide_eq_true hzero]
          simp only [installCovered, decide_eq_false hcovered, hpayload, installPayload,
            Bool.false_eq_true, if_false]
          exact throughLog_same rfl
        | some entries =>
          right
          have hload : (s.store.replaceWithSnapshot now entries).1 = true := by
            by_contra hrefused
            refine h ⟨htype, by omega, by omega, entries, hpayload, ?_⟩
            exact replaceWithSnapshot_refused.mp (eq_false_of_ne_true hrefused)
          obtain ⟨hstore, -, hsuccess⟩ := handleInstall_loads now s r.toInstall hterm hzero
            hcovered hpayload
          exact ⟨htype, hsuccess.trans hload, entries, hpayload,
            Prod.ext hload hstore.symm⟩

end Log

/-! ## One line -/

section Line

variable {now : Int} {s : KVServer} {env : LineEnv} {r : Request}

/-- The end of `process_request_line`, with Raft. -/
theorem processRequest_data (herror : r.error = []) (hraft : env.raftEnabled = true)
    (htype : r.type ∉ [CommandType.raftRequestVote, .raftAppendEntries,
      .raftInstallSnapshot, .raftStatus, .metrics]) :
    s.processRequest now env r =
      if shouldRoute r.type && !env.leadsFirst then s
      else if isClientWrite r.type && env.leadsSecond then
        (s.replicateRaftWrite now r.toWrite env.followers).1
      else { s with store := (executeLocal env.toLocalEnv now s.store r).store } := by
  unfold processRequest
  rw [if_neg (not_not.mpr herror)]
  cases hr : r.type with
  | raftRequestVote | raftAppendEntries | raftInstallSnapshot | raftStatus | metrics =>
    exact absurd (by simp [hr]) htype
  | _ => simp [hraft]

theorem processRequest_install (herror : r.error = []) (htype : r.type = .raftInstallSnapshot) :
    s.processRequest now env r = (s.handleInstallSnapshot now r.toInstall).1 := by
  unfold processRequest
  rw [if_neg (not_not.mpr herror), htype]
  rfl

/-- A request that makes no way past the log. -/
theorem processRequest_through (hraft : env.raftEnabled = true)
    (h0 : 0 ≤ s.router.currentTerm) (hbase : 0 ≤ s.raftLastIncludedIndex)
    (htimes : ∀ t ∈ env.followers.snapshots, t ≤ now)
    (h : ¬ r.Bypasses env.leadsFirst env.leadsSecond) :
    s.ThroughLog now (s.processRequest now env r) ∨
      s.Installed now r (s.processRequest now env r) := by
  by_cases herror : r.error = []
  · by_cases htype : r.type ∈ [CommandType.raftRequestVote, .raftAppendEntries,
        .raftInstallSnapshot, .raftStatus, .metrics]
    · simp only [List.mem_cons, List.not_mem_nil, or_false] at htype
      rcases htype with htype | htype | htype | htype | htype
      · rw [processRequest, if_neg (not_not.mpr herror), htype]
        exact Or.inl (throughLog_same rfl)
      · rw [processRequest, if_neg (not_not.mpr herror), htype]
        left
        simp only []
        split
        · exact handleAppend_through now s _
        · exact throughLog_same rfl
      · have hinstall : ¬ r.FailsToInstall := fun hf => h ⟨herror, Or.inr hf⟩
        rw [processRequest_install herror htype]
        exact handleInstall_through now s htype h0 hbase hinstall
      · rw [processRequest, if_neg (not_not.mpr herror), htype]
        exact Or.inl (throughLog_same rfl)
      · rw [processRequest, if_neg (not_not.mpr herror), htype]
        refine Or.inl (throughLog_shows (fun key => ?_) rfl)
        show (s.store.setMem (s.store.mem.snapshotEntries now).2).mem.visible now key = _
        rw [setMem_mem]
        exact MemoryStore.snapshotEntries_visible s.store.mem (Int.le_refl now) key
    · left
      rw [processRequest_data herror hraft htype]
      split
      · exact throughLog_same rfl
      · next hroute =>
        split
        · exact replicate_through s _ htimes
        · next hwrite =>
          refine throughLog_shows (fun key => executeLocal_read (fun hlocal => ?_) key) rfl
          refine h ⟨herror, Or.inl ⟨hlocal, fun hclient => ?_⟩⟩
          have hrouted := shouldRoute_of_isClientWrite hclient
          simp only [hrouted, hclient, Bool.true_and, Bool.not_eq_true', Bool.not_eq_false,
            Bool.not_eq_true] at hroute hwrite
          exact ⟨hroute, hwrite⟩
  · left
    rw [processRequest, if_pos herror]
    exact throughLog_same rfl

/-- A write that gets to the switch. -/
theorem processRequest_local (hraft : env.raftEnabled = true) (herror : r.error = [])
    (hlocal : r.WritesLocally)
    (hroles : isClientWrite r.type = true →
      env.leadsFirst = true ∧ env.leadsSecond = false) :
    s.processRequest now env r =
      { s with store := (applyRaftEntryLocked now s.store r.entry).2 } := by
  have hkinds := hlocal.kinds
  rw [processRequest_data herror hraft hkinds.1, ← executeLocal_write hlocal]
  have hroute : ¬ (shouldRoute r.type && !env.leadsFirst) = true := by
    intro h
    obtain ⟨hr, hl⟩ := (Bool.and_eq_true _ _).mp h
    rw [(hroles (hkinds.2 hr)).1] at hl
    cases hl
  have hwrite : ¬ (isClientWrite r.type && env.leadsSecond) = true := by
    intro h
    obtain ⟨hc, hl⟩ := (Bool.and_eq_true _ _).mp h
    rw [(hroles hc).2] at hl
    cases hl
  rw [if_neg hroute, if_neg hwrite]

end Line

/-- The line, once it is parsed, changes the contents of no node but through
its log, if the role is read like this on its way. -/
def OnlyTheLog (line : Str) (leadsFirst leadsSecond : Bool) : Prop :=
  ∀ (now : Int) (s : KVServer) (env : LineEnv), 0 ≤ s.router.currentTerm →
    0 ≤ s.raftLastIncludedIndex → env.raftEnabled = true → env.leadsFirst = leadsFirst →
    env.leadsSecond = leadsSecond → (∀ t ∈ env.followers.snapshots, t ≤ now) →
      s.ThroughLog now (s.processRequest now env (parseRequest line)) ∨
        s.Installed now (parseRequest line) (s.processRequest now env (parseRequest line))

/-! ## Each way past the log shows on some node -/

/-- A store without a limit that has been given one key. -/
def holding (key : Str) : Store :=
  (applyRaftEntryLocked 0 (.memory {}) ⟨1, 1, .put, key, bytes ['v'], 0⟩).2

theorem holding_reads {key : Str} (hkey : key ≠ []) :
    ∃ l, Reads 0 (holding key) l ∧ Recency.visible 0 l key = some ⟨key, bytes ['v'], 0⟩ := by
  have hempty : Reads 0 (.memory {}) [] := ⟨MemoryStore.wf_empty 0, rfl, rfl⟩
  obtain ⟨l, hl, hshow⟩ := applyRaftEntryLocked_shows hempty 0
    ⟨1, 1, .put, key, bytes ['v'], 0⟩
  refine ⟨l, hl, ?_⟩
  rw [hshow key]
  simp [RaftLogEntry.recordAt, hkey, folded, WalRecord.set]

theorem entry_type {r : Request} (h : r.WritesLocally) :
    r.entry.type = .put ∨ r.entry.type = .del ∨ r.entry.type = .expire ∧ 0 < r.ttlSeconds := by
  rcases h with h | ⟨h, hpos⟩
  · simp only [List.mem_cons, List.not_mem_nil, or_false] at h
    rcases h with h | h | h | h | h | h
    all_goals simp [Request.entry, h]
  · simp only [List.mem_cons, List.not_mem_nil, or_false] at h
    rcases h with h | h | h
    all_goals simp [Request.entry, h, hpos]

theorem entry_shows {r : Request} (hlocal : r.WritesLocally) (hkey : r.key ≠ []) :
    ∃ s : Store, (applyRaftEntryLocked 0 s r.entry).2.mem.visible 0 r.key ≠
      s.mem.visible 0 r.key := by
  have hempty : Reads 0 (.memory {}) [] := ⟨MemoryStore.wf_empty 0, rfl, rfl⟩
  obtain ⟨l, hl, hheld⟩ := holding_reads hkey
  -- what the record of the entry makes of the key
  have of_record : ∀ {s : Store} {l : List StoreEntry} {w : WalRecord}, Reads 0 s l →
      r.entry.recordAt 0 = some w →
      w.set r.key (Recency.visible 0 l r.key) ≠ Recency.visible 0 l r.key →
      (applyRaftEntryLocked 0 s r.entry).2.mem.visible 0 r.key ≠ s.mem.visible 0 r.key := by
    intro s l w hs hw hne
    obtain ⟨l', hl', hshow⟩ := applyRaftEntryLocked_shows hs 0 r.entry
    rw [hl'.visible, hs.visible, hshow r.key, hw]
    exact hne
  rcases entry_type hlocal with htype | htype | ⟨htype, hpos⟩
  · have hput : r.entry.recordAt 0 = some (.put r.key r.value
        (if 0 < r.ttlSeconds then 0 + r.ttlSeconds * 1000 else 0)) := by
      rw [RaftLogEntry.recordAt, htype]
      exact if_neg hkey
    refine ⟨.memory {}, of_record hempty hput ?_⟩
    simp [WalRecord.set, Recency.visible]
  · have hdel : r.entry.recordAt 0 = some (.del r.key) := by
      rw [RaftLogEntry.recordAt, htype]
      rfl
    refine ⟨holding r.key, of_record hl hdel ?_⟩
    simp [WalRecord.set, hheld]
  · have hexpire : r.entry.recordAt 0 = some (.expire r.key (0 + r.ttlSeconds * 1000)) := by
      rw [RaftLogEntry.recordAt, htype]
      exact if_pos hpos
    refine ⟨holding r.key, of_record hl hexpire ?_⟩
    simp only [WalRecord.set, hheld, if_true, Option.map_some, ne_eq, Option.some.injEq,
      StoreEntry.mk.injEq, true_and]
    omega

/-- A key that is in the store and not among the entries is gone. -/
theorem refused_shows {entries : List StoreEntry} (h : ∃ e ∈ entries, e.key = []) :
    ∃ (s : Store) (key : Str), (s.replaceWithSnapshot 0 entries).2.mem.visible 0 key ≠
      s.mem.visible 0 key := by
  -- a key longer than any of theirs
  have hfresh : ∀ e ∈ entries, e.key ≠ 0 :: (entries.map StoreEntry.key).flatten := by
    intro e he heq
    have hle : e.key.length ≤ (entries.map StoreEntry.key).flatten.length :=
      (List.sublist_flatten_of_mem (List.mem_map_of_mem he)).length_le
    rw [heq, List.length_cons] at hle
    omega
  have hne : (0 :: (entries.map StoreEntry.key).flatten : Str) ≠ [] := List.cons_ne_nil _ _
  generalize (0 :: (entries.map StoreEntry.key).flatten : Str) = key at hfresh hne
  obtain ⟨l, hl, hheld⟩ := holding_reads hne
  refine ⟨holding key, key, ?_⟩
  rw [hl.visible, hheld, MemoryStore.visible,
    replaceWithSnapshot_lookup (replaceWithSnapshot_refused.mpr h) hfresh]
  intro hvisible
  cases hvisible

end KVServer

open KVServer

/-- Whatever the node, a line changes its contents only through the log
exactly if it is none of the ways past it. -/
theorem only_the_log_iff (line : Str) (leadsFirst leadsSecond : Bool) :
    OnlyTheLog line leadsFirst leadsSecond ↔
      ¬ (parseRequest line).Bypasses leadsFirst leadsSecond := by
  constructor
  · rintro h ⟨herror, hway⟩
    have hnode := fun store => h 0 (fresh threeNodes store 1000)
      { leadsFirst := leadsFirst, leadsSecond := leadsSecond } (Int.le_refl 0) (Int.le_refl 0)
      rfl rfl rfl nofun
    rcases hway with ⟨hlocal, hroles⟩ | ⟨htype, hterm, hindex, entries, hpayload, hempty⟩
    · obtain ⟨store, hshow⟩ := entry_shows hlocal (parseRequest_key line hlocal)
      rcases hnode store with hthrough | hinstalled
      · rw [processRequest_local rfl herror hlocal hroles] at hthrough
        exact hshow (hthrough.shows rfl _)
      · exact absurd (by simp [hinstalled.1]) hlocal.kinds.1
    · obtain ⟨store, key, hshow⟩ := refused_shows hempty
      obtain ⟨hstore, happlied, hsuccess⟩ := handleInstall_loads 0 (fresh threeNodes store 1000)
        (parseRequest line).toInstall (Int.le_of_lt hterm) (Int.ne_of_gt hterm)
        (Int.not_le.mpr hindex) hpayload
      rcases hnode store with hthrough | hinstalled
      · rw [processRequest_install herror htype] at hthrough
        have hsame := hthrough.shows happlied key
        rw [hstore] at hsame
        exact hshow hsame
      · have hrefused : (store.replaceWithSnapshot 0 entries).1 = false :=
          replaceWithSnapshot_refused.mpr hempty
        have haccepted := hsuccess.symm.trans hinstalled.2.1
        rw [show (fresh threeNodes store 1000).store = store from rfl, hrefused] at haccepted
        cases haccepted
  · rintro h now s env hterm hbase hraft rfl rfl htimes
    exact processRequest_through hraft hterm hbase htimes h

/-- A line that any client can send to a follower. -/
theorem replica_put_bypasses : ¬ ∀ line leadsFirst leadsSecond,
    OnlyTheLog line leadsFirst leadsSecond := by
  intro h
  have hline : parseRequest (str "REPL_PUT k v\n") =
      { type := .replicaPut, key := str "k", value := str "v" } := by decide +kernel
  obtain hthrough | hinstalled := h (str "REPL_PUT k v\n") false false 0
    (fresh threeNodes (.memory {}) 1000) { leadsFirst := false, leadsSecond := false }
    (Int.le_refl 0) (Int.le_refl 0) rfl rfl rfl nofun
  · have hlocal : (parseRequest (str "REPL_PUT k v\n")).WritesLocally := by
      rw [hline]
      exact Or.inl (by decide)
    have hstep : (fresh threeNodes (.memory {}) 1000).processRequest 0
        { leadsFirst := false, leadsSecond := false } (parseRequest (str "REPL_PUT k v\n")) =
        fresh threeNodes (.memory (({} : MemoryStore).put 0 (str "k") (str "v")).2) 1000 := by
      rw [processRequest_local rfl (by rw [hline]) hlocal (by rw [hline]; decide), hline]
      rfl
    rw [hstep] at hthrough
    have hsame := hthrough.shows rfl (str "k")
    exact absurd hsame (by decide)
  · have htype := hinstalled.1
    rw [hline] at htype
    cases htype

end TinyKV
