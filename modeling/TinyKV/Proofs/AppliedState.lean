import TinyKV.Model.RaftOperations
import TinyKV.Proofs.KeyLimit
import TinyKV.Proofs.RaftCrashPoints
import TinyKV.Proofs.Replica

/-!
# What a restart makes of the applied entries

A node appends entries, commits and applies them and cuts applied entries off
its log. `raft.state` says how far it has come, so a restart does not apply
them again: their effects have to come back with the store.

With the write-ahead log they do, unless `replay` refuses it because of an
entry with an empty key. Without it the store starts empty while
`last_applied` does not, and what was applied is gone.
-/

namespace TinyKV

open Recency Text

/-! ## Runs -/

/-- A client write without a time to live. -/
abbrev PlainWrite := { r : WriteRequest // isClientWrite r.type = true ∧ r.ttlSeconds ≤ 0 }

inductive LogEvent
  /-- an entry of some term goes behind the last one, as long as its index is an
  `int` -/
  | append (term : Int) (request : PlainWrite)
  /-- the commit index moves up to an entry of the log -/
  | commit (index : Int)
  | restart

/-- A node, with every entry it has appended since it first started. -/
structure LoggedNode where
  server : KVServer
  history : List RaftLogEntry := []

namespace LoggedNode

def nextEntry (n : LoggedNode) (term : Int) (request : WriteRequest) : RaftLogEntry :=
  ⟨n.server.raftLastLogIndex + 1, term, request.type, request.key, request.value,
    request.ttlSeconds⟩

def step (n : LoggedNode) : LogEvent × Int → Option LoggedNode
  | (.append term request, _) =>
    if (n.nextEntry term request.1).InRange then
      some {
        server := (n.server.pushBack (n.nextEntry term request.1)).persistRaftLog.updateLogInfo
        history := n.history ++ [n.nextEntry term request.1] }
    else none
  | (.commit index, now) =>
    if n.server.raftCommitIndex < index ∧ index ≤ n.server.raftLastLogIndex then
      some { n with
        server := KVServer.applyCommittedRaftEntries now
          { n.server with raftCommitIndex := index } }
    else none
  | (.restart, now) =>
    match n.server.restart now with
    | none => none
    | some server => some { n with server := server }

end LoggedNode

/-- Applying entries one after the other to an empty store. -/
def appliedResult (now : Int) (log : List RaftLogEntry) : Store :=
  log.foldl (fun s entry => (applyRaftEntryLocked now s entry).2) (.memory {})

/-- A restart succeeds and shows the result of the entries up to
`last_applied`. -/
def RestoresApplied (n : LoggedNode) : Prop :=
  ∀ now, ∃ s, n.server.restart now = some s ∧
    ∀ key, s.store.mem.visible now key =
      (appliedResult now (n.history.take s.raftLastApplied.toNat)).mem.visible now key

/-- The write-ahead log can be replayed, or, without one, the entries applied
so far leave nothing. -/
def Recoverable (n : LoggedNode) : Prop :=
  match n.server.store with
  | .persistent _ p => p.files.Replayable
  | .memory _ =>
    ∀ now key, (appliedResult now
      (n.history.take n.server.raftLastApplied.toNat)).mem.visible now key = none

/-! ## The store -/

/-- The record an entry without a time to live leaves in the log. -/
def RaftLogEntry.record? (entry : RaftLogEntry) : Option WalRecord :=
  match entry.type with
  | .put => some (.put entry.key entry.value 0)
  | .del => some (.del entry.key)
  | _ => none

def recordsOf (log : List RaftLogEntry) : List WalRecord := log.filterMap RaftLogEntry.record?

variable {entry : RaftLogEntry} {r : WalRecord} {log : List RaftLogEntry} {s : Store}

theorem record?_plain (h : entry.record? = some r) : r.Plain := by
  unfold RaftLogEntry.record? at h
  split at h
  · cases h
    rfl
  · cases h
    trivial
  · cases h

/-- Without deadlines and without a limit a record does to a key what it
says. The empty key is refused. -/
theorem find_on {now : Int} {l : List StoreEntry} (hl : ∀ e ∈ l, e.expireAtMs = 0) (hr : r.Plain)
    {key : Str} (hk : key ≠ []) : find key (r.on 0 now l).2 = r.set key (find key l) := by
  cases r with
  | put k value d =>
    have hd : d = 0 := hr
    subst hd
    rw [WalRecord.on, WalRecord.set]
    by_cases hempty : k = []
    · have hne : k ≠ key := fun h => hk (h.symm.trans hempty)
      rw [if_pos hempty, if_neg hne]
    · rw [if_neg hempty, Recency.put, cap, if_pos rfl,
        purge_timeless (push_timeless hl k value), find_push]
  | expire k d => exact hr.elim
  | del k =>
    show find key (remove k l) = _
    rw [WalRecord.set]
    by_cases h : k = key
    · subst h
      rw [if_pos rfl, find_remove_self]
    · rw [if_neg h, find_remove_ne (Ne.symm h)]

/-- The files of a persistent store and its memory agree on every key. -/
structure Mirrored (p : PersistentMemoryStore) (rs : List WalRecord) (es : List StoreEntry) :
    Prop where
  recorded : Recorded 0 p rs es
  same : ∀ key, key ≠ [] → folded key rs (find key es) = find key p.memory.view

/-- The store holds what the entries make of an empty one. -/
structure StoreHolds (log : List RaftLogEntry) (s : Store) : Prop where
  listable : Listable s.mem
  timeless : ∀ e ∈ s.mem.view, e.expireAtMs = 0
  maxKeys : s.mem.maxKeys = 0
  held : ∀ key, key ≠ [] → find key s.mem.view = folded key (recordsOf log) none
  mirrored : ∀ ord p, s = .persistent ord p → ∃ rs es, Mirrored p rs es

section Update

variable {p : PersistentMemoryStore} {rs : List WalRecord} {es : List StoreEntry}
theorem Mirrored.append (h : Mirrored p rs es) (hr : r.Plain) (now : Int) (ops : Nat) :
    Mirrored { p with
      wal := walAppend p.wal r
      memory := (SteppedStore.applyMemory now p.memory r).2
      opsSinceSnapshot := ops } (rs ++ [r]) es ∧
    ∀ key, key ≠ [] → find key (SteppedStore.applyMemory now p.memory r).2.view =
      r.set key (find key p.memory.view) := by
  have hview := (applyMemory_acts h.recorded.listable.wf now r).view
  rw [h.recorded.maxKeys] at hview
  have hfind : ∀ key, key ≠ [] → find key (SteppedStore.applyMemory now p.memory r).2.view =
      r.set key (find key p.memory.view) := by
    intro key hk
    rw [hview, find_on h.recorded.timeless hr hk]
  refine ⟨⟨h.recorded.append hr now ops, fun key hk => ?_⟩, hfind⟩
  show _ = find key (SteppedStore.applyMemory now p.memory r).2.view
  rw [folded_snoc, h.same key hk, hfind key hk]

theorem Mirrored.snapshot (h : Mirrored p rs es) (ord : IterOrder) (now : Int) (ops : Nat) :
    Mirrored { p with
      memory := (p.memory.snapshotEntries now).2
      snapshot := some (snapshotText (ord.arrange (p.memory.snapshotEntries now).1))
      wal := []
      opsSinceSnapshot := ops } [] (ord.arrange (p.memory.snapshotEntries now).1) ∧
    (p.memory.snapshotEntries now).2.view = p.memory.view := by
  have hview := (MemoryStore.snapshotEntries_spec h.recorded.listable.wf now).2.2.2
  rw [purge_timeless h.recorded.timeless] at hview
  refine ⟨⟨h.recorded.snapshot ord now ops, fun key hk => ?_⟩, hview⟩
  show find key _ = find key (p.memory.snapshotEntries now).2.view
  rw [(snapshotEntries_find h.recorded.listable.wf ord now).2 key, hview]
  exact Timeless.live (fun e he => h.recorded.timeless e (find_mem he)) now

theorem Mirrored.logRecord (h : Mirrored p rs es) (hr : r.Plain) (ord : IterOrder) (now : Int) :
    (∃ rs es, Mirrored (logRecord ord now p r).2 rs es) ∧
      ∀ key, key ≠ [] → find key (logRecord ord now p r).2.memory.view =
        r.set key (find key p.memory.view) := by
  cases hans : (SteppedStore.applyMemory now p.memory r).1 with
  | false =>
    rw [logRecord_rejected hans]
    have happ := h.append hr now p.opsSinceSnapshot
    exact ⟨⟨_, _, happ.1⟩, happ.2⟩
  | true =>
    have happ := h.append hr now (p.opsSinceSnapshot + 1)
    rw [logRecord_accepted hans, PersistentMemoryStore.maybeSnapshotLocked]
    split
    · exact ⟨⟨_, _, happ.1⟩, happ.2⟩
    · obtain ⟨hsnap, hview⟩ := happ.1.snapshot ord now 0
      refine ⟨⟨_, _, hsnap⟩, fun key hk => ?_⟩
      rw [← happ.2 key hk]
      exact congrArg (find key) hview

end Update

/-- What applying an entry comes to. -/
def Store.record (now : Int) (r : WalRecord) : Store → Store
  | .memory m => .memory (SteppedStore.applyMemory now m r).2
  | .persistent ord p => .persistent ord (logRecord ord now p r).2

theorem apply_some (ht : entry.ttlSeconds ≤ 0) (hr : entry.record? = some r) (now : Int)
    (s : Store) :
    (applyRaftEntryLocked now s entry).2 = s.record now r := by
  have hpos : ¬ 0 < entry.ttlSeconds := by omega
  unfold RaftLogEntry.record? at hr
  unfold applyRaftEntryLocked
  split at hr
  · next htype =>
    cases hr
    simp only [htype, if_neg hpos]
    cases s <;> rfl
  · next htype =>
    cases hr
    simp only [htype]
    cases s <;> rfl
  · cases hr

theorem apply_none (ht : entry.ttlSeconds ≤ 0) (hr : entry.record? = none) (now : Int) (s : Store) :
    (applyRaftEntryLocked now s entry).2 = s := by
  unfold RaftLogEntry.record? at hr
  unfold applyRaftEntryLocked
  cases htype : entry.type with
  | put => simp [htype] at hr
  | del => simp [htype] at hr
  | expire => exact expire_le_zero ht now s entry.key
  | _ => rfl

/-- Applying one more entry. -/
theorem StoreHolds.apply (h : StoreHolds log s) (ht : entry.ttlSeconds ≤ 0) (now : Int) :
    StoreHolds (log ++ [entry]) (applyRaftEntryLocked now s entry).2 := by
  cases hr : entry.record? with
  | none =>
    have hrec : recordsOf (log ++ [entry]) = recordsOf log := by simp [recordsOf, hr]
    rw [apply_none ht hr]
    exact ⟨h.listable, h.timeless, h.maxKeys, hrec ▸ h.held, h.mirrored⟩
  | some r =>
    have hrec : recordsOf (log ++ [entry]) = recordsOf log ++ [r] := by simp [recordsOf, hr]
    have hplain := record?_plain hr
    rw [apply_some ht hr]
    cases s with
    | memory m =>
      have hwf : m.WF := h.listable.wf
      have hmax : m.maxKeys = 0 := h.maxKeys
      have hz : ∀ e ∈ m.view, e.expireAtMs = 0 := h.timeless
      have hold : ∀ key, key ≠ [] → find key m.view = folded key (recordsOf log) none :=
        h.held
      have ha := applyMemory_acts hwf now r
      rw [hmax] at ha
      refine ⟨h.listable.applyMemory hplain.inRange now, ?_, ha.maxKeys.trans hmax,
        fun key hk => ?_, by simp [Store.record]⟩
      · show ∀ e ∈ (SteppedStore.applyMemory now m r).2.view, _
        rw [ha.view]
        exact on_timeless hz hplain
      · show find key (SteppedStore.applyMemory now m r).2.view = _
        rw [ha.view, find_on hz hplain hk, hold key hk, hrec, folded_snoc]
    | persistent ord p =>
      obtain ⟨rs, es, hm⟩ := h.mirrored ord p rfl
      obtain ⟨⟨rs', es', hm'⟩, hfind⟩ := hm.logRecord hplain ord now
      refine ⟨hm'.recorded.listable, hm'.recorded.timeless, hm'.recorded.maxKeys,
        fun key hk => ?_, fun ord' p' heq => ?_⟩
      · have hold : find key p.memory.view = folded key (recordsOf log) none :=
          h.held key hk
        show find key (logRecord ord now p r).2.memory.view = _
        rw [hfind key hk, hold, hrec, folded_snoc]
      · injection heq with _ heq
        exact ⟨rs', es', heq ▸ hm'⟩

theorem storeHolds_memory (now : Int) :
    StoreHolds [] (.memory (({} : MemoryStore).setMaxKeys now 0)) := by
  obtain ⟨hwf, hmax, hview⟩ := MemoryStore.setMaxKeys_keeps (MemoryStore.wf_empty 0) now 0
  have hnil : (({} : MemoryStore).setMaxKeys now 0).view = [] := hview
  refine ⟨⟨hwf, ?_⟩, ?_, hmax, fun key _ => ?_, by simp⟩
  · show ∀ e ∈ (({} : MemoryStore).setMaxKeys now 0).view, _
    simp [hnil]
  · show ∀ e ∈ (({} : MemoryStore).setMaxKeys now 0).view, _
    simp [hnil]
  · show find key (({} : MemoryStore).setMaxKeys now 0).view = _
    rw [hnil]
    rfl

/-- Stores that hold the same entries show the same. -/
theorem StoreHolds.visible {t : Store} (h : StoreHolds log s) (h' : StoreHolds log t) (now : Int)
    (key : Str) : s.mem.visible now key = t.mem.visible now key := by
  have hempty : ∀ u : Store, StoreHolds log u → find [] u.mem.view = none := by
    intro u hu
    cases hf : find [] u.mem.view with
    | none => rfl
    | some e => exact absurd (find_key hf) (hu.listable.printable e (find_mem hf)).1
  rw [MemoryStore.visible_eq h.listable.wf, MemoryStore.visible_eq h'.listable.wf,
    Recency.visible, Recency.visible]
  by_cases hk : key = []
  · rw [hk, hempty s h, hempty t h']
  · rw [h.held key hk, h'.held key hk]

theorem storeHolds_result (now : Int) (h : ∀ e ∈ log, e.ttlSeconds ≤ 0) :
    StoreHolds log (appliedResult now log) := by
  have hrun : ∀ (rest done : List RaftLogEntry) (s : Store), (∀ e ∈ rest, e.ttlSeconds ≤ 0) →
      StoreHolds done s → StoreHolds (done ++ rest)
        (rest.foldl (fun s entry => (applyRaftEntryLocked now s entry).2) s) := by
    intro rest
    induction rest with
    | nil =>
      intro done s _ hs
      rw [List.append_nil]
      exact hs
    | cons entry rest ih =>
      intro done s ht hs
      have hnext := ih (done ++ [entry]) _ (fun e he => ht e (List.mem_cons_of_mem _ he))
        (hs.apply (ht entry List.mem_cons_self) now)
      rw [List.append_assoc] at hnext
      exact hnext
  exact hrun log [] _ h (storeHolds_memory now)

/-! ### Its restart -/

/-- No record that `replay` takes is a put of the empty key. -/
theorem folded_empty {rs : List WalRecord} (h : ∀ r ∈ rs, r.Plain ∧ r.Ok) :
    folded [] rs none = none := by
  induction rs using List.reverseRecOn with
  | nil => rfl
  | append_singleton rs r ih =>
    rw [folded_snoc, ih fun r' hr => h r' (List.mem_append_left _ hr)]
    obtain ⟨hp, hok⟩ := h r (List.mem_append_right _ List.mem_cons_self)
    cases r with
    | put key value d => rw [WalRecord.set, if_neg hok.1]
    | expire key d => exact hp.elim
    | del key => simp [WalRecord.set]

theorem Mirrored.restart {p : PersistentMemoryStore} {rs : List WalRecord}
    {es : List StoreEntry} (h : Mirrored p rs es) (hok : ∀ r ∈ rs, r.Ok) (ord : IterOrder)
    (now : Int) :
    ∃ p', (Store.persistent ord p).restart now = .ok (.persistent ord p') ∧ Mirrored p' rs es ∧
      ∀ key, key ≠ [] → find key p'.memory.view = find key p.memory.view := by
  have hholds := h.recorded.holds hok
  obtain ⟨s, hinit, hw, hfind⟩ :=
    init_writtenIn hholds h.recorded.plain now p.snapshotThreshold
  obtain ⟨hwal, hsnap⟩ : s.wal = p.wal ∧ s.snapshot = p.snapshot := by
    rw [hholds.init_eq (fun _ => Timeless.inRange)] at hinit
    injection hinit with hinit
    rw [← hinit]
    exact ⟨rfl, rfl⟩
  obtain ⟨hwf, hmax, hview⟩ := MemoryStore.setMaxKeys_keeps hw.mem.wf now 0
  rw [purge_timeless hw.timeless, cap, if_pos rfl] at hview
  have hmem : ∀ e ∈ (s.memory.setMaxKeys now 0).view,
      folded e.key rs (find e.key es) = some e := by
    intro e he
    rw [hview] at he
    rw [← hfind e.key]
    exact find_of_mem (MemoryStore.view_distinct hw.mem.wf) he
  have hnone : find [] es = none :=
    find_eq_none.mpr fun e he => (h.recorded.saved.entries e he).1
  have hrec : Recorded 0 { s with memory := s.memory.setMaxKeys now 0 } rs es := by
    refine ⟨⟨hwf, fun e he => ⟨fun hk => ?_, ?_⟩⟩, ?_, hmax, hwal.trans h.recorded.wal,
      h.recorded.plain, ?_, fun key e he => ?_⟩
    · have hsome := hmem e he
      rw [hk, hnone, folded_empty fun r hr => ⟨h.recorded.plain r hr, hok r hr⟩] at hsome
      cases hsome
    · have he : e ∈ (s.memory.setMaxKeys now 0).view := he
      rw [hview] at he
      rw [hw.timeless e he]
      decide
    · show ∀ e ∈ (s.memory.setMaxKeys now 0).view, _
      rw [hview]
      exact hw.timeless
    · show (⟨[], s.snapshot⟩ : StoreFiles).Holds Timeless [] es
      rw [hsnap]
      exact h.recorded.saved
    · have he : find key (s.memory.setMaxKeys now 0).view = some e := he
      rw [hview, hfind] at he
      exact he
  refine ⟨{ s with memory := s.memory.setMaxKeys now 0 }, ?_, ⟨hrec, fun key _ => ?_⟩,
    fun key hk => ?_⟩
  · have hinit' : PersistentMemoryStore.init now p.wal p.snapshot p.snapshotThreshold = .ok s :=
      hinit
    rw [Store.restart, Store.init, if_pos rfl, hinit', h.recorded.maxKeys]
    rfl
  · show _ = find key (s.memory.setMaxKeys now 0).view
    rw [hview, hfind]
  · show find key (s.memory.setMaxKeys now 0).view = _
    rw [hview, hfind, h.same key hk]

/-- A persistent store comes back with what it held exactly if its log can be
replayed. -/
theorem StoreHolds.restart_persistent {ord : IterOrder} {p : PersistentMemoryStore}
    (h : StoreHolds log (.persistent ord p)) (now : Int) :
    (p.files.Replayable → ∃ p', (Store.persistent ord p).restart now =
      .ok (.persistent ord p') ∧ StoreHolds log (.persistent ord p')) ∧
    (¬ p.files.Replayable → (Store.persistent ord p).restart now = .error .malformed) := by
  obtain ⟨rs, es, hm⟩ := h.mirrored ord p rfl
  rw [replayable_iff hm.recorded.wal hm.recorded.plain]
  constructor
  · intro hok
    obtain ⟨p', hp', hm', hfind⟩ := hm.restart hok ord now
    refine ⟨p', hp', hm'.recorded.listable, hm'.recorded.timeless, hm'.recorded.maxKeys,
      fun key hk => ?_, fun ord' q heq => ?_⟩
    · have hold : find key p.memory.view = folded key (recordsOf log) none := h.held key hk
      show find key p'.memory.view = _
      rw [hfind key hk, hold]
    · injection heq with _ heq
      exact ⟨rs, es, heq ▸ hm'⟩
  · exact fun hbad => hm.recorded.not_restart ord hbad now

/-! ## The node -/

/-- A store without a limit that, if it is persistent, holds the entries. -/
structure Durable (log : List RaftLogEntry) (s : Store) : Prop where
  wf : s.mem.WF
  maxKeys : s.mem.maxKeys = 0
  holds : ∀ ord p, s = .persistent ord p → StoreHolds log s

theorem StoreHolds.durable (h : StoreHolds log s) : Durable log s :=
  ⟨h.listable.wf, h.maxKeys, fun _ _ _ => h⟩

theorem Durable.apply (h : Durable log s) (ht : entry.ttlSeconds ≤ 0) (now : Int) :
    Durable (log ++ [entry]) (applyRaftEntryLocked now s entry).2 := by
  cases s with
  | persistent ord p => exact ((h.holds ord p rfl).apply ht now).durable
  | memory m =>
    cases hr : entry.record? with
    | none =>
      rw [apply_none ht hr]
      exact ⟨h.wf, h.maxKeys, by simp⟩
    | some r =>
      have hwf : m.WF := h.wf
      have ha := applyMemory_acts hwf now r
      rw [apply_some ht hr]
      exact ⟨ha.wf, ha.maxKeys.trans h.maxKeys, by simp [Store.record]⟩

/-- A server whose log is the history from its base on, and which has applied
the first `a` of the `c` committed entries. -/
structure NodeTracks (s : KVServer) (history : List RaftLogEntry) (b a c : Nat) : Prop where
  base : s.raftLastIncludedIndex = b
  applied : s.raftLastApplied = a
  commit : s.raftCommitIndex = c
  base_le : b ≤ a
  applied_le : a ≤ c
  commit_le : c ≤ history.length
  indexed : Contiguous 0 history
  plain : ∀ e ∈ history, e.Logged ∧ e.ttlSeconds ≤ 0
  log : s.raftLog = history.drop b
  entries : s.disk.entries? = some s.raftLog
  store : Durable (history.take a) s.store
  baseTerm : InRange32 s.raftLastIncludedTerm

/-- Between two requests everything committed is applied, and `raft.state`
says so. -/
structure NodeSettled (s : KVServer) (history : List RaftLogEntry) (b a : Nat) : Prop where
  tracks : NodeTracks s history b a a
  indices : loadRaftIndices s.raftStateFile = s.raftIndices

section Node

variable {s : KVServer} {history : List RaftLogEntry} {b a c : Nat}

theorem NodeTracks.contiguous (h : NodeTracks s history b a c) : s.LogContiguous := by
  intro j entry hj
  rw [h.log, List.getElem?_drop] at hj
  have hidx := h.indexed (b + j) entry hj
  rw [h.base]
  omega

theorem NodeTracks.lastLogIndex (h : NodeTracks s history b a c) :
    s.raftLastLogIndex = history.length := by
  have hbl := h.base_le
  have hal := h.applied_le
  have hcl := h.commit_le
  rw [KVServer.lastLogIndex_eq h.contiguous, h.base, h.log, List.length_drop]
  omega

theorem NodeTracks.applyNext (h : NodeTracks s history b a c) (hlt : a < c) (now : Int)
    {entry : RaftLogEntry} (he : history[a]? = some entry) :
    NodeTracks (s.applyNext now entry) history b (a + 1) c := by
  have hidx := h.indexed a entry he
  have hstore := h.store.apply (h.plain entry (List.mem_of_getElem? he)).2 now
  have htake : history.take (a + 1) = history.take a ++ [entry] := by
    rw [List.take_add_one, he]
    rfl
  refine ⟨h.base, ?_, h.commit, by have := h.base_le; omega, hlt, h.commit_le, h.indexed,
    h.plain, h.log, h.entries, ?_, h.baseTerm⟩
  · show entry.index = _
    rw [hidx]
    push_cast
    omega
  · rw [htake]
    exact hstore

/-- The indices are those of entries. -/
theorem NodeTracks.inRange (h : NodeTracks s history b a c) : s.raftIndices.InRange := by
  have hbl := h.base_le
  have hal := h.applied_le
  have hcl := h.commit_le
  have hindex : ∀ k : Nat, k ≤ history.length → InRange32 k := by
    intro k hk
    cases k with
    | zero => exact ⟨by decide, by decide⟩
    | succ k =>
      have he := List.getElem?_eq_getElem (l := history) (i := k) hk
      have hrange := (h.plain _ (List.mem_of_getElem? he)).1.2.1
      rw [h.indexed k _ he] at hrange
      have hcast : ((k + 1 : Nat) : Int) = 0 + 1 + k := by omega
      rw [hcast]
      exact hrange
  refine ⟨?_, ?_, ?_, h.baseTerm⟩
  · show InRange32 s.raftCommitIndex
    rw [h.commit]
    exact hindex c hcl
  · show InRange32 s.raftLastApplied
    rw [h.applied]
    exact hindex a (by omega)
  · show InRange32 s.raftLastIncludedIndex
    rw [h.base]
    exact hindex b (by omega)

theorem NodeTracks.persistRaftState (h : NodeTracks s history b a a) :
    NodeSettled s.persistRaftState history b a := by
  refine ⟨⟨h.base, h.applied, h.commit, h.base_le, h.applied_le, h.commit_le, h.indexed, h.plain,
    h.log, h.entries, h.store, h.baseTerm⟩, ?_⟩
  exact loadRaftIndices_text h.inRange

theorem NodeTracks.rebase (h : NodeTracks s history b a a) {term : Int} (hterm : InRange32 term) :
    NodeTracks (s.rebase s.raftLastApplied term) history a a a := by
  have hbl := h.base_le
  have hle : s.raftLastIncludedIndex ≤ s.raftLastApplied := by
    rw [h.base, h.applied]
    omega
  obtain ⟨hf, -⟩ := h.contiguous.filter hle
  have hlog : (s.rebase s.raftLastApplied term).raftLog = history.drop a := by
    show s.raftLog.filter _ = _
    rw [hf, h.log, List.drop_drop, h.applied, h.base]
    congr 1
    omega
  refine ⟨h.applied, h.applied, h.commit, Nat.le_refl a, Nat.le_refl a, h.commit_le, h.indexed,
    h.plain, hlog, ?_, h.store, hterm⟩
  refine loadRaftLog_logged fun e he => ?_
  have he : e ∈ (s.rebase s.raftLastApplied term).raftLog := he
  rw [hlog] at he
  exact (h.plain e (List.mem_of_mem_drop he)).1

/-- Whatever is committed is applied, and the log may be cut off there. -/
theorem NodeTracks.applyCommitted (h : NodeTracks s history b a c) (now : Int) :
    ∃ b', NodeSettled (s.applyCommittedRaftEntries now) history b' c := by
  have hbl := h.base_le
  have hcl := h.commit_le
  have hal := h.applied_le
  have hreach : s.reach = c := by
    rw [KVServer.reach, h.lastLogIndex, h.applied, h.base, h.commit]
    omega
  refine KVServer.applyCommitted_elim (P := fun t => ∃ a', NodeTracks t history b a' c)
    (Q := fun t => ∃ b', NodeSettled t history b' c) ⟨a, ?_⟩ ?_ ?_ ?_
  · rw [Int.max_eq_left (by rw [h.base, h.applied]; omega)]
    exact h
  · rintro t offset entry ⟨a', ht⟩ hlt hoff hget
    rw [ht.applied, ht.commit] at hlt
    have hoff := (KVServer.logOffset_eq_some.mp hoff).1
    rw [ht.applied, ht.base] at hoff
    rw [ht.log, List.getElem?_drop, show b + offset = a' by omega] at hget
    exact ⟨a' + 1, ht.applyNext (by omega) now hget⟩
  · rintro t ⟨a', ht⟩ hlast
    obtain rfl : a' = c := by
      have := hlast h.contiguous
      rw [ht.applied, hreach] at this
      omega
    exact ⟨b, ht.persistRaftState⟩
  · rintro t ⟨a', ht⟩ hlast _ _
    obtain rfl : a' = c := by
      have := hlast h.contiguous
      rw [ht.applied, hreach] at this
      omega
    have hlogged : ∀ e ∈ t.raftLog, e.Logged := by
      intro e he
      rw [ht.log] at he
      exact (ht.plain e (List.mem_of_mem_drop he)).1
    exact ⟨a', (ht.rebase (KVServer.termAt_inRange hlogged ht.baseTerm _)).persistRaftState⟩

theorem NodeSettled.append (h : NodeSettled s history b a) {term : Int} {request : PlainWrite}
    (hrange : (LoggedNode.nextEntry ⟨s, history⟩ term request.1).InRange) :
    NodeSettled ((s.pushBack (LoggedNode.nextEntry ⟨s, history⟩ term
        request.1)).persistRaftLog.updateLogInfo)
      (history ++ [LoggedNode.nextEntry ⟨s, history⟩ term request.1]) b a := by
  have ht := h.tracks
  have hbl := ht.base_le
  have hcl := ht.commit_le
  have hindex : (LoggedNode.nextEntry ⟨s, history⟩ term request.1).index =
      history.length + 1 := by
    show s.raftLastLogIndex + 1 = _
    rw [ht.lastLogIndex]
  have hlogged : (LoggedNode.nextEntry ⟨s, history⟩ term request.1).Logged := by
    have hc := request.2.1
    simp only [isClientWrite, Bool.or_eq_true, decide_eq_true_eq] at hc
    exact ⟨or_assoc.mp hc, hrange⟩
  have hplain : ∀ e ∈ history ++ [LoggedNode.nextEntry ⟨s, history⟩ term request.1],
      e.Logged ∧ e.ttlSeconds ≤ 0 := by
    intro e he
    rcases List.mem_append.mp he with he | he
    · exact ht.plain e he
    · rw [List.mem_singleton.mp he]
      exact ⟨hlogged, request.2.2⟩
  refine ⟨⟨ht.base, ht.applied, ht.commit, hbl, Nat.le_refl a, ?_, ?_, hplain, ?_, ?_, ?_,
    ht.baseTerm⟩, h.indices⟩
  · rw [List.length_append]
    omega
  · refine ht.indexed.append fun j e he => ?_
    cases j with
    | zero =>
      injection he with he
      rw [← he, hindex]
      simp
    | succ j => cases he
  · show s.raftLog ++ _ = _
    rw [ht.log, List.drop_append_of_le_length (by omega)]
  · refine loadRaftLog_logged fun e he => ?_
    have he : e ∈ s.raftLog ++ [_] := he
    rw [ht.log] at he
    rcases List.mem_append.mp he with he | he
    · exact (ht.plain e (List.mem_of_mem_drop he)).1
    · rw [List.mem_singleton.mp he]
      exact hlogged
  · rw [List.take_append_of_le_length (by omega)]
    exact ht.store

theorem NodeSettled.commit (h : NodeSettled s history b a) {index : Int}
    (hlt : s.raftCommitIndex < index) (hle : index ≤ s.raftLastLogIndex) (now : Int) :
    ∃ b' a', NodeSettled (KVServer.applyCommittedRaftEntries now
      { s with raftCommitIndex := index }) history b' a' := by
  have ht := h.tracks
  rw [ht.commit] at hlt
  rw [ht.lastLogIndex] at hle
  have hc : index = (index.toNat : Int) := by omega
  have hpending : NodeTracks { s with raftCommitIndex := index } history b a index.toNat :=
    ⟨ht.base, ht.applied, hc, ht.base_le, by omega, by omega, ht.indexed, ht.plain, ht.log,
      ht.entries, ht.store, ht.baseTerm⟩
  obtain ⟨b', hb⟩ := hpending.applyCommitted now
  exact ⟨b', _, hb⟩

/-! ### Its restart -/

/-- The files of a settled node say what the node knows. -/
theorem loadRaftState_settled (hentries : s.disk.entries? = some s.raftLog)
    (hindices : loadRaftIndices s.raftStateFile = s.raftIndices)
    (hbase : s.raftLastIncludedIndex ≤ s.raftLastApplied)
    (happlied : s.raftLastApplied ≤ s.raftCommitIndex)
    (hcommit : s.raftCommitIndex ≤ s.raftLastLogIndex) : s.loadRaftState = some s := by
  have hmin : min s.raftLastApplied s.raftCommitIndex = s.raftLastApplied := by omega
  unfold KVServer.loadRaftState
  simp only [hindices, KVServer.raftIndices, hmin]
  cases hf : s.raftLogFile with
  | none =>
    have hnil : [] = s.raftLog := by
      simpa [RaftDisk.entries?, KVServer.disk, hf] using hentries
    simp only [hnil]
    rw [← hf]
  | some text =>
    have hlog : loadRaftLog text = some s.raftLog := by
      simpa [RaftDisk.entries?, KVServer.disk, hf] using hentries
    have hmax : max s.raftLastIncludedIndex (min s.raftCommitIndex s.raftLastLogIndex) =
        s.raftCommitIndex := by omega
    have hmax' : max s.raftLastIncludedIndex s.raftLastApplied = s.raftLastApplied := by omega
    simp only [hlog]
    rw [← hf]
    show some { s with
        raftCommitIndex := max s.raftLastIncludedIndex
          (min s.raftCommitIndex s.raftLastLogIndex)
        raftLastApplied := max s.raftLastIncludedIndex (min s.raftLastApplied
          (max s.raftLastIncludedIndex (min s.raftCommitIndex s.raftLastLogIndex))) } =
      some s
    rw [hmax, hmin, hmax']

/-- With nothing left to apply the store stays. -/
theorem NodeTracks.applyCommitted_store (h : NodeTracks s history b a a) (now : Int) :
    (s.applyCommittedRaftEntries now).store = s.store := by
  have hbl := h.base_le
  have hdone : s.raftCommitIndex ≤ max s.raftLastApplied s.raftLastIncludedIndex := by
    rw [h.commit, h.applied, h.base]
    omega
  refine KVServer.applyCommitted_elim (P := fun t => t.store = s.store ∧
    t.raftCommitIndex ≤ t.raftLastApplied) (Q := fun t => t.store = s.store) ⟨rfl, hdone⟩ ?_
    (fun _ ht _ => ht.1) fun _ ht _ _ _ => ht.1
  intro t _ _ ht hlt
  exact absurd hlt (Int.not_lt.mpr ht.2)

/-- A settled node starts again where it was, with the store that came back. -/
theorem NodeSettled.restart (h : NodeSettled s history b a) (now : Int) {store : Store}
    (hs : s.store.restart now = .ok store) (hstore : Durable (history.take a) store) :
    ∃ t b', s.restart now = some t ∧ t.store = store ∧ NodeSettled t history b' a := by
  have ht := h.tracks
  have hbl := ht.base_le
  have hcl := ht.commit_le
  let u : KVServer := { s with store := store, router := s.router.restart }
  have hload : u.loadRaftState = some u := by
    refine loadRaftState_settled ht.entries h.indices ?_ ?_ ?_
    · show s.raftLastIncludedIndex ≤ s.raftLastApplied
      rw [ht.base, ht.applied]
      omega
    · show s.raftLastApplied ≤ s.raftCommitIndex
      exact Int.le_of_eq (ht.applied.trans ht.commit.symm)
    · show s.raftCommitIndex ≤ s.raftLastLogIndex
      rw [ht.commit, ht.lastLogIndex]
      omega
  have hu : NodeTracks u.updateLogInfo history b a a :=
    ⟨ht.base, ht.applied, ht.commit, hbl, Nat.le_refl a, hcl, ht.indexed, ht.plain, ht.log,
      ht.entries, hstore, ht.baseTerm⟩
  obtain ⟨b', hsettled⟩ := hu.applyCommitted now
  refine ⟨_, b', ?_, ?_, hsettled⟩
  · rw [KVServer.restart, hs]
    show (match u.loadRaftState with
      | none => none
      | some s => some (KVServer.applyCommittedRaftEntries now s.updateLogInfo)) = _
    rw [hload]
  · exact hu.applyCommitted_store now

theorem durable_empty (log : List RaftLogEntry) (now : Int) :
    Durable log (.memory (({} : MemoryStore).setMaxKeys now 0)) :=
  ⟨(storeHolds_memory now).listable.wf, (storeHolds_memory now).maxKeys, by simp⟩

/-- What the store of a settled node makes of a restart. -/
theorem NodeSettled.store_restart (h : NodeSettled s history b a) (now : Int) {store : Store}
    (hs : s.store.restart now = .ok store) : Durable (history.take a) store := by
  cases hst : s.store with
  | memory m =>
    have hd := h.tracks.store
    rw [hst] at hd hs
    have hmax : m.maxKeys = 0 := hd.maxKeys
    rw [Store.restart, Store.init, hmax] at hs
    injection hs with hs
    rw [← hs]
    exact durable_empty _ now
  | persistent ord p =>
    have hholds := h.tracks.store.holds ord p hst
    rw [hst] at hholds hs
    obtain ⟨hgood, hbad⟩ := hholds.restart_persistent now
    by_cases hrep : p.files.Replayable
    · obtain ⟨p', hp', hh⟩ := hgood hrep
      rw [hp'] at hs
      injection hs with hs
      rw [← hs]
      exact hh.durable
    · rw [hbad hrep] at hs
      cases hs

end Node

theorem nodeSettled_step {n t : LoggedNode} {e : LogEvent × Int}
    (h : ∃ b a, NodeSettled n.server n.history b a) (hs : n.step e = some t) :
    ∃ b a, NodeSettled t.server t.history b a := by
  obtain ⟨b, a, h⟩ := h
  obtain ⟨e, now⟩ := e
  cases e with
  | append term request =>
    rw [LoggedNode.step] at hs
    split at hs
    · next hrange =>
      injection hs with hs
      subst hs
      exact ⟨b, a, h.append hrange⟩
    · cases hs
  | commit index =>
    rw [LoggedNode.step] at hs
    split at hs
    · next hidx =>
      injection hs with hs
      subst hs
      exact h.commit hidx.1 hidx.2 now
    · cases hs
  | restart =>
    rw [LoggedNode.step] at hs
    cases hstore : n.server.store.restart now with
    | error _ => simp [KVServer.restart, hstore] at hs
    | ok store =>
      obtain ⟨u, b', hu, -, hsettled⟩ := h.restart now hstore (h.store_restart now hstore)
      rw [hu] at hs
      injection hs with hs
      subst hs
      exact ⟨b', a, hsettled⟩

theorem durable_init {cfg : StoreConfig} (hmax : cfg.maxKeys = 0) {ord : IterOrder}
    {start : Int} {store : Store} (h : Store.init cfg ord start [] none = .ok store) :
    Durable [] store := by
  rw [Store.init, hmax] at h
  split at h
  · have hempty := storeHolds_memory start
    have hheld : StoreHolds [] (.persistent ord (limited cfg.snapshotThreshold 0 start)) := by
      refine ⟨hempty.listable, hempty.timeless, hempty.maxKeys, hempty.held,
        fun ord' p heq => ⟨[], [], ?_, fun key hk => ?_⟩⟩
      · injection heq with _ heq
        rw [← heq]
        exact recorded_limited cfg.snapshotThreshold 0 start
      · injection heq with _ heq
        rw [← heq]
        exact (hempty.held key hk).symm
    injection h with h
    rw [← h]
    exact hheld.durable
  · injection h with h
    rw [← h]
    exact durable_empty _ start

/-- A settled node comes back with what it applied exactly if its store
does. -/
theorem NodeSettled.restores_iff {n : LoggedNode} {b a : Nat}
    (h : NodeSettled n.server n.history b a) : RestoresApplied n ↔ Recoverable n := by
  have ht := h.tracks
  have hresult : ∀ now, StoreHolds (n.history.take a) (appliedResult now (n.history.take a)) :=
    fun now => storeHolds_result now fun e he => (ht.plain e (List.mem_of_mem_take he)).2
  have hback : ∀ now store, n.server.store.restart now = .ok store →
      ∃ t, n.server.restart now = some t ∧ t.store = store ∧ t.raftLastApplied.toNat = a := by
    intro now store hs
    obtain ⟨t, b', hr, hst, hsettled⟩ := h.restart now hs (h.store_restart now hs)
    exact ⟨t, hr, hst, by rw [hsettled.tracks.applied, Int.toNat_natCast]⟩
  have happlied : n.server.raftLastApplied.toNat = a := by
    rw [ht.applied, Int.toNat_natCast]
  unfold RestoresApplied Recoverable
  cases hst : n.server.store with
  | memory m =>
    have hs : ∀ now, n.server.store.restart now =
        .ok (.memory (({} : MemoryStore).setMaxKeys now 0)) := by
      intro now
      have hmax : m.maxKeys = 0 := by
        have hd := ht.store.maxKeys
        rw [hst] at hd
        exact hd
      rw [hst, Store.restart, Store.init, hmax]
      rfl
    have hnone : ∀ now key, (({} : MemoryStore).setMaxKeys now 0).visible now key = none := by
      intro now key
      exact (storeHolds_memory now).visible (@storeHolds_result [] now (by simp)) now key
    simp only [happlied]
    constructor
    · intro hr now key
      obtain ⟨t, ht, hshow⟩ := hr now
      obtain ⟨t', ht', hstore, ha⟩ := hback now _ (hs now)
      rw [ht] at ht'
      injection ht' with ht'
      subst ht'
      have hkey := hshow key
      rw [hstore, ha] at hkey
      exact hkey.symm.trans (hnone now key)
    · intro hr now
      obtain ⟨t, ht, hstore, ha⟩ := hback now _ (hs now)
      refine ⟨t, ht, fun key => ?_⟩
      rw [hstore, ha, hr now key]
      exact hnone now key
  | persistent ord p =>
    have hholds := ht.store.holds ord p hst
    rw [hst] at hholds
    simp only []
    constructor
    · intro hr
      by_contra hbad
      obtain ⟨t, ht, -⟩ := hr 0
      have herr : n.server.store.restart 0 = .error .malformed := by
        rw [hst]
        exact (hholds.restart_persistent 0).2 hbad
      simp [KVServer.restart, herr] at ht
    · intro hrep now
      obtain ⟨p', hp', hholds'⟩ := (hholds.restart_persistent now).1 hrep
      rw [← hst] at hp'
      obtain ⟨t, ht, hstore, ha⟩ := hback now _ hp'
      refine ⟨t, ht, fun key => ?_⟩
      rw [hstore, ha]
      exact hholds'.visible (hresult now) now key

/-- Wherever a run of appends, commits and restarts ends, a restart shows
what was applied exactly if the store can bring it back. -/
theorem restoresApplied_iff (cfg : StoreConfig) (hmax : cfg.maxKeys = 0) (ord : IterOrder)
    (start : Int) (store : Store) (hinit : Store.init cfg ord start [] none = .ok store)
    (router : Router) (es : List (LogEvent × Int)) (n : LoggedNode)
    (hrun : Runs.run LoggedNode.step
      ⟨.fresh router store (max 1 cfg.snapshotThreshold), []⟩ es = some n) :
    RestoresApplied n ↔ Recoverable n := by
  have hfresh : NodeSettled (.fresh router store (max 1 cfg.snapshotThreshold)) [] 0 0 :=
    ⟨⟨rfl, rfl, rfl, Nat.le_refl 0, Nat.le_refl 0, Nat.le_refl 0, contiguous_nil 0, by simp, rfl,
      rfl, durable_init hmax hinit, show InRange32 0 by decide⟩, rfl⟩
  obtain ⟨b, a, h⟩ := Runs.inv_of_run
    (I := fun n : LoggedNode => ∃ b a, NodeSettled n.server n.history b a)
    (fun _ _ _ h hs => nodeSettled_step h hs) ⟨0, 0, hfresh⟩ hrun
  exact h.restores_iff

section Example

def putK : PlainWrite := ⟨putRequest 'k' 'v', by decide⟩

/-- One entry, committed and applied. -/
def oneApplied : List (LogEvent × Int) := [(.append 1 putK, 0), (.commit 1, 1)]

/-- With the write-ahead log. -/
theorem restoresApplied_iff_logged :
    ∃ n, Runs.run LoggedNode.step
        ⟨.fresh threeNodes (.persistent .asStored (limited 1000 0 0)) 1000, []⟩ oneApplied =
          some n ∧ n.server.raftLastApplied = 1 ∧ RestoresApplied n := by
  obtain ⟨n, hn⟩ : ∃ n, Runs.run LoggedNode.step
      ⟨.fresh threeNodes (.persistent .asStored (limited 1000 0 0)) 1000, []⟩ oneApplied =
        some n := ⟨_, rfl⟩
  have hiff := restoresApplied_iff ⟨true, 1000, 0⟩ rfl .asStored 0 _ rfl threeNodes oneApplied n hn
  injection hn with hn
  refine ⟨n, by rw [← hn]; rfl, by rw [← hn]; rfl, hiff.mpr ?_⟩
  have hwal : (logRecord .asStored 1 (limited 1000 0 0)
      (.put (bytes ['k']) (bytes ['v']) 0)).2.files.wal =
        walText [.put (bytes ['k']) (bytes ['v']) 0] := by
    decide +kernel
  rw [← hn]
  show (logRecord .asStored 1 (limited 1000 0 0)
    (.put (bytes ['k']) (bytes ['v']) 0)).2.files.Replayable
  refine (replayable_iff hwal ?_).mpr ?_
  · simp [WalRecord.Plain]
  · simp [WalRecord.Ok, bytes, InRange64]

/-- Without it the store starts empty, and `last_applied` is one. -/
theorem memory_store_forgets_applied :
    ¬ ∀ (cfg : StoreConfig), cfg.maxKeys = 0 → ∀ (ord : IterOrder) (start : Int) (store : Store),
      Store.init cfg ord start [] none = .ok store →
      ∀ (router : Router) (es : List (LogEvent × Int)) (n : LoggedNode),
        Runs.run LoggedNode.step ⟨.fresh router store (max 1 cfg.snapshotThreshold), []⟩ es =
          some n → RestoresApplied n := by
  intro h
  obtain ⟨s, hs, hshow⟩ := h {} rfl .asStored 0 _ rfl threeNodes oneApplied _ rfl 5
  have hk := hshow (bytes ['k'])
  injection hs with hs
  rw [← hs] at hk
  have hlost : (none : Option StoreEntry) = some ⟨bytes ['k'], bytes ['v'], 0⟩ := hk
  cases hlost

end Example

end TinyKV
