import TinyKV.Model.Store
import TinyKV.Proofs.FailedCompaction
import TinyKV.Proofs.RejectedCalls

/-!
# Recovery under a limit on the number of keys

The limit makes the memory forget the least recently used key, and neither
the eviction nor the reads that decide about it are written to the log.
`init` replays without a limit, so it brings back every key the files know,
ordered by when they were last written, and `set_max_keys` then keeps the
front of that order.

What comes back is therefore right exactly when the keys in the memory are
the ones written last, among those the files know. The value of a key needs
no condition: a key in the memory has the value the files give it.
-/

namespace TinyKV

open Recency

/-! ## The order in which the files were written -/

def orderEntry (order : List Str) (line : Str) : List Str :=
  match snapshotKey line with
  | some key => key :: order.filter fun k => !decide (k = key)
  | none => order

def orderLine (order : List Str) (line : Str) : List Str :=
  match Text.splitOn 9 line with
  | tag :: k :: _ =>
    match unescape k with
    | some key =>
      if tag = tagPut then key :: order.filter fun k => !decide (k = key)
      else if tag = tagDel then order.filter fun k => !decide (k = key)
      else order
    | none => order
  | _ => order

/-- The keys the files know, most recently written first: those of the
snapshot in the order it lists them, then what the log does to them. -/
def StoreFiles.writeOrder (f : StoreFiles) : List Str :=
  f.walLines.foldl orderLine (f.snapshotLines.foldl orderEntry [])

/-- The log has no put of the empty key, which `replay` refuses. -/
def StoreFiles.Replayable (f : StoreFiles) : Prop :=
  ∀ line ∈ f.walLines, ∀ value d, line ≠ (WalRecord.put [] value d).line

/-! ## Runs -/

inductive LimitOp
  | put (key value : Str)
  | get (key : Str)
  | del (key : Str)
  deriving DecidableEq, Repr

def LimitOp.call : LimitOp → StoreCall
  | .put key value => .put key value
  | .get key => .read (.get key)
  | .del key => .del key

/-- A store initialised on no files, with its limit set. -/
def limited (threshold maxKeys : Nat) (start : Int) : PersistentMemoryStore :=
  { PersistentMemoryStore.fresh threshold with
    memory := ({} : MemoryStore).setMaxKeys start maxKeys }

/-- The store after the operations, each at its reading of the clock. -/
def limitRun (ord : IterOrder) (s : PersistentMemoryStore) (ops : List (Int × LimitOp)) :
    PersistentMemoryStore :=
  ops.foldl (fun s op => (op.2.call.exec ord op.1 s).2) s

/-- `init_store` on the files succeeds and gives the same keys and values. -/
def RestoredUnderLimit (ord : IterOrder) (restart : Int) (s : PersistentMemoryStore) : Prop :=
  ∃ s', (Store.persistent ord s).restart restart = .ok s' ∧
    ∀ key, s'.mem.visible restart key = s.memory.visible restart key

/-! ## What the files record of the memory -/

/-- A put without a deadline, or a delete. -/
def WalRecord.Plain : WalRecord → Prop
  | .put _ _ d => d = 0
  | .expire _ _ => False
  | .del _ => True

/-- The log holds the records `rs` and the snapshot the entries `es`, and
what the memory has of a key is what they make of it. -/
structure Recorded (maxKeys : Nat) (s : PersistentMemoryStore) (rs : List WalRecord)
    (es : List StoreEntry) : Prop where
  listable : Listable s.memory
  timeless : ∀ e ∈ s.memory.view, e.expireAtMs = 0
  maxKeys : s.memory.maxKeys = maxKeys
  wal : s.wal = walText rs
  plain : ∀ r ∈ rs, r.Plain
  saved : (⟨[], s.snapshot⟩ : StoreFiles).Holds Timeless [] es
  known : ∀ key e, find key s.memory.view = some e → folded key rs (find key es) = some e

theorem WalRecord.Plain.inRange {r : WalRecord} (h : r.Plain) : r.Dated := by
  cases r with
  | put key value d =>
    have hd : d = 0 := h
    subst hd
    exact (by decide : InRange64 0)
  | expire key d => exact h.elim
  | del key => trivial

theorem find_of_sublist {l l' : List StoreEntry} (h : l.Sublist l') (hd : Distinct l')
    {key : Str} {e : StoreEntry} (hf : find key l = some e) : find key l' = some e := by
  have he := find_of_mem hd (h.subset (find_mem hf))
  rwa [find_key hf] at he

theorem put_sublist (maxKeys : Nat) (now : Int) (e : StoreEntry) (l : List StoreEntry) :
    (Recency.put maxKeys now e l).Sublist (push e l) := by
  rw [Recency.put, cap]
  split
  · exact List.filter_sublist
  · exact (List.take_sublist _ _).trans List.filter_sublist

section Steps

variable {maxKeys : Nat} {s : PersistentMemoryStore} {rs : List WalRecord}
variable {es : List StoreEntry} {now : Int} {r : WalRecord}

/-- What is left of a key after a record is what the record makes of it. -/
theorem find_on_set (hl : Listable s.memory) (hr : r.Plain) {key : Str} {e : StoreEntry}
    {x : Option StoreEntry}
    (hx : ∀ e, find key s.memory.view = some e → x = some e)
    (he : find key (r.on maxKeys now s.memory.view).2 = some e) : r.set key x = some e := by
  cases r with
  | put k value d =>
    have hd : d = 0 := hr
    rw [WalRecord.on] at he
    rw [WalRecord.set]
    split at he
    · next hk =>
      -- refused: no key of the memory is empty
      have hne : k ≠ key := by
        intro hkey
        have hp := hl.printable e (find_mem he)
        rw [find_key he, ← hkey] at hp
        exact hp.1 hk
      rw [if_neg hne]
      exact hx e he
    · have hpush := find_of_sublist (put_sublist maxKeys now _ _) (hl.distinct.push _) he
      rw [find_push] at hpush
      split at hpush
      · next hk => rw [if_pos hk]; exact hpush
      · next hk => rw [if_neg hk]; exact hx e hpush
  | expire k d => exact hr.elim
  | del k =>
    have he : find key (remove k s.memory.view) = some e := he
    rw [WalRecord.set]
    by_cases hk : k = key
    · subst hk
      rw [find_remove_self] at he
      cases he
    · rw [if_neg hk]
      rw [find_remove_ne (Ne.symm hk)] at he
      exact hx e he

theorem on_timeless {l : List StoreEntry} (hl : ∀ e ∈ l, e.expireAtMs = 0) (hr : r.Plain) :
    ∀ e ∈ (r.on maxKeys now l).2, e.expireAtMs = 0 := by
  intro e he
  cases r with
  | put k value d =>
    have hd : d = 0 := hr
    subst hd
    rw [WalRecord.on] at he
    split at he
    · exact hl e he
    · exact push_timeless hl k value e ((put_sublist maxKeys now _ _).subset he)
  | expire k d => exact hr.elim
  | del k => exact hl e (List.mem_of_mem_filter he)

theorem Recorded.append (h : Recorded maxKeys s rs es) (hr : r.Plain) (now : Int) (ops : Nat) :
    Recorded maxKeys { s with
      wal := walAppend s.wal r
      memory := (SteppedStore.applyMemory now s.memory r).2
      opsSinceSnapshot := ops } (rs ++ [r]) es := by
  have ha := applyMemory_acts h.listable.wf now r
  refine ⟨h.listable.applyMemory hr.inRange now, ?_, ha.maxKeys.trans h.maxKeys, ?_, ?_, h.saved,
    fun key e he => ?_⟩
  · show ∀ e ∈ (SteppedStore.applyMemory now s.memory r).2.view, _
    rw [ha.view]
    exact on_timeless h.timeless hr
  · show walAppend s.wal r = _
    rw [h.wal, walAppend_walText]
  · intro r' hr'
    rcases List.mem_append.mp hr' with hr' | hr'
    · exact h.plain r' hr'
    · rw [List.mem_singleton.mp hr']
      exact hr
  · rw [folded_snoc]
    have he : find key (SteppedStore.applyMemory now s.memory r).2.view = some e := he
    rw [ha.view] at he
    exact find_on_set h.listable hr (h.known key) he

theorem Recorded.read (h : Recorded maxKeys s rs es) (now : Int) (q : StoreRead) :
    Recorded maxKeys { s with memory := q.leaves now s.memory } rs es := by
  obtain ⟨-, hmax, hview⟩ := leaves_spec h.listable.wf now q
  refine ⟨h.listable.read now q, fun e he => ?_, hmax.trans h.maxKeys, h.wal, h.plain, h.saved,
    fun key e he => h.known key e ?_⟩
  · have he : e ∈ (q.leaves now s.memory).view := he
    rw [hview] at he
    exact h.timeless e (StoreRead.mem_on he)
  · have he : find key (q.leaves now s.memory).view = some e := he
    rw [hview] at he
    rcases q.find_on now h.listable.distinct key with hq | hq
    · exact hq.symm.trans he
    · exact (live_eq_some.mp (hq.symm.trans he)).1

theorem Recorded.snapshot (h : Recorded maxKeys s rs es) (ord : IterOrder) (now : Int)
    (ops : Nat) :
    Recorded maxKeys { s with
      memory := (s.memory.snapshotEntries now).2
      snapshot := some (snapshotText (ord.arrange (s.memory.snapshotEntries now).1))
      wal := []
      opsSinceSnapshot := ops } [] (ord.arrange (s.memory.snapshotEntries now).1) := by
  have hread := h.read now .snapshotEntries
  obtain ⟨hd, hf⟩ := snapshotEntries_find h.listable.wf ord now
  have hlive : ∀ key, live now (find key s.memory.view) = find key s.memory.view := fun key =>
    Timeless.live (fun e he => h.timeless e (find_mem he)) now
  refine ⟨hread.listable, hread.timeless, hread.maxKeys, rfl, by simp,
    ⟨rfl, by simp, Or.inr rfl, hd, fun e he => ?_⟩, fun key e he => ?_⟩
  · have he' := (hf e.key).symm.trans (find_of_mem hd he)
    rw [hlive] at he'
    exact ⟨(h.listable.printable e (find_mem he')).1, h.timeless e (find_mem he')⟩
  · have hview := (MemoryStore.snapshotEntries_spec h.listable.wf now).2.2.2
    have he : find key (s.memory.snapshotEntries now).2.view = some e := he
    rw [hview, find_purge h.listable.distinct] at he
    rw [folded_nil, hf key]
    exact he

theorem Recorded.logRecord (h : Recorded maxKeys s rs es) (ord : IterOrder) (now : Int)
    (hr : r.Plain) : ∃ rs es, Recorded maxKeys (logRecord ord now s r).2 rs es := by
  cases hans : (SteppedStore.applyMemory now s.memory r).1 with
  | false =>
    rw [logRecord_rejected hans]
    exact ⟨_, _, h.append hr now s.opsSinceSnapshot⟩
  | true =>
    have happ := h.append hr now (s.opsSinceSnapshot + 1)
    rw [logRecord_accepted hans, PersistentMemoryStore.maybeSnapshotLocked]
    split
    · exact ⟨_, _, happ⟩
    · exact ⟨_, _, happ.snapshot ord now 0⟩

theorem Recorded.exec (h : Recorded maxKeys s rs es) (ord : IterOrder) (now : Int)
    (op : LimitOp) : ∃ rs es, Recorded maxKeys (op.call.exec ord now s).2 rs es := by
  cases op with
  | put key value => exact h.logRecord ord now (r := .put key value 0) rfl
  | get key => exact ⟨_, _, h.read now (.get key)⟩
  | del key => exact h.logRecord ord now (r := .del key) trivial

end Steps

theorem recorded_limited (threshold maxKeys : Nat) (start : Int) :
    Recorded maxKeys (limited threshold maxKeys start) [] [] := by
  obtain ⟨hwf, hmax, hview⟩ := MemoryStore.setMaxKeys_keeps (MemoryStore.wf_empty 0) start maxKeys
  have hnil : (({} : MemoryStore).setMaxKeys start maxKeys).view = [] := by
    rw [hview]
    show cap maxKeys [] = []
    simp [cap]
  have hno : ∀ e, e ∉ (({} : MemoryStore).setMaxKeys start maxKeys).view := by
    rw [hnil]
    simp
  refine ⟨⟨hwf, fun e he => absurd he (hno e)⟩, fun e he => absurd he (hno e), hmax, rfl, by simp,
    ⟨rfl, by simp, Or.inl ⟨rfl, rfl⟩, distinct_nil, by simp⟩, fun key e he => ?_⟩
  exact absurd (find_mem he) (hno e)

theorem recorded_limitRun (ord : IterOrder) {maxKeys : Nat} (ops : List (Int × LimitOp))
    {s : PersistentMemoryStore} {rs : List WalRecord} {es : List StoreEntry}
    (h : Recorded maxKeys s rs es) : ∃ rs es, Recorded maxKeys (limitRun ord s ops) rs es := by
  induction ops generalizing s rs es with
  | nil => exact ⟨rs, es, h⟩
  | cons op ops ih =>
    obtain ⟨rs', es', h'⟩ := h.exec ord op.1 op.2
    exact ih h'

/-! ## What comes back -/

/-- The keys of a recency list, in order. -/
def keysOf (l : List StoreEntry) : List Str := l.map StoreEntry.key

theorem keysOf_push (e : StoreEntry) (l : List StoreEntry) :
    keysOf (push e l) = e.key :: (keysOf l).filter fun k => !decide (k = e.key) := by
  rw [keysOf, push, List.map_cons, keys_remove]
  rfl

theorem keysOf_on {now : Int} {l : List StoreEntry} (hl : ∀ e ∈ l, e.expireAtMs = 0)
    {r : WalRecord} (hr : r.Plain) (hok : r.Ok) :
    keysOf (r.on 0 now l).2 = orderLine (keysOf l) r.line := by
  have hne : tagDel ≠ tagPut := by decide
  cases r with
  | put key value d =>
    have hd : d = 0 := hr
    subst hd
    rw [WalRecord.on, if_neg hok.1]
    simp only [orderLine, splitOn_line, WalRecord.fields, unescape_escape, if_true]
    rw [Recency.put, cap, if_pos rfl, purge_timeless (push_timeless hl key value), keysOf_push]
  | expire key d => exact hr.elim
  | del key =>
    simp only [orderLine, splitOn_line, WalRecord.fields, unescape_escape, hne, if_false, if_true]
    exact keys_remove key l

/-- A memory without limit and deadlines, with its keys in the given order. -/
structure WrittenIn (order : List Str) (m : MemoryStore) : Prop where
  mem : Unbounded m
  timeless : ∀ e ∈ m.view, e.expireAtMs = 0
  keys : keysOf m.view = order

section Restart

variable {m : MemoryStore} {order : List Str}

theorem WrittenIn.load (h : WrittenIn order m) {e : StoreEntry}
    (he : e.key ≠ [] ∧ e.expireAtMs = 0) (now : Int) :
    WrittenIn (orderEntry order (snapshotLine e))
      (m.putWithExpireAt now e.key e.value e.expireAtMs).2 := by
  have hu := (putWithExpireAt_unbounded h.mem now he.1 e.value e.expireAtMs).1
  have hview : (m.putWithExpireAt now e.key e.value e.expireAtMs).2.view =
      push ⟨e.key, e.value, 0⟩ m.view := by
    rw [(MemoryStore.putWithExpireAt_acts h.mem.wf now he.1 e.value e.expireAtMs).view,
      h.mem.maxKeys, Recency.put, cap, if_pos rfl, he.2,
      purge_timeless (push_timeless h.timeless e.key e.value)]
  refine ⟨hu, ?_, ?_⟩
  · rw [hview]
    exact push_timeless h.timeless e.key e.value
  · rw [hview, keysOf_push, h.keys]
    simp [orderEntry, snapshotKey, splitOn_snapshotLine, unescape_escape]

theorem WrittenIn.apply (h : WrittenIn order m) {r : WalRecord} (hr : r.Plain) (hok : r.Ok)
    (now : Int) : WrittenIn (orderLine order r.line) (applyRecord now m r) := by
  have ha := applyMemory_acts h.mem.wf now r
  have hu := (applyRecord_held h.mem now hok).1
  have hview : (applyRecord now m r).view = (r.on 0 now m.view).2 := by
    rw [← applyMemory_snd, ha.view, h.mem.maxKeys]
  refine ⟨hu, ?_, ?_⟩
  · rw [hview]
    exact on_timeless h.timeless hr
  · rw [hview, keysOf_on h.timeless hr hok, h.keys]

theorem writtenIn_entries (now : Int) {es : List StoreEntry}
    (hes : ∀ e ∈ es, e.key ≠ [] ∧ e.expireAtMs = 0) (h : WrittenIn order m) :
    WrittenIn ((es.map snapshotLine).foldl orderEntry order) (es.foldl (fun s entry =>
      (s.putWithExpireAt now entry.key entry.value entry.expireAtMs).2) m) := by
  induction es generalizing m order with
  | nil => exact h
  | cons e es ih =>
    exact ih (fun e' he => hes e' (List.mem_cons_of_mem _ he))
      (h.load (hes e List.mem_cons_self) now)

theorem writtenIn_records (now : Int) {rs : List WalRecord} (hplain : ∀ r ∈ rs, r.Plain)
    (hok : ∀ r ∈ rs, r.Ok) (h : WrittenIn order m) :
    WrittenIn ((rs.map WalRecord.line).foldl orderLine order)
      (rs.foldl (applyRecord now) m) := by
  induction rs generalizing m order with
  | nil => exact h
  | cons r rs ih =>
    exact ih (fun r' hr => hplain r' (List.mem_cons_of_mem _ hr))
      (fun r' hr => hok r' (List.mem_cons_of_mem _ hr))
      (h.apply (hplain r List.mem_cons_self) (hok r List.mem_cons_self) now)

/-- `init` brings the keys back in the order they were written. -/
theorem init_writtenIn {f : StoreFiles} {rs : List WalRecord} {es : List StoreEntry}
    (h : f.Holds Timeless rs es) (hplain : ∀ r ∈ rs, r.Plain) (now : Int) (threshold : Nat) :
    ∃ s, PersistentMemoryStore.init now f.wal f.snapshot threshold = .ok s ∧
      WrittenIn f.writeOrder s.memory ∧
      ∀ key, find key s.memory.view = folded key rs (find key es) := by
  have hinit := h.init_eq (fun _ => Timeless.inRange) now threshold
  have hempty : WrittenIn [] ({} : MemoryStore) := ⟨unbounded_empty, by simp [MemoryStore.view],
    rfl⟩
  have hw := writtenIn_records now hplain (h.ok fun _ => Timeless.inRange)
    (writtenIn_entries now h.entries hempty)
  rw [← h.walLines, ← h.snapshotLines] at hw
  refine ⟨_, hinit, hw, fun key => ?_⟩
  obtain ⟨s, hs, hv⟩ := h.timeless_init now threshold
  rw [hinit] at hs
  injection hs with hs
  subst hs
  rw [← hv key, MemoryStore.visible_eq hw.mem.wf]
  exact (Timeless.live (fun e he => hw.timeless e (find_mem he)) now).symm

end Restart

theorem find_take {l : List StoreEntry} (hd : Distinct l) (n : Nat) (key : Str) :
    find key (l.take n) = if key ∈ (keysOf l).take n then find key l else none := by
  have hkeys : (keysOf l).take n = keysOf (l.take n) := by
    rw [keysOf, keysOf, List.map_take]
  rw [hkeys]
  split
  · next hk =>
    obtain ⟨e, he, hek⟩ := List.mem_map.mp hk
    have hf := find_of_mem hd ((List.take_sublist n l).subset he)
    have hf' := find_of_mem (hd.sublist ((List.take_sublist n l).map _)) he
    rw [hek] at hf hf'
    rw [hf, hf']
  · next hk => exact find_none_of_notMem_keys hk

theorem replayable_iff {f : StoreFiles} {rs : List WalRecord}
    (hwal : f.wal = walText rs) (hplain : ∀ r ∈ rs, r.Plain) :
    f.Replayable ↔ ∀ r ∈ rs, r.Ok := by
  have hlines : f.walLines = rs.map WalRecord.line := by
    rw [StoreFiles.walLines, hwal, getlines_walText]
  rw [StoreFiles.Replayable, hlines]
  constructor
  · intro h r hr
    cases r with
    | put key value d =>
      refine ⟨fun hk => ?_, (hplain _ hr).inRange⟩
      subst hk
      exact h _ (List.mem_map_of_mem hr) value d rfl
    | expire key d => exact (hplain _ hr).elim
    | del key => trivial
  · intro h line hline value d heq
    obtain ⟨r, hr, rfl⟩ := List.mem_map.mp hline
    have hfields := congrArg (Text.splitOn 9) heq
    rw [splitOn_line, splitOn_line] at hfields
    cases r with
    | put key value' d' =>
      simp only [WalRecord.fields, List.cons.injEq] at hfields
      have hk := congrArg unescape hfields.2.1
      rw [unescape_escape, unescape_escape] at hk
      injection hk with hk
      exact (h _ hr).1 hk
    | expire key d' => simp [WalRecord.fields] at hfields
    | del key => simp [WalRecord.fields] at hfields

section Limited

variable {maxKeys : Nat} {s : PersistentMemoryStore} {rs : List WalRecord}
variable {es : List StoreEntry}

theorem Recorded.holds (h : Recorded maxKeys s rs es) (hok : ∀ r ∈ rs, r.Ok) :
    s.files.Holds Timeless rs es := by
  refine ⟨h.wal, fun r hr => ?_, h.saved.snapshot, h.saved.distinct, h.saved.entries⟩
  have hp := h.plain r hr
  have hr' := hok r hr
  cases r with
  | put key value d => exact ⟨hr'.1, hp⟩
  | expire key d => exact hp.elim
  | del key => trivial

/-- A restart shows the keys at the front of the write order, with what the
files give them. -/
theorem Recorded.restart (h : Recorded maxKeys s rs es) (ord : IterOrder)
    (hm : 0 < maxKeys) (hok : ∀ r ∈ rs, r.Ok) (restart : Int) :
    ∃ s', (Store.persistent ord s).restart restart = .ok s' ∧
      ∀ key, s'.mem.visible restart key =
          (if key ∈ s.files.writeOrder.take maxKeys then folded key rs (find key es) else none) ∧
        (key ∈ s.files.writeOrder → (folded key rs (find key es)).isSome) := by
  obtain ⟨s', hinit, hw, hf⟩ :=
    init_writtenIn (h.holds hok) h.plain restart s.snapshotThreshold
  obtain ⟨hwf, -, hview⟩ := MemoryStore.setMaxKeys_keeps hw.mem.wf restart maxKeys
  have hd : Distinct s'.memory.view := MemoryStore.view_distinct hw.mem.wf
  rw [purge_timeless hw.timeless, cap, if_neg (by omega)] at hview
  refine ⟨.persistent ord { s' with memory := s'.memory.setMaxKeys restart maxKeys }, ?_,
    fun key => ⟨?_, fun hkey => ?_⟩⟩
  · have hinit' : PersistentMemoryStore.init restart s.wal s.snapshot s.snapshotThreshold =
        .ok s' := hinit
    rw [Store.restart, Store.init, if_pos rfl, hinit', h.maxKeys]
    rfl
  · have htake : ∀ e, find key (s'.memory.view.take maxKeys) = some e →
        Timeless e.expireAtMs := fun e he =>
      hw.timeless e ((List.take_sublist _ _).subset (find_mem he))
    show (s'.memory.setMaxKeys restart maxKeys).visible restart key = _
    rw [MemoryStore.visible_eq hwf, hview, Recency.visible, Timeless.live htake,
      find_take hd, hw.keys, hf]
  · rw [← hw.keys] at hkey
    obtain ⟨e, he, hek⟩ := List.mem_map.mp hkey
    rw [← hf key, ← hek, find_of_mem hd he]
    rfl

theorem Recorded.not_restart (h : Recorded maxKeys s rs es) (ord : IterOrder)
    (hbad : ¬ ∀ r ∈ rs, r.Ok) (restart : Int) :
    (Store.persistent ord s).restart restart = .error .malformed := by
  have hempty : ∃ value d, WalRecord.put [] value d ∈ rs := by
    push Not at hbad
    obtain ⟨r, hr, hnot⟩ := hbad
    have hp := h.plain r hr
    cases r with
    | put key value d =>
      by_cases hk : key = []
      · exact ⟨value, d, hk ▸ hr⟩
      · exact absurd ⟨hk, hp.inRange⟩ hnot
    | expire key d => exact hp.elim
    | del key => exact absurd trivial hnot
  have hinit := init_emptyKey (fun _ => Timeless.inRange) h.saved h.wal
    (fun r hr => (h.plain r hr).inRange) hempty restart s.snapshotThreshold
  have hinit' : PersistentMemoryStore.init restart s.wal s.snapshot s.snapshotThreshold =
      .error .malformed := hinit
  rw [Store.restart, Store.init, if_pos rfl, hinit']
  rfl

/-- What the memory shows of a key is what the files give it. -/
theorem Recorded.visible (h : Recorded maxKeys s rs es) {now : Int} {key : Str}
    {e : StoreEntry} (he : s.memory.visible now key = some e) :
    folded key rs (find key es) = some e := by
  rw [MemoryStore.visible_eq h.listable.wf] at he
  exact h.known key e (live_eq_some.mp he).1

end Limited

/-- The keys and values come back exactly when the log is one `replay` takes
and the keys in the memory are the ones written last. -/
theorem restoredUnderLimit_iff (ord : IterOrder) (threshold maxKeys : Nat) (hm : 0 < maxKeys)
    (start : Int) (ops : List (Int × LimitOp)) (restart : Int) :
    RestoredUnderLimit ord restart (limitRun ord (limited threshold maxKeys start) ops) ↔
      (limitRun ord (limited threshold maxKeys start) ops).files.Replayable ∧
      ∀ key, key ∈ (limitRun ord (limited threshold maxKeys start)
          ops).files.writeOrder.take maxKeys ↔
        ((limitRun ord (limited threshold maxKeys start)
          ops).memory.visible restart key).isSome := by
  obtain ⟨rs, es, h⟩ := recorded_limitRun ord ops (recorded_limited threshold maxKeys start)
  generalize limitRun ord (limited threshold maxKeys start) ops = s at h ⊢
  have hrep : s.files.Replayable ↔ ∀ r ∈ rs, r.Ok := replayable_iff h.wal h.plain
  rw [hrep]
  constructor
  · rintro ⟨s', hs', hsame⟩
    have hok : ∀ r ∈ rs, r.Ok := by
      by_contra hbad
      rw [h.not_restart ord hbad] at hs'
      cases hs'
    refine ⟨hok, fun key => ?_⟩
    obtain ⟨t, ht, hshow⟩ := h.restart ord hm hok restart
    rw [hs'] at ht
    injection ht with ht
    subst ht
    rw [← hsame key, (hshow key).1]
    by_cases hkey : key ∈ s.files.writeOrder.take maxKeys
    · have hknown := (hshow key).2 ((List.take_sublist _ _).subset hkey)
      simp [hkey, hknown]
    · simp [hkey]
  · rintro ⟨hok, hkeys⟩
    obtain ⟨s', hs', hshow⟩ := h.restart ord hm hok restart
    refine ⟨s', hs', fun key => ?_⟩
    rw [(hshow key).1]
    cases hv : s.memory.visible restart key with
    | none =>
      have hnot : key ∉ s.files.writeOrder.take maxKeys := fun hkey => by
        have hsome := (hkeys key).mp hkey
        rw [hv] at hsome
        cases hsome
      rw [if_neg hnot]
    | some e =>
      have hkey : key ∈ s.files.writeOrder.take maxKeys := (hkeys key).mpr (by rw [hv]; rfl)
      rw [if_pos hkey, h.visible hv]

section Example

/-- Two puts under a limit of one key: the second evicts the first. -/
def evicting : List (Int × LimitOp) :=
  [(10, .put (bytes ['a']) (bytes ['1'])), (20, .put (bytes ['b']) (bytes ['2']))]

theorem evicting_view : (limitRun .asStored (limited 1000 1 0) evicting).memory.view =
    [⟨bytes ['b'], bytes ['2'], 0⟩] := by
  decide +kernel

theorem restoredUnderLimit_iff_evicting :
    0 < 1 ∧ RestoredUnderLimit .asStored 40
      (limitRun .asStored (limited 1000 1 0) evicting) := by
  refine ⟨by decide, (restoredUnderLimit_iff .asStored 1000 1 (by decide) 0 evicting 40).mpr
    ⟨?_, fun key => ?_⟩⟩
  · have hwal : (limitRun .asStored (limited 1000 1 0) evicting).files.wal =
        walText [.put (bytes ['a']) (bytes ['1']) 0, .put (bytes ['b']) (bytes ['2']) 0] := by
      decide +kernel
    refine (replayable_iff hwal ?_).mpr ?_
    · simp [WalRecord.Plain]
    · simp [WalRecord.Ok, bytes, InRange64]
  · have horder : (limitRun .asStored (limited 1000 1 0) evicting).files.writeOrder.take 1 =
        [bytes ['b']] := by
      decide +kernel
    obtain ⟨rs, es, h⟩ := recorded_limitRun .asStored evicting (recorded_limited 1000 1 0)
    rw [horder, MemoryStore.visible_eq h.listable.wf, evicting_view, Recency.visible, find_cons]
    by_cases hkey : bytes ['b'] = key
    · subst hkey
      simp [live, expired_of_zero]
    · simp [hkey, Ne.symm hkey, live]

/-- Deleting the key that evicted another: the log still has the put of the
evicted one, and there is room for it again. -/
theorem evicted_key_comes_back :
    ¬ ∀ (ord : IterOrder) (threshold maxKeys : Nat), 0 < maxKeys →
      ∀ (start : Int) (ops : List (Int × LimitOp)) (restart : Int),
        RestoredUnderLimit ord restart (limitRun ord (limited threshold maxKeys start) ops) := by
  intro h
  obtain ⟨s', hs', hsame⟩ :=
    h .asStored 1000 1 (by decide) 0 (evicting ++ [(30, .del (bytes ['b']))]) 40
  have hback : (((Store.persistent .asStored (limitRun .asStored (limited 1000 1 0)
      (evicting ++ [(30, .del (bytes ['b']))]))).restart 40).toOption.bind
        fun s => s.mem.visible 40 (bytes ['a'])).isSome := by
    decide +kernel
  have hgone : (limitRun .asStored (limited 1000 1 0)
      (evicting ++ [(30, .del (bytes ['b']))])).memory.visible 40 (bytes ['a']) = none := by
    decide +kernel
  rw [hs'] at hback
  have hsome : (s'.mem.visible 40 (bytes ['a'])).isSome := hback
  rw [hsame, hgone] at hsome
  cases hsome

end Example

end TinyKV
