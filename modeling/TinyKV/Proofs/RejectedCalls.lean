import TinyKV.Lib.Runs
import TinyKV.Proofs.Replay

/-!
# Calls the store rejects

A record is written to the log before the memory decides about the call, so
a call that is rejected leaves its record behind. Two stores are run side by
side here: one gets every call, the other only those the first one accepts.
As long as a restart of the two shows the same contents, the rejected calls
contribute nothing.

The memories of the two stay alike whatever is rejected. Their logs differ
in the records of rejected calls. A put of the empty key makes `replay`
fail. An expiry that was rejected because its key was missing is rejected
again, unless the key is missing from the memory but not from the files: a
key evicted by the bound on the number of keys, which the log does not
mention and `replay` does not apply.
-/

namespace TinyKV

open Recency

/-! ## What a record does to a memory -/

variable {r : WalRecord} {now : Int} {l : List StoreEntry}

theorem WalRecord.Within.inRange (h : r.Within InRange64) : r.Dated := by
  cases r with
  | put key value d => exact h.2
  | expire key d => exact h
  | del key => trivial

/-- A record on the recency list. -/
def WalRecord.on (maxKeys : Nat) (now : Int) (l : List StoreEntry) :
    WalRecord → Bool × List StoreEntry
  | .put key value d =>
    if key = [] then (false, l) else (true, Recency.put maxKeys now ⟨key, value, d⟩ l)
  | .expire key d => Recency.expireAt now key d l
  | .del key => (true, remove key l)

theorem applyMemory_acts {m : MemoryStore} (h : m.WF) (now : Int) (r : WalRecord) :
    m.Acts (SteppedStore.applyMemory now m r) (r.on m.maxKeys now m.view).1
      (r.on m.maxKeys now m.view).2 := by
  cases r with
  | put key value d =>
    by_cases hk : key = []
    · subst hk
      exact ⟨rfl, h, rfl, rfl⟩
    · rw [WalRecord.on, if_neg hk]
      exact MemoryStore.putWithExpireAt_acts h now hk value d
  | expire key d => exact MemoryStore.expireAt_acts h now key d
  | del key =>
    have ha := MemoryStore.del_acts h key
    exact ⟨rfl, ha.wf, ha.maxKeys, ha.view⟩

/-- Lists that are alike take a record alike. -/
theorem on_alike (maxKeys : Nat) {l' : List StoreEntry} (h : Alike now l l') (hd : Distinct l)
    (hd' : Distinct l') (r : WalRecord) :
    (r.on maxKeys now l).1 = (r.on maxKeys now l').1 ∧
      Alike now (r.on maxKeys now l).2 (r.on maxKeys now l').2 := by
  cases r with
  | put key value d =>
    rw [WalRecord.on, WalRecord.on]
    split
    · exact ⟨rfl, h⟩
    · have hp : purge now (push ⟨key, value, d⟩ l) = purge now (push ⟨key, value, d⟩ l') :=
        h.push _
      refine ⟨rfl, ?_⟩
      simp only [Recency.put, hp]
      exact Alike.refl now _
  | expire key d =>
    have hf := h.live_find hd hd' key
    obtain ⟨ha, hl⟩ := expireAt_alike now hd key d
    obtain ⟨ha', hl'⟩ := expireAt_alike now hd' key d
    rw [← hf] at ha' hl'
    refine ⟨ha.trans ha'.symm, hl.trans (Eq.trans ?_ hl'.symm)⟩
    cases live now (find key l) with
    | none => exact h
    | some entry => exact h.push _
  | del key => exact ⟨rfl, h.remove key⟩

/-- A record that is rejected leaves an alike list. -/
theorem on_rejected {maxKeys : Nat} (hd : Distinct l) (h : (r.on maxKeys now l).1 = false) :
    Alike now (r.on maxKeys now l).2 l := by
  cases r with
  | put key value d =>
    rw [WalRecord.on] at h ⊢
    split at h
    · next hk =>
      rw [if_pos hk]
      exact Alike.refl now l
    · cases h
  | expire key d =>
    obtain ⟨ha, hl⟩ := expireAt_alike now hd key d
    have hn : live now (find key l) = none := by
      rw [← Option.not_isSome_iff_eq_none, ← ha]
      simpa [WalRecord.on] using h
    rw [hn] at hl
    exact hl
  | del key => cases h

theorem mem_on {maxKeys : Nat} (hr : r.Dated) (hl : ∀ e ∈ l, e.key ≠ [] ∧ InRange64 e.expireAtMs) :
    ∀ e ∈ (r.on maxKeys now l).2, e.key ≠ [] ∧ InRange64 e.expireAtMs := by
  have hremove : ∀ key, ∀ e ∈ remove key l, e.key ≠ [] ∧ InRange64 e.expireAtMs :=
    fun key e he => hl e (List.mem_filter.mp he).1
  intro e he
  cases r with
  | put key value d =>
    rw [WalRecord.on] at he
    split at he
    · exact hl e he
    · next hk =>
      have hp : e ∈ purge now (push ⟨key, value, d⟩ l) := by
        rw [Recency.put, cap] at he
        split at he
        · exact he
        · exact List.mem_of_mem_take he
      rcases List.mem_cons.mp (List.mem_filter.mp hp).1 with rfl | he
      · exact ⟨hk, hr⟩
      · exact hremove key e he
  | expire key d =>
    rw [WalRecord.on, Recency.expireAt] at he
    cases hf : find key l with
    | none =>
      rw [hf] at he
      exact hl e he
    | some entry =>
      rw [hf] at he
      simp only at he
      split at he
      · exact hremove key e he
      · rcases List.mem_cons.mp he with rfl | he
        · exact ⟨(hl entry (find_mem hf)).1, hr⟩
        · exact hremove _ e he
  | del key => exact hremove key e he

/-! ## Two stores side by side -/

/-- A well-formed memory whose entries a snapshot can hold. -/
structure Listable (m : MemoryStore) : Prop where
  wf : m.WF
  printable : ∀ e ∈ m.view, e.key ≠ [] ∧ InRange64 e.expireAtMs

theorem Listable.distinct {m : MemoryStore} (h : Listable m) : Distinct m.view :=
  MemoryStore.view_distinct h.wf

/-- Memories of the same bound that nobody can tell apart from `now` on. -/
structure SameMemory (now : Int) (m m' : MemoryStore) : Prop where
  left : Listable m
  right : Listable m'
  maxKeys : m.maxKeys = m'.maxKeys
  alike : Alike now m.view m'.view

/-- Files from which a restart at `now` or later shows the same. -/
def SameFiles (now : Int) (f f' : StoreFiles) : Prop :=
  ∃ rs es rs' es', f.Holds InRange64 rs es ∧ f'.Holds InRange64 rs' es' ∧
    ∀ restart, now ≤ restart → ∀ key,
      live restart (replayed restart key rs (find key es)) =
        live restart (replayed restart key rs' (find key es'))

def PersistentMemoryStore.files (s : PersistentMemoryStore) : StoreFiles := ⟨s.wal, s.snapshot⟩

/-- The two stores answer, compact and recover alike. -/
structure Twins (now : Int) (a b : PersistentMemoryStore) : Prop where
  memory : SameMemory now a.memory b.memory
  files : SameFiles now a.files b.files
  threshold : a.snapshotThreshold = b.snapshotThreshold
  ops : a.opsSinceSnapshot = b.opsSinceSnapshot

section Twins

variable {t : Int} {a b : PersistentMemoryStore} {m m' : MemoryStore}

theorem SameMemory.later (h : SameMemory now m m') (hle : now ≤ t) : SameMemory t m m' :=
  ⟨h.left, h.right, h.maxKeys, h.alike.later hle⟩

theorem Twins.later (h : Twins now a b) (hle : now ≤ t) : Twins t a b := by
  obtain ⟨rs, es, rs', es', hf, hf', hsame⟩ := h.files
  exact ⟨h.memory.later hle, ⟨rs, es, rs', es', hf, hf', fun restart hr =>
    hsame restart (Int.le_trans hle hr)⟩, h.threshold, h.ops⟩

theorem Listable.applyMemory (h : Listable m) (hr : r.Dated) (now : Int) :
    Listable (SteppedStore.applyMemory now m r).2 := by
  have ha := applyMemory_acts h.wf now r
  refine ⟨ha.wf, ?_⟩
  rw [ha.view]
  exact mem_on hr h.printable

theorem SameMemory.applyMemory (h : SameMemory now m m') (hr : r.Dated) :
    (SteppedStore.applyMemory now m r).1 = (SteppedStore.applyMemory now m' r).1 ∧
      SameMemory now (SteppedStore.applyMemory now m r).2
        (SteppedStore.applyMemory now m' r).2 := by
  have ha := applyMemory_acts h.left.wf now r
  have ha' := applyMemory_acts h.right.wf now r
  obtain ⟨h1, h2⟩ := on_alike m.maxKeys h.alike h.left.distinct h.right.distinct r
  refine ⟨?_, h.left.applyMemory hr now, h.right.applyMemory hr now, ?_, ?_⟩
  · rw [ha.answer, ha'.answer, h1, h.maxKeys]
  · rw [ha.maxKeys, ha'.maxKeys, h.maxKeys]
  · rw [ha.view, ha'.view, ← h.maxKeys]
    exact h2

/-- A rejected record changes only one of the memories, and not so that it
shows. -/
theorem SameMemory.reject (h : SameMemory now m m') (hr : r.Dated)
    (hrej : (SteppedStore.applyMemory now m r).1 = false) :
    SameMemory now (SteppedStore.applyMemory now m r).2 m' := by
  have ha := applyMemory_acts h.left.wf now r
  refine ⟨h.left.applyMemory hr now, h.right, ha.maxKeys.trans h.maxKeys, ?_⟩
  rw [ha.view]
  refine Eq.trans (on_rejected h.left.distinct ?_) h.alike
  rw [← ha.answer]
  exact hrej

theorem Listable.read (h : Listable m) (now : Int) (q : StoreRead) :
    Listable (q.leaves now m) := by
  obtain ⟨hwf, -, hview⟩ := leaves_spec h.wf now q
  refine ⟨hwf, fun e he => h.printable e ?_⟩
  rw [hview] at he
  exact StoreRead.mem_on he

theorem SameMemory.read (h : SameMemory now m m') (q : StoreRead) :
    SameMemory now (q.leaves now m) (q.leaves now m') := by
  obtain ⟨-, hmax, hview⟩ := leaves_spec h.left.wf now q
  obtain ⟨-, hmax', hview'⟩ := leaves_spec h.right.wf now q
  have hread : ∀ key, Alike now (Recency.read now key m.view).2
      (Recency.read now key m'.view).2 := by
    intro key
    refine (read_alike now h.left.distinct key).trans
      (Eq.trans ?_ (read_alike now h.right.distinct key).symm)
    rw [← h.alike.live_find h.left.distinct h.right.distinct key]
    cases live now (find key m.view) with
    | none => exact h.alike
    | some entry => exact h.alike.push _
  refine ⟨h.left.read now q, h.right.read now q, ?_, ?_⟩
  · rw [hmax, hmax', h.maxKeys]
  · rw [hview, hview']
    cases q with
    | get key => exact hread key
    | exists_ key => exact hread key
    | ttl key =>
      exact (MemoryStore.ttlLeaves_alike h.left.distinct key).trans
        (h.alike.trans (MemoryStore.ttlLeaves_alike h.right.distinct key).symm)
    | size => exact (alike_purge now _).trans (h.alike.trans (alike_purge now _).symm)
    | snapshotEntries =>
      exact (alike_purge now _).trans (h.alike.trans (alike_purge now _).symm)

theorem mem_cap_purge {maxKeys : Nat} {l : List StoreEntry} {e : StoreEntry}
    (h : e ∈ cap maxKeys (purge now l)) : e ∈ l := by
  rw [cap] at h
  split at h
  · exact (List.mem_filter.mp h).1
  · exact (List.mem_filter.mp (List.mem_of_mem_take h)).1

theorem SameMemory.setMaxKeys (h : SameMemory now m m') (maxKeys : Nat) :
    SameMemory now (m.setMaxKeys now maxKeys) (m'.setMaxKeys now maxKeys) := by
  obtain ⟨hwf, hmax, hview⟩ := MemoryStore.setMaxKeys_keeps h.left.wf now maxKeys
  obtain ⟨hwf', hmax', hview'⟩ := MemoryStore.setMaxKeys_keeps h.right.wf now maxKeys
  refine ⟨⟨hwf, fun e he => h.left.printable e ?_⟩, ⟨hwf', fun e he => h.right.printable e ?_⟩,
    hmax.trans hmax'.symm, ?_⟩
  · rw [hview] at he
    exact mem_cap_purge he
  · rw [hview'] at he
    exact mem_cap_purge he
  · have ha : purge now m.view = purge now m'.view := h.alike
    rw [hview, hview', ha]
    exact Alike.refl now _

variable {es : List StoreEntry} {f : StoreFiles} {rs : List WalRecord} {key : Str}

theorem SameMemory.replace (h : SameMemory now m m')
    (hes : Distinct es ∧ ∀ e ∈ es, e.key ≠ [] ∧ InRange64 e.expireAtMs) :
    ((m.replaceWithSnapshot now es).1 = true ∧ (m'.replaceWithSnapshot now es).1 = true) ∧
      SameMemory now (m.replaceWithSnapshot now es).2 (m'.replaceWithSnapshot now es).2 := by
  have ha := MemoryStore.replaceWithSnapshot_acts m now (fun e he => (hes.2 e he).1) hes.1
  have ha' := MemoryStore.replaceWithSnapshot_acts m' now (fun e he => (hes.2 e he).1) hes.1
  refine ⟨⟨ha.answer, ha'.answer⟩, ⟨ha.wf, fun e he => hes.2 e ?_⟩,
    ⟨ha'.wf, fun e he => hes.2 e ?_⟩, ?_, ?_⟩
  · rw [ha.view] at he
    exact List.mem_reverse.mp (mem_cap_purge he)
  · rw [ha'.view] at he
    exact List.mem_reverse.mp (mem_cap_purge he)
  · rw [ha.maxKeys, ha'.maxKeys, h.maxKeys]
  · rw [ha.view, ha'.view, h.maxKeys]
    exact Alike.refl now _

/-! ### Files -/

theorem Listable.saved (h : Listable m) (ord : IterOrder) (now : Int) :
    (⟨[], some (snapshotText (ord.arrange (m.snapshotEntries now).1))⟩ : StoreFiles).Holds
      InRange64 [] (ord.arrange (m.snapshotEntries now).1) := by
  obtain ⟨hd, hf⟩ := snapshotEntries_find h.wf ord now
  refine ⟨rfl, by simp, Or.inr rfl, hd, fun e he => ?_⟩
  have he' := (hf e.key).symm.trans (find_of_mem hd he)
  exact h.printable e (find_mem (live_eq_some.mp he').1)

theorem SameMemory.saved (h : SameMemory now m m') (ord : IterOrder) :
    SameFiles now ⟨[], some (snapshotText (ord.arrange (m.snapshotEntries now).1))⟩
      ⟨[], some (snapshotText (ord.arrange (m'.snapshotEntries now).1))⟩ := by
  refine ⟨_, _, _, _, h.left.saved ord now, h.right.saved ord now, fun restart _ key => ?_⟩
  rw [(snapshotEntries_find h.left.wf ord now).2 key,
    (snapshotEntries_find h.right.wf ord now).2 key,
    h.alike.live_find h.left.distinct h.right.distinct]

theorem SameFiles.append {f' : StoreFiles} (h : SameFiles now f f') (hr : r.Within InRange64) :
    SameFiles now { f with wal := walAppend f.wal r } { f' with wal := walAppend f'.wal r } := by
  obtain ⟨rs, es, rs', es', hf, hf', hsame⟩ := h
  refine ⟨_, _, _, _, hf.append hr, hf'.append hr, fun restart hle key => ?_⟩
  rw [replayed_snoc, replayed_snoc]
  exact live_effect_congr (hsame restart hle key) r

/-! ### Calls that are accepted -/

theorem Twins.maybeSnapshot (h : Twins now a b) (ord : IterOrder) :
    Twins now (a.maybeSnapshotLocked ord now).2 (b.maybeSnapshotLocked ord now).2 := by
  unfold PersistentMemoryStore.maybeSnapshotLocked
  rw [h.threshold, h.ops]
  split
  · exact h
  · exact ⟨h.memory.read .snapshotEntries, h.memory.saved ord, rfl, rfl⟩

theorem Twins.logRecord (h : Twins now a b) (ord : IterOrder) (hr : r.Within InRange64)
    (hacc : (SteppedStore.applyMemory now a.memory r).1 = true) :
    Twins now (logRecord ord now a r).2 (logRecord ord now b r).2 := by
  obtain ⟨hans, hmem⟩ := h.memory.applyMemory hr.inRange
  rw [hacc] at hans
  rw [logRecord_accepted hacc, logRecord_accepted hans.symm]
  have hlogged : Twins now
      { a with
        wal := walAppend a.wal r
        memory := (SteppedStore.applyMemory now a.memory r).2
        opsSinceSnapshot := a.opsSinceSnapshot + 1 }
      { b with
        wal := walAppend b.wal r
        memory := (SteppedStore.applyMemory now b.memory r).2
        opsSinceSnapshot := b.opsSinceSnapshot + 1 } :=
    ⟨hmem, h.files.append hr, h.threshold, congrArg (· + 1) h.ops⟩
  exact hlogged.maybeSnapshot ord

theorem Twins.replace (h : Twins now a b) (ord : IterOrder)
    (hes : Distinct es ∧ ∀ e ∈ es, e.key ≠ [] ∧ InRange64 e.expireAtMs) :
    (a.replaceWithSnapshot ord now es).1 = true ∧
      Twins now (a.replaceWithSnapshot ord now es).2 (b.replaceWithSnapshot ord now es).2 := by
  obtain ⟨⟨ha, hb⟩, hmem⟩ := h.memory.replace hes
  have ha : a.memory.replaceWithSnapshot now es =
      (true, (a.memory.replaceWithSnapshot now es).2) := Prod.ext ha rfl
  have hb : b.memory.replaceWithSnapshot now es =
      (true, (b.memory.replaceWithSnapshot now es).2) := Prod.ext hb rfl
  simp only [PersistentMemoryStore.replaceWithSnapshot]
  rw [ha, hb]
  exact ⟨rfl, hmem.read .snapshotEntries, hmem.saved ord, h.threshold, rfl⟩

/-! ### Calls that are rejected -/

/-- `init` shows the entry for the key. -/
def Recovers (restart : Int) (s : PersistentMemoryStore) (key : Str) (e : StoreEntry) : Prop :=
  ∃ s', PersistentMemoryStore.init restart s.wal s.snapshot s.snapshotThreshold = .ok s' ∧
    s'.memory.visible restart key = some e

/-- A restart of both succeeds and shows the same. -/
def SameRecovery (now : Int) (a b : PersistentMemoryStore) : Prop :=
  ∀ restart, now ≤ restart → ∃ a' b',
    PersistentMemoryStore.init restart a.wal a.snapshot a.snapshotThreshold = .ok a' ∧
    PersistentMemoryStore.init restart b.wal b.snapshot b.snapshotThreshold = .ok b' ∧
    ∀ key, a'.memory.visible restart key = b'.memory.visible restart key

theorem holds_init_visible (h : f.Holds InRange64 rs es) (now : Int) (threshold : Nat) :
    ∃ s, PersistentMemoryStore.init now f.wal f.snapshot threshold = .ok s ∧
      ∀ key, s.memory.visible now key = live now (replayed now key rs (find key es)) := by
  obtain ⟨s, hinit, hu, hl⟩ := h.init (fun _ hd => hd) now threshold
  refine ⟨s, hinit, fun key => ?_⟩
  rw [MemoryStore.visible_eq hu.wf]
  exact hl key

theorem Twins.sameRecovery (h : Twins now a b) : SameRecovery now a b := by
  intro restart hle
  obtain ⟨rs, es, rs', es', hf, hf', hsame⟩ := h.files
  obtain ⟨s, hs, hv⟩ := holds_init_visible hf restart a.snapshotThreshold
  obtain ⟨s', hs', hv'⟩ := holds_init_visible hf' restart b.snapshotThreshold
  refine ⟨s, s', hs, hs', fun key => ?_⟩
  rw [hv key, hv' key]
  exact hsame restart hle key

/-- A log with a put of the empty key cannot be replayed. -/
theorem replay_emptyKey (hin : ∀ r ∈ rs, r.Dated) (h : ∃ value d, WalRecord.put [] value d ∈ rs)
    (now : Int) (s : MemoryStore) : replay now s (walText rs) = .error .malformed := by
  rw [replay, KVStore.replay_walText _ s hin]
  induction rs generalizing s with
  | nil =>
    obtain ⟨value, d, h⟩ := h
    cases h
  | cons r rs ih =>
    rw [List.foldlM_cons]
    by_cases hr : r.Ok
    · rw [apply_memory now s hr]
      refine ih (fun r' hm => hin r' (List.mem_cons_of_mem _ hm)) ?_ _
      obtain ⟨value, d, h⟩ := h
      rcases List.mem_cons.mp h with rfl | h
      · exact absurd rfl hr.1
      · exact ⟨value, d, h⟩
    · have hir := hin r List.mem_cons_self
      cases r with
      | put key value d =>
        have hk : key = [] := by
          by_contra hk
          exact hr ⟨hk, hir⟩
        subst hk
        rfl
      | expire key d => exact absurd hir hr
      | del key => exact absurd trivial hr

theorem init_emptyKey {rs' : List WalRecord} {D : Int → Prop} (hD : ∀ d, D d → InRange64 d)
    (h : f.Holds D rs' es) {wal : Str} (hwal : wal = walText rs) (hin : ∀ r ∈ rs, r.Dated)
    (hempty : ∃ value d, WalRecord.put [] value d ∈ rs) (now : Int) (threshold : Nat) :
    PersistentMemoryStore.init now wal f.snapshot threshold = .error .malformed := by
  rw [PersistentMemoryStore.init, h.snapshotLoad hD, hwal]
  show (replay now _ (walText rs) >>= _) = _
  rw [replay_emptyKey hin hempty]
  rfl

/-- Writing down an expiry that the memory rejects. -/
def rejectExpire (now : Int) (a : PersistentMemoryStore) (key : Str) (d : Int) :
    PersistentMemoryStore :=
  { a with
    wal := walAppend a.wal (.expire key d)
    memory := (a.memory.expireAt now key d).2 }

/-- The restart knows the key, if at all, with the deadline it is to get. -/
def Settles (now : Int) (a : PersistentMemoryStore) (key : Str) (d : Int) : Prop :=
  ∀ restart, now ≤ restart → ∀ e, Recovers restart a key e → e.expireAtMs = d

theorem recovers_iff {restart : Int} (h : a.files.Holds InRange64 rs es) {e : StoreEntry} :
    Recovers restart a key e ↔
      live restart (replayed restart key rs (find key es)) = some e := by
  obtain ⟨s, hs, hv⟩ := holds_init_visible h restart a.snapshotThreshold
  rw [← hv key]
  constructor
  · rintro ⟨s', hs', hv'⟩
    have heq := hs.symm.trans hs'
    injection heq with heq
    rw [heq]
    exact hv'
  · exact fun he => ⟨s, hs, he⟩

theorem Twins.rejectExpire (h : Twins now a b) {d : Int} (hd : InRange64 d)
    (hrej : (a.memory.expireAt now key d).1 = false) (hs : Settles now a key d) :
    Twins now (rejectExpire now a key d) b := by
  obtain ⟨rs, es, rs', es', hf, hf', hsame⟩ := h.files
  have hr : (WalRecord.expire key d).Within InRange64 := hd
  refine ⟨h.memory.reject (r := .expire key d) hd hrej, ?_, h.threshold, h.ops⟩
  refine ⟨_, _, _, _, hf.append hr, hf', fun restart hle k => ?_⟩
  rw [← hsame restart hle k, replayed_snoc, WalRecord.effect]
  split
  · next hk =>
    subst hk
    cases hx : live restart (replayed restart key rs (find key es)) with
    | none => rfl
    | some e =>
      have he := hs restart hle e ((recovers_iff hf).mpr hx)
      subst he
      exact live_eq_some.mpr ⟨rfl, (live_eq_some.mp hx).2⟩
  · rfl

theorem Twins.settles (h : Twins now a b) {d : Int} (hd : InRange64 d)
    (hsame : SameRecovery now (TinyKV.rejectExpire now a key d) b) : Settles now a key d := by
  intro restart hle e he
  obtain ⟨rs, es, rs', es', hf, hf', hfiles⟩ := h.files
  rw [recovers_iff hf] at he
  have hr : (WalRecord.expire key d).Within InRange64 := hd
  obtain ⟨a', b', ha, hb, hv⟩ := hsame restart hle
  obtain ⟨s, hs, hvs⟩ := holds_init_visible (hf.append hr) restart a.snapshotThreshold
  obtain ⟨s', hs', hvs'⟩ := holds_init_visible hf' restart b.snapshotThreshold
  injection ha.symm.trans hs with ha
  injection hb.symm.trans hs' with hb
  subst ha hb
  have hk := hv key
  rw [hvs key, hvs' key, ← hfiles restart hle key, replayed_snoc, WalRecord.effect, if_pos rfl,
    he, Option.map_some] at hk
  have hmoved := (live_eq_some.mp hk).1
  injection hmoved with hmoved
  rw [← hmoved]

end Twins

/-! ## Runs -/

/-- A call at a reading of the clock. Its deadlines are `long long`s, and a
list of entries to load names each key once and none that is empty. -/
structure TimedCall where
  now : Int
  call : StoreCall
  inRange : ∀ r, call.record? now = some r → r.Dated
  loads : ∀ es, call = .replaceWithSnapshot es →
    Distinct es ∧ ∀ e ∈ es, e.key ≠ [] ∧ InRange64 e.expireAtMs

/-- A store that gets every call, and one that only gets the calls the first
one accepts. -/
structure Shadowed where
  full : PersistentMemoryStore
  kept : PersistentMemoryStore
  clock : Int

/-- The clock does not go back. -/
def Shadowed.step (ord : IterOrder) (s : Shadowed) (c : TimedCall) : Option Shadowed :=
  if c.now < s.clock then none
  else
    let (ok, full) := c.call.exec ord c.now s.full
    let kept := if ok then (c.call.exec ord c.now s.kept).2 else s.kept
    some ⟨full, kept, c.now⟩

/-- `init` on the files succeeds, from now on, and shows what it would show
had the rejected calls not been made. -/
def RejectedLeaveNothing (_ : Shadowed) (_ : TimedCall) (s' : Shadowed) : Prop :=
  SameRecovery s'.clock s'.full s'.kept

/-- No put of the empty key, and no rejected expiry of a key that the files
know with another deadline. -/
def Harmless (s : Shadowed) (c : TimedCall) (_ : Shadowed) : Prop :=
  ∀ r, c.call.record? c.now = some r →
    match r with
    | .put key _ _ => key ≠ []
    | .expire key d =>
      (s.full.memory.expireAt c.now key d).1 = true ∨ Settles c.now s.full key d
    | .del _ => True

/-- A call that writes a record is what the record does. -/
theorem exec_of_record {call : StoreCall} (h : call.record? now = some r) (ord : IterOrder)
    (s : PersistentMemoryStore) : call.exec ord now s = logRecord ord now s r := by
  cases call with
  | put key value => cases h; rfl
  | putTtl key value ttl =>
    rw [StoreCall.record?] at h
    split at h
    · cases h
    · next ht =>
      cases h
      exact if_neg ht
  | putWithExpireAt key value d => cases h; rfl
  | del key => cases h; rfl
  | expire key ttl =>
    rw [StoreCall.record?] at h
    split at h
    · cases h
    · next ht =>
      cases h
      exact if_neg ht
  | expireAt key d => cases h; rfl
  | read q => cases h
  | setMaxKeys n => cases h
  | replaceWithSnapshot es => cases h

/-- A call that writes none changes both stores alike, or neither. -/
theorem Twins.exec_unlogged {a b : PersistentMemoryStore} (h : Twins now a b) (ord : IterOrder)
    {call : StoreCall} (hnone : call.record? now = none)
    (hloads : ∀ es, call = .replaceWithSnapshot es →
      Distinct es ∧ ∀ e ∈ es, e.key ≠ [] ∧ InRange64 e.expireAtMs) :
    call.exec ord now a = (false, a) ∨
      (call.exec ord now a).1 = true ∧
        Twins now (call.exec ord now a).2 (call.exec ord now b).2 := by
  cases call with
  | put key value => cases hnone
  | putTtl key value ttl =>
    rw [StoreCall.record?] at hnone
    split at hnone
    · next ht => exact Or.inl (if_pos ht)
    · cases hnone
  | putWithExpireAt key value d => cases hnone
  | del key => cases hnone
  | expire key ttl =>
    rw [StoreCall.record?] at hnone
    split at hnone
    · next ht => exact Or.inl (if_pos ht)
    · cases hnone
  | expireAt key d => cases hnone
  | read q => exact Or.inr ⟨rfl, h.memory.read q, h.files, h.threshold, h.ops⟩
  | setMaxKeys n => exact Or.inr ⟨rfl, h.memory.setMaxKeys n, h.files, h.threshold, h.ops⟩
  | replaceWithSnapshot es => exact Or.inr (h.replace ord (hloads es rfl))

section Step

variable {ord : IterOrder} {s s' : Shadowed} {c : TimedCall}

/-- A step, by what the call answered. -/
theorem Shadowed.step_spec (h : s.step ord c = some s') :
    s.clock ≤ c.now ∧ s'.clock = c.now ∧ s'.full = (c.call.exec ord c.now s.full).2 ∧
      s'.kept = if (c.call.exec ord c.now s.full).1 then (c.call.exec ord c.now s.kept).2
        else s.kept := by
  rw [Shadowed.step] at h
  split at h
  · cases h
  · next hlt =>
    injection h with h
    subst h
    exact ⟨Int.not_lt.mp hlt, rfl, rfl, rfl⟩

theorem Harmless.of_accepted {r : WalRecord} (hr : c.call.record? c.now = some r)
    (hk : ∀ key value d, r = .put key value d → key ≠ [])
    (hacc : (SteppedStore.applyMemory c.now s.full.memory r).1 = true) : Harmless s c s' := by
  intro r' hr'
  rw [hr] at hr'
  injection hr' with hr'
  subst hr'
  cases r with
  | put key value d => exact hk key value d rfl
  | expire key d => exact Or.inl hacc
  | del key => trivial

/-- Every step of twins is one of these: both take the call, one of them
writes down an expiry it rejects, or a put of the empty key is written down. -/
theorem twins_step_cases (h : Twins s.clock s.full s.kept) (hstep : s.step ord c = some s') :
    (Twins s'.clock s'.full s'.kept ∧ Harmless s c s') ∨
      (∃ key d, c.call.record? c.now = some (.expire key d) ∧
        (s.full.memory.expireAt c.now key d).1 = false ∧
        s'.full = rejectExpire c.now s.full key d ∧ s'.kept = s.kept) ∨
      ∃ value d, c.call.record? c.now = some (.put [] value d) ∧
        s'.full.wal = walAppend s.full.wal (.put [] value d) ∧
        s'.full.snapshot = s.full.snapshot := by
  obtain ⟨hle, hclock, hfull, hkept⟩ := Shadowed.step_spec hstep
  have h := h.later hle
  cases hr : c.call.record? c.now with
  | none =>
    refine Or.inl ⟨?_, fun r hr' => by rw [hr] at hr'; cases hr'⟩
    rcases h.exec_unlogged ord hr c.loads with he | ⟨hans, ht⟩
    · rw [he] at hfull hkept
      rw [hclock, hfull, hkept]
      exact h
    · rw [hans, if_pos rfl] at hkept
      rw [hclock, hfull, hkept]
      exact ht
  | some r =>
    have hin := c.inRange r hr
    rw [exec_of_record hr] at hfull hkept
    rw [exec_of_record hr] at hkept
    have haccept : (SteppedStore.applyMemory c.now s.full.memory r).1 = true →
        r.Within InRange64 → (∀ key value d, r = .put key value d → key ≠ []) →
        Twins s'.clock s'.full s'.kept ∧ Harmless s c s' := by
      intro hacc hwithin hk
      have ht := h.logRecord ord hwithin hacc
      have hans : (logRecord ord c.now s.full r).1 = true := by
        rw [logRecord_accepted hacc]
        exact maybeSnapshotLocked_fst ord c.now _
      rw [hans, if_pos rfl] at hkept
      rw [hclock, hfull, hkept]
      exact ⟨ht, Harmless.of_accepted hr hk hacc⟩
    cases r with
    | put key value d =>
      by_cases hk : key = []
      · subst hk
        refine Or.inr (Or.inr ⟨value, d, rfl, ?_, ?_⟩)
        · rw [hfull]
          rfl
        · rw [hfull]
          rfl
      · refine Or.inl (haccept ?_ ⟨hk, hin⟩ ?_)
        · rw [SteppedStore.applyMemory, putWithExpireAt_ok _ _ hk]
        · intro k v d' he
          injection he with he
          exact he ▸ hk
    | expire key d =>
      cases hans : (s.full.memory.expireAt c.now key d).1 with
      | true => exact Or.inl (haccept hans hin fun _ _ _ he => by cases he)
      | false =>
        rw [logRecord_rejected (r := .expire key d) hans] at hfull hkept
        exact Or.inr (Or.inl ⟨key, d, rfl, hans, hfull, hkept⟩)
    | del key => exact Or.inl (haccept rfl trivial fun _ _ _ he => by cases he)

theorem rejectedLeaveNothing_step (h : Twins s.clock s.full s.kept)
    (hstep : s.step ord c = some s') :
    RejectedLeaveNothing s c s' ↔ Harmless s c s' := by
  obtain ⟨hle, hclock, -, -⟩ := Shadowed.step_spec hstep
  have h' := h.later hle
  rcases twins_step_cases h hstep with ⟨ht, hh⟩ | ⟨key, d, hr, hrej, hfull, hkept⟩ |
    ⟨value, d, hr, hwal, hsnap⟩
  · exact ⟨fun _ => hh, fun _ => ht.sameRecovery⟩
  · have hd : InRange64 d := c.inRange _ hr
    rw [RejectedLeaveNothing, hclock, hfull, hkept]
    constructor
    · intro hsame r hr'
      rw [hr] at hr'
      cases hr'
      exact Or.inr (h'.settles hd hsame)
    · intro hh
      have hs := (hh _ hr).resolve_left (by rw [hrej]; exact Bool.false_ne_true)
      exact (h'.rejectExpire hd hrej hs).sameRecovery
  · have hd : InRange64 d := c.inRange _ hr
    constructor
    · intro hsame
      obtain ⟨rs, es, -, -, hf, -, -⟩ := h.files
      obtain ⟨a', b', ha, -, -⟩ := hsame s'.clock (Int.le_refl _)
      have hwal' : s'.full.wal = walText (rs ++ [.put [] value d]) := by
        rw [hwal, show s.full.wal = walText rs from hf.wal, walAppend_walText]
      have hin : ∀ r ∈ rs ++ [.put [] value d], r.Dated := by
        intro r hm
        rcases List.mem_append.mp hm with hm | hm
        · exact (hf.records r hm).inRange
        · rw [List.mem_singleton.mp hm]
          exact hd
      rw [hsnap] at ha
      have hbad := init_emptyKey (fun _ hd => hd) hf hwal' hin ⟨value, d, by simp⟩ s'.clock
        s'.full.snapshotThreshold
      exact absurd (hbad.symm.trans ha) (by intro he; cases he)
    · intro hh
      exact absurd rfl (hh _ hr)

theorem twins_step (h : Twins s.clock s.full s.kept) (hstep : s.step ord c = some s')
    (hh : Harmless s c s') : Twins s'.clock s'.full s'.kept := by
  obtain ⟨hle, hclock, -, -⟩ := Shadowed.step_spec hstep
  rcases twins_step_cases h hstep with ⟨ht, -⟩ | ⟨key, d, hr, hrej, hfull, hkept⟩ |
    ⟨value, d, hr, -, -⟩
  · exact ht
  · have hs := (hh _ hr).resolve_left (by rw [hrej]; exact Bool.false_ne_true)
    rw [hclock, hfull, hkept]
    exact (h.later hle).rejectExpire (c.inRange _ hr) hrej hs
  · exact absurd rfl (hh _ hr)

end Step

theorem twins_fresh (threshold : Nat) (now : Int) :
    Twins now (.fresh threshold) (.fresh threshold) := by
  have hl : Listable ({} : MemoryStore) := ⟨MemoryStore.wf_empty 0, fun e he => by cases he⟩
  have hf : (PersistentMemoryStore.fresh threshold).files.Holds InRange64 [] [] :=
    ⟨rfl, by simp, Or.inl ⟨rfl, rfl⟩, distinct_nil, by simp⟩
  exact ⟨⟨hl, hl, rfl, rfl⟩, ⟨[], [], [], [], hf, hf, fun _ _ _ => rfl⟩, rfl, rfl⟩

/-- In a run the rejected calls leave nothing behind, at any time, exactly
when none of them is a put of the empty key or an expiry of a key that the
files know with another deadline. -/
theorem rejectedLeaveNothing_iff (ord : IterOrder) (threshold : Nat) (start : Int)
    (cs : List TimedCall) :
    Runs.Always (Shadowed.step ord) RejectedLeaveNothing
        ⟨.fresh threshold, .fresh threshold, start⟩ cs ↔
      Runs.Always (Shadowed.step ord) Harmless ⟨.fresh threshold, .fresh threshold, start⟩ cs := by
  have hiff : ∀ s c s', Twins s.clock s.full s.kept → s.step ord c = some s' →
      (RejectedLeaveNothing s c s' ↔ Harmless s c s') := by
    intro s c s' hs hstep
    exact rejectedLeaveNothing_step hs hstep
  refine Runs.always_iff hiff ?_ (twins_fresh threshold start)
  intro s c s' hs hstep hp
  exact twins_step hs hstep ((hiff s c s' hs hstep).mp hp)

/-! ## Without a bound on the number of keys -/

/-- The files know of no entry that the memory does not have. -/
def Foreknown (now : Int) (s : PersistentMemoryStore) : Prop :=
  Unbounded s.memory ∧ Listable s.memory ∧ ∃ rs es, s.files.Holds InRange64 rs es ∧
    ∀ restart, now ≤ restart → ∀ key e,
      live restart (replayed restart key rs (find key es)) = some e →
        live restart (held s.memory key) = some e

section Unlimited

variable {restart : Int} {s : PersistentMemoryStore}

/-- One record, for the memory at its own time and for the replay later: what
the replay still has, the memory has. -/
theorem live_effect_known (hle : now ≤ restart) {key : Str} {x y : Option StoreEntry}
    (h : ∀ e, live restart y = some e → live restart x = some e) {e : StoreEntry}
    (he : live restart (r.effect restart key y) = some e) :
    live restart (r.effect now key x) = some e := by
  cases r with
  | put k value d =>
    rw [WalRecord.effect, live_live (Int.le_refl _)] at he
    rw [WalRecord.effect, live_live hle]
    split at he
    · next hk => rw [if_pos hk]; exact he
    · next hk => rw [if_neg hk]; exact h e he
  | expire k d =>
    rw [WalRecord.effect] at he ⊢
    split at he
    · next hk =>
      obtain ⟨he', hx⟩ := live_eq_some.mp he
      obtain ⟨e', hy, rfl⟩ := Option.map_eq_some_iff.mp he'
      obtain ⟨hx', hlive⟩ := live_eq_some.mp (h e' hy)
      have hnow : live now (some e') = some e' :=
        live_earlier hle (live_eq_some.mpr ⟨rfl, hlive⟩)
      rw [if_pos hk, hx', hnow]
      exact live_eq_some.mpr ⟨rfl, hx⟩
    · next hk => rw [if_neg hk]; exact h e he
  | del k =>
    rw [WalRecord.effect] at he ⊢
    split at he
    · cases he
    · next hk => rw [if_neg hk]; exact h e he

theorem Foreknown.later (h : Foreknown now s) {t : Int} (hle : now ≤ t) : Foreknown t s := by
  obtain ⟨hu, hl, rs, es, hf, hk⟩ := h
  exact ⟨hu, hl, rs, es, hf, fun restart hr => hk restart (Int.le_trans hle hr)⟩

/-- Memory and log after a record, accepted or not. -/
theorem Foreknown.append (h : Foreknown now s) (hr : r.Within InRange64) (ops : Nat) :
    Foreknown now { s with
      wal := walAppend s.wal r
      memory := (SteppedStore.applyMemory now s.memory r).2
      opsSinceSnapshot := ops } := by
  obtain ⟨hu, hl, rs, es, hf, hk⟩ := h
  obtain ⟨hu', hh⟩ := applyRecord_held hu now (WalRecord.within_inRange.mp hr)
  rw [← applyMemory_snd] at hu' hh
  refine ⟨hu', hl.applyMemory hr.inRange now, rs ++ [r], es, hf.append hr,
    fun restart hle key e he => ?_⟩
  rw [replayed_snoc] at he
  show live restart (held (SteppedStore.applyMemory now s.memory r).2 key) = some e
  rw [hh key]
  exact live_effect_known hle (hk restart hle key) he

/-- The memory may be purged at any time. -/
theorem Foreknown.of_purged (h : Foreknown now s) {m : MemoryStore} (hu : Unbounded m)
    (hmem : ∀ e ∈ m.view, e ∈ s.memory.view)
    (hfind : ∀ key, find key m.view = find key s.memory.view ∨
      find key m.view = live now (find key s.memory.view)) :
    Foreknown now { s with memory := m } := by
  obtain ⟨-, hl, rs, es, hf, hk⟩ := h
  refine ⟨hu, ⟨hu.wf, fun e he => hl.printable e (hmem e he)⟩, rs, es, hf,
    fun restart hle key e he => ?_⟩
  have he := hk restart hle key e he
  show live restart (find key m.view) = some e
  rcases hfind key with hq | hq
  · rw [hq]
    exact he
  · rw [hq, live_live hle]
    exact he

theorem Foreknown.read (h : Foreknown now s) (q : StoreRead) :
    Foreknown now { s with memory := q.leaves now s.memory } := by
  obtain ⟨hwf, hmax, hview⟩ := leaves_spec h.1.wf now q
  refine h.of_purged ⟨hwf, hmax.trans h.1.maxKeys⟩ (fun e he => ?_) fun key => ?_
  · rw [hview] at he
    exact StoreRead.mem_on he
  · rw [hview]
    exact q.find_on now h.2.1.distinct key

theorem Foreknown.setMaxKeys (h : Foreknown now s) :
    Foreknown now { s with memory := s.memory.setMaxKeys now 0 } := by
  obtain ⟨hwf, hmax, hview⟩ := MemoryStore.setMaxKeys_keeps h.1.wf now 0
  rw [cap, if_pos rfl] at hview
  refine h.of_purged ⟨hwf, hmax⟩ (fun e he => ?_) fun key => Or.inr ?_
  · rw [hview] at he
    exact (List.mem_filter.mp he).1
  · rw [hview]
    exact find_purge h.2.1.distinct now

/-- After a snapshot the files and the memory hold the same. -/
theorem foreknown_saved {m : MemoryStore} (hu : Unbounded m) (hl : Listable m) (ord : IterOrder)
    (now : Int) (threshold ops : Nat) :
    Foreknown now ⟨(m.snapshotEntries now).2, [],
      some (snapshotText (ord.arrange (m.snapshotEntries now).1)), threshold, ops⟩ := by
  obtain ⟨hu', hh⟩ := snapshotEntries_held hu now
  refine ⟨hu', hl.read now .snapshotEntries, [], _, hl.saved ord now, fun restart _ key e he => ?_⟩
  rw [(snapshotEntries_find hu.wf ord now).2 key] at he
  show live restart (held (m.snapshotEntries now).2 key) = some e
  rw [hh key]
  exact he

theorem Foreknown.logRecord (h : Foreknown now s) (ord : IterOrder) (hr : r.Within InRange64) :
    Foreknown now (logRecord ord now s r).2 := by
  cases hans : (SteppedStore.applyMemory now s.memory r).1 with
  | false =>
    rw [logRecord_rejected hans]
    exact h.append hr s.opsSinceSnapshot
  | true =>
    have happ := h.append hr (s.opsSinceSnapshot + 1)
    rw [logRecord_accepted hans, PersistentMemoryStore.maybeSnapshotLocked]
    split
    · exact happ
    · exact foreknown_saved happ.1 happ.2.1 ord now _ 0

theorem Foreknown.replace (h : Foreknown now s) (ord : IterOrder) {es : List StoreEntry}
    (hes : Distinct es ∧ ∀ e ∈ es, e.key ≠ [] ∧ InRange64 e.expireAtMs) :
    Foreknown now (s.replaceWithSnapshot ord now es).2 := by
  have ha := MemoryStore.replaceWithSnapshot_acts s.memory now (fun e he => (hes.2 e he).1) hes.1
  have hload : s.memory.replaceWithSnapshot now es =
      (true, (s.memory.replaceWithSnapshot now es).2) := Prod.ext ha.answer rfl
  rw [PersistentMemoryStore.replaceWithSnapshot, hload]
  refine foreknown_saved ⟨ha.wf, ha.maxKeys.trans h.1.maxKeys⟩ ⟨ha.wf, fun e he => hes.2 e ?_⟩
    ord now _ 0
  rw [ha.view] at he
  exact List.mem_reverse.mp (mem_cap_purge he)

/-- No put of the empty key, and no bound on the number of keys. -/
def Unlimited (_ : Shadowed) (c : TimedCall) (_ : Shadowed) : Prop :=
  (∀ key value d, c.call.record? c.now = some (.put key value d) → key ≠ []) ∧
    ∀ n, c.call = .setMaxKeys n → n = 0

theorem Foreknown.settles (h : Foreknown now s) {key : Str} {d : Int}
    (hrej : (s.memory.expireAt now key d).1 = false) : Settles now s key d := by
  obtain ⟨hu, hl, rs, es, hf, hk⟩ := h
  intro restart hle e he
  rw [recovers_iff hf] at he
  have hlive := hk restart hle key e he
  have hans := (expireAt_held hu now key d).2.1
  have hx := live_earlier hle (x := held s.memory key) (by
    rw [hlive, (live_eq_some.mp hlive).1])
  rw [hx, (live_eq_some.mp hlive).1, hrej] at hans
  cases hans

theorem Foreknown.exec (h : Foreknown now s) (ord : IterOrder) {c : TimedCall}
    (hnow : c.now = now) (hplain : Unlimited ⟨s, s, now⟩ c ⟨s, s, now⟩) :
    Foreknown now (c.call.exec ord now s).2 := by
  subst hnow
  cases hr : c.call.record? c.now with
  | some r =>
    rw [exec_of_record hr]
    have hin := c.inRange r hr
    refine h.logRecord ord ?_
    cases r with
    | put key value d => exact ⟨hplain.1 key value d hr, hin⟩
    | expire key d => exact hin
    | del key => trivial
  | none =>
    cases hc : c.call with
    | put key value => rw [hc] at hr; cases hr
    | putTtl key value ttl =>
      rw [hc, StoreCall.record?] at hr
      split at hr
      · next ht =>
        rw [StoreCall.exec, PersistentMemoryStore.putTtl, if_pos ht]
        exact h
      · cases hr
    | putWithExpireAt key value d => rw [hc] at hr; cases hr
    | del key => rw [hc] at hr; cases hr
    | expire key ttl =>
      rw [hc, StoreCall.record?] at hr
      split at hr
      · next ht =>
        rw [StoreCall.exec, PersistentMemoryStore.expire, if_pos ht]
        exact h
      · cases hr
    | expireAt key d => rw [hc] at hr; cases hr
    | read q => exact h.read q
    | setMaxKeys n =>
      obtain rfl := hplain.2 n hc
      exact h.setMaxKeys
    | replaceWithSnapshot es =>
      exact h.replace ord (c.loads es hc)

end Unlimited

theorem harmless_of_unlimited {ord : IterOrder} {s s' : Shadowed} {c : TimedCall}
    (h : Foreknown s.clock s.full) (hstep : s.step ord c = some s') (hu : Unlimited s c s') :
    Harmless s c s' ∧ Foreknown s'.clock s'.full := by
  obtain ⟨hle, hclock, hfull, -⟩ := Shadowed.step_spec hstep
  have h := h.later hle
  constructor
  · intro r hr
    cases r with
    | put key value d => exact hu.1 key value d hr
    | expire key d =>
      cases hans : (s.full.memory.expireAt c.now key d).1 with
      | true => exact Or.inl hans
      | false => exact Or.inr (h.settles hans)
    | del key => trivial
  · rw [hclock, hfull]
    exact h.exec ord rfl hu

/-- Without a bound on the number of keys only the put of the empty key
remains. -/
theorem rejectedLeaveNothing_of_unlimited (ord : IterOrder) (threshold : Nat) (start : Int)
    (cs : List TimedCall)
    (hu : Runs.Always (Shadowed.step ord) Unlimited
      ⟨.fresh threshold, .fresh threshold, start⟩ cs) :
    Runs.Always (Shadowed.step ord) RejectedLeaveNothing
      ⟨.fresh threshold, .fresh threshold, start⟩ cs := by
  have hstep : ∀ s c s', Twins s.clock s.full s.kept ∧ Foreknown s.clock s.full →
      s.step ord c = some s' → Unlimited s c s' → RejectedLeaveNothing s c s' ∧
        Twins s'.clock s'.full s'.kept ∧ Foreknown s'.clock s'.full := by
    rintro s c s' ⟨ht, hf⟩ hs hu
    obtain ⟨hh, hf'⟩ := harmless_of_unlimited hf hs hu
    exact ⟨(rejectedLeaveNothing_step ht hs).mpr hh, twins_step ht hs hh, hf'⟩
  have htwins := twins_fresh threshold start
  refine Runs.always_of_always hstep ⟨htwins, unbounded_empty, htwins.memory.left, [], [],
    ⟨rfl, by simp, Or.inl ⟨rfl, rfl⟩, distinct_nil, by simp⟩, ?_⟩ hu
  intro restart _ key e he
  cases he

section Example

/-- `put "" x`. -/
def emptyKeyPut : TimedCall where
  now := 10
  call := .put [] (bytes ['x'])
  inRange r h := by
    cases h
    exact (by decide : InRange64 0)
  loads es h := by cases h

/-- After it the store cannot be initialised again. -/
theorem empty_key_put_poisons :
    ¬ ∀ (ord : IterOrder) (threshold : Nat) (start : Int) (cs : List TimedCall),
      Runs.Always (Shadowed.step ord) RejectedLeaveNothing
        ⟨.fresh threshold, .fresh threshold, start⟩ cs := by
  intro h
  have hstep : Shadowed.step .asStored ⟨.fresh 100, .fresh 100, 0⟩ emptyKeyPut =
      some ⟨⟨{}, walText [.put [] (bytes ['x']) 0], none, 100, 0⟩, .fresh 100, 10⟩ := rfl
  have hall := h .asStored 100 0 [emptyKeyPut]
  rw [Runs.always_cons hstep] at hall
  obtain ⟨a, b, ha, -, -⟩ := hall.1 20 (by decide)
  have hbad : (PersistentMemoryStore.init 20 (walText [.put [] (bytes ['x']) 0]) none
      100).toOption.isSome = false := by
    decide +kernel
  rw [ha] at hbad
  cases hbad

end Example

end TinyKV
