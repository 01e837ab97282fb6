import TinyKV.Proofs.Replay

/-!
# A crash between two file steps

`Backed` ties a memory to a pair of files: replaying what the files record
gives the memory back, up to entries whose deadline has passed. Each file
step of a call keeps it, for the memory the call ends with. The append adds
the record the memory is about to apply. The rename leaves the whole log
beside a snapshot that already contains it, which by `Settled.stable` is as
good as the snapshot alone. The truncation then leaves the snapshot alone.
-/

namespace TinyKV

open Recency

/-! ## Deadlines in the files -/

variable {now : Int} {f : StoreFiles} {rs : List WalRecord} {es : List StoreEntry}

theorem unexpired_of_walDeadline {r : WalRecord} (hr : r.Ok)
    (h : ∀ d, walDeadline r.line = some d → ¬ (0 < d ∧ d ≤ now)) : r.Unexpired now := by
  have hne : tagExpire ≠ tagPut := by decide
  cases r with
  | put key value d =>
    refine h d ?_
    simp [walDeadline, splitOn_line, WalRecord.fields, stoll_showInt hr.2, Except.toOption]
  | expire key d =>
    have hd : InRange64 d := hr
    refine h d ?_
    simp [walDeadline, splitOn_line, WalRecord.fields, stoll_showInt hd, Except.toOption]
  | del key => trivial

theorem StoreFiles.Holds.nonePassed {D : Int → Prop} (h : f.Holds D rs es)
    (hD : ∀ d, D d → InRange64 d) (hn : f.NonePassed now) :
    (∀ r ∈ rs, r.Unexpired now) ∧ ∀ key, live now (find key es) = find key es := by
  constructor
  · intro r hr
    refine unexpired_of_walDeadline (h.ok hD r hr) fun d hd => hn d ?_
    rw [StoreFiles.deadlines, h.walLines]
    exact List.mem_append_left _
      (List.mem_filterMap.mpr ⟨r.line, List.mem_map_of_mem hr, hd⟩)
  · intro key
    cases hf : find key es with
    | none => rfl
    | some e =>
      have he := find_mem hf
      refine live_eq_some.mpr ⟨rfl, expired_eq_false (hn e.expireAtMs ?_)⟩
      rw [StoreFiles.deadlines, h.snapshotLines]
      refine List.mem_append_right _
        (List.mem_filterMap.mpr ⟨snapshotLine e, List.mem_map_of_mem he, ?_⟩)
      simp [snapshotDeadline, splitOn_snapshotLine, stoll_showInt (hD _ (h.entries e he).2),
        Except.toOption]

/-! ## Memory and files -/

/-- `init` on these files succeeds and shows the contents of `m`. -/
def StoreFiles.Shows (restart : Int) (threshold : Nat) (f : StoreFiles) (m : MemoryStore) :
    Prop :=
  ∃ s, PersistentMemoryStore.init restart f.wal f.snapshot threshold = .ok s ∧
    ∀ key, s.memory.visible restart key = m.visible restart key

/-- The files record the records `rs` over the entries `es`, and `m` is what
a run by clocks up to `restart` made of them. -/
structure Backed (D : Int → Prop) (restart : Int) (m : MemoryStore) (f : StoreFiles)
    (rs : List WalRecord) (es : List StoreEntry) : Prop extends f.Holds D rs es where
  mem : Unbounded m
  kept : ∀ key e, held m key = some e → key ≠ [] ∧ D e.expireAtMs
  settled : (∀ r ∈ rs, r.Unexpired restart) →
    ∀ key, Settled restart key rs (find key es) (held m key)

theorem within_effect {D : Int → Prop} {key : Str} {x : Option StoreEntry} {r : WalRecord}
    (hr : r.Within D) (hx : ∀ e, x = some e → key ≠ [] ∧ D e.expireAtMs) {e : StoreEntry}
    (h : r.effect now key x = some e) : key ≠ [] ∧ D e.expireAtMs := by
  cases r with
  | put k value d =>
    rw [WalRecord.effect, live_eq_some] at h
    obtain ⟨h, -⟩ := h
    split at h
    · next hk =>
      injection h with h
      subst h
      exact ⟨hk ▸ hr.1, hr.2⟩
    · exact hx e h
  | expire k d =>
    rw [WalRecord.effect] at h
    split at h
    · rw [Option.map_eq_some_iff] at h
      obtain ⟨e', he, rfl⟩ := h
      exact ⟨(hx e' (live_eq_some.mp he).1).1, hr⟩
    · exact hx e h
  | del k =>
    rw [WalRecord.effect] at h
    split at h
    · cases h
    · exact hx e h

namespace Backed

variable {D : Int → Prop} {restart : Int} {m : MemoryStore}
theorem shows (h : Backed D restart m f rs es) (hD : ∀ d, D d → InRange64 d)
    (hn : f.NonePassed restart) (threshold : Nat) : f.Shows restart threshold m := by
  obtain ⟨hrs, hes⟩ := h.nonePassed hD hn
  obtain ⟨s, hinit, hu, hl⟩ := h.init hD restart threshold
  refine ⟨s, hinit, fun key => ?_⟩
  rw [MemoryStore.visible_eq hu.wf, MemoryStore.visible_eq h.mem.wf]
  refine (hl key).trans ?_
  rw [replayed_eq_folded hrs (hes key)]
  rcases h.settled hrs key with hy | ⟨-, -, hx⟩
  · rw [← hy]
    rfl
  · exact absurd (hes key) hx

theorem append (h : Backed D restart m f rs es) (hD : ∀ d, D d → InRange64 d)
    (hle : now ≤ restart) {r : WalRecord} (hr : r.Within D) :
    Backed D restart (applyRecord now m r) { f with wal := walAppend f.wal r } (rs ++ [r])
      es := by
  have hok : r.Ok := WalRecord.within_inRange.mp (hr.mono hD)
  obtain ⟨hu, hh⟩ := applyRecord_held h.mem now hok
  refine ⟨h.toHolds.append hr, hu, fun key e he => ?_, fun hrs key => ?_⟩
  · rw [hh key] at he
    exact within_effect hr (h.kept key) he
  · rw [hh key]
    exact (h.settled (fun r' hm => hrs r' (List.mem_append_left _ hm)) key).snoc
      (fun r' hm => hrs r' (List.mem_append_left _ hm)) (hrs r (by simp)) hle

/-- The memory may be purged at any time. -/
theorem of_purged (h : Backed D restart m f rs es) (hle : now ≤ restart) {m' : MemoryStore}
    (hu : Unbounded m')
    (hh : ∀ key, held m' key = held m key ∨ held m' key = live now (held m key)) :
    Backed D restart m' f rs es := by
  refine ⟨h.toHolds, hu, fun key e he => ?_, fun hrs key => ?_⟩
  · rcases hh key with hk | hk
    · exact h.kept key e (hk.symm.trans he)
    · exact h.kept key e (live_eq_some.mp (hk.symm.trans he)).1
  · rcases hh key with hk | hk
    · rw [hk]
      exact h.settled hrs key
    · rw [hk]
      exact (h.settled hrs key).purge hrs hle

section Snapshot

variable (h : Backed D restart m f rs es) (hle : now ≤ restart) (ord : IterOrder)

include h hle

theorem purge : Backed D restart (m.snapshotEntries now).2 f rs es := by
  obtain ⟨hu, hh⟩ := snapshotEntries_held h.mem now
  exact h.of_purged hle hu fun key => Or.inr (hh key)

/-- The new snapshot is in place, and the log it was taken from still there. -/
theorem rename : Backed D restart (m.snapshotEntries now).2
    { f with snapshot := some (snapshotText (ord.arrange (m.snapshotEntries now).1)) } rs
    (ord.arrange (m.snapshotEntries now).1) := by
  obtain ⟨hu, hh⟩ := snapshotEntries_held h.mem now
  obtain ⟨hd, hf⟩ := snapshotEntries_find h.mem.wf ord now
  refine ⟨⟨h.wal, h.records, Or.inr rfl, hd, fun e he => ?_⟩, hu, fun key e he => ?_,
    fun hrs key => Or.inl ?_⟩
  · have he' := (hf e.key).symm.trans (find_of_mem hd he)
    exact h.kept e.key e (live_eq_some.mp he').1
  · rw [hh key] at he
    exact h.kept key e (live_eq_some.mp he).1
  · rw [hh key, hf key]
    exact ((h.settled hrs key).stable hrs hle).symm

/-- The log has been emptied after that. -/
theorem truncate : Backed D restart (m.snapshotEntries now).2
    { f with
      wal := []
      snapshot := some (snapshotText (ord.arrange (m.snapshotEntries now).1)) } []
    (ord.arrange (m.snapshotEntries now).1) := by
  have hren := h.rename hle ord
  refine ⟨⟨rfl, by simp, hren.snapshot, hren.distinct, hren.entries⟩, hren.mem, hren.kept,
    fun _ key => Or.inl ?_⟩
  rw [(snapshotEntries_held h.mem now).2 key, (snapshotEntries_find h.mem.wf ord now).2 key]
  rfl

end Snapshot

/-- The snapshot is gone, and every key it had is written in the log. -/
theorem lose (h : Backed D restart m f rs es)
    (hw : ∀ key, Rewritten key rs ∨ find key es = none) :
    Backed D restart m { f with snapshot := none } rs [] := by
  refine ⟨⟨h.wal, h.records, Or.inl ⟨rfl, rfl⟩, distinct_nil, by simp⟩, h.mem, h.kept,
    fun hrs key => Or.inl ?_⟩
  rw [find_nil]
  rcases h.settled hrs key with hy | ⟨hy, hn, -⟩
  · rw [hy]
    rcases hw key with hkey | hkey
    · exact folded_of_rewritten hkey _ _
    · rw [hkey]
  · rw [hy]
    exact (folded_none hn).symm

end Backed

/-! ## The file steps of a call -/

/-- `maybe_snapshot_locked` goes on to save. -/
def SteppedStore.SnapshotDue (s : SteppedStore) : Prop :=
  ¬ (s.store.snapshotThreshold = 0 ∨ s.store.opsSinceSnapshot < s.store.snapshotThreshold)

/-- The snapshot is removed because the first rename failed. -/
def SaveOutcome.Removes : SaveOutcome → Prop
  | .replaced true _ => True
  | _ => False

theorem SaveOutcome.getLastD_steps (text : Str) (f : StoreFiles) {o : SaveOutcome}
    (h : o.saved = true) : (o.steps text f).getLastD f = { f with snapshot := some text } := by
  cases o with
  | notWritten => cases h
  | renamed => rfl
  | replaced removed again =>
    have ha : again = true := h
    subst ha
    cases removed <;> rfl

/-- Every state of the files during a save is the old one, the new one, or
the old one without its snapshot. -/
theorem SaveOutcome.mem_steps {text : Str} {f' : StoreFiles} {o : SaveOutcome}
    (h : f' = f ∨ f' ∈ o.steps text f) :
    f' = f ∨ f' = { f with snapshot := some text } ∨
      o.Removes ∧ f' = { f with snapshot := none } := by
  rcases h with rfl | h
  · exact Or.inl rfl
  · cases o with
    | notWritten => cases h
    | renamed => exact Or.inr (Or.inl (List.mem_singleton.mp h))
    | replaced removed again =>
      cases removed <;> cases again <;>
        simp only [SaveOutcome.steps, SaveOutcome.Removes, List.mem_cons, List.not_mem_nil,
          or_false, if_true, Bool.false_eq_true, if_false] at h ⊢ <;> tauto

theorem ResetOutcome.mem_steps {f' : StoreFiles} {o : ResetOutcome} (h : f' = f ∨ f' ∈ o.steps f) :
    f' = f ∨ f' = { f with wal := [] } := by
  rcases h with rfl | h
  · exact Or.inl rfl
  · cases o with
    | notTruncated => cases h
    | notReopened => exact Or.inr (List.mem_singleton.mp h)
    | done => exact Or.inr (List.mem_singleton.mp h)

/-- The files after a list of steps are the last of them, or the ones the
steps started from. -/
theorem getLastD_mem (steps : List StoreFiles) (f : StoreFiles) :
    steps.getLastD f = f ∨ steps.getLastD f ∈ steps := by
  rw [List.getLastD_eq_getLast?]
  cases hl : steps.getLast? with
  | none => exact Or.inl rfl
  | some x => exact Or.inr (List.mem_of_getLast? hl)

section Steps

variable {D : Int → Prop} {restart : Int} {s : SteppedStore}
variable {ord : IterOrder} {o : FileOutcomes}

/-- However the steps of a snapshot go, the files keep the memory, as long
as no snapshot is removed whose keys are not in the log. -/
theorem maybeSnapshotLocked_backed
    (h : Backed D restart s.store.memory s.files rs es) (hle : now ≤ restart)
    (hsafe : s.SnapshotDue → o.save.Removes → ∀ key, Rewritten key rs ∨ find key es = none)
    (f : StoreFiles) (hf : f = s.files ∨ f = (s.maybeSnapshotLocked ord now o).after.files ∨
      f ∈ (s.maybeSnapshotLocked ord now o).trace) :
    ∃ rs es, Backed D restart (s.maybeSnapshotLocked ord now o).after.store.memory f rs es := by
  unfold SteppedStore.maybeSnapshotLocked at hf ⊢
  split at hf
  · next hnot =>
    rw [if_pos hnot]
    rcases hf with rfl | rfl | hf
    · exact ⟨rs, es, h⟩
    · exact ⟨rs, es, h⟩
    · cases hf
  · next hdue =>
    rw [if_neg hdue]
    have hsave : ∀ f, f = s.files ∨ f ∈ o.save.steps
        (snapshotText (ord.arrange (s.store.memory.snapshotEntries now).1)) s.files →
        ∃ rs es, Backed D restart (s.store.memory.snapshotEntries now).2 f rs es := by
      intro f hf
      rcases SaveOutcome.mem_steps hf with rfl | rfl | ⟨hrem, rfl⟩
      · exact ⟨_, _, h.purge hle⟩
      · exact ⟨_, _, h.rename hle ord⟩
      · exact ⟨_, _, (h.purge hle).lose (hsafe hdue hrem)⟩
    simp only at hf ⊢
    cases hs : o.save.saved with
    | false =>
      rw [hs] at hf
      simp only [Bool.false_eq_true, if_false] at hf ⊢
      rcases hf with hf | hl | hm
      · exact hsave f (Or.inl hf)
      · exact hsave f (hl ▸ getLastD_mem _ _)
      · exact hsave f (Or.inr hm)
    | true =>
      have hlast := SaveOutcome.getLastD_steps
        (snapshotText (ord.arrange (s.store.memory.snapshotEntries now).1)) s.files hs
      have hreset : ∀ f, f = { s.files with snapshot := some (snapshotText
            (ord.arrange (s.store.memory.snapshotEntries now).1)) } ∨
          f ∈ o.reset.steps { s.files with snapshot := some (snapshotText
            (ord.arrange (s.store.memory.snapshotEntries now).1)) } →
          ∃ rs es, Backed D restart (s.store.memory.snapshotEntries now).2 f rs es := by
        intro f hf
        rcases ResetOutcome.mem_steps hf with rfl | rfl
        · exact ⟨_, _, h.rename hle ord⟩
        · exact ⟨_, _, h.truncate hle ord⟩
      rw [← hlast] at hreset
      -- both answers of `reset` leave the same memory and the same trace
      cases hopen : o.reset.reopened <;>
      · simp only [hs, hopen, if_true, Bool.false_eq_true, if_false] at hf ⊢
        rcases hf with hf | hl | hm
        · exact hsave f (Or.inl hf)
        · exact hreset f (hl ▸ getLastD_mem _ _)
        · rcases List.mem_append.mp hm with hm | hm
          · exact hsave f (Or.inr hm)
          · exact hreset f (Or.inr hm)

/-- The store once the record is in the log, applied and counted. -/
def SteppedStore.recorded (now : Int) (s : SteppedStore) (r : WalRecord) : SteppedStore :=
  { s with store := { s.store with
      wal := walAppend s.store.wal r
      memory := applyRecord now s.store.memory r
      opsSinceSnapshot := s.store.opsSinceSnapshot + 1 } }

theorem update_backed (hD : ∀ d, D d → InRange64 d)
    (h : Backed D restart s.store.memory s.files rs es) (hle : now ≤ restart) {r : WalRecord}
    (hr : r.Within D)
    (hsafe : s.walOpen = true → (s.recorded now r).SnapshotDue → o.save.Removes →
      ∀ key, Rewritten key (rs ++ [r]) ∨ find key es = none)
    (f : StoreFiles) (hf : f = (s.update ord now o r).after.files ∨
      f ∈ (s.update ord now o r).trace) :
    ∃ rs es, Backed D restart (s.update ord now o r).after.store.memory f rs es := by
  have happ : Backed D restart (s.recorded now r).store.memory (s.recorded now r).files
      (rs ++ [r]) es := h.append hD hle hr
  rw [SteppedStore.update] at hf ⊢
  cases hopen : s.walOpen with
  | false =>
    simp only [hopen, Bool.false_eq_true, if_false, List.not_mem_nil, or_false] at hf ⊢
    exact ⟨rs, es, hf ▸ h⟩
  | true =>
    have hmem : (s.setFiles { s.files with wal := walAppend s.store.wal r }).store.memory =
        s.store.memory := rfl
    have hsnd := applyMemory_snd now s.store.memory r
    simp only [hopen, if_true, hmem] at hf ⊢
    cases hap : SteppedStore.applyMemory now s.store.memory r with
    | mk answer memory =>
      rw [hap] at hsnd hf
      simp only at hsnd
      subst hsnd
      cases answer with
      | false =>
        simp only [List.mem_singleton] at hf ⊢
        exact ⟨_, _, (hf.elim id id : f = _) ▸ happ⟩
      | true =>
        simp only [List.mem_cons] at hf ⊢
        refine maybeSnapshotLocked_backed happ hle (hsafe hopen) f ?_
        exact hf.elim (fun hl => Or.inr (Or.inl hl)) (Or.imp id Or.inr)

end Steps

/-! ## Calls -/

/-- A call, one file step at a time. -/
def stepCall (ord : IterOrder) (o : FileOutcomes) (s : SteppedStore) (c : Call) :
    SteppedResult :=
  match c.op with
  | .put key value => s.put ord c.now o key value
  | .putTtl key value ttl => s.putTtl ord c.now o key value ttl
  | .putWithExpireAt key value d => s.putWithExpireAt ord c.now o key value d
  | .del key => s.del ord c.now o key
  | .expire key ttl => s.expire ord c.now o key ttl
  | .expireAt key d => s.expireAt ord c.now o key d

theorem stepCall_cases (ord : IterOrder) (o : FileOutcomes) (s : SteppedStore) (c : Call) :
    stepCall ord o s c = s.update ord c.now o c.record ∨ stepCall ord o s c = ⟨false, s, []⟩ := by
  obtain ⟨now, op, hk, hok⟩ := c
  cases op with
  | put key value => exact Or.inl rfl
  | putTtl key value ttl =>
    by_cases ht : ttl ≤ 0
    · exact Or.inr (if_pos ht)
    · exact Or.inl (if_neg ht)
  | putWithExpireAt key value d => exact Or.inl rfl
  | del key => exact Or.inl rfl
  | expire key ttl =>
    by_cases ht : ttl ≤ 0
    · exact Or.inr (if_pos ht)
    · exact Or.inl (if_neg ht)
  | expireAt key d => exact Or.inl rfl

/-- Where every file step succeeds, the stepped call is the call. -/
theorem maybeSnapshotLocked_plain (ord : IterOrder) (now : Int) (s : PersistentMemoryStore) :
    (SteppedStore.maybeSnapshotLocked ord now {} ⟨s, true⟩).answer =
        (s.maybeSnapshotLocked ord now).1 ∧
      (SteppedStore.maybeSnapshotLocked ord now {} ⟨s, true⟩).after =
        ⟨(s.maybeSnapshotLocked ord now).2, true⟩ := by
  unfold SteppedStore.maybeSnapshotLocked PersistentMemoryStore.maybeSnapshotLocked
  by_cases hdue : s.snapshotThreshold = 0 ∨ s.opsSinceSnapshot < s.snapshotThreshold
  · rw [if_pos hdue, if_pos hdue]
    exact ⟨rfl, rfl⟩
  · rw [if_neg hdue, if_neg hdue]
    exact ⟨rfl, rfl⟩

theorem update_plain (ord : IterOrder) (now : Int) (s : PersistentMemoryStore) (r : WalRecord) :
    (SteppedStore.update ord now {} ⟨s, true⟩ r).answer = (logRecord ord now s r).1 ∧
      (SteppedStore.update ord now {} ⟨s, true⟩ r).after = ⟨(logRecord ord now s r).2, true⟩ := by
  simp only [SteppedStore.update, SteppedStore.setFiles, logRecord, if_true]
  cases SteppedStore.applyMemory now s.memory r with
  | mk answer memory =>
    cases answer with
    | false => exact ⟨rfl, rfl⟩
    | true => exact maybeSnapshotLocked_plain ord now _

theorem stepCall_plain (ord : IterOrder) (s : PersistentMemoryStore) (c : Call) :
    (stepCall ord {} ⟨s, true⟩ c).answer = (exec ord s c).1 ∧
      (stepCall ord {} ⟨s, true⟩ c).after = ⟨(exec ord s c).2, true⟩ := by
  obtain ⟨now, op, hk, hok⟩ := c
  cases op with
  | put key value => exact update_plain ord now s _
  | putTtl key value ttl =>
    simp only [stepCall, exec, SteppedStore.putTtl, PersistentMemoryStore.putTtl]
    split
    · exact ⟨rfl, rfl⟩
    · exact update_plain ord now s _
  | putWithExpireAt key value d => exact update_plain ord now s _
  | del key => exact update_plain ord now s _
  | expire key ttl =>
    simp only [stepCall, exec, SteppedStore.expire, PersistentMemoryStore.expire]
    split
    · exact ⟨rfl, rfl⟩
    · exact update_plain ord now s _
  | expireAt key d => exact update_plain ord now s _

/-- The store after calls, whatever they answered. -/
def execAll (ord : IterOrder) (s : PersistentMemoryStore) (cs : List Call) :
    PersistentMemoryStore :=
  cs.foldl (fun s c => (exec ord s c).2) s

/-- The files a crash during the call can leave behind. -/
def crashPoints (ord : IterOrder) (s : PersistentMemoryStore) (c : Call) : List StoreFiles :=
  ⟨s.wal, s.snapshot⟩ :: (stepCall ord {} ⟨s, true⟩ c).trace

theorem stepCall_backed {restart : Int} (ord : IterOrder) {s : PersistentMemoryStore} {c : Call}
    (h : Backed InRange64 restart s.memory ⟨s.wal, s.snapshot⟩ rs es) (hle : c.now ≤ restart)
    (hf : f = ⟨(exec ord s c).2.wal, (exec ord s c).2.snapshot⟩ ∨
      f ∈ (stepCall ord {} ⟨s, true⟩ c).trace) :
    ∃ rs es, Backed InRange64 restart (exec ord s c).2.memory f rs es := by
  have hafter := (stepCall_plain ord s c).2
  have hmem : (exec ord s c).2.memory = (stepCall ord {} ⟨s, true⟩ c).after.store.memory := by
    rw [hafter]
  have hf' : f = (stepCall ord {} ⟨s, true⟩ c).after.files ∨
      f ∈ (stepCall ord {} ⟨s, true⟩ c).trace := by
    rw [hafter]
    exact hf
  rw [hmem]
  rcases stepCall_cases ord {} ⟨s, true⟩ c with hc | hc
  · rw [hc] at hf' ⊢
    exact update_backed (s := ⟨s, true⟩) (o := {}) (fun _ hd => hd) h hle
      (WalRecord.within_inRange.mpr c.ok) (fun _ _ hrem => False.elim hrem) f hf'
  · rw [hc] at hf' ⊢
    rcases hf' with rfl | hf'
    · exact ⟨rs, es, h⟩
    · cases hf'

theorem backed_fresh (restart : Int) (threshold : Nat) :
    Backed InRange64 restart (PersistentMemoryStore.fresh threshold).memory
      ⟨(PersistentMemoryStore.fresh threshold).wal,
        (PersistentMemoryStore.fresh threshold).snapshot⟩ [] [] where
  wal := rfl
  records := by simp
  snapshot := Or.inl ⟨rfl, rfl⟩
  distinct := distinct_nil
  entries := by simp
  mem := unbounded_empty
  kept key e he := by cases he
  settled _ key := Or.inl rfl

theorem backed_execAll (ord : IterOrder) {restart : Int} (cs : List Call)
    {s : PersistentMemoryStore} (h : Backed InRange64 restart s.memory ⟨s.wal, s.snapshot⟩ rs es)
    (hle : ∀ c ∈ cs, c.now ≤ restart) :
    ∃ rs es, Backed InRange64 restart (execAll ord s cs).memory
      ⟨(execAll ord s cs).wal, (execAll ord s cs).snapshot⟩ rs es := by
  induction cs generalizing s rs es with
  | nil => exact ⟨rs, es, h⟩
  | cons c cs ih =>
    obtain ⟨rs', es', h'⟩ := stepCall_backed ord h (hle c List.mem_cons_self) (Or.inl rfl)
    exact ih h' fun c' hm => hle c' (List.mem_cons_of_mem _ hm)

/-- A crash after any file step of a call, with no deadline in the files
passed when the store is initialised again: the contents are those before
the call or those after it. -/
theorem crash_shows_before_or_after (ord : IterOrder) (threshold : Nat) (cs : List Call)
    (c : Call) (restart : Int) (f : StoreFiles) (hle : ∀ c' ∈ cs ++ [c], c'.now ≤ restart)
    (hf : f ∈ crashPoints ord (execAll ord (.fresh threshold) cs) c)
    (hn : f.NonePassed restart) :
    f.Shows restart threshold (execAll ord (.fresh threshold) cs).memory ∨
      f.Shows restart threshold (exec ord (execAll ord (.fresh threshold) cs) c).2.memory := by
  obtain ⟨rs, es, h⟩ := backed_execAll ord cs (backed_fresh restart threshold)
    fun c' hm => hle c' (List.mem_append_left _ hm)
  rcases List.mem_cons.mp hf with rfl | hf
  · exact Or.inl (h.shows (fun _ hd => hd) hn threshold)
  · obtain ⟨rs', es', h'⟩ := stepCall_backed ord h (hle c (by simp)) (Or.inr hf)
    exact Or.inr (h'.shows (fun _ hd => hd) hn threshold)

section Example

/-- `put a 1`, then `expire_at a 900` as the call that fills the log. -/
def leased : List Call :=
  [⟨10, .put (bytes ['a']) (bytes ['1']), by decide, by decide⟩]

def leaseMoved : Call := ⟨20, .expireAt (bytes ['a']) 900, by decide, by decide⟩

/-- The files between the rename of the snapshot and the truncation of the
log. -/
def renamedFiles : StoreFiles where
  wal := walText [.put (bytes ['a']) (bytes ['1']) 0, .expire (bytes ['a']) 900]
  snapshot := some (snapshotText [⟨bytes ['a'], bytes ['1'], 900⟩])

theorem crash_shows_before_or_after_renamed :
    renamedFiles.Shows 500 2 (execAll .asStored (.fresh 2) leased).memory ∨
      renamedFiles.Shows 500 2
        (exec .asStored (execAll .asStored (.fresh 2) leased) leaseMoved).2.memory :=
  crash_shows_before_or_after .asStored 2 leased leaseMoved 500 renamedFiles (by decide)
    (by decide +kernel) (by decide +kernel)

end Example

end TinyKV
