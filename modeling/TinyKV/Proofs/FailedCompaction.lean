import TinyKV.Lib.Runs
import TinyKV.Proofs.CrashPoints

/-!
# Compaction whose file steps fail

Any step of a compaction may fail, at every attempt. A failed save leaves
the old snapshot and the whole log, a failed reset the new snapshot and the
whole log, and both are as good as before. The exception is the fallback of
`SnapshotFile::save`: when the first rename fails the old snapshot is
removed before the rename is tried again, and until that has succeeded the
log is all there is. The files then keep the contents exactly when the log
has written every key the snapshot had.
-/

namespace TinyKV

open Recency

/-! ## Reads -/

theorem read_held {m : MemoryStore} (h : Unbounded m) (now : Int) (q : StoreRead) :
    Unbounded (q.leaves now m) ∧ ∀ key, held (q.leaves now m) key = held m key ∨
      held (q.leaves now m) key = live now (held m key) := by
  obtain ⟨hwf, hmax, hview⟩ := leaves_spec h.wf now q
  refine ⟨⟨hwf, hmax.trans h.maxKeys⟩, fun key => ?_⟩
  simp only [held, hview]
  exact q.find_on now (MemoryStore.view_distinct h.wf) key

/-! ## Which keys the files name -/

theorem walRewritten_line (r : WalRecord) (key : Str) :
    walRewritten r.line = some key ↔ r.Rewrites key := by
  have hne : ¬ (tagExpire = tagPut ∨ tagExpire = tagDel) := by decide
  cases r <;>
    simp [walRewritten, splitOn_line, WalRecord.fields, unescape_escape, WalRecord.Rewrites, hne]

theorem StoreFiles.Holds.rewritten_iff {D : Int → Prop} {f : StoreFiles}
    {rs : List WalRecord} {es : List StoreEntry} (h : f.Holds D rs es) :
    f.Rewritten ↔ ∀ key, TinyKV.Rewritten key rs ∨ find key es = none := by
  have hwal : ∀ key, key ∈ f.walLines.filterMap walRewritten ↔ TinyKV.Rewritten key rs := by
    intro key
    simp [h.walLines, List.mem_filterMap, walRewritten_line, TinyKV.Rewritten]
  have hsnap : ∀ key, key ∈ f.snapshotLines.filterMap snapshotKey ↔
      ∃ e ∈ es, e.key = key := by
    intro key
    simp [h.snapshotLines, List.mem_filterMap, snapshotKey, splitOn_snapshotLine,
      unescape_escape]
  constructor
  · intro hr key
    by_cases hk : ∃ e ∈ es, e.key = key
    · exact Or.inl ((hwal key).mp (hr key ((hsnap key).mpr hk)))
    · refine Or.inr (find_eq_none.mpr fun e he hek => hk ⟨e, he, hek⟩)
  · intro hr key hk
    obtain ⟨e, he, hek⟩ := (hsnap key).mp hk
    refine (hwal key).mpr ((hr key).resolve_right fun hn => ?_)
    exact find_eq_none.mp hn e he hek

/-! ## Without deadlines -/

/-- The deadline `0`, which is none. -/
def Timeless (d : Int) : Prop := d = 0

theorem Timeless.inRange {d : Int} (h : Timeless d) : InRange64 d := by
  rw [h]
  decide

theorem Timeless.live {x : Option StoreEntry} (h : ∀ e, x = some e → Timeless e.expireAtMs)
    (now : Int) : Recency.live now x = x := by
  cases x with
  | none => rfl
  | some e =>
    have he : e.expireAtMs = 0 := h e rfl
    exact live_eq_some.mpr ⟨rfl, expired_eq_false (by omega)⟩

theorem Timeless.unexpired {r : WalRecord} (h : r.Within Timeless) (now : Int) :
    r.Unexpired now := by
  cases r with
  | put key value d => rw [h.2]; simp [WalRecord.Unexpired]
  | expire key d =>
    have hd : d = 0 := h
    rw [hd]
    simp [WalRecord.Unexpired]
  | del key => trivial

section Timeless

variable {restart : Int} {m : MemoryStore} {f : StoreFiles} {rs : List WalRecord}
variable {es : List StoreEntry}

theorem Backed.timeless_find (h : Backed Timeless restart m f rs es) (now : Int) (key : Str) :
    live now (find key es) = find key es := by
  refine Timeless.live (fun e he => ?_) now
  exact (h.entries e (find_mem he)).2

/-- Without deadlines the memory is just what the files record. -/
theorem Backed.timeless_held (h : Backed Timeless restart m f rs es) (key : Str) :
    held m key = folded key rs (find key es) := by
  rcases h.settled (fun r hr => Timeless.unexpired (h.records r hr) restart) key with hy |
    ⟨-, -, hx⟩
  · exact hy
  · exact absurd (h.timeless_find restart key) hx

theorem Backed.timeless_at (h : Backed Timeless restart m f rs es) (now : Int) :
    Backed Timeless now m f rs es :=
  ⟨h.toHolds, h.mem, h.kept, fun _ key => Or.inl (h.timeless_held key)⟩

/-- What `init` makes of files without deadlines, at any time. -/
theorem StoreFiles.Holds.timeless_init (h : f.Holds Timeless rs es) (now : Int)
    (threshold : Nat) :
    ∃ s, PersistentMemoryStore.init now f.wal f.snapshot threshold = .ok s ∧
      ∀ key, s.memory.visible now key = folded key rs (find key es) := by
  have hrs : ∀ r ∈ rs, r.Unexpired now := fun r hr => Timeless.unexpired (h.records r hr) now
  obtain ⟨s, hinit, hu, hl⟩ := h.init (fun _ => Timeless.inRange) now threshold
  refine ⟨s, hinit, fun key => ?_⟩
  have hx : live now (find key es) = find key es :=
    Timeless.live (fun e he => (h.entries e (find_mem he)).2) now
  rw [MemoryStore.visible_eq hu.wf]
  refine (hl key).trans ?_
  rw [replayed_eq_folded hrs hx, folded_live hrs hx]

theorem Backed.timeless_visible (h : Backed Timeless restart m f rs es) (now : Int)
    (key : Str) : m.visible now key = folded key rs (find key es) := by
  rw [MemoryStore.visible_eq h.mem.wf, ← h.timeless_held]
  exact Timeless.live (fun e he => (h.kept key e he).2) now

theorem Backed.timeless_shows (h : Backed Timeless restart m f rs es) (now : Int)
    (threshold : Nat) : f.Shows now threshold m := by
  obtain ⟨s, hinit, hs⟩ := h.timeless_init now threshold
  exact ⟨s, hinit, fun key => (hs key).trans (h.timeless_visible now key).symm⟩

/-- Files without their snapshot show the same exactly when the log has
written every key of it. -/
theorem Backed.shows_lost_iff (h : Backed Timeless restart m f rs es) (now : Int)
    (threshold : Nat) :
    { f with snapshot := none }.Shows now threshold m ↔ f.Rewritten := by
  have hholds : { f with snapshot := none }.Holds Timeless rs [] :=
    ⟨h.wal, h.records, Or.inl ⟨rfl, rfl⟩, distinct_nil, by simp⟩
  obtain ⟨s, hinit, hs⟩ := hholds.timeless_init now threshold
  rw [h.rewritten_iff]
  constructor
  · rintro ⟨s', hinit', hsame⟩ key
    rw [hinit] at hinit'
    injection hinit' with hinit'
    subst hinit'
    have hk := hsame key
    rw [hs key, h.timeless_visible, find_nil] at hk
    by_contra hno
    obtain ⟨hnw, hne⟩ := not_or.mp hno
    obtain ⟨e, he⟩ := Option.ne_none_iff_exists'.mp hne
    rw [folded_none hnw, he] at hk
    rcases folded_form key rs with ⟨hw, -⟩ | ⟨-, hx | ⟨d, hx⟩⟩
    · exact hnw hw
    · rw [hx] at hk
      cases hk
    · rw [hx] at hk
      cases hk
  · intro hw
    refine ⟨s, hinit, fun key => ?_⟩
    rw [hs key, h.timeless_visible, find_nil]
    rcases hw key with hw | hn
    · exact folded_of_rewritten hw _ _
    · rw [hn]

end Timeless

/-! ## Runs -/

/-- The operations without deadlines, the updates with non-empty keys and
with the outcomes of their file steps. -/
inductive PlainOp
  | put (key value : Str) (hk : key ≠ []) (o : FileOutcomes)
  | del (key : Str) (hk : key ≠ []) (o : FileOutcomes)
  | read (r : StoreRead)

def PlainOp.exec (ord : IterOrder) (now : Int) (s : SteppedStore) : PlainOp → SteppedResult
  | .put key value _ o => s.put ord now o key value
  | .del key _ o => s.del ord now o key
  | .read r =>
    ⟨true, { s with store := { s.store with memory := r.leaves now s.store.memory } }, []⟩

/-- The record an update appends, and how its file steps go. -/
def PlainOp.update? : PlainOp → Option (WalRecord × FileOutcomes)
  | .put key value _ o => some (.put key value 0, o)
  | .del key _ o => some (.del key, o)
  | .read _ => none

/-- One operation at a reading of the clock. -/
def plainStep (ord : IterOrder) (s : SteppedStore) (e : Int × PlainOp) : Option SteppedStore :=
  some (e.2.exec ord e.1 s).after

/-- After every file step of the operation, and after the operation, `init`
on the files shows the contents of the memory, whenever it runs. -/
def LosesNothing (ord : IterOrder) (s : SteppedStore) (e : Int × PlainOp) (s' : SteppedStore) :
    Prop :=
  ∀ f, f = s'.files ∨ f ∈ (e.2.exec ord e.1 s).trace →
    ∀ restart threshold, f.Shows restart threshold s'.store.memory

/-- If the operation removes the snapshot, the log has written every key of
it. -/
def SparesSnapshot (s : SteppedStore) (e : Int × PlainOp) (_ : SteppedStore) : Prop :=
  ∀ r o, e.2.update? = some (r, o) → s.walOpen = true → (s.recorded e.1 r).SnapshotDue →
    o.save.Removes → (s.recorded e.1 r).files.Rewritten

/-- The memory is what the files record. -/
def OnDisk (s : SteppedStore) : Prop :=
  ∃ rs es, Backed Timeless 0 s.store.memory s.files rs es

section Step

variable {ord : IterOrder} {now : Int} {s : SteppedStore} {r : WalRecord} {o : FileOutcomes}

/-- An update of `PlainOp`: its record has no deadline and the memory takes it. -/
structure PlainUpdate (now : Int) (s : SteppedStore) (r : WalRecord) : Prop where
  within : r.Within Timeless
  taken : (SteppedStore.applyMemory now s.store.memory r).1 = true

theorem PlainOp.update_spec {op : PlainOp} (h : op.update? = some (r, o)) :
    op.exec ord now s = s.update ord now o r ∧ PlainUpdate now s r := by
  cases op with
  | put key value hk o' =>
    cases h
    refine ⟨rfl, ⟨hk, rfl⟩, ?_⟩
    rw [SteppedStore.applyMemory, putWithExpireAt_ok _ _ hk]
  | del key hk o' =>
    cases h
    exact ⟨rfl, trivial, rfl⟩
  | read q => cases h

/-- A snapshot that is due purges the memory and goes through the steps of
`save`. -/
theorem maybeSnapshotLocked_saves (ord : IterOrder) (now : Int) (o : FileOutcomes)
    (hdue : s.SnapshotDue) :
    (s.maybeSnapshotLocked ord now o).after.store.memory =
        (s.store.memory.snapshotEntries now).2 ∧
      ∀ f ∈ o.save.steps
          (snapshotText (ord.arrange (s.store.memory.snapshotEntries now).1)) s.files,
        f ∈ (s.maybeSnapshotLocked ord now o).trace := by
  unfold SteppedStore.maybeSnapshotLocked
  rw [if_neg hdue]
  simp only
  split
  · split
    · exact ⟨rfl, fun f hf => List.mem_append_left _ hf⟩
    · exact ⟨rfl, fun f hf => List.mem_append_left _ hf⟩
  · exact ⟨rfl, fun f hf => hf⟩

/-- An update the memory takes, with the log's stream open. -/
theorem update_open (ord : IterOrder) (o : FileOutcomes) (hu : PlainUpdate now s r)
    (hopen : s.walOpen = true) :
    (s.update ord now o r).after = ((s.recorded now r).maybeSnapshotLocked ord now o).after ∧
      (s.update ord now o r).trace = (s.recorded now r).files ::
        ((s.recorded now r).maybeSnapshotLocked ord now o).trace := by
  have hmem : (s.setFiles { s.files with wal := walAppend s.store.wal r }).store.memory =
      s.store.memory := rfl
  have happly : SteppedStore.applyMemory now s.store.memory r =
      (true, applyRecord now s.store.memory r) :=
    Prod.ext hu.taken (applyMemory_snd now s.store.memory r)
  rw [SteppedStore.update]
  simp only [hopen, if_true, hmem, happly]
  exact ⟨rfl, rfl⟩

theorem removed_mem_steps (hrem : o.save.Removes) (text : Str) (f : StoreFiles) :
    { f with snapshot := none } ∈ o.save.steps text f := by
  cases hs : o.save with
  | notWritten => rw [hs] at hrem; exact hrem.elim
  | renamed => rw [hs] at hrem; exact hrem.elim
  | replaced removed again =>
    rw [hs] at hrem
    cases removed with
    | false => exact hrem.elim
    | true => exact List.mem_cons_self

theorem update_onDisk (hs : OnDisk s) (hu : PlainUpdate now s r)
    (hsafe : s.walOpen = true → (s.recorded now r).SnapshotDue → o.save.Removes →
      (s.recorded now r).files.Rewritten) (f : StoreFiles)
    (hf : f = (s.update ord now o r).after.files ∨ f ∈ (s.update ord now o r).trace) :
    ∃ rs es, Backed Timeless 0 (s.update ord now o r).after.store.memory f rs es := by
  obtain ⟨rs, es, hb⟩ := hs
  have hb := hb.timeless_at now
  have happ : Backed Timeless now (s.recorded now r).store.memory (s.recorded now r).files
      (rs ++ [r]) es := hb.append (fun _ => Timeless.inRange) (Int.le_refl _) hu.within
  obtain ⟨rs', es', hb'⟩ := update_backed (fun _ => Timeless.inRange) hb (Int.le_refl _)
    hu.within (fun hopen hdue hrem => happ.rewritten_iff.mp (hsafe hopen hdue hrem)) f hf
  exact ⟨rs', es', hb'.timeless_at 0⟩

/-- An update loses nothing exactly when it does not remove a snapshot the
log cannot replace: between the removal and the second rename the log is all
there is. -/
theorem losesNothing_update (hs : OnDisk s) (hu : PlainUpdate now s r) :
    (∀ f, f = (s.update ord now o r).after.files ∨ f ∈ (s.update ord now o r).trace →
        ∀ restart threshold, f.Shows restart threshold
          (s.update ord now o r).after.store.memory) ↔
      (s.walOpen = true → (s.recorded now r).SnapshotDue → o.save.Removes →
        (s.recorded now r).files.Rewritten) := by
  constructor
  · intro hall hopen hdue hrem
    obtain ⟨rs, es, hb⟩ := hs
    have happ : Backed Timeless now (s.recorded now r).store.memory (s.recorded now r).files
        (rs ++ [r]) es :=
      (hb.timeless_at now).append (fun _ => Timeless.inRange) (Int.le_refl _) hu.within
    obtain ⟨hafter, htrace⟩ := update_open ord o hu hopen
    obtain ⟨hmem, hsteps⟩ := maybeSnapshotLocked_saves ord now o hdue
    have hlost := hall _ (Or.inr (by
      rw [htrace]
      exact List.mem_cons_of_mem _ (hsteps _ (removed_mem_steps hrem _ _)))) 0 0
    rw [hafter, hmem] at hlost
    exact ((happ.purge (Int.le_refl _)).shows_lost_iff 0 0).mp hlost
  · intro hsafe f hf restart threshold
    obtain ⟨rs, es, hb⟩ := update_onDisk hs hu hsafe f hf
    exact hb.timeless_shows restart threshold

theorem read_onDisk (hs : OnDisk s) (q : StoreRead) :
    OnDisk ((PlainOp.read q).exec ord now s).after := by
  obtain ⟨rs, es, hb⟩ := hs
  obtain ⟨hu, hh⟩ := read_held hb.mem now q
  exact ⟨rs, es, ((hb.timeless_at now).of_purged (Int.le_refl _) hu hh).timeless_at 0⟩

end Step

section Run

variable {ord : IterOrder} {s s' : SteppedStore} {e : Int × PlainOp}

theorem losesNothing_step (hs : OnDisk s) (hstep : plainStep ord s e = some s') :
    LosesNothing ord s e s' ↔ SparesSnapshot s e s' := by
  injection hstep with hstep
  subst hstep
  obtain ⟨now, op⟩ := e
  have hwrite : ∀ r o, op.update? = some (r, o) →
      (LosesNothing ord s (now, op) (op.exec ord now s).after ↔
        SparesSnapshot s (now, op) (op.exec ord now s).after) := by
    intro r o hup
    obtain ⟨hexec, hu⟩ := @PlainOp.update_spec ord now s r o op hup
    rw [LosesNothing, hexec]
    refine (losesNothing_update hs hu).trans ⟨fun h r' o' hup' => ?_, fun h => h r o hup⟩
    rw [hup] at hup'
    cases hup'
    exact h
  cases op with
  | put key value hk o => exact hwrite _ _ rfl
  | del key hk o => exact hwrite _ _ rfl
  | read q =>
    refine ⟨fun _ r o hup => (by cases hup), fun _ f hf restart threshold => ?_⟩
    obtain ⟨rs, es, hb⟩ := @read_onDisk ord now s hs q
    rcases hf with rfl | hf
    · exact hb.timeless_shows restart threshold
    · cases hf

theorem onDisk_step (hs : OnDisk s) (hstep : plainStep ord s e = some s')
    (hsafe : SparesSnapshot s e s') : OnDisk s' := by
  injection hstep with hstep
  subst hstep
  obtain ⟨now, op⟩ := e
  have hwrite : ∀ r o, op.update? = some (r, o) → OnDisk (op.exec ord now s).after := by
    intro r o hup
    obtain ⟨hexec, hu⟩ := @PlainOp.update_spec ord now s r o op hup
    rw [hexec]
    exact update_onDisk hs hu (hsafe r o hup) _ (Or.inl rfl)
  cases op with
  | put key value hk o => exact hwrite _ _ rfl
  | del key hk o => exact hwrite _ _ rfl
  | read q => exact read_onDisk hs q

theorem onDisk_fresh (threshold : Nat) : OnDisk ⟨.fresh threshold, true⟩ :=
  ⟨[], [], ⟨rfl, by simp, Or.inl ⟨rfl, rfl⟩, distinct_nil, by simp⟩, unbounded_empty,
    fun _ _ he => (by cases he), fun _ _ => Or.inl rfl⟩

end Run

/-- A run loses nothing exactly when no operation of it removes a snapshot
with a key the log does not write. -/
theorem losesNothing_iff (ord : IterOrder) (threshold : Nat) (ops : List (Int × PlainOp)) :
    Runs.Always (plainStep ord) (LosesNothing ord) ⟨.fresh threshold, true⟩ ops ↔
      Runs.Always (plainStep ord) SparesSnapshot ⟨.fresh threshold, true⟩ ops := by
  have hiff : ∀ s e s', OnDisk s → plainStep ord s e = some s' →
      (LosesNothing ord s e s' ↔ SparesSnapshot s e s') := by
    intro s e s' hs hstep
    exact losesNothing_step hs hstep
  refine Runs.always_iff hiff ?_ (onDisk_fresh threshold)
  intro s e s' hs hstep hl
  exact onDisk_step hs hstep ((hiff s e s' hs hstep).mp hl)

section Example

/-- `put a 1`, which is compacted at once. -/
def compacted : SteppedStore :=
  ((PlainOp.put (bytes ['a']) (bytes ['1']) (by decide) {}).exec .asStored 10
    ⟨.fresh 1, true⟩).after

/-- `put b 2`, whose compaction fails in both renames but not in the removal
between them. -/
def failedRenames : Int × PlainOp :=
  (20, .put (bytes ['b']) (bytes ['2']) (by decide) ⟨.replaced true false, .done⟩)

/-- What is left on disk after it. -/
def strippedFiles : StoreFiles := ⟨walText [.put (bytes ['b']) (bytes ['2']) 0], none⟩

theorem failed_renames_lose_key :
    ¬ ∀ (ord : IterOrder) (threshold : Nat) (ops : List (Int × PlainOp)),
      Runs.Always (plainStep ord) (LosesNothing ord) ⟨.fresh threshold, true⟩ ops := by
  intro h
  have hall := h .asStored 1
    [(10, .put (bytes ['a']) (bytes ['1']) (by decide) {}), failedRenames]
  have hlast : LosesNothing .asStored compacted failedRenames
      (failedRenames.2.exec .asStored failedRenames.1 compacted).after :=
    ((Runs.always_cons rfl []).mp ((Runs.always_cons rfl _).mp hall).2).1
  have hfiles : strippedFiles =
      (failedRenames.2.exec .asStored failedRenames.1 compacted).after.files := by
    decide +kernel
  obtain ⟨s, hinit, hsame⟩ := hlast strippedFiles (Or.inl hfiles) 30 1
  have hlost : (PersistentMemoryStore.init 30 strippedFiles.wal strippedFiles.snapshot
      1).toOption.bind (fun s => s.memory.visible 30 (bytes ['a'])) = none := by
    decide +kernel
  have hheld : ((failedRenames.2.exec .asStored failedRenames.1
      compacted).after.store.memory.visible 30 (bytes ['a'])).isSome := by
    decide +kernel
  rw [hinit] at hlost
  have hnone : s.memory.visible 30 (bytes ['a']) = none := hlost
  rw [hsame] at hnone
  rw [hnone] at hheld
  cases hheld

end Example

end TinyKV
