import TinyKV.Model.StoreCalls
import TinyKV.Model.StoreFaults
import TinyKV.Proofs.Recovery

/-!
# Replaying a log over a snapshot that already contains it

Seen from one key, a record either leaves the entry alone, gives it a new
deadline, or sets it to something that no longer depends on what was there.
A sequence of records is again one of these three (`folded_form`), and each
of the three does the same the second time as the first. That is why a log
can be replayed over a snapshot taken after its last record.

The run that wrote the log may have lost an entry on the way that the
records alone would keep: one whose deadline passed. `Settled` says that
this is the only difference, and that it only happens to entries the log
has not written since.

`Holds` says what a pair of files records, and `Holds.init` what `init`
makes of it.
-/

namespace TinyKV

open Recency

/-! ## Records, one key at a time -/

/-- What a sequence of records makes of the entry of a key if nothing is ever
purged. -/
def folded (key : Str) (rs : List WalRecord) (x : Option StoreEntry) : Option StoreEntry :=
  rs.foldl (fun x r => r.set key x) x

/-- What replaying the records at one instant makes of the entry of a key. -/
def replayed (now : Int) (key : Str) (rs : List WalRecord) (x : Option StoreEntry) :
    Option StoreEntry :=
  rs.foldl (fun x r => r.effect now key x) x

/-- Some record puts or deletes the key. -/
def Rewritten (key : Str) (rs : List WalRecord) : Prop := ∃ r ∈ rs, r.Rewrites key

/-- The deadline of the record, if it has one, has not passed. -/
def WalRecord.Unexpired (now : Int) : WalRecord → Prop
  | .put _ _ d | .expire _ d => ¬ (0 < d ∧ d ≤ now)
  | .del _ => True

@[simp] theorem folded_nil (key : Str) (x : Option StoreEntry) : folded key [] x = x := rfl

theorem folded_snoc (key : Str) (rs : List WalRecord) (r : WalRecord) (x : Option StoreEntry) :
    folded key (rs ++ [r]) x = r.set key (folded key rs x) := by
  rw [folded, List.foldl_append]
  rfl

theorem replayed_snoc (now : Int) (key : Str) (rs : List WalRecord) (r : WalRecord)
    (x : Option StoreEntry) :
    replayed now key (rs ++ [r]) x = r.effect now key (replayed now key rs x) := by
  rw [replayed, List.foldl_append]
  rfl

variable {key : Str} {rs : List WalRecord} {r : WalRecord} {now : Int} {x : Option StoreEntry}
  {D : Int → Prop}

theorem rewritten_snoc : Rewritten key (rs ++ [r]) ↔ Rewritten key rs ∨ r.Rewrites key := by
  simp [Rewritten, or_and_right, exists_or]

/-- A record that does not put or delete the key leaves its entry alone or
moves its deadline. -/
theorem set_form (h : ¬ r.Rewrites key) :
    (∀ x, r.set key x = x) ∨
      ∃ d, ∀ x, r.set key x = x.map fun entry => { entry with expireAtMs := d } := by
  cases r with
  | put k value d => exact Or.inl fun x => if_neg h
  | expire k d =>
    by_cases hk : k = key
    · exact Or.inr ⟨d, fun x => if_pos hk⟩
    · exact Or.inl fun x => if_neg hk
  | del k => exact Or.inl fun x => if_neg h

theorem set_of_rewrites (h : r.Rewrites key) (x y : Option StoreEntry) :
    r.set key x = r.set key y := by
  cases r with
  | put k value d => exact (if_pos h).trans (if_pos h).symm
  | expire k d => exact h.elim
  | del k => exact (if_pos h).trans (if_pos h).symm

/-- Any number of records: the key was written, or left alone, or only its
deadline was moved. -/
theorem folded_form (key : Str) (rs : List WalRecord) :
    (Rewritten key rs ∧ ∃ y, ∀ x, folded key rs x = y) ∨
      ¬ Rewritten key rs ∧ ((∀ x, folded key rs x = x) ∨
        ∃ d, ∀ x, folded key rs x = x.map fun entry => { entry with expireAtMs := d }) := by
  induction rs using List.reverseRecOn with
  | nil => exact Or.inr ⟨by simp [Rewritten], Or.inl fun x => rfl⟩
  | append_singleton rs r ih =>
    simp only [folded_snoc, rewritten_snoc]
    by_cases hr : r.Rewrites key
    · exact Or.inl ⟨Or.inr hr, r.set key none, fun x => set_of_rewrites hr _ _⟩
    · rcases ih with ⟨hw, y, hy⟩ | ⟨hw, ih⟩
      · exact Or.inl ⟨Or.inl hw, r.set key y, fun x => by rw [hy]⟩
      · refine Or.inr ⟨not_or.mpr ⟨hw, hr⟩, ?_⟩
        rcases set_form hr with hid | ⟨d, hd⟩
        · simpa only [hid] using ih
        · refine Or.inr ⟨d, fun x => ?_⟩
          rcases ih with hx | ⟨d', hx⟩
          · rw [hx, hd]
          · rw [hx, hd, Option.map_map]
            rfl

theorem folded_idem (key : Str) (rs : List WalRecord) (x : Option StoreEntry) :
    folded key rs (folded key rs x) = folded key rs x := by
  rcases folded_form key rs with ⟨-, y, hy⟩ | ⟨-, hx | ⟨d, hd⟩⟩
  · rw [hy, hy]
  · rw [hx, hx]
  · rw [hd, hd, Option.map_map]
    rfl

theorem folded_none (h : ¬ Rewritten key rs) : folded key rs none = none := by
  rcases folded_form key rs with ⟨hw, -⟩ | ⟨-, hx | ⟨d, hd⟩⟩
  · exact absurd hw h
  · exact hx none
  · rw [hd]
    rfl

theorem folded_of_rewritten (h : Rewritten key rs) (x y : Option StoreEntry) :
    folded key rs x = folded key rs y := by
  rcases folded_form key rs with ⟨-, z, hz⟩ | ⟨hn, -⟩
  · rw [hz, hz]
  · exact absurd h hn

/-! ## Entries whose deadline has not passed -/

theorem live_earlier {later : Int} (hle : now ≤ later) (h : live later x = x) : live now x = x := by
  cases x with
  | none => rfl
  | some entry =>
    have he := (live_eq_some.mp h).2
    refine live_eq_some.mpr ⟨rfl, ?_⟩
    cases hx : entry.expired now with
    | false => rfl
    | true => rw [expired_mono hle hx] at he; cases he

theorem live_ne (h : live now x ≠ x) : live now x = none := by
  cases x with
  | none => rfl
  | some entry =>
    rw [live_some] at h ⊢
    split
    · rfl
    · next hx => exact absurd (if_neg hx) h

theorem expired_eq_false {entry : StoreEntry}
    (h : ¬ (0 < entry.expireAtMs ∧ entry.expireAtMs ≤ now)) : entry.expired now = false := by
  rw [StoreEntry.expired, ← Bool.decide_and]
  exact decide_eq_false h

theorem set_live (hr : r.Unexpired now) (hx : live now x = x) :
    live now (r.set key x) = r.set key x := by
  cases r with
  | put k value d =>
    rw [WalRecord.set]
    split
    · exact live_eq_some.mpr ⟨rfl, expired_eq_false hr⟩
    · exact hx
  | expire k d =>
    rw [WalRecord.set]
    split
    · cases x with
      | none => rfl
      | some entry => exact live_eq_some.mpr ⟨rfl, expired_eq_false hr⟩
    · exact hx
  | del k =>
    rw [WalRecord.set]
    split
    · rfl
    · exact hx

/-- While nothing has expired, purging does nothing. -/
theorem effect_eq_set {later : Int} (hle : now ≤ later) (hr : r.Unexpired later)
    (hx : live later x = x) : r.effect now key x = r.set key x := by
  cases r with
  | put k value d => exact live_earlier hle (set_live hr hx)
  | expire k d => rw [WalRecord.effect, WalRecord.set, live_earlier hle hx]
  | del k => rfl

theorem effect_of_rewrites (h : r.Rewrites key) (x y : Option StoreEntry) :
    r.effect now key x = r.effect now key y := by
  cases r with
  | put k value d =>
    have hk : k = key := h
    rw [WalRecord.effect, WalRecord.effect, if_pos hk, if_pos hk]
  | expire k d => exact h.elim
  | del k => exact (if_pos h).trans (if_pos h).symm

/-- A record that does not write the key either does what it says or finds
the entry expired. -/
theorem effect_form (h : ¬ r.Rewrites key) (now : Int) (y : Option StoreEntry) :
    r.effect now key y = r.set key y ∨ r.effect now key y = none ∧ live now y ≠ y := by
  by_cases hy : live now y = y
  · cases r with
    | put k value d =>
      have hk : k ≠ key := h
      rw [WalRecord.effect, WalRecord.set, if_neg hk]
      exact Or.inl hy
    | expire k d => rw [WalRecord.effect, WalRecord.set, hy]; exact Or.inl rfl
    | del k => exact Or.inl rfl
  · cases r with
    | put k value d =>
      have hk : k ≠ key := h
      rw [WalRecord.effect, if_neg hk]
      exact Or.inr ⟨live_ne hy, hy⟩
    | expire k d =>
      rw [WalRecord.effect, WalRecord.set]
      split
      · exact Or.inr ⟨by rw [live_ne hy]; rfl, hy⟩
      · exact Or.inl rfl
    | del k => exact Or.inl rfl

theorem folded_live (hrs : ∀ r ∈ rs, r.Unexpired now) (hx : live now x = x) :
    live now (folded key rs x) = folded key rs x := by
  induction rs generalizing x with
  | nil => exact hx
  | cons r rs ih =>
    exact ih (fun r' h => hrs r' (List.mem_cons_of_mem _ h))
      (set_live (hrs r List.mem_cons_self) hx)

theorem replayed_eq_folded (hrs : ∀ r ∈ rs, r.Unexpired now) (hx : live now x = x) :
    replayed now key rs x = folded key rs x := by
  induction rs generalizing x with
  | nil => rfl
  | cons r rs ih =>
    have hr := hrs r List.mem_cons_self
    rw [replayed, List.foldl_cons, effect_eq_set (Int.le_refl _) hr hx]
    exact ih (fun r' h => hrs r' (List.mem_cons_of_mem _ h)) (set_live hr hx)

/-! ## What the run made of an entry -/

/-- `y` is what the records made of `x`, or nothing is left of `x` because
its deadline passed before a record wrote the key. -/
def Settled (restart : Int) (key : Str) (rs : List WalRecord) (x y : Option StoreEntry) : Prop :=
  y = folded key rs x ∨ y = none ∧ ¬ Rewritten key rs ∧ live restart x ≠ x

section Settled

variable {restart : Int} {y : Option StoreEntry}

/-- An entry the records made that has expired is the one the log found. -/
theorem stale_of_expired (hrs : ∀ r ∈ rs, r.Unexpired restart)
    (hle : now ≤ restart) (h : live now (folded key rs x) ≠ folded key rs x) :
    ¬ Rewritten key rs ∧ live restart x ≠ x := by
  constructor
  · intro hw
    apply h
    rw [folded_of_rewritten hw x none]
    exact live_earlier hle (folded_live hrs rfl)
  · intro hx
    exact h (live_earlier hle (folded_live hrs hx))

theorem Settled.purge (h : Settled restart key rs x y) (hrs : ∀ r ∈ rs, r.Unexpired restart)
    (hle : now ≤ restart) : Settled restart key rs x (live now y) := by
  rcases h with rfl | ⟨rfl, h⟩
  · by_cases hy : live now (folded key rs x) = folded key rs x
    · exact Or.inl hy
    · exact Or.inr ⟨live_ne hy, stale_of_expired hrs hle hy⟩
  · exact Or.inr ⟨rfl, h⟩

theorem Settled.snoc (h : Settled restart key rs x y) {r : WalRecord}
    (hrs : ∀ r ∈ rs, r.Unexpired restart) (hr : r.Unexpired restart) (hle : now ≤ restart) :
    Settled restart key (rs ++ [r]) x (r.effect now key y) := by
  by_cases hw : r.Rewrites key
  · left
    rw [folded_snoc, effect_of_rewrites hw y none, effect_eq_set hle hr rfl]
    exact set_of_rewrites hw _ _
  · have hsnoc : ¬ Rewritten key rs → ¬ Rewritten key (rs ++ [r]) := fun hn h =>
      (rewritten_snoc.mp h).elim hn hw
    rcases h with rfl | ⟨rfl, hn, hx⟩
    · rcases effect_form hw now (folded key rs x) with he | ⟨he, hy⟩
      · exact Or.inl (he.trans (folded_snoc key rs r x).symm)
      · obtain ⟨hn, hx⟩ := stale_of_expired hrs hle hy
        exact Or.inr ⟨he, hsnoc hn, hx⟩
    · rcases effect_form hw now none with he | ⟨he, hy⟩
      · refine Or.inr ⟨?_, hsnoc hn, hx⟩
        rw [he]
        rcases set_form hw with hs | ⟨d, hs⟩
        · exact hs none
        · rw [hs]; rfl
      · exact absurd rfl hy

/-- Replaying the log over what the run made of it changes nothing. -/
theorem Settled.stable (h : Settled restart key rs x y) (hrs : ∀ r ∈ rs, r.Unexpired restart)
    (hle : now ≤ restart) : folded key rs (live now y) = live now y := by
  rcases h.purge hrs hle with h | ⟨h, hn, -⟩
  · rw [h]
    exact folded_idem key rs x
  · rw [h]
    exact folded_none hn

end Settled

/-! ## What the files record -/

/-- A record with a key the store accepts and a deadline in `D`. -/
def WalRecord.Within (D : Int → Prop) : WalRecord → Prop
  | .put key _ d => key ≠ [] ∧ D d
  | .expire _ d => D d
  | .del _ => True

theorem WalRecord.Within.mono {E : Int → Prop} (h : ∀ d, D d → E d) (hr : r.Within D) :
    r.Within E := by
  cases r with
  | put key value d => exact ⟨hr.1, h d hr.2⟩
  | expire key d => exact h d hr
  | del key => trivial

theorem WalRecord.within_inRange : r.Within InRange64 ↔ r.Ok := by
  cases r <;> exact Iff.rfl

/-- The log holds the records `rs` and the snapshot, if there is one, the
entries `es`, all of them with deadlines in `D`. -/
structure StoreFiles.Holds (D : Int → Prop) (f : StoreFiles) (rs : List WalRecord)
    (es : List StoreEntry) : Prop where
  wal : f.wal = walText rs
  records : ∀ r ∈ rs, r.Within D
  snapshot : f.snapshot = none ∧ es = [] ∨ f.snapshot = some (snapshotText es)
  distinct : Distinct es
  entries : ∀ e ∈ es, e.key ≠ [] ∧ D e.expireAtMs

namespace StoreFiles.Holds

variable {f : StoreFiles} {es : List StoreEntry}

theorem ok (h : f.Holds D rs es) (hD : ∀ d, D d → InRange64 d) : ∀ r ∈ rs, r.Ok :=
  fun r hr => WalRecord.within_inRange.mp ((h.records r hr).mono hD)

theorem append (h : f.Holds D rs es) {r : WalRecord} (hr : r.Within D) :
    { f with wal := walAppend f.wal r }.Holds D (rs ++ [r]) es where
  wal := by rw [h.wal, walAppend_walText]
  records := by
    intro r' hm
    rcases List.mem_append.mp hm with hm | hm
    · exact h.records r' hm
    · rw [List.mem_singleton.mp hm]
      exact hr
  snapshot := h.snapshot
  distinct := h.distinct
  entries := h.entries

theorem walLines (h : f.Holds D rs es) : f.walLines = rs.map WalRecord.line := by
  rw [StoreFiles.walLines, h.wal, getlines_walText]

theorem snapshotLines (h : f.Holds D rs es) : f.snapshotLines = es.map snapshotLine := by
  rw [StoreFiles.snapshotLines]
  rcases h.snapshot with ⟨hs, rfl⟩ | hs
  · rw [hs]
    rfl
  · rw [hs]
    show (Text.getlines 10 (snapshotText es)).tail = _
    rw [getlines_snapshotText]
    rfl

theorem snapshotLoad (h : f.Holds D rs es) (hD : ∀ d, D d → InRange64 d) (now : Int) :
    TinyKV.snapshotLoad now {} f.snapshot = .ok (es.foldl
      (fun s entry => (s.putWithExpireAt now entry.key entry.value entry.expireAtMs).2) {}) := by
  rcases h.snapshot with ⟨hs, rfl⟩ | hs
  · rw [hs]
    rfl
  · rw [hs]
    exact snapshotLoad_text now {} fun e he => ⟨(h.entries e he).1, hD _ (h.entries e he).2⟩

end StoreFiles.Holds

theorem live_effect_congr {y : Option StoreEntry} (h : live now x = live now y) (r : WalRecord) :
    live now (r.effect now key x) = live now (r.effect now key y) := by
  cases r with
  | put k value d =>
    rw [WalRecord.effect, WalRecord.effect, live_live (Int.le_refl _),
      live_live (Int.le_refl _)]
    split
    · rfl
    · exact h
  | expire k d =>
    rw [WalRecord.effect, WalRecord.effect, h]
    split
    · rfl
    · exact h
  | del k =>
    rw [WalRecord.effect, WalRecord.effect]
    split
    · rfl
    · exact h

/-- Applying records to a store is applying them to each of its entries. -/
theorem foldl_applyRecord (hrs : ∀ r ∈ rs, r.Ok) {s : MemoryStore} (h : Unbounded s)
    {x : Str → Option StoreEntry} (hx : ∀ key, live now (held s key) = live now (x key)) :
    Unbounded (rs.foldl (applyRecord now) s) ∧
      ∀ key, live now (held (rs.foldl (applyRecord now) s) key) =
        live now (replayed now key rs (x key)) := by
  induction rs generalizing s x with
  | nil => exact ⟨h, hx⟩
  | cons r rs ih =>
    obtain ⟨hu, hr⟩ := applyRecord_held h now (hrs r List.mem_cons_self)
    refine ih (fun r' hm => hrs r' (List.mem_cons_of_mem _ hm)) hu fun key => ?_
    rw [hr key]
    exact live_effect_congr (hx key) r

/-- `init` on such files puts the entries one by one and then applies the
records. -/
theorem StoreFiles.Holds.init_eq {f : StoreFiles} {es : List StoreEntry} (h : f.Holds D rs es)
    (hD : ∀ d, D d → InRange64 d) (now : Int) (threshold : Nat) :
    PersistentMemoryStore.init now f.wal f.snapshot threshold =
      .ok ⟨rs.foldl (applyRecord now) (es.foldl (fun s entry =>
        (s.putWithExpireAt now entry.key entry.value entry.expireAtMs).2) {}),
        f.wal, f.snapshot, threshold, 0⟩ :=
  init_of_recovered (s := ⟨{}, f.wal, f.snapshot, threshold, 0⟩)
    ⟨rs, _, h.wal, h.ok hD, h.snapshotLoad hD now, rfl⟩ threshold

/-- Seen from one key, it replays the records over the entry. -/
theorem StoreFiles.Holds.init {f : StoreFiles} {es : List StoreEntry} (h : f.Holds D rs es)
    (hD : ∀ d, D d → InRange64 d) (now : Int) (threshold : Nat) :
    ∃ s, PersistentMemoryStore.init now f.wal f.snapshot threshold = .ok s ∧
      Unbounded s.memory ∧ ∀ key, live now (held s.memory key) =
        live now (replayed now key rs (find key es)) := by
  obtain ⟨hu, hl⟩ := load_held now es unbounded_empty h.distinct fun e he => (h.entries e he).1
  obtain ⟨hu', hl'⟩ := foldl_applyRecord (h.ok hD) hu (x := fun key => find key es) fun key => by
    rw [hl key]
    show live now ((find key es).or none) = _
    rw [Option.or_none]
  exact ⟨_, h.init_eq hD now threshold, hu', hl'⟩

/-! ## Updates

`put_with_expire_at`, `del` and `expire_at` are one function of the record
they write. -/

def logRecord (ord : IterOrder) (now : Int) (s : PersistentMemoryStore) (r : WalRecord) :
    Bool × PersistentMemoryStore :=
  let s := { s with wal := walAppend s.wal r }
  match SteppedStore.applyMemory now s.memory r with
  | (false, memory) => (false, { s with memory := memory })
  | (true, memory) =>
    PersistentMemoryStore.maybeSnapshotLocked ord now
      { s with memory := memory, opsSinceSnapshot := s.opsSinceSnapshot + 1 }

theorem applyMemory_snd (now : Int) (m : MemoryStore) (r : WalRecord) :
    (SteppedStore.applyMemory now m r).2 = applyRecord now m r := by
  cases r <;> rfl

section Update

variable {ord : IterOrder} {s : PersistentMemoryStore}

theorem logRecord_accepted (h : (SteppedStore.applyMemory now s.memory r).1 = true) :
    logRecord ord now s r = PersistentMemoryStore.maybeSnapshotLocked ord now
      { s with
        wal := walAppend s.wal r
        memory := (SteppedStore.applyMemory now s.memory r).2
        opsSinceSnapshot := s.opsSinceSnapshot + 1 } := by
  have ha : SteppedStore.applyMemory now s.memory r =
      (true, (SteppedStore.applyMemory now s.memory r).2) := Prod.ext h rfl
  simp only [logRecord]
  rw [ha]

theorem logRecord_rejected (h : (SteppedStore.applyMemory now s.memory r).1 = false) :
    logRecord ord now s r = (false,
      { s with
        wal := walAppend s.wal r
        memory := (SteppedStore.applyMemory now s.memory r).2 }) := by
  have ha : SteppedStore.applyMemory now s.memory r =
      (false, (SteppedStore.applyMemory now s.memory r).2) := Prod.ext h rfl
  simp only [logRecord]
  rw [ha]

theorem maybeSnapshotLocked_fst (ord : IterOrder) (now : Int) (s : PersistentMemoryStore) :
    (s.maybeSnapshotLocked ord now).1 = true := by
  rw [PersistentMemoryStore.maybeSnapshotLocked]
  split
  · rfl
  · rfl

end Update

/-! ## Reads -/

/-- A read on the recency list. -/
def StoreRead.on (now : Int) (l : List StoreEntry) : StoreRead → List StoreEntry
  | .get key | .exists_ key => (Recency.read now key l).2
  | .ttl key => MemoryStore.ttlLeaves now key l
  | .size | .snapshotEntries => purge now l

theorem leaves_spec {m : MemoryStore} (h : m.WF) (now : Int) (q : StoreRead) :
    (q.leaves now m).WF ∧ (q.leaves now m).maxKeys = m.maxKeys ∧
      (q.leaves now m).view = q.on now m.view := by
  cases q with
  | get key =>
    have ha := MemoryStore.get_acts h now key
    exact ⟨ha.wf, ha.maxKeys, ha.view⟩
  | exists_ key =>
    have ha := MemoryStore.exists_acts h now key
    exact ⟨ha.wf, ha.maxKeys, ha.view⟩
  | ttl key => exact MemoryStore.ttl_keeps h now key
  | size => exact MemoryStore.evictExpiredLocked_spec h now
  | snapshotEntries => exact (MemoryStore.snapshotEntries_spec h now).2

theorem StoreRead.mem_on {l : List StoreEntry} {q : StoreRead} {e : StoreEntry}
    (h : e ∈ q.on now l) : e ∈ l := by
  have hread : ∀ key, e ∈ (Recency.read now key l).2 → e ∈ l := by
    intro key he
    rw [Recency.read] at he
    cases hf : find key l with
    | none => rwa [hf] at he
    | some entry =>
      rw [hf] at he
      simp only at he
      split at he
      · exact (List.mem_filter.mp he).1
      · rcases List.mem_cons.mp he with rfl | he
        · exact find_mem hf
        · exact (List.mem_filter.mp he).1
  cases q with
  | get key => exact hread key h
  | exists_ key => exact hread key h
  | ttl key =>
    rw [StoreRead.on, MemoryStore.ttlLeaves] at h
    cases hf : find key l with
    | none => rwa [hf] at h
    | some entry =>
      rw [hf] at h
      simp only at h
      split at h
      · exact (List.mem_filter.mp h).1
      · exact h
  | size => exact (List.mem_filter.mp h).1
  | snapshotEntries => exact (List.mem_filter.mp h).1

/-- Seen from one key a read does nothing, except to an expired entry. -/
theorem StoreRead.find_on (now : Int) {l : List StoreEntry} (hd : Distinct l) (q : StoreRead)
    (key : Str) :
    find key (q.on now l) = find key l ∨ find key (q.on now l) = live now (find key l) := by
  have hremove : ∀ k entry, find k l = some entry → entry.expired now = true →
      find key (remove k l) = find key l ∨ find key (remove k l) = live now (find key l) := by
    intro k entry hf hx
    by_cases hk : key = k
    · subst hk
      rw [find_remove_self, hf, live_some, if_pos hx]
      exact Or.inr rfl
    · exact Or.inl (find_remove_ne hk _)
  have hread : ∀ k, find key (Recency.read now k l).2 = find key l ∨
      find key (Recency.read now k l).2 = live now (find key l) := by
    intro k
    rw [Recency.read]
    cases hf : find k l with
    | none => exact Or.inl rfl
    | some entry =>
      simp only
      split
      · next hx => exact hremove k entry hf hx
      · rw [find_push]
        split
        · next hk => exact Or.inl (by rw [← hk, find_key hf, hf])
        · exact Or.inl rfl
  cases q with
  | get k => exact hread k
  | exists_ k => exact hread k
  | ttl k =>
    rw [StoreRead.on, MemoryStore.ttlLeaves]
    cases hf : find k l with
    | none => exact Or.inl rfl
    | some entry =>
      simp only
      split
      · next hx => exact hremove k entry hf hx
      · exact Or.inl rfl
  | size => exact Or.inr (find_purge hd now)
  | snapshotEntries => exact Or.inr (find_purge hd now)

end TinyKV
