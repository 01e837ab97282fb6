import Mathlib.Data.List.Induction
import TinyKV.Proofs.MemoryStore
import TinyKV.Proofs.Codec

/-!
# What a restart of the persistent store brings back

Replaying the log is not the run over again: the run applied each record at
its own time, the replay applies all of them at the time of the restart, and
both purge what has expired by *their* clock. A put with a deadline that the
restart finds in the past is purged at once, so an `EXPIRE` record after it,
which moved the deadline of a live key, finds no key to move. That is the
one way in which the two can differ, and the main theorem of this file says
so: the restart shows the same contents if and only if no key still visible
had a deadline that has passed by then moved away from it since its last put
and since the last snapshot.

Without a bound on the number of keys no key's fate depends on another's, so
the whole argument runs on one key at a time: `WalRecord.effect` is what a
record does to the entry of one key, `cur` is that entry if nothing were
ever purged, and the run, the snapshot and the replay are compared with it.
-/

namespace TinyKV

open Recency

/-! ## One key at a time -/

/-- What a record, applied at `now`, does to the entry of one key. -/
def WalRecord.effect (now : Int) (key : Str) (x : Option StoreEntry) :
    WalRecord → Option StoreEntry
  | .put k value d => live now (if k = key then some ⟨k, value, d⟩ else x)
  | .expire k d =>
    if k = key then
      (live now x).map fun entry => { entry with expireAtMs := d }
    else x
  | .del k => if k = key then none else x

/-- A well-formed store without a bound. -/
structure Unbounded (s : MemoryStore) : Prop where
  wf : s.WF
  maxKeys : s.maxKeys = 0

/-- The entry a store holds for a key, purged or not. -/
def held (s : MemoryStore) (key : Str) : Option StoreEntry := find key s.view

variable {s : MemoryStore} {r : WalRecord} {ord : IterOrder} {c : Call} {cs : List Call}
  {restart : Int} {threshold : Nat}

theorem putWithExpireAt_unbounded (h : Unbounded s) (now : Int) {k : Str} (hk : k ≠ [])
    (value : Str) (d : Int) :
    Unbounded (s.putWithExpireAt now k value d).2 ∧
      ∀ key, held (s.putWithExpireAt now k value d).2 key =
        live now (if k = key then some ⟨k, value, d⟩ else held s key) := by
  have ha := MemoryStore.putWithExpireAt_acts h.wf now hk value d
  refine ⟨⟨ha.wf, ha.maxKeys.trans h.maxKeys⟩, fun key => ?_⟩
  rw [held, ha.view, h.maxKeys,
    find_put_unbounded (MemoryStore.view_distinct h.wf)]
  rfl

theorem find_expireAt (now : Int) (k : Str) (d : Int) (key : Str) (l : List StoreEntry) :
    find key (Recency.expireAt now k d l).2 =
      WalRecord.effect now key (find key l) (.expire k d) := by
  rw [Recency.expireAt, WalRecord.effect]
  cases hf : find k l with
  | none =>
    simp only
    split
    · next hk => subst hk; rw [hf]; rfl
    · rfl
  | some entry =>
    have hek : entry.key = k := find_key hf
    simp only
    by_cases hk : k = key
    · subst hk
      rw [hf, live_some, if_pos rfl]
      split
      · simp
      · rw [find_push, if_pos hek]
        rfl
    · rw [if_neg hk]
      split
      · exact find_remove_ne (Ne.symm hk) _
      · rw [find_push]
        exact if_neg (fun he => hk (hek.symm.trans he))

theorem find_remove (k key : Str) (now : Int) (l : List StoreEntry) :
    find key (remove k l) = WalRecord.effect now key (find key l) (.del k) := by
  rw [WalRecord.effect]
  split
  · next hk => subst hk; exact find_remove_self _ _
  · next hk => exact find_remove_ne (Ne.symm hk) _

theorem expireAt_held (h : Unbounded s) (now : Int) (k : Str) (d : Int) :
    Unbounded (s.expireAt now k d).2 ∧
      (s.expireAt now k d).1 = (live now (held s k)).isSome ∧
      ∀ key, held (s.expireAt now k d).2 key =
        WalRecord.effect now key (held s key) (.expire k d) := by
  have ha := MemoryStore.expireAt_acts h.wf now k d
  refine ⟨⟨ha.wf, ha.maxKeys.trans h.maxKeys⟩, ?_, fun key => ?_⟩
  · rw [ha.answer, Recency.expireAt, held]
    cases hf : find k s.view with
    | none => rfl
    | some entry =>
      rw [live_some]
      simp only
      split <;> rfl
  · rw [held, ha.view]
    exact find_expireAt now k d key s.view

theorem del_held (h : Unbounded s) (now : Int) (k : Str) :
    Unbounded (s.del k).2 ∧
      ∀ key, held (s.del k).2 key = WalRecord.effect now key (held s key) (.del k) := by
  have ha := MemoryStore.del_acts h.wf k
  refine ⟨⟨ha.wf, ha.maxKeys.trans h.maxKeys⟩, fun key => ?_⟩
  rw [held, ha.view]
  exact find_remove k key now s.view

theorem applyRecord_held (h : Unbounded s) (now : Int) (hr : r.Ok) :
    Unbounded (applyRecord now s r) ∧
      ∀ key, held (applyRecord now s r) key = r.effect now key (held s key) := by
  cases r with
  | put k value d => exact putWithExpireAt_unbounded h now hr.1 value d
  | expire k d => exact ⟨(expireAt_held h now k d).1, (expireAt_held h now k d).2.2⟩
  | del k => exact del_held h now k

/-! ## Loading a snapshot -/

theorem find_none_of_notMem_keys {key : Str} {l : List StoreEntry}
    (h : key ∉ l.map StoreEntry.key) : find key l = none :=
  find_eq_none.mpr fun _ he hk => h (hk ▸ List.mem_map_of_mem he)

theorem load_held (now : Int) : ∀ (entries : List StoreEntry) {s : MemoryStore},
    Unbounded s → Distinct entries → (∀ entry ∈ entries, entry.key ≠ []) →
    let s' := entries.foldl
      (fun s entry => (s.putWithExpireAt now entry.key entry.value entry.expireAtMs).2) s
    Unbounded s' ∧ ∀ key, live now (held s' key) =
      live now ((find key entries).or (held s key)) := by
  intro entries
  induction entries with
  | nil =>
    intro s h _ _
    exact ⟨h, fun key => rfl⟩
  | cons entry rest ih =>
    intro s h hd hk
    obtain ⟨hu, hp⟩ := putWithExpireAt_unbounded h now (hk entry List.mem_cons_self)
      entry.value entry.expireAtMs
    simp only [Distinct, List.map_cons, List.nodup_cons] at hd
    obtain ⟨hu', hl⟩ := ih hu hd.2 fun e he => hk e (List.mem_cons_of_mem _ he)
    refine ⟨hu', fun key => ?_⟩
    rw [List.foldl_cons, hl key, hp key, find_cons]
    by_cases hkey : entry.key = key
    · subst hkey
      rw [find_none_of_notMem_keys hd.1]
      simp only [if_true, Option.none_or, Option.some_or]
      exact live_live (Int.le_refl _) _
    · rw [if_neg hkey, if_neg hkey]
      cases find key rest with
      | none =>
        simp only [Option.none_or]
        exact live_live (Int.le_refl _) _
      | some e => rfl

/-- What a snapshot lists, in whatever order. -/
theorem snapshotEntries_find {m : MemoryStore} (h : m.WF) (ord : IterOrder) (now : Int) :
    Distinct (ord.arrange (m.snapshotEntries now).1) ∧
      ∀ key, find key (ord.arrange (m.snapshotEntries now).1) = live now (find key m.view) := by
  obtain ⟨hperm, -, -, -⟩ := MemoryStore.snapshotEntries_spec h now
  have hdist := MemoryStore.view_distinct h
  have hp : (ord.arrange (m.snapshotEntries now).1).Perm (purge now m.view) :=
    (ord.perm _).trans hperm
  have hd : Distinct (ord.arrange (m.snapshotEntries now).1) :=
    (hp.map StoreEntry.key).nodup_iff.mpr (hdist.filter _)
  refine ⟨hd, fun key => ?_⟩
  rw [find_perm hd hp, find_purge hdist]

/-- Listing the entries for a snapshot purges the memory. -/
theorem snapshotEntries_held {m : MemoryStore} (h : Unbounded m) (now : Int) :
    Unbounded (m.snapshotEntries now).2 ∧
      ∀ key, held (m.snapshotEntries now).2 key = live now (held m key) := by
  obtain ⟨-, hwf, hmax, hview⟩ := MemoryStore.snapshotEntries_spec h.wf now
  refine ⟨⟨hwf, hmax.trans h.maxKeys⟩, fun key => ?_⟩
  rw [held, hview, find_purge (MemoryStore.view_distinct h.wf)]
  rfl

theorem unbounded_empty : Unbounded {} := ⟨MemoryStore.wf_empty 0, rfl⟩

/-! ## Runs -/

/-- The updates of a persistent store. -/
inductive StoreOp
  | put (key value : Str)
  | putTtl (key value : Str) (ttlSeconds : Int)
  | putWithExpireAt (key value : Str) (expireAtMs : Int)
  | del (key : Str)
  | expire (key : Str) (ttlSeconds : Int)
  | expireAt (key : Str) (expireAtMs : Int)
  deriving DecidableEq, Repr

def StoreOp.key : StoreOp → Str
  | .put key _ | .putTtl key _ _ | .putWithExpireAt key _ _ | .del key
  | .expire key _ | .expireAt key _ => key

/-- The record the update appends to the log. -/
def StoreOp.record (now : Int) : StoreOp → WalRecord
  | .put key value => .put key value 0
  | .putTtl key value ttl => .put key value (MemoryStore.ttlToExpireAtMs now ttl)
  | .putWithExpireAt key value d => .put key value d
  | .del key => .del key
  | .expire key ttl => .expire key (MemoryStore.ttlToExpireAtMs now ttl)
  | .expireAt key d => .expire key d

/-- A call with a non-empty key, at a time at which its deadline is a
`long long`. -/
structure Call where
  now : Int
  op : StoreOp
  key_ne : op.key ≠ []
  record_ok : (op.record now).Ok

def Call.record (c : Call) : WalRecord := c.op.record c.now

theorem Call.ok (c : Call) : c.record.Ok := c.record_ok

def exec (ord : IterOrder) (s : PersistentMemoryStore) (c : Call) :
    Bool × PersistentMemoryStore :=
  match c.op with
  | .put key value => s.put ord c.now key value
  | .putTtl key value ttl => s.putTtl ord c.now key value ttl
  | .putWithExpireAt key value d => s.putWithExpireAt ord c.now key value d
  | .del key => s.del ord c.now key
  | .expire key ttl => s.expire ord c.now key ttl
  | .expireAt key d => s.expireAt ord c.now key d

/-- The store after calls that were all accepted. -/
def runCalls (ord : IterOrder) : PersistentMemoryStore → List Call →
    Option PersistentMemoryStore
  | s, [] => some s
  | s, c :: cs =>
    match exec ord s c with
    | (true, s) => runCalls ord s cs
    | (false, _) => none

/-- What `init` makes of no files at all. -/
def PersistentMemoryStore.fresh (threshold : Nat) : PersistentMemoryStore :=
  ⟨{}, [], none, threshold, 0⟩

/-- Written to the log and applied, not yet checked for a snapshot. -/
def logged (s : PersistentMemoryStore) (c : Call) : PersistentMemoryStore :=
  { s with
    wal := walAppend s.wal c.record
    memory := applyRecord c.now s.memory c.record
    opsSinceSnapshot := s.opsSinceSnapshot + 1 }

/-- An accepted call logs its record, applies it and checks for a snapshot;
an accepted expiry found its key alive. -/
theorem exec_accepted {s s' : PersistentMemoryStore} (hs : Unbounded s.memory)
    (h : exec ord s c = (true, s')) :
    s' = (PersistentMemoryStore.maybeSnapshotLocked ord c.now (logged s c)).2 ∧
      ∀ key d, c.record = .expire key d → (live c.now (held s.memory key)).isSome := by
  have hput : ∀ {now key value d}, key ≠ [] →
      s.putWithExpireAt ord now key value d = (true, s') →
      s' = (PersistentMemoryStore.maybeSnapshotLocked ord now
          { s with
            wal := walAppend s.wal (.put key value d)
            memory := applyRecord now s.memory (.put key value d)
            opsSinceSnapshot := s.opsSinceSnapshot + 1 }).2 := by
    intro now key value d hk hp
    rw [PersistentMemoryStore.putWithExpireAt] at hp
    simp only at hp
    rw [putWithExpireAt_ok s.memory now hk] at hp
    simp only at hp
    rw [applyRecord, hp]
  have hexp : ∀ {now key d}, s.expireAt ord now key d = (true, s') →
      s' = (PersistentMemoryStore.maybeSnapshotLocked ord now
          { s with
            wal := walAppend s.wal (.expire key d)
            memory := applyRecord now s.memory (.expire key d)
            opsSinceSnapshot := s.opsSinceSnapshot + 1 }).2 ∧
        (live now (held s.memory key)).isSome := by
    intro now key d hx
    rw [PersistentMemoryStore.expireAt] at hx
    have ha := (expireAt_held hs now key d).2.1
    cases hm : s.memory.expireAt now key d with
    | mk ok memory =>
      simp only [hm] at hx ha
      cases ok with
      | false => cases hx
      | true =>
        simp only at hx
        refine ⟨?_, ha.symm⟩
        rw [applyRecord, hm, hx]
  obtain ⟨now, op, hk, hok⟩ := c
  cases op with
  | put key value => exact ⟨hput hk h, fun _ _ hr => by cases hr⟩
  | putTtl key value ttl =>
    simp only [exec, PersistentMemoryStore.putTtl] at h
    split at h
    · cases h
    · exact ⟨hput hk h, fun _ _ hr => by cases hr⟩
  | putWithExpireAt key value d => exact ⟨hput hk h, fun _ _ hr => by cases hr⟩
  | del key =>
    simp only [exec, PersistentMemoryStore.del] at h
    refine ⟨?_, fun _ _ hr => by cases hr⟩
    rw [logged, Call.record, StoreOp.record, applyRecord, h]
  | expire key ttl =>
    simp only [exec, PersistentMemoryStore.expire] at h
    split at h
    · cases h
    · obtain ⟨h1, h2⟩ := hexp h
      refine ⟨h1, fun k d hr => ?_⟩
      injection hr with hr _
      rw [← hr]
      exact h2
  | expireAt key d =>
    obtain ⟨h1, h2⟩ := hexp h
    refine ⟨h1, fun k d hr => ?_⟩
    injection hr with hr _
    rw [← hr]
    exact h2

theorem runCalls_snoc {s s' : PersistentMemoryStore} (h : runCalls ord s (cs ++ [c]) = some s') :
    ∃ mid, runCalls ord s cs = some mid ∧ exec ord mid c = (true, s') := by
  induction cs generalizing s with
  | nil =>
    rw [List.nil_append, runCalls] at h
    split at h
    · next s₁ he =>
      rw [runCalls] at h
      injection h with h
      subst h
      exact ⟨s, rfl, he⟩
    · cases h
  | cons x xs ih =>
    rw [List.cons_append, runCalls] at h
    split at h
    · next s₁ he =>
      obtain ⟨mid, h1, h2⟩ := ih h
      refine ⟨mid, ?_, h2⟩
      rw [runCalls, he]
      exact h1
    · cases h

/-! ## What the calls say about a key

`cur` is a key's entry according to the calls alone: no clock, no purging.
The run and the restart are both measured against it. -/

def WalRecord.set (key : Str) (x : Option StoreEntry) : WalRecord → Option StoreEntry
  | .put k value d => if k = key then some ⟨k, value, d⟩ else x
  | .expire k d =>
    if k = key then x.map fun entry => { entry with expireAtMs := d } else x
  | .del k => if k = key then none else x

def cur (key : Str) (cs : List Call) : Option StoreEntry :=
  cs.foldl (fun x c => c.record.set key x) none

/-- A put or a delete of the key: what was there before no longer counts. -/
def WalRecord.Rewrites (key : Str) : WalRecord → Prop
  | .put k _ _ => k = key
  | .expire _ _ => False
  | .del k => k = key

/-- The position in the calls at which the log starts: everything before it
is in the snapshot. -/
def walStart (threshold n : Nat) : Nat := threshold * (n / threshold)

/-- Since the last snapshot and since the key's last put, an expiry moved
the key away from a deadline that has passed by `restart`. -/
def Overtaken (restart : Int) (threshold : Nat) (cs : List Call) (key : Str) : Prop :=
  ∃ before c after d entry, cs = before ++ c :: after ∧
    walStart threshold cs.length ≤ before.length ∧
    c.record = .expire key d ∧
    (∀ c' ∈ after, ¬ c'.record.Rewrites key) ∧
    cur key before = some entry ∧ entry.expired restart = true

theorem cur_snoc (key : Str) (cs : List Call) (c : Call) :
    cur key (cs ++ [c]) = c.record.set key (cur key cs) := by
  rw [cur, List.foldl_append]
  rfl

theorem walStart_le (threshold n : Nat) : walStart threshold n ≤ n :=
  Nat.mul_div_le n threshold

theorem overtaken_snoc {key : Str}
    (hstart : walStart threshold (cs.length + 1) = walStart threshold cs.length) :
    Overtaken restart threshold (cs ++ [c]) key ↔
      ¬ c.record.Rewrites key ∧
        (Overtaken restart threshold cs key ∨
          ∃ d entry, c.record = .expire key d ∧ cur key cs = some entry ∧
            entry.expired restart = true) := by
  constructor
  · rintro ⟨before, c₀, after, d, entry, heq, hle, hc, hafter, hcur, hexp⟩
    rw [List.length_append, List.length_singleton, hstart] at hle
    rcases List.eq_nil_or_concat after with rfl | ⟨mid, last, rfl⟩
    · obtain ⟨rfl, hc0⟩ := List.append_inj' heq rfl
      obtain rfl : c = c₀ := by simpa using hc0
      refine ⟨?_, Or.inr ⟨d, entry, hc, hcur, hexp⟩⟩
      rw [hc]
      exact id
    · rw [List.concat_eq_append] at heq hafter
      have heq' : cs ++ [c] = (before ++ c₀ :: mid) ++ [last] := by simpa using heq
      obtain ⟨rfl, hl⟩ := List.append_inj' heq' rfl
      obtain rfl : c = last := by simpa using hl
      refine ⟨hafter c (by simp), Or.inl ?_⟩
      exact ⟨before, c₀, mid, d, entry, rfl, hle, hc,
        fun c' hm => hafter c' (by simp [hm]), hcur, hexp⟩
  · rintro ⟨hnot, ⟨before, c₀, after, d, entry, heq, hle, hc, hafter, hcur, hexp⟩ |
      ⟨d, entry, hc, hcur, hexp⟩⟩
    · refine ⟨before, c₀, after ++ [c], d, entry, by simp [heq], ?_, hc, ?_, hcur, hexp⟩
      · rw [List.length_append, List.length_singleton, hstart]
        exact hle
      · intro c' hm
        rcases List.mem_append.mp hm with hm | hm
        · exact hafter c' hm
        · rw [List.mem_singleton.mp hm]
          exact hnot
    · refine ⟨cs, c, [], d, entry, rfl, ?_, hc, by simp, hcur, hexp⟩
      rw [List.length_append, List.length_singleton, hstart]
      exact walStart_le _ _

/-! ## One record, on the run's side and on the restart's side -/

/-- The run purged `x` of what it held back to `y`, and nobody looking from
now on can tell; after a record nobody can tell either. -/
theorem live_effect {now later : Int} (hle : now ≤ later) {key : Str} {x y : Option StoreEntry}
    (hxy : ∀ t, now ≤ t → live t x = live t y) (hr : ∀ d, r = .expire key d → (live now x).isSome) :
    live later (r.effect now key x) = live later (r.set key y) := by
  cases r with
  | put k value d =>
    rw [WalRecord.effect, WalRecord.set, live_live hle]
    split
    · rfl
    · exact hxy later hle
  | expire k d =>
    rw [WalRecord.effect, WalRecord.set]
    split
    · next hk =>
      obtain ⟨entry, hx⟩ := Option.isSome_iff_exists.mp (hr d (by rw [hk]))
      have hy := hxy now (Int.le_refl _)
      rw [hx] at hy
      rw [hx, (live_eq_some.mp hy.symm).1]
    · exact hxy later hle
  | del k =>
    rw [WalRecord.effect, WalRecord.set]
    split
    · rfl
    · exact hxy later hle

/-- The same record at the time of the restart, on a key that has not been
overtaken so far. The expiry of a deadline already in the past is where the
restart loses the key. -/
theorem live_effect_restart {key : Str} {z y : Option StoreEntry}
    (hzy : live restart z = live restart y)
    (hr : ∀ d, r = .expire key d → ∃ entry, y = some entry ∧ entry.expired restart = false) :
    live restart (r.effect restart key z) = live restart (r.set key y) := by
  cases r with
  | put k value d =>
    rw [WalRecord.effect, WalRecord.set, live_live (Int.le_refl _)]
    split
    · rfl
    · exact hzy
  | expire k d =>
    rw [WalRecord.effect, WalRecord.set]
    split
    · next hk =>
      obtain ⟨entry, hy, hx⟩ := hr d (by rw [hk])
      rw [hzy, hy, live_some, hx]
      rfl
    · exact hzy
  | del k =>
    rw [WalRecord.effect, WalRecord.set]
    split
    · rfl
    · exact hzy

/-- A lost key stays lost until it is written again. -/
theorem live_effect_lost {key : Str} {z : Option StoreEntry} (hz : live restart z = none)
    (hr : ¬ r.Rewrites key) : live restart (r.effect restart key z) = none := by
  cases r with
  | put k value d =>
    have hk : k ≠ key := hr
    rw [WalRecord.effect, live_live (Int.le_refl _), if_neg hk, hz]
  | expire k d =>
    rw [WalRecord.effect, hz]
    split
    · rfl
    · exact hz
  | del k =>
    have hk : k ≠ key := hr
    rw [WalRecord.effect, if_neg hk, hz]

/-! ## The invariant of a run -/

/-- `rec` is the memory a restart at `restart` reads from the files of `s`. -/
def Recovered (restart : Int) (s : PersistentMemoryStore) (rec : MemoryStore) : Prop :=
  ∃ rs base, s.wal = walText rs ∧ (∀ r ∈ rs, r.Ok) ∧
    snapshotLoad restart {} s.snapshot = .ok base ∧
    rec = rs.foldl (applyRecord restart) base

theorem init_of_recovered {s : PersistentMemoryStore} {rec : MemoryStore}
    (h : Recovered restart s rec) (threshold : Nat) :
    PersistentMemoryStore.init restart s.wal s.snapshot threshold =
      .ok ⟨rec, s.wal, s.snapshot, threshold, 0⟩ := by
  obtain ⟨rs, base, hw, hrs, hload, rfl⟩ := h
  have hr := replay_walText restart base hrs
  rw [← hw] at hr
  rw [PersistentMemoryStore.init, hload]
  show (replay restart base s.wal >>= _) = _
  rw [hr]
  rfl

/-- What every run keeps: the files read back as `rec`, the run's memory
shows what the calls say, and so does `rec` at the time of the restart for
every key that was not overtaken. -/
structure Tracks (restart : Int) (threshold : Nat) (cs : List Call)
    (s : PersistentMemoryStore) (rec : MemoryStore) : Prop where
  mem : Unbounded s.memory
  recMem : Unbounded rec
  limit : s.snapshotThreshold = threshold
  ops : s.opsSinceSnapshot = cs.length % threshold
  files : Recovered restart s rec
  printable : ∀ key entry, held s.memory key = some entry →
    key ≠ [] ∧ InRange64 entry.expireAtMs
  orig : ∀ key t, (∀ c ∈ cs, c.now ≤ t) → live t (held s.memory key) = live t (cur key cs)
  lost : ∀ key, Overtaken restart threshold cs key → live restart (held rec key) = none
  kept : ∀ key, ¬ Overtaken restart threshold cs key →
    live restart (held rec key) = live restart (cur key cs)

theorem tracks_fresh (restart : Int) (threshold : Nat) :
    Tracks restart threshold [] (.fresh threshold) {} where
  mem := unbounded_empty
  recMem := unbounded_empty
  limit := rfl
  ops := by simp [PersistentMemoryStore.fresh]
  files := ⟨[], {}, rfl, by simp, rfl, rfl⟩
  printable := by
    intro key entry h
    cases h
  orig := fun key t _ => rfl
  lost := by
    rintro key ⟨before, c, after, d, entry, heq, _⟩
    simp at heq
  kept := fun key _ => rfl

theorem printable_effect {now : Int} {key : Str} {x : Option StoreEntry} (hr : r.Ok)
    (hx : ∀ entry, x = some entry → key ≠ [] ∧ InRange64 entry.expireAtMs) {entry : StoreEntry}
    (h : r.effect now key x = some entry) : key ≠ [] ∧ InRange64 entry.expireAtMs := by
  cases r with
  | put k value d =>
    rw [WalRecord.effect, live_eq_some] at h
    obtain ⟨h, -⟩ := h
    split at h
    · next hk =>
      injection h with h
      subst h
      exact ⟨hk ▸ hr.1, hr.2⟩
    · exact hx entry h
  | expire k d =>
    rw [WalRecord.effect] at h
    split at h
    · rw [Option.map_eq_some_iff] at h
      obtain ⟨e, he, rfl⟩ := h
      exact ⟨(hx e (live_eq_some.mp he).1).1, hr⟩
    · exact hx entry h
  | del k =>
    rw [WalRecord.effect] at h
    split at h
    · cases h
    · exact hx entry h

/-! ### Where the log starts after one more call -/

theorem walStart_succ {n : Nat} (h : threshold = 0 ∨ n % threshold + 1 < threshold) :
    walStart threshold (n + 1) = walStart threshold n ∧
      (n + 1) % threshold = n % threshold + 1 := by
  rcases h with rfl | h
  · simp [walStart]
  · have hn := Nat.div_add_mod n threshold
    have heq : n + 1 = threshold * (n / threshold) + (n % threshold + 1) := by omega
    have hmod : (n + 1) % threshold = n % threshold + 1 := by
      rw [heq, Nat.mul_add_mod, Nat.mod_eq_of_lt h]
    refine ⟨?_, hmod⟩
    have hn' := Nat.div_add_mod (n + 1) threshold
    unfold walStart
    omega

theorem walStart_full {n : Nat} (h0 : threshold ≠ 0) (h : threshold ≤ n % threshold + 1) :
    walStart threshold (n + 1) = n + 1 ∧ (n + 1) % threshold = 0 := by
  have hlt := Nat.mod_lt n (Nat.pos_of_ne_zero h0)
  have hn := Nat.div_add_mod n threshold
  have heq : n + 1 = threshold * (n / threshold + 1) := by
    rw [Nat.mul_add, Nat.mul_one]
    omega
  have hmod : (n + 1) % threshold = 0 := by rw [heq, Nat.mul_mod_right]
  refine ⟨?_, hmod⟩
  have hn' := Nat.div_add_mod (n + 1) threshold
  unfold walStart
  omega

section Step

variable {s s' : PersistentMemoryStore} {rec : MemoryStore}

theorem orig_logged (h : Tracks restart threshold cs s rec)
    (hmono : ∀ c' ∈ cs, c'.now ≤ c.now)
    (halive : ∀ key d, c.record = .expire key d → (live c.now (held s.memory key)).isSome)
    (key : Str) {t : Int} (ht : ∀ c' ∈ cs ++ [c], c'.now ≤ t) :
    live t (held (logged s c).memory key) = live t (cur key (cs ++ [c])) := by
  rw [cur_snoc]
  show live t (held (applyRecord c.now s.memory c.record) key) = _
  rw [(applyRecord_held h.mem c.now c.ok).2 key]
  refine live_effect (ht c (by simp)) (fun u hu => ?_) (halive key)
  exact h.orig key u fun c' hm => Int.le_trans (hmono c' hm) hu

theorem printable_logged (h : Tracks restart threshold cs s rec) (key : Str)
    (entry : StoreEntry) (he : held (logged s c).memory key = some entry) :
    key ≠ [] ∧ InRange64 entry.expireAtMs := by
  have hh := (applyRecord_held h.mem c.now c.ok).2 key
  exact printable_effect c.ok (h.printable key) (hh.symm.trans he)

/-- The call stayed in the log: the restart replays its record as well. -/
theorem tracks_kept_log (h : Tracks restart threshold cs s rec)
    (hmono : ∀ c' ∈ cs, c'.now ≤ c.now)
    (halive : ∀ key d, c.record = .expire key d → (live c.now (held s.memory key)).isSome)
    (hroom : threshold = 0 ∨ cs.length % threshold + 1 < threshold) :
    Tracks restart threshold (cs ++ [c]) (logged s c)
      (applyRecord restart rec c.record) := by
  obtain ⟨hstart, hmod⟩ := walStart_succ hroom
  have hrec := applyRecord_held h.recMem restart c.ok
  -- an accepted expiry found the entry the calls say is there
  have hcur : ∀ key d, c.record = .expire key d →
      ∃ entry, cur key cs = some entry := by
    intro key d hr
    obtain ⟨entry, he⟩ := Option.isSome_iff_exists.mp (halive key d hr)
    rw [h.orig key c.now hmono] at he
    exact ⟨entry, (live_eq_some.mp he).1⟩
  constructor
  case mem => exact (applyRecord_held h.mem c.now c.ok).1
  case recMem => exact hrec.1
  case limit => exact h.limit
  case ops =>
      show s.opsSinceSnapshot + 1 = _
      rw [List.length_append, List.length_singleton, hmod, h.ops]
  case files =>
      obtain ⟨rs, base, hw, hrs, hload, hfold⟩ := h.files
      refine ⟨rs ++ [c.record], base, ?_, ?_, hload, ?_⟩
      · show walAppend s.wal c.record = _
        rw [hw, walAppend_walText]
      · intro r hr
        rcases List.mem_append.mp hr with hr | hr
        · exact hrs r hr
        · rw [List.mem_singleton.mp hr]
          exact c.ok
      · rw [hfold, List.foldl_append]
        rfl
  case printable => exact printable_logged h
  case orig => exact fun key t ht => orig_logged h hmono halive key ht
  case lost =>
      intro key ho
      obtain ⟨hnot, hov⟩ := (overtaken_snoc hstart).mp ho
      rw [hrec.2 key]
      by_cases hold : Overtaken restart threshold cs key
      · exact live_effect_lost (h.lost key hold) hnot
      · obtain ⟨d, entry, hr, hc, hexp⟩ := hov.resolve_left hold
        refine live_effect_lost ?_ hnot
        rw [h.kept key hold, hc, live_some, if_pos hexp]
  case kept =>
      intro key ho
      rw [overtaken_snoc hstart, not_and_or, not_not] at ho
      rw [hrec.2 key, cur_snoc]
      rcases ho with hw | ho
      · -- written again: what either side held before does not matter
        cases hr : c.record with
        | put k value d =>
          rw [hr] at hw
          have hk : k = key := hw
          rw [WalRecord.effect, WalRecord.set, if_pos hk, if_pos hk,
            live_live (Int.le_refl _)]
        | expire k d => rw [hr] at hw; exact hw.elim
        | del k =>
          rw [hr] at hw
          have hk : k = key := hw
          rw [WalRecord.effect, WalRecord.set, if_pos hk, if_pos hk]
      · rw [not_or] at ho
        refine live_effect_restart (h.kept key ho.1) fun d hr => ?_
        obtain ⟨entry, hc⟩ := hcur key d hr
        refine ⟨entry, hc, ?_⟩
        rw [← Bool.not_eq_true]
        exact fun hx => ho.2 ⟨d, entry, hr, hc, hx⟩

/-- The call filled the log: the snapshot takes over, and nothing is
overtaken any more. -/
theorem tracks_snapshot (h : Tracks restart threshold cs s rec)
    (hmono : ∀ c' ∈ cs, c'.now ≤ c.now) (hle : c.now ≤ restart)
    (halive : ∀ key d, c.record = .expire key d → (live c.now (held s.memory key)).isSome)
    (h0 : threshold ≠ 0) (hfull : threshold ≤ cs.length % threshold + 1) :
    ∃ rec', Tracks restart threshold (cs ++ [c])
      { logged s c with
        memory := ((logged s c).memory.snapshotEntries c.now).2
        snapshot := some (snapshotText
          (ord.arrange ((logged s c).memory.snapshotEntries c.now).1))
        wal := []
        opsSinceSnapshot := 0 } rec' := by
  obtain ⟨hstart, hmod⟩ := walStart_full h0 hfull
  have hmem : Unbounded (logged s c).memory := (applyRecord_held h.mem c.now c.ok).1
  obtain ⟨hu, hheld⟩ := snapshotEntries_held hmem c.now
  obtain ⟨hed, hfind⟩ := snapshotEntries_find hmem.wf ord c.now
  have hres : ∀ c' ∈ cs ++ [c], c'.now ≤ restart := by
    intro c' hm
    rcases List.mem_append.mp hm with hm | hm
    · exact Int.le_trans (hmono c' hm) hle
    · rw [List.mem_singleton.mp hm]
      exact hle
  let entries := ord.arrange ((logged s c).memory.snapshotEntries c.now).1
  have hprint : ∀ e ∈ entries, e.key ≠ [] ∧ InRange64 e.expireAtMs := by
    intro e he
    have hf := (hfind e.key).symm.trans (find_of_mem hed he)
    exact printable_logged h e.key e (live_eq_some.mp hf).1
  obtain ⟨hrecU, hrecl⟩ := load_held restart entries unbounded_empty hed
    fun e he => (hprint e he).1
  refine ⟨entries.foldl (fun s entry =>
    (s.putWithExpireAt restart entry.key entry.value entry.expireAtMs).2) {}, ?_⟩
  constructor
  case mem => exact hu
  case recMem => exact hrecU
  case limit => exact h.limit
  case ops =>
      rw [List.length_append, List.length_singleton, hmod]
  case files =>
      exact ⟨[], _, rfl, by simp, snapshotLoad_text restart {} hprint, rfl⟩
  case printable =>
      intro key entry he
      exact printable_logged h key entry (live_eq_some.mp ((hheld key).symm.trans he)).1
  case orig =>
      intro key t ht
      show live t (held ((logged s c).memory.snapshotEntries c.now).2 key) = _
      rw [hheld key, live_live (ht c (by simp))]
      exact orig_logged h hmono halive key ht
  case lost =>
      rintro key ⟨before, c₀, after, d, entry, heq, hlen, _⟩
      have hl := congrArg List.length heq
      simp only [List.length_append, List.length_cons, List.length_nil] at hl hlen
      rw [Nat.zero_add, hstart] at hlen
      omega
  case kept =>
      intro key _
      have hnone : held ({} : MemoryStore) key = none := rfl
      rw [hrecl key, hfind key, hnone, Option.or_none, live_live hle]
      exact orig_logged h hmono halive key hres

theorem tracks_step (h : Tracks restart threshold cs s rec)
    (hmono : ∀ c' ∈ cs, c'.now ≤ c.now) (hle : c.now ≤ restart)
    (hexec : exec ord s c = (true, s')) :
    ∃ rec', Tracks restart threshold (cs ++ [c]) s' rec' := by
  obtain ⟨rfl, halive⟩ := exec_accepted h.mem hexec
  have hlim : (logged s c).snapshotThreshold = threshold := h.limit
  have hops : (logged s c).opsSinceSnapshot = cs.length % threshold + 1 := by
    show s.opsSinceSnapshot + 1 = _
    rw [h.ops]
  rw [PersistentMemoryStore.maybeSnapshotLocked]
  split
  · next hroom =>
    rw [hlim, hops] at hroom
    exact ⟨_, tracks_kept_log h hmono halive hroom⟩
  · next hfull =>
    rw [hlim, hops, not_or, Nat.not_lt] at hfull
    exact tracks_snapshot h hmono hle halive hfull.1 hfull.2

end Step

/-- Calls made one after the other by a clock that does not go back. -/
def InOrder (cs : List Call) : Prop := cs.Pairwise fun a b => a.now ≤ b.now

instance (cs : List Call) : Decidable (InOrder cs) :=
  inferInstanceAs (Decidable (cs.Pairwise _))

theorem tracks_run {s : PersistentMemoryStore} (horder : InOrder cs)
    (hle : ∀ c ∈ cs, c.now ≤ restart) (hrun : runCalls ord (.fresh threshold) cs = some s) :
    ∃ rec, Tracks restart threshold cs s rec := by
  induction cs using List.reverseRecOn generalizing s with
  | nil =>
    rw [runCalls] at hrun
    injection hrun with hrun
    subst hrun
    exact ⟨_, tracks_fresh restart threshold⟩
  | append_singleton cs c ih =>
    obtain ⟨mid, hmid, hexec⟩ := runCalls_snoc hrun
    obtain ⟨h1, -, h2⟩ := List.pairwise_append.mp horder
    obtain ⟨rec, hrec⟩ := ih h1 (fun c' hm => hle c' (by simp [hm])) hmid
    exact tracks_step hrec (fun c' hm => h2 c' hm c (by simp)) (hle c (by simp)) hexec

/-- `init` on the files of `s` succeeds and shows what `s` itself shows. -/
def RestartShowsSame (restart : Int) (s : PersistentMemoryStore) : Prop :=
  ∃ s', PersistentMemoryStore.init restart s.wal s.snapshot s.snapshotThreshold = .ok s' ∧
    ∀ key, s'.memory.visible restart key = s.memory.visible restart key

/-- A restart shows the same contents exactly when no visible key was
overtaken. -/
theorem restartShowsSame_iff (ord : IterOrder) (threshold : Nat) (cs : List Call)
    (restart : Int) (s : PersistentMemoryStore) (horder : InOrder cs)
    (hle : ∀ c ∈ cs, c.now ≤ restart)
    (hrun : runCalls ord (.fresh threshold) cs = some s) :
    RestartShowsSame restart s ↔
      ∀ key, (live restart (cur key cs)).isSome → ¬ Overtaken restart threshold cs key := by
  obtain ⟨rec, h⟩ := tracks_run horder hle hrun
  have hinit := init_of_recovered h.files s.snapshotThreshold
  have hmem : ∀ key, s.memory.visible restart key = live restart (cur key cs) := fun key =>
    (MemoryStore.visible_eq h.mem.wf restart key).trans (h.orig key restart hle)
  have hrec : ∀ key, rec.visible restart key = live restart (held rec key) :=
    MemoryStore.visible_eq h.recMem.wf restart
  constructor
  · rintro ⟨s', hs', hsame⟩ key hvis hover
    rw [hinit] at hs'
    injection hs' with hs'
    subst hs'
    have hk : rec.visible restart key = s.memory.visible restart key := hsame key
    rw [hrec, h.lost key hover, hmem] at hk
    rw [← hk] at hvis
    cases hvis
  · intro hno
    refine ⟨_, hinit, fun key => ?_⟩
    show rec.visible restart key = _
    rw [hrec, hmem]
    by_cases hover : Overtaken restart threshold cs key
    · rw [h.lost key hover]
      cases hc : live restart (cur key cs) with
      | none => rfl
      | some entry => exact absurd hover (hno key (by rw [hc]; rfl))
    · exact h.kept key hover

section Example

/-- `put_with_expire_at session alice 100` at 50, then
`expire_at session 1000` at 60. -/
def extendedSession : List Call :=
  [⟨50, .putWithExpireAt (bytes ['s']) (bytes ['a']) 100, by decide,
      by decide⟩,
   ⟨60, .expireAt (bytes ['s']) 1000, by decide, by decide⟩]

/-- The store after these two calls. -/
def extendedStore : PersistentMemoryStore :=
  (runCalls .asStored (.fresh 100) extendedSession).getD (.fresh 100)

theorem extendedSession_runs :
    InOrder extendedSession ∧ (∀ c ∈ extendedSession, c.now ≤ 500) ∧
      runCalls .asStored (.fresh 100) extendedSession = some extendedStore := by
  refine ⟨by decide, by decide, rfl⟩

theorem restartShowsSame_iff_extendedSession :
    RestartShowsSame 500 extendedStore ↔
      ∀ key, (live 500 (cur key extendedSession)).isSome →
        ¬ Overtaken 500 100 extendedSession key :=
  restartShowsSame_iff .asStored 100 extendedSession 500 extendedStore
    extendedSession_runs.1 extendedSession_runs.2.1 extendedSession_runs.2.2

/-- Restarted at 500, the store has lost a key that lives until 1000. -/
theorem restart_loses_extended_key :
    ¬ ∀ (ord : IterOrder) (threshold : Nat) (cs : List Call) (restart : Int)
      (s : PersistentMemoryStore), InOrder cs → (∀ c ∈ cs, c.now ≤ restart) →
      runCalls ord (.fresh threshold) cs = some s → RestartShowsSame restart s := by
  intro h
  obtain ⟨s', hinit, hsame⟩ := h .asStored 100 extendedSession 500 extendedStore
    extendedSession_runs.1 extendedSession_runs.2.1 extendedSession_runs.2.2
  have hlost : (PersistentMemoryStore.init 500 extendedStore.wal extendedStore.snapshot
      extendedStore.snapshotThreshold).toOption.bind
        (fun s => s.memory.visible 500 (bytes ['s'])) = none := by
    decide +kernel
  have hheld : (extendedStore.memory.visible 500 (bytes ['s'])).isSome := by
    decide +kernel
  rw [hinit] at hlost
  have hnone : s'.memory.visible 500 (bytes ['s']) = none := hlost
  rw [hsame] at hnone
  rw [hnone] at hheld
  cases hheld

end Example

end TinyKV
