import TinyKV.Model.Store
import TinyKV.Proofs.MemoryStore

/-!
# When replicas agree

Two nodes that apply the same log need not hold the same contents. The log
carries a time to live, and each node turns it into a deadline by its own
clock; and a bounded store evicts the least recently used key, where the
reads that decide this were served by one node only. This file finds the
logs on which neither happens, and shows there are no others: `Steady` logs
leave every replica with the same contents, whatever it read and whenever
it applied, and on any other log two replicas disagree after some prefix.

A steady log never creates a deadline, so a replica's store is determined up
to the order of its recency list; that is the invariant `Holds`. On a log
that is not steady the first offending entry tells the replicas apart: a
deadline taken at two times, or an eviction whose victim the reads before it
choose.
-/

namespace TinyKV

open Recency

/-! ## The store as an update of its recency list -/

/-- A store of this bound whose memory reads as this list. -/
structure Reads (maxKeys : Nat) (s : Store) (l : List StoreEntry) : Prop where
  wf : s.mem.WF
  maxKeys : s.mem.maxKeys = maxKeys
  view : s.mem.view = l

variable {m : Nat} {s s₁ s₂ : Store} {l ref : List StoreEntry} {key : Str} {ttl t : Int}
  {entry : RaftLogEntry} {rest : List RaftLogEntry}

theorem Reads.distinct (h : Reads m s l) :
    Distinct l := h.view ▸ MemoryStore.view_distinct h.wf

theorem Reads.visible (h : Reads m s l) (now : Int) (key : Str) :
    s.mem.visible now key = Recency.visible now l key := by
  rw [MemoryStore.visible_eq h.wf, h.view]

theorem reads_of_acts {α : Type} {t : Store} {l' : List StoreEntry} {a : α} {r : α × MemoryStore}
    (h : Reads m s l) (ha : s.mem.Acts r a l') (hs : t.mem = r.2) : Reads m t l' :=
  ⟨hs ▸ ha.wf, by rw [hs, ha.maxKeys, h.maxKeys], by rw [hs, ha.view]⟩

@[simp] theorem setMem_mem (s : Store) (m : MemoryStore) : (s.setMem m).mem = m := by
  cases s <;> rfl

/-- A check for a snapshot at most purges. -/
theorem maybeSnapshot_mem (ord : IterOrder) (now : Int) (s : PersistentMemoryStore) :
    (PersistentMemoryStore.maybeSnapshotLocked ord now s).1 = true ∧
      ((PersistentMemoryStore.maybeSnapshotLocked ord now s).2.memory = s.memory ∨
        (PersistentMemoryStore.maybeSnapshotLocked ord now s).2.memory =
          (s.memory.snapshotEntries now).2) := by
  unfold PersistentMemoryStore.maybeSnapshotLocked
  split
  · exact ⟨rfl, Or.inl rfl⟩
  · exact ⟨rfl, Or.inr rfl⟩

/-- What an update leaves: the list the memory store computes, or that list
purged once more by a snapshot. -/
def Leaves (m : Nat) (now : Int) (s : Store) (l : List StoreEntry) : Prop :=
  Reads m s l ∨ Reads m s (purge now l)

theorem leaves_of_snapshot {now : Int} {ord : IterOrder} {s : PersistentMemoryStore}
    (h : Reads m (.persistent ord s) l) :
    Leaves m now
      (.persistent ord (PersistentMemoryStore.maybeSnapshotLocked ord now s).2) l := by
  rcases (maybeSnapshot_mem ord now s).2 with hs | hs
  · exact Or.inl ⟨by rw [Store.mem, hs]; exact h.wf, by rw [Store.mem, hs]; exact h.maxKeys,
      by rw [Store.mem, hs]; exact h.view⟩
  · obtain ⟨-, hwf, hm, hv⟩ := MemoryStore.snapshotEntries_spec h.wf now
    refine Or.inr ⟨?_, ?_, ?_⟩ <;> rw [Store.mem, hs]
    · exact hwf
    · exact hm.trans h.maxKeys
    · rw [← h.view]
      exact hv

theorem putWithExpireAt_leaves_persistent {ord : IterOrder} {p : PersistentMemoryStore}
    (h : Reads m (.persistent ord p) l) (now : Int) {key : Str} (hk : key ≠ [])
    (value : Str) (d : Int) :
    Leaves m now (.persistent ord (p.putWithExpireAt ord now key value d).2)
      (Recency.put m now ⟨key, value, d⟩ l) := by
  have ha := MemoryStore.putWithExpireAt_acts h.wf now hk value d
  have hm : p.memory.maxKeys = m := h.maxKeys
  have hv : p.memory.view = l := h.view
  rw [PersistentMemoryStore.putWithExpireAt]
  cases hp : p.memory.putWithExpireAt now key value d with
  | mk ok memory =>
    have hok : ok = true := by
      have := ha.answer
      rw [Store.mem, hp] at this
      exact this
    subst hok
    refine leaves_of_snapshot ?_
    have hr := reads_of_acts h ha (t := .persistent ord
      { p with
        wal := walAppend p.wal (.put key value d), memory := memory,
        opsSinceSnapshot := p.opsSinceSnapshot + 1 }) (by rw [Store.mem, Store.mem, hp])
    rw [Store.mem, hm, hv] at hr
    exact hr

theorem putWithExpireAt_leaves_memory {p : MemoryStore} (h : Reads m (.memory p) l)
    (now : Int) {key : Str} (hk : key ≠ []) (value : Str) (d : Int) :
    Leaves m now (.memory (p.putWithExpireAt now key value d).2)
      (Recency.put m now ⟨key, value, d⟩ l) := by
  have ha := MemoryStore.putWithExpireAt_acts h.wf now hk value d
  have hr := reads_of_acts h ha (t := .memory (p.putWithExpireAt now key value d).2) rfl
  have hm : p.maxKeys = m := h.maxKeys
  have hv : p.view = l := h.view
  rw [Store.mem, hm, hv] at hr
  exact Or.inl hr

theorem put_leaves (h : Reads m s l) (now : Int) {key : Str} (hk : key ≠ [])
    (value : Str) :
    Leaves m now (s.put now key value).2 (Recency.put m now ⟨key, value, 0⟩ l) := by
  cases s with
  | memory p => exact putWithExpireAt_leaves_memory h now hk value 0
  | persistent ord p => exact putWithExpireAt_leaves_persistent h now hk value 0

theorem putTtl_leaves (h : Reads m s l) (now : Int) {key : Str} (hk : key ≠ [])
    (value : Str) {ttl : Int} (ht : 0 < ttl) :
    Leaves m now (s.putTtl now key value ttl).2
      (Recency.put m now ⟨key, value, now + ttl * 1000⟩ l) := by
  have hle : ¬ ttl ≤ 0 := by omega
  cases s with
  | memory p =>
    simp only [Store.putTtl, MemoryStore.putTtl, if_neg hle]
    exact putWithExpireAt_leaves_memory h now hk value _
  | persistent ord p =>
    simp only [Store.putTtl, PersistentMemoryStore.putTtl, if_neg hle]
    exact putWithExpireAt_leaves_persistent h now hk value _

theorem put_nil (now : Int) (s : Store) (value : Str) :
    (s.put now [] value).2.mem = s.mem := by
  cases s <;> rfl

theorem putTtl_nil (now : Int) (s : Store) (value : Str) (ttl : Int) :
    (s.putTtl now [] value ttl).2.mem = s.mem := by
  cases s with
  | memory p =>
    simp only [Store.putTtl, MemoryStore.putTtl]
    split <;> rfl
  | persistent ord p =>
    simp only [Store.putTtl, PersistentMemoryStore.putTtl]
    split <;> rfl

theorem del_leaves (h : Reads m s l) (now : Int) (key : Str) :
    Leaves m now (s.del now key).2 (remove key l) := by
  have ha := MemoryStore.del_acts h.wf key
  rw [h.view] at ha
  cases s with
  | memory p => exact Or.inl (reads_of_acts h ha rfl)
  | persistent ord p =>
    refine leaves_of_snapshot ?_
    exact reads_of_acts h ha rfl

theorem expire_le_zero {ttl : Int} (ht : ttl ≤ 0) (now : Int) (s : Store) (key : Str) :
    (s.expire now key ttl).2 = s := by
  cases s with
  | memory p => simp [Store.expire, MemoryStore.expire, ht]
  | persistent ord p => simp [Store.expire, PersistentMemoryStore.expire, ht]

theorem expire_leaves (h : Reads m s l) (now : Int) (key : Str) {ttl : Int} (ht : 0 < ttl) :
    Leaves m now (s.expire now key ttl).2
      (Recency.expireAt now key (now + ttl * 1000) l).2 := by
  have hle : ¬ ttl ≤ 0 := by omega
  have ha := MemoryStore.expireAt_acts h.wf now key (now + ttl * 1000)
  rw [h.view] at ha
  cases s with
  | memory p =>
    simp only [Store.expire, MemoryStore.expire, if_neg hle]
    exact Or.inl (reads_of_acts h ha rfl)
  | persistent ord p =>
    simp only [Store.expire, PersistentMemoryStore.expire, if_neg hle,
      PersistentMemoryStore.expireAt, MemoryStore.ttlToExpireAtMs]
    cases hp : p.memory.expireAt now key (now + ttl * 1000) with
    | mk ok memory =>
      have hr := reads_of_acts h ha (t := .persistent ord
        { p with memory := memory }) (by rw [Store.mem, Store.mem, hp])
      cases ok with
      | false => exact Or.inl ⟨hr.wf, hr.maxKeys, hr.view⟩
      | true =>
        refine leaves_of_snapshot ?_
        exact ⟨hr.wf, hr.maxKeys, hr.view⟩

/-! ## What a replica does -/

/-- A replica applies log entries and serves reads, each at some time. -/
inductive ReplicaEvent
  | apply (now : Int) (entry : RaftLogEntry)
  | get (now : Int) (key : Str)
  | exists_ (now : Int) (key : Str)
  | ttl (now : Int) (key : Str)
  deriving DecidableEq, Repr

namespace ReplicaEvent

def now : ReplicaEvent → Int
  | .apply now _ | .get now _ | .exists_ now _ | .ttl now _ => now

def step (s : Store) : ReplicaEvent → Store
  | .apply now entry => (applyRaftEntryLocked now s entry).2
  | .get now key => (s.get now key).2
  | .exists_ now key => (s.exists_ now key).2
  | .ttl now key => (s.ttl now key).2

def entry? : ReplicaEvent → Option RaftLogEntry
  | .apply _ entry => some entry
  | _ => none

end ReplicaEvent

/-- The entries a replica applied, in order. -/
def applied (evs : List ReplicaEvent) : List RaftLogEntry :=
  evs.filterMap ReplicaEvent.entry?

def runEvents (s : Store) (evs : List ReplicaEvent) : Store := evs.foldl ReplicaEvent.step s

/-- `s` is a store that a replica of this configuration can have at `now`,
having started empty and applied exactly `log` so far. -/
def ReplicaAt (cfg : StoreConfig) (log : List RaftLogEntry) (now : Int) (s : Store) : Prop :=
  ∃ ord start s₀ evs, Store.init cfg ord start [] none = .ok s₀ ∧
    applied evs = log ∧
    (start :: evs.map ReplicaEvent.now).Pairwise (· ≤ ·) ∧
    (∀ t ∈ start :: evs.map ReplicaEvent.now, t ≤ now) ∧
    s = runEvents s₀ evs

/-- Any two replicas that applied the same prefix of the log show the same
contents at every later instant. -/
def ReplicaDeterminism (cfg : StoreConfig) (log : List RaftLogEntry) : Prop :=
  ∀ pre, pre <+: log → ∀ now s₁ s₂, ReplicaAt cfg pre now s₁ → ReplicaAt cfg pre now s₂ →
    ∀ key, s₁.mem.visible now key = s₂.mem.visible now key

/-- No put with a time to live, no expiry of a key that is there, and no
eviction that has a choice: a store of at most one key has none, and any
other bound is never exceeded. `keys` are the keys there so far. -/
def Steady (maxKeys : Nat) : List Str → List RaftLogEntry → Prop
  | _, [] => True
  | keys, entry :: rest =>
    match entry.type with
    | .put =>
      if entry.key = [] then Steady maxKeys keys rest
      else
        let keys' := entry.key :: keys.filter fun key => !decide (key = entry.key)
        entry.ttlSeconds ≤ 0 ∧
          if maxKeys = 0 ∨ keys'.length ≤ maxKeys then Steady maxKeys keys' rest
          else maxKeys = 1 ∧ Steady maxKeys [entry.key] rest
    | .del => Steady maxKeys (keys.filter fun key => !decide (key = entry.key)) rest
    | .expire =>
      (entry.ttlSeconds ≤ 0 ∨ entry.key ∉ keys) ∧ Steady maxKeys keys rest
    | _ => Steady maxKeys keys rest

/-! ## Steady logs -/

/-- The contents after a steady entry, in some order. -/
def refStep (maxKeys : Nat) (ref : List StoreEntry) (entry : RaftLogEntry) :
    List StoreEntry :=
  match entry.type with
  | .put =>
    if entry.key = [] then ref
    else
      let ref' := push ⟨entry.key, entry.value, 0⟩ ref
      if maxKeys = 0 ∨ ref'.length ≤ maxKeys then ref'
      else [⟨entry.key, entry.value, 0⟩]
  | .del => remove entry.key ref
  | _ => ref

/-- The store holds these contents, in some order of recency, and nothing
ever expires. -/
structure Holds (m : Nat) (ref : List StoreEntry) (s : Store) : Prop where
  reads : ∃ l, Reads m s l ∧ l.Perm ref
  timeless : ∀ entry ∈ ref, entry.expireAtMs = 0
  fits : m = 0 ∨ ref.length ≤ m

theorem leaves_timeless {now : Int} (h : Leaves m now s l)
    (hz : ∀ entry ∈ l, entry.expireAtMs = 0) : Reads m s l := by
  rcases h with h | h
  · exact h
  · rwa [purge_timeless hz] at h

theorem find_none_of_perm (h : l.Perm ref) (hk : key ∉ ref.map StoreEntry.key) :
    find key l = none :=
  find_eq_none.mpr fun _ he heq =>
    hk (heq ▸ List.mem_map_of_mem (f := StoreEntry.key) (h.mem_iff.mp he))

theorem holds_put (h : Holds m ref s) (now : Int) (hk : key ≠ []) (value : Str)
    (hfit : m = 0 ∨ (push ⟨key, value, 0⟩ ref).length ≤ m) :
    Holds m (push ⟨key, value, 0⟩ ref) (s.put now key value).2 := by
  obtain ⟨l, hr, hp⟩ := h.reads
  have hz := push_timeless h.timeless key value
  have hpp := push_perm hp ⟨key, value, 0⟩
  have hput : Recency.put m now ⟨key, value, 0⟩ l = push ⟨key, value, 0⟩ l := by
    rw [Recency.put, purge_timeless (perm_timeless hpp hz), cap]
    split
    · rfl
    · next hm =>
      refine List.take_of_length_le ?_
      rw [hpp.length_eq]
      exact hfit.resolve_left hm
  have hl := put_leaves hr now hk value
  rw [hput] at hl
  exact ⟨⟨_, leaves_timeless hl (perm_timeless hpp hz), hpp⟩, hz, hfit⟩

theorem holds_put_one (h : Holds 1 ref s) (now : Int) (hk : key ≠ []) (value : Str) :
    Holds 1 [⟨key, value, 0⟩] (s.put now key value).2 := by
  obtain ⟨l, hr, hp⟩ := h.reads
  have hz := push_timeless h.timeless key value
  have hpp := push_perm hp ⟨key, value, 0⟩
  have hput : Recency.put 1 now ⟨key, value, 0⟩ l = [⟨key, value, 0⟩] := by
    rw [Recency.put, purge_timeless (perm_timeless hpp hz)]
    rfl
  have hl := put_leaves hr now hk value
  rw [hput] at hl
  have hz1 : ∀ entry ∈ [(⟨key, value, 0⟩ : StoreEntry)], entry.expireAtMs = 0 := by simp
  exact ⟨⟨_, leaves_timeless hl hz1, List.Perm.refl _⟩, hz1, Or.inr (Nat.le_refl 1)⟩

theorem holds_of_mem_eq {s' : Store} (h : Holds m ref s) (hs : s'.mem = s.mem) :
    Holds m ref s' := by
  obtain ⟨l, hr, hp⟩ := h.reads
  exact ⟨⟨l, ⟨hs ▸ hr.wf, hs ▸ hr.maxKeys, hs ▸ hr.view⟩, hp⟩, h.timeless, h.fits⟩

theorem holds_del (h : Holds m ref s) (now : Int) (key : Str) :
    Holds m (remove key ref) (s.del now key).2 := by
  obtain ⟨l, hr, hp⟩ := h.reads
  have hz : ∀ entry ∈ remove key ref, entry.expireAtMs = 0 :=
    fun entry he => h.timeless entry (List.mem_of_mem_filter he)
  have hpp := remove_perm hp key
  refine ⟨⟨_, leaves_timeless (del_leaves hr now key) (perm_timeless hpp hz), hpp⟩, hz, ?_⟩
  refine h.fits.imp_right fun hle => ?_
  exact Nat.le_trans (List.length_filter_le _ _) hle

theorem holds_expire (h : Holds m ref s) (now : Int) (hk : ttl ≤ 0 ∨ key ∉ ref.map StoreEntry.key) :
    Holds m ref (s.expire now key ttl).2 := by
  rcases (show 0 < ttl ∨ ttl ≤ 0 by omega) with ht | ht
  · obtain ⟨l, hr, hp⟩ := h.reads
    have hnone := find_none_of_perm hp (hk.resolve_left (by omega))
    have hl := expire_leaves hr now key ht
    rw [Recency.expireAt, hnone] at hl
    exact ⟨⟨l, leaves_timeless hl (perm_timeless hp h.timeless), hp⟩, h.timeless, h.fits⟩
  · rw [expire_le_zero ht]
    exact h

theorem read_perm (hd : Distinct l) (h : l.Perm ref) (hz : ∀ entry ∈ ref, entry.expireAtMs = 0)
    (now : Int) (key : Str) : (Recency.read now key l).2.Perm ref := by
  rw [Recency.read]
  cases hf : find key l with
  | none => exact h
  | some entry =>
    have hm := find_mem hf
    have hx := expired_of_zero (hz entry (h.mem_iff.mp hm)) now
    simp only [hx]
    refine List.Perm.trans ?_ h
    -- moving the entry to the front
    have hnd : l.Nodup := List.Nodup.of_map _ hd
    have hrem : remove entry.key l = l.erase entry := by
      rw [hnd.erase_eq_filter, remove]
      refine List.filter_congr fun x hx' => ?_
      by_cases heq : x = entry
      · simp [heq]
      · have hne : x.key ≠ entry.key := fun hk =>
          heq (List.inj_on_of_nodup_map hd hx' hm hk)
        simp [heq, hne]
    show (push entry l).Perm l
    rw [push, hrem]
    exact (List.perm_cons_erase hm).symm

/-- Reads keep what a timeless store holds. -/
theorem holds_read (h : Holds m ref s) (ev : ReplicaEvent) (hev : ev.entry? = none) :
    Holds m ref (ev.step s) := by
  obtain ⟨l, hr, hp⟩ := h.reads
  cases ev with
  | apply now entry => cases hev
  | get now key =>
    have ha := MemoryStore.get_acts hr.wf now key
    rw [hr.view] at ha
    exact ⟨⟨_, reads_of_acts hr ha (setMem_mem _ _),
      read_perm hr.distinct hp h.timeless now key⟩, h.timeless, h.fits⟩
  | exists_ now key =>
    have ha := MemoryStore.exists_acts hr.wf now key
    rw [hr.view] at ha
    exact ⟨⟨_, reads_of_acts hr ha (setMem_mem _ _),
      read_perm hr.distinct hp h.timeless now key⟩, h.timeless, h.fits⟩
  | ttl now key =>
    obtain ⟨hwf, hm, hv⟩ := MemoryStore.ttl_keeps hr.wf now key
    have hsame : MemoryStore.ttlLeaves now key l = l := by
      rw [MemoryStore.ttlLeaves]
      cases hf : find key l with
      | none => rfl
      | some entry =>
        simp only [expired_of_zero (h.timeless entry (hp.mem_iff.mp (find_mem hf)))]
        rfl
    rw [hr.view, hsame] at hv
    have hs : (ReplicaEvent.step s (.ttl now key)).mem = (s.mem.ttl now key).2 :=
      setMem_mem _ _
    exact ⟨⟨l, ⟨hs ▸ hwf, by rw [hs, hm, hr.maxKeys], by rw [hs, hv]⟩, hp⟩,
      h.timeless, h.fits⟩

/-- The keys of the reference contents follow `Steady`'s. -/
theorem holds_apply (h : Holds m ref s) (now : Int)
    (hst : Steady m (ref.map StoreEntry.key) (entry :: rest)) :
    Holds m (refStep m ref entry) (applyRaftEntryLocked now s entry).2 ∧
      Steady m ((refStep m ref entry).map StoreEntry.key) rest := by
  rw [Steady] at hst
  rw [refStep, applyRaftEntryLocked]
  cases ht : entry.type <;> simp only [ht] at hst ⊢
  case put =>
      split at hst
      · next hk =>
        rw [if_pos hk]
        refine ⟨holds_of_mem_eq h ?_, hst⟩
        rw [hk]
        split
        · exact putTtl_nil _ _ _ _
        · exact put_nil _ _ _
      · next hk =>
        obtain ⟨httl, hst⟩ := hst
        have hkeys : (push ⟨entry.key, entry.value, 0⟩ ref).map StoreEntry.key =
            entry.key :: (ref.map StoreEntry.key).filter
              fun key => !decide (key = entry.key) := by
          rw [push, List.map_cons, keys_remove]
        have hlen : (push ⟨entry.key, entry.value, 0⟩ ref).length =
            (entry.key :: (ref.map StoreEntry.key).filter
              fun key => !decide (key = entry.key)).length := by
          rw [← hkeys, List.length_map]
        rw [if_neg hk, if_neg (show ¬ 0 < entry.ttlSeconds by omega), hlen]
        split at hst
        · next hfit =>
          rw [if_pos hfit, hkeys]
          rw [← hlen] at hfit
          exact ⟨holds_put h now hk entry.value hfit, hst⟩
        · next hfull =>
          rw [if_neg hfull]
          obtain ⟨rfl, hst⟩ := hst
          exact ⟨holds_put_one h now hk entry.value, hst⟩
  case del =>
      rw [keys_remove]
      exact ⟨holds_del h now entry.key, hst⟩
  case expire => exact ⟨holds_expire h now hst.1, hst.2⟩
  all_goals exact ⟨h, hst⟩

theorem steady_prefix {keys : List Str} {pre : List RaftLogEntry}
    (h : Steady m keys (pre ++ rest)) : Steady m keys pre := by
  induction pre generalizing keys with
  | nil => trivial
  | cons entry pre ih =>
    rw [List.cons_append, Steady] at h
    rw [Steady]
    cases ht : entry.type <;> simp only [ht] at h ⊢
    case put =>
        split at h
        · next hk => rw [if_pos hk]; exact ih h
        · next hk =>
          rw [if_neg hk]
          refine ⟨h.1, ?_⟩
          split at h
          · next hfit => rw [if_pos hfit]; exact ih h.2
          · next hfull => rw [if_neg hfull]; exact ⟨h.2.1, ih h.2.2⟩
    case expire => exact ⟨h.1, ih h.2⟩
    all_goals exact ih h

/-- Whatever a replica reads and whenever it applies, a steady log decides
what it holds. -/
theorem holds_run (h : Holds m ref s) {evs : List ReplicaEvent}
    (hst : Steady m (ref.map StoreEntry.key) (applied evs)) :
    Holds m ((applied evs).foldl (refStep m) ref) (runEvents s evs) := by
  induction evs generalizing ref s with
  | nil => exact h
  | cons ev evs ih =>
    cases hev : ev.entry? with
    | none =>
      have happ : applied (ev :: evs) = applied evs := by
        rw [applied, List.filterMap_cons_none hev]
        rfl
      rw [happ] at hst ⊢
      exact ih (holds_read h ev hev) hst
    | some entry =>
      have happ : applied (ev :: evs) = entry :: applied evs := by
        rw [applied, List.filterMap_cons_some hev]
        rfl
      rw [happ] at hst ⊢
      cases ev with
      | apply now e =>
        injection hev with hev
        subst hev
        obtain ⟨h1, h2⟩ := holds_apply h now hst
        exact ih h1 h2
      | get now key => cases hev
      | exists_ now key => cases hev
      | ttl now key => cases hev

theorem holds_init (cfg : StoreConfig) (ord : IterOrder) (start : Int)
    (h : Store.init cfg ord start [] none = .ok s) : Holds cfg.maxKeys [] s := by
  have hset : ∀ mem : MemoryStore, mem = ({} : MemoryStore).setMaxKeys start cfg.maxKeys →
      mem.WF ∧ mem.maxKeys = cfg.maxKeys ∧ mem.view = [] := by
    rintro mem rfl
    obtain ⟨h1, h2, h3⟩ :=
      MemoryStore.enforceCapacityLocked_spec (MemoryStore.wf_empty cfg.maxKeys) start
    refine ⟨h1, h2, h3.trans ?_⟩
    simp [MemoryStore.view, purge, cap]
  have hmem : s.mem = ({} : MemoryStore).setMaxKeys start cfg.maxKeys := by
    rw [Store.init] at h
    split at h
    · injection h with h
      rw [← h]
      rfl
    · injection h with h
      rw [← h]
      rfl
  obtain ⟨h1, h2, h3⟩ := hset s.mem hmem
  exact ⟨⟨[], ⟨h1, h2, h3⟩, List.Perm.refl _⟩, by simp, Or.inr (Nat.zero_le _)⟩

theorem holds_visible (h₁ : Holds m ref s₁) (h₂ : Holds m ref s₂) (now : Int) (key : Str) :
    s₁.mem.visible now key = s₂.mem.visible now key := by
  obtain ⟨l₁, hr₁, hp₁⟩ := h₁.reads
  obtain ⟨l₂, hr₂, hp₂⟩ := h₂.reads
  rw [hr₁.visible, hr₂.visible, Recency.visible, Recency.visible]
  rw [find_perm hr₁.distinct (hp₁.trans hp₂.symm)]

/-! ## Logs that are not steady -/

theorem Holds.distinct (h : Holds m ref s) : Distinct ref := by
  obtain ⟨l, hr, hp⟩ := h.reads
  exact (hp.map StoreEntry.key).nodup_iff.mp hr.distinct

theorem steady_cons :
    Steady m (ref.map StoreEntry.key) (entry :: rest) ↔
      Steady m (ref.map StoreEntry.key) [entry] ∧
        Steady m ((refStep m ref entry).map StoreEntry.key) rest := by
  rw [Steady, Steady, refStep]
  cases ht : entry.type <;> simp only [Steady, and_true, true_and]
  case put =>
      by_cases hk : entry.key = []
      · simp only [if_pos hk, true_and]
      · have hkeys : (push ⟨entry.key, entry.value, 0⟩ ref).map StoreEntry.key =
            entry.key :: (ref.map StoreEntry.key).filter
              fun key => !decide (key = entry.key) := by
          rw [push, List.map_cons, keys_remove]
        have hlen : (push ⟨entry.key, entry.value, 0⟩ ref).length =
            (entry.key :: (ref.map StoreEntry.key).filter
              fun key => !decide (key = entry.key)).length := by
          rw [← hkeys, List.length_map]
        simp only [if_neg hk, hlen]
        split
        · rw [hkeys, and_true]
        · rw [and_assoc]
          rfl
  case del => rw [keys_remove]

/-- An entry put in front of a list survives its own purge and the bound. -/
theorem leaves_front {now : Int} {entry : StoreEntry} (hx : entry.expired now = false)
    (h : Leaves m now s (cap m (purge now (entry :: l)))) : ∃ tail, Reads m s (entry :: tail) := by
  have hfront : ∃ tail, cap m (purge now (entry :: l)) = entry :: tail := by
    rw [purge, List.filter_cons_of_pos (by simp [hx]), cap]
    cases m with
    | zero => exact ⟨_, rfl⟩
    | succ k => exact ⟨_, rfl⟩
  obtain ⟨tail, ht⟩ := hfront
  rw [ht] at h
  rcases h with h | h
  · exact ⟨tail, h⟩
  · rw [purge, List.filter_cons_of_pos (by simp [hx])] at h
    exact ⟨_, h⟩

theorem visible_front {entry : StoreEntry} {tail : List StoreEntry} (h : Reads m s (entry :: tail))
    (hx : entry.expired t = false) : s.mem.visible t entry.key = some entry := by
  rw [h.visible, Recency.visible, find_cons, if_pos rfl, live_some, hx]
  rfl

/-- A deadline taken now is in the future for the next second. -/
theorem fresh_deadline {now : Int} (ht : 0 < ttl) (hlt : t < now + 1000) (key value : Str) :
    (⟨key, value, now + ttl * 1000⟩ : StoreEntry).expired t = false := by
  have hd : ¬ now + ttl * 1000 ≤ t := by omega
  simp [StoreEntry.expired, hd]

theorem visible_putTtl (h : Reads m s l) {now : Int} (hlt : t < now + 1000) (hk : key ≠ [])
    (value : Str) (ht : 0 < ttl) :
    (s.putTtl now key value ttl).2.mem.visible t key =
      some ⟨key, value, now + ttl * 1000⟩ := by
  obtain ⟨tail, hr⟩ := leaves_front (fresh_deadline ht (by omega) key value)
    (putTtl_leaves h now hk value ht)
  exact visible_front hr (fresh_deadline ht hlt key value)

theorem visible_expire (h : Holds m ref s) (now t : Int) (hlt : t < now + 1000)
    (hk : key ∈ ref.map StoreEntry.key) (ht : 0 < ttl) :
    ∃ value, (s.expire now key ttl).2.mem.visible t key =
      some ⟨key, value, now + ttl * 1000⟩ := by
  obtain ⟨l, hr, hp⟩ := h.reads
  obtain ⟨entry, he, rfl⟩ := List.mem_map.mp hk
  have hm := hp.mem_iff.mpr he
  have hf := find_of_mem hr.distinct hm
  have hl := expire_leaves hr now entry.key ht
  rw [Recency.expireAt, hf] at hl
  simp only [expired_of_zero (h.timeless entry he), Bool.false_eq_true, if_false] at hl
  have hx : ∀ u, u < now + 1000 →
      StoreEntry.expired { entry with expireAtMs := now + ttl * 1000 } u = false :=
    fun u hu => fresh_deadline ht hu entry.key entry.value
  have hfront : ∃ tail, Reads m (s.expire now entry.key ttl).2
      ({ entry with expireAtMs := now + ttl * 1000 } :: tail) := by
    rcases hl with hl | hl
    · exact ⟨_, hl⟩
    · rw [push, purge, List.filter_cons_of_pos (by rw [hx now (by omega)]; rfl)] at hl
      exact ⟨_, hl⟩
  obtain ⟨tail, hr'⟩ := hfront
  exact ⟨entry.value, visible_front hr' (hx t hlt)⟩

/-! ### Choosing the victim

Reading every key but one leaves that one last, and the next new key evicts
it from a full store. -/

/-- Reads of these keys, all at one time. -/
def reads (now : Int) (keys : List Str) : List ReplicaEvent :=
  keys.map (ReplicaEvent.get now)

theorem applied_reads (now : Int) (keys : List Str) : applied (reads now keys) = [] := by
  induction keys with
  | nil => rfl
  | cons key keys ih => exact ih

theorem now_reads {now : Int} {keys : List Str} {ev : ReplicaEvent}
    (h : ev ∈ reads now keys) : ev.now = now := by
  obtain ⟨key, -, rfl⟩ := List.mem_map.mp h
  rfl

/-- The order of the keys after reading some of them: those, last read
first, and then the others as they were. -/
theorem keys_after_reads (now : Int) :
    ∀ (keys : List Str) {s : Store} {l : List StoreEntry}, Reads m s l → l.Perm ref →
      (∀ entry ∈ ref, entry.expireAtMs = 0) → keys.Nodup →
      (∀ key ∈ keys, key ∈ l.map StoreEntry.key) →
      ∃ l', Reads m (runEvents s (reads now keys)) l' ∧ l'.Perm ref ∧
        l'.map StoreEntry.key = keys.reverse ++
          (l.map StoreEntry.key).filter fun key => !decide (key ∈ keys) := by
  intro keys
  induction keys with
  | nil =>
    intro s l hr hp hz _ _
    refine ⟨l, hr, hp, ?_⟩
    simp
  | cons k keys ih =>
    intro s l hr hp hz hnd hin
    obtain ⟨hk, hnd⟩ := List.nodup_cons.mp hnd
    obtain ⟨entry, hm, hek⟩ := List.mem_map.mp (hin k List.mem_cons_self)
    have hf := find_of_mem hr.distinct hm
    rw [hek] at hf
    have hx := expired_of_zero (hz entry (hp.mem_iff.mp hm)) now
    have hread : (Recency.read now k l).2 = push entry l := by
      rw [Recency.read, hf]
      simp only [hx]
      rfl
    have ha := MemoryStore.get_acts hr.wf now k
    have hpp := read_perm hr.distinct hp hz now k
    rw [hr.view, hread] at ha
    rw [hread] at hpp
    have hr' : Reads m (ReplicaEvent.step s (.get now k)) (push entry l) :=
      reads_of_acts hr ha (setMem_mem _ _)
    have hkeys : (push entry l).map StoreEntry.key =
        k :: (l.map StoreEntry.key).filter fun key => !decide (key = k) := by
      rw [push, List.map_cons, keys_remove, hek]
    have hin' : ∀ key ∈ keys, key ∈ (push entry l).map StoreEntry.key := by
      intro key hkey
      have hne : key ≠ k := fun he => hk (he ▸ hkey)
      rw [hkeys]
      exact List.mem_cons_of_mem _ (List.mem_filter.mpr
        ⟨hin key (List.mem_cons_of_mem _ hkey), by simpa using hne⟩)
    obtain ⟨l', h1, h2, h3⟩ := ih hr' hpp hz hnd hin'
    refine ⟨l', h1, h2, h3.trans ?_⟩
    rw [hkeys, List.filter_cons_of_pos (by simpa using hk), List.filter_filter,
      List.reverse_cons, List.append_assoc, List.singleton_append]
    congr 2
    refine List.filter_congr fun key _ => ?_
    simp [Bool.and_comm]

/-- In a full store the key left unread makes room for a new one. -/
theorem evicts_unread (h : Holds m ref s) (hfull : ref.length = m) (now : Int) {victim new : Str}
    (hv : victim ∈ ref.map StoreEntry.key) (hnew : new ∉ ref.map StoreEntry.key) (hne : new ≠ [])
    (value : Str) :
    ∃ l, Reads m ((runEvents s (reads now ((ref.map StoreEntry.key).erase victim))).put
        now new value).2 l ∧
      (∀ entry ∈ l, entry.expireAtMs = 0) ∧
      l.map StoreEntry.key = new :: ((ref.map StoreEntry.key).erase victim).reverse := by
  have hnd : (ref.map StoreEntry.key).Nodup := h.distinct
  obtain ⟨l, hr, hp⟩ := h.reads
  have hpk := hp.map StoreEntry.key
  obtain ⟨l', hr', hp', hk'⟩ := keys_after_reads now ((ref.map StoreEntry.key).erase victim)
    hr hp h.timeless (hnd.erase victim)
    (fun key hkey => hpk.mem_iff.mpr (List.mem_of_mem_erase hkey))
  have hlast : ((l.map StoreEntry.key).filter fun key =>
      !decide (key ∈ (ref.map StoreEntry.key).erase victim)) = [victim] := by
    have hperm : (l.map StoreEntry.key).Perm
        (victim :: (ref.map StoreEntry.key).erase victim) :=
      hpk.trans (List.perm_cons_erase hv)
    have hfp := hperm.filter fun key =>
      !decide (key ∈ (ref.map StoreEntry.key).erase victim)
    have hnone : (((ref.map StoreEntry.key).erase victim).filter fun key =>
        !decide (key ∈ (ref.map StoreEntry.key).erase victim)) = [] :=
      List.filter_eq_nil_iff.mpr fun key hkey => by simp [hkey]
    rw [List.filter_cons_of_pos (by simpa using hnd.not_mem_erase), hnone] at hfp
    exact List.perm_singleton.mp hfp
  rw [hlast] at hk'
  have hz := push_timeless h.timeless new value
  have hzl := perm_timeless (push_perm hp' ⟨new, value, 0⟩) hz
  have hm : m ≠ 0 := by
    rintro rfl
    rw [List.length_eq_zero_iff.mp hfull] at hv
    cases hv
  have hrem : remove new l' = l' := by
    refine List.filter_eq_self.mpr fun entry he => ?_
    have hne' : entry.key ≠ new := fun heq =>
      hnew (heq ▸ List.mem_map_of_mem (f := StoreEntry.key) (hp'.mem_iff.mp he))
    simpa using hne'
  have hput : Recency.put m now ⟨new, value, 0⟩ l' =
      (⟨new, value, 0⟩ :: l').take m := by
    rw [Recency.put, purge_timeless hzl, cap, if_neg hm, push, hrem]
  have hl := put_leaves hr' now hne value
  rw [hput] at hl
  have hzt : ∀ entry ∈ (⟨new, value, 0⟩ :: l').take m, entry.expireAtMs = 0 := by
    intro entry he
    have he := List.mem_of_mem_take he
    rw [push, hrem] at hzl
    exact hzl entry he
  refine ⟨_, leaves_timeless hl hzt, hzt, ?_⟩
  have hlen : ((ref.map StoreEntry.key).erase victim).reverse.length = m - 1 := by
    rw [List.length_reverse, List.length_erase_of_mem hv, List.length_map, hfull]
  obtain ⟨k, rfl⟩ := Nat.exists_eq_succ_of_ne_zero hm
  rw [List.map_take, List.map_cons, hk', List.take_succ_cons]
  congr 1
  refine List.take_left' ?_
  rw [hlen]
  rfl

/-- The two replicas disagree on which of two keys is gone. -/
theorem visible_victim (h : Holds m ref s) (hfull : ref.length = m) (now t : Int)
    {victim other new : Str} (hv : victim ∈ ref.map StoreEntry.key)
    (ho : other ∈ ref.map StoreEntry.key) (hne : other ≠ victim)
    (hnew : new ∉ ref.map StoreEntry.key) (hnil : new ≠ []) (value : Str) :
    let s' := ((runEvents s (reads now ((ref.map StoreEntry.key).erase victim))).put
      now new value).2
    s'.mem.visible t victim = none ∧ (s'.mem.visible t other).isSome := by
  have hnd : (ref.map StoreEntry.key).Nodup := h.distinct
  obtain ⟨l, hr, hz, hk⟩ := evicts_unread h hfull now hv hnew hnil value
  constructor
  · rw [hr.visible, Recency.visible, find_eq_none.mpr]
    · rfl
    · intro entry he heq
      have hmem : victim ∈ l.map StoreEntry.key :=
        heq ▸ List.mem_map_of_mem (f := StoreEntry.key) he
      rw [hk, List.mem_cons, List.mem_reverse] at hmem
      rcases hmem with rfl | hmem
      · exact hnew hv
      · exact hnd.not_mem_erase hmem
  · have hmem : other ∈ l.map StoreEntry.key := by
      rw [hk]
      exact List.mem_cons_of_mem _
        (List.mem_reverse.mpr ((List.mem_erase_of_ne hne).mpr ho))
    obtain ⟨entry, he, rfl⟩ := List.mem_map.mp hmem
    rw [hr.visible, Recency.visible, find_of_mem hr.distinct he, live_some,
      expired_of_zero (hz entry he)]
    rfl

/-! ### The first entry that is not steady -/

/-- Two replicas that apply the same entries, one at time 1 and the other at
time 2, and show different contents at time 2. -/
def Diverge (s₁ s₂ : Store) (log : List RaftLogEntry) : Prop :=
  ∃ evs₁ evs₂, applied evs₁ = log ∧ applied evs₂ = log ∧
    (∀ ev ∈ evs₁, ev.now = 1) ∧ (∀ ev ∈ evs₂, ev.now = 2) ∧
    ∃ key, (runEvents s₁ evs₁).mem.visible 2 key ≠ (runEvents s₂ evs₂).mem.visible 2 key

theorem diverge_cons {log : List RaftLogEntry}
    (h : Diverge (applyRaftEntryLocked 1 s₁ entry).2 (applyRaftEntryLocked 2 s₂ entry).2 log) :
    Diverge s₁ s₂ (entry :: log) := by
  obtain ⟨evs₁, evs₂, ha₁, ha₂, hn₁, hn₂, key, hne⟩ := h
  refine ⟨.apply 1 entry :: evs₁, .apply 2 entry :: evs₂, ?_, ?_, ?_, ?_, key, hne⟩
  · exact congrArg (entry :: ·) ha₁
  · exact congrArg (entry :: ·) ha₂
  · exact List.forall_mem_cons.mpr ⟨rfl, hn₁⟩
  · exact List.forall_mem_cons.mpr ⟨rfl, hn₂⟩

theorem diverge_single (keys₁ keys₂ : List Str) (key : Str)
    (h : (applyRaftEntryLocked 1 (runEvents s₁ (reads 1 keys₁)) entry).2.mem.visible 2 key ≠
      (applyRaftEntryLocked 2 (runEvents s₂ (reads 2 keys₂)) entry).2.mem.visible 2 key) :
    Diverge s₁ s₂ [entry] := by
  have happ : ∀ now keys, applied (reads now keys ++ [.apply now entry]) = [entry] := by
    intro now keys
    rw [applied, List.filterMap_append]
    exact congrArg (· ++ [entry]) (applied_reads now keys)
  have hnow : ∀ now keys, ∀ ev ∈ reads now keys ++ [.apply now entry], ev.now = now := by
    intro now keys ev hev
    rcases List.mem_append.mp hev with hev | hev
    · exact now_reads hev
    · rw [List.mem_singleton.mp hev]
      rfl
  have hrun : ∀ now keys (s : Store), runEvents s (reads now keys ++ [.apply now entry]) =
      (applyRaftEntryLocked now (runEvents s (reads now keys)) entry).2 := by
    intro now keys s
    rw [runEvents, List.foldl_append]
    rfl
  refine ⟨_, _, happ 1 keys₁, happ 2 keys₂, hnow 1 keys₁, hnow 2 keys₂, key, ?_⟩
  rw [hrun, hrun]
  exact h

theorem diverge_putTtl (h₁ : Holds m ref s₁) (h₂ : Holds m ref s₂)
    (ht : entry.type = .put) (hk : entry.key ≠ []) (httl : 0 < entry.ttlSeconds) :
    Diverge s₁ s₂ [entry] := by
  obtain ⟨l₁, hr₁, -⟩ := h₁.reads
  obtain ⟨l₂, hr₂, -⟩ := h₂.reads
  refine diverge_single [] [] entry.key ?_
  simp only [applyRaftEntryLocked, ht, if_pos httl]
  show (s₁.putTtl 1 entry.key entry.value entry.ttlSeconds).2.mem.visible 2 entry.key ≠
    (s₂.putTtl 2 entry.key entry.value entry.ttlSeconds).2.mem.visible 2 entry.key
  rw [visible_putTtl hr₁ (by omega) hk entry.value httl,
    visible_putTtl hr₂ (by omega) hk entry.value httl]
  intro heq
  injection heq with heq
  injection heq with _ _ hd
  omega

theorem diverge_expire (h₁ : Holds m ref s₁) (h₂ : Holds m ref s₂)
    (ht : entry.type = .expire) (hk : entry.key ∈ ref.map StoreEntry.key)
    (httl : 0 < entry.ttlSeconds) : Diverge s₁ s₂ [entry] := by
  obtain ⟨v₁, hv₁⟩ := visible_expire h₁ 1 2 (by omega) hk httl
  obtain ⟨v₂, hv₂⟩ := visible_expire h₂ 2 2 (by omega) hk httl
  refine diverge_single [] [] entry.key ?_
  simp only [applyRaftEntryLocked, ht]
  show (s₁.expire 1 entry.key entry.ttlSeconds).2.mem.visible 2 entry.key ≠
    (s₂.expire 2 entry.key entry.ttlSeconds).2.mem.visible 2 entry.key
  rw [hv₁, hv₂]
  intro heq
  injection heq with heq
  injection heq with _ _ hd
  omega

/-- A full store of two keys or more: each replica reads all but the key it
is to lose. -/
theorem diverge_evict (h₁ : Holds m ref s₁) (h₂ : Holds m ref s₂)
    (ht : entry.type = .put) (hk : entry.key ≠ []) (httl : entry.ttlSeconds ≤ 0)
    (hnew : entry.key ∉ ref.map StoreEntry.key) (hfull : ref.length = m) (hm : 2 ≤ m) :
    Diverge s₁ s₂ [entry] := by
  obtain ⟨a, b, tail, rfl⟩ : ∃ a b tail, ref = a :: b :: tail := by
    match ref, hfull with
    | [], hl => simp at hl; omega
    | [_], hl => simp at hl; omega
    | a :: b :: tail, _ => exact ⟨a, b, tail, rfl⟩
  have hab : a.key ≠ b.key := by
    have hd := h₁.distinct
    rw [Distinct, List.map_cons, List.map_cons, List.nodup_cons] at hd
    exact fun heq => hd.1 (heq ▸ List.mem_cons_self)
  have ha : a.key ∈ (a :: b :: tail).map StoreEntry.key := by simp
  have hb : b.key ∈ (a :: b :: tail).map StoreEntry.key := by simp
  have hv₁ := (visible_victim h₁ hfull 1 2 ha hb hab.symm hnew hk entry.value).1
  have hv₂ := (visible_victim h₂ hfull 2 2 hb ha hab hnew hk entry.value).2
  refine diverge_single (((a :: b :: tail).map StoreEntry.key).erase a.key)
    (((a :: b :: tail).map StoreEntry.key).erase b.key) a.key ?_
  simp only [applyRaftEntryLocked, ht, if_neg (show ¬ 0 < entry.ttlSeconds by omega)]
  rw [hv₁]
  intro heq
  rw [← heq] at hv₂
  cases hv₂

/-- An entry that is not steady, applied by two replicas that hold the same. -/
theorem diverge_of_not_steady (h₁ : Holds m ref s₁) (h₂ : Holds m ref s₂)
    (hst : ¬ Steady m (ref.map StoreEntry.key) [entry]) : Diverge s₁ s₂ [entry] := by
  rw [Steady] at hst
  cases ht : entry.type <;> simp only [ht, Steady, and_true, not_true_eq_false] at hst
  case put =>
      split at hst
      · exact absurd trivial hst
      · next hk =>
        by_cases httl : 0 < entry.ttlSeconds
        · exact diverge_putTtl h₁ h₂ ht hk httl
        · have httl : entry.ttlSeconds ≤ 0 := by omega
          have hst := fun h => hst ⟨httl, h⟩
          split at hst
          · exact absurd trivial hst
          · next hfit =>
            obtain ⟨hm0, hgt⟩ := not_or.mp hfit
            have hlen := List.length_filter_le
              (fun key => !decide (key = entry.key)) (ref.map StoreEntry.key)
            have hle := h₁.fits.resolve_left hm0
            rw [List.length_cons] at hgt
            rw [List.length_map] at hlen
            have hnew : entry.key ∉ ref.map StoreEntry.key := by
              intro hmem
              have hlt : ((ref.map StoreEntry.key).filter
                  fun key => !decide (key = entry.key)).length <
                    (ref.map StoreEntry.key).length :=
                List.length_filter_lt_length_iff_exists.mpr
                  ⟨entry.key, hmem, by simp⟩
              rw [List.length_map] at hlt
              omega
            have hm1 : m ≠ 1 := fun h => hst h
            exact diverge_evict h₁ h₂ ht hk httl hnew (by omega) (by omega)
  case expire =>
      obtain ⟨httl, hk⟩ := not_or.mp hst
      exact diverge_expire h₁ h₂ ht (by simpa using hk) (by omega)

theorem exists_diverge {log : List RaftLogEntry} :
    ∀ {ref : List StoreEntry} {s₁ s₂ : Store}, Holds m ref s₁ → Holds m ref s₂ →
      ¬ Steady m (ref.map StoreEntry.key) log → ∃ pre, pre <+: log ∧ Diverge s₁ s₂ pre := by
  induction log with
  | nil =>
    intro ref s₁ s₂ _ _ hst
    exact absurd trivial hst
  | cons entry log ih =>
    intro ref s₁ s₂ h₁ h₂ hst
    by_cases hone : Steady m (ref.map StoreEntry.key) [entry]
    · have hrest := fun h => hst (steady_cons.mpr ⟨hone, h⟩)
      obtain ⟨pre, ⟨tail, rfl⟩, hd⟩ :=
        ih (holds_apply h₁ 1 hone).1 (holds_apply h₂ 2 hone).1 hrest
      exact ⟨entry :: pre, ⟨tail, rfl⟩, diverge_cons hd⟩
    · exact ⟨[entry], ⟨log, rfl⟩, diverge_of_not_steady h₁ h₂ hone⟩

/-! ## The logs on which replicas agree -/

theorem replicaAt_run {cfg : StoreConfig} {ord : IterOrder} {start now : Int}
    (hs : Store.init cfg ord start [] none = .ok s) {evs : List ReplicaEvent}
    (hev : ∀ ev ∈ evs, ev.now = start) (hle : start ≤ now) :
    ReplicaAt cfg (applied evs) now (runEvents s evs) := by
  have htimes : ∀ t ∈ start :: evs.map ReplicaEvent.now, t = start := by
    intro t ht
    rcases List.mem_cons.mp ht with rfl | ht
    · rfl
    · obtain ⟨ev, hm, rfl⟩ := List.mem_map.mp ht
      exact hev ev hm
  refine ⟨ord, start, s, evs, hs, rfl, ?_, fun t ht => ?_, rfl⟩
  · exact List.pairwise_of_forall_mem_list fun t ht u hu => by
      exact Int.le_of_eq ((htimes t ht).trans (htimes u hu).symm)
  · rw [htimes t ht]
    exact hle

/-- An empty start always succeeds. -/
theorem init_empty (cfg : StoreConfig) (ord : IterOrder) (start : Int) :
    ∃ s, Store.init cfg ord start [] none = .ok s := by
  cases hw : cfg.walEnabled with
  | false => exact ⟨_, by rw [Store.init, hw]; rfl⟩
  | true => exact ⟨_, by rw [Store.init, hw]; rfl⟩

theorem replicaDeterminism_iff (cfg : StoreConfig) (log : List RaftLogEntry) :
    ReplicaDeterminism cfg log ↔ Steady cfg.maxKeys [] log := by
  constructor
  · intro hdet
    by_contra hst
    obtain ⟨s₁, hs₁⟩ := init_empty cfg IterOrder.asStored 1
    obtain ⟨s₂, hs₂⟩ := init_empty cfg IterOrder.asStored 2
    obtain ⟨pre, hpre, evs₁, evs₂, ha₁, ha₂, hn₁, hn₂, key, hne⟩ :=
      exists_diverge (holds_init cfg _ 1 hs₁) (holds_init cfg _ 2 hs₂) hst
    refine hne (hdet pre hpre 2 _ _ ?_ ?_ key)
    · exact ha₁ ▸ replicaAt_run hs₁ hn₁ (by omega)
    · exact ha₂ ▸ replicaAt_run hs₂ hn₂ (by omega)
  · rintro hst pre ⟨rest, rfl⟩ now s₁ s₂ ⟨ord₁, start₁, t₁, evs₁, hi₁, ha₁, -, -, rfl⟩
      ⟨ord₂, start₂, t₂, evs₂, hi₂, ha₂, -, -, rfl⟩ key
    have hpre := steady_prefix hst
    have h₁ := holds_run (holds_init cfg ord₁ start₁ hi₁) (ha₁ ▸ hpre)
    have h₂ := holds_run (holds_init cfg ord₂ start₂ hi₂) (ha₂ ▸ hpre)
    rw [ha₁] at h₁
    rw [ha₂] at h₂
    exact holds_visible h₁ h₂ now key

/-- One put with a time to live of a second, applied a millisecond apart. -/
theorem replicas_disagree_on_deadline :
    ¬ ∀ cfg log, ReplicaDeterminism cfg log := by
  intro hdet
  have h := hdet ⟨false, 0, 0⟩ [⟨1, 1, .put, bytes ['s'], bytes ['a'], 1⟩] _
    (List.prefix_refl _) 2 _ _
    ⟨IterOrder.asStored, 1, _, [.apply 1 ⟨1, 1, .put, bytes ['s'], bytes ['a'], 1⟩],
      rfl, rfl, by decide, by decide, rfl⟩
    ⟨IterOrder.asStored, 2, _, [.apply 2 ⟨1, 1, .put, bytes ['s'], bytes ['a'], 1⟩],
      rfl, rfl, by decide, by decide, rfl⟩
    (bytes ['s'])
  revert h
  decide +kernel

end TinyKV
