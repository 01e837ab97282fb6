import TinyKV.Proofs.InstallSnapshot
import TinyKV.Proofs.Replay

/-!
# Applying a stretch of the log twice

A snapshot carries the store at `last_applied` under the older
`last_included_index`, and a crash before `raft.state` is written replays
entries. Either way a node applies entries whose effect its store already
has.

At a fixed instant an entry does to the store what one record of the
write-ahead log does (`RaftLogEntry.recordAt`), and its deadline, if it has
one, lies ahead. Seen from one key the entries are then a sequence of
records none of which has expired, and `folded_idem` is what is wanted.
-/

namespace TinyKV

open Recency

section Entry

variable {now : Int} {s : Store} {l : List StoreEntry} {entry : RaftLogEntry} {r : WalRecord}

/-- A deadline counted from now has not passed. -/
theorem recordAt_unexpired (h : entry.recordAt now = some r) : r.Unexpired now := by
  unfold RaftLogEntry.recordAt at h
  split at h
  · split at h
    · cases h
    · cases h
      intro hd
      split at hd <;> omega
  · cases h
    trivial
  · split at h
    · cases h
      intro hd
      omega
    · cases h
  · cases h

/-- A write that may have been followed by a purge, seen from the keys. -/
theorem Leaves.shows (h : Leaves 0 now s l) (hd : Distinct l) :
    ∃ l', Reads 0 s l' ∧ ∀ key, Recency.visible now l' key = Recency.visible now l key := by
  rcases h with h | h
  · exact ⟨l, h, fun key => rfl⟩
  · exact ⟨purge now l, h, fun key => visible_purge hd (Int.le_refl now) key⟩

/-- What a key shows after a record that has not expired. -/
theorem effect_shows (hr : r.Unexpired now) (key : Str) :
    live now (r.effect now key (find key l)) = r.set key (Recency.visible now l key) := by
  have hlive : live now (Recency.visible now l key) = Recency.visible now l key :=
    live_live (Int.le_refl now) _
  rw [← set_live hr hlive]
  cases r with
  | put k value d =>
    rw [WalRecord.effect, live_live (Int.le_refl now), WalRecord.set]
    split
    · rfl
    · exact hlive.symm
  | expire k d =>
    rw [WalRecord.effect, WalRecord.set]
    split
    · rfl
    · exact hlive.symm
  | del k =>
    rw [WalRecord.effect, WalRecord.set]
    split
    · rfl
    · exact hlive.symm

/-- Applying an entry: every key shows what the record makes of it. -/
theorem applyRaftEntryLocked_shows (h : Reads 0 s l) (now : Int) (entry : RaftLogEntry) :
    ∃ l', Reads 0 (applyRaftEntryLocked now s entry).2 l' ∧
      ∀ key, Recency.visible now l' key =
        folded key (entry.recordAt now).toList (Recency.visible now l key) := by
  have hd := h.distinct
  have same : ∀ t : Store, t.mem = s.mem → ∃ l', Reads 0 t l' ∧
      ∀ key, Recency.visible now l' key = Recency.visible now l key := fun t ht =>
    ⟨l, ⟨ht ▸ h.wf, ht ▸ h.maxKeys, ht ▸ h.view⟩, fun key => rfl⟩
  have written : ∀ {t : Store} {l₁ : List StoreEntry} {r : WalRecord},
      entry.recordAt now = some r → Leaves 0 now t l₁ → Distinct l₁ →
      (∀ key, find key l₁ = r.effect now key (find key l)) →
      ∃ l', Reads 0 t l' ∧ ∀ key, Recency.visible now l' key =
        folded key (entry.recordAt now).toList (Recency.visible now l key) := by
    intro t l₁ r hr hleaves hd₁ hfind
    obtain ⟨l', hreads, hshow⟩ := hleaves.shows hd₁
    refine ⟨l', hreads, fun key => ?_⟩
    rw [hshow key, Recency.visible, hfind key, effect_shows (recordAt_unexpired hr), hr]
    rfl
  unfold applyRaftEntryLocked
  cases htype : entry.type with
  | put =>
    by_cases hk : entry.key = []
    · have hnone : entry.recordAt now = none := by
        rw [RaftLogEntry.recordAt, htype]
        exact if_pos hk
      simp only [hnone, Option.toList_none, folded_nil]
      split
      · exact same _ (by rw [hk]; exact putTtl_nil now s _ _)
      · exact same _ (by rw [hk]; exact put_nil now s _)
    · have hsome : entry.recordAt now = some (.put entry.key entry.value
          (if 0 < entry.ttlSeconds then now + entry.ttlSeconds * 1000 else 0)) := by
        rw [RaftLogEntry.recordAt, htype]
        exact if_neg hk
      simp only
      split
      · next ht =>
        rw [if_pos ht] at hsome
        exact written hsome (putTtl_leaves h now hk _ ht) (hd.put 0 now _)
          fun key => find_put_unbounded hd now key _
      · next ht =>
        rw [if_neg ht] at hsome
        exact written hsome (put_leaves h now hk _) (hd.put 0 now _)
          fun key => find_put_unbounded hd now key _
  | del =>
    have hsome : entry.recordAt now = some (.del entry.key) := by
      rw [RaftLogEntry.recordAt, htype]
    exact written hsome (del_leaves h now _) (hd.remove _)
      fun key => find_remove _ key now l
  | expire =>
    by_cases ht : 0 < entry.ttlSeconds
    · have hsome : entry.recordAt now =
          some (.expire entry.key (now + entry.ttlSeconds * 1000)) := by
        rw [RaftLogEntry.recordAt, htype]
        exact if_pos ht
      exact written hsome (expire_leaves h now _ ht) (hd.expireAt now _ _)
        fun key => find_expireAt now _ _ key l
    · have hnone : entry.recordAt now = none := by
        rw [RaftLogEntry.recordAt, htype]
        exact if_neg ht
      simp only [hnone, Option.toList_none, folded_nil]
      exact same _ (by rw [expire_le_zero (by omega)])
  | _ =>
    have hnone : entry.recordAt now = none := by rw [RaftLogEntry.recordAt, htype]
    simp only [hnone, Option.toList_none, folded_nil]
    exact same _ rfl

end Entry

/-- The writes a list of entries makes at `now`, in order. -/
def recordsAt (now : Int) (es : List RaftLogEntry) : List WalRecord :=
  es.flatMap fun entry => (entry.recordAt now).toList

theorem applyEntries_shows {s : Store} {l : List StoreEntry} (h : Reads 0 s l) (now : Int)
    (es : List RaftLogEntry) :
    ∃ l', Reads 0 (applyEntries now s es) l' ∧
      ∀ key, Recency.visible now l' key =
        folded key (recordsAt now es) (Recency.visible now l key) := by
  induction es generalizing s l with
  | nil => exact ⟨l, h, fun key => rfl⟩
  | cons entry es ih =>
    obtain ⟨l₁, h₁, hshow₁⟩ := applyRaftEntryLocked_shows h now entry
    obtain ⟨l₂, h₂, hshow₂⟩ := ih h₁
    refine ⟨l₂, h₂, fun key => ?_⟩
    have happ : recordsAt now (entry :: es) =
        (entry.recordAt now).toList ++ recordsAt now es := List.flatMap_cons
    rw [hshow₂ key, hshow₁ key, happ]
    exact List.foldl_append.symm

/-- Entries applied again at the same instant change nothing a client can
see. -/
theorem applyEntries_idem {s : Store} (hwf : s.mem.WF) (hmax : s.mem.maxKeys = 0) (now : Int)
    (es : List RaftLogEntry) (key : Str) :
    (applyEntries now (applyEntries now s es) es).mem.visible now key =
      (applyEntries now s es).mem.visible now key := by
  obtain ⟨l₁, h₁, hshow₁⟩ := applyEntries_shows ⟨hwf, hmax, rfl⟩ now es
  obtain ⟨l₂, h₂, hshow₂⟩ := applyEntries_shows h₁ now es
  rw [h₂.visible, h₁.visible, hshow₂ key, hshow₁ key]
  exact folded_idem key _ _

/-- A put, an expiry that moves its deadline, a delete, and an expiry that
finds nothing. -/
def mixedEntries : List RaftLogEntry :=
  [⟨1, 1, .put, bytes ['k'], bytes ['v'], 3⟩, ⟨2, 1, .expire, bytes ['k'], [], 7⟩,
    ⟨3, 1, .del, bytes ['j'], [], 0⟩, ⟨4, 1, .expire, bytes ['j'], [], 2⟩]

theorem applyEntries_idem_mixed :
    (applyEntries 5 (applyEntries 5 (.memory {}) mixedEntries) mixedEntries).mem.visible 5
        (bytes ['k']) =
      (applyEntries 5 (.memory {}) mixedEntries).mem.visible 5 (bytes ['k']) :=
  applyEntries_idem (s := .memory {}) (MemoryStore.wf_empty 0) rfl 5 mixedEntries _

end TinyKV
