import TinyKV.Proofs.Codec

/-!
# The records of both files come back as they were written

Whatever store the readers fill, a text of records is a sequence of calls on
it: `replay` of the log makes the call of each record, `load` of the snapshot
one `put_with_expire_at` for each entry, in the order in which they were
written, until the store refuses one. A store that refuses nothing and keeps
the calls therefore ends up with the list that was written.
-/

namespace TinyKV.KVStore

/-- The appends one after the other, from an empty file. -/
theorem foldl_walAppend (rs : List WalRecord) : rs.foldl walAppend [] = walText rs := by
  have happ : ∀ before, rs.foldl walAppend (walText before) = walText (before ++ rs) := by
    induction rs with
    | nil => intro before; simp
    | cons r rs ih =>
      intro before
      rw [List.foldl_cons, walAppend_walText, ih]
      simp
  exact happ []

theorem recording_applies (calls rs : List WalRecord) :
    rs.foldlM recording.apply calls = .ok (calls ++ rs) := by
  induction rs generalizing calls with
  | nil => simp [pure, Except.pure]
  | cons r rs ih =>
    have hr : recording.apply calls r = .ok (calls ++ [r]) := by cases r <;> rfl
    rw [List.foldlM_cons, hr]
    refine (ih (calls ++ [r])).trans ?_
    simp

/-- The record with which an entry would be logged. -/
def logged (entry : StoreEntry) : WalRecord := .put entry.key entry.value entry.expireAtMs

theorem recording_stores (calls : List WalRecord) (entries : List StoreEntry) :
    entries.foldlM recording.store calls = .ok (calls ++ entries.map logged) := by
  rw [← recording_applies, List.foldlM_map]
  rfl

/-- Escaping is undone by unescaping and leaves no byte that separates fields
or lines. The log written by any records is replayed as the calls of those
records, and the snapshot of any entries is loaded as those entries, in order;
a store that keeps the calls ends up with the list itself. -/
theorem files_read_back :
    (∀ text : Str, unescape (escape text) = some text ∧
      9 ∉ escape text ∧ 10 ∉ escape text ∧ 13 ∉ escape text) ∧
    (∀ rs : List WalRecord, (∀ r ∈ rs, r.Dated) →
      recording.replay [] (rs.foldl walAppend []) = .ok rs ∧
      ∀ {σ : Type} (K : KVStore σ) (s : σ),
        K.replay s (rs.foldl walAppend []) = rs.foldlM K.apply s) ∧
    (∀ entries : List StoreEntry, (∀ entry ∈ entries, InRange64 entry.expireAtMs) →
      recording.load [] (some (snapshotText entries)) = .ok (entries.map logged) ∧
      ∀ {σ : Type} (K : KVStore σ) (s : σ),
        K.load s (some (snapshotText entries)) = entries.foldlM K.store s) := by
  refine ⟨fun text => ⟨unescape_escape text, escape_notMem (.inl rfl) text,
    escape_notMem (.inr (.inl rfl)) text, escape_notMem (.inr (.inr rfl)) text⟩, ?_, ?_⟩
  · intro rs hrs
    rw [foldl_walAppend]
    refine ⟨?_, fun K s => K.replay_walText s hrs⟩
    rw [recording.replay_walText [] hrs, recording_applies]
    rfl
  · intro entries hentries
    refine ⟨?_, fun K s => K.load_snapshotText s hentries⟩
    rw [recording.load_snapshotText [] hentries, recording_stores]
    rfl

/-- With a tab in a key, a line end in a value and both ends of the range. -/
theorem files_read_back_at :
    recording.replay [] ([WalRecord.put [107, 9] [118, 10] (2 ^ 63 - 1), .expire [] (-2 ^ 63),
        .del [92]].foldl walAppend []) =
      .ok [.put [107, 9] [118, 10] (2 ^ 63 - 1), .expire [] (-2 ^ 63), .del [92]] ∧
    recording.load [] (some (snapshotText [⟨[107, 9], [118, 10], -1⟩, ⟨[107, 9], [], 0⟩])) =
      .ok [.put [107, 9] [118, 10] (-1), .put [107, 9] [] 0] :=
  ⟨(files_read_back.2.1 _ (by decide)).1, (files_read_back.2.2 _ (by decide)).1⟩

end TinyKV.KVStore
