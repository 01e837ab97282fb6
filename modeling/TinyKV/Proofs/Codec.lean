import TinyKV.Model.Persistence

/-!
# What is written to the log and the snapshot is read back

Escaping leaves no tab, carriage return or line feed in a field, so the
lines and fields of a written file are cut exactly where they were joined,
and unescaping restores each field. `replay_walText` and
`snapshotLoad_text` carry that to whole files: reading a written file is
applying what was recorded, in order. The only conditions are what a
`long long` and the store's own refusal of empty keys impose.
-/

namespace TinyKV

/-- The range of `long long`. -/
def InRange64 (n : Int) : Prop := -2 ^ 63 ≤ n ∧ n < 2 ^ 63

instance (n : Int) : Decidable (InRange64 n) := inferInstanceAs (Decidable (_ ∧ _))

/-! ## Escaping -/

theorem escape_cons (c : UInt8) (rest : Str) :
    (c = 92 ∧ escape (c :: rest) = 92 :: 92 :: escape rest) ∨
    (c = 9 ∧ escape (c :: rest) = 92 :: 116 :: escape rest) ∨
    (c = 10 ∧ escape (c :: rest) = 92 :: 110 :: escape rest) ∨
    (c = 13 ∧ escape (c :: rest) = 92 :: 114 :: escape rest) ∨
    (c ≠ 92 ∧ c ≠ 9 ∧ c ≠ 10 ∧ c ≠ 13 ∧ escape (c :: rest) = c :: escape rest) := by
  rw [escape.eq_def]
  split
  · next h => cases h
  · next h => injection h with h1 h2; subst h1 h2; simp
  · next h => injection h with h1 h2; subst h1 h2; simp
  · next h => injection h with h1 h2; subst h1 h2; simp
  · next h => injection h with h1 h2; subst h1 h2; simp
  · next n1 n2 n3 n4 h =>
    injection h with h1 h2
    subst h1 h2
    simp_all

theorem unescape_plain {c : UInt8} (h : c ≠ 92) (rest : Str) :
    unescape (c :: rest) = (unescape rest).map (c :: ·) := by
  rw [unescape.eq_def]
  split <;> simp_all

theorem unescape_escape (s : Str) : unescape (escape s) = some s := by
  induction s with
  | nil => rfl
  | cons c rest ih =>
    rcases escape_cons c rest with ⟨rfl, h⟩ | ⟨rfl, h⟩ | ⟨rfl, h⟩ | ⟨rfl, h⟩ |
      ⟨hc, -, -, -, h⟩
    · rw [h, unescape, ih]; rfl
    · rw [h, unescape, ih]; rfl
    · rw [h, unescape, ih]; rfl
    · rw [h, unescape, ih]; rfl
    · rw [h, unescape_plain hc, ih]; rfl

theorem escape_notMem {b : UInt8} (hb : b = 9 ∨ b = 10 ∨ b = 13) (s : Str) :
    b ∉ escape s := by
  induction s with
  | nil => simp [escape]
  | cons c rest ih =>
    rcases escape_cons c rest with ⟨rfl, h⟩ | ⟨rfl, h⟩ | ⟨rfl, h⟩ | ⟨rfl, h⟩ |
      ⟨-, h9, h10, h13, h⟩ <;> rw [h] <;> clear h <;>
      rcases hb with rfl | rfl | rfl <;> simp_all [Ne.symm]

theorem tab_notMem_escape (s : Str) : 9 ∉ escape s := escape_notMem (Or.inl rfl) s

theorem newline_notMem_escape (s : Str) : 10 ∉ escape s :=
  escape_notMem (Or.inr (Or.inl rfl)) s

theorem tab_notMem_showInt (n : Int) : 9 ∉ Text.showInt n :=
  Text.showInt_notMem (by decide) (by decide)

theorem newline_notMem_showInt (n : Int) : 10 ∉ Text.showInt n :=
  Text.showInt_notMem (by decide) (by decide)

theorem stoll_showInt {n : Int} (h : InRange64 n) : stoll (Text.showInt n) = .ok n := by
  rw [stoll, Text.readInt_showInt_end]
  exact if_pos h

/-! ## Log records -/

/-- The effect of a record on the store. -/
def applyRecord (now : Int) (s : MemoryStore) : WalRecord → MemoryStore
  | .put key value d => (s.putWithExpireAt now key value d).2
  | .expire key d => (s.expireAt now key d).2
  | .del key => (s.del key).2

/-- The deadline of a record is one a `long long` can hold. -/
def WalRecord.Dated : WalRecord → Prop
  | .put _ _ d => InRange64 d
  | .expire _ d => InRange64 d
  | .del _ => True

instance : DecidablePred WalRecord.Dated
  | .put _ _ d => inferInstanceAs (Decidable (InRange64 d))
  | .expire _ d => inferInstanceAs (Decidable (InRange64 d))
  | .del _ => isTrue trivial

/-- A record the store accepts and a `long long` can carry. -/
def WalRecord.Ok : WalRecord → Prop
  | .put key _ d => key ≠ [] ∧ InRange64 d
  | .expire _ d => InRange64 d
  | .del _ => True

instance : DecidablePred WalRecord.Ok
  | .put _ _ _ => inferInstanceAs (Decidable (_ ∧ _))
  | .expire _ d => inferInstanceAs (Decidable (InRange64 d))
  | .del _ => inferInstanceAs (Decidable True)

theorem newline_notMem_line (r : WalRecord) : 10 ∉ r.line := by
  have ht : (10 : UInt8) ∉ tagPut ∧ 10 ∉ tagExpire ∧ 10 ∉ tagDel := by decide
  cases r with
  | put key value d =>
    simp [WalRecord.line, ht.1, newline_notMem_escape, newline_notMem_showInt]
  | expire key d =>
    simp [WalRecord.line, ht.2.1, newline_notMem_escape, newline_notMem_showInt]
  | del key => simp [WalRecord.line, ht.2.2, newline_notMem_escape]

theorem putWithExpireAt_ok (s : MemoryStore) (now : Int) {key : Str} (hk : key ≠ [])
    (value : Str) (d : Int) :
    s.putWithExpireAt now key value d =
      (true, (s.putWithExpireAt now key value d).2) := by
  unfold MemoryStore.putWithExpireAt
  rw [if_neg hk]

/-- The fields of a record's line. -/
def WalRecord.fields : WalRecord → List Str
  | .put key value d => [tagPut, escape key, escape value, Text.showInt d]
  | .expire key d => [tagExpire, escape key, Text.showInt d]
  | .del key => [tagDel, escape key]

theorem splitOn_line (r : WalRecord) : Text.splitOn 9 r.line = r.fields := by
  have ht : (9 : UInt8) ∉ tagPut ∧ 9 ∉ tagExpire ∧ 9 ∉ tagDel := by decide
  cases r with
  | put key value d =>
    rw [WalRecord.line, Text.splitOn_append_sep ht.1,
      Text.splitOn_append_sep (tab_notMem_escape key),
      Text.splitOn_append_sep (tab_notMem_escape value),
      Text.splitOn_of_notMem (tab_notMem_showInt d), WalRecord.fields]
  | expire key d =>
    rw [WalRecord.line, Text.splitOn_append_sep ht.2.1,
      Text.splitOn_append_sep (tab_notMem_escape key),
      Text.splitOn_of_notMem (tab_notMem_showInt d), WalRecord.fields]
  | del key =>
    rw [WalRecord.line, Text.splitOn_append_sep ht.2.2,
      Text.splitOn_of_notMem (tab_notMem_escape key), WalRecord.fields]

/-- The log's text after these records. -/
def walText (rs : List WalRecord) : Str := rs.flatMap fun r => r.line ++ [10]

theorem walAppend_walText (rs : List WalRecord) (r : WalRecord) :
    walAppend (walText rs) r = walText (rs ++ [r]) := by
  simp [walAppend, walText]

theorem getlines_walText (rs : List WalRecord) :
    Text.getlines 10 (walText rs) = rs.map WalRecord.line :=
  Text.getlines_flatMap fun r _ => newline_notMem_line r

/-! ## Snapshots -/

theorem splitOn_snapshotLine (entry : StoreEntry) :
    Text.splitOn 9 (snapshotLine entry) =
      [escape entry.key, escape entry.value, Text.showInt entry.expireAtMs] := by
  rw [snapshotLine, Text.splitOn_append_sep (tab_notMem_escape _),
    Text.splitOn_append_sep (tab_notMem_escape _),
    Text.splitOn_of_notMem (tab_notMem_showInt _)]

theorem getlines_snapshotText (entries : List StoreEntry) :
    Text.getlines 10 (snapshotText entries) =
      snapshotMagicV2 :: entries.map snapshotLine := by
  have hm : (10 : UInt8) ∉ snapshotMagicV2 := by decide
  have hline : ∀ entry ∈ entries, (10 : UInt8) ∉ snapshotLine entry := by
    intro entry _
    simp [snapshotLine, newline_notMem_escape, newline_notMem_showInt]
  rw [snapshotText, Text.getlines_append_sep hm, Text.getlines_flatMap hline]

/-! ## The readers -/

namespace KVStore

variable {σ : Type} (K : KVStore σ)

theorem replayLine_line (s : σ) {r : WalRecord} (h : r.Dated) :
    K.replayLine s r.line = K.apply s r := by
  rw [replayLine, splitOn_line]
  cases r with
  | put key value d =>
    have hd := stoll_showInt h
    simp only [WalRecord.fields, if_true, unescape_escape, hd]
    rfl
  | expire key d =>
    have hne : tagExpire ≠ tagPut := by decide
    have hd := stoll_showInt h
    simp only [WalRecord.fields, hne, if_false, if_true, unescape_escape, hd]
    rfl
  | del key =>
    simp only [WalRecord.fields, if_true, unescape_escape]
    rfl

theorem loadLine_snapshotLine (s : σ) {entry : StoreEntry} (h : InRange64 entry.expireAtMs) :
    K.loadLine true s (snapshotLine entry) = K.store s entry := by
  unfold loadLine
  rw [splitOn_snapshotLine]
  simp only [unescape_escape, stoll_showInt h]
  rfl

/-- A loop over written lines does what a loop over what was written does. -/
theorem foldlM_written {α : Type} {read : σ → Str → Except LoadError σ}
    {act : σ → α → Except LoadError σ} {write : α → Str} {items : List α}
    (h : ∀ s, ∀ a ∈ items, read s (write a) = act s a) (s : σ) :
    (items.map write).foldlM read s = items.foldlM act s := by
  induction items generalizing s with
  | nil => rfl
  | cons a items ih =>
    rw [List.map_cons, List.foldlM_cons, List.foldlM_cons, h s a List.mem_cons_self]
    refine bind_congr fun s' => ih (fun s b hb => h s b (List.mem_cons_of_mem _ hb)) s'

theorem replay_walText (s : σ) {rs : List WalRecord} (h : ∀ r ∈ rs, r.Dated) :
    K.replay s (walText rs) = rs.foldlM K.apply s := by
  rw [replay, getlines_walText]
  exact foldlM_written (fun s r hr => K.replayLine_line s (h r hr)) s

theorem load_snapshotText (s : σ) {entries : List StoreEntry}
    (h : ∀ entry ∈ entries, InRange64 entry.expireAtMs) :
    K.load s (some (snapshotText entries)) = entries.foldlM K.store s := by
  have hne : snapshotMagicV2 ≠ snapshotMagicV1 := by decide
  rw [load, getlines_snapshotText]
  simp only [hne, if_false, if_true]
  exact foldlM_written (fun s entry he => K.loadLine_snapshotLine s (h entry he)) s

end KVStore

/-! ## Reading into memory -/

theorem store_memory (now : Int) (s : MemoryStore) (entry : StoreEntry) (hk : entry.key ≠ []) :
    (MemoryStore.kvStore now).store s entry =
      .ok (s.putWithExpireAt now entry.key entry.value entry.expireAtMs).2 := by
  have hput : (MemoryStore.kvStore now).putWithExpireAt s entry.key entry.value entry.expireAtMs =
      (true, _) := putWithExpireAt_ok s now hk entry.value entry.expireAtMs
  rw [KVStore.store, hput]

theorem apply_memory (now : Int) (s : MemoryStore) {r : WalRecord} (h : r.Ok) :
    (MemoryStore.kvStore now).apply s r = .ok (applyRecord now s r) := by
  cases r with
  | put key value d => exact store_memory now s ⟨key, value, d⟩ h.1
  | expire key d => rfl
  | del key => rfl

theorem WalRecord.Ok.dated {r : WalRecord} (h : r.Ok) : r.Dated := by
  cases r with
  | put key value d => exact h.2
  | expire key d => exact h
  | del key => trivial

theorem replay_walText (now : Int) (s : MemoryStore) {rs : List WalRecord}
    (h : ∀ r ∈ rs, r.Ok) : replay now s (walText rs) = .ok (rs.foldl (applyRecord now) s) := by
  rw [replay, KVStore.replay_walText _ s fun r hr => (h r hr).dated]
  induction rs generalizing s with
  | nil => rfl
  | cons r rs ih =>
    rw [List.foldlM_cons, apply_memory now s (h r List.mem_cons_self)]
    exact ih _ fun r' hr => h r' (List.mem_cons_of_mem _ hr)

/-- A written snapshot loads as a `put_with_expire_at` of each entry. -/
theorem snapshotLoad_text (now : Int) (s : MemoryStore) {entries : List StoreEntry}
    (h : ∀ entry ∈ entries, entry.key ≠ [] ∧ InRange64 entry.expireAtMs) :
    snapshotLoad now s (some (snapshotText entries)) =
      .ok (entries.foldl
        (fun s entry => (s.putWithExpireAt now entry.key entry.value entry.expireAtMs).2) s) := by
  rw [snapshotLoad, KVStore.load_snapshotText _ s fun entry he => (h entry he).2]
  induction entries generalizing s with
  | nil => rfl
  | cons entry rest ih =>
    rw [List.foldlM_cons, store_memory now s entry (h entry List.mem_cons_self).1]
    exact ih _ fun e he => h e (List.mem_cons_of_mem _ he)

end TinyKV
