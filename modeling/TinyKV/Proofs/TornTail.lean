import TinyKV.Proofs.Recovery

/-!
# A log that ends in the middle of a record

A crash during an append leaves a beginning of the record's line. `replay`
reads it as a line like any other. Most cuts do not parse, and the whole
recovery fails. Those that do parse are not the record that was being
written: a value cut short before its deadline is taken for the old format
without one, a deadline or a key to delete that is cut short is taken for
what is left of it. `TornOp` lists them, and the main theorem says that
recovery succeeds with the contents of the complete records exactly when
nothing is left of the last line or when what is left does nothing.
-/

namespace TinyKV

open Recency

/-! ## Where the cut falls -/

/-- The records of which the text is complete in the first bytes `p` of the
log, with or without the line feed behind the last one. -/
def completeRecords : List WalRecord → Str → List WalRecord
  | [], _ => []
  | r :: rs, p =>
    if r.line.length ≤ p.length then
      r :: completeRecords rs (p.drop (r.line.length + 1))
    else []

/-- What is left of the next one. -/
def tornLine : List WalRecord → Str → Str
  | [], p => p
  | r :: rs, p =>
    if r.line.length ≤ p.length then tornLine rs (p.drop (r.line.length + 1)) else p

/-- What `replay` takes for a record when it meets a beginning of the line of
another. -/
inductive TornOp : WalRecord → Str → WalRecord → Prop
  | value {key value value' : Str} {d : Int} : value' <+: value →
      TornOp (.put key value d) (tagPut ++ 9 :: (escape key ++ 9 :: escape value'))
        (.put key value' 0)
  | deadline {key value p : Str} {d d' : Int} : p <+: Text.showInt d → stoll p = .ok d' →
      TornOp (.put key value d) (tagPut ++ 9 :: (escape key ++ 9 :: (escape value ++ 9 :: p)))
        (.put key value d')
  | expiry {key p : Str} {d d' : Int} : p <+: Text.showInt d → stoll p = .ok d' →
      TornOp (.expire key d) (tagExpire ++ 9 :: (escape key ++ 9 :: p)) (.expire key d')
  | del {key key' : Str} : key' <+: key →
      TornOp (.del key) (tagDel ++ 9 :: escape key') (.del key')

/-- A beginning of an escaped text that can be unescaped is an escaped
beginning. -/
theorem unescape_beginning {p s s' : Str} (hp : p <+: escape s) (h : unescape p = some s') :
    p = escape s' ∧ s' <+: s := by
  induction s generalizing p s' with
  | nil =>
    obtain rfl := List.prefix_nil.mp hp
    cases h
    exact ⟨rfl, List.nil_prefix⟩
  | cons c s ih =>
    -- a byte that is escaped to two: the cut may fall between them
    have hpair : ∀ x, (∀ t, escape (c :: t) = 92 :: x :: escape t) →
        (∀ q, unescape (92 :: x :: q) = (unescape q).map (c :: ·)) →
        p = escape s' ∧ s' <+: c :: s := by
      intro x he hu
      rw [he] at hp
      match p with
      | [] =>
        cases h
        exact ⟨rfl, List.nil_prefix⟩
      | [b] =>
        obtain ⟨rfl, -⟩ := List.cons_prefix_cons.mp hp
        cases h
      | b :: b' :: q =>
        obtain ⟨rfl, hq⟩ := List.cons_prefix_cons.mp hp
        obtain ⟨rfl, hrest⟩ := List.cons_prefix_cons.mp hq
        rw [hu, Option.map_eq_some_iff] at h
        obtain ⟨t, ht, rfl⟩ := h
        obtain ⟨rfl, hpre⟩ := ih hrest ht
        exact ⟨(he t).symm, List.cons_prefix_cons.mpr ⟨rfl, hpre⟩⟩
    rcases escape_cons c s with ⟨rfl, -⟩ | ⟨rfl, -⟩ | ⟨rfl, -⟩ | ⟨rfl, -⟩ | ⟨hc, h9, h10, h13, he⟩
    · exact hpair 92 (fun t => by rw [escape]) fun q => by rw [unescape]
    · exact hpair 116 (fun t => by rw [escape]) fun q => by rw [unescape]
    · exact hpair 110 (fun t => by rw [escape]) fun q => by rw [unescape]
    · exact hpair 114 (fun t => by rw [escape]) fun q => by rw [unescape]
    · cases p with
      | nil =>
        cases h
        exact ⟨rfl, List.nil_prefix⟩
      | cons b q =>
        rw [he] at hp
        obtain ⟨rfl, hq⟩ := List.cons_prefix_cons.mp hp
        rw [unescape_plain hc, Option.map_eq_some_iff] at h
        obtain ⟨t, ht, rfl⟩ := h
        obtain ⟨rfl, hpre⟩ := ih hq ht
        refine ⟨?_, List.cons_prefix_cons.mpr ⟨rfl, hpre⟩⟩
        rcases escape_cons b t with ⟨hb, -⟩ | ⟨hb, -⟩ | ⟨hb, -⟩ | ⟨hb, -⟩ | ⟨-, -, -, -, ht⟩
        · exact absurd hb hc
        · exact absurd hb h9
        · exact absurd hb h10
        · exact absurd hb h13
        · exact ht.symm

/-! ## What the cut parses as -/

theorem notMem_beginning {c : UInt8} {t text : Str} (h : t <+: text) (hc : c ∉ text) : c ∉ t :=
  fun hm => hc (h.subset hm)

section Fields

variable (now : Int) (s : MemoryStore)

theorem replayLine_one {t : Str} (h : 9 ∉ t) : replayLine now s t = .error .malformed := by
  rw [replayLine, KVStore.replayLine, Text.splitOn_of_notMem h]

theorem replayLine_two {tag t : Str} (h : 9 ∉ tag) (ht : 9 ∉ t) (hne : tag ≠ tagDel) :
    replayLine now s (tag ++ 9 :: t) = .error .malformed := by
  rw [replayLine, KVStore.replayLine, Text.splitOn_append_sep h, Text.splitOn_of_notMem ht]
  simp only [hne, if_false]

theorem replayLine_del {t : Str} (ht : 9 ∉ t) :
    replayLine now s (tagDel ++ 9 :: t) =
      match unescape t with
      | some key => .ok (applyRecord now s (.del key))
      | none => .error .malformed := by
  have htag : (9 : UInt8) ∉ tagDel := by decide
  rw [replayLine, KVStore.replayLine, Text.splitOn_append_sep htag, Text.splitOn_of_notMem ht]
  simp only [if_true]
  rfl

theorem replayLine_value {key t : Str} (hk : key ≠ []) (ht : 9 ∉ t) :
    replayLine now s (tagPut ++ 9 :: (escape key ++ 9 :: t)) =
      match unescape t with
      | some value => .ok (applyRecord now s (.put key value 0))
      | none => .error .malformed := by
  have htag : (9 : UInt8) ∉ tagPut := by decide
  rw [replayLine, KVStore.replayLine, Text.splitOn_append_sep htag,
    Text.splitOn_append_sep (tab_notMem_escape key), Text.splitOn_of_notMem ht]
  simp only [if_true, unescape_escape]
  cases unescape t with
  | none => rfl
  | some value => exact store_memory now s ⟨key, value, 0⟩ hk

theorem replayLine_deadline {key value t : Str} (hk : key ≠ []) (ht : 9 ∉ t) :
    replayLine now s (tagPut ++ 9 :: (escape key ++ 9 :: (escape value ++ 9 :: t))) =
      (stoll t).map fun d => applyRecord now s (.put key value d) := by
  have htag : (9 : UInt8) ∉ tagPut := by decide
  rw [replayLine, KVStore.replayLine, Text.splitOn_append_sep htag,
    Text.splitOn_append_sep (tab_notMem_escape key),
    Text.splitOn_append_sep (tab_notMem_escape value), Text.splitOn_of_notMem ht]
  simp only [if_true, unescape_escape]
  cases stoll t with
  | error e => rfl
  | ok d => exact store_memory now s ⟨key, value, d⟩ hk

theorem replayLine_expiry {key t : Str} (ht : 9 ∉ t) :
    replayLine now s (tagExpire ++ 9 :: (escape key ++ 9 :: t)) =
      (stoll t).map fun d => applyRecord now s (.expire key d) := by
  have htag : (9 : UInt8) ∉ tagExpire ∧ tagExpire ≠ tagPut := by decide
  rw [replayLine, KVStore.replayLine, Text.splitOn_append_sep htag.1,
    Text.splitOn_append_sep (tab_notMem_escape key), Text.splitOn_of_notMem ht]
  simp only [htag.2, if_false, if_true, unescape_escape]
  cases stoll t with
  | error e => rfl
  | ok d => rfl

end Fields

section Torn

variable {r op : WalRecord} {t : Str} {now : Int} {s m : MemoryStore}

theorem TornOp.replays (h : TornOp r t op) (hr : r.Ok) (now : Int) (s : MemoryStore) :
    replayLine now s t = .ok (applyRecord now s op) := by
  cases h with
  | value hv =>
    rw [replayLine_value now s hr.1 (tab_notMem_escape _), unescape_escape]
  | deadline hp hd =>
    rw [replayLine_deadline now s hr.1 (notMem_beginning hp (tab_notMem_showInt _)), hd]
    rfl
  | expiry hp hd =>
    rw [replayLine_expiry now s (notMem_beginning hp (tab_notMem_showInt _)), hd]
    rfl
  | del hk =>
    rw [replayLine_del now s (tab_notMem_escape _), unescape_escape]

/-- A beginning of a record's line that parses is one of `TornOp`. -/
theorem tornOp_of_replays (ht : t <+: r.line) (hr : r.Ok) (h : replayLine now s t = .ok m) :
    ∃ op, TornOp r t op := by
  have htag : (9 : UInt8) ∉ tagPut ∧ 9 ∉ tagExpire ∧ 9 ∉ tagDel := by decide
  cases r with
  | put key value d =>
    rcases Text.isPrefix_append_sep ht with ht | ⟨u, rfl, hu⟩
    · rw [replayLine_one now s (notMem_beginning ht htag.1)] at h
      cases h
    rcases Text.isPrefix_append_sep hu with hu | ⟨v, rfl, hv⟩
    · rw [replayLine_two now s htag.1 (notMem_beginning hu (tab_notMem_escape _))
        (by decide)] at h
      cases h
    rcases Text.isPrefix_append_sep hv with hv | ⟨w, rfl, hw⟩
    · rw [replayLine_value now s hr.1 (notMem_beginning hv (tab_notMem_escape _))] at h
      cases hun : unescape v with
      | none => rw [hun] at h; cases h
      | some value' =>
        obtain ⟨rfl, hpre⟩ := unescape_beginning hv hun
        exact ⟨_, .value hpre⟩
    · rw [replayLine_deadline now s hr.1 (notMem_beginning hw (tab_notMem_showInt _))] at h
      cases hd : stoll w with
      | error e => rw [hd] at h; cases h
      | ok d' => exact ⟨_, .deadline hw hd⟩
  | expire key d =>
    rcases Text.isPrefix_append_sep ht with ht | ⟨u, rfl, hu⟩
    · rw [replayLine_one now s (notMem_beginning ht htag.2.1)] at h
      cases h
    rcases Text.isPrefix_append_sep hu with hu | ⟨v, rfl, hv⟩
    · rw [replayLine_two now s htag.2.1 (notMem_beginning hu (tab_notMem_escape _))
        (by decide)] at h
      cases h
    · rw [replayLine_expiry now s (notMem_beginning hv (tab_notMem_showInt _))] at h
      cases hd : stoll v with
      | error e => rw [hd] at h; cases h
      | ok d' => exact ⟨_, .expiry hv hd⟩
  | del key =>
    rcases Text.isPrefix_append_sep ht with ht | ⟨u, rfl, hu⟩
    · rw [replayLine_one now s (notMem_beginning ht htag.2.2)] at h
      cases h
    · rw [replayLine_del now s (notMem_beginning hu (tab_notMem_escape _))] at h
      cases hun : unescape u with
      | none => rw [hun] at h; cases h
      | some key' =>
        obtain ⟨rfl, hpre⟩ := unescape_beginning hu hun
        exact ⟨_, .del hpre⟩

end Torn

/-! ## The whole log -/

theorem line_ne_nil (r : WalRecord) : r.line ≠ [] := by
  have htag : tagPut ≠ [] ∧ tagExpire ≠ [] ∧ tagDel ≠ [] := by decide
  cases r with
  | put key value d => exact List.append_ne_nil_of_left_ne_nil htag.1 _
  | expire key d => exact List.append_ne_nil_of_left_ne_nil htag.2.1 _
  | del key => exact List.append_ne_nil_of_left_ne_nil htag.2.2 _

/-- The log up to the cut: complete records, and a beginning of the next. -/
theorem walText_cut {rs : List WalRecord} {p : Str} (hp : p <+: walText rs) :
    ∃ rest, rs = completeRecords rs p ++ rest ∧
      (tornLine rs p = [] ∨ ∃ r rest', rest = r :: rest' ∧ tornLine rs p <+: r.line) ∧
      Text.getlines 10 p = (completeRecords rs p).map WalRecord.line ++
        Text.getlines 10 (tornLine rs p) := by
  induction rs generalizing p with
  | nil =>
    obtain rfl := List.prefix_nil.mp hp
    exact ⟨[], rfl, Or.inl rfl, rfl⟩
  | cons r rs ih =>
    have htext : walText (r :: rs) = r.line ++ 10 :: walText rs := by simp [walText]
    rw [htext] at hp
    rw [completeRecords, tornLine]
    split
    · next hlen =>
      -- the line is there, with or without its line feed
      obtain ⟨u, hu, hdrop, hlines⟩ : ∃ u, u <+: walText rs ∧
          p.drop (r.line.length + 1) = u ∧
          Text.getlines 10 p = r.line :: Text.getlines 10 u := by
        rcases Text.isPrefix_append_sep hp with hpre | ⟨u, rfl, hu⟩
        · obtain rfl := hpre.eq_of_length_le hlen
          refine ⟨[], List.nil_prefix, by simp, ?_⟩
          rw [Text.getlines_of_notMem (newline_notMem_line r) (line_ne_nil r)]
          rfl
        · refine ⟨u, hu, ?_, Text.getlines_append_sep (newline_notMem_line r) u⟩
          simp
      obtain ⟨rest, hrs, htorn, hget⟩ := ih hu
      rw [hdrop, hlines, hget]
      exact ⟨rest, by rw [List.cons_append, ← hrs], htorn, rfl⟩
    · next hlen =>
      refine ⟨r :: rs, rfl, Or.inr ⟨r, rs, rfl, ?_⟩, rfl⟩
      rcases Text.isPrefix_append_sep hp with hpre | ⟨u, rfl, -⟩
      · exact hpre
      · simp at hlen

/-- Applying the record changes nothing a client can see. -/
def NoEffect (now : Int) (s : MemoryStore) (op : WalRecord) : Prop :=
  ∀ key, (applyRecord now s op).visible now key = s.visible now key

theorem noEffect_of_held {now : Int} {s : MemoryStore} (h : Unbounded s) {op : WalRecord}
    (hop : op.Ok) :
    NoEffect now s op ↔
      ∀ key, live now (op.effect now key (held s key)) = live now (held s key) := by
  obtain ⟨hu, hh⟩ := applyRecord_held h now hop
  refine forall_congr' fun key => ?_
  rw [MemoryStore.visible_eq hu.wf, MemoryStore.visible_eq h.wf]
  show live now (held _ key) = live now (held s key) ↔ _
  rw [hh key]

/-- On a store without a bound: the key is there as it is to be put, it has
the deadline it is to get, it is not there to be deleted. -/
theorem noEffect_iff {now : Int} {s : MemoryStore} (h : Unbounded s) {op : WalRecord}
    (hop : op.Ok) :
    NoEffect now s op ↔
      match op with
      | .put key value d => s.visible now key = live now (some ⟨key, value, d⟩)
      | .expire key d => ∀ e, s.visible now key = some e → e.expireAtMs = d
      | .del key => s.visible now key = none := by
  have hvis : ∀ key, s.visible now key = live now (held s key) := MemoryStore.visible_eq h.wf now
  rw [noEffect_of_held h hop]
  cases op with
  | put key value d =>
    simp only [hvis]
    constructor
    · intro hall
      have hk := hall key
      rw [WalRecord.effect, if_pos rfl, live_live (Int.le_refl _)] at hk
      exact hk.symm
    · intro hk other
      rw [WalRecord.effect, live_live (Int.le_refl _)]
      split
      · next he => rw [← he, hk]
      · rfl
  | expire key d =>
    simp only [hvis]
    constructor
    · intro hall e he
      have hk := hall key
      rw [WalRecord.effect, if_pos rfl, he, Option.map_some] at hk
      have hmoved := (live_eq_some.mp hk).1
      injection hmoved with hmoved
      rw [← hmoved]
    · intro hk other
      rw [WalRecord.effect]
      split
      · next ho =>
        subst ho
        cases he : live now (held s key) with
        | none => rfl
        | some e =>
          obtain rfl := hk e he
          exact live_eq_some.mpr ⟨rfl, (live_eq_some.mp he).2⟩
      · rfl
  | del key =>
    simp only [hvis]
    constructor
    · intro hall
      have hk := hall key
      rw [WalRecord.effect, if_pos rfl] at hk
      exact hk.symm
    · intro hk other
      rw [WalRecord.effect]
      split
      · next ho => rw [← ho, hk]; rfl
      · rfl

/-- `replay` succeeds and shows what the complete records make of the store. -/
def RecoversComplete (now : Int) (s : MemoryStore) (rs : List WalRecord) (p : Str) : Prop :=
  ∃ m, replay now s p = .ok m ∧ ∀ key, m.visible now key =
    ((completeRecords rs p).foldl (applyRecord now) s).visible now key

/-- A log cut after any byte recovers its complete records exactly when
nothing is left of the next line, or when what is left parses as a record
that does nothing. -/
theorem recoversComplete_iff (now : Int) (s : MemoryStore) (rs : List WalRecord) (p : Str)
    (hrs : ∀ r ∈ rs, r.Ok) (hp : p <+: walText rs) :
    RecoversComplete now s rs p ↔ tornLine rs p = [] ∨
      ∃ r op, rs[(completeRecords rs p).length]? = some r ∧ TornOp r (tornLine rs p) op ∧
        NoEffect now ((completeRecords rs p).foldl (applyRecord now) s) op := by
  obtain ⟨rest, hsplit, htorn, hlines⟩ := walText_cut hp
  have hdone : ∀ r ∈ completeRecords rs p, r.Ok := fun r hr =>
    hrs r (by rw [hsplit]; exact List.mem_append_left _ hr)
  have hreplay : replay now s p =
      (Text.getlines 10 (tornLine rs p)).foldlM (replayLine now)
        ((completeRecords rs p).foldl (applyRecord now) s) := by
    have hcomplete := replay_walText now s hdone
    rw [replay, KVStore.replay, getlines_walText] at hcomplete
    rw [replay, KVStore.replay, hlines, List.foldlM_append, hcomplete]
    rfl
  by_cases h0 : tornLine rs p = []
  · refine ⟨fun _ => Or.inl h0, fun _ => ⟨_, ?_, fun key => rfl⟩⟩
    rw [hreplay, h0]
    rfl
  · obtain ⟨r, rest', hrest, hpre⟩ := htorn.resolve_left h0
    have hget : rs[(completeRecords rs p).length]? = some r := by
      have h := congrArg (fun l : List WalRecord => l[(completeRecords rs p).length]?) hsplit
      simpa [hrest] using h
    have hr : r.Ok := hrs r (List.mem_of_getElem? hget)
    have hline : replay now s p = replayLine now
        ((completeRecords rs p).foldl (applyRecord now) s) (tornLine rs p) := by
      rw [hreplay, Text.getlines_of_notMem (notMem_beginning hpre (newline_notMem_line r)) h0]
      simp
    constructor
    · rintro ⟨m, hm, hsame⟩
      rw [hline] at hm
      obtain ⟨op, hop⟩ := tornOp_of_replays hpre hr hm
      rw [hop.replays hr] at hm
      injection hm with hm
      subst hm
      exact Or.inr ⟨r, op, hget, hop, hsame⟩
    · rintro (h | ⟨r', op, hr', hop, hno⟩)
      · exact absurd h h0
      · rw [hget] at hr'
        injection hr' with hr'
        subst hr'
        exact ⟨_, hline.trans (hop.replays hr now _), hno⟩

section Example

/-- `PUT k v 500`. -/
def leaseRecord : List WalRecord := [.put (bytes ['k']) (bytes ['v']) 500]

/-- The first seven bytes of its line. -/
def cutBeforeDeadline : Str := (walText leaseRecord).take 7

theorem recoversComplete_iff_lease :
    RecoversComplete 0 {} leaseRecord cutBeforeDeadline ↔
      tornLine leaseRecord cutBeforeDeadline = [] ∨
      ∃ r op, leaseRecord[(completeRecords leaseRecord cutBeforeDeadline).length]? = some r ∧
        TornOp r (tornLine leaseRecord cutBeforeDeadline) op ∧
        NoEffect 0 ((completeRecords leaseRecord cutBeforeDeadline).foldl (applyRecord 0) {}) op :=
  recoversComplete_iff 0 {} leaseRecord cutBeforeDeadline (by decide) ⟨_, List.take_append_drop 7 _⟩

/-- Replayed, these bytes store the key without a deadline, although no
record is complete. -/
theorem cut_put_applied :
    ¬ ∀ (now : Int) (s : MemoryStore) (rs : List WalRecord) (p : Str), (∀ r ∈ rs, r.Ok) →
      p <+: walText rs → RecoversComplete now s rs p := by
  intro h
  obtain ⟨m, hm, hsame⟩ := h 0 {} leaseRecord cutBeforeDeadline (by decide)
    ⟨_, List.take_append_drop 7 _⟩
  have hstored : (replay 0 {} cutBeforeDeadline).toOption.bind
      (fun m => m.visible 0 (bytes ['k'])) = some ⟨bytes ['k'], bytes ['v'], 0⟩ := by
    decide +kernel
  have hnone : ((completeRecords leaseRecord cutBeforeDeadline).foldl (applyRecord 0)
      {}).visible 0 (bytes ['k']) = none := by
    decide +kernel
  rw [hm] at hstored
  have hk : m.visible 0 (bytes ['k']) = some ⟨bytes ['k'], bytes ['v'], 0⟩ := hstored
  rw [hsame, hnone] at hk
  cases hk

end Example

end TinyKV
