import TinyKV.Model.Node

/-!
# A contiguous log

Almost every index computation of the server is right because the log is
contiguous: the entry at offset `j` has the index `last_included_index + 1 + j`.
This file says what the log functions compute on a contiguous log, and that
they keep it contiguous. What the batch loop leaves is given in closed form,
`splice`: the entries of the batch that the log already has, by term, are
skipped, and from the first one it does not have the batch replaces the rest
of the log.
-/

namespace TinyKV

/-- The entry of a request in the single-entry form. -/
def AppendRequest.single (request : AppendRequest) (type : CommandType) : RaftLogEntry :=
  ⟨request.logIndex, request.logTerm, type, request.key, request.value, request.ttlSeconds⟩

/-- The entry at offset `j` has the index `base + 1 + j`. -/
def Contiguous (base : Int) (log : List RaftLogEntry) : Prop :=
  ∀ (j : Nat) (entry : RaftLogEntry), log[j]? = some entry → entry.index = base + 1 + j

theorem contiguous_nil (base : Int) : Contiguous base [] := by
  intro j entry h
  simp at h

variable {base : Int} {entry x e : RaftLogEntry} {log : List RaftLogEntry} {pos : Nat}
  {P : KVServer → Prop} {s : KVServer}

theorem contiguous_cons :
    Contiguous base (entry :: log) ↔ entry.index = base + 1 ∧ Contiguous (base + 1) log := by
  constructor
  · intro h
    refine ⟨by simpa using h 0 entry rfl, fun j e he => ?_⟩
    have := h (j + 1) e he
    omega
  · rintro ⟨h0, h⟩ j e he
    cases j with
    | zero =>
      injection he with he
      subst he
      omega
    | succ j =>
      have := h j e he
      omega

instance decidableContiguous : (base : Int) → (log : List RaftLogEntry) →
    Decidable (Contiguous base log)
  | base, [] => isTrue (contiguous_nil base)
  | base, _ :: log =>
    have := decidableContiguous (base + 1) log
    decidable_of_iff _ contiguous_cons.symm

theorem Contiguous.take (h : Contiguous base log) (n : Nat) : Contiguous base (log.take n) := by
  intro j entry he
  rw [List.getElem?_take] at he
  split at he
  · exact h j entry he
  · cases he

theorem Contiguous.append {more : List RaftLogEntry} (h : Contiguous base log)
    (hm : Contiguous (base + log.length) more) : Contiguous base (log ++ more) := by
  intro j entry he
  rw [List.getElem?_append] at he
  split at he
  · exact h j entry he
  · have := hm _ entry he
    omega

/-- Dropping the entries up to an index leaves the log contiguous from there. -/
theorem Contiguous.filter (h : Contiguous base log) {k : Int} (hk : base ≤ k) :
    log.filter (fun entry => !decide (entry.index ≤ k)) = log.drop (k - base).toNat ∧
      Contiguous k (log.drop (k - base).toNat) := by
  induction log generalizing base with
  | nil => simp [contiguous_nil]
  | cons entry log ih =>
    obtain ⟨h0, h⟩ := contiguous_cons.mp h
    by_cases hle : entry.index ≤ k
    · obtain ⟨h1, h2⟩ := ih h (by omega)
      obtain ⟨n, hn⟩ : ∃ n : Nat, (k - base).toNat = n + 1 :=
        ⟨(k - base).toNat - 1, by omega⟩
      have hn' : (k - (base + 1)).toNat = n := by omega
      rw [List.filter_cons_of_neg (by simpa using hle), h1, hn, hn', List.drop_succ_cons]
      rw [hn'] at h2
      exact ⟨rfl, h2⟩
    · have hk' : k = base := by omega
      subst hk'
      have hall : (entry :: log).filter (fun e => !decide (e.index ≤ k)) = entry :: log := by
        refine List.filter_eq_self.mpr fun e he => ?_
        obtain ⟨j, hj⟩ := List.getElem?_of_mem he
        have := contiguous_cons.mpr ⟨h0, h⟩ j e hj
        have hgt : ¬ e.index ≤ k := by omega
        simpa using hgt
      rw [hall, Int.sub_self]
      exact ⟨rfl, contiguous_cons.mpr ⟨h0, h⟩⟩

/-! ## Splicing a batch into a log -/

/-- How many leading entries of a batch the log already has, by term. -/
def matchLen : List RaftLogEntry → List RaftLogEntry → Nat
  | x :: log, e :: es => if x.term = e.term then matchLen log es + 1 else 0
  | _, _ => 0

/-- The log after a batch that starts at offset `at`. -/
def splice (log : List RaftLogEntry) (pos : Nat) (es : List RaftLogEntry) :
    List RaftLogEntry :=
  if matchLen (log.drop pos) es = es.length then log
  else log.take (pos + matchLen (log.drop pos) es) ++ es.drop (matchLen (log.drop pos) es)

theorem matchLen_nil_left (es : List RaftLogEntry) : matchLen [] es = 0 := by
  cases es <;> rfl

theorem matchLen_nil_right (log : List RaftLogEntry) : matchLen log [] = 0 := by
  cases log <;> rfl

theorem splice_nil (log : List RaftLogEntry) (pos : Nat) : splice log pos [] = log := by
  rw [splice, matchLen_nil_right]
  rfl

/-- At the end of the log the whole batch is appended. -/
theorem splice_end (log : List RaftLogEntry) (es : List RaftLogEntry) :
    splice log log.length es = log ++ es := by
  rw [splice, List.drop_length, matchLen_nil_left]
  cases es with
  | nil => simp
  | cons e es => simp

theorem splice_match (hx : log[pos]? = some x) (ht : x.term = e.term) (es : List RaftLogEntry) :
    splice log pos (e :: es) = splice log (pos + 1) es := by
  have hd : log.drop pos = x :: log.drop (pos + 1) := by
    obtain ⟨h, rfl⟩ := List.getElem?_eq_some_iff.mp hx
    rw [List.drop_eq_getElem_cons h]
  rw [splice, splice, hd, matchLen, if_pos ht, List.length_cons, List.drop_succ_cons]
  have hpos : pos + (matchLen (log.drop (pos + 1)) es + 1) =
      pos + 1 + matchLen (log.drop (pos + 1)) es := by omega
  rw [hpos]
  simp only [Nat.add_right_cancel_iff]

theorem splice_conflict (hx : log[pos]? = some x) (ht : x.term ≠ e.term) (es : List RaftLogEntry) :
    splice log pos (e :: es) = log.take pos ++ e :: es := by
  have hd : log.drop pos = x :: log.drop (pos + 1) := by
    obtain ⟨h, rfl⟩ := List.getElem?_eq_some_iff.mp hx
    rw [List.drop_eq_getElem_cons h]
  rw [splice, hd, matchLen, if_neg ht, if_neg (by simp)]
  rfl

theorem matchLen_le (log es : List RaftLogEntry) :
    matchLen log es ≤ log.length ∧ matchLen log es ≤ es.length := by
  induction log generalizing es with
  | nil => simp [matchLen_nil_left]
  | cons x log ih =>
    cases es with
    | nil => simp [matchLen]
    | cons e es =>
      obtain ⟨h1, h2⟩ := ih es
      rw [matchLen]
      split
      · simp only [List.length_cons]
        omega
      · omega

/-- Below `matchLen` the terms agree. -/
theorem matchLen_lt {es : List RaftLogEntry} {i : Nat} (h : i < matchLen log es)
    (he : es[i]? = some e) : ∃ x, log[i]? = some x ∧ x.term = e.term := by
  induction log generalizing es i with
  | nil => simp [matchLen_nil_left] at h
  | cons x log ih =>
    cases es with
    | nil => simp [matchLen] at h
    | cons d es =>
      rw [matchLen] at h
      split at h
      · next ht =>
        cases i with
        | zero =>
          injection he with he
          exact ⟨x, rfl, he ▸ ht⟩
        | succ i => exact ih (by omega) he
      · omega

/-- At `matchLen` they differ, if both lists go on. -/
theorem matchLen_at {es : List RaftLogEntry} (hx : log[matchLen log es]? = some x)
    (he : es[matchLen log es]? = some e) : x.term ≠ e.term := by
  induction log generalizing es with
  | nil => simp at hx
  | cons y log ih =>
    cases es with
    | nil => simp at he
    | cons d es =>
      rw [matchLen] at hx he
      split at hx
      · next ht =>
        rw [if_pos ht] at he
        exact ih hx he
      · next ht =>
        rw [if_neg ht] at he
        injection hx with hx
        injection he with he
        exact hx ▸ he ▸ ht

/-- A batch is in the log already, or replaces it from the first entry the
log does not have. -/
theorem splice_cases (hpos : pos ≤ log.length) (es : List RaftLogEntry) :
    ∃ m ≤ es.length, pos + m ≤ log.length ∧
      (∀ i < m, ∀ e, es[i]? = some e → ∃ x, log[pos + i]? = some x ∧ x.term = e.term) ∧
      (m = es.length ∧ splice log pos es = log ∨
        m < es.length ∧ splice log pos es = log.take (pos + m) ++ es.drop m ∧
          ∀ x e, log[pos + m]? = some x → es[m]? = some e → x.term ≠ e.term) := by
  obtain ⟨h1, h2⟩ := matchLen_le (log.drop pos) es
  rw [List.length_drop] at h1
  refine ⟨matchLen (log.drop pos) es, h2, by omega, ?_, ?_⟩
  · intro i hi e he
    obtain ⟨x, hx, ht⟩ := matchLen_lt hi he
    rw [List.getElem?_drop] at hx
    exact ⟨x, hx, ht⟩
  · by_cases hm : matchLen (log.drop pos) es = es.length
    · exact Or.inl ⟨hm, by rw [splice, if_pos hm]⟩
    · refine Or.inr ⟨by omega, by rw [splice, if_neg hm], fun x e hx he => ?_⟩
      exact matchLen_at (by rw [List.getElem?_drop]; exact hx) he

/-- The router without its copy of the last entry of the log. -/
def Router.core (r : Router) : Router := r.updateLogInfo 0 0

theorem Router.fields_of_core {r r' : Router} (h : r'.core = r.core) :
    r'.localId = r.localId ∧ r'.allNodes = r.allNodes ∧ r'.role = r.role ∧
      r'.currentTerm = r.currentTerm ∧ r'.votedFor = r.votedFor ∧ r'.leaderId = r.leaderId ∧
      r'.raftMetaFile = r.raftMetaFile := by
  simp only [core, updateLogInfo, Router.mk.injEq] at h
  obtain ⟨hid, -, hall, hrole, hterm, hvote, hleader, -, -, hfile⟩ := h
  exact ⟨hid, hall, hrole, hterm, hvote, hleader, hfile⟩

namespace KVServer

/-- The server's log is contiguous. -/
def LogContiguous (s : KVServer) : Prop := Contiguous s.raftLastIncludedIndex s.raftLog

theorem lastLogIndex_eq (h : s.LogContiguous) :
    s.raftLastLogIndex = s.raftLastIncludedIndex + s.raftLog.length := by
  unfold raftLastLogIndex
  cases hl : s.raftLog.getLast? with
  | none =>
    rw [List.getLast?_eq_none_iff.mp hl]
    simp
  | some entry =>
    rw [List.getLast?_eq_getElem?] at hl
    have hlt : s.raftLog.length - 1 < s.raftLog.length := by
      obtain ⟨hlt, -⟩ := List.getElem?_eq_some_iff.mp hl
      exact hlt
    have := h _ entry hl
    show entry.index = _
    omega

theorem logOffset_eq_some {index : Int} {offset : Nat} :
    s.raftLogOffset index = some offset ↔
      index = s.raftLastIncludedIndex + 1 + offset ∧ offset < s.raftLog.length := by
  unfold raftLogOffset
  simp only []
  split
  · next h =>
    refine ⟨fun hf => (by cases hf), fun hf => ?_⟩
    omega
  · next h =>
    rw [Option.some.injEq]
    omega

theorem logOffset_eq_none {index : Int} :
    s.raftLogOffset index = none ↔
      index ≤ s.raftLastIncludedIndex ∨
        s.raftLastIncludedIndex + s.raftLog.length < index := by
  unfold raftLogOffset
  simp only []
  split
  · next h =>
    refine ⟨fun _ => ?_, fun _ => rfl⟩
    omega
  · next h =>
    refine ⟨fun hf => (by cases hf), fun hf => ?_⟩
    omega

/-! The term at an index: past the snapshot it is the entry's. -/

theorem termAt_log {j : Nat} {entry : RaftLogEntry} (h0 : 0 ≤ s.raftLastIncludedIndex)
    (he : s.raftLog[j]? = some entry) :
    s.raftTermAt (s.raftLastIncludedIndex + 1 + j) = entry.term := by
  obtain ⟨hj, -⟩ := List.getElem?_eq_some_iff.mp he
  have ho : s.raftLogOffset (s.raftLastIncludedIndex + 1 + j) = some j :=
    logOffset_eq_some.mpr ⟨rfl, hj⟩
  unfold raftTermAt
  rw [if_neg (by omega), if_neg (by omega), ho]
  simp only [he]

theorem termAt_base (h0 : 0 < s.raftLastIncludedIndex) :
    s.raftTermAt s.raftLastIncludedIndex = s.raftLastIncludedTerm := by
  unfold raftTermAt
  rw [if_neg (by omega), if_pos rfl]

theorem termAt_beyond {index : Int} (h0 : 0 ≤ s.raftLastIncludedIndex)
    (h : s.raftLastIncludedIndex + s.raftLog.length < index) : s.raftTermAt index = -1 := by
  have ho : s.raftLogOffset index = none := logOffset_eq_none.mpr (Or.inr h)
  unfold raftTermAt
  rw [if_neg (by omega), if_neg (by omega), ho]

theorem eraseFrom_log (s : KVServer) (j : Nat) :
    (s.eraseFrom (s.raftLastIncludedIndex + 1 + j)) = { s with raftLog := s.raftLog.take j } := by
  unfold eraseFrom
  cases ho : s.raftLogOffset (s.raftLastIncludedIndex + 1 + j) with
  | none =>
    have hlen : s.raftLog.length ≤ j := by
      have := logOffset_eq_none.mp ho
      omega
    simp only [List.take_of_length_le hlen]
  | some offset =>
    have := logOffset_eq_some.mp ho
    have hj : offset = j := by omega
    rw [hj]

/-! ## What an append does

Both forms erase from a conflicting entry on, and then put their entry at the
end if it is the next one. What holds behind the first step and is kept by the
second holds of the whole. -/

theorem appendOne_elim
    (herase : s.raftTermAt entry.index ≠ -1 ∧ s.raftTermAt entry.index ≠ entry.term →
      P (s.eraseFrom entry.index)) (hkeep : P s)
    (hpush : ∀ t, P t → entry.index = t.raftLastLogIndex + 1 → P (t.pushBack entry)) :
    P (s.appendOne entry) := by
  have key : ∀ t, P t →
      P (if entry.index = t.raftLastLogIndex + 1 then t.pushBack entry else t) := by
    intro t ht
    split
    · next hi => exact hpush t ht hi
    · exact ht
  unfold appendOne
  simp only []
  split
  · next hne => exact key _ (herase hne)
  · exact key s hkeep

theorem appendSingle_elim {Q : KVServer → Prop} {request : AppendRequest}
    (herase : s.raftTermAt request.logIndex ≠ -1 ∧ s.raftTermAt request.logIndex ≠ request.logTerm →
      P (persistRaft (s.eraseFrom request.logIndex))) (hkeep : P s) (hstay : ∀ t, P t →
      opType request.raftOp = none ∨ request.logIndex ≠ t.raftLastLogIndex + 1 → Q t)
    (hpush : ∀ t type, P t → opType request.raftOp = some type →
      request.logIndex = t.raftLastLogIndex + 1 →
        Q (updateLogInfo (persistRaftLog (t.pushBack (request.single type))))) :
    Q (s.appendSingle request) := by
  unfold appendSingle
  cases hop : opType request.raftOp with
  | none =>
    simp only [ite_self]
    split
    · next hne => exact hstay _ (herase hne) (.inl hop)
    · exact hstay s hkeep (.inl hop)
  | some type =>
    have key : ∀ t, P t → Q (if request.logIndex = t.raftLastLogIndex + 1 then
        updateLogInfo (persistRaftLog (t.pushBack (request.single type))) else t) := by
      intro t ht
      split
      · next hi => exact hpush t type ht hop hi
      · next hi => exact hstay t ht (.inr hi)
    simp only []
    split
    · next hne => exact key _ (herase hne)
    · exact key s hkeep

/-- The previous entry of the request is the server's. -/
structure PrevMatches (s : KVServer) (request : AppendRequest) : Prop where
  base : s.raftLastIncludedIndex ≤ request.prevLogIndex
  last : request.prevLogIndex ≤ s.raftLastLogIndex
  term : 0 < request.prevLogIndex → s.raftTermAt request.prevLogIndex = request.prevLogTerm

/-- A batch as long as it says goes behind an entry of the server. -/
structure BringsBatch (s : KVServer) (request : AppendRequest) : Prop
    extends PrevMatches s request where
  batch : 0 < request.entryCount
  count : (request.entries.length : Int) = request.entryCount

/-- One entry goes behind an entry of the server. -/
structure BringsEntry (s : KVServer) (request : AppendRequest) : Prop
    extends PrevMatches s request where
  single : request.entryCount ≤ 0
  index : 0 < request.logIndex

/-- The locked section leaves the log alone, takes it back to before an entry the
leader does not have, or appends and then commits; a batch that breaks off has
appended and does not commit. -/
theorem appendLocked_elim {now : Int} {request : AppendRequest} (hsame : P s)
    (hreject : s.raftLastIncludedIndex ≤ request.prevLogIndex → 0 < request.prevLogIndex →
      s.raftTermAt request.prevLogIndex ≠ request.prevLogTerm →
        P (s.rejectPrev request.prevLogIndex)) (hbroken : s.BringsBatch request →
      P (s.appendLoop (request.prevLogIndex + 1) request.entries).1)
    (hbatch : s.BringsBatch request →
      (s.appendLoop (request.prevLogIndex + 1) request.entries).2 = true → P (advanceCommit now
        (s.appendLoop (request.prevLogIndex + 1) request.entries).1.persistRaftLog.updateLogInfo
        request.leaderCommit)) (hsingle : s.BringsEntry request →
      P (advanceCommit now (s.appendSingle request) request.leaderCommit))
    (hcommit : s.PrevMatches request → request.entryCount ≤ 0 → request.logIndex ≤ 0 →
      P (advanceCommit now s request.leaderCommit)) : P (s.appendLocked now request).1 := by
  unfold appendLocked
  split
  · exact hsame
  · next hbase =>
    split
    · exact hsame
    · next hlast =>
      split
      · next hprev => exact hreject (Int.not_lt.mp hbase) hprev.1 hprev.2
      · next hprev =>
        have hmatch : s.PrevMatches request :=
          ⟨Int.not_lt.mp hbase, Int.not_lt.mp hlast,
            fun hpos => not_not.mp fun hne => hprev ⟨hpos, hne⟩⟩
        split
        · next hpos =>
          split
          · exact hsame
          · next hcount =>
            have hbroken := hbroken ⟨hmatch, hpos, not_not.mp hcount⟩
            have hbatch := hbatch ⟨hmatch, hpos, not_not.mp hcount⟩
            split
            · next heq =>
              rw [heq] at hbroken
              exact hbroken
            · next heq =>
              rw [heq] at hbatch
              exact hbatch rfl
        · next hcount =>
          split
          · next hindex =>
            split
            · exact hsame
            · exact hsingle ⟨hmatch, Int.not_lt.mp hcount, hindex⟩
          · next hindex =>
            exact hcommit hmatch (Int.not_lt.mp hcount) (Int.not_lt.mp hindex)

/-! ## What applying and the requests do -/

section Requests

variable {now : Int}

/-- What holds where the loop starts and is kept by each entry it applies. -/
theorem applyLoop_elim (hs : P s)
    (hstep : ∀ (t : KVServer) (offset : Nat) (entry : RaftLogEntry), P t →
      t.raftLastApplied < t.raftCommitIndex →
      t.raftLogOffset (t.raftLastApplied + 1) = some offset → t.raftLog[offset]? = some entry →
        P (t.applyNext now entry)) (fuel : Nat) : P (applyLoop now fuel s) := by
  induction fuel generalizing s with
  | zero => exact hs
  | succ fuel ih =>
    rw [applyLoop]
    split
    · next hlt =>
      split
      · exact hs
      · next offset hoff =>
        split
        · exact hs
        · next entry he => exact ih (hstep s offset entry hs hlt hoff he)
    · exact hs

/-- The loop stops at the commit index or at the end of the log. -/
theorem applyLoop_applied (now : Int) (h : s.LogContiguous)
    (hb : s.raftLastIncludedIndex ≤ s.raftLastApplied)
    {fuel : Nat} (hfuel : (s.raftCommitIndex - s.raftLastApplied).toNat ≤ fuel) :
    (applyLoop now fuel s).raftLastApplied =
      max s.raftLastApplied (min s.raftCommitIndex s.raftLastLogIndex) := by
  have hlast := lastLogIndex_eq h
  induction fuel generalizing s with
  | zero =>
    rw [applyLoop]
    omega
  | succ fuel ih =>
    rw [applyLoop]
    split
    · next hlt =>
      split
      · next hnone =>
        have := logOffset_eq_none.mp hnone
        omega
      · next offset hoff =>
        obtain ⟨hindex, hlen⟩ := logOffset_eq_some.mp hoff
        split
        · next hget =>
          rw [List.getElem?_eq_getElem hlen] at hget
          cases hget
        · next entry hget =>
          have hnext : entry.index = s.raftLastApplied + 1 := by
            rw [h offset entry hget]
            exact hindex.symm
          have hrest := ih (s := s.applyNext now entry) h
            (by show s.raftLastIncludedIndex ≤ entry.index; omega)
            (by show (s.raftCommitIndex - entry.index).toNat ≤ fuel; omega) hlast
          rw [hrest]
          show max entry.index (min s.raftCommitIndex s.raftLastLogIndex) = _
          omega
    · omega

theorem applyLoop_frame (now : Int) (fuel : Nat) (s : KVServer) :
    ∃ (store : Store) (applied : List (Int × RaftLogEntry)) (last : Int), applyLoop now fuel s =
      { s with store := store, applied := applied, raftLastApplied := last } := by
  refine applyLoop_elim (P := fun t => ∃ (store : Store) (applied : List (Int × RaftLogEntry))
    (last : Int), t = { s with store := store, applied := applied, raftLastApplied := last })
    ⟨s.store, s.applied, s.raftLastApplied, rfl⟩ ?_ fuel
  rintro t _ entry ⟨store, applied, last, rfl⟩ _ _ _
  exact ⟨_, _, _, rfl⟩

/-- Moving the base of the log up to an index, as compaction and the
installation of a snapshot do. -/
def rebase (s : KVServer) (index term : Int) : KVServer :=
  updateLogInfo (persistRaft
    { s with
      raftLog := s.raftLog.filter fun entry => !decide (entry.index ≤ index)
      raftLastIncludedIndex := index
      raftLastIncludedTerm := term })

/-- Compaction does nothing or moves the base up to what has been applied. -/
theorem compactRaftLog_eq (s : KVServer) : s.compactRaftLogIfNeeded =
    if s.raftLastIncludedIndex < s.raftLastApplied ∧
        s.raftSnapshotThreshold ≤ s.raftLastApplied - s.raftLastIncludedIndex ∧
        0 ≤ s.raftTermAt s.raftLastApplied then
      s.rebase s.raftLastApplied (s.raftTermAt s.raftLastApplied)
    else s := by
  unfold compactRaftLogIfNeeded
  simp only []
  split
  · rw [if_neg (by omega)]
  · split
    · rw [if_neg (by omega)]
    · split
      · rw [if_neg (by omega)]
      · rw [if_pos (by omega)]
        rfl

/-- Applying starts no further back than the base. -/
theorem applyCommitted_loop (now : Int) (s : KVServer) : s.applyCommittedRaftEntries now =
    (applyLoop now (s.raftCommitIndex - max s.raftLastApplied s.raftLastIncludedIndex).toNat
      { s with raftLastApplied := max s.raftLastApplied s.raftLastIncludedIndex
      }).compactRaftLogIfNeeded.persistRaftState := by
  unfold applyCommittedRaftEntries
  simp only []
  split
  · next hlt => rw [Int.max_eq_right (Int.le_of_lt hlt)]
  · next hge => rw [Int.max_eq_left (Int.not_lt.mp hge)]

/-- Where `last_applied` is once everything committed is applied. -/
def reach (s : KVServer) : Int :=
  max (max s.raftLastApplied s.raftLastIncludedIndex) (min s.raftCommitIndex s.raftLastLogIndex)

/-- What the apply loop keeps holds when the log is then left alone or cut off. -/
theorem applyCommitted_elim {Q : KVServer → Prop}
    (hstart : P { s with raftLastApplied := max s.raftLastApplied s.raftLastIncludedIndex })
    (hnext : ∀ (t : KVServer) (offset : Nat) (entry : RaftLogEntry), P t →
      t.raftLastApplied < t.raftCommitIndex →
      t.raftLogOffset (t.raftLastApplied + 1) = some offset → t.raftLog[offset]? = some entry →
        P (t.applyNext now entry))
    (hend : ∀ t, P t → (s.LogContiguous → t.raftLastApplied = s.reach) → Q t.persistRaftState)
    (hmove : ∀ t, P t → (s.LogContiguous → t.raftLastApplied = s.reach) →
      t.raftLastIncludedIndex < t.raftLastApplied → 0 ≤ t.raftTermAt t.raftLastApplied →
      Q (persistRaftState (t.rebase t.raftLastApplied (t.raftTermAt t.raftLastApplied)))) :
    Q (s.applyCommittedRaftEntries now) := by
  have hreach := fun h => applyLoop_applied now
    (s := { s with raftLastApplied := max s.raftLastApplied s.raftLastIncludedIndex }) h
    (Int.le_max_right _ _) (Nat.le_refl _)
  have hloop := applyLoop_elim hstart hnext
    (s.raftCommitIndex - max s.raftLastApplied s.raftLastIncludedIndex).toNat
  rw [applyCommitted_loop, compactRaftLog_eq]
  split
  · next hk => exact hmove _ hloop hreach hk.1 hk.2.2
  · exact hend _ hloop hreach

/-- Applying moves `last_applied`, and then leaves the log alone or moves the base. -/
theorem applyCommitted_cases (now : Int) (s : KVServer) : ∃ (store : Store)
    (applied : List (Int × RaftLogEntry)) (last : Int),
    s.applyCommittedRaftEntries now =
        persistRaftState { s with store := store, applied := applied, raftLastApplied := last } ∨
      s.raftLastIncludedIndex < last ∧ ∃ term, s.applyCommittedRaftEntries now =
        persistRaftState (rebase
          { s with store := store, applied := applied, raftLastApplied := last } last term) := by
  rw [applyCommitted_loop]
  obtain ⟨store, applied, last, hu⟩ := applyLoop_frame now
    (s.raftCommitIndex - max s.raftLastApplied s.raftLastIncludedIndex).toNat
    { s with raftLastApplied := max s.raftLastApplied s.raftLastIncludedIndex }
  rw [hu, compactRaftLog_eq]
  refine ⟨store, applied, last, ?_⟩
  split
  · next hk => exact .inr ⟨hk.1, _, rfl⟩
  · exact .inl rfl

theorem handleAppend_elim {request : AppendRequest}
    (hstay : P (s.checkTerm request.term request.nodeId).1)
    (hlocked : (s.checkTerm request.term request.nodeId).2 = true →
      P (appendLocked now (s.checkTerm request.term request.nodeId).1 request).1) :
    P (s.handleRaftAppendEntries now request).1 := by
  unfold handleRaftAppendEntries
  split
  · next heq =>
    rw [heq] at hstay
    exact hstay
  · next heq =>
    rw [heq] at hlocked
    exact hlocked rfl

/-- A snapshot can leave the contents of the store behind without moving the base. -/
theorem handleInstall_elim {request : InstallRequest}
    (hstore : ∀ store, P { (s.checkTerm request.term request.nodeId).1 with store := store })
    (hset : ∀ store, s.raftLastIncludedIndex < request.lastLogIndex →
      P (installSet { (s.checkTerm request.term request.nodeId).1 with store := store } request)) :
    P (s.handleInstallSnapshot now request).1 := by
  unfold handleInstallSnapshot
  rcases hc : s.checkTerm request.term request.nodeId with ⟨t, ok⟩
  have hbase : t.raftLastIncludedIndex = s.raftLastIncludedIndex :=
    congrArg (fun p => p.1.raftLastIncludedIndex) hc.symm
  rw [hc] at hstore hset
  cases ok with
  | false => exact hstore t.store
  | true =>
    simp only []
    split
    · exact hstore t.store
    · next hnew =>
      have hlt : s.raftLastIncludedIndex < request.lastLogIndex := by
        simpa [installCovered, hbase] using hnew
      obtain ⟨store, hu⟩ : ∃ store,
          (t.installPayload now request.payload).1 = { t with store := store } := by
        unfold installPayload
        split
        · exact ⟨t.store, rfl⟩
        · exact ⟨_, rfl⟩
      generalize t.installPayload now request.payload = installed at hu
      obtain ⟨u, ok⟩ := installed
      obtain rfl : u = { t with store := store } := hu
      cases ok with
      | false => exact hstore store
      | true => exact hset store hlt

/-- Encoding snapshots for the followers only looks at the store. -/
theorem snapshots_store (times : List Int) (term : Int) (u : KVServer) : ∃ store,
    times.foldl (fun s t => (s.encodeRaftSnapshot t term).1) u = { u with store := store } := by
  induction times generalizing u with
  | nil => exact ⟨u.store, rfl⟩
  | cons t times ih => exact ih (u.encodeRaftSnapshot t term).1

theorem replicateRaftWrite_elim {request : WriteRequest} {followers : Replication}
    (hstore : ∀ store, P { (s.appendWrite request).1 with store := store })
    (hcommit : ∀ store, s.raftCommitIndex < s.raftLastLogIndex + 1 →
      P (applyCommittedRaftEntries now { (s.appendWrite request).1 with
        store := store, raftCommitIndex := s.raftLastLogIndex + 1 })) :
    P (s.replicateRaftWrite now request followers).1 := by
  obtain ⟨store, hu⟩ := snapshots_store followers.snapshots (s.appendWrite request).2.entry.term
    (s.appendWrite request).1
  unfold replicateRaftWrite
  simp only [hu]
  split
  · exact hstore store
  · unfold commitWrite
    split
    · next hlt => exact hcommit store hlt
    · exact hstore store

theorem handleWrite_elim {request : WriteRequest} {followers : Replication} (hs : P s)
    (hstore : ∀ store, P { (s.appendWrite request).1 with store := store })
    (hcommit : ∀ store, s.raftCommitIndex < s.raftLastLogIndex + 1 →
      P (applyCommittedRaftEntries now { (s.appendWrite request).1 with
        store := store, raftCommitIndex := s.raftLastLogIndex + 1 })) :
    P (s.handleWrite now request followers) := by
  unfold handleWrite
  split
  · exact replicateRaftWrite_elim hstore hcommit
  · exact hs

theorem restart_eq_some {t : KVServer} (h : s.restart now = some t) : ∃ store u,
    s.store.restart now = .ok store ∧
      loadRaftState { s with store := store, router := s.router.restart } = some u ∧
      t = u.updateLogInfo.applyCommittedRaftEntries now := by
  unfold restart at h
  split at h
  · cases h
  · next store hstore =>
    split at h
    · cases h
    · next u hu =>
      injection h with h
      exact ⟨store, u, hstore, hu, h.symm⟩

end Requests

/-! ## What the log functions leave alone

Anything about a server that does not depend on its log stays as it is when
entries are erased or appended. -/

section Same

variable {α : Type} {f : KVServer → α}
  (hf : ∀ (t : KVServer) log, f { t with raftLog := log } = f t)
include hf

theorem eraseFrom_same (s : KVServer) (index : Int) : f (s.eraseFrom index) = f s := by
  unfold eraseFrom
  split
  · rfl
  · exact hf s _

theorem appendOne_same (s : KVServer) (entry : RaftLogEntry) : f (s.appendOne entry) = f s := by
  refine appendOne_elim (P := fun t => f t = f s) (fun _ => eraseFrom_same hf s _) rfl ?_
  intro t ht _
  exact (hf t _).trans ht

theorem appendLoop_same (s : KVServer) (expected : Int) (entries : List RaftLogEntry) :
    f (s.appendLoop expected entries).1 = f s := by
  induction entries generalizing s expected with
  | nil => rfl
  | cons entry rest ih =>
    rw [appendLoop]
    split
    · rfl
    · split
      · rfl
      · exact (ih _ _).trans (appendOne_same hf s entry)

theorem appendSingle_same (hcut : ∀ t : KVServer, f t.persistRaft = f t)
    (hpush : ∀ t : KVServer, f t.persistRaftLog.updateLogInfo = f t) (s : KVServer)
    (request : AppendRequest) : f (s.appendSingle request) = f s := by
  refine appendSingle_elim (P := fun t => f t = f s)
    (fun _ => (hcut _).trans (eraseFrom_same hf s _)) rfl (fun t ht _ => ht) ?_
  intro t type ht _ _
  exact (hpush _).trans ((hf t _).trans ht)

end Same

/-! ## What keeps the log contiguous -/

theorem contiguous_eraseFrom (h : s.LogContiguous) (index : Int) :
    (s.eraseFrom index).LogContiguous := by
  unfold eraseFrom
  split
  · exact h
  · exact h.take _

theorem eraseFrom_base (s : KVServer) (index : Int) :
    (s.eraseFrom index).raftLastIncludedIndex = s.raftLastIncludedIndex :=
  eraseFrom_same (f := raftLastIncludedIndex) (fun _ _ => rfl) s index

theorem contiguous_pushBack (h : s.LogContiguous) (hi : entry.index = s.raftLastLogIndex + 1) :
    (s.pushBack entry).LogContiguous := by
  refine h.append (contiguous_cons.mpr ⟨?_, contiguous_nil _⟩)
  rw [hi, lastLogIndex_eq h]

theorem eraseFrom_subset (index : Int) : (s.eraseFrom index).raftLog ⊆ s.raftLog := by
  unfold eraseFrom
  split
  · exact fun _ h => h
  · exact List.take_subset _ _

theorem appendOne_mem (h : e ∈ (s.appendOne entry).raftLog) : e ∈ s.raftLog ∨ e = entry := by
  revert h
  refine appendOne_elim (P := fun t => e ∈ t.raftLog → e ∈ s.raftLog ∨ e = entry)
    (fun _ he => Or.inl (eraseFrom_subset _ he)) Or.inl ?_
  intro t ht _ he
  rcases List.mem_append.mp he with he | he
  · exact ht he
  · exact Or.inr (List.mem_singleton.mp he)

theorem appendLoop_mem {expected : Int} {entries : List RaftLogEntry}
    (h : e ∈ (s.appendLoop expected entries).1.raftLog) : e ∈ s.raftLog ∨ e ∈ entries := by
  induction entries generalizing s expected with
  | nil => exact Or.inl h
  | cons entry rest ih =>
    rw [appendLoop] at h
    split at h
    · exact Or.inl h
    · split at h
      · exact Or.inl h
      · rcases ih h with h | h
        · rcases appendOne_mem h with h | rfl
          · exact Or.inl h
          · exact Or.inr List.mem_cons_self
        · exact Or.inr (List.mem_cons_of_mem _ h)

theorem contiguous_appendOne (h : s.LogContiguous) (entry : RaftLogEntry) :
    (s.appendOne entry).LogContiguous ∧
      (s.appendOne entry).raftLastIncludedIndex = s.raftLastIncludedIndex := by
  refine appendOne_elim (P := fun t => t.LogContiguous ∧
    t.raftLastIncludedIndex = s.raftLastIncludedIndex)
    (fun _ => ⟨contiguous_eraseFrom h _, eraseFrom_base s _⟩) ⟨h, rfl⟩ ?_
  intro t ht hi
  exact ⟨contiguous_pushBack ht.1 hi, ht.2⟩

theorem contiguous_appendLoop (h : s.LogContiguous) (expected : Int)
    (entries : List RaftLogEntry) :
    (s.appendLoop expected entries).1.LogContiguous ∧
      (s.appendLoop expected entries).1.raftLastIncludedIndex = s.raftLastIncludedIndex := by
  induction entries generalizing s expected with
  | nil => exact ⟨h, rfl⟩
  | cons entry rest ih =>
    rw [appendLoop]
    split
    · exact ⟨h, rfl⟩
    · split
      · exact ⟨h, rfl⟩
      · obtain ⟨h1, h2⟩ := contiguous_appendOne h entry
        obtain ⟨h3, h4⟩ := ih h1 (expected + 1)
        exact ⟨h3, h4.trans h2⟩

theorem contiguous_appendSingle (h : s.LogContiguous) (request : AppendRequest) :
    (s.appendSingle request).LogContiguous ∧
      (s.appendSingle request).raftLastIncludedIndex = s.raftLastIncludedIndex := by
  refine appendSingle_elim (P := fun t => t.LogContiguous ∧
    t.raftLastIncludedIndex = s.raftLastIncludedIndex)
    (fun _ => ⟨contiguous_eraseFrom h _, eraseFrom_base s _⟩) ⟨h, rfl⟩ (fun t ht _ => ht) ?_
  intro t type ht _ hi
  exact ⟨contiguous_pushBack ht.1 hi, ht.2⟩

theorem contiguous_rejectPrev (h : s.LogContiguous) (prev : Int) :
    (s.rejectPrev prev).LogContiguous ∧
      (s.rejectPrev prev).raftLastIncludedIndex = s.raftLastIncludedIndex :=
  ⟨contiguous_eraseFrom h prev, eraseFrom_base s prev⟩

theorem contiguous_rebase (h : s.LogContiguous) {index : Int}
    (hk : s.raftLastIncludedIndex ≤ index) (term : Int) : (s.rebase index term).LogContiguous := by
  obtain ⟨hf, hc⟩ := h.filter hk
  show Contiguous index (s.raftLog.filter _)
  rw [hf]
  exact hc

theorem contiguous_applyCommitted (h : s.LogContiguous) (now : Int) :
    (s.applyCommittedRaftEntries now).LogContiguous ∧
      s.raftLastIncludedIndex ≤ (s.applyCommittedRaftEntries now).raftLastIncludedIndex := by
  obtain ⟨store, applied, last, heq | ⟨hlt, term, heq⟩⟩ := applyCommitted_cases now s
  · rw [heq]
    exact ⟨h, Int.le_refl _⟩
  · rw [heq]
    have hc := contiguous_rebase (s := { s with
      store := store, applied := applied, raftLastApplied := last }) h (Int.le_of_lt hlt) term
    exact ⟨hc, Int.le_of_lt hlt⟩

theorem contiguous_advanceCommit (h : s.LogContiguous) (now leaderCommit : Int) :
    (s.advanceCommit now leaderCommit).LogContiguous ∧
      s.raftLastIncludedIndex ≤ (s.advanceCommit now leaderCommit).raftLastIncludedIndex := by
  unfold advanceCommit
  split
  · exact contiguous_applyCommitted
      (s := { s with raftCommitIndex := min leaderCommit s.raftLastLogIndex }) h now
  · exact ⟨h, Int.le_refl _⟩

/-- Setting the snapshot keeps the log contiguous when it does not go back. -/
theorem contiguous_installSet (h : s.LogContiguous) {request : InstallRequest}
    (hk : s.raftLastIncludedIndex ≤ request.lastLogIndex) :
    (s.installSet request).LogContiguous :=
  contiguous_rebase h hk request.lastLogTerm

/-! ## What the batch loop computes -/

theorem appendOne_match (h0 : 0 ≤ s.raftLastIncludedIndex) (h : s.LogContiguous) {j : Nat}
    (hx : s.raftLog[j]? = some x) (hi : entry.index = s.raftLastIncludedIndex + 1 + j)
    (ht : x.term = entry.term) : s.appendOne entry = s := by
  obtain ⟨hj, -⟩ := List.getElem?_eq_some_iff.mp hx
  have hterm : s.raftTermAt entry.index = entry.term := by rw [hi, termAt_log h0 hx, ht]
  have hlast := lastLogIndex_eq h
  unfold appendOne
  simp only [hterm, ne_eq, not_true_eq_false, and_false, if_false]
  rw [if_neg (by omega)]

theorem appendOne_conflict (h0 : 0 ≤ s.raftLastIncludedIndex) (h : s.LogContiguous) {j : Nat}
    (hx : s.raftLog[j]? = some x) (hi : entry.index = s.raftLastIncludedIndex + 1 + j)
    (ht : x.term ≠ entry.term) (hx1 : x.term ≠ -1) :
    s.appendOne entry = { s with raftLog := s.raftLog.take j ++ [entry] } := by
  obtain ⟨hj, -⟩ := List.getElem?_eq_some_iff.mp hx
  have hterm : s.raftTermAt entry.index = x.term := by rw [hi, termAt_log h0 hx]
  have hcut : LogContiguous { s with raftLog := s.raftLog.take j } := h.take j
  have hlast := lastLogIndex_eq hcut
  have hlen : (s.raftLog.take j).length = j := by rw [List.length_take]; omega
  simp only [hlen] at hlast
  have herase : (if x.term ≠ -1 ∧ x.term ≠ entry.term then s.eraseFrom entry.index else s) =
      { s with raftLog := s.raftLog.take j } := by
    rw [if_pos ⟨hx1, ht⟩, hi, eraseFrom_log]
  unfold appendOne
  simp only [hterm, herase]
  rw [if_pos (by rw [hlast]; omega)]
  rfl

theorem appendOne_end (h0 : 0 ≤ s.raftLastIncludedIndex) (h : s.LogContiguous)
    (hi : entry.index = s.raftLastIncludedIndex + 1 + s.raftLog.length) :
    s.appendOne entry = { s with raftLog := s.raftLog ++ [entry] } := by
  have hterm : s.raftTermAt entry.index = -1 := termAt_beyond h0 (by omega)
  have hlast := lastLogIndex_eq h
  unfold appendOne
  simp only [hterm, ne_eq, not_true_eq_false, false_and, if_false]
  rw [if_pos (by omega)]
  rfl

/-- On a contiguous log the loop over a contiguous batch always reaches its
end, and leaves the splice. −1 is no term. -/
theorem appendLoop_eq {es : List RaftLogEntry} :
    ∀ (s : KVServer) (pos : Nat), 0 ≤ s.raftLastIncludedIndex → s.LogContiguous →
      (∀ x ∈ s.raftLog, x.term ≠ -1) → (∀ x ∈ es, x.term ≠ -1) → pos ≤ s.raftLog.length →
      Contiguous (s.raftLastIncludedIndex + pos) es →
      s.appendLoop (s.raftLastIncludedIndex + pos + 1) es =
        ({ s with raftLog := splice s.raftLog pos es }, true) := by
  induction es with
  | nil =>
    intro s pos _ _ _ _ _ _
    rw [splice_nil]
    rfl
  | cons entry es ih =>
    intro s pos h0 h hs hes hpos hc
    obtain ⟨hi, hc⟩ := contiguous_cons.mp hc
    have hlast := lastLogIndex_eq h
    have hes' : ∀ x ∈ es, x.term ≠ -1 := fun x hx => hes x (List.mem_cons_of_mem _ hx)
    have hidx : entry.index = s.raftLastIncludedIndex + 1 + pos := by omega
    rw [appendLoop, if_neg (by omega), if_neg (by omega)]
    -- the log after this entry, which the rest of the batch then extends
    have hrest : ∀ log : List RaftLogEntry, log = s.raftLog.take pos →
        Contiguous s.raftLastIncludedIndex log → log.length = pos →
        (∀ x ∈ log, x.term ≠ -1) →
        (appendLoop { s with raftLog := log ++ [entry] }
          (s.raftLastIncludedIndex + pos + 1 + 1) es) =
          ({ s with raftLog := log ++ entry :: es }, true) := by
      intro log _ hlc hlen hlt
      have hlen' : (log ++ [entry]).length = pos + 1 := by simp [hlen]
      have := ih { s with raftLog := log ++ [entry] } (pos + 1) h0
        (hlc.append (contiguous_cons.mpr ⟨by rw [hlen]; omega, contiguous_nil _⟩))
        (fun x hx => ?_) hes' (by rw [hlen']) (by
          intro j e he
          have := hc j e he
          push_cast
          omega)
      · have hcast : s.raftLastIncludedIndex + pos + 1 + 1 =
            s.raftLastIncludedIndex + ((pos + 1 : Nat) : Int) + 1 := by push_cast; omega
        rw [hcast, this]
        simp only []
        rw [← hlen', splice_end, List.append_assoc, List.singleton_append]
      · rcases List.mem_append.mp hx with hx | hx
        · exact hlt x hx
        · rw [List.mem_singleton.mp hx]
          exact hes entry (by simp)
    have htake : ∀ x ∈ s.raftLog.take pos, x.term ≠ -1 :=
      fun x hx => hs x (List.mem_of_mem_take hx)
    cases hx : s.raftLog[pos]? with
    | none =>
      have hend : s.raftLog.length = pos := by
        have := List.getElem?_eq_none_iff.mp hx
        omega
      have hall : s.raftLog.take pos = s.raftLog := List.take_of_length_le (by omega)
      rw [appendOne_end h0 h (by omega), hrest s.raftLog hall.symm h hend hs, ← hend,
        splice_end]
    | some x =>
      by_cases ht : x.term = entry.term
      · rw [appendOne_match h0 h hx hidx ht, splice_match hx ht]
        obtain ⟨hlt, -⟩ := List.getElem?_eq_some_iff.mp hx
        have := ih s (pos + 1) h0 h hs hes' (by omega) (by
          intro j e he
          have := hc j e he
          push_cast
          omega)
        have hcast : s.raftLastIncludedIndex + pos + 1 + 1 =
            s.raftLastIncludedIndex + ((pos + 1 : Nat) : Int) + 1 := by push_cast; omega
        rw [hcast, this]
      · have hxm : x ∈ s.raftLog := List.mem_of_getElem? hx
        obtain ⟨hlt, -⟩ := List.getElem?_eq_some_iff.mp hx
        rw [appendOne_conflict h0 h hx hidx ht (hs x hxm), splice_conflict hx ht]
        exact hrest _ rfl (h.take pos) (by rw [List.length_take]; omega) htake

/-! ## What the log sections leave alone

Of the router they touch only its copy of the last entry. -/

theorem eraseFrom_core (s : KVServer) (index : Int) :
    (s.eraseFrom index).router.core = s.router.core :=
  eraseFrom_same (f := fun t => t.router.core) (fun _ _ => rfl) s index

theorem appendLoop_core (s : KVServer) (expected : Int) (entries : List RaftLogEntry) :
    (s.appendLoop expected entries).1.router.core = s.router.core :=
  appendLoop_same (f := fun t => t.router.core) (fun _ _ => rfl) s expected entries

theorem appendSingle_core (s : KVServer) (request : AppendRequest) :
    (s.appendSingle request).router.core = s.router.core :=
  appendSingle_same (f := fun t => t.router.core) (fun _ _ => rfl) (fun _ => rfl)
    (fun _ => rfl) s request

theorem applyCommitted_core (now : Int) (s : KVServer) :
    (s.applyCommittedRaftEntries now).router.core = s.router.core := by
  obtain ⟨store, applied, last, heq | ⟨-, term, heq⟩⟩ := applyCommitted_cases now s
  · rw [heq]
    rfl
  · rw [heq]
    rfl

theorem advanceCommit_core (now : Int) (s : KVServer) (leaderCommit : Int) :
    (s.advanceCommit now leaderCommit).router.core = s.router.core := by
  unfold advanceCommit
  split
  · exact applyCommitted_core now _
  · rfl

theorem appendLocked_core (now : Int) (s : KVServer) (request : AppendRequest) :
    (s.appendLocked now request).1.router.core = s.router.core := by
  have hloop := appendLoop_core s (request.prevLogIndex + 1) request.entries
  refine appendLocked_elim (P := fun t => t.router.core = s.router.core) rfl ?_ ?_ ?_ ?_ ?_
  · exact fun _ _ _ => eraseFrom_core s _
  · exact fun _ => hloop
  · exact fun _ _ => (advanceCommit_core now _ _).trans hloop
  · exact fun _ => (advanceCommit_core now _ _).trans (appendSingle_core s request)
  · exact fun _ _ _ => advanceCommit_core now s _

/-! ## Looking entries up by index -/

/-- The entry at an index, if it is in the log. -/
def entryAt (s : KVServer) (index : Int) : Option RaftLogEntry :=
  if s.raftLastIncludedIndex < index then
    s.raftLog[(index - s.raftLastIncludedIndex - 1).toNat]?
  else none

theorem entryAt_offset (s : KVServer) (j : Nat) :
    s.entryAt (s.raftLastIncludedIndex + 1 + j) = s.raftLog[j]? := by
  unfold entryAt
  rw [if_pos (by omega)]
  congr 1
  omega

variable {index : Int}

theorem entryAt_eq_some {entry : RaftLogEntry} :
    s.entryAt index = some entry ↔
      ∃ j : Nat, index = s.raftLastIncludedIndex + 1 + j ∧ s.raftLog[j]? = some entry := by
  constructor
  · intro h
    unfold entryAt at h
    split at h
    · exact ⟨_, by omega, h⟩
    · cases h
  · rintro ⟨j, rfl, h⟩
    rw [entryAt_offset]
    exact h

theorem entryAt_index (h : s.LogContiguous) {entry : RaftLogEntry}
    (he : s.entryAt index = some entry) : entry.index = index := by
  obtain ⟨j, rfl, hj⟩ := entryAt_eq_some.mp he
  exact h j entry hj

/-- What moving the base up leaves behind it. -/
theorem entryAt_drop {t : KVServer} {k : Int} (hk : s.raftLastIncludedIndex ≤ k)
    (hl : t.raftLog = s.raftLog.drop (k - s.raftLastIncludedIndex).toNat)
    (hb : t.raftLastIncludedIndex = k) (hi : k < index) : t.entryAt index = s.entryAt index := by
  unfold entryAt
  rw [hb, hl, if_pos hi, if_pos (by omega), List.getElem?_drop]
  congr 1
  omega

theorem entryAt_congr {t : KVServer} (hl : t.raftLog = s.raftLog)
    (hb : t.raftLastIncludedIndex = s.raftLastIncludedIndex) (index : Int) :
    t.entryAt index = s.entryAt index := by
  unfold entryAt
  rw [hl, hb]

theorem applyCommitted_entryAt (h : s.LogContiguous) (now : Int)
    (hi : (s.applyCommittedRaftEntries now).raftLastIncludedIndex < index) :
    (s.applyCommittedRaftEntries now).entryAt index = s.entryAt index := by
  obtain ⟨store, applied, last, heq | ⟨hlt, term, heq⟩⟩ := applyCommitted_cases now s
  · rw [heq]
    rfl
  · rw [heq] at hi ⊢
    exact entryAt_drop (Int.le_of_lt hlt) (h.filter (Int.le_of_lt hlt)).1 rfl hi

theorem applyCommitted_commit (now : Int) (s : KVServer) :
    (s.applyCommittedRaftEntries now).raftCommitIndex = s.raftCommitIndex := by
  obtain ⟨store, applied, last, heq | ⟨-, term, heq⟩⟩ := applyCommitted_cases now s
  · rw [heq]
    rfl
  · rw [heq]
    rfl

/-- Advancing the commit index leaves the log as it is, up to compaction. -/
theorem advanceCommit_spec (h : s.LogContiguous) (now leaderCommit : Int) :
    (∀ index, (s.advanceCommit now leaderCommit).raftLastIncludedIndex < index →
        (s.advanceCommit now leaderCommit).entryAt index = s.entryAt index) ∧
      (s.advanceCommit now leaderCommit).raftCommitIndex =
        if s.raftCommitIndex < leaderCommit then min leaderCommit s.raftLastLogIndex
        else s.raftCommitIndex := by
  unfold advanceCommit
  split
  · refine ⟨fun index hi => ?_, applyCommitted_commit now _⟩
    exact applyCommitted_entryAt
      (s := { s with raftCommitIndex := min leaderCommit s.raftLastLogIndex }) h now hi
  · exact ⟨fun _ _ => rfl, rfl⟩

end KVServer

end TinyKV
