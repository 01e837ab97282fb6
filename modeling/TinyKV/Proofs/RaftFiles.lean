import TinyKV.Lib.Lists
import TinyKV.Model.RaftFiles

/-!
# What the Raft files say

Each of the three text files is read back as it was written, if its numbers
are `int`s. For `raft.log` this also needs commands that have a name, and for
`raft.meta` a vote for a node whose name is a word and not a dash: the dash is
how an empty vote is written. The statements leave these conditions to whoever
uses them.
-/

namespace TinyKV

open Text

/-! ## Hexadecimal -/

theorem hexValue_hexDigit {n : Nat} (h : n < 16) : hexValue (hexDigit n) = some n := by
  unfold hexDigit hexValue
  split
  · rw [UInt8.toNat_ofNat', if_pos (by omega)]
    congr 1
    omega
  · rw [UInt8.toNat_ofNat', if_neg (by omega), if_pos (by omega)]
    congr 1
    omega

theorem hexDigit_toNat {n : Nat} (h : n < 16) : 48 ≤ (hexDigit n).toNat := by
  unfold hexDigit
  split
  · rw [UInt8.toNat_ofNat']
    omega
  · rw [UInt8.toNat_ofNat']
    omega

variable {c : UInt8} {type : CommandType} {rest : Str} {log : List RaftLogEntry} {n : Int}
  {entry : RaftLogEntry} {r : RaftIndices}

theorem hexBytes_bytes {value : Str} (h : c ∈ hexBytes value) : 48 ≤ c.toNat := by
  induction value with
  | nil => cases h
  | cons b rest ih =>
    have hb : b.toNat < 256 := b.toNat_lt
    rcases List.mem_cons.mp h with rfl | h
    · exact hexDigit_toNat (by omega)
    · rcases List.mem_cons.mp h with rfl | h
      · exact hexDigit_toNat (by omega)
      · exact ih h

theorem unhexBytes_hexBytes (value : Str) : unhexBytes (hexBytes value) = some value := by
  induction value with
  | nil => rfl
  | cons b rest ih =>
    have hb : b.toNat < 256 := b.toNat_lt
    have hjoin : UInt8.ofNat (16 * (b.toNat / 16) + b.toNat % 16) = b := by
      rw [Nat.div_add_mod, UInt8.ofNat_toNat]
    rw [hexBytes, unhexBytes, hexValue_hexDigit (by omega), hexValue_hexDigit (by omega), ih]
    simp only [Option.bind_eq_bind, Option.bind_some, hjoin]

theorem isSpace_of_ge (h : 33 ≤ c.toNat) : isSpace c = false := by
  simp only [isSpace, Bool.or_eq_false_iff, Bool.and_eq_false_iff, decide_eq_false_iff_not]
  omega

theorem hexEncode_bytes {value : Str} (h : c ∈ hexEncode value) : 45 ≤ c.toNat := by
  unfold hexEncode at h
  split at h
  · rw [List.mem_singleton.mp h]
    decide
  · exact Nat.le_trans (by omega) (hexBytes_bytes h)

theorem hexEncode_isWord (value : Str) : IsWord (hexEncode value) := by
  refine ⟨?_, fun c hc => isSpace_of_ge (Nat.le_trans (by omega) (hexEncode_bytes hc))⟩
  unfold hexEncode
  split
  · decide
  · next h =>
    obtain ⟨b, rest, rfl⟩ := List.exists_cons_of_ne_nil h
    simp [hexBytes]

theorem hexDecode_hexEncode (value : Str) : hexDecode (hexEncode value) = some value := by
  unfold hexDecode hexEncode
  split
  · next h => rw [if_pos rfl, h]
  · next h =>
    obtain ⟨b, rest, rfl⟩ := List.exists_cons_of_ne_nil h
    rw [if_neg (by simp [hexBytes, dash, bytes]), unhexBytes_hexBytes]

/-! ## raft.log -/

/-- Commands that can be read back from the log. -/
def CommandType.Logged (type : CommandType) : Prop := type = .put ∨ type = .del ∨ type = .expire

/-- The numbers of an entry are `int`s. -/
def RaftLogEntry.InRange (e : RaftLogEntry) : Prop :=
  InRange32 e.index ∧ InRange32 e.term ∧ InRange32 e.ttlSeconds

instance (e : RaftLogEntry) : Decidable e.InRange := inferInstanceAs (Decidable (_ ∧ _))

/-- Entries that can be read back from the log. -/
def RaftLogEntry.Logged (e : RaftLogEntry) : Prop := e.type.Logged ∧ e.InRange

theorem opType_opName {type' : CommandType} (h : opType (opName type) = some type') :
    type' = type := by
  cases type <;> first | (injection h with h; exact h.symm) | cases h

theorem opType_logged (h : type.Logged) : opType (opName type) = some type := by
  rcases h with rfl | rfl | rfl <;> rfl

theorem opName_isWord (type : CommandType) : IsWord (opName type) := by
  cases type <;> decide

theorem readInt_blank (n : Int) (h : ∀ c ∈ rest.head?, isDigit c = false) :
    readInt (32 :: (showInt n ++ rest)) = some (n, rest) := by
  rw [readInt_space (by decide), readInt_showInt n h]

/-- A number at the end of a line. -/
theorem readInt_line (n : Int) (rest : Str) :
    readInt (32 :: (showInt n ++ 10 :: rest)) = some (n, 10 :: rest) := by
  refine readInt_blank n fun c hc => ?_
  simp only [List.head?_cons, Option.mem_def, Option.some.injEq] at hc
  rw [← hc]
  decide

theorem readWord_blank {w : Str} (hw : IsWord w) (h : ∀ c ∈ rest.head?, isSpace c = true) :
    readWord (32 :: (w ++ rest)) = some (w, rest) := by
  rw [readWord_space (by decide), readWord_word hw h]

theorem head_blank {p : UInt8 → Prop} (h : p 32) (rest : Str) :
    ∀ c ∈ (32 :: rest).head?, p c := by
  intro c hc
  simp only [List.head?_cons, Option.mem_def, Option.some.injEq] at hc
  exact hc ▸ h

theorem readInt32_eq (s : Str) :
    readInt32 s = (readInt s).bind fun r => if InRange32 r.1 then some r else none := by
  rw [readInt32]
  cases readInt s <;> simp [Option.filter]

theorem parseRaftLogLine_line (e : RaftLogEntry) :
    parseRaftLogLine (raftLogLine e) =
      if e.InRange then (opType (opName e.type)).map fun type => { e with type := type }
      else none := by
  have hdigit : isDigit 32 = false := by decide
  have hspace : isSpace 32 = true := by decide
  have hvalue : readWord (32 :: hexEncode e.value) = some (hexEncode e.value, []) := by
    have := @readWord_blank [] _ (hexEncode_isWord e.value) (by simp)
    rwa [List.append_nil] at this
  unfold parseRaftLogLine raftLogLine
  rw [readInt32_eq, readInt_showInt e.index (head_blank hdigit _)]
  by_cases hindex : InRange32 e.index
  · simp only [Option.bind_eq_bind, Option.bind_some, if_pos hindex]
    rw [readInt32_eq, readInt_blank e.term (head_blank hdigit _)]
    by_cases hterm : InRange32 e.term
    · simp only [Option.bind_some, if_pos hterm]
      rw [readWord_blank (opName_isWord e.type) (head_blank hspace _)]
      simp only [Option.bind_some]
      rw [readWord_blank (hexEncode_isWord e.key) (head_blank hspace _)]
      simp only [Option.bind_some]
      rw [readInt32_eq, readInt_blank e.ttlSeconds (head_blank hdigit _)]
      by_cases httl : InRange32 e.ttlSeconds
      · simp only [Option.bind_some, if_pos httl, hvalue, hexDecode_hexEncode]
        rw [if_pos ⟨hindex, hterm, httl⟩]
        cases opType (opName e.type) <;> rfl
      · rw [if_neg fun h => httl h.2.2]
        simp [httl]
    · rw [if_neg fun h => hterm h.2.1]
      simp [hterm]
  · rw [if_neg fun h => hindex h.1]
    simp [hindex]

theorem newline_notMem_raftLogLine (e : RaftLogEntry) : 10 ∉ raftLogLine e := by
  have hint : ∀ n : Int, (10 : UInt8) ∉ showInt n := fun n =>
    showInt_notMem (by decide) (by decide)
  have hhex : ∀ v : Str, (10 : UInt8) ∉ hexEncode v := fun v hm =>
    absurd (hexEncode_bytes hm) (by decide)
  have hop : (10 : UInt8) ∉ opName e.type := by cases e.type <;> decide
  simp [raftLogLine, hint, hhex, hop]

theorem raftLogLine_ne_nil (e : RaftLogEntry) : raftLogLine e ≠ [] := by simp [raftLogLine]

theorem getlines_raftLogText (log : List RaftLogEntry) :
    getlines 10 (raftLogText log) = log.map raftLogLine := by
  induction log with
  | nil => rfl
  | cons e log ih =>
    rw [raftLogText, getlines_append_sep (newline_notMem_raftLogLine e), ih, List.map_cons]

theorem loadRaftLog_cons (e : RaftLogEntry) (log : List RaftLogEntry) :
    loadRaftLog (raftLogText (e :: log)) = (parseRaftLogLine (raftLogLine e)).bind fun e' =>
      (loadRaftLog (raftLogText log)).map (e' :: ·) := by
  have hne : ∀ log : List RaftLogEntry,
      ((log.map raftLogLine).filter fun line => !decide (line = [])) = log.map raftLogLine := by
    intro log
    refine List.filter_eq_self.mpr fun line hl => ?_
    obtain ⟨e, -, rfl⟩ := List.mem_map.mp hl
    simp [raftLogLine_ne_nil]
  unfold loadRaftLog
  rw [getlines_raftLogText, getlines_raftLogText, hne, hne, List.map_cons, List.mapM_cons]
  cases parseRaftLogLine (raftLogLine e) with
  | none => rfl
  | some e' => cases (log.map raftLogLine).mapM parseRaftLogLine <;> rfl

/-- What loads is what was written. -/
theorem loadRaftLog_text {log' : List RaftLogEntry}
    (h : loadRaftLog (raftLogText log) = some log') : log' = log := by
  induction log generalizing log' with
  | nil => simpa [loadRaftLog, raftLogText, getlines] using h.symm
  | cons e log ih =>
    rw [loadRaftLog_cons, parseRaftLogLine_line] at h
    obtain ⟨e', he, h⟩ := Option.bind_eq_some_iff.mp h
    obtain ⟨rest, hrest, rfl⟩ := Option.map_eq_some_iff.mp h
    split at he
    · obtain ⟨type, ht, rfl⟩ := Option.map_eq_some_iff.mp he
      rw [ih hrest, opType_opName ht]
    · cases he

theorem loadRaftLog_logged (h : ∀ e ∈ log, e.Logged) :
    loadRaftLog (raftLogText log) = some log := by
  induction log with
  | nil => rfl
  | cons e log ih =>
    obtain ⟨htype, hrange⟩ := h e List.mem_cons_self
    rw [loadRaftLog_cons, parseRaftLogLine_line, if_pos hrange, opType_logged htype,
      ih fun x hx => h x (List.mem_cons_of_mem _ hx)]
    rfl

theorem opType_some_logged {op : Str} (h : opType op = some type) : type.Logged := by
  unfold opType at h
  split at h
  · exact Or.inl (Option.some.inj h).symm
  · split at h
    · exact Or.inr (Or.inl (Option.some.inj h).symm)
    · split at h
      · exact Or.inr (Or.inr (Option.some.inj h).symm)
      · cases h

theorem inRange_of_readInt32 {s : Str} (h : readInt32 s = some (n, rest)) :
    InRange32 n := of_decide_eq_true (Option.filter_eq_some_iff.mp h).2

theorem parseRaftLogLine_logged {line : Str} (h : parseRaftLogLine line = some entry) :
    entry.Logged := by
  simp only [parseRaftLogLine, Option.bind_eq_bind, Option.bind_eq_some_iff, Prod.exists] at h
  obtain ⟨_, _, hindex, _, _, hterm, _, _, _, _, _, _, _, _, httl, _, _, _, _, _, _, _, type, ht,
    he⟩ := h
  injection he with he
  rw [← he]
  exact ⟨opType_some_logged ht, inRange_of_readInt32 hindex, inRange_of_readInt32 hterm,
    inRange_of_readInt32 httl⟩

/-- Whatever is read from a log can be written to it again. -/
theorem loadRaftLog_mem {text : Str} (h : loadRaftLog text = some log) (he : entry ∈ log) :
    entry.Logged := by
  obtain ⟨line, -, hline⟩ := List.mem_of_mapM_eq_some h he
  exact parseRaftLogLine_logged hline

theorem decodeRaftEntriesPayload_logged {payload : Str}
    (h : entry ∈ decodeRaftEntriesPayload payload) : entry.Logged := by
  unfold decodeRaftEntriesPayload at h
  cases hl : loadRaftLog payload with
  | none =>
    rw [hl] at h
    cases h
  | some log =>
    rw [hl] at h
    exact loadRaftLog_mem hl h

/-! ## raft.state -/

theorem isStateKey_isWord {key : Str} (h : isStateKey key = true) : IsWord key := by
  simp only [isStateKey, Bool.or_eq_true, decide_eq_true_eq] at h
  rcases h with ((rfl | rfl) | rfl) | rfl <;> decide

theorem extractInt_line (h : InRange32 n) (rest : Str) (old : Int) :
    extractInt (32 :: (showInt n ++ 10 :: rest)) old = (n, some (10 :: rest)) := by
  rw [extractInt, readInt_line]
  simp only
  rw [if_neg (Int.not_lt.mpr h.1), if_neg (Int.not_lt.mpr h.2)]

theorem extractInt_inRange {s : Str} {old : Int} (h : InRange32 old) :
    InRange32 (extractInt s old).1 := by
  rw [extractInt]
  split
  · show InRange32 (if _ then old else 0)
    split
    · exact h
    · exact ⟨by decide, by decide⟩
  · split
    · exact ⟨by decide, by decide⟩
    · split
      · exact ⟨by decide, by decide⟩
      · exact ⟨by omega, by omega⟩

theorem RaftIndices.InRange.get (h : r.InRange) (key : Str) : InRange32 (r.get key) := by
  obtain ⟨hcommit, happlied, hbase, hterm⟩ := h
  unfold RaftIndices.get
  split
  · exact hcommit
  · split
    · exact happlied
    · split
      · exact hbase
      · exact hterm

theorem RaftIndices.InRange.set (h : r.InRange) (key : Str) (hn : InRange32 n) :
    (r.set key n).InRange := by
  obtain ⟨hcommit, happlied, hbase, hterm⟩ := h
  unfold RaftIndices.set
  split
  · exact ⟨hn, happlied, hbase, hterm⟩
  · split
    · exact ⟨hcommit, hn, hbase, hterm⟩
    · split
      · exact ⟨hcommit, happlied, hn, hterm⟩
      · split
        · exact ⟨hcommit, happlied, hbase, hn⟩
        · exact ⟨hcommit, happlied, hbase, hterm⟩

theorem loadRaftIndicesAux_inRange (fuel : Nat) (s : Str) (h : r.InRange) :
    (loadRaftIndicesAux fuel s r).InRange := by
  induction fuel generalizing s r with
  | zero => exact h
  | succ fuel ih =>
    rw [loadRaftIndicesAux]
    split
    · exact h
    · next key rest _ =>
      have hread := extractInt_inRange (s := rest) (h.get key)
      split
      · split
        · next n rest' heq =>
          rw [heq] at hread
          exact ih rest' (h.set key hread)
        · next n heq =>
          rw [heq] at hread
          exact h.set key hread
      · exact ih rest h

/-- Whatever is in `raft.state`, `int`s are read from it. -/
theorem loadRaftIndices_inRange (file : Option Str) : (loadRaftIndices file).InRange := by
  have hzero : ({} : RaftIndices).InRange := by decide
  cases file with
  | none => exact hzero
  | some text => exact loadRaftIndicesAux_inRange _ _ hzero

theorem loadRaftIndicesAux_line {key : Str} (hk : isStateKey key = true) (fuel : Nat)
    (hn : InRange32 n) (rest : Str) (r : RaftIndices) :
    loadRaftIndicesAux (fuel + 1) (stateLine key n rest) r =
      loadRaftIndicesAux fuel (10 :: rest) (r.set key n) := by
  have hword : readWord (stateLine key n rest) = some (key, 32 :: (showInt n ++ 10 :: rest)) :=
    readWord_word (isStateKey_isWord hk) (head_blank (p := fun c => isSpace c = true) (by decide) _)
  rw [loadRaftIndicesAux, hword]
  simp only [hk, if_true, extractInt_line hn]

theorem loadRaftIndicesAux_newline (fuel : Nat) (s : Str) (r : RaftIndices) :
    loadRaftIndicesAux fuel (10 :: s) r = loadRaftIndicesAux fuel s r := by
  cases fuel with
  | zero => rfl
  | succ fuel => rw [loadRaftIndicesAux, loadRaftIndicesAux, readWord_space (by decide)]

theorem loadRaftIndices_text (h : r.InRange) : loadRaftIndices (some (raftStateText r)) = r := by
  obtain ⟨fuel, hfuel⟩ : ∃ fuel, (raftStateText r).length = fuel + 4 := by
    refine ⟨(raftStateText r).length - 4, ?_⟩
    have : 4 ≤ (raftStateText r).length := by
      simp only [raftStateText, stateLine, List.length_append, List.length_cons]
      omega
    omega
  have hnil : ∀ r, loadRaftIndicesAux fuel [] r = r := by
    intro r
    cases fuel <;> rfl
  show loadRaftIndicesAux (raftStateText r).length (raftStateText r) {} = r
  rw [hfuel, raftStateText, loadRaftIndicesAux_line (by decide) _ h.1,
    loadRaftIndicesAux_newline, loadRaftIndicesAux_line (by decide) _ h.2.1,
    loadRaftIndicesAux_newline, loadRaftIndicesAux_line (by decide) _ h.2.2.1,
    loadRaftIndicesAux_newline, loadRaftIndicesAux_line (by decide) _ h.2.2.2,
    loadRaftIndicesAux_newline, hnil]
  simp [RaftIndices.set, keyCommitIndex, keyLastApplied, keyLastIncludedIndex,
    keyLastIncludedTerm, bytes]

/-! ## raft.meta -/

/-- What a restart makes of a vote. -/
def reloadedVote (votedFor : Str) : Str := if votedFor = dash then [] else votedFor

/-- The vote as it stands in the file. -/
def writtenVote (votedFor : Str) : Str := if votedFor = [] then dash else votedFor

/-! The four words of the file, one after the other. -/

theorem readWord_raftMetaText (term : Int) (votedFor : Str) :
    readWord (raftMetaText term votedFor) = some (keyTerm,
      32 :: (showInt term ++ 10 :: (keyVotedFor ++ 32 :: (writtenVote votedFor ++ [10])))) :=
  readWord_word (by decide) (head_blank (p := fun c => isSpace c = true) (by decide) _)

theorem readWord_keyVotedFor (rest : Str) :
    readWord (10 :: (keyVotedFor ++ 32 :: rest)) = some (keyVotedFor, 32 :: rest) := by
  rw [readWord_space (by decide)]
  exact readWord_word (by decide) (head_blank (p := fun c => isSpace c = true) (by decide) _)

theorem readWord_lastWord {w : Str} (hw : IsWord w) :
    readWord (32 :: (w ++ [10])) = some (w, [10]) := by
  refine readWord_blank hw fun c hc => ?_
  simp only [List.head?_cons, Option.mem_def, Option.some.injEq] at hc
  rw [← hc]
  decide

/-- The loader holds an `int` and no vote or a word. -/
theorem loadRaftMetaAux_spec (fuel : Nat) (s : Str) {term : Int} {votedFor : Str}
    (ht : InRange32 term) (hv : votedFor = [] ∨ IsWord votedFor) :
    InRange32 (loadRaftMetaAux fuel s term votedFor).1 ∧
      ((loadRaftMetaAux fuel s term votedFor).2 = [] ∨
        IsWord (loadRaftMetaAux fuel s term votedFor).2) := by
  have hclear : ∀ v : Str, v = [] ∨ IsWord v →
      (if v = dash then [] else v) = [] ∨ IsWord (if v = dash then [] else v) := by
    intro v hv
    split
    · exact .inl rfl
    · exact hv
  induction fuel generalizing s term votedFor with
  | zero => exact ⟨ht, hv⟩
  | succ fuel ih =>
    rw [loadRaftMetaAux]
    split
    · exact ⟨ht, hv⟩
    · next key rest _ =>
      split
      · have hread := extractInt_inRange (s := rest) ht
        split
        · next n rest' heq =>
          rw [heq] at hread
          exact ih rest' hread hv
        · next n heq =>
          rw [heq] at hread
          exact ⟨hread, hv⟩
      · split
        · split
          · next v rest' hw => exact ih rest' ht (hclear v (.inr (readWord_isWord hw)))
          · exact ⟨ht, hclear votedFor hv⟩
        · exact ih rest ht hv

theorem loadRaftMeta_spec (file : Option Str) :
    InRange32 (loadRaftMeta file).1 ∧
      ((loadRaftMeta file).2 = [] ∨ IsWord (loadRaftMeta file).2) := by
  cases file with
  | none => exact ⟨⟨by decide, by decide⟩, .inl rfl⟩
  | some text => exact loadRaftMetaAux_spec _ _ ⟨by decide, by decide⟩ (.inl rfl)

theorem raftMetaText_length (term : Int) (votedFor : Str) :
    ∃ fuel, (raftMetaText term votedFor).length = fuel + 2 := by
  refine ⟨(raftMetaText term votedFor).length - 2, ?_⟩
  have : 2 ≤ (raftMetaText term votedFor).length := by
    simp only [raftMetaText, List.length_append, List.length_cons]
    omega
  omega

theorem loadRaftMeta_text {term : Int} (ht : InRange32 term) {votedFor : Str}
    (h : votedFor = [] ∨ IsWord votedFor) :
    loadRaftMeta (some (raftMetaText term votedFor)) = (term, reloadedVote votedFor) := by
  obtain ⟨hw, hread⟩ : IsWord (writtenVote votedFor) ∧
      (if writtenVote votedFor = dash then [] else writtenVote votedFor) =
        reloadedVote votedFor := by
    rcases h with rfl | h
    · exact ⟨by decide, by decide⟩
    · rw [writtenVote, if_neg h.1]
      exact ⟨h, rfl⟩
  obtain ⟨fuel, hfuel⟩ := raftMetaText_length term votedFor
  have hnil : ∀ (n : Int) (v : Str), loadRaftMetaAux fuel [10] n v = (n, v) := by
    intro n v
    cases fuel <;> rfl
  show loadRaftMetaAux (raftMetaText term votedFor).length (raftMetaText term votedFor) 0 [] = _
  have hkeys : keyVotedFor ≠ keyTerm := by decide
  rw [hfuel, loadRaftMetaAux, readWord_raftMetaText]
  simp only [if_true, extractInt_line ht]
  rw [loadRaftMetaAux, readWord_keyVotedFor]
  simp only [if_neg hkeys, if_true, readWord_lastWord hw, hnil, hread]

end TinyKV
