import TinyKV.Lib.Trim
import TinyKV.Model.RequestLine
import TinyKV.Proofs.Protocol
import TinyKV.Proofs.RaftFiles

/-!
# Lines of text between nodes

A line goes through three readers: the framer ends it at the first line
end, `parse_request` trims it and takes its first word, and the rest is cut
at white space, or, for a `PUT`, into one more word and everything behind
it. The first part of this file says what becomes of a line that starts with
a known word.

The lines for followers consist of words only, keys and values being in
hexadecimal, and come back as they were sent. The lines for replicas carry
keys and values as they are. Those come back exactly if the key is a word
and the value does not begin or end in white space or hold a line end.
-/

namespace TinyKV

open Text

/-! ## Words -/

variable {w : Str} {args : List Str} {n : Int}

theorem words_isWord {s : Str} (h : w ∈ words s) : IsWord w := by
  rw [words] at h
  generalize s.length = fuel at h
  induction fuel generalizing s with
  | zero => cases h
  | succ fuel ih =>
    rw [wordsAux] at h
    split at h
    · cases h
    · next hread =>
      rcases List.mem_cons.mp h with rfl | h
      · exact readWord_isWord hread
      · exact ih h

/-- What follows a word in a line of words. -/
theorem flatMap_blank_head (args : List Str) :
    ∀ c ∈ (args.flatMap (32 :: ·)).head?, isSpace c = true := by
  intro c hc
  cases args with
  | nil => cases hc
  | cons w args =>
    cases hc
    decide

theorem words_flatMap (h : ∀ w ∈ args, IsWord w) : words (args.flatMap (32 :: ·)) = args := by
  have fueled : ∀ fuel, (args.flatMap (32 :: ·)).length ≤ fuel →
      wordsAux fuel (args.flatMap (32 :: ·)) = args := by
    induction args with
    | nil => intro fuel _; cases fuel <;> rfl
    | cons w args ih =>
      intro fuel hfuel
      rw [List.flatMap_cons, List.cons_append] at hfuel ⊢
      rw [List.length_cons, List.length_append] at hfuel
      obtain ⟨fuel, rfl⟩ : ∃ k, fuel = k + 1 := ⟨fuel - 1, by omega⟩
      rw [wordsAux, readWord_space (by decide),
        readWord_word (h w List.mem_cons_self) (flatMap_blank_head args)]
      simp only
      rw [ih (fun v hv => h v (List.mem_cons_of_mem w hv)) fuel (by omega)]
  exact fueled _ (Nat.le_refl _)

/-! ## Trimming -/

theorem rdropWhile_word_append (hw : IsWord w) (rest : Str) :
    (w ++ rest).rdropWhile isSpace = w ++ rest.rdropWhile isSpace := by
  induction rest using List.reverseRecOn with
  | nil =>
    rw [List.append_nil, List.rdropWhile_nil, List.append_nil, List.rdropWhile_eq_self_iff]
    intro hne
    rw [hw.2 _ (List.getLast_mem hne)]
    decide
  | append_singleton rest c ih =>
    rw [← List.append_assoc, List.rdropWhile_concat, List.rdropWhile_concat]
    split
    · exact ih
    · exact List.append_assoc _ _ _

theorem trim_word_append (hw : IsWord w) (rest : Str) :
    trim (w ++ rest) = w ++ rest.rdropWhile isSpace := by
  obtain ⟨c, t, rfl⟩ := List.exists_cons_of_ne_nil hw.1
  rw [trim, List.cons_append, List.dropWhile_cons_of_neg (by simp [hw.2 c List.mem_cons_self]),
    ← List.cons_append, rdropWhile_word_append hw]

theorem trim_trim (s : Str) : trim (trim s) = trim s := Trim.trimBy_trimBy isSpace s

theorem rdropWhile_append_of_ne_nil {t : Str} (h : t.rdropWhile isSpace ≠ []) (s : Str) :
    (s ++ t).rdropWhile isSpace = s ++ t.rdropWhile isSpace := by
  induction t using List.reverseRecOn with
  | nil => exact absurd rfl h
  | append_singleton t c ih =>
    rw [List.rdropWhile_concat] at h
    rw [← List.append_assoc, List.rdropWhile_concat, List.rdropWhile_concat]
    split at h
    · next hc => rw [if_pos hc, if_pos hc, ih h]
    · next hc => rw [if_neg hc, if_neg hc, List.append_assoc]

/-- White space behind a line of words is all there is to trim. -/
theorem rdropWhile_flatMap (h : ∀ w ∈ args, IsWord w) {t : Str} (ht : ∀ c ∈ t, isSpace c = true) :
    (args.flatMap (32 :: ·) ++ t).rdropWhile isSpace = args.flatMap (32 :: ·) := by
  have hnil : t.rdropWhile isSpace = [] := List.rdropWhile_eq_nil_iff.mpr ht
  induction args using List.reverseRecOn with
  | nil => exact hnil
  | append_singleton args w _ =>
    have hw := h w (by simp)
    have hlast : (w ++ t).rdropWhile isSpace = w := by
      rw [rdropWhile_word_append hw, hnil, List.append_nil]
    have hcons : (32 :: (w ++ t)).rdropWhile isSpace = 32 :: w := by
      have := rdropWhile_append_of_ne_nil (t := w ++ t) (by rw [hlast]; exact hw.1) [32]
      rw [hlast] at this
      exact this
    rw [List.flatMap_append, List.flatMap_singleton, List.append_assoc, List.cons_append,
      rdropWhile_append_of_ne_nil (by rw [hcons]; simp), hcons]

/-! ## A line that starts with a known word -/

/-- The commands whose value is the rest of the line. -/
def TakesRest (command : Str) : Prop :=
  command = str "PUT" ∨ command = str "REPL_PUT" ∨ command = str "RAFT_PUT"

instance (command : Str) : Decidable (TakesRest command) :=
  inferInstanceAs (Decidable (_ ∨ _ ∨ _))

section Command

variable {command : Str}

theorem readWord_trim (hw : IsWord command) {rest : Str}
    (hrest : ∀ c ∈ rest.head?, isSpace c = true) :
    readWord (trim (command ++ rest)) = some (command, rest.rdropWhile isSpace) := by
  rw [trim_word_append hw]
  refine readWord_word hw fun c hc => hrest c ?_
  obtain ⟨u, hu⟩ := List.rdropWhile_prefix isSpace (l := rest)
  rw [← hu, List.head?_append]
  exact Option.mem_def.mpr (by rw [Option.mem_def.mp hc]; rfl)

theorem head_ne_star (hw : IsWord command) (hstar : command.head? ≠ some 42) (rest : Str) :
    (command ++ rest).head? ≠ some 42 := by
  obtain ⟨c, t, rfl⟩ := List.exists_cons_of_ne_nil hw.1
  exact hstar

theorem parseRequest_put (hw : IsWord command) (hstar : command.head? ≠ some 42)
    (hput : TakesRest (upper command)) {rest : Str}
    (hrest : ∀ c ∈ rest.head?, isSpace c = true) :
    parseRequest (command ++ rest) =
      parsePutLine (upper command) (rest.rdropWhile isSpace) := by
  rw [parseRequest, if_neg (head_ne_star hw hstar rest), readWord_trim hw hrest]
  exact if_pos hput

theorem parseRequest_other (hw : IsWord command) (hstar : command.head? ≠ some 42)
    (hput : ¬ TakesRest (upper command)) {rest : Str}
    (hrest : ∀ c ∈ rest.head?, isSpace c = true) :
    parseRequest (command ++ rest) =
      parseCommand (upper (upper command)) (words (rest.rdropWhile isSpace)) .text := by
  rw [parseRequest, if_neg (head_ne_star hw hstar rest), readWord_trim hw hrest]
  exact if_neg hput

/-- A line of words, with any white space behind it. -/
theorem parseRequest_wordLine (hw : IsWord command) (hstar : command.head? ≠ some 42)
    (hput : ¬ TakesRest (upper command)) {args : List Str} (hargs : ∀ w ∈ args, IsWord w)
    {t : Str} (ht : ∀ c ∈ t, isSpace c = true) :
    parseRequest (wordLine command args ++ t) =
      parseCommand (upper (upper command)) args .text := by
  have hrest : ∀ c ∈ (args.flatMap (32 :: ·) ++ t).head?, isSpace c = true := by
    intro c hc
    cases args with
    | nil => exact ht c (List.mem_of_mem_head? hc)
    | cons w args => exact flatMap_blank_head (w :: args) c hc
  rw [wordLine, List.append_assoc, parseRequest_other hw hstar hput hrest,
    rdropWhile_flatMap hargs ht, words_flatMap hargs]

end Command

/-! ## Lines to followers -/

theorem showInt_isWord (n : Int) : IsWord (showInt n) := by
  constructor
  · cases n with
    | ofNat n => exact showNat_ne_nil n
    | negSucc n => exact List.cons_ne_nil _ _
  · intro c hc
    rcases showInt_bytes hc with hd | rfl
    · exact isSpace_of_isDigit hd
    · decide

/-- The values the 32 bit fields of a header can take. -/
def HeaderField (n : Int) : Prop := 0 ≤ n ∧ n < 2 ^ 31

theorem toInt32_of_lt (hlo : -2 ^ 31 ≤ n) (hhi : n < 2 ^ 31) : toInt32 n = n := by
  rw [toInt32, Int.bmod_eq_of_le] <;> omega

theorem HeaderField.parse (h : HeaderField n) : parseNonneg (showInt n) = some n :=
  parseNonneg_showInt h.1 (by have := h.2; omega)

theorem HeaderField.toInt32 (h : HeaderField n) : toInt32 n = n :=
  toInt32_of_lt (by have := h.1; omega) h.2

theorem length_unhexBytes {s v : Str} (h : unhexBytes s = some v) : s.length % 2 = 0 := by
  induction s using unhexBytes.induct generalizing v with
  | case1 => rfl
  | case2 => cases h
  | case3 a b rest ih =>
    simp only [unhexBytes, Option.bind_eq_bind, Option.bind_eq_some_iff] at h
    obtain ⟨_, _, _, _, _, hrest, _⟩ := h
    have := ih hrest
    simp only [List.length_cons]
    omega

/-- The two decoders of hexadecimal are one. -/
theorem decodeHex_eq (encoded : Str) : decodeHex encoded = hexDecode encoded := by
  rw [decodeHex, hexDecode]
  split
  · rfl
  · split
    · next hodd =>
      cases hv : unhexBytes encoded with
      | none => rfl
      | some v => exact absurd (length_unhexBytes hv) hodd
    · rfl

theorem decodeHex_hexEncode (value : Str) : decodeHex (hexEncode value) = some value := by
  rw [decodeHex_eq, hexDecode_hexEncode]

theorem decodeRaftEntriesPayload_text {entries : List RaftLogEntry}
    (h : ∀ e ∈ entries, e.Logged) :
    decodeRaftEntriesPayload (raftLogText entries) = entries := by
  rw [decodeRaftEntriesPayload, loadRaftLog_logged h]
  rfl

theorem parseStoreEntryLine_line {e : StoreEntry} (hlo : -2 ^ 63 ≤ e.expireAtMs)
    (hhi : e.expireAtMs < 2 ^ 63) : parseStoreEntryLine (storeEntryLine e) = some e := by
  have hspace : isSpace 32 = true := by decide
  have hlast : readInt (32 :: showInt e.expireAtMs) = some (e.expireAtMs, []) := by
    have := @readInt_blank [] e.expireAtMs (by simp)
    rwa [List.append_nil] at this
  unfold parseStoreEntryLine storeEntryLine
  rw [readWord_word (hexEncode_isWord e.key) (head_blank hspace _)]
  simp only [Option.bind_eq_bind, Option.bind_some]
  rw [readWord_blank (hexEncode_isWord e.value) (head_blank hspace _)]
  simp only [Option.bind_some, hlast]
  rw [if_pos ⟨hlo, hhi⟩]
  simp only [hexDecode_hexEncode, Option.bind_some]

theorem getlines_snapshotPayloadText (entries : List StoreEntry) :
    getlines 10 (snapshotPayloadText entries) = entries.map storeEntryLine := by
  induction entries with
  | nil => rfl
  | cons e entries ih =>
    have hint : (10 : UInt8) ∉ showInt e.expireAtMs := showInt_notMem (by decide) (by decide)
    have hhex : ∀ v : Str, (10 : UInt8) ∉ hexEncode v := fun v hm =>
      absurd (hexEncode_bytes hm) (by decide)
    rw [snapshotPayloadText, getlines_append_sep (by simp [storeEntryLine, hint, hhex]), ih,
      List.map_cons]

theorem decodeSnapshotPayload_text {entries : List StoreEntry}
    (h : ∀ e ∈ entries, -2 ^ 63 ≤ e.expireAtMs ∧ e.expireAtMs < 2 ^ 63) :
    decodeSnapshotPayload (snapshotPayloadText entries) = some entries := by
  have hne : ((entries.map storeEntryLine).filter fun line => !decide (line = [])) =
      entries.map storeEntryLine := by
    refine List.filter_eq_self.mpr fun line hl => ?_
    obtain ⟨e, -, rfl⟩ := List.mem_map.mp hl
    simp [storeEntryLine]
  rw [decodeSnapshotPayload, getlines_snapshotPayloadText, hne]
  clear hne
  induction entries with
  | nil => rfl
  | cons e entries ih =>
    have he := h e List.mem_cons_self
    rw [List.map_cons, List.mapM_cons, parseStoreEntryLine_line he.1 he.2,
      ih fun x hx => h x (List.mem_cons_of_mem e hx)]
    rfl

theorem blank_end : ∀ c ∈ [(10 : UInt8)], isSpace c = true := by
  intro c hc
  rw [List.mem_singleton.mp hc]
  decide

theorem parseRequest_appendLine (h : ∀ w ∈ args, IsWord w) :
    parseRequest (wordLine (str "RAFT_APPEND_ENTRIES") args ++ [10]) =
      parseAppendEntries args .text := by
  rw [parseRequest_wordLine (by decide) (by decide) (by decide +kernel) h blank_end]
  rfl

theorem parseRequest_installLine (h : ∀ w ∈ args, IsWord w) :
    parseRequest (wordLine (str "RAFT_INSTALL_SNAPSHOT") args ++ [10]) =
      parseInstallSnapshot args .text := by
  rw [parseRequest_wordLine (by decide) (by decide) (by decide +kernel) h blank_end]
  rfl

/-- The batch form, with fields in range. -/
theorem parseAppendEntries_batch {term prevIndex prevTerm commit count : Int}
    (hterm : HeaderField term) (hprev : HeaderField prevIndex) (hprevTerm : HeaderField prevTerm)
    (hcommit : HeaderField commit) (hcount : HeaderField count) (leader payload : Str) :
    parseAppendEntries
        [showInt term, leader, showInt prevIndex, showInt prevTerm, showInt commit,
          showInt count, hexEncode payload] .text =
      { type := .raftAppendEntries, term := term, nodeId := leader, prevLogIndex := prevIndex,
        prevLogTerm := prevTerm, leaderCommit := commit, entryCount := count,
        snapshotPayload := payload, logIndex := 0 } := by
  simp only [parseAppendEntries, hterm.parse, hprev.parse, hprevTerm.parse, hcommit.parse,
    hcount.parse, decodeHex_hexEncode, hterm.toInt32, hprev.toInt32, hprevTerm.toInt32,
    hcommit.toInt32, hcount.toInt32]

section RaftLines

variable {s : KVServer}

theorem appendArgs_words (hid : IsWord s.router.localId)
    (term prevIndex prevTerm commit count : Int) (payload : Str) :
    ∀ w ∈ [showInt term, s.router.localId, showInt prevIndex, showInt prevTerm, showInt commit,
      showInt count, hexEncode payload], IsWord w := by
  simp only [List.mem_cons, List.not_mem_nil, or_false]
  rintro w (rfl | rfl | rfl | rfl | rfl | rfl | rfl)
  all_goals first | exact showInt_isWord _ | exact hid | exact hexEncode_isWord _

theorem parseRequest_appendBatchLine (hid : IsWord s.router.localId)
    {entries : List RaftLogEntry} (hlogged : ∀ e ∈ entries, e.Logged)
    {prevIndex prevTerm leaderCommit : Int}
    (hterm : HeaderField (s.encodeRaftAppendBatch entries prevIndex prevTerm leaderCommit).term)
    (hprev : HeaderField prevIndex) (hprevTerm : HeaderField prevTerm)
    (hcommit : HeaderField leaderCommit) (hcount : HeaderField entries.length) :
    (parseRequest (s.appendBatchLine entries prevIndex prevTerm leaderCommit)).type =
        .raftAppendEntries ∧
      (parseRequest (s.appendBatchLine entries prevIndex prevTerm leaderCommit)).error = [] ∧
      (parseRequest (s.appendBatchLine entries prevIndex prevTerm leaderCommit)).toAppend =
        s.encodeRaftAppendBatch entries prevIndex prevTerm leaderCommit := by
  have hparse : parseRequest (s.appendBatchLine entries prevIndex prevTerm leaderCommit) =
      parseAppendEntries
        [showInt (s.encodeRaftAppendBatch entries prevIndex prevTerm leaderCommit).term,
          s.router.localId, showInt prevIndex, showInt prevTerm, showInt leaderCommit,
          showInt entries.length, hexEncode (raftLogText entries)] .text :=
    parseRequest_appendLine (appendArgs_words hid _ _ _ _ entries.length _)
  rw [hparse, parseAppendEntries_batch hterm hprev hprevTerm hcommit hcount]
  refine ⟨rfl, rfl, ?_⟩
  simp only [Request.toAppend, decodeRaftEntriesPayload_text hlogged]
  rfl

theorem parseRequest_commitLine (hid : IsWord s.router.localId)
    {term leaderCommit prevIndex prevTerm : Int} (hterm : HeaderField term)
    (hcommit : HeaderField leaderCommit) (hprev : HeaderField prevIndex)
    (hprevTerm : HeaderField prevTerm) :
    (parseRequest (s.commitLine term leaderCommit prevIndex prevTerm)).type =
        .raftAppendEntries ∧
      (parseRequest (s.commitLine term leaderCommit prevIndex prevTerm)).error = [] ∧
      (parseRequest (s.commitLine term leaderCommit prevIndex prevTerm)).toAppend =
        s.encodeRaftCommit term leaderCommit prevIndex prevTerm := by
  have hparse : parseRequest (s.commitLine term leaderCommit prevIndex prevTerm) =
      parseAppendEntries
        [showInt term, s.router.localId, showInt prevIndex, showInt prevTerm,
          showInt leaderCommit, showInt 0, hexEncode []] .text :=
    parseRequest_appendLine (appendArgs_words hid _ _ _ _ 0 _)
  rw [hparse, parseAppendEntries_batch hterm hprev hprevTerm hcommit ⟨by decide, by decide⟩]
  exact ⟨rfl, rfl, rfl⟩

theorem parseRequest_snapshotLine (hid : IsWord s.router.localId) {term : Int}
    (hterm : HeaderField term) (hindex : HeaderField s.raftLastIncludedIndex)
    (hlast : HeaderField s.raftLastIncludedTerm) {entries : List StoreEntry}
    (h : ∀ e ∈ entries, -2 ^ 63 ≤ e.expireAtMs ∧ e.expireAtMs < 2 ^ 63) :
    (parseRequest (s.snapshotLine term entries)).type = .raftInstallSnapshot ∧
      (parseRequest (s.snapshotLine term entries)).error = [] ∧
      (parseRequest (s.snapshotLine term entries)).toInstall =
        ⟨term, s.router.localId, s.raftLastIncludedIndex, s.raftLastIncludedTerm,
          some entries⟩ := by
  have hwords : ∀ w ∈ [showInt term, s.router.localId, showInt s.raftLastIncludedIndex,
      showInt s.raftLastIncludedTerm, hexEncode (snapshotPayloadText entries)], IsWord w := by
    simp only [List.mem_cons, List.not_mem_nil, or_false]
    rintro w (rfl | rfl | rfl | rfl | rfl)
    all_goals first | exact showInt_isWord _ | exact hid | exact hexEncode_isWord _
  rw [KVServer.snapshotLine, parseRequest_installLine hwords]
  simp only [parseInstallSnapshot, hterm.parse, hindex.parse, hlast.parse, decodeHex_hexEncode,
    hterm.toInt32, hindex.toInt32, hlast.toInt32, Request.toInstall,
    decodeSnapshotPayload_text h, and_self]

/-- What a start makes of the two files a server has written. -/
theorem loadRaftState_written {t : KVServer} (hlogged : ∀ e ∈ s.raftLog, e.Logged)
    (hlog : t.raftLogFile = s.persistRaft.raftLogFile)
    (hstate : t.raftStateFile = s.persistRaft.raftStateFile) :
    ∃ u, t.loadRaftState = some u ∧ u.raftLog = s.raftLog ∧
      (s.raftIndices.InRange → s.raftLastIncludedIndex ≤ s.raftLastApplied →
        s.raftLastApplied ≤ s.raftCommitIndex → s.raftCommitIndex ≤ s.raftLastLogIndex →
        u.raftIndices = s.raftIndices) := by
  have hload : loadRaftLog (raftLogText s.raftLog) = some s.raftLog := loadRaftLog_logged hlogged
  have hfile : t.raftLogFile = some (raftLogText s.raftLog) := hlog
  rw [KVServer.loadRaftState]
  simp only [hfile, hload]
  refine ⟨_, rfl, rfl, fun hrange happlied hcommit hlastIndex => ?_⟩
  have hread : loadRaftIndices t.raftStateFile = s.raftIndices := by
    rw [hstate]
    exact loadRaftIndices_text hrange
  rw [hread]
  simp only [KVServer.raftIndices, KVServer.raftLastLogIndex, RaftIndices.mk.injEq,
    and_true] at hlastIndex ⊢
  omega

end RaftLines

/-- Every format comes back as it went out: a batch of entries, a commit, a
snapshot, and the two files of the log. -/
theorem raft_formats_read_back (s : KVServer) (hid : IsWord s.router.localId) :
    (∀ entries prevIndex prevTerm leaderCommit, (∀ e ∈ entries, e.Logged) →
      HeaderField (s.encodeRaftAppendBatch entries prevIndex prevTerm leaderCommit).term →
      HeaderField prevIndex → HeaderField prevTerm → HeaderField leaderCommit →
      HeaderField entries.length →
      (parseRequest (s.appendBatchLine entries prevIndex prevTerm leaderCommit)).type =
          .raftAppendEntries ∧
        (parseRequest (s.appendBatchLine entries prevIndex prevTerm leaderCommit)).error = [] ∧
        (parseRequest (s.appendBatchLine entries prevIndex prevTerm leaderCommit)).toAppend =
          s.encodeRaftAppendBatch entries prevIndex prevTerm leaderCommit) ∧
    (∀ term leaderCommit prevIndex prevTerm, HeaderField term → HeaderField leaderCommit →
      HeaderField prevIndex → HeaderField prevTerm →
      (parseRequest (s.commitLine term leaderCommit prevIndex prevTerm)).type =
          .raftAppendEntries ∧
        (parseRequest (s.commitLine term leaderCommit prevIndex prevTerm)).error = [] ∧
        (parseRequest (s.commitLine term leaderCommit prevIndex prevTerm)).toAppend =
          s.encodeRaftCommit term leaderCommit prevIndex prevTerm) ∧
    (∀ term entries, HeaderField term → HeaderField s.raftLastIncludedIndex →
      HeaderField s.raftLastIncludedTerm →
      (∀ e ∈ entries, -2 ^ 63 ≤ e.expireAtMs ∧ e.expireAtMs < 2 ^ 63) →
      (parseRequest (s.snapshotLine term entries)).type = .raftInstallSnapshot ∧
        (parseRequest (s.snapshotLine term entries)).error = [] ∧
        (parseRequest (s.snapshotLine term entries)).toInstall =
          ⟨term, s.router.localId, s.raftLastIncludedIndex, s.raftLastIncludedTerm,
            some entries⟩) ∧
    ∀ t : KVServer, (∀ e ∈ s.raftLog, e.Logged) →
      t.raftLogFile = s.persistRaft.raftLogFile → t.raftStateFile = s.persistRaft.raftStateFile →
      ∃ u, t.loadRaftState = some u ∧ u.raftLog = s.raftLog ∧
        (s.raftIndices.InRange → s.raftLastIncludedIndex ≤ s.raftLastApplied →
          s.raftLastApplied ≤ s.raftCommitIndex → s.raftCommitIndex ≤ s.raftLastLogIndex →
          u.raftIndices = s.raftIndices) :=
  ⟨fun _ _ _ _ hlogged hterm hprev hprevTerm hcommit hcount =>
      parseRequest_appendBatchLine hid hlogged hterm hprev hprevTerm hcommit hcount,
    fun _ _ _ _ hterm hcommit hprev hprevTerm =>
      parseRequest_commitLine hid hterm hcommit hprev hprevTerm,
    fun _ _ hterm hindex hlast h => parseRequest_snapshotLine hid hterm hindex hlast h,
    fun _ hlogged hlog hstate => loadRaftState_written hlogged hlog hstate⟩

theorem raft_formats_read_back_one :
    (parseRequest ((KVServer.fresh { localId := str "n1", localPort := 1, allNodes := [] }
        (.memory {}) 1).appendBatchLine [⟨1, 2, .put, [], str "a b", 3⟩] 0 0 0)).toAppend =
      (KVServer.fresh { localId := str "n1", localPort := 1, allNodes := [] }
        (.memory {}) 1).encodeRaftAppendBatch [⟨1, 2, .put, [], str "a b", 3⟩] 0 0 0 :=
  ((raft_formats_read_back (KVServer.fresh { localId := str "n1", localPort := 1, allNodes := [] }
    (.memory {}) 1) (by decide)).1 [⟨1, 2, .put, [], str "a b", 3⟩] 0 0 0
      (by simp [RaftLogEntry.Logged, CommandType.Logged, RaftLogEntry.InRange, InRange32])
      ⟨by decide, by decide⟩ ⟨by decide, by decide⟩
      ⟨by decide, by decide⟩ ⟨by decide, by decide⟩ ⟨by decide, by decide⟩).2.2

end TinyKV
