import TinyKV.Proofs.CommittedPrefix
import TinyKV.Proofs.RaftCrashPoints

/-!
# Three copies of the end of the log

The log is in memory and in `raft.log`, and the router keeps the index and
the term of its last entry to judge candidates by. Most places that change
the log write the file and tell the router before they return. Two do not.

The batch loop returns out of its middle when an index is not the expected
one. What it has erased or appended until then stays in memory only.

The single-entry form erases a conflicting entry, writes the file, and only
then looks at the command. If that is none of the three it knows, nothing is
appended and the router is not told, unless the same request goes on to
compact the log.

These are the only two ways for the copies to come apart.
-/

namespace TinyKV

open Text

/-- What the router has been told of the last entry. -/
def Router.logInfo (r : Router) : Int × Int := (r.lastLogIndex, r.lastLogTerm)

namespace KVServer

/-- The entries in `raft.log` are the log, and the router knows the last. -/
structure CopiesAgree (s : KVServer) : Prop where
  file : s.disk.entries? = some s.raftLog
  index : s.router.lastLogIndex = s.raftLastLogIndex
  term : s.router.lastLogTerm = s.raftLastLogTerm

/-- Everything `CopiesAgree` looks at. -/
def copies (s : KVServer) :
    List RaftLogEntry × Int × Int × Option Str × Int × Int :=
  (s.raftLog, s.raftLastIncludedIndex, s.raftLastIncludedTerm, s.raftLogFile,
    s.router.lastLogIndex, s.router.lastLogTerm)

/-- The log was just written and the router told. -/
structure Saved (s : KVServer) : Prop where
  file : s.raftLogFile = some (raftLogText s.raftLog)
  index : s.router.lastLogIndex = s.raftLastLogIndex
  term : s.router.lastLogTerm = s.raftLastLogTerm

section Copies

variable {s t : KVServer}

theorem last_congr (hc : t.copies = s.copies) (hi : s.router.lastLogIndex = s.raftLastLogIndex)
    (ht : s.router.lastLogTerm = s.raftLastLogTerm) :
    t.raftLog = s.raftLog ∧ t.raftLogFile = s.raftLogFile ∧
      t.router.lastLogIndex = t.raftLastLogIndex ∧ t.router.lastLogTerm = t.raftLastLogTerm := by
  simp only [copies, Prod.mk.injEq] at hc
  obtain ⟨hlog, hbase, hterm, hfile, hindex, hlast⟩ := hc
  refine ⟨hlog, hfile, ?_, ?_⟩
  · rw [hindex, hi, raftLastLogIndex, raftLastLogIndex, hlog, hbase]
  · rw [hlast, ht, raftLastLogTerm, raftLastLogTerm, hlog, hterm]

theorem CopiesAgree.congr (h : s.CopiesAgree) (hc : t.copies = s.copies) : t.CopiesAgree := by
  obtain ⟨hlog, hfile, hlast⟩ := last_congr hc h.index h.term
  refine ⟨?_, hlast.1, hlast.2⟩
  rw [RaftDisk.entries?, disk, hfile, hlog]
  exact h.file

theorem Saved.congr (h : s.Saved) (hc : t.copies = s.copies) : t.Saved := by
  obtain ⟨hlog, hfile, hlast⟩ := last_congr hc h.index h.term
  exact ⟨by rw [hfile, hlog, h.file], hlast.1, hlast.2⟩

/-- A log of entries that can be read back. -/
theorem Saved.agree (h : s.Saved) (hs : s.Filed) : s.CopiesAgree := by
  refine ⟨?_, h.index, h.term⟩
  rw [RaftDisk.entries?, disk, h.file]
  exact loadRaftLog_logged hs.logged

theorem saved_log (s : KVServer) : s.persistRaftLog.updateLogInfo.Saved := ⟨rfl, rfl, rfl⟩

theorem saved_both (s : KVServer) : s.persistRaft.updateLogInfo.Saved := ⟨rfl, rfl, rfl⟩

/-! ## Applying -/

/-- Applying entries leaves the copies as they are, or ends in a compaction. -/
theorem applyCommitted_copies (now : Int) (s : KVServer) :
    (s.applyCommittedRaftEntries now).copies = s.copies ∨
      s.raftLastIncludedIndex < (s.applyCommittedRaftEntries now).raftLastIncludedIndex ∧
        (s.applyCommittedRaftEntries now).Saved := by
  obtain ⟨store, applied, last, heq | ⟨hlt, term, heq⟩⟩ := applyCommitted_cases now s
  · rw [heq]
    exact Or.inl rfl
  · rw [heq]
    exact Or.inr ⟨hlt, rfl, rfl, rfl⟩

theorem advanceCommit_copies (now : Int) (s : KVServer) (leaderCommit : Int) :
    (s.advanceCommit now leaderCommit).copies = s.copies ∨
      s.raftLastIncludedIndex < (s.advanceCommit now leaderCommit).raftLastIncludedIndex ∧
        (s.advanceCommit now leaderCommit).Saved := by
  unfold advanceCommit
  split
  · exact applyCommitted_copies now { s with raftCommitIndex := _ }
  · exact Or.inl rfl

theorem Saved.advanceCommit (h : s.Saved) (now leaderCommit : Int) :
    (s.advanceCommit now leaderCommit).Saved := by
  rcases advanceCommit_copies now s leaderCommit with hc | ⟨-, hsaved⟩
  · exact h.congr hc
  · exact hsaved

/-- An agreement, kept by applying, as long as the log can be read back. -/
theorem CopiesAgree.advanceCommit (h : s.CopiesAgree) (now leaderCommit : Int)
    (hf : (s.advanceCommit now leaderCommit).Filed) :
    (s.advanceCommit now leaderCommit).CopiesAgree := by
  rcases advanceCommit_copies now s leaderCommit with hc | ⟨-, hsaved⟩
  · exact h.congr hc
  · exact hsaved.agree hf

end Copies

/-! ## One entry -/

/-- The log has an entry at the index of the request, of another term. Term −1
is what an index without an entry answers. -/
def Conflicts (s : KVServer) (request : AppendRequest) : Prop :=
  ∃ entry, s.entryAt request.logIndex = some entry ∧ entry.term ≠ -1 ∧
    entry.term ≠ request.logTerm

section Single

variable {s : KVServer} {request : AppendRequest}

/-- What the check for a conflict finds: an entry, or the end of the
snapshot, behind which nothing is erased. -/
theorem conflicts_or_base (h0 : 0 ≤ s.raftLastIncludedIndex)
    (h : s.raftTermAt request.logIndex ≠ -1 ∧
      s.raftTermAt request.logIndex ≠ request.logTerm) :
    s.Conflicts request ∨ s.eraseFrom request.logIndex = s := by
  by_cases hlt : s.raftLastIncludedIndex < request.logIndex
  · left
    rw [termAt_entryAt h0 hlt] at h
    cases he : s.entryAt request.logIndex with
    | none =>
      rw [he] at h
      exact absurd rfl h.1
    | some entry =>
      rw [he] at h
      exact ⟨entry, he, h.1, h.2⟩
  · right
    have hnone : s.raftLogOffset request.logIndex = none := logOffset_eq_none.mpr (by omega)
    rw [eraseFrom, hnone]

/-- A conflict lies in the log. -/
theorem Conflicts.inside (hc : s.LogContiguous) (h : s.Conflicts request) :
    s.raftLastIncludedIndex < request.logIndex ∧ request.logIndex ≤ s.raftLastLogIndex := by
  obtain ⟨entry, he, -, -⟩ := h
  obtain ⟨j, hj, hget⟩ := entryAt_eq_some.mp he
  have hlt := (List.getElem?_eq_some_iff.mp hget).1
  have hlast := lastLogIndex_eq hc
  omega

theorem conflict_of_conflicts (hf : s.Filed) (h : s.Conflicts request) :
    s.raftTermAt request.logIndex ≠ -1 ∧
      s.raftTermAt request.logIndex ≠ request.logTerm := by
  have hlt := (h.inside hf.log.contiguous).1
  obtain ⟨entry, he, hterm, hne⟩ := h
  rw [termAt_entryAt hf.log.base_nonneg hlt, he]
  exact ⟨hterm, hne⟩

/-- Unless it erases a conflict and then does not know the command, the
single-entry form leaves the copies in agreement. -/
theorem appendSingle_agree (hf : s.Filed) (hs : s.CopiesAgree)
    (h : ¬ (s.Conflicts request ∧ opType request.raftOp = none)) :
    (s.appendSingle request).Saved ∨ (s.appendSingle request).CopiesAgree := by
  refine appendSingle_elim (P := fun u => opType request.raftOp = none ∨
      request.logIndex ≠ u.raftLastLogIndex + 1 → u.CopiesAgree) (fun hconflict => ?_)
    (fun _ => hs) (fun u hu hstay => Or.inr (hu hstay)) (fun u type _ _ _ => Or.inl (saved_log _))
  rcases conflicts_or_base hf.log.base_nonneg hconflict with hc | hbase
  · -- behind the erased entry the new one is next, so it is appended
    rintro (hop | hfar)
    · exact absurd ⟨hc, hop⟩ h
    · refine absurd ?_ hfar
      obtain ⟨hlow, hhigh⟩ := hc.inside hf.log.contiguous
      have herase := eraseFrom_lastLogIndex hf.log.contiguous hlow
      show request.logIndex = (s.eraseFrom request.logIndex).raftLastLogIndex + 1
      omega
  · intro _
    rw [hbase]
    exact ⟨loadRaftLog_logged hf.logged, hs.index, hs.term⟩

/-- If it does, the log ends in front of the erased entry. -/
theorem appendSingle_cut (hf : s.Filed) (hc : s.Conflicts request)
    (hop : opType request.raftOp = none) :
    s.appendSingle request = persistRaft (s.eraseFrom request.logIndex) ∧
      (s.appendSingle request).raftLastLogIndex < s.raftLastLogIndex := by
  have heq : s.appendSingle request = persistRaft (s.eraseFrom request.logIndex) := by
    unfold appendSingle
    simp only [hop, if_pos (conflict_of_conflicts hf hc)]
    split <;> rfl
  refine ⟨heq, ?_⟩
  obtain ⟨hlow, hhigh⟩ := hc.inside hf.log.contiguous
  have herase := eraseFrom_lastLogIndex hf.log.contiguous hlow
  rw [heq]
  show (s.eraseFrom request.logIndex).raftLastLogIndex < s.raftLastLogIndex
  omega

end Single

/-! ## A batch that breaks off -/

/-- The log does not have the entry: it ends before it, or has another term
there. Term −1 is what an index without an entry answers. -/
def Lacks (s : KVServer) (entry : RaftLogEntry) : Prop :=
  s.raftLastLogIndex < entry.index ∨
    s.raftTermAt entry.index ≠ -1 ∧ s.raftTermAt entry.index ≠ entry.term

section Batch

variable {s : KVServer} {entry : RaftLogEntry}

theorem appendOne_of_not_lacks (h : ¬ s.Lacks entry) : s.appendOne entry = s := by
  have hconflict : ¬ (s.raftTermAt entry.index ≠ -1 ∧ s.raftTermAt entry.index ≠ entry.term) :=
    fun hc => h (.inr hc)
  have hnear : ¬ s.raftLastLogIndex < entry.index := fun hlt => h (.inl hlt)
  unfold appendOne
  simp only [if_neg hconflict]
  rw [if_neg (by omega)]

/-- An entry at the next index, or before it, that the log lacks becomes its last. -/
theorem appendOne_of_lacks (h0 : 0 ≤ s.raftLastIncludedIndex) (hc : s.LogContiguous)
    (hlow : s.raftLastIncludedIndex < entry.index) (hhigh : entry.index ≤ s.raftLastLogIndex + 1)
    (h : s.Lacks entry) :
    (s.appendOne entry).entryAt entry.index = some entry ∧
      (s.appendOne entry).raftLastLogIndex = entry.index := by
  have hlast := lastLogIndex_eq hc
  obtain ⟨j, hj⟩ : ∃ j : Nat, entry.index = s.raftLastIncludedIndex + 1 + j :=
    ⟨(entry.index - s.raftLastIncludedIndex - 1).toNat, by omega⟩
  have key : s.appendOne entry = { s with raftLog := s.raftLog.take j ++ [entry] } := by
    rcases h with hend | hconflict
    · rw [appendOne_end h0 hc (by omega), List.take_of_length_le (by omega)]
    · cases hx : s.raftLog[j]? with
      | none =>
        have hlen := List.getElem?_eq_none_iff.mp hx
        exact absurd (termAt_beyond h0 (by omega)) hconflict.1
      | some x =>
        rw [hj, termAt_log h0 hx] at hconflict
        exact appendOne_conflict h0 hc hx hj hconflict.2 hconflict.1
  have hlen : (s.raftLog.take j).length = j := by
    rw [List.length_take]
    omega
  have hc' := (contiguous_appendOne hc entry).1
  have hlast' := lastLogIndex_eq hc'
  rw [key] at hlast' ⊢
  refine ⟨?_, ?_⟩
  · rw [hj]
    refine (entryAt_offset _ j).trans ?_
    show (s.raftLog.take j ++ [entry])[j]? = some entry
    rw [List.getElem?_append_right (by omega), hlen, Nat.sub_self, List.getElem?_cons_zero]
  · simp only [List.length_append, List.length_singleton, hlen] at hlast'
    omega

/-- Behind one entry of a batch the next can follow. -/
theorem appendOne_lastLogIndex (h0 : 0 ≤ s.raftLastIncludedIndex) (hc : s.LogContiguous)
    (entry : RaftLogEntry) (hlow : s.raftLastIncludedIndex < entry.index)
    (hhigh : entry.index ≤ s.raftLastLogIndex + 1) :
    entry.index ≤ (s.appendOne entry).raftLastLogIndex := by
  by_cases h : s.Lacks entry
  · exact Int.le_of_eq (appendOne_of_lacks h0 hc hlow hhigh h).2.symm
  · rw [appendOne_of_not_lacks h]
    exact Int.not_lt.mp fun hlt => h (.inl hlt)

theorem entryAt_appendOne (hc : s.LogContiguous) {i : Int} (hi : i < entry.index) :
    (s.appendOne entry).entryAt i = s.entryAt i := by
  refine (appendOne_elim (P := fun t => t.LogContiguous ∧ t.entryAt i = s.entryAt i)
    (fun _ => ⟨contiguous_eraseFrom hc _, entryAt_eraseFrom hi⟩) ⟨hc, rfl⟩ ?_).2
  rintro t ⟨ht, heq⟩ hnext
  refine ⟨contiguous_pushBack ht hnext, Eq.trans ?_ heq⟩
  have hlast := lastLogIndex_eq ht
  show (if t.raftLastIncludedIndex < i then
      (t.raftLog ++ [entry])[(i - t.raftLastIncludedIndex - 1).toNat]? else none) = t.entryAt i
  unfold entryAt
  split
  · rw [List.getElem?_append_left (by omega)]
  · rfl

/-- Entries that follow each other leave a log behind in which the first one it
lacked is. -/
theorem foldl_appendOne_ne {front : List RaftLogEntry} {prev : Int}
    (h0 : 0 ≤ s.raftLastIncludedIndex) (hc : s.LogContiguous)
    (hlow : s.raftLastIncludedIndex ≤ prev) (hhigh : prev ≤ s.raftLastLogIndex)
    (hf : Contiguous prev front) (h : ∃ x ∈ front, s.Lacks x) :
    (front.foldl appendOne s).raftLog ≠ s.raftLog := by
  -- what is behind an entry of the batch does not touch it
  have keep : ∀ (rest : List RaftLogEntry) (i : Int) (t : KVServer), t.LogContiguous →
      Contiguous i rest → (rest.foldl appendOne t).entryAt i = t.entryAt i ∧
        (rest.foldl appendOne t).raftLastIncludedIndex = t.raftLastIncludedIndex := by
    intro rest i t ht hr
    have hbelow : ∀ x ∈ rest, i < x.index := by
      intro x hx
      obtain ⟨j, hj⟩ := List.getElem?_of_mem hx
      have := hr j x hj
      omega
    clear hr
    induction rest generalizing t with
    | nil => exact ⟨rfl, rfl⟩
    | cons x rest ih =>
      obtain ⟨hx, hb⟩ := contiguous_appendOne ht x
      obtain ⟨hentry, hbase⟩ := ih _ hx fun y hy => hbelow y (List.mem_cons_of_mem _ hy)
      exact ⟨hentry.trans (entryAt_appendOne ht (hbelow x List.mem_cons_self)), hbase.trans hb⟩
  induction front generalizing s prev with
  | nil => simp at h
  | cons x front ih =>
    obtain ⟨hx, hf⟩ := contiguous_cons.mp hf
    rw [List.foldl_cons]
    by_cases hlacks : s.Lacks x
    · obtain ⟨hat, -⟩ := appendOne_of_lacks h0 hc (by omega) (by omega) hlacks
      obtain ⟨hc', hb⟩ := contiguous_appendOne hc x
      obtain ⟨hkept, hbase⟩ := keep front (prev + 1) _ hc' hf
      intro heq
      have hold : s.entryAt x.index = some x := by
        rw [← hat, hx, ← hkept]
        exact (entryAt_congr heq (hbase.trans hb) _).symm
      -- so the log had it
      obtain ⟨j, hj, hget⟩ := entryAt_eq_some.mp hold
      have hlt := (List.getElem?_eq_some_iff.mp hget).1
      have hlast := lastLogIndex_eq hc
      rcases hlacks with hend | hterm
      · omega
      · rw [termAt_entryAt h0 (by omega), hold] at hterm
        exact hterm.2 rfl
    · rw [appendOne_of_not_lacks hlacks]
      have hle : x.index ≤ s.raftLastLogIndex := Int.not_lt.mp fun hlt => hlacks (.inl hlt)
      obtain ⟨y, hy, hylacks⟩ := h
      rcases List.mem_cons.mp hy with rfl | hy
      · exact absurd hylacks hlacks
      · exact ih h0 hc (by omega) (by omega) hf ⟨y, hy, hylacks⟩

theorem foldl_appendOne_eq {front : List RaftLogEntry} (h : ∀ x ∈ front, ¬ s.Lacks x) :
    front.foldl appendOne s = s := by
  induction front with
  | nil => rfl
  | cons x front ih =>
    rw [List.foldl_cons, appendOne_of_not_lacks (h x List.mem_cons_self)]
    exact ih fun y hy => h y (List.mem_cons_of_mem _ hy)

/-- The loop goes on for as long as the indices follow each other. -/
theorem appendLoop_cases (entries : List RaftLogEntry) {prev : Int}
    (h0 : 0 ≤ s.raftLastIncludedIndex) (hc : s.LogContiguous)
    (hlow : s.raftLastIncludedIndex ≤ prev) (hhigh : prev ≤ s.raftLastLogIndex) :
    (s.appendLoop (prev + 1) entries).2 = true ∧ Contiguous prev entries ∨
      ∃ front entry rest, entries = front ++ entry :: rest ∧ Contiguous prev front ∧
        entry.index ≠ prev + 1 + front.length ∧
        s.appendLoop (prev + 1) entries = (front.foldl appendOne s, false) := by
  induction entries generalizing s prev with
  | nil => exact .inl ⟨rfl, contiguous_nil _⟩
  | cons x entries ih =>
    rw [appendLoop]
    by_cases hx : x.index = prev + 1
    · have hlast := appendOne_lastLogIndex h0 hc x (by omega) (by omega)
      obtain ⟨hc', hb⟩ := contiguous_appendOne hc x
      rw [if_neg (not_not.mpr hx), if_neg (by omega)]
      have hlow' : (s.appendOne x).raftLastIncludedIndex ≤ prev + 1 := by omega
      rcases ih (hb ▸ h0) hc' hlow' (by omega) with
        ⟨hok, hrest⟩ | ⟨front, entry, rest, rfl, hf, hi, heq⟩
      · exact .inl ⟨hok, contiguous_cons.mpr ⟨hx, hrest⟩⟩
      · refine .inr ⟨x :: front, entry, rest, rfl, contiguous_cons.mpr ⟨hx, hf⟩, ?_, heq⟩
        rw [List.length_cons]
        omega
    · rw [if_pos hx]
      exact .inr ⟨[], x, entries, rfl, contiguous_nil _, by simpa using hx, rfl⟩

end Batch

/-! ## AppendEntries -/

/-- The batch has an entry that the log lacks, and behind it one that is not at
the next index. -/
structure BreaksOff (s : KVServer) (request : AppendRequest) : Prop
    extends BringsBatch s request where
  broken : ∃ front entry rest, request.entries = front ++ entry :: rest ∧
    Contiguous request.prevLogIndex front ∧
    entry.index ≠ request.prevLogIndex + 1 + front.length ∧ ∃ x ∈ front, s.Lacks x

/-- Where `last_applied` gets to if the log ends in front of the entry of the
request. -/
def cutReach (s : KVServer) (request : AppendRequest) : Int :=
  max (max s.raftLastApplied s.raftLastIncludedIndex)
    (min request.leaderCommit (request.logIndex - 1))

/-- The request commits what is left in front of its entry, and that is enough
for a compaction. -/
def CompactsCut (s : KVServer) (request : AppendRequest) : Prop :=
  s.raftCommitIndex < request.leaderCommit ∧
    s.raftLastIncludedIndex < s.cutReach request ∧
    s.raftSnapshotThreshold ≤ s.cutReach request - s.raftLastIncludedIndex ∧
    s.cutReach request < request.logIndex ∧ 0 ≤ s.raftTermAt (s.cutReach request)

/-- A conflicting entry is erased for one whose command is unknown, and the
log is not compacted by the same request. -/
structure CutsOnly (s : KVServer) (request : AppendRequest) : Prop
    extends PrevMatches s request where
  single : request.entryCount ≤ 0
  conflict : s.Conflicts request
  unknown : opType request.raftOp = none
  stays : ¬ s.CompactsCut request

section Append

variable {s : KVServer} {now : Int} {request : AppendRequest}

/-- Two fronts of one batch that end at a break are the same. -/
theorem broken_unique {prev : Int} {front front' rest rest' : List RaftLogEntry}
    {entry entry' : RaftLogEntry} (h : front ++ entry :: rest = front' ++ entry' :: rest')
    (hf : Contiguous prev front) (hf' : Contiguous prev front')
    (hi : entry.index ≠ prev + 1 + front.length)
    (hi' : entry'.index ≠ prev + 1 + front'.length) : front = front' := by
  induction front generalizing prev front' with
  | nil =>
    cases front' with
    | nil => rfl
    | cons x front' =>
      injection h with hx _
      rw [hx] at hi
      exact absurd (contiguous_cons.mp hf').1 (by simpa using hi)
  | cons x front ih =>
    cases front' with
    | nil =>
      injection h with hx _
      rw [← hx] at hi'
      exact absurd (contiguous_cons.mp hf).1 (by simpa using hi')
    | cons x' front' =>
      injection h with hx h
      rw [List.length_cons] at hi hi'
      rw [hx, ih h (contiguous_cons.mp hf).2 (contiguous_cons.mp hf').2 (by omega) (by omega)]

theorem advanceCommit_base (now : Int) (h : s.LogContiguous) (leaderCommit : Int) :
    (s.advanceCommit now leaderCommit).raftLastIncludedIndex = s.raftLastIncludedIndex ↔
      ¬ (s.raftCommitIndex < leaderCommit ∧
        Compacts { s with raftCommitIndex := min leaderCommit s.raftLastLogIndex }) := by
  unfold advanceCommit
  split
  · next hlt =>
    obtain ⟨store, applied, heq⟩ := applyCommitted_eq now
      (s := { s with raftCommitIndex := min leaderCommit s.raftLastLogIndex }) h
    rw [heq]
    split
    · next hk => exact iff_of_false (Int.ne_of_gt hk.1) (not_not.mpr ⟨hlt, hk⟩)
    · next hk => exact iff_of_true rfl fun hboth => hk hboth.2
  · next hlt => exact iff_of_true rfl fun hboth => hlt hboth.1

/-- Whether the log is compacted behind a cut can be told before it. -/
theorem compactsCut_iff (h0 : 0 ≤ s.raftLastIncludedIndex) (hc : s.LogContiguous)
    (hconflict : s.Conflicts request) {u : KVServer}
    (hu : u = persistRaft (s.eraseFrom request.logIndex)) :
    (u.raftCommitIndex < request.leaderCommit ∧
        Compacts { u with raftCommitIndex := min request.leaderCommit u.raftLastLogIndex }) ↔
      s.CompactsCut request := by
  obtain ⟨hlow, hhigh⟩ := hconflict.inside hc
  have hcut : u.raftLastLogIndex = request.logIndex - 1 := by
    rw [hu]
    refine (eraseFrom_lastLogIndex hc hlow).trans ?_
    omega
  have huc : u.LogContiguous := hu ▸ contiguous_eraseFrom hc request.logIndex
  have hulast := lastLogIndex_eq huc
  obtain ⟨log, hframe⟩ := eraseFrom_frame s request.logIndex
  have hat : ∀ i, i < request.logIndex → u.entryAt i = s.entryAt i := fun i hi =>
    hu ▸ entryAt_eraseFrom hi
  have hfields : u.raftLastIncludedIndex = s.raftLastIncludedIndex ∧
      u.raftLastApplied = s.raftLastApplied ∧ u.raftCommitIndex = s.raftCommitIndex ∧
      u.raftSnapshotThreshold = s.raftSnapshotThreshold := by
    rw [hu, hframe]
    exact ⟨rfl, rfl, rfl, rfl⟩
  obtain ⟨hbase, happlied, hcommit, hthreshold⟩ := hfields
  have hreach : reach { u with raftCommitIndex := min request.leaderCommit u.raftLastLogIndex } =
      s.cutReach request := by
    show max (max u.raftLastApplied u.raftLastIncludedIndex)
      (min (min request.leaderCommit u.raftLastLogIndex) u.raftLastLogIndex) = _
    rw [happlied, hbase, hcut, cutReach]
    omega
  -- behind the cut there is no term
  have hterm : s.raftLastIncludedIndex < s.cutReach request →
      (0 ≤ u.raftTermAt (s.cutReach request) ↔
        s.cutReach request < request.logIndex ∧ 0 ≤ s.raftTermAt (s.cutReach request)) := by
    intro hpos
    by_cases hin : s.cutReach request < request.logIndex
    · rw [termAt_entryAt (hbase ▸ h0) (hbase ▸ hpos), hat _ hin, ← termAt_entryAt h0 hpos,
        and_iff_right hin]
    · rw [termAt_beyond (hbase ▸ h0) (by omega)]
      exact iff_of_false (by decide) fun hboth => hin hboth.1
  rw [Compacts, CompactsCut, hreach, hcommit]
  show _ ∧ u.raftLastIncludedIndex < _ ∧ u.raftSnapshotThreshold ≤ _ - u.raftLastIncludedIndex ∧
    0 ≤ u.raftTermAt _ ↔ _
  rw [hbase, hthreshold]
  refine and_congr_right fun _ => and_congr_right fun hpos => and_congr_right fun _ => ?_
  exact hterm hpos

theorem agree_of_saved_or {u : KVServer} (h : u.Saved ∨ u.CopiesAgree) {leaderCommit : Int}
    (hf : (u.advanceCommit now leaderCommit).Filed) :
    (u.advanceCommit now leaderCommit).CopiesAgree := by
  rcases h with h | h
  · exact (h.advanceCommit now leaderCommit).agree hf
  · exact h.advanceCommit now leaderCommit hf

/-- A batch whose previous entry matches. -/
theorem batch_agree_iff (hf : s.Filed) (hs : s.CopiesAgree) (hbatch : 0 < request.entryCount)
    (hprev : s.PrevMatches request) (ht : (s.appendLocked now request).1.Filed) :
    (s.appendLocked now request).1.CopiesAgree ↔ ¬ s.BreaksOff request := by
  have hterm : ¬ (0 < request.prevLogIndex ∧
      s.raftTermAt request.prevLogIndex ≠ request.prevLogTerm) := fun h => h.2 (hprev.term h.1)
  have hbase : ¬ request.prevLogIndex < s.raftLastIncludedIndex := Int.not_lt.mpr hprev.base
  have hlast : ¬ s.raftLastLogIndex < request.prevLogIndex := Int.not_lt.mpr hprev.last
  unfold appendLocked at ht ⊢
  rw [if_neg hbase, if_neg hlast, if_neg hterm, if_pos hbatch] at ht ⊢
  split
  · next hcount => exact iff_of_true hs fun h => hcount h.count
  · next hcount =>
    rw [if_neg hcount] at ht
    rcases appendLoop_cases request.entries hf.log.base_nonneg hf.log.contiguous hprev.base
      hprev.last with ⟨hok, hall⟩ | ⟨front, entry, rest, heq, hfront, hi, hloop⟩
    · rcases hloop : s.appendLoop (request.prevLogIndex + 1) request.entries with ⟨u, ok⟩
      rw [hloop] at ht hok
      subst hok
      refine iff_of_true (agree_of_saved_or (Or.inl (saved_log u)) ht) fun h => ?_
      obtain ⟨front, entry, rest, heq, -, hi, -⟩ := h.broken
      refine hi (hall front.length entry ?_)
      rw [heq, List.getElem?_append_right (Nat.le_refl _), Nat.sub_self,
        List.getElem?_cons_zero]
    · rw [hloop] at ht ⊢
      have hsame : ∀ {α : Type} (f : KVServer → α),
          (∀ (t : KVServer) log, f { t with raftLog := log } = f t) →
          f (front.foldl appendOne s) = f s := by
        intro α f hkeeps
        have := appendLoop_same hkeeps s (request.prevLogIndex + 1) request.entries
        rwa [hloop] at this
      have hdisk : (front.foldl appendOne s).disk = s.disk := hsame disk fun _ _ => rfl
      constructor
      · intro hagree hbreaks
        obtain ⟨front', entry', rest', heq', hfront', hi', hlacks⟩ := hbreaks.broken
        obtain rfl := broken_unique (heq'.symm.trans heq) hfront' hfront hi' hi
        refine foldl_appendOne_ne hf.log.base_nonneg hf.log.contiguous hprev.base hprev.last
          hfront hlacks (Option.some.inj ?_)
        rw [← hs.file, ← hdisk]
        exact hagree.file.symm
      · intro hnot
        have hnone : ∀ x ∈ front, ¬ s.Lacks x := fun x hx hlacks =>
          hnot ⟨⟨hprev, hbatch, not_not.mp hcount⟩, front, entry, rest, heq, hfront, hi, x, hx,
            hlacks⟩
        show (front.foldl appendOne s).CopiesAgree
        rw [foldl_appendOne_eq hnone]
        exact hs

/-- A request without a batch whose previous entry matches. -/
theorem single_agree_iff (hf : s.Filed) (hs : s.CopiesAgree) (hsingle : ¬ 0 < request.entryCount)
    (hprev : s.PrevMatches request) (ht : (s.appendLocked now request).1.Filed) :
    (s.appendLocked now request).1.CopiesAgree ↔ ¬ s.CutsOnly request := by
  have hterm : ¬ (0 < request.prevLogIndex ∧
      s.raftTermAt request.prevLogIndex ≠ request.prevLogTerm) := fun h => h.2 (hprev.term h.1)
  have hbase : ¬ request.prevLogIndex < s.raftLastIncludedIndex := Int.not_lt.mpr hprev.base
  have hlast : ¬ s.raftLastLogIndex < request.prevLogIndex := Int.not_lt.mpr hprev.last
  have inside : s.Conflicts request → 0 < request.logIndex ∧
      ¬ s.raftLastLogIndex + 1 < request.logIndex := by
    intro h
    have h0 := hf.log.base_nonneg
    have := h.inside hf.log.contiguous
    omega
  unfold appendLocked at ht ⊢
  rw [if_neg hbase, if_neg hlast, if_neg hterm, if_neg hsingle] at ht ⊢
  split
  · next hpos =>
    rw [if_pos hpos] at ht
    split
    · next hfar => exact iff_of_true hs fun h => (inside h.conflict).2 hfar
    · next hnear =>
      rw [if_neg hnear] at ht
      by_cases hcut : s.Conflicts request ∧ opType request.raftOp = none
      · obtain ⟨heq, hlt⟩ := appendSingle_cut hf hcut.1 hcut.2
        have hrouter : (s.appendSingle request).router = s.router := by
          rw [heq]
          exact eraseFrom_same (f := router) (fun _ _ => rfl) s _
        have hcontiguous := (contiguous_appendSingle hf.log.contiguous request).1
        have hmoves := (advanceCommit_base now hcontiguous
          request.leaderCommit).trans (not_congr (compactsCut_iff hf.log.base_nonneg
            hf.log.contiguous hcut.1 heq))
        rcases advanceCommit_copies now (s.appendSingle request) request.leaderCommit with
          hc | ⟨hmoved, hsaved⟩
        · -- the router still has the index of an entry behind the end of the log
          refine iff_of_false (fun hagree => ?_) (not_not.mpr ⟨hprev, Int.not_lt.mp hsingle,
            hcut.1, hcut.2, hmoves.mp (congrArg (fun p => p.2.1) hc)⟩)
          have hstale : (s.appendSingle request).CopiesAgree := hagree.congr hc.symm
          have hindex := hstale.index
          rw [hrouter, hs.index] at hindex
          omega
        · refine iff_of_true (hsaved.agree ht) fun h => ?_
          have hstays := hmoves.mpr h.stays
          omega
      · refine iff_of_true (agree_of_saved_or (appendSingle_agree hf hs hcut) ht) ?_
        exact fun h => hcut ⟨h.conflict, h.unknown⟩
  · next hpos =>
    rw [if_neg hpos] at ht
    refine iff_of_true (agree_of_saved_or (Or.inr hs) ht) ?_
    exact fun h => hpos (inside h.conflict).1

/-- The two ways to come apart, given that the copies agreed. -/
theorem appendLocked_agree_iff (hf : s.Filed) (hs : s.CopiesAgree)
    (ht : (s.appendLocked now request).1.Filed) :
    (s.appendLocked now request).1.CopiesAgree ↔
      ¬ s.BreaksOff request ∧ ¬ s.CutsOnly request := by
  by_cases hprev : s.PrevMatches request
  · by_cases hbatch : 0 < request.entryCount
    · rw [batch_agree_iff hf hs hbatch hprev ht]
      exact (and_iff_left fun h => absurd h.single (by omega)).symm
    · rw [single_agree_iff hf hs hbatch hprev ht]
      exact (and_iff_right fun h => absurd h.batch hbatch).symm
  · refine iff_of_true ?_ ⟨fun h => hprev h.toPrevMatches, fun h => hprev h.toPrevMatches⟩
    unfold appendLocked at ht ⊢
    split
    · exact hs
    · next hbase =>
      rw [if_neg hbase] at ht
      split
      · exact hs
      · next hlast =>
        rw [if_neg hlast] at ht
        split
        · next hterm =>
          rw [if_pos hterm] at ht
          exact (saved_both _).agree ht
        · next hterm =>
          refine absurd ⟨Int.not_lt.mp hbase, Int.not_lt.mp hlast, fun hpos => ?_⟩ hprev
          by_contra hne
          exact hterm ⟨hpos, hne⟩

end Append

/-! ## Runs -/

section Router

variable {r : Router}

theorem castVote_logInfo (candidateId : Str) (index term : Int) :
    (r.castVote candidateId index term).1.logInfo = r.logInfo := by
  unfold Router.castVote
  split <;> rfl

theorem handleRequestVote_logInfo (term : Int) (candidateId : Str) (index lastTerm : Int) :
    (r.handleRequestVote term candidateId index lastTerm).1.logInfo = r.logInfo := by
  unfold Router.handleRequestVote
  split
  · rfl
  · split
    · exact castVote_logInfo (r := r.newTerm term) candidateId index lastTerm
    · exact castVote_logInfo candidateId index lastTerm

theorem handleAppendEntries_logInfo (term : Int) (leaderId : Str) :
    (r.handleAppendEntries term leaderId).1.logInfo = r.logInfo := by
  unfold Router.handleAppendEntries
  split
  · rfl
  · unfold Router.acceptTerm
    split <;> rfl

theorem stepDown_logInfo (term : Int) : (r.stepDown term).logInfo = r.logInfo := by
  unfold Router.stepDown
  split <;> rfl

theorem winElection_logInfo (term : Int) : (r.winElection term).logInfo = r.logInfo := by
  unfold Router.winElection
  split <;> rfl

end Router

section Events

variable {s t : KVServer}

theorem CopiesAgree.router (h : s.CopiesAgree) {r : Router}
    (hr : r.logInfo = s.router.logInfo) : ({ s with router := r } : KVServer).CopiesAgree :=
  ⟨h.file, (congrArg Prod.fst hr).trans h.index, (congrArg Prod.snd hr).trans h.term⟩

theorem CopiesAgree.checkTerm (h : s.CopiesAgree) (term : Int) (leaderId : Str) :
    (s.checkTerm term leaderId).1.CopiesAgree :=
  h.router (handleAppendEntries_logInfo term leaderId)

theorem Filed.checkTerm (h : s.Filed) {term : Int} (ht : InRange32 term) (leaderId : Str) :
    (s.checkTerm term leaderId).1.Filed := by
  have hf : Follows (fun _ => True) 0 s _ _ := follows_checkTerm 0 s ht leaderId
  exact (hf.always (fun _ _ hq => hq.filed) (fun _ _ hs ha => hs.exec ha) h).1

/-- An AppendEntries whose term is not behind does neither. The reply to term
zero reads as a refusal. -/
def KeepsCopies (s : KVServer) (e : ParsedEvent) (_ : KVServer) : Prop :=
  match e.1.1 with
  | .raft (.append request) =>
    s.router.currentTerm ≤ request.term → request.term ≠ 0 →
      ¬ s.BreaksOff request ∧ ¬ s.CutsOnly request
  | _ => True

/-- The router is in none of the conditions. -/
theorem keepsCopies_router (s : KVServer) (r : Router) (request : AppendRequest) :
    ¬ BreaksOff { s with router := r } request ∧ ¬ CutsOnly { s with router := r } request ↔
      ¬ s.BreaksOff request ∧ ¬ s.CutsOnly request := by
  refine and_congr (not_congr ⟨fun h => ?_, fun h => ?_⟩) (not_congr ⟨fun h => ?_, fun h => ?_⟩)
  · exact ⟨⟨⟨h.base, h.last, h.term⟩, h.batch, h.count⟩, h.broken⟩
  · exact ⟨⟨⟨h.base, h.last, h.term⟩, h.batch, h.count⟩, h.broken⟩
  · exact ⟨⟨h.base, h.last, h.term⟩, h.single, h.conflict, h.unknown, h.stays⟩
  · exact ⟨⟨h.base, h.last, h.term⟩, h.single, h.conflict, h.unknown, h.stays⟩

theorem handleAppend_agree_iff (hf : s.Filed) (hs : s.CopiesAgree) {now : Int}
    {request : AppendRequest} (hterm : InRange32 request.term)
    (ht : (s.handleRaftAppendEntries now request).1.Filed) :
    (s.handleRaftAppendEntries now request).1.CopiesAgree ↔
      (s.router.currentTerm ≤ request.term → request.term ≠ 0 →
        ¬ s.BreaksOff request ∧ ¬ s.CutsOnly request) := by
  have hfu := hf.checkTerm hterm request.nodeId
  have hsu := hs.checkTerm request.term request.nodeId
  unfold handleRaftAppendEntries at ht ⊢
  by_cases hold : request.term < s.router.currentTerm
  · rw [checkTerm_stale hold]
    exact iff_of_true hs fun hle => absurd hle (Int.not_le.mpr hold)
  · rw [checkTerm_fresh (Int.not_lt.mp hold)] at ht hfu hsu ⊢
    rw [forall_prop_of_true (Int.not_lt.mp hold)]
    by_cases hzero : request.term = 0
    · rw [decide_eq_false (not_not.mpr hzero)] at hsu ⊢
      exact iff_of_true hsu fun hne => absurd hzero hne
    · rw [decide_eq_true hzero] at ht hfu hsu ⊢
      rw [forall_prop_of_true hzero]
      exact (appendLocked_agree_iff hfu hsu ht).trans (keepsCopies_router s _ request)

theorem handleInstall_agree (hs : s.CopiesAgree) {now : Int} {request : InstallRequest}
    (ht : (s.handleInstallSnapshot now request).1.Filed) :
    (s.handleInstallSnapshot now request).1.CopiesAgree := by
  refine handleInstall_elim (P := fun t => t.Filed → t.CopiesAgree)
    (fun store _ => (hs.checkTerm request.term request.nodeId).congr rfl) (fun store _ hf => ?_) ht
  exact Saved.agree ⟨rfl, rfl, rfl⟩ hf

theorem handleWrite_agree (hs : s.CopiesAgree) {now : Int} {request : WriteRequest}
    {followers : Replication} (ht : (s.handleWrite now request followers).Filed) :
    (s.handleWrite now request followers).CopiesAgree := by
  have hsaved : ∀ (store : Store) (commit : Int), Saved { (s.appendWrite request).1 with
      store := store, raftCommitIndex := commit } := fun _ _ => ⟨rfl, rfl, rfl⟩
  refine handleWrite_elim (P := fun t => t.Filed → t.CopiesAgree) (fun _ => hs)
    (fun store => (hsaved store _).agree) (fun store _ hf => ?_) ht
  rcases applyCommitted_copies now { (s.appendWrite request).1 with
    store := store, raftCommitIndex := s.raftLastLogIndex + 1 } with hc | ⟨-, hc⟩
  · exact ((hsaved store _).congr hc).agree hf
  · exact hc.agree hf

theorem restart_agree (hs : s.Filed) {now : Int} (h : s.restart now = some t) (ht : t.Filed) :
    t.CopiesAgree := by
  obtain ⟨store, u, -, hu, rfl⟩ := restart_eq_some h
  obtain ⟨log, hlog⟩ := hs.loads
  obtain ⟨u', hu', hul, -, hud⟩ := loadRaftState_some
    (s := { s with store := store, router := s.router.restart }) hlog
  obtain rfl : u = u' := Option.some.inj (hu.symm.trans hu')
  have hagree : u.updateLogInfo.CopiesAgree := by
    refine ⟨?_, rfl, rfl⟩
    show u.disk.entries? = some u.raftLog
    rw [hud, hul]
    exact hlog
  rcases applyCommitted_copies now u.updateLogInfo with hc | ⟨-, hc⟩
  · exact hagree.congr hc
  · exact hc.agree ht

/-- No counter is about to leave its `int`. -/
def EventBounded (s : KVServer) (e : ParsedEvent) (_ : KVServer) : Prop :=
  s.Bounded ∧ e.1.1.Bounded

theorem Filed.handle (h : s.Filed) (hb : s.Bounded) (e : ParsedEvent)
    (hs : s.handle e.1 = some t) : t.Filed := by
  have hok : e.1.1.Votes fun _ => True := by
    unfold NodeEvent.Votes
    split <;> trivial
  exact (h.operations hb e hok).2 t hs

theorem handle_agree_iff (hf : s.Filed) (hs : s.CopiesAgree) (hb : s.Bounded) (e : ParsedEvent)
    (h : s.handle e.1 = some t) : t.CopiesAgree ↔ KeepsCopies s e t := by
  have ht : t.Filed := hf.handle hb e h
  obtain ⟨⟨e, now⟩, he⟩ := e
  cases e with
  | raft request =>
    injection h with h
    subst h
    cases request with
    | requestVote term candidateId lastLogIndex lastLogTerm =>
      exact iff_of_true (hs.router (handleRequestVote_logInfo _ _ _ _)) trivial
    | heartbeat term leaderId =>
      exact iff_of_true (hs.router (handleAppendEntries_logInfo _ _)) trivial
    | append request => exact handleAppend_agree_iff hf hs (he.1 request.term (by simp)) ht
    | install request => exact iff_of_true (handleInstall_agree hs ht) trivial
  | write request followers =>
    injection h with h
    subst h
    exact iff_of_true (handleWrite_agree hs ht) trivial
  | election won =>
    injection h with h
    subst h
    refine iff_of_true ?_ trivial
    cases won with
    | false => exact hs.router rfl
    | true => exact hs.router (winElection_logInfo (r := s.router.beginElection) _)
  | newerTerm term =>
    injection h with h
    subst h
    exact iff_of_true (hs.router (stepDown_logInfo term)) trivial
  | restart => exact iff_of_true (restart_agree hf (startAgain_eq now h).2 ht) trivial

end Events

end KVServer

open KVServer

/-- The copies agree after every request of a run exactly if none of its
AppendEntries breaks off in a batch it has begun, or erases a conflict for a
command it does not know. -/
theorem copies_agree_iff (router : Router) (store : Store) (threshold : Int)
    (es : List ParsedEvent)
    (hes : Runs.Always (fun s (e : ParsedEvent) => s.handle e.1) EventBounded
      (fresh router.restart store threshold) es) :
    Runs.Always (fun s (e : ParsedEvent) => s.handle e.1) (fun _ _ t => t.CopiesAgree)
        (fresh router.restart store threshold) es ↔
      Runs.Always (fun s (e : ParsedEvent) => s.handle e.1) KeepsCopies
        (fresh router.restart store threshold) es := by
  have hfresh : (fresh router.restart store threshold).Filed ∧
      (fresh router.restart store threshold).CopiesAgree :=
    ⟨filed_fresh router store threshold, rfl, rfl, rfl⟩
  refine Runs.always_iff_of_always (I := fun s => s.Filed ∧ s.CopiesAgree) (C := EventBounded)
    ?_ ?_ hfresh hes
  · intro s e t h hs hb
    exact handle_agree_iff h.1 h.2 hb.1 e hs
  · intro s e t h hs hb hagree
    exact ⟨h.1.handle hb.1 e hs, hagree⟩

section Example

/-- Two entries, the second at index three. -/
def gappedPayload : Str :=
  raftLogText [⟨1, 1, .put, bytes ['k'], bytes ['v'], 0⟩,
    ⟨3, 1, .put, bytes ['k'], bytes ['w'], 0⟩]

def gappedBatch : AppendRequest where
  term := 1
  nodeId := bytes ['b']
  entryCount := 2
  entries := decodeRaftEntriesPayload gappedPayload
  logIndex := 0

/-- The first of them alone. -/
def firstPayload : Str := raftLogText [⟨1, 1, .put, bytes ['k'], bytes ['v'], 0⟩]

def firstBatch : AppendRequest where
  term := 1
  nodeId := bytes ['b']
  entryCount := 1
  entries := decodeRaftEntriesPayload firstPayload
  logIndex := 0

def gappedEvent : ParsedEvent :=
  ⟨(.raft (.append gappedBatch), 0), by unfold AppendRequest.InRange; decide, gappedPayload, rfl⟩

def firstEvent : ParsedEvent :=
  ⟨(.raft (.append firstBatch), 0), by unfold AppendRequest.InRange; decide, firstPayload, rfl⟩

/-- A batch of one entry cannot break off. -/
theorem first_batch_saved :
    Runs.Always (fun s (e : ParsedEvent) => s.handle e.1) (fun _ _ t => t.CopiesAgree)
      (fresh threeNodes.restart (.memory {}) 1000) [firstEvent] := by
  have hbounded : Runs.Always (fun s (e : ParsedEvent) => s.handle e.1) EventBounded
      (fresh threeNodes.restart (.memory {}) 1000) [firstEvent] :=
    (Runs.always_cons rfl []).mpr
      ⟨⟨by decide, show AppendRequest.Bounded firstBatch by decide⟩, trivial⟩
  refine (copies_agree_iff threeNodes (.memory {}) 1000 [firstEvent] hbounded).mpr
    ((Runs.always_cons rfl []).mpr
      ⟨fun _ _ => ⟨fun h => ?_, fun h => absurd h.single (by decide)⟩, trivial⟩)
  obtain ⟨front, entry, rest, heq, -, -, x, hx, -⟩ := h.broken
  have hlength : 1 = (front ++ entry :: rest).length := congrArg List.length heq
  rw [List.length_append, List.length_cons] at hlength
  have hpos := List.length_pos_of_mem hx
  omega

/-- The batch is refused at its second entry, and the first is in memory only. -/
theorem refused_batch_not_saved :
    ¬ ∀ (router : Router) (store : Store) (threshold : Int) (es : List ParsedEvent),
      Runs.Always (fun s (e : ParsedEvent) => s.handle e.1) (fun _ _ t => t.CopiesAgree)
        (fresh router.restart store threshold) es := by
  intro h
  have hall := h threeNodes (.memory {}) 1000 [gappedEvent]
  have hagree := ((Runs.always_cons rfl []).mp hall).1
  have hindex := hagree.index
  exact absurd hindex (by decide)

end Example

end TinyKV
