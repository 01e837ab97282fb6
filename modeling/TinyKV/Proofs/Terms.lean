import TinyKV.Lib.Runs
import TinyKV.Model.Terms
import TinyKV.Proofs.Elections
import TinyKV.Proofs.Lines
import TinyKV.Proofs.Reservations

/-!
# Terms and how they go backwards

Every comparison in the router keeps the larger of two terms, so requests and
replies never lower it, whatever they carry. Two steps can. An election that
starts from the largest `int` arrives at the smallest. And a restart reads the
vote back as words of the file: behind the first word of a vote with blanks in
it, the loader goes on reading keys, and the vote `x term 0` sets the term to
zero. A request in RESP may name such a candidate.

A restart that finds no vote or a vote of one word keeps the term, and an
election keeps it exactly if it is not the largest.
-/

namespace TinyKV

open Text Runs

/-! ## The router -/

/-- The term is an `int`, and the file is either what the router has written
last or what it has started from. -/
structure Router.Filed (r : Router) : Prop where
  inRange : InRange32 r.currentTerm
  file : r.raftMetaFile = some (raftMetaText r.currentTerm r.votedFor) ∨
    loadRaftMeta r.raftMetaFile = (r.currentTerm, r.votedFor)

/-- Nothing of the sort goes backwards: the term stays or grows, on file too. -/
structure Router.Advances (r r' : Router) : Prop where
  le : r.currentTerm ≤ r'.currentTerm
  filed : r'.Filed

namespace Router

variable {r r' : Router} {term : Int}

theorem Filed.congr (h : r.Filed) (hc : r'.core = r.core) : r'.Filed := by
  obtain ⟨-, -, -, hterm, hvote, -, hfile⟩ := fields_of_core hc
  exact ⟨hterm ▸ h.inRange, by rw [hfile, hterm, hvote]; exact h.file⟩

theorem Filed.persist (h : InRange32 r.currentTerm) : r.persistRaftMeta.Filed :=
  ⟨h, Or.inl rfl⟩

theorem Filed.refl (h : r.Filed) : r.Advances r := ⟨le_rfl, h⟩

theorem Advances.congr {r'' : Router} (h : r.Advances r') (hc : r''.core = r'.core) :
    r.Advances r'' := by
  obtain ⟨-, -, -, hterm, -⟩ := fields_of_core hc
  exact ⟨by rw [hterm]; exact h.le, h.filed.congr hc⟩

/-- The role and the leader are not on file. -/
theorem Filed.setLeader (h : r.Filed) (role : RaftRole) (leaderId : Str) :
    r.Advances { r with role := role, leaderId := leaderId } :=
  ⟨le_rfl, h.inRange, h.file⟩

theorem newTerm_advances (hterm : InRange32 term) (h : r.currentTerm ≤ term) :
    r.Advances (r.newTerm term) := ⟨h, Filed.persist hterm⟩

theorem Advances.trans {r'' : Router} (h : r.Advances r') (h' : r'.Advances r'') :
    r.Advances r'' := ⟨h.le.trans h'.le, h'.filed⟩

theorem stepDown_advances (hr : r.Filed) (hterm : InRange32 term) :
    r.Advances (r.stepDown term) := by
  rw [stepDown]
  split
  · next hlt => exact newTerm_advances hterm hlt.le
  · exact hr.refl

theorem castVote_advances (hr : r.Filed) (candidateId : Str) (lastLogIndex lastLogTerm : Int) :
    r.Advances (r.castVote candidateId lastLogIndex lastLogTerm).1 := by
  rw [castVote]
  split
  · exact ⟨le_rfl, Filed.persist hr.inRange⟩
  · exact hr.refl

theorem handleRequestVote_advances (hr : r.Filed) (hterm : InRange32 term)
    (candidateId : Str) (lastLogIndex lastLogTerm : Int) :
    r.Advances (r.handleRequestVote term candidateId lastLogIndex lastLogTerm).1 := by
  rw [handleRequestVote]
  split
  · exact hr.refl
  · split
    · next hlt =>
      have hnew := newTerm_advances hterm hlt.le
      exact hnew.trans (castVote_advances hnew.filed _ _ _)
    · exact castVote_advances hr _ _ _

theorem handleAppendEntries_advances (hr : r.Filed) (hterm : InRange32 term)
    (leaderId : Str) : r.Advances (r.handleAppendEntries term leaderId).1 := by
  rw [handleAppendEntries]
  split
  · exact hr.refl
  · show r.Advances (r.acceptTerm term leaderId)
    rw [acceptTerm]
    split
    · next hlt =>
      have hnew : r.Advances (persistRaftMeta { r with currentTerm := term, votedFor := [] }) :=
        ⟨hlt.le, Filed.persist hterm⟩
      exact hnew.trans (hnew.filed.setLeader _ _)
    · exact hr.setLeader _ _

theorem winElection_advances (hr : r.Filed) (term : Int) : r.Advances (r.winElection term) := by
  rw [winElection]
  split
  · exact hr.setLeader _ _
  · exact hr.refl

theorem beginHeartbeats_advances (hr : r.Filed) :
    r.Advances (r.beginHeartbeats.getD r) := by
  rw [beginHeartbeats]
  split
  · exact hr.setLeader _ _
  · exact hr.refl

/-- The one addition: it keeps the term unless that is the largest. -/
theorem toInt32_succ {term : Int} (h : InRange32 term) :
    term ≤ toInt32 (term + 1) ↔ term ≠ 2147483647 := by
  obtain ⟨hlow, hhigh⟩ := h
  constructor
  · rintro hle rfl
    exact absurd hle (by decide)
  · intro hne
    rw [toInt32_of_lt (by omega) (by omega)]
    omega

/-- What a restart makes of the term, unless there are blanks in the vote. -/
theorem Filed.loaded (h : r.Filed) (hvote : r.votedFor = [] ∨ IsWord r.votedFor) :
    (loadRaftMeta r.raftMetaFile).1 = r.currentTerm := by
  rcases h.file with hfile | hfile
  · rw [hfile, loadRaftMeta_text h.inRange hvote]
  · rw [hfile]

end Router

/-! ## Requests -/

/-- Whatever number a header has, it is an `int` once it is parsed. -/
theorem parseRequest_term (line : Str) : InRange32 (parseRequest line).term := by
  have hzero : InRange32 0 := ⟨by decide, by decide⟩
  refine parseRequest_holds (P := fun r => InRange32 r.term) (fun _ _ => hzero) ?_ line
  exact fun args protocol => parseArgs_holds (P := fun r => InRange32 r.term) (fun _ => hzero)
    (fun _ _ => hzero) (fun _ _ _ _ _ => hzero) fun _ _ hterm _ => hterm

namespace KVServer

variable {s : KVServer}

theorem handleRaftAppendEntries_core (now : Int) (s : KVServer) (request : AppendRequest) :
    (s.handleRaftAppendEntries now request).1.router.core =
      (s.router.handleAppendEntries request.term request.nodeId).1.core :=
  handleAppend_elim (P := fun t => t.router.core = _) rfl fun _ => appendLocked_core now _ request

theorem handleInstallSnapshot_core (now : Int) (s : KVServer) (request : InstallRequest) :
    (s.handleInstallSnapshot now request).1.router.core =
      (s.router.handleAppendEntries request.term request.nodeId).1.core :=
  handleInstall_elim (P := fun t => t.router.core = _) (fun _ => rfl) fun _ _ => rfl

theorem replicateRaftWrite_core (now : Int) (s : KVServer) (request : WriteRequest)
    (followers : Replication) :
    (s.replicateRaftWrite now request followers).1.router.core = s.router.core :=
  replicateRaftWrite_elim (P := fun t => t.router.core = s.router.core) (fun _ => rfl)
    fun _ _ => applyCommitted_core now _

theorem processRequest_advances (hs : s.router.Filed) (now : Int) (env : LineEnv)
    {r : Request} (hterm : InRange32 r.term) :
    s.router.Advances (s.processRequest now env r).router := by
  rw [processRequest]
  split
  · exact hs.refl
  · split
    · exact Router.handleRequestVote_advances hs hterm _ _ _
    · split
      · exact (Router.handleAppendEntries_advances hs hterm _).congr
          (handleRaftAppendEntries_core now s r.toAppend)
      · exact Router.handleAppendEntries_advances hs hterm _
    · exact (Router.handleAppendEntries_advances hs hterm _).congr
        (handleInstallSnapshot_core now s r.toInstall)
    · exact hs.refl
    · exact hs.refl
    · split
      · exact hs.refl
      · split
        · exact hs.refl.congr (replicateRaftWrite_core now s _ _)
        · split
          · exact hs.refl
          · exact hs.refl

/-! ## Runs -/

/-- The process has read its term and its vote from `raft.meta`. -/
def Started (s : KVServer) : Prop :=
  (s.router.currentTerm, s.router.votedFor) = loadRaftMeta s.router.raftMetaFile

/-- A node that is restarted has no vote, or has voted for a name of one word. -/
def RestartsOnWord (s : KVServer) : TermEvent → Prop
  | .restart _ => s.router.votedFor = [] ∨ IsWord s.router.votedFor
  | _ => True

/-- An election does not start from the largest term. -/
def KeepsTerm (s : KVServer) : TermEvent → Prop
  | .election => s.router.currentTerm ≠ 2147483647
  | _ => True

theorem Started.filed (h : s.Started) : s.router.Filed := by
  have hterm : s.router.currentTerm = (loadRaftMeta s.router.raftMetaFile).1 :=
    congrArg Prod.fst h
  exact ⟨hterm ▸ (loadRaftMeta_spec s.router.raftMetaFile).1, Or.inr h.symm⟩

/-- What a restart leaves of the router. -/
theorem restart_started {t : KVServer} {now : Int} (h : s.restart now = some t) :
    t.router.currentTerm = (loadRaftMeta s.router.raftMetaFile).1 ∧ t.Started := by
  obtain ⟨-, -, -, hterm, hvote, -, hfile⟩ := Router.fields_of_core (restart_core h)
  refine ⟨hterm, ?_⟩
  rw [Started, hterm, hvote, hfile]
  rfl

/-- One step: it keeps the term exactly if it meets the condition. -/
theorem termStep_spec (hs : s.router.Filed) {e : TermEvent} {t : KVServer}
    (hword : s.RestartsOnWord e) (h : s.termStep e = some t) :
    t.router.Filed ∧ (s.router.currentTerm ≤ t.router.currentTerm ↔ s.KeepsTerm e) := by
  have of_advances : ∀ {t : KVServer}, s.router.Advances t.router →
      t.router.Filed ∧ (s.router.currentTerm ≤ t.router.currentTerm ↔ True) :=
    fun hadv => ⟨hadv.filed, iff_true_intro hadv.le⟩
  cases e with
  | line room now env line =>
    rw [termStep] at h
    cases hline : s.processRequestLine room now env line with
    | error e =>
      rw [hline] at h
      cases h
    | ok u =>
      rw [hline] at h
      obtain rfl : u = t := Option.some.inj h
      obtain ⟨-, rfl⟩ := processRequestLine_eq_ok_iff.1 hline
      exact of_advances (processRequest_advances hs now env (parseRequest_term line))
  | election =>
    injection h with h
    subst h
    exact ⟨Router.Filed.persist (inRange32_toInt32 _), Router.toInt32_succ hs.inRange⟩
  | reply term =>
    injection h with h
    subst h
    exact of_advances (Router.stepDown_advances hs (inRange32_toInt32 term))
  | won term =>
    injection h with h
    subst h
    exact of_advances (Router.winElection_advances hs term)
  | heartbeats =>
    injection h with h
    subst h
    exact of_advances (Router.beginHeartbeats_advances hs)
  | restart now =>
    obtain ⟨hterm, hstarted⟩ := restart_started h
    refine ⟨hstarted.filed, iff_true_intro ?_⟩
    rw [hterm, hs.loaded hword]

/-- From a started process on, and with votes of at most one word at its
restarts, the term never goes backwards exactly if no election starts from the
largest `int`. -/
theorem terms_never_decrease_iff (h : s.Started) (events : List TermEvent)
    (hwords : Always termStep (fun s e _ => s.RestartsOnWord e) s events) :
    Always termStep (fun s _ t => s.router.currentTerm ≤ t.router.currentTerm) s events ↔
      Always termStep (fun s e _ => s.KeepsTerm e) s events := by
  exact always_iff_of_always (I := fun s => s.router.Filed)
    (C := fun s e _ => s.RestartsOnWord e)
    (fun s e t hs hstep hword => (termStep_spec hs hword hstep).2)
    (fun s e t hs hstep hword _ => (termStep_spec hs hword hstep).1) h.filed hwords

/-- A node that has just been set up. -/
def newNode : KVServer :=
  fresh { localId := bytes ['a'], localPort := 1, allNodes := [] } (.memory {}) 0

def followerEnv : LineEnv where
  enabled := true
  raftEnabled := true
  leadsFirst := false
  leadsSecond := false

theorem terms_never_decrease_iff_newNode :
    Always termStep (fun s _ t => s.router.currentTerm ≤ t.router.currentTerm) newNode
        [.election, .restart 0] ↔
      Always termStep (fun s e _ => s.KeepsTerm e) newNode [.election, .restart 0] := by
  have hstarted : newNode.Started := rfl
  have hwords : Always termStep (fun s e _ => s.RestartsOnWord e) newNode
      [.election, .restart 0] :=
    (always_cons rfl _).mpr ⟨trivial, (always_cons rfl _).mpr ⟨Or.inr (by decide), trivial⟩⟩
  exact terms_never_decrease_iff hstarted _ hwords

/-- A heartbeat of the largest term, and an election takes the node back to
the smallest. -/
theorem term_wraps_around :
    newNode.Started ∧
      (run termStep newNode [.line 3 0 followerEnv (str "RAFT_APPEND_ENTRIES 2147483647 b")]).map
        (fun s => s.router.currentTerm) = some 2147483647 ∧
      (run termStep newNode [.line 3 0 followerEnv (str "RAFT_APPEND_ENTRIES 2147483647 b"),
        .election]).map (fun s => s.router.currentTerm) = some (-2147483648) := by
  refine ⟨rfl, ?_, ?_⟩
  · decide +kernel
  · decide +kernel

/-- A vote for a candidate with blanks in its name, and a restart takes the
node back to where it began. -/
theorem vote_resets_term :
    (run termStep newNode [.line 3 0 followerEnv
        (respEncode [str "RAFT_REQUEST_VOTE", str "5", str "x term 0"])]).map
      (fun s => s.router.currentTerm) = some 5 ∧
    (run termStep newNode [.line 3 0 followerEnv
        (respEncode [str "RAFT_REQUEST_VOTE", str "5", str "x term 0"]), .restart 0]).map
      (fun s => s.router.currentTerm) = some 0 := by
  constructor
  · decide +kernel
  · decide +kernel

end KVServer

end TinyKV
