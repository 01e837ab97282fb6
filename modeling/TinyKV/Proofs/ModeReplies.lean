import TinyKV.Proofs.LogOnly
import TinyKV.Proofs.Replay
import TinyKV.Proofs.RespReplies

/-!
# The same write with and without Raft

A standalone server answers a write with what its store says. A leader
answers once the entry is committed, and all the store said when the entry
was applied is lost by then: `OK` to everything, or the integer one. So the
two agree on a write the store carries out, and only on those.

What the store says depends on the engine. The memory engine reports whether
it found the key of a `DEL`, the persistent one always reports success. Both
report whether a key that is to expire is there.
-/

namespace TinyKV

/-! ## What the store says -/

namespace Store

variable {now : Int} {s : Store} {key value : Str}

theorem put_true (hkey : key ≠ []) : (s.put now key value).1 = true := by
  cases s with
  | memory s =>
    show (s.putWithExpireAt now key value 0).1 = true
    rw [MemoryStore.putWithExpireAt, if_neg hkey]
  | persistent ord s =>
    show (s.putWithExpireAt ord now key value 0).1 = true
    rw [PersistentMemoryStore.putWithExpireAt, MemoryStore.putWithExpireAt, if_neg hkey]
    exact maybeSnapshotLocked_fst ord now _

theorem putTtl_true (hkey : key ≠ []) {ttl : Int} (httl : 0 < ttl) :
    (s.putTtl now key value ttl).1 = true := by
  cases s with
  | memory s =>
    show (s.putTtl now key value ttl).1 = true
    rw [MemoryStore.putTtl, if_neg (by omega), MemoryStore.putWithExpireAt, if_neg hkey]
  | persistent ord s =>
    show (s.putTtl ord now key value ttl).1 = true
    rw [PersistentMemoryStore.putTtl, if_neg (by omega), PersistentMemoryStore.putWithExpireAt,
      MemoryStore.putWithExpireAt, if_neg hkey]
    exact maybeSnapshotLocked_fst ord now _

/-- The engine that writes a log does not say whether there was a key. -/
def isPersistent : Store → Bool
  | .memory _ => false
  | .persistent .. => true

theorem del_fst : (s.del now key).1 = (s.isPersistent || (s.mem.data.lookup key).isSome) := by
  cases s with
  | memory s =>
    show (s.del key).1 = (s.data.lookup key).isSome
    rw [MemoryStore.del]
    cases s.data.lookup key <;> rfl
  | persistent ord s => exact maybeSnapshotLocked_fst ord now _

theorem expireAt_fst (m : MemoryStore) (d : Int) :
    (m.expireAt now key d).1 = (m.visible now key).isSome := by
  rw [MemoryStore.expireAt, MemoryStore.visible]
  cases m.data.lookup key with
  | none => rfl
  | some entry =>
    simp only
    split <;> rfl

theorem expire_fst {ttl : Int} :
    (s.expire now key ttl).1 = (decide (0 < ttl) && (s.mem.visible now key).isSome) := by
  by_cases httl : ttl ≤ 0
  · have hno : decide (0 < ttl) = false := decide_eq_false (by omega)
    rw [hno, Bool.false_and]
    cases s with
    | memory s =>
      show (s.expire now key ttl).1 = false
      rw [MemoryStore.expire, if_pos httl]
    | persistent ord s =>
      show (s.expire ord now key ttl).1 = false
      rw [PersistentMemoryStore.expire, if_pos httl]
  · have hyes : decide (0 < ttl) = true := decide_eq_true (by omega)
    rw [hyes, Bool.true_and]
    cases s with
    | memory s =>
      show (s.expire now key ttl).1 = _
      rw [MemoryStore.expire, if_neg httl]
      exact expireAt_fst s _
    | persistent ord s =>
      show (s.expire ord now key ttl).1 = (s.memory.visible now key).isSome
      rw [PersistentMemoryStore.expire, if_neg httl, PersistentMemoryStore.expireAt,
        ← expireAt_fst s.memory (MemoryStore.ttlToExpireAtMs now ttl)]
      simp only
      cases h : s.memory.expireAt now key (MemoryStore.ttlToExpireAtMs now ttl) with
      | mk ok memory =>
        cases ok with
        | false => rfl
        | true => exact maybeSnapshotLocked_fst ord now _

end Store

/-! ## The two answers -/

/-- The write changes something, or the engine does not say that it does not:
a put, a `DEL` of a key the engine finds or does not look for, an `EXPIRE` of
a live key by a positive number of seconds. -/
def Store.CarriesOut (now : Int) (s : Store) (r : Request) : Prop :=
  match r.type with
  | .put => True
  | .del => s.isPersistent = true ∨ (s.mem.data.lookup r.key).isSome = true
  | .expire => 0 < r.ttlSeconds ∧ (s.mem.visible now r.key).isSome = true
  | _ => False

theorem answer_ne {r : Request} {resp resp' text text' : Str} (hresp : resp ≠ resp')
    (htext : textResponse text ≠ textResponse text') :
    r.answer resp text ≠ r.answer resp' text' := by
  rw [Request.answer, Request.answer]
  split
  · exact hresp
  · exact htext

/-- A leader's success against what the store says. -/
theorem success_eq_iff {r : Request} (ok : Bool) :
    r.answer (respInteger 1) (str "OK") =
        r.answer (respInteger (if ok then 1 else 0)) (if ok then str "OK" else str "NOT_FOUND") ↔
      ok = true := by
  cases ok with
  | true => exact ⟨fun _ => rfl, fun _ => rfl⟩
  | false =>
    refine ⟨fun h => absurd h (answer_ne ?_ ?_), fun h => by cases h⟩
    · decide
    · decide +kernel

theorem refusal_ne (r : Request) (ok : Bool) :
    r.writeReply .raftNoQuorum ≠
      r.answer (respInteger (if ok then 1 else 0)) (if ok then str "OK" else str "NOT_FOUND") := by
  cases ok with
  | true => exact answer_ne (by decide +kernel) (by decide +kernel)
  | false => exact answer_ne (by decide +kernel) (by decide +kernel)

theorem replicateRaftWrite_reply (s : KVServer) (now : Int) (request : WriteRequest)
    (followers : Replication) :
    (s.replicateRaftWrite now request followers).2 =
      if followers.acks + 1 < s.router.majoritySize then .raftNoQuorum else .ok := by
  obtain ⟨store, hu⟩ := KVServer.snapshots_store followers.snapshots
    (s.appendWrite request).2.entry.term (s.appendWrite request).1
  unfold KVServer.replicateRaftWrite
  simp only [hu]
  show (if followers.acks + 1 < s.router.majoritySize then _ else _ : KVServer × WriteReply).2 = _
  split <;> rfl

section Line

variable {now : Int} {s t : KVServer} {env : LineEnv} {m : Metrics} {forwarded : Option Str}
  {line : Str}

/-- What is refused has no type. -/
theorem type_of_error (line : Str) :
    (parseRequest line).error ≠ [] → (parseRequest line).type = .unknown := by
  refine parseRequest_holds (P := fun r => r.error ≠ [] → r.type = .unknown) ?_ ?_ line
  · exact fun _ _ _ => rfl
  · intro args protocol herror
    rcases parseArgs_reported args protocol with ⟨hnil, -⟩ | ⟨-, htype⟩
    · exact absurd hnil herror
    · exact htype

theorem error_of_isClientWrite (h : isClientWrite (parseRequest line).type = true) :
    (parseRequest line).error = [] := by
  by_contra herror
  rw [type_of_error line herror] at h
  cases h

theorem requestReply_leader (hwrite : isClientWrite (parseRequest line).type = true)
    (hraft : env.raftEnabled = true) (hfirst : env.leadsFirst = true)
    (hsecond : env.leadsSecond = true) :
    s.requestReply now env m forwarded (parseRequest line) =
      (parseRequest line).writeReply
        (if env.followers.acks + 1 < s.router.majoritySize then .raftNoQuorum else .ok) := by
  have herror := error_of_isClientWrite hwrite
  simp only [KVServer.requestReply, herror, ne_eq, not_true_eq_false, if_false]
  cases htype : (parseRequest line).type with
  | put | del | expire =>
    simp only [hraft, hfirst, hsecond, isClientWrite, Bool.not_true, Bool.and_false,
      Bool.false_eq_true, if_false]
    simp [replicateRaftWrite_reply]
  | _ =>
    rw [htype] at hwrite
    cases hwrite

theorem requestReply_single (hwrite : isClientWrite (parseRequest line).type = true) :
    t.requestReply now .standalone m forwarded (parseRequest line) =
      (executeLocal LineEnv.standalone.toLocalEnv now t.store (parseRequest line)).reply := by
  refine requestReply_standalone (error_of_isClientWrite hwrite) fun htext => ?_
  simp only [CommandType.AnsweredInText, List.mem_cons, List.not_mem_nil, or_false] at htext
  rcases htext with h | h | h | h | h
  all_goals
    rw [h] at hwrite
    cases hwrite

theorem executePut_reply {env : LocalEnv} {store : Store} {r : Request} (hkey : r.key ≠ []) :
    (executePut env now store r).reply = r.answer (respSimple (str "OK")) (str "OK") := by
  have hok : (if 0 < r.ttlSeconds then store.putTtl now r.key r.value r.ttlSeconds
      else store.put now r.key r.value).1 = true := by
    split
    · next httl => exact Store.putTtl_true hkey httl
    · exact Store.put_true hkey
  simp only [executePut, hok, if_true]

/-- A leader and a standalone server with the same store answer a write alike
exactly if the followers make up a majority with the leader and the store
carries the write out. -/
theorem modes_answer_alike_iff (hwrite : isClientWrite (parseRequest line).type = true)
    (hraft : env.raftEnabled = true) (hfirst : env.leadsFirst = true)
    (hsecond : env.leadsSecond = true) (hstore : t.store = s.store) :
    s.requestReply now env m forwarded (parseRequest line) =
        t.requestReply now .standalone m none (parseRequest line) ↔
      s.router.majoritySize ≤ env.followers.acks + 1 ∧
        s.store.CarriesOut now (parseRequest line) := by
  have hkey := parseRequest_key line
  rw [requestReply_leader hwrite hraft hfirst hsecond, requestReply_single hwrite, hstore]
  unfold executeLocal Store.CarriesOut
  by_cases hquorum : env.followers.acks + 1 < s.router.majoritySize
  · rw [if_pos hquorum]
    refine iff_of_false ?_ fun h => absurd h.1 (by omega)
    cases htype : (parseRequest line).type with
    | put =>
      have hne := hkey (Or.inl (by rw [htype]; decide))
      simp only [executePut_reply hne]
      exact answer_ne (by decide +kernel) (by decide +kernel)
    | del => exact refusal_ne _ _
    | expire => exact refusal_ne _ _
    | _ =>
      rw [htype] at hwrite
      cases hwrite
  · rw [if_neg hquorum, and_iff_right (by omega), Request.writeReply]
    cases htype : (parseRequest line).type with
    | put =>
      have hne := hkey (Or.inl (by rw [htype]; decide))
      simp only [if_true, iff_true]
      exact (executePut_reply hne).symm
    | del =>
      rw [if_neg (by decide)]
      simp only [executeDel]
      rw [success_eq_iff, Store.del_fst, Bool.or_eq_true]
    | expire =>
      rw [if_neg (by decide)]
      simp only [executeExpire]
      rw [success_eq_iff, Store.expire_fst, Bool.and_eq_true, decide_eq_true_iff]
    | _ =>
      rw [htype] at hwrite
      cases hwrite

end Line

/-- A leader of three nodes that are all there. -/
def threeLeader : KVServer :=
  KVServer.fresh
    { localId := str "a", localPort := 1, role := .leader, currentTerm := 1
      allNodes := [⟨str "a", str "h", 1⟩, ⟨str "b", str "h", 2⟩, ⟨str "c", str "h", 3⟩] }
    (.memory {}) 1

/-- Both followers acknowledge. -/
def allReachable : LineEnv where
  leadsFirst := true
  leadsSecond := true
  followers := { acks := 2 }

theorem modes_answer_alike_iff_put :
    threeLeader.requestReply 1 allReachable {} none (parseRequest (str "PUT k v")) =
        loneServer.requestReply 1 .standalone {} none (parseRequest (str "PUT k v")) ↔
      threeLeader.router.majoritySize ≤ allReachable.followers.acks + 1 ∧
        threeLeader.store.CarriesOut 1 (parseRequest (str "PUT k v")) :=
  modes_answer_alike_iff (by decide +kernel) rfl rfl rfl rfl

/-- A `DEL` of a key that is not there. -/
theorem del_answered_differently :
    threeLeader.requestReply 1 allReachable {} none (parseRequest (str "DEL k")) =
        str "OK" ++ [10] ∧
      loneServer.requestReply 1 .standalone {} none (parseRequest (str "DEL k")) =
        str "NOT_FOUND" ++ [10] := by
  decide +kernel

end TinyKV
