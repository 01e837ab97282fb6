import TinyKV.Model.BestEffort
import TinyKV.Proofs.DeletedKeys
import TinyKV.Proofs.ReplicaLines
import TinyKV.Proofs.RespReplies
import TinyKV.Proofs.Ring

/-!
# GET looks further than EXISTS

A GET that does not find its key in the local store goes on to ask the other
nodes of the view; an EXISTS stops at the local store. So the two agree on a
key exactly when the local store has it or nobody who is asked has: a key that
only a former owner or a replica still holds has a value and does not exist.
-/

namespace TinyKV

open Text

/-- The store shows the key to a client. -/
def Store.shows (s : Store) (now : Int) (key : Str) : Bool := (s.mem.visible now key).isSome

theorem MemoryStore.get_fst (s : MemoryStore) (now : Int) (key : Str) :
    (s.get now key).1 = (s.visible now key).map StoreEntry.value := by
  unfold get visible
  cases s.data.lookup key with
  | none => rfl
  | some entry =>
    simp only
    split <;> rfl

theorem Store.get_isSome (s : Store) (now : Int) (key : Str) :
    (s.get now key).1.isSome = s.shows now key := by
  rw [Store.get, Prod.map_fst, id, MemoryStore.get_fst, Option.isSome_map, Store.shows]

theorem Store.exists_fst (s : Store) (now : Int) (key : Str) :
    (s.exists_ now key).1 = s.shows now key := by
  rw [← Store.get_isSome]
  rfl

/-! ## The two answers of the local store -/

variable {env : LocalEnv} {now : Int} {s : Store} {r : Request}

theorem executeLocal_get_value (hr : r.type = .get) (henv : env.enabled = true) :
    (∃ value, (executeLocal env now s r).reply =
        r.answer (respBulkReply (some value)) (str "VALUE " ++ value)) ↔
      s.shows now r.key = true ∨ ∃ p ∈ env.others, parseTextValue p.2 ≠ none := by
  rw [← Store.get_isSome]
  have hnone : (askOthers r.key env.others).1 = none ↔ _ := askOthers_eq_none r.key
  simp only [executeLocal, hr, executeGet, henv, and_true]
  cases hget : (s.get now r.key).1 with
  | some value =>
    rw [if_neg (by simp)]
    exact iff_of_true ⟨value, rfl⟩ (.inl rfl)
  | none =>
    rw [if_pos rfl]
    cases hasked : (askOthers r.key env.others).1 with
    | none =>
      refine iff_of_false ?_ ?_
      · rintro ⟨value, heq⟩
        exact r.answer_value_ne value heq.symm
      · rintro (hsome | ⟨p, hp, hfound⟩)
        · cases hsome
        · exact hfound (hnone.1 hasked p hp)
    | some value =>
      refine iff_of_true ⟨value, rfl⟩ (.inr ?_)
      by_contra hall
      have heq := hnone.2 fun p hp => by
        by_contra hfound
        exact hall ⟨p, hp, hfound⟩
      rw [hasked] at heq
      cases heq

theorem executeLocal_exists_true (hr : r.type = .exists) :
    (executeLocal env now s r).reply = r.answer (respInteger 1) (str "TRUE") ↔
      s.shows now r.key = true := by
  simp only [executeLocal, hr, executeExists, Store.exists_fst]
  cases s.shows now r.key with
  | true => exact iff_of_true rfl rfl
  | false =>
    refine iff_of_false ?_ Bool.false_ne_true
    unfold Request.answer
    cases r.protocol <;> decide

/-- For a key that is one word the node looks in its own store. -/
theorem Peer.forward_get (p : Peer) {key : Str} (hkey : IsWord key) :
    p.forward (ReplicaLine.get key).text =
      textResponse (match (p.server.store.get p.now key).1 with
        | none => str "NOT_FOUND"
        | some value => str "VALUE " ++ value) := by
  have hend : (ReplicaLine.get key).text.getLast? = some 10 := by
    rw [ReplicaLine.text, List.getLast?_append]
    rfl
  obtain ⟨hframes, hrest⟩ := (faithful_get key).2 hkey
  have hdrain : receive [] [(ReplicaLine.get key).text] = drain (ReplicaLine.get key).text := by
    simp [receive]
  obtain ⟨line, hline, hrequest⟩ : ∃ line, (drain (ReplicaLine.get key).text).1 = [line] ∧
      parseRequest line = (ReplicaLine.get key).request := by
    obtain ⟨line, hone⟩ := List.map_eq_singleton_iff.1 hframes
    exact ⟨line, hone.1, hone.2⟩
  have hhanded : handedOn [(ReplicaLine.get key).text] = [line] := by
    rw [handedOn, hdrain, hrest, hline]
    rfl
  have hroom : Affords p.room line := affords_of_text (by rw [hrequest]; rfl)
  have hreply : ∀ env m forwarded, p.server.requestReply p.now env m forwarded
      (parseRequest line) =
      (executeLocal env.toLocalEnv p.now p.server.store (ReplicaLine.get key).request).reply := by
    intro env m forwarded
    simp [KVServer.requestReply, hrequest, ReplicaLine.request, shouldRoute, isClientWrite]
  simp only [Peer.forward, hend, if_true, hhanded, Peer.processClientLines,
    lineReply_eq_ok_iff.2 ⟨hroom, hreply _ _ _⟩, processRequestLine_eq_ok_iff.2 ⟨hroom, rfl⟩,
    bind, Except.bind, List.append_nil]
  simp only [executeLocal, executeGet, ReplicaLine.request, Request.answer, reduceCtorEq,
    false_and, and_false, if_false]
  cases (p.server.store.get p.now key).1 <;> rfl

namespace BestEffort

variable {c : BestEffort} {key : Str}

/-- A request for data whose key this node owns is carried out here. -/
theorem reply_local {line : Str} (herror : (parseRequest line).error = [])
    (htype : (parseRequest line).type = .get ∨ (parseRequest line).type = .exists)
    (hlocal : Router.isLocalOwner c.hasher c.alive c.localId (parseRequest line).key = true) :
    c.reply line = (executeLocal (c.env (parseRequest line).key).toLocalEnv c.now c.server.store
      (parseRequest line)).reply := by
  simp only [reply, KVServer.requestReply, herror, ne_eq, not_true_eq_false, if_false]
  obtain htype | htype := htype
  · simp [htype, env, hlocal]
  · simp [htype, env, hlocal]

/-- The owner is this node, or there is none. -/
theorem mem_asked (hlocal : Router.isLocalOwner c.hasher c.alive c.localId key = true)
    {node : ClusterNode} : node ∈ c.asked key ↔ node ∈ c.alive ∧ node.id ≠ c.localId := by
  unfold Router.isLocalOwner at hlocal
  simp only [asked, ownerFor, List.mem_filter]
  cases howner : (ConsistentHash.build c.hasher c.alive).ownerFor c.hasher key with
  | none =>
    obtain hnil | hzero := ConsistentHash.ownerFor_eq_none_iff.1 howner
    · simp [hnil]
    · cases hzero
  | some owner =>
    rw [howner] at hlocal
    simp only [decide_eq_true_iff] at hlocal
    simp [hlocal]

/-- What the node sends back to `REPL_GET key` is read as a value. -/
def finds (c : BestEffort) (node : ClusterNode) (key : Str) : Bool :=
  (parseTextValue ((c.peers node).forward (ReplicaLine.get key).text)).isSome

theorem finds_of_forward {node : ClusterNode} {found : Option Str}
    (h : (c.peers node).forward (ReplicaLine.get key).text =
      textResponse (match found with
        | none => str "NOT_FOUND"
        | some value => str "VALUE " ++ value)) :
    c.finds node key = found.isSome := by
  rw [finds, h]
  cases found with
  | none => decide
  | some value => rw [textResponse_value]; rfl

theorem finds_eq_shows (hkey : IsWord key) (node : ClusterNode) :
    c.finds node key = (c.peers node).server.store.shows (c.peers node).now key := by
  rw [finds_of_forward ((c.peers node).forward_get hkey), Store.get_isSome]

/-- The line is a request of the type for the key. -/
structure Asks (line : Str) (type : CommandType) (key : Str) : Prop where
  error : (parseRequest line).error = []
  type : (parseRequest line).type = type
  key : (parseRequest line).key = key

/-- A GET that is answered with a value. -/
def AnswersValue (c : BestEffort) (line : Str) : Prop :=
  ∃ value, c.reply line =
    (parseRequest line).answer (respBulkReply (some value)) (str "VALUE " ++ value)

/-- An EXISTS that is answered with true. -/
def AnswersTrue (c : BestEffort) (line : Str) : Prop :=
  c.reply line = (parseRequest line).answer (respInteger 1) (str "TRUE")

theorem answersValue_iff {line : Str} (hline : Asks line .get key)
    (hlocal : Router.isLocalOwner c.hasher c.alive c.localId key = true) :
    c.AnswersValue line ↔ c.server.store.shows c.now key = true ∨
      ∃ node ∈ c.alive, node.id ≠ c.localId ∧ c.finds node key = true := by
  have hkey := hline.key
  rw [← hkey] at hlocal
  rw [AnswersValue, reply_local hline.error (.inl hline.type) hlocal,
    executeLocal_get_value hline.type rfl, hkey]
  rw [hkey] at hlocal
  refine or_congr_right ?_
  simp only [env, List.mem_map]
  constructor
  · rintro ⟨p, ⟨node, hnode, rfl⟩, hfound⟩
    obtain ⟨halive, hother⟩ := (mem_asked hlocal).1 hnode
    exact ⟨node, halive, hother, Option.isSome_iff_ne_none.2 hfound⟩
  · rintro ⟨node, halive, hother, hfound⟩
    exact ⟨_, ⟨node, (mem_asked hlocal).2 ⟨halive, hother⟩, rfl⟩,
      Option.isSome_iff_ne_none.1 hfound⟩

theorem answersTrue_iff {line : Str} (hline : Asks line .exists key)
    (hlocal : Router.isLocalOwner c.hasher c.alive c.localId key = true) :
    c.AnswersTrue line ↔ c.server.store.shows c.now key = true := by
  have hkey := hline.key
  rw [← hkey] at hlocal
  rw [AnswersTrue, reply_local hline.error (.inr hline.type) hlocal,
    executeLocal_exists_true hline.type, hkey]

/-- GET and EXISTS of a key this node owns agree exactly when the node has the
key itself or no other node of its view answers `REPL_GET` with a value. -/
theorem get_exists_agree_iff (c : BestEffort) {getLine existsLine key : Str}
    (hget : Asks getLine .get key) (hexists : Asks existsLine .exists key)
    (hlocal : Router.isLocalOwner c.hasher c.alive c.localId key = true) :
    (c.AnswersValue getLine ↔ c.AnswersTrue existsLine) ↔
      (c.server.store.shows c.now key = true ∨
        ∀ node ∈ c.alive, node.id ≠ c.localId → c.finds node key = false) := by
  rw [answersValue_iff hget hlocal, answersTrue_iff hexists hlocal]
  constructor
  · intro hsame
    cases hshows : c.server.store.shows c.now key with
    | true => exact .inl rfl
    | false =>
      refine .inr fun node halive hother => ?_
      by_contra hfinds
      have hvalue := hsame.1 (.inr ⟨node, halive, hother, Bool.not_eq_false _ ▸ hfinds⟩)
      rw [hshows] at hvalue
      cases hvalue
  · rintro (hshows | hnobody)
    · exact iff_of_true (.inl hshows) hshows
    · constructor
      · rintro (hshows | ⟨node, halive, hother, hfinds⟩)
        · exact hshows
        · rw [hnobody node halive hother] at hfinds
          cases hfinds
      · exact .inl

/-! ## A key that only another node holds -/

/-- Two nodes; `a` owns every key that starts with its letter, and the stores
are given. -/
def twoNodes (store other : Store) : BestEffort where
  hasher := firstByte
  alive := [⟨str "a", [], 1⟩, ⟨str "b", [], 2⟩]
  localId := str "a"
  replicationFactor := 1
  server := { router := ⟨str "a", 1, [], .follower, 0, [], [], 0, 0, none⟩, store := store }
  now := 0
  peers _ :=
    { server := { router := ⟨str "b", 2, [], .follower, 0, [], [], 0, 0, none⟩, store := other }
      now := 0
      room := 1
      env := fun _ => { raftEnabled := false, leadsFirst := false, leadsSecond := false } }

/-- `b` still has a key of `a` that `a` does not have. -/
theorem twoNodes_disagree :
    let c := twoNodes (.memory {}) (.memory (({} : MemoryStore).put 0 (str "a1") (str "v")).2)
    Router.isLocalOwner c.hasher c.alive c.localId (str "a1") = true ∧
      Asks (str "GET a1") .get (str "a1") ∧ Asks (str "EXISTS a1") .exists (str "a1") ∧
      c.AnswersValue (str "GET a1") ∧ ¬ c.AnswersTrue (str "EXISTS a1") := by
  refine ⟨?_, ⟨?_, ?_, ?_⟩, ⟨?_, ?_, ?_⟩, ⟨str "v", ?_⟩, ?_⟩
  case refine_9 =>
    unfold AnswersTrue
    decide +kernel
  all_goals decide +kernel

/-- Once `a` has the key as well, the two agree. -/
theorem twoNodes_agree :
    let store := Store.memory (({} : MemoryStore).put 0 (str "a1") (str "v")).2
    let c := twoNodes store store
    c.AnswersValue (str "GET a1") ↔ c.AnswersTrue (str "EXISTS a1") := by
  intro store c
  have hget : Asks (str "GET a1") .get (str "a1") := by
    constructor <;> decide +kernel
  have hexists : Asks (str "EXISTS a1") .exists (str "a1") := by
    constructor <;> decide +kernel
  refine (get_exists_agree_iff c hget hexists (by decide +kernel)).2 (.inl ?_)
  decide +kernel

end BestEffort

end TinyKV
