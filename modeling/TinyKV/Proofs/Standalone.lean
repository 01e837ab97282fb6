import TinyKV.Proofs.Connections
import TinyKV.Proofs.ReferenceStore
import TinyKV.Proofs.Reservations
import TinyKV.Spec.Answers

/-!
# A standalone server answers as one store

What the event loop and the workers do with `process_request_line` on a server
without a cluster and without a log. Clients may send anything at any time, on
any number of connections: there is one order of all requests in which every
answer is the one `ReferenceStore` has for it. It is the order in which the
requests were carried out, and the requests of each connection are in it in the
order in which they came.

Such a request is one call of the store, which works under one lock, and one
reading of the clock. (`put` with a time to live and `expire` read it once more
before they take the lock.) Left out are requests of other nodes that bring log
entries or a snapshot, which are carried out even without a cluster, and lines
the process does not survive.
-/

namespace TinyKV

open Text Recency Runs

/-- A line that brings log entries or a snapshot. -/
def bringsState (line : Str) : Bool :=
  decide ((parseRequest line).type = .raftAppendEntries ∧ 0 ≤ (parseRequest line).logIndex) ||
    decide ((parseRequest line).type = .raftInstallSnapshot)

section Serve

variable {room : Nat} {now : Int} {s : KVServer} {mem : MemoryStore} {m : Metrics} {line : Str}
  {q : Request} {call : MemoryCall} {r : ReferenceStore}

/-- What the store says of a call, with the flag of `del`. -/
def MemoryCall.reply (now : Int) (mem : MemoryStore) : MemoryCall → MemoryAnswer
  | .del key => .flag (mem.del key).1
  | call => (call.exec now mem).1

theorem KVServer.serve_of_affords (h : Affords room line) :
    s.serve room m now line =
      (s.requestReply now .standalone m none (parseRequest line),
        s.processRequest now .standalone (parseRequest line)) := by
  rw [serve, lineReply_eq_ok_iff.2 ⟨h, rfl⟩, processRequestLine_eq_ok_iff.2 ⟨h, rfl⟩]

/-- A request that is a call is carried out on the store. -/
theorem KVServer.processRequest_call (m : Metrics) (now : Int) (hs : s.store = .memory mem)
    (hcall : q.call? = some call) :
    q.Tells (s.requestReply now .standalone m none q) (call.reply now mem) ∧
      (s.processRequest now .standalone q).store = .memory (call.exec now mem).2 := by
  unfold Request.call? at hcall
  split at hcall
  · cases hcall
  · next herror =>
    unfold requestReply processRequest Request.Tells
    simp only [if_neg herror, hs]
    cases htype : q.type with
    | put | replicaPut | raftPut =>
      simp only [htype, Option.some.injEq] at hcall
      subst hcall
      simp only [LineEnv.standalone, executeLocal, executePut, htype, Bool.false_and,
        Bool.and_false, Bool.not_true, Bool.false_eq_true, if_false]
      by_cases httl : 0 < q.ttlSeconds
      · simp only [httl, if_true]
        exact ⟨rfl, rfl⟩
      · simp only [httl, if_false]
        exact ⟨rfl, rfl⟩
    | get | replicaGet | del | replicaDel | raftDel | «exists» | expire | replicaExpire | raftExpire
    | ttl =>
      simp only [htype, Option.some.injEq] at hcall
      subst hcall
      simp only [LineEnv.standalone, executeLocal, executeGet, executeDel, executeExists,
        executeExpire, executeTtl, htype, Bool.false_and, Bool.and_false, Bool.not_true,
        Bool.false_eq_true, and_false, if_false]
      exact ⟨rfl, rfl⟩
    | metrics =>
      simp only [htype, Option.some.injEq] at hcall
      subst hcall
      refine ⟨List.infix_of_mem_flatten (List.mem_map.mpr
        ⟨(str "tinykv_store_keys", showNat (mem.size now).1), ?_, rfl⟩), rfl⟩
      simp [hs, Store.mem]
    | ping | raftRequestVote | raftAppendEntries | raftInstallSnapshot | raftStatus | unknown =>
      simp only [htype, reduceCtorEq] at hcall

/-- Any other request leaves it as it is. -/
theorem KVServer.processRequest_none (hcall : (parseRequest line).call? = none)
    (hline : bringsState line = false) :
    (s.processRequest now .standalone (parseRequest line)).store = s.store := by
  unfold processRequest
  unfold Request.call? at hcall
  unfold bringsState at hline
  split at hcall
  · next herror => rw [if_pos herror]
  · next herror =>
    rw [if_neg herror]
    cases htype : (parseRequest line).type with
    | put | replicaPut | raftPut | get | replicaGet | del | replicaDel | raftDel | «exists» | expire
    | replicaExpire | raftExpire | ttl | metrics =>
      simp only [htype, reduceCtorEq] at hcall
    | raftInstallSnapshot => simp [htype] at hline
    | raftAppendEntries =>
      -- without entries it is a heartbeat, which only the router sees
      have hindex : ¬ 0 ≤ (parseRequest line).logIndex := by simpa [htype] using hline
      simp [hindex, handleRaft]
    | raftRequestVote | raftStatus => rfl
    | ping | unknown => simp [LineEnv.standalone, executeLocal, htype]

theorem reply_allowed {t : Int} (hle : t ≤ now) (hnow : 0 < now) (h : Follows t mem r)
    (hdated : call.Dated) : r.Allows now call (call.reply now mem) := by
  cases call with
  | del key =>
    have hdel := (MemoryStore.del_acts h.wf key).answer
    obtain ⟨h, hlive⟩ := h.live hle
    cases hflag : (mem.del key).1 with
    | true => exact Or.inl (congrArg _ hflag)
    | false =>
      refine Or.inr ⟨congrArg _ hflag, ?_⟩
      rw [hflag, eq_comm, Option.isSome_eq_false_iff, Option.isNone_iff_eq_none] at hdel
      rw [find_live h hlive, hdel]
      rfl
  | put | putTtl | putWithExpireAt | get | exists_ | expire | expireAt | ttl | size | setMaxKeys =>
    exact (exec_agrees hle hnow h hdated).answer

theorem Request.dated_of_call? (hcall : q.call? = some call) : call.Dated := by
  unfold call? at hcall
  split at hcall
  · cases hcall
  · split at hcall
    all_goals cases hcall
    all_goals first | trivial | split <;> trivial

end Serve

/-- Requests served one after the other by a server whose store follows the
reference. -/
theorem explains_serveAll {room : Nat} {m : Metrics} {xs : List (Served Int)} {t : Int}
    (hclock : (xs.map Served.input).Pairwise (· ≤ ·))
    (hxs : ∀ x ∈ xs, t ≤ x.input ∧ 0 < x.input ∧ bringsState x.line = false ∧
      Affords room x.line)
    {s : KVServer} {mem : MemoryStore} (hs : s.store = .memory mem) {r : ReferenceStore}
    (h : Follows t mem r)
    (hreplies : (serveAll (KVServer.serve room m) s (xs.map fun x => (x.input, x.line))).1 =
      xs.map Served.reply) : r.Explains xs := by
  induction xs generalizing t s mem r with
  | nil => trivial
  | cons x xs ih =>
    obtain ⟨hfirst, hclock⟩ := List.pairwise_cons.mp hclock
    obtain ⟨⟨hle, hnow, hline, hroom⟩, hxs⟩ := List.forall_mem_cons.mp hxs
    rw [List.map_cons, serveAll, KVServer.serve_of_affords hroom] at hreplies
    obtain ⟨hreply, hreplies⟩ := List.cons.inj hreplies
    rw [ReferenceStore.Explains]
    cases hcall : (parseRequest x.line).call? with
    | none =>
      exact ih hclock hxs ((KVServer.processRequest_none hcall hline).trans hs) h hreplies
    | some call =>
      have hserved := KVServer.processRequest_call m x.input hs hcall
      have hdated := Request.dated_of_call? hcall
      refine ⟨⟨_, reply_allowed hle hnow h hdated, hreply ▸ hserved.1⟩, ?_⟩
      exact ih hclock (fun y hy => ⟨hfirst _ (List.mem_map_of_mem hy), (hxs y hy).2⟩)
        hserved.2 (exec_agrees hle hnow h hdated).follows hreplies

/-- In every run of a standalone server with an empty store in memory, whatever
is sent to it on whatever connections, the answers in the order in which they
were given are those of the reference. The requests of a connection that have
been answered are the first of those its bytes make, in order. -/
theorem standalone_answers_as_reference {room : Nat} {m : Metrics} {hardware maxKeys : Nat}
    {start : KVServer} (hstart : start.store = .memory { maxKeys := maxKeys })
    {es : List (NetEvent Int)} {s : EventLoop KVServer Int}
    (hrun : run (EventLoop.step (KVServer.serve room m)) (.fresh hardware start) es = some s)
    (hclock : (s.history.map Served.input).Pairwise (· ≤ ·))
    (hhistory : ∀ x ∈ s.history, 0 < x.input ∧ bringsState x.line = false ∧
      Affords room x.line) :
    ({ maxKeys := maxKeys } : ReferenceStore).Explains s.history ∧
      ∀ c k, s.connections[c]? = some k →
        (s.servedOn c).map Served.line <+: handedOn [k.received] := by
  have hstore : Follows 0 { maxKeys := maxKeys } { maxKeys := maxKeys } :=
    ⟨MemoryStore.wf_empty maxKeys, rfl, rfl, fun _ he => by cases he⟩
  refine ⟨explains_serveAll hclock ?_ hstart hstore
    (congrArg Prod.fst (EventLoop.serveAll_run hrun)), fun c k hk => ?_⟩
  · exact fun x hx => ⟨Int.le_of_lt (hhistory x hx).1, hhistory x hx⟩
  · exact (EventLoop.fair_run hrun hk).lines

def KVServer.alone : KVServer where
  router := { localId := bytes ['a'], localPort := 1, allNodes := [] }
  store := .memory {}

/-- `PUT k v`, answered at the instant 5. -/
theorem put_answered_as_reference :
    ∃ es s, run (EventLoop.step (KVServer.serve 1 {})) (.fresh 1 .alone) es = some s ∧
      s.history.map Served.reply = [str "OK" ++ [10]] ∧
      ({} : ReferenceStore).Explains s.history := by
  have hrun : run (EventLoop.step (KVServer.serve 1 {})) (.fresh 1 .alone)
    (EventLoop.exchange 5 (str "PUT k v" ++ [10]) 3) = some _ := rfl
  refine ⟨_, _, hrun, by decide +kernel, ?_⟩
  exact (standalone_answers_as_reference rfl hrun (by decide +kernel) (by decide +kernel)).1

end TinyKV
