import TinyKV.Model.EventLoop
import TinyKV.Model.LineReply
import TinyKV.Spec.ReferenceStore

/-!
# What an answer says of the store

A request that is carried out is a call of the store, and its answer says in
the protocol of the request what the store has to say. The reference explains a
sequence of answers if it would have had the same to say, call by call.
-/

namespace TinyKV

open Text Recency

namespace Request

/-- The call of the store a request stands for. -/
def call? (r : Request) : Option MemoryCall :=
  if r.error ≠ [] then none
  else
    match r.type with
    | .put | .replicaPut | .raftPut =>
      some (if 0 < r.ttlSeconds then .putTtl r.key r.value r.ttlSeconds else .put r.key r.value)
    | .get | .replicaGet => some (.get r.key)
    | .del | .replicaDel | .raftDel => some (.del r.key)
    | .exists => some (.exists_ r.key)
    | .expire | .replicaExpire | .raftExpire => some (.expire r.key r.ttlSeconds)
    | .ttl => some (.ttl r.key)
    | .metrics => some .size
    | _ => none

/-- The text says what a store has to say, in the protocol of the request. -/
def Tells (r : Request) (text : Str) : MemoryAnswer → Prop
  | .value v =>
    text = r.answer (respBulkReply v)
      (match v with
        | none => str "NOT_FOUND"
        | some value => str "VALUE " ++ value)
  | .seconds n => text = r.answer (respInteger n) (str "TTL " ++ showInt n)
  | .count n => str "tinykv_store_keys" ++ 32 :: (showNat n ++ [10]) <:+: text
  | .flag b =>
    text = match r.type with
      | .put | .replicaPut | .raftPut =>
        if b then r.answer (respSimple (str "OK")) (str "OK")
        else r.answer (respError (str "ERR put_failed")) (str "ERROR put_failed")
      | .exists =>
        r.answer (respInteger (if b then 1 else 0)) (if b then str "TRUE" else str "FALSE")
      | _ =>
        r.answer (respInteger (if b then 1 else 0)) (if b then str "OK" else str "NOT_FOUND")
  | .nothing => False

end Request

namespace ReferenceStore

/-- What may be said of a call. What `del` says of a key that is not live is open. -/
def Allows (r : ReferenceStore) (now : Int) (call : MemoryCall) (a : MemoryAnswer) : Prop :=
  match call with
  | .del key => a = .flag true ∨ a = .flag false ∧ find key (r.at_ now).entries = none
  | call => a = (r.exec now call).1

/-- Answers in the order in which they were given. -/
def Explains : ReferenceStore → List (Served Int) → Prop
  | _, [] => True
  | r, x :: rest =>
    match (parseRequest x.line).call? with
    | none => r.Explains rest
    | some call =>
      (∃ a, r.Allows x.input call a ∧ (parseRequest x.line).Tells x.reply a) ∧
        (r.exec x.input call).2.Explains rest

end ReferenceStore

end TinyKV
