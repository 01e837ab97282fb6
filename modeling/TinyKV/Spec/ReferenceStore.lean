import TinyKV.Model.MemoryStore
import TinyKV.Spec.Recency

/-!
# The reference for the in-memory store

What a caller may expect of `MemoryStore`, whatever it calls in whatever
order: the recency list of `Spec.Recency` with a bound, on which an entry
whose deadline has passed is not there any more. Nothing in the reference is
lazy. Each call begins by dropping what has expired, so it only ever looks at
live entries.

A call the interface refuses (an empty key to store, a time to live that is
not positive) is refused here as well and changes nothing.
-/

namespace TinyKV

/-- The calls of `MemoryStore`. -/
inductive MemoryCall
  | put (key value : Str)
  | putTtl (key value : Str) (ttlSeconds : Int)
  | putWithExpireAt (key value : Str) (expireAtMs : Int)
  | get (key : Str)
  | exists_ (key : Str)
  | del (key : Str)
  | expire (key : Str) (ttlSeconds : Int)
  | expireAt (key : Str) (expireAtMs : Int)
  | ttl (key : Str)
  | size
  | setMaxKeys (maxKeys : Nat)
  deriving DecidableEq, Repr

/-- What a call gives back. -/
inductive MemoryAnswer
  | value (v : Option Str)
  | flag (b : Bool)
  | seconds (n : Int)
  | count (n : Nat)
  | nothing
  deriving DecidableEq, Repr

namespace MemoryCall

/-- Deadlines given as such are not negative. -/
def Dated : MemoryCall → Prop
  | putWithExpireAt _ _ d => 0 ≤ d
  | expireAt _ d => 0 ≤ d
  | _ => True

instance : DecidablePred Dated
  | putWithExpireAt _ _ d => inferInstanceAs (Decidable (0 ≤ d))
  | expireAt _ d => inferInstanceAs (Decidable (0 ≤ d))
  | put .. | putTtl .. | get _ | exists_ _ | del _ | expire .. | ttl _ | size
  | setMaxKeys _ => isTrue trivial

/-- The flag of `del` is left out: the store also finds a key that has
expired, as long as nothing has purged it. -/
def exec (now : Int) (s : MemoryStore) : MemoryCall → MemoryAnswer × MemoryStore
  | put key value => (s.put now key value).map .flag id
  | putTtl key value ttlSeconds => (s.putTtl now key value ttlSeconds).map .flag id
  | putWithExpireAt key value d => (s.putWithExpireAt now key value d).map .flag id
  | get key => (s.get now key).map .value id
  | exists_ key => (s.exists_ now key).map .flag id
  | del key => (.nothing, (s.del key).2)
  | expire key ttlSeconds => (s.expire now key ttlSeconds).map .flag id
  | expireAt key d => (s.expireAt now key d).map .flag id
  | ttl key => (s.ttl now key).map .seconds id
  | size => (s.size now).map .count id
  | setMaxKeys maxKeys => (.nothing, s.setMaxKeys now maxKeys)

/-- Calls one after the other, each with the clock at which it is made. -/
def execAll (s : MemoryStore) : List (Int × MemoryCall) → List MemoryAnswer × MemoryStore
  | [] => ([], s)
  | (now, call) :: rest =>
    let (answer, s) := call.exec now s
    (execAll s rest).map (answer :: ·) id

end MemoryCall

/-- Key, value and deadline, most recently used first, and the bound. -/
structure ReferenceStore where
  entries : List StoreEntry := []
  maxKeys : Nat := 0

namespace ReferenceStore

open Recency

/-- What is there at an instant. -/
def at_ (r : ReferenceStore) (now : Int) : ReferenceStore :=
  { r with entries := purge now r.entries }

/-- Store at the front and keep the most recent live entries. -/
def store (r : ReferenceStore) (now : Int) (key value : Str) (expireAtMs : Int) :
    MemoryAnswer × ReferenceStore :=
  if key = [] then (.flag false, r)
  else (.flag true, { r with
    entries := cap r.maxKeys (purge now (push ⟨key, value, expireAtMs⟩ r.entries)) })

/-- A key that is there comes to the front. -/
def touch (r : ReferenceStore) (key : Str) : ReferenceStore :=
  match find key r.entries with
  | none => r
  | some entry => { r with entries := push entry r.entries }

/-- A key that is there comes to the front with a new deadline. -/
def date (r : ReferenceStore) (key : Str) (expireAtMs : Int) : MemoryAnswer × ReferenceStore :=
  match find key r.entries with
  | none => (.flag false, r)
  | some entry =>
    (.flag true, { r with entries := push { entry with expireAtMs := expireAtMs } r.entries })

/-- Milliseconds in seconds, rounded up. -/
def roundUp (ms : Int) : Int := -(-ms / 1000)

def remaining (r : ReferenceStore) (now : Int) (key : Str) : Int :=
  match find key r.entries with
  | none => -2
  | some entry => if entry.expireAtMs = 0 then -1 else roundUp (entry.expireAtMs - now)

/-- A call on the live entries. -/
def act (now : Int) (r : ReferenceStore) : MemoryCall → MemoryAnswer × ReferenceStore
  | .put key value => r.store now key value 0
  | .putTtl key value ttlSeconds =>
    if ttlSeconds ≤ 0 then (.flag false, r)
    else r.store now key value (now + ttlSeconds * 1000)
  | .putWithExpireAt key value d => r.store now key value d
  | .get key => (.value ((find key r.entries).map StoreEntry.value), r.touch key)
  | .exists_ key => (.flag (find key r.entries).isSome, r.touch key)
  | .del key => (.nothing, { r with entries := remove key r.entries })
  | .expire key ttlSeconds =>
    if ttlSeconds ≤ 0 then (.flag false, r) else r.date key (now + ttlSeconds * 1000)
  | .expireAt key d => r.date key d
  | .ttl key => (.seconds (r.remaining now key), r)
  | .size => (.count r.entries.length, r)
  | .setMaxKeys maxKeys => (.nothing, ⟨cap maxKeys r.entries, maxKeys⟩)

def exec (now : Int) (r : ReferenceStore) (call : MemoryCall) : MemoryAnswer × ReferenceStore :=
  (r.at_ now).act now call

def execAll (r : ReferenceStore) : List (Int × MemoryCall) → List MemoryAnswer × ReferenceStore
  | [] => ([], r)
  | (now, call) :: rest =>
    let (answer, r) := r.exec now call
    (execAll r rest).map (answer :: ·) id

end ReferenceStore

end TinyKV
