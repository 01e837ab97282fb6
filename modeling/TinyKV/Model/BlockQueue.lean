import TinyKV.Model.Types

/-!
# The queue of log lines

`block_queue` is an array used as a ring, with a count and two cursors. Both
cursors start at `-1` and are advanced before they are used, `m_front` by a
pop and `m_back` by a push. Every method holds the mutex from its first to
its last access, so a run is the sequence of calls in the order in which they
get it. A `pop` that finds the queue empty and open waits and gives the mutex
back: it is no call of the run until it can go on.

An index outside the array is an end of its own here, as it is not in the
source.
-/

namespace TinyKV

structure BlockQueue (T : Type) where
  array : List T
  size : Int := 0
  maxSize : Int
  front : Int := -1
  back : Int := -1
  closed : Bool := false

/-- The methods. A timed pop is one that has waited as long as it would. -/
inductive QueueCall (T : Type)
  | push (item : T)
  | pop
  | timedPop
  | front
  | back
  | size
  | maxSize
  | full
  | empty
  | clear
  | close
  deriving DecidableEq, Repr

/-- What a method returns. An item comes with the return value `true`. -/
inductive QueueAnswer (T : Type)
  | flag (b : Bool)
  | item (value : Option T)
  | count (n : Int)
  | nothing
  deriving DecidableEq, Repr

inductive QueueStop
  | waits
  | outOfRange (index : Int)
  deriving DecidableEq, Repr

namespace BlockQueue

variable {T : Type}

/-- The constructor. The elements are value initialised, and a size that is
not positive ends the process. -/
def create (initial : T) (maxSize : Int) : Option (BlockQueue T) :=
  if maxSize ≤ 0 then none
  else some { array := List.replicate maxSize.toNat initial, maxSize := maxSize }

/-- `m_array[index]`, read. -/
def read (q : BlockQueue T) (index : Int) : Except QueueStop T :=
  if 0 ≤ index then
    match q.array[index.toNat]? with
    | some value => .ok value
    | none => .error (.outOfRange index)
  else .error (.outOfRange index)

/-- `m_array[index]`, written. -/
def write (q : BlockQueue T) (index : Int) (value : T) : Except QueueStop (BlockQueue T) :=
  if 0 ≤ index ∧ index < q.array.length then
    .ok { q with array := q.array.set index.toNat value }
  else .error (.outOfRange index)

def clear (q : BlockQueue T) : BlockQueue T := { q with size := 0, front := -1, back := -1 }

def push (q : BlockQueue T) (item : T) : Except QueueStop (Bool × BlockQueue T) :=
  if q.closed then .ok (false, q)
  else if q.maxSize ≤ q.size then .ok (false, q)
  else do
    let q := { q with back := (q.back + 1).tmod q.maxSize }
    let q ← q.write q.back item
    .ok (true, { q with size := q.size + 1 })

/-- The end of both forms of `pop`, with the predicate of the wait true. -/
def take (q : BlockQueue T) : Except QueueStop (Option T × BlockQueue T) :=
  if q.size = 0 ∧ q.closed = true then .ok (none, q)
  else do
    let q := { q with front := (q.front + 1).tmod q.maxSize }
    let item ← q.read q.front
    .ok (some item, { q with size := q.size - 1 })

/-- The predicate both forms of `pop` wait for. -/
def ready (q : BlockQueue T) : Bool := decide (0 < q.size) || q.closed

def exec (q : BlockQueue T) : QueueCall T → Except QueueStop (QueueAnswer T × BlockQueue T)
  | .push item => do
      let (ok, q) ← q.push item
      .ok (.flag ok, q)
  | .pop =>
    if q.ready then do
      let (item, q) ← q.take
      .ok (.item item, q)
    else .error .waits
  | .timedPop =>
    if q.ready then do
      let (item, q) ← q.take
      .ok (.item item, q)
    else .ok (.item none, q)
  | .front =>
    if q.size = 0 then .ok (.item none, q)
    else do
      let value ← q.read ((q.front + 1).tmod q.maxSize)
      .ok (.item (some value), q)
  | .back =>
    if q.size = 0 then .ok (.item none, q)
    else do
      let value ← q.read q.back
      .ok (.item (some value), q)
  | .size => .ok (.count q.size, q)
  | .maxSize => .ok (.count q.maxSize, q)
  | .full => .ok (.flag (decide (q.maxSize ≤ q.size)), q)
  | .empty => .ok (.flag (decide (q.size = 0)), q)
  | .clear => .ok (.nothing, q.clear)
  | .close => .ok (.nothing, { q with closed := true })

/-- Calls one after the other, with what they return. -/
def execAll (q : BlockQueue T) :
    List (QueueCall T) → Except QueueStop (List (QueueAnswer T) × BlockQueue T)
  | [] => .ok ([], q)
  | call :: calls => do
      let (answer, q) ← q.exec call
      let (answers, q) ← q.execAll calls
      .ok (answer :: answers, q)

/-- The items in the queue, oldest first. -/
def contents (q : BlockQueue T) : List T :=
  (List.range q.size.toNat).filterMap fun (i : Nat) =>
    q.array[((q.front + 1 + i).tmod q.maxSize).toNat]?

end BlockQueue

end TinyKV
