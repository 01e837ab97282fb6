import TinyKV.Model.BlockQueue

/-!
# The reference for the queue of log lines

A list with a bound. It takes items at its end until it is full or closed and
gives them from its front; once it is closed it gives what is left and then
nothing. The calls and answers are those of `BlockQueue`. A run's accepted and
popped items are read off its calls and their answers, so they are the same
notion for the queue and for the list.
-/

namespace TinyKV

structure BoundedFifo (T : Type) where
  items : List T := []
  bound : Nat
  closed : Bool := false

namespace BoundedFifo

variable {T : Type}

/-- The oldest item, or nothing. -/
def take (f : BoundedFifo T) : Option T × BoundedFifo T :=
  match f.items with
  | [] => (none, f)
  | item :: rest => (some item, { f with items := rest })

def exec (f : BoundedFifo T) : QueueCall T → Except QueueStop (QueueAnswer T × BoundedFifo T)
  | .push item =>
    if f.closed = true ∨ f.bound ≤ f.items.length then .ok (.flag false, f)
    else .ok (.flag true, { f with items := f.items ++ [item] })
  | .pop =>
    if f.items = [] ∧ f.closed = false then .error .waits
    else .ok (f.take.map .item id)
  | .timedPop => .ok (f.take.map .item id)
  | .front => .ok (.item f.items.head?, f)
  | .back => .ok (.item f.items.getLast?, f)
  | .size => .ok (.count f.items.length, f)
  | .maxSize => .ok (.count f.bound, f)
  | .full => .ok (.flag (decide (f.bound ≤ f.items.length)), f)
  | .empty => .ok (.flag f.items.isEmpty, f)
  | .clear => .ok (.nothing, { f with items := [] })
  | .close => .ok (.nothing, { f with closed := true })

def execAll (f : BoundedFifo T) :
    List (QueueCall T) → Except QueueStop (List (QueueAnswer T) × BoundedFifo T)
  | [] => .ok ([], f)
  | call :: calls => do
      let (answer, f) ← f.exec call
      let (answers, f) ← f.execAll calls
      .ok (answer :: answers, f)

end BoundedFifo

/-- The item of a push that was answered `true`. -/
def acceptedBy {T : Type} : QueueCall T × QueueAnswer T → Option T
  | (.push item, .flag true) => some item
  | _ => none

/-- The item a pop has given. -/
def poppedBy {T : Type} : QueueCall T × QueueAnswer T → Option T
  | (.pop, .item value) => value
  | (.timedPop, .item value) => value
  | _ => none

/-- The accepted items of a run, in the order of their pushes. -/
def accepted {T : Type} (calls : List (QueueCall T)) (answers : List (QueueAnswer T)) : List T :=
  (calls.zip answers).filterMap acceptedBy

/-- The popped items of a run, in the order of their pops. -/
def popped {T : Type} (calls : List (QueueCall T)) (answers : List (QueueAnswer T)) : List T :=
  (calls.zip answers).filterMap poppedBy

end TinyKV
