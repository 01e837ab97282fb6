import Mathlib.Data.List.Basic

/-!
# The worker threads

`ThreadPool` keeps its tasks in a queue behind a mutex, and its workers sleep
on a condition variable while the queue is empty. A step of the model is what
a thread does from taking the mutex to giving it back, or a call of `notify_one`
or `notify_all` made without it: `submit` and `stop` notify after they have
given the mutex back, so a notification that is still to come is part of the
state. A worker may also wake up without one.

`m_cond.wait` looks at its condition with the mutex held, goes to sleep if it
does not hold, and looks again when it is woken. A worker that is about to look
is `looking`, whether for the first time, after a task or after a notification.
-/

namespace TinyKV

inductive Worker (τ : Type)
  | looking
  | waiting
  | running (task : τ)
  | returned
  deriving DecidableEq, Repr

namespace Worker

variable {τ : Type}

/-- The task a worker is at. -/
def tasks : Worker τ → List τ
  | running task => [task]
  | looking | waiting | returned => []

def isWaiting : Worker τ → Bool
  | waiting => true
  | _ => false

def isReturned : Worker τ → Bool
  | returned => true
  | _ => false

/-- A worker after `notify_all`. -/
def wake : Worker τ → Worker τ
  | waiting => looking
  | w => w

end Worker

/-- `notices` and `noticeAll` are the notifications that are still to come. -/
structure ThreadPool (τ : Type) where
  threadCount : Nat
  tasks : List τ := []
  workers : List (Worker τ) := []
  stopping : Bool := false
  notices : Nat := 0
  noticeAll : Bool := false
  deriving DecidableEq, Repr

inductive PoolEvent (τ : Type)
  /-- `start`, where this many threads can be created -/
  | start (available : Nat)
  | submit (task : τ)
  /-- a `notify_one`, and the worker it wakes, if there is one to wake -/
  | notifyOne (worker : Option Nat)
  | notifyAll
  | wakeUp (worker : Nat)
  /-- the locked section of `worker_loop` -/
  | look (worker : Nat)
  /-- the task returns -/
  | finish (worker : Nat)
  /-- `stop` up to its notification -/
  | stop
  /-- `m_workers.clear()`, which joins every thread -/
  | join
  deriving DecidableEq, Repr

namespace ThreadPool

variable {τ : Type}

/-- The constructor, on what `hardware_concurrency` says. -/
def create (threadCount hardware : Nat) : ThreadPool τ where
  threadCount := if threadCount = 0 then max 1 hardware else threadCount

def setWorker (p : ThreadPool τ) (i : Nat) (w : Worker τ) : ThreadPool τ :=
  { p with workers := p.workers.set i w }

/-- The mutex is held until the last thread is created, and so no worker can
be asleep when a failure is notified. -/
def start (p : ThreadPool τ) (available : Nat) : Bool × ThreadPool τ :=
  if p.workers ≠ [] then (true, p)
  else if p.threadCount ≤ available then
    (true, { p with stopping := false, workers := List.replicate p.threadCount .looking })
  else (false, { p with stopping := true, workers := List.replicate available .looking })

def submit (p : ThreadPool τ) (task : τ) : Bool × ThreadPool τ :=
  if p.stopping then (false, p)
  else (true, { p with tasks := p.tasks ++ [task], notices := p.notices + 1 })

/-- A worker with the mutex, in `m_cond.wait` and behind it. -/
def look (p : ThreadPool τ) (i : Nat) : ThreadPool τ :=
  match p.tasks with
  | [] => p.setWorker i (if p.stopping then .returned else .waiting)
  | task :: tasks => { p.setWorker i (.running task) with tasks := tasks }

/-- What the workers are at. -/
def running (p : ThreadPool τ) : List τ := p.workers.flatMap Worker.tasks

def step (p : ThreadPool τ) : PoolEvent τ → Option (ThreadPool τ)
  | .start available => some (p.start available).2
  | .submit task => some (p.submit task).2
  | .notifyOne none =>
    if 0 < p.notices ∧ p.workers.any Worker.isWaiting = false then
      some { p with notices := p.notices - 1 }
    else none
  | .notifyOne (some i) =>
    match p.workers[i]? with
    | some .waiting =>
      if 0 < p.notices then
        some { p.setWorker i .looking with notices := p.notices - 1 }
      else none
    | _ => none
  | .notifyAll =>
    if p.noticeAll then
      some { p with workers := p.workers.map Worker.wake, noticeAll := false }
    else none
  | .wakeUp i =>
    match p.workers[i]? with
    | some .waiting => some (p.setWorker i .looking)
    | _ => none
  | .look i =>
    match p.workers[i]? with
    | some .looking => some (p.look i)
    | _ => none
  | .finish i =>
    match p.workers[i]? with
    | some (.running _) => some (p.setWorker i .looking)
    | _ => none
  | .stop => some { p with stopping := true, noticeAll := true }
  | .join =>
    if p.stopping && !p.noticeAll && p.workers.all Worker.isReturned then
      some { p with workers := [] }
    else none

end ThreadPool

/-- A step the pool takes by itself, without a caller and without luck. -/
def PoolEvent.internal {τ : Type} : PoolEvent τ → Bool
  | notifyOne _ | notifyAll | look _ | finish _ => true
  | start _ | submit _ | wakeUp _ | stop | join => false

/-! ## What a run has done -/

/-- A pool with the tasks it has accepted, begun and ended so far. -/
structure PoolHistory (τ : Type) where
  pool : ThreadPool τ
  accepted : List τ := []
  started : List τ := []
  finished : List τ := []

namespace ThreadPool

variable {τ : Type}

/-- The task an event puts into the queue. -/
def acceptedBy (p : ThreadPool τ) : PoolEvent τ → List τ
  | .submit task => if (p.submit task).1 then [task] else []
  | _ => []

/-- The task an event takes out of the queue. -/
def startedBy (p : ThreadPool τ) : PoolEvent τ → List τ
  | .look _ => p.tasks.head?.toList
  | _ => []

def finishedBy (p : ThreadPool τ) : PoolEvent τ → List τ
  | .finish i => (p.workers[i]?.map Worker.tasks).getD []
  | _ => []

end ThreadPool

namespace PoolHistory

variable {τ : Type}

def step (h : PoolHistory τ) (e : PoolEvent τ) : Option (PoolHistory τ) :=
  (h.pool.step e).map fun pool =>
    { pool := pool
      accepted := h.accepted ++ h.pool.acceptedBy e
      started := h.started ++ h.pool.startedBy e
      finished := h.finished ++ h.pool.finishedBy e }

/-- A pool that has just been made. -/
def fresh (threadCount hardware : Nat) : PoolHistory τ where
  pool := .create threadCount hardware

end PoolHistory

end TinyKV
