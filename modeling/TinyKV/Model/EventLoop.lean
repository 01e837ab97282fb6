import TinyKV.Model.Framing
import TinyKV.Model.ThreadPool

/-!
# Connections between the event loop and the workers

One thread waits for events, reads from the connections and cuts what it has
read into requests. Requests that came in together are one task of the pool,
and the worker that takes it answers them in turn and sends all answers at the
end. A connection is registered with `EPOLLONESHOT`: once an event has been
reported for it there are no more until it is armed again, which is the last
thing the event loop or the worker does with it.

All of them know a connection by its descriptor only, and a number is given out
again as soon as it has been closed. Which connection a number stands for is the
kernel's business; a task remembers it here so that it can be compared. A call
into the kernel is a step, and so is every section that holds `m_clients_mutex`;
`close_client`, `remove_client_from_epoll` and `rearm_client` are sequences of
such steps.

What a worker does with a request is a parameter, `handle`: it takes what the
request meets from outside (the time, say), the state all workers share and the
request, and gives the answer. It is one step, as a call of the store is. A write
that is replicated is not: it lets go of its locks while it waits for followers,
and what falls in between is a matter of `Model.Cluster`. A call that was
interrupted is made again, and one that would block is left for later; neither is
a step here.
-/

namespace TinyKV

/-! ## The kernel's side -/

/-- A connection: what has arrived and waits to be read, what `recv` has given
out, whether the other side has ended or broken it off, and what `send` has
taken. -/
structure Connection where
  unread : Str := []
  received : Str := []
  ended : Bool := false
  broken : Bool := false
  sent : Str := []
  deriving DecidableEq, Repr

inductive Interest
  | armed | disarmed
  deriving DecidableEq, Repr

/-- A descriptor: the connection it stands for, how it is registered, and its
entry in `m_client_buffers`. -/
structure Descriptor where
  connection : Option Nat := none
  interest : Option Interest := none
  buffer : Option Str := none
  deriving DecidableEq, Repr

/-! ## What is done to a descriptor -/

inductive FdOp
  | epollDel | eraseBuffer | close | findBuffer | epollMod
  deriving DecidableEq, Repr

def closeClient : List FdOp := [.epollDel, .eraseBuffer, .close]

def removeClientFromEpoll : List FdOp := [.epollDel, .eraseBuffer]

def rearmClient : List FdOp := [.findBuffer, .epollMod]

/-- An operation on a descriptor, and what is to be done after it. The
descriptor of epoll itself is gone once the server has been stopped. -/
def FdOp.exec (epollOpen : Bool) (d : Descriptor) (rest : List FdOp) :
    FdOp → Descriptor × List FdOp
  | epollDel => (if epollOpen then { d with interest := none } else d, rest)
  | eraseBuffer => ({ d with buffer := none }, rest)
  | close => ({ d with connection := none, interest := none }, rest)
  | findBuffer => (d, if d.buffer.isSome then rest else [])
  | epollMod =>
    if epollOpen then
      if d.interest.isSome then ({ d with interest := some .armed }, rest) else (d, closeClient)
    else (d, rest)

/-! ## Tasks -/

/-- How far `process_client_lines` has come. -/
inductive TaskStage
  | serving (lines : List Str) (response : Str)
  | sending (rest : Str)
  | ops (ops : List FdOp)
  deriving DecidableEq, Repr

/-- A call of `process_client_lines`. `origin` is the connection the lines were
read from. -/
structure ClientTask where
  fd : Nat
  closeAfterSend : Bool
  origin : Option Nat
  stage : TaskStage
  deriving DecidableEq, Repr

namespace ClientTask

/-- After the answers have been sent. -/
def afterSend (j : ClientTask) : ClientTask :=
  { j with stage := .ops (if j.closeAfterSend then [.close] else rearmClient) }

end ClientTask

/-! ## The event loop -/

/-- Where the thread of the event loop is: in `epoll_wait`, between two events,
in `handle_client_read` before a `recv`, behind its loop with what is still to
be done before the requests are handed on, or in what it does last with a
descriptor. -/
inductive LoopStage
  | polling
  | handling
  | reading (fd : Nat) (origin : Option Nat) (lines : List Str)
  | dispatching (fd : Nat) (origin : Option Nat) (lines : List Str) (closeAfterSend : Bool)
      (ops : List FdOp)
  | ops (fd : Nat) (ops : List FdOp)
  deriving DecidableEq, Repr

/-- A request that has been answered. -/
structure Served (ι : Type) where
  origin : Option Nat
  input : ι
  line : Str
  reply : Str
  deriving DecidableEq, Repr

/-- The connections of a server and the threads that serve them. `batch` is
what `epoll_wait` reported and has not been looked at: a descriptor, and whether
it can be read. `history` is kept for the statements. -/
structure EventLoop (σ ι : Type) where
  connections : List Connection := []
  descriptors : Nat → Descriptor := fun _ => {}
  epollOpen : Bool := true
  batch : List (Nat × Bool) := []
  stage : LoopStage := .polling
  pool : ThreadPool ClientTask
  shared : σ
  history : List (Served ι) := []

def kMaxEvents : Nat := 256

def kReadBufferSize : Nat := 4096

inductive NetEvent (ι : Type)
  /-- bytes for a connection, its end, or its breaking off -/
  | arrive (connection : Nat) (bytes : Str)
  | end_ (connection : Nat)
  | break_ (connection : Nat)
  /-- `accept` gives this descriptor to a new connection -/
  | accept (fd : Nat)
  /-- epoll puts an event into the batch -/
  | report (fd : Nat) (readable : Bool)
  /-- `epoll_wait` returns -/
  | return_
  /-- the event loop goes on; `n` is how many bytes `recv` gives -/
  | loop (n : Nat)
  /-- a worker goes on with its task; `n` is how many bytes `send` takes -/
  | work (worker n : Nat) (input : ι)
  /-- the pool's own steps -/
  | pool (e : PoolEvent ClientTask)
  /-- the first half of `stop` -/
  | closeEpoll
  deriving DecidableEq, Repr

namespace EventLoop

variable {σ ι : Type} (s : EventLoop σ ι)

def setDescriptor (fd : Nat) (d : Descriptor) : EventLoop σ ι :=
  { s with descriptors := Function.update s.descriptors fd d }

def setConnection (c : Nat) (k : Connection) : EventLoop σ ι :=
  { s with connections := s.connections.set c k }

def setTask (i : Nat) (j : ClientTask) : EventLoop σ ι :=
  { s with pool := s.pool.setWorker i (.running j) }

/-- The connection behind a descriptor. -/
def connectionAt (fd : Nat) : Option (Nat × Connection) :=
  (s.descriptors fd).connection.bind fun c => s.connections[c]?.map (c, ·)

/-! ### `handle_client_read` -/

/-- One round of the receive loop. A descriptor that is not open is an error,
as a broken connection is. -/
def recv (fd : Nat) (origin : Option Nat) (lines : List Str) (n : Nat) :
    Option (EventLoop σ ι) :=
  match s.connectionAt fd with
  | none => some { s with stage := .ops fd closeClient }
  | some (c, k) =>
    if k.broken then some { s with stage := .ops fd closeClient }
    else if k.unread ≠ [] then
      if 0 < n ∧ n ≤ kReadBufferSize ∧ n ≤ k.unread.length then
        let chunk := k.unread.take n
        let s := s.setConnection c
          { k with unread := k.unread.drop n, received := k.received ++ chunk }
        match (s.descriptors fd).buffer with
        | none => some { s with stage := .handling }
        | some pending =>
          let p := drain (pending ++ chunk)
          some { s.setDescriptor fd { s.descriptors fd with buffer := some p.2 } with
            stage := .reading fd origin (lines ++ p.1) }
      else none
    else if k.ended then
      match (s.descriptors fd).buffer with
      | none => some { s with stage := .dispatching fd origin lines true removeClientFromEpoll }
      | some pending =>
        let lines := if pending = [] then lines else lines ++ [pending]
        some { s.setDescriptor fd { s.descriptors fd with buffer := some [] } with
          stage := .dispatching fd origin lines true removeClientFromEpoll }
    else some { s with stage := .dispatching fd origin lines false [] }

/-- What `handle_client_read` does behind its loop. -/
def dispatch (fd : Nat) (origin : Option Nat) (lines : List Str) (closeAfterSend : Bool) :
    EventLoop σ ι :=
  if lines ≠ [] then
    let p := s.pool.submit ⟨fd, closeAfterSend, origin, .serving lines []⟩
    if p.1 then { s with pool := p.2, stage := .handling }
    else { s with stage := .ops fd closeClient }
  else if closeAfterSend then { s with stage := .ops fd closeClient }
  else { s with stage := .ops fd rearmClient }

/-- An operation of the event loop or of a worker. -/
def execOp (fd : Nat) (op : FdOp) (rest : List FdOp) : EventLoop σ ι × List FdOp :=
  let p := op.exec s.epollOpen (s.descriptors fd) rest
  (s.setDescriptor fd p.1, p.2)

def loop (n : Nat) : Option (EventLoop σ ι) :=
  match s.stage with
  | .polling => none
  | .handling =>
    match s.batch with
    | [] => some { s with stage := .polling }
    | (fd, true) :: batch =>
      some { s with batch := batch, stage := .reading fd (s.descriptors fd).connection [] }
    | (fd, false) :: batch => some { s with batch := batch, stage := .ops fd closeClient }
  | .reading fd origin lines => s.recv fd origin lines n
  | .dispatching fd origin lines closeAfterSend [] =>
    some (s.dispatch fd origin lines closeAfterSend)
  | .dispatching fd origin lines closeAfterSend (op :: ops) =>
    let p := s.execOp fd op ops
    some { p.1 with stage := .dispatching fd origin lines closeAfterSend p.2 }
  | .ops _ [] => some { s with stage := .handling }
  | .ops fd (op :: ops) =>
    let p := s.execOp fd op ops
    some { p.1 with stage := .ops fd p.2 }

/-! ### `process_client_lines` -/

/-- A round of `send_all`. -/
def send (j : ClientTask) (rest : Str) (n : Nat) : Option (EventLoop σ ι × ClientTask) :=
  match s.connectionAt j.fd with
  | none => some (s, { j with stage := .ops closeClient })
  | some (c, k) =>
    if k.broken then some (s, { j with stage := .ops closeClient })
    else if 0 < n ∧ n ≤ rest.length then
      some (s.setConnection c { k with sent := k.sent ++ rest.take n },
        { j with stage := .sending (rest.drop n) })
    else none

/-- A task one step further. -/
def work (handle : ι → σ → Str → Str × σ) (j : ClientTask) (n : Nat) (input : ι) :
    Option (EventLoop σ ι × ClientTask) :=
  match j.stage with
  | .serving (line :: lines) response =>
    let p := handle input s.shared line
    some ({ s with shared := p.2, history := s.history ++ [⟨j.origin, input, line, p.1⟩] },
      { j with stage := .serving lines (response ++ p.1) })
  | .serving [] response =>
    some (s, if response ≠ [] then { j with stage := .sending response } else j.afterSend)
  | .sending [] => some (s, j.afterSend)
  | .sending rest => s.send j rest n
  | .ops [] => none
  | .ops (op :: ops) =>
    let p := s.execOp j.fd op ops
    some (p.1, { j with stage := .ops p.2 })

/-! ### Steps -/

/-- Tasks are submitted by the event loop only, and a task returns when it has
nothing more to do. The pool is started before the first event, and stopped
after epoll. -/
def poolAllows : PoolEvent ClientTask → Bool
  | .notifyOne _ | .notifyAll | .wakeUp _ | .look _ => true
  | .finish i =>
    match s.pool.workers[i]? with
    | some (.running j) => decide (j.stage = .ops [])
    | _ => false
  | .stop | .join => !s.epollOpen
  | .start _ | .submit _ => false

/-- What `accept_clients` does with a connection: `emplace` leaves an entry
that is there as it is. A connection that cannot be made nonblocking or
registered is closed at once, and is none of those here. -/
def accept (fd : Nat) : EventLoop σ ι :=
  let s := s.setDescriptor fd
    { connection := some s.connections.length
      interest := some .armed
      buffer := some ((s.descriptors fd).buffer.getD []) }
  { s with connections := s.connections ++ [{}] }

def step (handle : ι → σ → Str → Str × σ) (s : EventLoop σ ι) :
    NetEvent ι → Option (EventLoop σ ι)
  | .arrive c bytes =>
    match s.connections[c]? with
    | some k =>
      if k.ended || k.broken then none
      else some (s.setConnection c { k with unread := k.unread ++ bytes })
    | none => none
  | .end_ c =>
    match s.connections[c]? with
    | some k => some (s.setConnection c { k with ended := true })
    | none => none
  | .break_ c =>
    match s.connections[c]? with
    | some k => some (s.setConnection c { k with broken := true })
    | none => none
  | .accept fd =>
    if s.stage = .handling ∧ s.epollOpen = true ∧ (s.descriptors fd).connection = none then
      some (s.accept fd)
    else none
  | .report fd readable =>
    match s.connectionAt fd with
    | some (_, k) =>
      if s.stage = .polling ∧ s.epollOpen = true ∧ s.batch.length < kMaxEvents ∧
          (s.descriptors fd).interest = some .armed ∧
          (k.broken = true ∨ (readable = true ∧ (k.unread ≠ [] ∨ k.ended = true))) then
        some { s.setDescriptor fd { s.descriptors fd with interest := some .disarmed } with
          batch := s.batch ++ [(fd, readable)] }
      else none
    | none => none
  | .return_ => if s.stage = .polling then some { s with stage := .handling } else none
  | .loop n => s.loop n
  | .work i n input =>
    match s.pool.workers[i]? with
    | some (.running j) => (s.work handle j n input).map fun p => p.1.setTask i p.2
    | _ => none
  | .pool e => if s.poolAllows e then (s.pool.step e).map fun p => { s with pool := p } else none
  | .closeEpoll => some { s with epollOpen := false }

/-- A server that has initialised everything and has no connection yet. The
pool is made with as many workers as the hardware says. -/
def fresh (hardware : Nat) (shared : σ) : EventLoop σ ι where
  pool := ((ThreadPool.create 0 hardware).start (max 1 hardware)).2
  shared := shared

end EventLoop

/-! ## Observations -/

/-- Requests answered one after the other, each with what it meets from
outside: the answers and the state in the end. -/
def serveAll {σ ι : Type} (handle : ι → σ → Str → Str × σ) : σ → List (ι × Str) → List Str × σ
  | shared, [] => ([], shared)
  | shared, (input, line) :: rest =>
    let p := handle input shared line
    (serveAll handle p.2 rest).map (p.1 :: ·) id

/-- The bytes an event brings for a connection. -/
def NetEvent.arrives {ι : Type} (c : Nat) : NetEvent ι → Str
  | arrive c' bytes => if c' = c then bytes else []
  | _ => []

namespace EventLoop

variable {σ ι : Type}

/-- The requests of a connection that have been answered. -/
def servedOn (s : EventLoop σ ι) (c : Nat) : List (Served ι) :=
  s.history.filter fun e => decide (e.origin = some c)

/-- Nothing happens unless something comes from outside. -/
structure Idle (handle : ι → σ → Str → Str × σ) (s : EventLoop σ ι) : Prop where
  stage : s.stage = .polling
  batch : s.batch = []
  report : ∀ fd readable, s.step handle (.report fd readable) = none
  work : ∀ worker n input, s.step handle (.work worker n input) = none
  pool : ∀ e : PoolEvent ClientTask, e.internal = true → s.step handle (.pool e) = none

end EventLoop

end TinyKV
