import TinyKV.Model.EventLoop
import TinyKV.Proofs.Framing
import TinyKV.Proofs.ThreadPool

/-!
# One thread at a time has a connection

What carries every result about connections is who may touch a descriptor. An
open descriptor is armed, and then no thread has it, or it is in exactly one
place: in the batch, with the event loop, in a task of the queue, or with a
worker. Whoever has it keeps it open, so the number cannot come to stand for
another connection in the meantime.

Along with that goes an account of each connection: the requests cut from its
bytes are those answered and those in the hands of whoever has the descriptor,
and the answers are the bytes sent and those still to be sent. A step moves one
descriptor on, and the account of the others is left alone.
-/

namespace TinyKV

open Runs Threads
open scoped List

variable {σ ι : Type}

/-! ## The account of a connection -/

/-- A connection and the requests of it that have been answered. -/
structure Account (ι : Type) where
  conn : Connection
  served : List (Served ι)

theorem handedOn_singleton (bytes : Str) :
    handedOn [bytes] =
      (drain bytes).1 ++ (if (drain bytes).2 = [] then [] else [(drain bytes).2]) := by
  have hreceive : receive [] [bytes] = drain bytes := by simp [receive]
  rw [handedOn, hreceive]
  split <;> simp

namespace Account

def lines (a : Account ι) : List Str := a.served.map Served.line

def replies (a : Account ι) : Str := a.served.flatMap Served.reply

/-- The requests in what has been received. Without a buffer everything has
been read, and what was left in the buffer is the last of them. -/
def Makes (a : Account ι) (lines : List Str) : Option Str → Prop
  | some pending => drain a.conn.received = (lines, pending)
  | none => a.conn.ended = true ∧ a.conn.unread = [] ∧ handedOn [a.conn.received] = lines

/-- `lines` and `response` are in somebody's hands. -/
structure Owes (a : Account ι) (buffer : Option Str) (lines : List Str) (response : Str) :
    Prop where
  lines : a.Makes (a.lines ++ lines) buffer
  replies : a.replies = a.conn.sent ++ response

/-- What has been answered and sent is the front of what is to be answered and
sent. -/
structure Fair (a : Account ι) : Prop where
  lines : a.lines <+: handedOn [a.conn.received]
  replies : a.conn.sent <+: a.replies

/-- Nothing more will be done for the connection. -/
structure Settled (stopping : Bool) (a : Account ι) : Prop where
  fair : a.Fair
  all : a.conn.broken = false → stopping = false → a.Owes none [] []

variable {stopping stopping' : Bool} {a a' : Account ι} {buffer : Option Str}
  {pending response : Str} {lines : List Str}

theorem Owes.fair (h : a.Owes buffer lines response) : a.Fair where
  lines := by
    have hlines := h.lines
    cases buffer with
    | none =>
      rw [hlines.2.2]
      exact List.prefix_append ..
    | some pending =>
      rw [handedOn_singleton, hlines, List.append_assoc]
      exact List.prefix_append ..
  replies := h.replies ▸ List.prefix_append ..

theorem Owes.settled (h : a.Owes buffer lines response)
    (hlost : a.conn.broken = true ∨ stopping = true ∨
      buffer = none ∧ lines = [] ∧ response = []) : a.Settled stopping where
  fair := h.fair
  all hb hs := by
    simp only [hb, hs, Bool.false_eq_true, false_or] at hlost
    obtain ⟨rfl, rfl, rfl⟩ := hlost
    exact h

/-- A chunk of the connection goes through the buffer. -/
theorem Owes.chunk (h : a.Owes (some pending) lines response) (unread chunk : Str) :
    (⟨{ a.conn with unread := unread, received := a.conn.received ++ chunk }, a.served⟩ :
      Account ι).Owes (some (drain (pending ++ chunk)).2)
      (lines ++ (drain (pending ++ chunk)).1) response where
  lines := by
    have hlines : drain a.conn.received = _ := h.lines
    rw [Makes, drain_append, hlines]
    simp only [Account.lines, List.append_assoc]
  replies := h.replies

/-- What is left in the buffer at the end of the stream is one more request. -/
theorem Owes.ended (h : a.Owes (some pending) lines response) (hu : a.conn.unread = [])
    (he : a.conn.ended = true) :
    a.Owes none (if pending = [] then lines else lines ++ [pending]) response where
  lines := by
    have hlines : drain a.conn.received = _ := h.lines
    refine ⟨he, hu, ?_⟩
    rw [handedOn_singleton, hlines]
    split <;> simp
  replies := h.replies

/-- A request has been answered. -/
theorem Owes.serve {x : Served ι} (h : a.Owes buffer (x.line :: lines) response) :
    (⟨a.conn, a.served ++ [x]⟩ : Account ι).Owes buffer lines (response ++ x.reply) where
  lines := by
    have hlines : (⟨a.conn, a.served ++ [x]⟩ : Account ι).lines ++ lines =
        a.lines ++ (x.line :: lines) := by
      simp [Account.lines]
    rw [hlines]
    cases buffer <;> exact h.lines
  replies := by
    rw [← List.append_assoc, ← h.replies]
    simp [Account.replies]

/-- Bytes have been sent. -/
theorem Owes.send {sent : Str} (h : a.Owes buffer lines (sent ++ response)) :
    (⟨{ a.conn with sent := a.conn.sent ++ sent }, a.served⟩ : Account ι).Owes buffer lines
      response where
  lines := by cases buffer <;> exact h.lines
  replies := h.replies.trans (List.append_assoc ..).symm

/-- The account after something that is not done by the server: bytes arrive,
or the other side ends or breaks off the connection. -/
structure Later (a a' : Account ι) : Prop where
  served : a'.served = a.served
  received : a'.conn.received = a.conn.received
  sent : a'.conn.sent = a.conn.sent
  ended : a.conn.ended = true → a'.conn.ended = true ∧ a'.conn.unread = a.conn.unread
  broken : a.conn.broken = true → a'.conn.broken = true

theorem Later.refl (a : Account ι) : a.Later a := ⟨rfl, rfl, rfl, fun h => ⟨h, rfl⟩, id⟩

theorem Owes.later (h : a.Owes buffer lines response) (hl : a.Later a') :
    a'.Owes buffer lines response := by
  constructor
  · have hlines := h.lines
    rw [Account.lines, hl.served]
    cases buffer with
    | none =>
      obtain ⟨he, hu, hall⟩ := hlines
      obtain ⟨he', hu'⟩ := hl.ended he
      exact ⟨he', hu'.trans hu, hl.received ▸ hall⟩
    | some pending =>
      rw [Makes, hl.received]
      exact hlines
  · rw [hl.sent, Account.replies, hl.served]
    exact h.replies

theorem Fair.later (h : a.Fair) (hl : a.Later a') : a'.Fair := by
  constructor
  · rw [hl.received, Account.lines, hl.served]
    exact h.lines
  · rw [hl.sent, Account.replies, hl.served]
    exact h.replies

theorem Settled.later (h : a.Settled stopping) (hl : a.Later a')
    (hst : stopping = true → stopping' = true) : a'.Settled stopping' where
  fair := h.fair.later hl
  all hb hs := by
    refine (h.all ?_ ?_).later hl
    · exact Bool.eq_false_iff.mpr fun hbroken => by simp [hl.broken hbroken] at hb
    · exact Bool.eq_false_iff.mpr fun hstop => by simp [hst hstop] at hs

end Account

/-! ## Who has a descriptor -/

inductive Holder
  | event (readable : Bool)
  | reading (origin : Option Nat) (lines : List Str)
  | dispatching (origin : Option Nat) (lines : List Str) (closeAfterSend : Bool) (ops : List FdOp)
  | ops (ops : List FdOp)
  | task (j : ClientTask)

def ClientTask.holders (j : ClientTask) : List (Nat × Holder) :=
  if j.stage = .ops [] then [] else [(j.fd, .task j)]

def LoopStage.holders : LoopStage → List (Nat × Holder)
  | polling | handling => []
  | reading fd origin lines => [(fd, .reading origin lines)]
  | dispatching fd origin lines close todo => [(fd, .dispatching origin lines close todo)]
  | ops _ [] => []
  | ops fd (op :: rest) => [(fd, .ops (op :: rest))]

/-- Those who have the descriptor `fd`. -/
def pick (fd : Nat) (hs : List (Nat × Holder)) : List Holder :=
  (hs.filter fun h => decide (h.1 = fd)).map Prod.snd

theorem pick_append (fd : Nat) (hs hs' : List (Nat × Holder)) :
    pick fd (hs ++ hs') = pick fd hs ++ pick fd hs' := by
  simp [pick]

theorem pick_perm {hs hs' : List (Nat × Holder)} (h : hs ~ hs') (fd : Nat) :
    pick fd hs ~ pick fd hs' :=
  (h.filter _).map _

theorem pick_map (fd fd' : Nat) (l : List Holder) :
    pick fd' (l.map (fd, ·)) = if fd = fd' then l else [] := by
  split
  · next h => simp [pick, h, List.filter_map, Function.comp_def]
  · next h => simp [pick, h, List.filter_map, Function.comp_def]

namespace EventLoop

def account (s : EventLoop σ ι) (c : Nat) : Option (Account ι) :=
  s.connections[c]?.map (⟨·, s.servedOn c⟩)

def accountAt (s : EventLoop σ ι) (fd : Nat) : Option (Account ι) :=
  (s.descriptors fd).connection.bind s.account

def taskHolders (p : ThreadPool ClientTask) : List (Nat × Holder) :=
  p.tasks.flatMap ClientTask.holders ++
    p.workers.flatMap fun w => w.tasks.flatMap ClientTask.holders

/-- Those who have a descriptor and are not the event loop at work on it. -/
def others (s : EventLoop σ ι) : List (Nat × Holder) :=
  s.batch.map (fun e => (e.1, .event e.2)) ++ taskHolders s.pool

def holders (s : EventLoop σ ι) : List (Nat × Holder) := s.stage.holders ++ s.others

def held (s : EventLoop σ ι) (fd : Nat) : List Holder := pick fd s.holders

end EventLoop

/-! ## What the holder of a descriptor relies on -/

def Unarmed (e : Bool) (d : Descriptor) : Prop := e = true → d.interest ≠ some .armed

/-- The descriptor of a connection that is being served. With the end of the
stream it has left epoll and `m_client_buffers`. -/
structure Busy (e : Bool) (d : Descriptor) (a : Account ι) (close : Bool) (lines : List Str)
    (response : Str) : Prop where
  buffer : d.buffer.isNone = close
  interest : e = true → d.interest = if close then none else some .disarmed
  owes : a.Owes d.buffer lines response

/-- `remove_client_from_epoll`, as far as it has still to go before the requests
are handed on. -/
inductive Removing (e : Bool) (d : Descriptor) (a : Account ι) (lines : List Str) :
    Bool → List FdOp → Prop
  | epollDel (hi : Unarmed e d) (ho : a.Owes none lines []) :
      Removing e d a lines true removeClientFromEpoll
  | eraseBuffer (hi : e = true → d.interest = none) (ho : a.Owes none lines []) :
      Removing e d a lines true [.eraseBuffer]
  | done {close : Bool} (h : Busy e d a close lines []) : Removing e d a lines close []

/-- `close_client` and `rearm_client`, as far as they have still to go. -/
inductive Chore (e stopping : Bool) (d : Descriptor) (a : Account ι) (ops : List FdOp) : Prop
  | closing (hops : ops = closeClient ∨ ops = [.eraseBuffer, .close] ∨
        ops = [.close] ∧ d.buffer = none)
      (hi : Unarmed e d) (hs : a.Settled stopping) : Chore e stopping d a ops
  | rearming (hops : ops = rearmClient ∨ ops = [.epollMod]) (h : Busy e d a false [] []) :
      Chore e stopping d a ops

def TaskStage.Fits (e stopping : Bool) (d : Descriptor) (a : Account ι) (close : Bool) :
    TaskStage → Prop
  | serving lines response => Busy e d a close lines response
  | sending rest => Busy e d a close [] rest
  | ops todo => Chore e stopping d a todo

def Holder.Fits (e stopping : Bool) (d : Descriptor) (a : Account ι) : Holder → Prop
  | event readable => (readable = false → a.conn.broken = true) ∧ Busy e d a false [] []
  | reading origin lines => origin = d.connection ∧ Busy e d a false lines []
  | dispatching origin lines close todo => origin = d.connection ∧ Removing e d a lines close todo
  | ops todo => Chore e stopping d a todo
  | task j => j.origin = d.connection ∧ j.stage.Fits e stopping d a j.closeAfterSend

/-- A descriptor, the account of the connection behind it, and those who have
it. -/
inductive Local (e stopping : Bool) (d : Descriptor) (A : Option (Account ι)) :
    List Holder → Prop
  | closed (hd : d = {}) : Local e stopping d A []
  | watched {a : Account ι} (hA : A = some a) (hb : d.buffer.isSome = true)
      (hi : e = true → d.interest = some .armed) (ho : a.Owes d.buffer [] []) :
      Local e stopping d A []
  | held {a : Account ι} {x : Holder} (hA : A = some a) (h : x.Fits e stopping d a) :
      Local e stopping d A [x]

section Fits

variable {e stopping : Bool} {d : Descriptor} {a : Account ι} {close : Bool} {lines : List Str}
  {response : Str}

theorem Busy.unarmed (h : Busy e d a close lines response) : Unarmed e d := by
  intro he
  rw [h.interest he]
  cases close <;> simp

/-- A connection whose requests are dropped is closed. -/
theorem Busy.closing (h : Busy e d a close lines response)
    (hlost : a.conn.broken = true ∨ stopping = true) : Chore e stopping d a closeClient :=
  .closing (Or.inl rfl) h.unarmed (h.owes.settled (hlost.imp_right Or.inl))

/-- Nothing is left to do for a connection that has left epoll. -/
theorem Busy.settled (h : Busy e d a true [] []) : a.Settled stopping :=
  h.owes.settled (Or.inr (Or.inr ⟨Option.isNone_iff_eq_none.mp h.buffer, rfl, rfl⟩))

/-- All answers have been sent. -/
theorem Busy.afterSend (h : Busy e d a close [] []) :
    Chore e stopping d a (if close then [.close] else rearmClient) := by
  cases close with
  | false => exact .rearming (Or.inl rfl) h
  | true =>
    exact .closing (Or.inr (Or.inr ⟨rfl, Option.isNone_iff_eq_none.mp h.buffer⟩)) h.unarmed
      h.settled

theorem Chore.sound {todo : List FdOp} (h : Chore e stopping d a todo) :
    Unarmed e d ∧ a.Fair := by
  cases h with
  | closing _ hi hs => exact ⟨hi, hs.fair⟩
  | rearming _ h => exact ⟨h.unarmed, h.owes.fair⟩

/-- Whoever has a descriptor, it is not armed, and the connection has been
treated well so far. -/
theorem Holder.Fits.sound {x : Holder} (h : x.Fits e stopping d a) : Unarmed e d ∧ a.Fair := by
  cases x with
  | event | reading => exact ⟨h.2.unarmed, h.2.owes.fair⟩
  | dispatching origin lines close todo =>
    cases h.2 with
    | epollDel hi ho => exact ⟨hi, ho.fair⟩
    | eraseBuffer hi ho => exact ⟨fun he => by simp [hi he], ho.fair⟩
    | done hbusy => exact ⟨hbusy.unarmed, hbusy.owes.fair⟩
  | ops todo => exact Chore.sound h
  | task j =>
    obtain ⟨fd, close, origin, stage⟩ := j
    cases stage with
    | serving | sending => exact ⟨Busy.unarmed h.2, Busy.owes h.2 |>.fair⟩
    | ops todo => exact Chore.sound h.2

end Fits

/-! ## What others may do -/

section Later

variable {e e' stopping stopping' : Bool} {d : Descriptor} {a a' : Account ι}
  (he : e' = true → e = true) (hst : stopping = true → stopping' = true) (hl : a.Later a')

include he hl

theorem Busy.later {close : Bool} {lines : List Str} {response : Str}
    (h : Busy e d a close lines response) : Busy e' d a' close lines response :=
  ⟨h.buffer, fun h' => h.interest (he h'), h.owes.later hl⟩

include hst

theorem Chore.later {todo : List FdOp} (h : Chore e stopping d a todo) :
    Chore e' stopping' d a' todo := by
  cases h with
  | closing hops hi hs => exact .closing hops (fun h' => hi (he h')) (hs.later hl hst)
  | rearming hops h => exact .rearming hops (h.later he hl)

theorem Holder.Fits.later {x : Holder} (h : x.Fits e stopping d a) :
    x.Fits e' stopping' d a' := by
  cases x with
  | event readable => exact ⟨fun hr => hl.broken (h.1 hr), h.2.later he hl⟩
  | reading => exact ⟨h.1, h.2.later he hl⟩
  | dispatching origin lines close todo =>
    refine ⟨h.1, ?_⟩
    cases h.2 with
    | epollDel hi ho => exact .epollDel (fun h' => hi (he h')) (ho.later hl)
    | eraseBuffer hi ho => exact .eraseBuffer (fun h' => hi (he h')) (ho.later hl)
    | done hbusy => exact .done (hbusy.later he hl)
  | ops todo => exact Chore.later he hst hl h
  | task j =>
    obtain ⟨fd, close, origin, stage⟩ := j
    cases stage with
    | serving | sending => exact ⟨h.1, Busy.later he hl h.2⟩
    | ops todo => exact ⟨h.1, Chore.later he hst hl h.2⟩

omit hl

/-- What the holder of a descriptor relies on outlasts what others do, the end
of epoll and the flag of the pool. -/
theorem Local.later {A A' : Option (Account ι)} {hs : List Holder} (h : Local e stopping d A hs)
    (hl : ∀ a, A = some a → ∃ a', A' = some a' ∧ a.Later a') : Local e' stopping' d A' hs := by
  cases h with
  | closed hd => exact .closed hd
  | watched hA hb hi ho =>
    obtain ⟨a', hA', hl⟩ := hl _ hA
    exact .watched hA' hb (fun h' => hi (he h')) (ho.later hl)
  | held hA h =>
    obtain ⟨a', hA', hl⟩ := hl _ hA
    exact .held hA' (h.later he hst hl)

end Later

namespace Local

variable {e stopping : Bool} {d : Descriptor} {A : Option (Account ι)} {hs : List Holder}

theorem length_le (h : Local e stopping d A hs) : hs.length ≤ 1 := by
  cases h <;> simp

theorem perm {hs' : List Holder} (h : Local e stopping d A hs) (hp : hs' ~ hs) :
    Local e stopping d A hs' := by
  have heq : hs' = hs := by
    cases h with
    | closed | watched => exact hp.eq_nil
    | held => exact List.perm_singleton.mp hp
  rwa [heq]

/-- A descriptor is closed, or it stands for a connection. -/
theorem closed_or (h : Local e stopping d A hs) : d = {} ∧ hs = [] ∨ ∃ a, A = some a := by
  cases h with
  | closed hd => exact Or.inl ⟨hd, rfl⟩
  | watched hA | held hA => exact Or.inr ⟨_, hA⟩

theorem fits {x : Holder} (h : Local e stopping d A [x]) :
    ∃ a, A = some a ∧ x.Fits e stopping d a := by
  cases h with
  | held hA h => exact ⟨_, hA, h⟩

theorem fair {a : Account ι} (h : Local e stopping d (some a) hs) (hd : d ≠ {}) : a.Fair := by
  cases h with
  | closed h => exact absurd h hd
  | watched hA _ _ ho =>
    cases hA
    exact ho.fair
  | held hA h =>
    cases hA
    exact h.sound.2

end Local

/-! ## Operations on a descriptor -/

/-- What a step makes of a descriptor: it is closed, and the connection settled,
or it stands for the same connection and `hs` have it. -/
inductive MovedTo (e stopping : Bool) (c : Option Nat) (d : Descriptor) (a : Account ι) :
    List Holder → Prop
  | closed (hd : d = {}) (hs : a.Settled stopping) : MovedTo e stopping c d a []
  | kept {hs : List Holder} (hc : d.connection = c) (h : Local e stopping d (some a) hs) :
      MovedTo e stopping c d a hs

theorem MovedTo.held {e stopping : Bool} {c : Option Nat} {d : Descriptor} {a : Account ι}
    {x : Holder} (hc : d.connection = c) (h : x.Fits e stopping d a) :
    MovedTo e stopping c d a [x] :=
  .kept hc (.held rfl h)

section Exec

variable {e stopping : Bool} {d : Descriptor} {a : Account ι} {op : FdOp} {ops : List FdOp}

theorem exec_epollDel (e : Bool) (d : Descriptor) (rest : List FdOp) :
    (FdOp.epollDel.exec e d rest).1 = { d with interest := if e then none else d.interest } := by
  rw [FdOp.exec]
  cases e <;> rfl

theorem Removing.exec {lines : List Str} {close : Bool}
    (h : Removing e d a lines close (op :: ops)) :
    (op.exec e d ops).1.connection = d.connection ∧
      Removing e (op.exec e d ops).1 a lines close (op.exec e d ops).2 := by
  cases h with
  | epollDel _ ho =>
    rw [exec_epollDel]
    exact ⟨rfl, .eraseBuffer (fun he => by simp [he]) ho⟩
  | eraseBuffer hi ho => exact ⟨rfl, .done ⟨rfl, hi, ho⟩⟩

/-- One operation of `close_client` or `rearm_client`, done by the holder `x`. -/
theorem Chore.exec (h : Chore e stopping d a (op :: ops)) {x : List FdOp → Holder}
    (hx : ∀ {d' : Descriptor} {todo : List FdOp}, d'.connection = d.connection →
      Chore e stopping d' a todo → (x todo).Fits e stopping d' a) :
    MovedTo e stopping d.connection (op.exec e d ops).1 a
      (if (op.exec e d ops).2 = [] then [] else [x (op.exec e d ops).2]) := by
  cases h with
  | closing hops hi hs =>
    rcases hops with hops | hops | ⟨hops, hb⟩
    · cases hops
      rw [exec_epollDel]
      refine .held rfl (hx rfl (.closing (Or.inr (Or.inl rfl)) (fun he => ?_) hs))
      simp [he]
    · cases hops
      exact .held rfl (hx rfl (.closing (Or.inr (Or.inr ⟨rfl, rfl⟩)) hi hs))
    · cases hops
      refine .closed ?_ hs
      simp [FdOp.exec, hb]
  | rearming hops h =>
    obtain ⟨pending, hb⟩ := Option.isSome_iff_exists.mp (Option.isNone_eq_false_iff.mp h.buffer)
    rcases hops with hops | hops
    · cases hops
      simp only [FdOp.exec, hb, Option.isSome_some, if_true]
      exact .held rfl (hx rfl (.rearming (Or.inr rfl) h))
    · cases hops
      have howes := h.owes
      cases he : e with
      | false =>
        exact .kept rfl (.watched rfl (by simp [FdOp.exec, hb]) (fun h' => by cases h') howes)
      | true =>
        have hi : d.interest = some .disarmed := h.interest he
        simp only [FdOp.exec, hi, Option.isSome_some, if_true]
        exact .kept rfl (.watched rfl (by simp [hb]) (fun _ => rfl) howes)

end Exec

/-! ## The invariant -/

namespace EventLoop

/-- Every descriptor is accounted for, no two stand for one connection, and a
connection without a descriptor is settled. -/
structure Inv (s : EventLoop σ ι) : Prop where
  locals : ∀ fd, Local s.epollOpen s.pool.stopping (s.descriptors fd) (s.accountAt fd) (s.held fd)
  distinct : ∀ fd fd' c, (s.descriptors fd).connection = some c →
    (s.descriptors fd').connection = some c → fd = fd'
  settled : ∀ c a, s.account c = some a → (∀ fd, (s.descriptors fd).connection ≠ some c) →
    a.Settled s.pool.stopping
  known : ∀ e ∈ s.history, ∃ c, e.origin = some c ∧ c < s.connections.length

variable {s s' : EventLoop σ ι} {fd c : Nat} {d : Descriptor} {a : Account ι}
  {handle : ι → σ → Str → Str × σ}

theorem accountAt_eq_some :
    s.accountAt fd = some a ↔
      ∃ c, (s.descriptors fd).connection = some c ∧ s.account c = some a :=
  Option.bind_eq_some_iff

theorem account_eq_some :
    s.account c = some a ↔ s.connections[c]? = some a.conn ∧ a.served = s.servedOn c := by
  rw [account, Option.map_eq_some_iff]
  constructor
  · rintro ⟨k, hk, rfl⟩
    exact ⟨hk, rfl⟩
  · rintro ⟨hk, hs⟩
    exact ⟨a.conn, hk, by rw [← hs]⟩

theorem lt_of_account (h : s.account c = some a) : c < s.connections.length :=
  (List.getElem?_eq_some_iff.mp (account_eq_some.mp h).1).1

theorem connectionAt_of_account (hc : (s.descriptors fd).connection = some c)
    (ha : s.account c = some a) : s.connectionAt fd = some (c, a.conn) := by
  rw [connectionAt, hc, Option.bind_some, (account_eq_some.mp ha).1, Option.map_some]

theorem account_congr (hc : s'.connections = s.connections) (hh : s'.history = s.history) :
    s'.account = s.account := by
  funext c
  rw [account, account, servedOn, servedOn, hc, hh]

theorem account_set {k k' : Connection} (hk : s.connections[c]? = some k)
    (hc : s'.connections = s.connections.set c k') (hh : s'.history = s.history) :
    s'.account = Function.update s.account c (some ⟨k', s.servedOn c⟩) := by
  funext c'
  have hon : s'.servedOn c' = s.servedOn c' := by rw [servedOn, servedOn, hh]
  rw [account, hc, hon]
  by_cases heq : c' = c
  · subst heq
    rw [Function.update_self, List.getElem?_set_self (List.getElem?_eq_some_iff.mp hk).1]
    rfl
  · rw [Function.update_of_ne heq, List.getElem?_set_ne (Ne.symm heq)]
    rfl

/-- A step that leaves the descriptors to whoever has them. -/
theorem Inv.later (h : s.Inv) (f : Nat → Account ι → Account ι)
    (hacc : ∀ c, s'.account c = (s.account c).map (f c)) (hl : ∀ c a, s.account c = some a →
      a.Later (f c a)) (hd : s'.descriptors = s.descriptors) (hheld : s'.holders ~ s.holders)
    (he : s'.epollOpen = true → s.epollOpen = true)
    (hst : s.pool.stopping = true → s'.pool.stopping = true)
    (hknown : s'.history = s.history ∧ s'.connections.length = s.connections.length) :
    s'.Inv where
  locals fd := by
    rw [hd]
    refine ((h.locals fd).later he hst fun a ha => ?_).perm (pick_perm hheld fd)
    obtain ⟨c, hc, ha⟩ := accountAt_eq_some.mp ha
    exact ⟨f c a, accountAt_eq_some.mpr ⟨c, hd ▸ hc, by rw [hacc, ha, Option.map_some]⟩, hl c a ha⟩
  distinct := by
    rw [hd]
    exact h.distinct
  settled c a' ha' hclosed := by
    rw [hacc] at ha'
    obtain ⟨a, ha, rfl⟩ := Option.map_eq_some_iff.mp ha'
    exact (h.settled c a ha (hd ▸ hclosed)).later (hl c a ha) hst
  known := by
    rw [hknown.1, hknown.2]
    exact h.known

/-- A step of the pool, of epoll or of the event loop between two events. -/
theorem Inv.schedule (h : s.Inv) (hd : s'.descriptors = s.descriptors)
    (hheld : s'.holders ~ s.holders) (he : s'.epollOpen = true → s.epollOpen = true)
    (hst : s.pool.stopping = true → s'.pool.stopping = true)
    (hc : s'.connections = s.connections) (hh : s'.history = s.history) : s'.Inv := by
  refine h.later (fun _ => id) (fun c => ?_) (fun _ a _ => .refl a) hd hheld he hst
    ⟨hh, by rw [hc]⟩
  rw [account_congr hc hh, Option.map_id_fun, id]

variable {stage : LoopStage} {x : Holder} {origin : Option Nat} {lines : List Str} {n i : Nat}
  {op : FdOp} {ops : List FdOp} {j : ClientTask} {p : ThreadPool ClientTask} {t : EventLoop σ ι}
  {e : PoolEvent ClientTask}

/-- The event loop goes on without a descriptor. -/
theorem Inv.pass (h : s.Inv) (hs : s.stage.holders = []) (hs' : stage.holders = []) :
    ({ s with stage := stage } : EventLoop σ ι).Inv := by
  refine h.schedule rfl ?_ id id rfl rfl
  rw [holders, holders, hs, hs']
  exact List.Perm.refl _

/-- Something happens to a connection from outside. -/
theorem inv_setConnection (h : s.Inv) {k k' : Connection} (hk : s.connections[c]? = some k)
    (hlater : ∀ served : List (Served ι), Account.Later ⟨k, served⟩ ⟨k', served⟩) :
    (s.setConnection c k').Inv := by
  have hset : (s.setConnection c k').account = _ := account_set hk rfl rfl
  refine h.later (fun c' a => if c' = c then ⟨k', a.served⟩ else a) (fun c' => ?_)
    (fun c' a ha => ?_) rfl (List.Perm.refl _) id id ⟨rfl, List.length_set ..⟩
  · rw [hset]
    by_cases hc : c' = c
    · subst hc
      simp [account, hk]
    · simp [hc]
  · split
    · next hc =>
      subst hc
      obtain ⟨hk', -⟩ := account_eq_some.mp ha
      cases hk.symm.trans hk'
      exact hlater a.served
    · exact .refl a

/-! ## A step that moves one descriptor -/

/-- The descriptor `fd` is now `d`, the account of the connection `c` is now
`a`, and the others have nothing to do with either. -/
structure Moves (s s' : EventLoop σ ι) (fd c : Nat) (d : Descriptor) (a : Account ι) : Prop where
  descriptors : s'.descriptors = Function.update s.descriptors fd d
  account : s'.account = Function.update s.account c (some a)
  own : ∀ fd', (s.descriptors fd').connection = some c → fd' = fd
  self : ∀ c', (s.descriptors fd).connection = some c' → c' = c
  epollOpen : s'.epollOpen = s.epollOpen
  stopping : s'.pool.stopping = s.pool.stopping
  known : ∀ e ∈ s'.history, ∃ c, e.origin = some c ∧ c < s'.connections.length

theorem Moves.connection (hm : Moves s s' fd c d a) {hs : List Holder} {fd' c' : Nat}
    (hafter : MovedTo s.epollOpen s.pool.stopping (some c) d a hs)
    (h : (s'.descriptors fd').connection = some c') :
    fd' = fd ∧ c' = c ∨ fd' ≠ fd ∧ c' ≠ c ∧ (s.descriptors fd').connection = some c' := by
  rw [hm.descriptors] at h
  by_cases hfd : fd' = fd
  · subst hfd
    rw [Function.update_self] at h
    cases hafter with
    | closed hd _ =>
      rw [hd] at h
      cases h
    | kept hc _ => exact Or.inl ⟨rfl, Option.some.inj (h.symm.trans hc)⟩
  · rw [Function.update_of_ne hfd] at h
    exact Or.inr ⟨hfd, fun hc => hfd (hm.own fd' (hc ▸ h)), h⟩

/-- A descriptor is moved on: those who have it before are `k`, those who have
it then are `l`, and `r` is what the others have. -/
theorem Inv.move (h : s.Inv) (hm : Moves s s' fd c d a) {k l : List Holder}
    {r : List (Nat × Holder)} (hk : s.holders ~ k.map (fd, ·) ++ r) (hr : pick fd r = [])
    (hl : s'.holders ~ l.map (fd, ·) ++ r)
    (hafter : MovedTo s.epollOpen s.pool.stopping (some c) d a l) : s'.Inv where
  locals fd' := by
    have hpick : s'.held fd' ~ (if fd = fd' then l else []) ++ pick fd' r := by
      rw [← pick_map, ← pick_append]
      exact pick_perm hl fd'
    rw [hm.epollOpen, hm.stopping]
    by_cases hfd : fd = fd'
    · subst hfd
      rw [if_pos rfl, hr, List.append_nil] at hpick
      refine Local.perm ?_ hpick
      rw [accountAt, hm.account, hm.descriptors, Function.update_self]
      cases hafter with
      | closed hd _ => exact .closed hd
      | kept hc hlocal =>
        rw [hc, Option.bind_some, Function.update_self]
        exact hlocal
    · rw [if_neg hfd, List.nil_append] at hpick
      have hold : s.held fd' ~ pick fd' r := by
        have hp := pick_perm hk fd'
        rwa [pick_append, pick_map, if_neg hfd, List.nil_append] at hp
      have hd : s'.descriptors fd' = s.descriptors fd' := by
        rw [hm.descriptors, Function.update_of_ne (Ne.symm hfd)]
      have hacc : s'.accountAt fd' = s.accountAt fd' := by
        rw [accountAt, accountAt, hd, hm.account]
        cases hc' : (s.descriptors fd').connection with
        | none => rfl
        | some c' =>
          refine Function.update_of_ne (fun heq => hfd ?_) ..
          exact (hm.own fd' (heq ▸ hc')).symm
      rw [hd, hacc]
      exact (h.locals fd').perm (hpick.trans hold.symm)
  distinct fd₁ fd₂ c' h₁ h₂ := by
    rcases hm.connection hafter h₁ with ⟨rfl, rfl⟩ | ⟨-, hne, h₁⟩
    · rcases hm.connection hafter h₂ with ⟨rfl, -⟩ | ⟨-, hne, -⟩
      · rfl
      · exact absurd rfl hne
    · rcases hm.connection hafter h₂ with ⟨-, hc⟩ | ⟨-, -, h₂⟩
      · exact absurd hc hne
      · exact h.distinct fd₁ fd₂ c' h₁ h₂
  settled c' a' ha hclosed := by
    rw [hm.stopping]
    rw [hm.account] at ha
    rw [hm.descriptors] at hclosed
    by_cases hc : c' = c
    · subst hc
      rw [Function.update_self] at ha
      cases ha
      cases hafter with
      | closed _ hs => exact hs
      | kept hc _ =>
        have hfd := hclosed fd
        rw [Function.update_self] at hfd
        exact absurd hc hfd
    · rw [Function.update_of_ne hc] at ha
      refine h.settled c' a' ha fun fd' hfd' => ?_
      by_cases hfd : fd' = fd
      · exact hc (hm.self c' (hfd ▸ hfd'))
      · exact hclosed fd' (by rw [Function.update_of_ne hfd, hfd'])
  known := hm.known

/-- Whoever has a descriptor is the only one. -/
theorem Inv.holding (h : s.Inv) {r : List (Nat × Holder)} (hs : s.holders ~ (fd, x) :: r) :
    pick fd r = [] ∧ ∃ a c, s.account c = some a ∧ (s.descriptors fd).connection = some c ∧
      x.Fits s.epollOpen s.pool.stopping (s.descriptors fd) a := by
  have hself : s.held fd ~ x :: pick fd r := by
    have hp := pick_perm hs fd
    rwa [← List.singleton_append, ← List.map_singleton (f := (fd, ·)), pick_append, pick_map,
      if_pos rfl] at hp
  have hrest : pick fd r = [] := by
    have hlen := (h.locals fd).length_le
    rw [hself.length_eq, List.length_cons] at hlen
    exact List.length_eq_zero_iff.mp (by omega)
  rw [hrest] at hself
  obtain ⟨a, hA, hfits⟩ := ((h.locals fd).perm hself.symm).fits
  obtain ⟨c, hc, ha⟩ := accountAt_eq_some.mp hA
  exact ⟨hrest, a, c, ha, hc, hfits⟩

/-- A step of whoever has the descriptor of a connection. -/
theorem Inv.moves (h : s.Inv) (hc : (s.descriptors fd).connection = some c)
    (hd : s'.descriptors = Function.update s.descriptors fd d)
    (ha : s'.account = Function.update s.account c (some a)) (he : s'.epollOpen = s.epollOpen)
    (hst : s'.pool.stopping = s.pool.stopping)
    (hknown : ∀ e ∈ s'.history, ∃ c, e.origin = some c ∧ c < s'.connections.length) :
    Moves s s' fd c d a :=
  ⟨hd, ha, fun fd' h' => h.distinct fd' fd c h' hc, fun _ h' => Option.some.inj (h'.symm.trans hc),
    he, hst, hknown⟩

/-- The same for a step that leaves the connection alone. -/
theorem Inv.moves_descriptor (h : s.Inv) (hc : (s.descriptors fd).connection = some c)
    (ha : s.account c = some a) (hd : s'.descriptors = Function.update s.descriptors fd d)
    (he : s'.epollOpen = s.epollOpen) (hst : s'.pool.stopping = s.pool.stopping)
    (hconn : s'.connections = s.connections) (hh : s'.history = s.history) :
    Moves s s' fd c d a := by
  refine h.moves hc hd ?_ he hst ?_
  · rw [account_congr hconn hh, ← ha, Function.update_eq_self]
  · rw [hconn, hh]
    exact h.known

/-- And for one that leaves the history alone. -/
theorem Inv.moves_connection (h : s.Inv) (hc : (s.descriptors fd).connection = some c)
    (ha : s.account c = some a) (k : Connection)
    (hd : s'.descriptors = Function.update s.descriptors fd d)
    (he : s'.epollOpen = s.epollOpen) (hst : s'.pool.stopping = s.pool.stopping)
    (hconn : s'.connections = s.connections.set c k) (hh : s'.history = s.history) :
    Moves s s' fd c d ⟨k, a.served⟩ := by
  obtain ⟨hk, hserved⟩ := account_eq_some.mp ha
  refine h.moves hc hd (hserved ▸ account_set hk hconn hh) he hst ?_
  rw [hconn, hh, List.length_set]
  exact h.known

/-! ## The event loop -/

/-- What the event loop relies on while it is at work on a descriptor. -/
theorem Inv.atWork (h : s.Inv) (hs : s.stage.holders = [(fd, x)]) :
    pick fd s.others = [] ∧ ∃ a c, s.account c = some a ∧
      (s.descriptors fd).connection = some c ∧
      x.Fits s.epollOpen s.pool.stopping (s.descriptors fd) a :=
  h.holding (by rw [holders, hs, List.singleton_append])

theorem Inv.moveStage (h : s.Inv) {l : List Holder} (hs : s.stage.holders = [(fd, x)])
    (hm : Moves s s' fd c d a) (hs' : s'.stage.holders = l.map (fd, ·)) (ho : s'.others = s.others)
    (hafter : MovedTo s.epollOpen s.pool.stopping (some c) d a l) : s'.Inv := by
  refine h.move hm (k := [x]) (r := s.others) ?_ (h.atWork hs).1 ?_ hafter
  · rw [holders, hs, List.map_singleton]
  · rw [holders, hs', ho]

/-- The event loop goes on and touches nothing. -/
theorem Inv.restage (h : s.Inv) {y : Holder} (hs : s.stage.holders = [(fd, x)])
    (hs' : stage.holders = [(fd, y)]) (hc : (s.descriptors fd).connection = some c)
    (ha : s.account c = some a) (hy : y.Fits s.epollOpen s.pool.stopping (s.descriptors fd) a) :
    ({ s with stage := stage } : EventLoop σ ι).Inv := by
  have hm : Moves s { s with stage := stage } fd c (s.descriptors fd) a :=
    h.moves_descriptor hc ha (Function.update_eq_self ..).symm rfl rfl rfl rfl
  exact h.moveStage hs hm (l := [y]) hs' rfl (.held hc hy)

theorem inv_recv (h : s.Inv) (hstage : s.stage = .reading fd origin lines)
    (hr : s.recv fd origin lines n = some s') : s'.Inv := by
  have hhold : s.stage.holders = [(fd, .reading origin lines)] := by rw [hstage]; rfl
  obtain ⟨-, a, c, ha, hc, ho, hbusy⟩ := h.atWork hhold
  obtain ⟨pending, hb⟩ :=
    Option.isSome_iff_exists.mp (Option.isNone_eq_false_iff.mp hbusy.buffer)
  have howes := hbusy.owes
  rw [hb] at howes
  rw [recv, connectionAt_of_account hc ha] at hr
  simp only at hr
  split at hr
  · -- the connection is broken
    next hbroken =>
      cases hr
      exact h.restage hhold rfl hc ha (hbusy.closing (Or.inl hbroken))
  · split at hr
    · -- bytes
      obtain ⟨-, hr⟩ := Option.ite_none_right_eq_some.mp hr
      rw [show (s.setConnection c _).descriptors fd = s.descriptors fd from rfl, hb] at hr
      cases hr
      exact h.moveStage hhold (h.moves_connection hc ha _ rfl rfl rfl rfl rfl)
        (l := [.reading origin _]) rfl rfl (.held hc ⟨ho, rfl, hbusy.interest, howes.chunk ..⟩)
    · split at hr
      · -- the end of the stream
        next hu hended =>
          rw [hb] at hr
          cases hr
          refine h.moveStage hhold (h.moves_descriptor hc ha rfl rfl rfl rfl rfl)
            (l := [.dispatching origin _ true removeClientFromEpoll]) rfl rfl
            (.held hc ⟨ho, .epollDel hbusy.unarmed ?_⟩)
          exact howes.ended (by simpa using hu) hended
      · -- nothing to read for now
        cases hr
        exact h.restage hhold rfl hc ha ⟨ho, .done hbusy⟩

theorem inv_removing (h : s.Inv) {close : Bool}
    (hstage : s.stage = .dispatching fd origin lines close (op :: ops)) :
    ({ (s.execOp fd op ops).1 with
      stage := .dispatching fd origin lines close (s.execOp fd op ops).2 } :
      EventLoop σ ι).Inv := by
  have hhold : s.stage.holders = [(fd, .dispatching origin lines close (op :: ops))] := by
    rw [hstage]; rfl
  obtain ⟨-, a, c, ha, hc, ho, hrem⟩ := h.atWork hhold
  obtain ⟨hconn, hrem⟩ := hrem.exec
  exact h.moveStage hhold (h.moves_descriptor hc ha rfl rfl rfl rfl rfl)
    (l := [.dispatching origin lines close _]) rfl rfl
    (.held (hconn.trans hc) ⟨hconn ▸ ho, hrem⟩)

theorem inv_loopOps (h : s.Inv) (hstage : s.stage = .ops fd (op :: ops)) :
    ({ (s.execOp fd op ops).1 with stage := .ops fd (s.execOp fd op ops).2 } :
      EventLoop σ ι).Inv := by
  have hhold : s.stage.holders = [(fd, .ops (op :: ops))] := by rw [hstage]; rfl
  obtain ⟨-, a, c, ha, hc, hchore⟩ := h.atWork hhold
  have hafter := Chore.exec hchore (x := .ops) fun _ hc => hc
  rw [hc] at hafter
  refine h.moveStage hhold (h.moves_descriptor hc ha rfl rfl rfl rfl rfl) ?_ rfl hafter
  show (LoopStage.ops fd (op.exec s.epollOpen (s.descriptors fd) ops).2).holders = _
  cases (op.exec s.epollOpen (s.descriptors fd) ops).2 <;> rfl

/-- A new task of the queue has the descriptor. -/
theorem holders_submit (s : EventLoop σ ι) (hj : j.holders = [(fd, .task j)])
    (ht : p.tasks = s.pool.tasks ++ [j]) (hw : p.workers = s.pool.workers) :
    ({ s with pool := p, stage := .handling } : EventLoop σ ι).holders ~
      [.task j].map (fd, ·) ++ s.others := by
  simp only [holders, others, taskHolders, ht, hw, hj, LoopStage.holders, List.nil_append,
    List.flatMap_append, List.flatMap_singleton, List.append_assoc, List.map_cons, List.map_nil,
    List.cons_append]
  rw [← List.append_assoc, ← List.append_assoc]
  exact List.perm_middle

theorem inv_dispatch (h : s.Inv) {close : Bool}
    (hstage : s.stage = .dispatching fd origin lines close []) :
    (s.dispatch fd origin lines close).Inv := by
  have hhold : s.stage.holders = [(fd, .dispatching origin lines close [])] := by
    rw [hstage]; rfl
  obtain ⟨hr, a, c, ha, hc, ho, _ | _ | hbusy⟩ := h.atWork hhold
  rw [dispatch]
  split
  · cases hst : s.pool.stopping with
    | true =>
      simp only [ThreadPool.submit, hst, if_true, Bool.false_eq_true, if_false]
      exact h.restage hhold rfl hc ha (hbusy.closing (Or.inr hst))
    | false =>
      simp only [ThreadPool.submit, hst, Bool.false_eq_true, if_false, if_true]
      refine h.move (h.moves_descriptor hc ha (Function.update_eq_self ..).symm rfl hst.symm rfl
        rfl) (k := [.dispatching origin lines close []]) (l := [.task _]) ?_ hr
        (holders_submit s rfl rfl rfl) (.held hc ⟨ho, hbusy⟩)
      rw [holders, hhold, List.map_singleton]
  · next hlines =>
    obtain rfl : lines = [] := by simpa using hlines
    cases close with
    | true => exact h.restage hhold rfl hc ha (.closing (Or.inl rfl) hbusy.unarmed hbusy.settled)
    | false => exact h.restage hhold rfl hc ha (.rearming (Or.inl rfl) hbusy)

/-- The next event of the batch. -/
theorem inv_next (h : s.Inv) {readable : Bool} {batch : List (Nat × Bool)}
    (hstage : s.stage = .handling) (hbatch : s.batch = (fd, readable) :: batch)
    (hs' : stage.holders = [(fd, x)])
    (hx : ∀ a : Account ι, (readable = false → a.conn.broken = true) →
      Busy s.epollOpen (s.descriptors fd) a false [] [] →
      x.Fits s.epollOpen s.pool.stopping (s.descriptors fd) a) :
    ({ s with batch := batch, stage := stage } : EventLoop σ ι).Inv := by
  have hhold : s.holders ~
      (fd, .event readable) :: (batch.map (fun e => (e.1, .event e.2)) ++ taskHolders s.pool) := by
    rw [holders, others, hstage, hbatch]
    exact List.Perm.refl _
  obtain ⟨hr, a, c, ha, hc, hbroken, hbusy⟩ := h.holding hhold
  refine h.move (h.moves_descriptor hc ha (Function.update_eq_self ..).symm rfl rfl rfl rfl)
    (k := [.event readable]) (l := [x]) hhold hr ?_ (.held hc (hx a hbroken hbusy))
  rw [holders, hs']
  exact List.Perm.refl _

theorem inv_loop (h : s.Inv) (hr : s.loop n = some s') : s'.Inv := by
  rw [loop] at hr
  split at hr
  · cases hr
  · next hstage =>
    split at hr
    · cases hr
      exact h.pass (by rw [hstage]; rfl) rfl
    · next fd batch hbatch =>
      cases hr
      exact inv_next h hstage hbatch rfl fun a _ hbusy => ⟨rfl, hbusy⟩
    · next fd batch hbatch =>
      cases hr
      exact inv_next h hstage hbatch rfl fun a hr hbusy => hbusy.closing (Or.inl (hr rfl))
  · next fd origin lines hstage => exact inv_recv h hstage hr
  · next fd origin lines close hstage =>
    cases hr
    exact inv_dispatch h hstage
  · next fd origin lines close op ops hstage =>
    cases hr
    exact inv_removing h hstage
  · next fd hstage =>
    cases hr
    exact h.pass (by rw [hstage]; rfl) rfl
  · next fd op ops hstage =>
    cases hr
    exact inv_loopOps h hstage

/-! ## New connections and new events -/

/-- A descriptor that is not open is in nobody's hands and nowhere registered. -/
theorem Inv.closed (h : s.Inv) (hfree : (s.descriptors fd).connection = none) :
    s.descriptors fd = {} ∧ s.held fd = [] := by
  refine (h.locals fd).closed_or.resolve_right ?_
  rintro ⟨a, hA⟩
  rw [accountAt, hfree, Option.bind_none] at hA
  cases hA

/-- An armed descriptor is in nobody's hands. -/
theorem Inv.armed (h : s.Inv) (he : s.epollOpen = true)
    (hi : (s.descriptors fd).interest = some .armed) : s.held fd = [] := by
  generalize hheld : s.held fd = hs
  have hlocal := h.locals fd
  rw [hheld] at hlocal
  cases hlocal with
  | closed | watched => rfl
  | held _ hfits => exact absurd hi (hfits.sound.1 he)

theorem inv_report (h : s.Inv) {readable : Bool}
    (hr : s.step handle (.report fd readable) = some s') : s'.Inv := by
  rw [step] at hr
  split at hr
  · next c' k hat =>
    obtain ⟨⟨-, he, -, hi, hready⟩, hr⟩ := Option.ite_none_right_eq_some.mp hr
    cases hr
    have hheld := h.armed he hi
    have hlocal := h.locals fd
    rw [hheld] at hlocal
    cases hlocal with
    | closed hd => simp [hd] at hi
    | @watched a hA hb _ ho =>
      obtain ⟨c, hc, ha⟩ := accountAt_eq_some.mp hA
      cases hat.symm.trans (connectionAt_of_account hc ha)
      refine h.move (h.moves_descriptor hc ha rfl rfl rfl rfl rfl) (k := [])
        (l := [.event readable]) (List.Perm.refl _) hheld ?_
        (.held hc ⟨fun hreadable => ?_, Option.isNone_eq_false_iff.mpr hb, fun _ => rfl, ho⟩)
      · simp only [holders, others, setDescriptor, List.map_append, List.map_cons,
          List.map_nil, List.append_assoc, List.cons_append, List.nil_append]
        rw [← List.append_assoc]
        exact List.perm_middle.trans (List.Perm.of_eq (by simp))
      · simpa [hreadable] using hready
  · cases hr

theorem connections_accept (fd c : Nat) : (s.accept fd).connections[c]? =
    if c = s.connections.length then some {} else s.connections[c]? := by
  simp only [accept, setDescriptor, List.getElem?_append]
  split
  · rw [if_neg (by omega)]
  · next hle =>
    rw [List.getElem?_eq_none (l := s.connections) (by omega), List.getElem?_singleton]
    exact if_congr (by omega) rfl rfl

theorem inv_accept (h : s.Inv) (hfree : (s.descriptors fd).connection = none) :
    (s.accept fd).Inv := by
  obtain ⟨hd, hheld⟩ := h.closed hfree
  have hlt : ∀ {fd' c}, (s.descriptors fd').connection = some c → c < s.connections.length := by
    intro fd' c hc
    rcases (h.locals fd').closed_or with ⟨hd', -⟩ | ⟨a, hA⟩
    · simp [hd'] at hc
    · obtain ⟨c', hc', ha⟩ := accountAt_eq_some.mp hA
      cases hc.symm.trans hc'
      exact lt_of_account ha
  -- no request has come from a connection there has not been
  have hnone : s.servedOn s.connections.length = [] := by
    rw [servedOn, List.filter_eq_nil_iff]
    intro e he
    obtain ⟨c, hc, hlt⟩ := h.known e he
    simp only [hc, Option.some.injEq, decide_eq_true_eq]
    omega
  have hm : Moves s (s.accept fd) fd s.connections.length
      { connection := some s.connections.length, interest := some .armed, buffer := some [] }
      ⟨{}, []⟩ := by
    refine ⟨?_, ?_, fun fd' hc => absurd (hlt hc) (lt_irrefl _), fun c' hc => ?_, rfl, rfl,
      fun e he => ?_⟩
    · simp [accept, setDescriptor, hd]
    · funext c
      have hon : (s.accept fd).servedOn c = s.servedOn c := rfl
      rw [account, connections_accept, hon]
      by_cases hc : c = s.connections.length
      · subst hc
        rw [Function.update_self, if_pos rfl, hnone, Option.map_some]
      · rw [Function.update_of_ne hc, if_neg hc, account]
    · rw [hfree] at hc
      cases hc
    · obtain ⟨c, hc, hlt⟩ := h.known e he
      exact ⟨c, hc, hlt.trans_le (by simp [accept, setDescriptor])⟩
  exact h.move hm (k := []) (l := []) (List.Perm.refl _) hheld (List.Perm.refl _)
    (.kept rfl (.watched rfl rfl (fun _ => rfl) ⟨rfl, rfl⟩))

/-! ## The workers -/

/-- Those who have a descriptor and are not workers. -/
def front (s : EventLoop σ ι) : List (Nat × Holder) :=
  s.stage.holders ++ (s.batch.map (fun e => (e.1, .event e.2)) ++
    s.pool.tasks.flatMap ClientTask.holders)

theorem holders_eq (s : EventLoop σ ι) :
    s.holders =
      s.front ++ s.pool.workers.flatMap fun w => w.tasks.flatMap ClientTask.holders := by
  simp only [holders, others, taskHolders, front, List.append_assoc]

/-- What the others have while one worker goes on with its task. -/
theorem holders_work (hw : s.pool.workers[i]? = some (.running j)) :
    ∃ rest, s.holders ~ j.holders ++ rest ∧
      ∀ (t : EventLoop σ ι) (j' : ClientTask), t.front = s.front → t.pool = s.pool →
        (t.setTask i j').holders ~ j'.holders ++ rest := by
  have hone : ∀ j : ClientTask, (Worker.running j).tasks.flatMap ClientTask.holders = j.holders :=
    fun j => List.flatMap_singleton ..
  obtain ⟨rest, hrest, hset⟩ := flatMap_split hw fun w => w.tasks.flatMap ClientTask.holders
  rw [hone] at hrest
  refine ⟨s.front ++ rest, ?_, fun t j' hf hp => ?_⟩
  · rw [holders_eq]
    exact (hrest.append_left _).trans (List.perm_append_comm_assoc ..)
  · have hset' := hset (.running j')
    rw [hone] at hset'
    rw [holders_eq, show (t.setTask i j').front = t.front from rfl, hf, setTask, hp]
    exact (hset'.append_left _).trans (List.perm_append_comm_assoc ..)

/-- What a worker relies on. -/
theorem Inv.atTask (h : s.Inv) {stage : TaskStage} (hw : s.pool.workers[i]? = some (.running j))
    (hj : j.stage ≠ .ops []) (hstage : j.stage = stage) :
    ∃ a c, s.account c = some a ∧ (s.descriptors j.fd).connection = some c ∧
      j.origin = (s.descriptors j.fd).connection ∧
      stage.Fits s.epollOpen s.pool.stopping (s.descriptors j.fd) a j.closeAfterSend := by
  obtain ⟨rest, hs, -⟩ := holders_work hw
  rw [ClientTask.holders, if_neg hj] at hs
  exact hstage ▸ (h.holding hs).2

/-- A worker goes on with its task. -/
theorem Inv.moveTask (h : s.Inv) {stage : TaskStage} (hw : s.pool.workers[i]? = some (.running j))
    (hj : j.stage ≠ .ops []) (hfront : t.front = s.front) (hpool : t.pool = s.pool)
    (hm : Moves s t j.fd c d a) (hafter : MovedTo s.epollOpen s.pool.stopping (some c) d a
      (if stage = .ops [] then [] else [.task { j with stage := stage }])) :
    (t.setTask i { j with stage := stage }).Inv := by
  obtain ⟨rest, hs, hs'⟩ := holders_work hw
  rw [ClientTask.holders, if_neg hj] at hs
  have hm' : Moves s (t.setTask i { j with stage := stage }) j.fd c d a :=
    ⟨hm.descriptors, hm.account, hm.own, hm.self, hm.epollOpen, hm.stopping, hm.known⟩
  refine h.move hm' (k := [.task j]) hs (h.holding hs).1
    ((hs' t _ hfront hpool).trans (List.Perm.of_eq ?_)) hafter
  rw [ClientTask.holders]
  split <;> rfl

/-- A step of a task that touches nothing. -/
theorem Inv.restageTask (h : s.Inv) {stage : TaskStage}
    (hw : s.pool.workers[i]? = some (.running j)) (hj : j.stage ≠ .ops [])
    (hc : (s.descriptors j.fd).connection = some c) (ha : s.account c = some a)
    (ho : j.origin = (s.descriptors j.fd).connection) (hstage : stage ≠ .ops [])
    (hfits : stage.Fits s.epollOpen s.pool.stopping (s.descriptors j.fd) a j.closeAfterSend) :
    (s.setTask i { j with stage := stage }).Inv := by
  refine h.moveTask hw hj rfl rfl
    (h.moves_descriptor hc ha (Function.update_eq_self ..).symm rfl rfl rfl rfl) ?_
  rw [if_neg hstage]
  exact .held hc ⟨ho, hfits⟩

theorem account_serve {x : Served ι} (ha : s.account c = some a) (hx : x.origin = some c)
    (hc : s'.connections = s.connections) (hh : s'.history = s.history ++ [x]) :
    s'.account = Function.update s.account c (some ⟨a.conn, a.served ++ [x]⟩) := by
  obtain ⟨hk, hserved⟩ := account_eq_some.mp ha
  funext c'
  rw [account, hc, servedOn, hh, List.filter_append]
  by_cases heq : c' = c
  · subst heq
    rw [Function.update_self, hk, hserved]
    simp [hx, servedOn]
  · rw [Function.update_of_ne heq, account]
    simp [hx, Ne.symm heq, servedOn]

/-- A request is answered. -/
theorem inv_serve (h : s.Inv) {x : Served ι} {shared : σ} {response : Str}
    (hw : s.pool.workers[i]? = some (.running j))
    (hstage : j.stage = .serving (x.line :: lines) response) (hx : x.origin = j.origin) :
    (({ s with shared := shared, history := s.history ++ [x] } : EventLoop σ ι).setTask i
      { j with stage := .serving lines (response ++ x.reply) }).Inv := by
  have hj : j.stage ≠ .ops [] := by simp [hstage]
  obtain ⟨a, c, ha, hc, ho, hbusy⟩ := h.atTask hw hj hstage
  have horigin : x.origin = some c := hx.trans (ho.trans hc)
  have hlt := lt_of_account ha
  refine h.moveTask (t := { s with shared := shared, history := s.history ++ [x] }) hw hj rfl rfl
    (h.moves hc (Function.update_eq_self ..).symm (account_serve ha horigin rfl rfl) rfl rfl ?_) ?_
  · intro e he
    rcases List.mem_append.mp he with he | he
    · exact h.known e he
    · rw [List.mem_singleton.mp he]
      exact ⟨c, horigin, hlt⟩
  · exact .held hc ⟨ho, hbusy.buffer, hbusy.interest, hbusy.owes.serve⟩

theorem inv_send (h : s.Inv) {j' : ClientTask} {rest : Str}
    (hw : s.pool.workers[i]? = some (.running j)) (hstage : j.stage = .sending rest)
    (hr : s.send j rest n = some (t, j')) : (t.setTask i j').Inv := by
  have hj : j.stage ≠ .ops [] := by simp [hstage]
  obtain ⟨a, c, ha, hc, ho, hbusy⟩ := h.atTask hw hj hstage
  rw [EventLoop.send, connectionAt_of_account hc ha] at hr
  simp only at hr
  split at hr
  · next hbroken =>
    cases hr
    exact h.restageTask hw hj hc ha ho (by simp [closeClient])
      (Busy.closing hbusy (Or.inl hbroken))
  · obtain ⟨-, hr⟩ := Option.ite_none_right_eq_some.mp hr
    cases hr
    have howes := Busy.owes hbusy
    rw [← List.take_append_drop n rest] at howes
    exact h.moveTask hw hj rfl rfl (h.moves_connection hc ha _ (Function.update_eq_self ..).symm
      rfl rfl rfl rfl) (.held hc ⟨ho, hbusy.buffer, hbusy.interest, howes.send⟩)

theorem inv_taskOps (h : s.Inv) (hw : s.pool.workers[i]? = some (.running j))
    (hstage : j.stage = .ops (op :: ops)) :
    ((s.execOp j.fd op ops).1.setTask i
      { j with stage := .ops (s.execOp j.fd op ops).2 }).Inv := by
  have hj : j.stage ≠ .ops [] := by simp [hstage]
  obtain ⟨a, c, ha, hc, ho, hchore⟩ := h.atTask hw hj hstage
  have hafter := Chore.exec hchore (x := fun ops => .task { j with stage := .ops ops })
    fun heq hc => ⟨ho.trans heq.symm, hc⟩
  rw [hc] at hafter
  refine h.moveTask hw hj rfl rfl (h.moves_descriptor hc ha rfl rfl rfl rfl rfl) ?_
  simp only [TaskStage.ops.injEq]
  exact hafter

theorem inv_work (h : s.Inv) {input : ι} {j' : ClientTask}
    (hw : s.pool.workers[i]? = some (.running j)) (hr : s.work handle j n input = some (t, j')) :
    (t.setTask i j').Inv := by
  have hafterSend : ∀ close : Bool,
      TaskStage.ops (if close then [.close] else rearmClient) ≠ .ops [] := by
    intro close
    cases close <;> simp [rearmClient]
  rw [work] at hr
  split at hr
  · next line lines response hstage =>
    cases hr
    exact inv_serve h hw (x := ⟨j.origin, input, line, (handle input s.shared line).1⟩) hstage rfl
  · next response hstage =>
    cases hr
    have hj : j.stage ≠ .ops [] := by simp [hstage]
    obtain ⟨a, c, ha, hc, ho, hbusy⟩ := h.atTask hw hj hstage
    split
    · exact h.restageTask hw hj hc ha ho (by simp) hbusy
    · next hresponse =>
      obtain rfl : response = [] := by simpa using hresponse
      exact h.restageTask hw hj hc ha ho (hafterSend _) (Busy.afterSend hbusy)
  · next hstage =>
    cases hr
    have hj : j.stage ≠ .ops [] := by simp [hstage]
    obtain ⟨a, c, ha, hc, ho, hbusy⟩ := h.atTask hw hj hstage
    exact h.restageTask hw hj hc ha ho (hafterSend _) (Busy.afterSend hbusy)
  · next rest hne hstage => exact inv_send h hw hstage hr
  · cases hr
  · next op ops hstage =>
    cases hr
    exact inv_taskOps h hw hstage

theorem taskHolders_eq (p : ThreadPool ClientTask) :
    taskHolders p = (p.tasks ++ p.running).flatMap ClientTask.holders := by
  rw [taskHolders, ThreadPool.running, List.flatMap_append, List.flatMap_assoc]

/-- The pool's own steps hand tasks on and drop those that are done. -/
theorem taskHolders_step (ha : s.poolAllows e = true) (hp : s.pool.step e = some p) :
    taskHolders p ~ taskHolders s.pool := by
  have htasks := ThreadPool.tasks_step (ThreadPool.pool_step hp)
  have hrunning := ThreadPool.running_step (ThreadPool.pool_step hp)
  have haccepted : s.pool.acceptedBy e = [] := by
    cases e with
    | start | submit => cases ha
    | notifyOne | notifyAll | wakeUp | look | finish | stop | join => rfl
  have hfinished : (s.pool.finishedBy e).flatMap ClientTask.holders = [] := by
    cases e with
    | start | submit => cases ha
    | notifyOne | notifyAll | wakeUp | look | stop | join => rfl
    | finish i =>
      rw [poolAllows] at ha
      split at ha
      · next j hw =>
        have hdone : j.stage = .ops [] := by simpa using ha
        simp [ThreadPool.finishedBy, hw, Worker.tasks, ClientTask.holders, hdone]
      · cases ha
  rw [haccepted, List.append_nil] at htasks
  rw [taskHolders_eq, taskHolders_eq, htasks]
  have hperm : s.pool.startedBy e ++ p.tasks ++ s.pool.running ~
      s.pool.finishedBy e ++ (p.tasks ++ p.running) := by
    calc s.pool.startedBy e ++ p.tasks ++ s.pool.running
      _ ~ p.tasks ++ (s.pool.startedBy e ++ s.pool.running) := by
          rw [List.append_assoc]
          exact List.perm_append_comm_assoc ..
      _ ~ p.tasks ++ (s.pool.finishedBy e ++ p.running) := hrunning.append_left _
      _ ~ s.pool.finishedBy e ++ (p.tasks ++ p.running) := List.perm_append_comm_assoc ..
  calc (p.tasks ++ p.running).flatMap ClientTask.holders
    _ = (s.pool.finishedBy e ++ (p.tasks ++ p.running)).flatMap ClientTask.holders := by
        simp only [List.flatMap_append, hfinished, List.nil_append]
    _ ~ _ := (hperm.flatMap_right ClientTask.holders).symm

theorem poolAllows_ne_start (ha : s.poolAllows e = true) (available : Nat) :
    e ≠ .start available := by
  rintro rfl
  cases ha

theorem inv_pool (h : s.Inv) (ha : s.poolAllows e = true) (hp : s.pool.step e = some p) :
    ({ s with pool := p } : EventLoop σ ι).Inv := by
  refine h.schedule rfl (((taskHolders_step ha hp).append_left _).append_left _) id ?_ rfl rfl
  have hstopping := ThreadPool.stopping_step (ThreadPool.pool_step hp) (poolAllows_ne_start ha)
  exact fun hst => hstopping.mpr (Or.inl hst)

/-! ## Runs -/

theorem inv_step (h : s.Inv) {e : NetEvent ι} (hr : s.step handle e = some s') : s'.Inv := by
  cases e with
  | arrive c bytes =>
    rw [step] at hr
    split at hr
    · next k hk =>
      obtain ⟨hopen, hr⟩ := Option.ite_none_left_eq_some.mp hr
      cases hr
      refine inv_setConnection h hk fun served => ⟨rfl, rfl, rfl, fun hend => ?_, id⟩
      simp [show k.ended = true from hend] at hopen
    · cases hr
  | end_ | break_ =>
    rw [step] at hr
    split at hr
    · next k hk =>
      cases hr
      refine inv_setConnection h hk fun served => ⟨rfl, rfl, rfl, ?_, ?_⟩ <;> simp
    · cases hr
  | accept fd =>
    obtain ⟨⟨-, -, hfree⟩, hr⟩ := Option.ite_none_right_eq_some.mp hr
    cases hr
    exact inv_accept h hfree
  | report fd readable => exact inv_report h hr
  | return_ =>
    obtain ⟨hstage, hr⟩ := Option.ite_none_right_eq_some.mp hr
    cases hr
    exact h.pass (by rw [hstage]; rfl) rfl
  | loop n => exact inv_loop h hr
  | work i n input =>
    rw [step] at hr
    split at hr
    · next j hw =>
      obtain ⟨⟨t, j'⟩, hwork, rfl⟩ := Option.map_eq_some_iff.mp hr
      exact inv_work h hw hwork
    · cases hr
  | pool e =>
    obtain ⟨ha, hr⟩ := Option.ite_none_right_eq_some.mp hr
    obtain ⟨p, hp, rfl⟩ := Option.map_eq_some_iff.mp hr
    exact inv_pool h ha hp
  | closeEpoll =>
    cases hr
    exact h.schedule rfl (List.Perm.refl _) (fun he => by cases he) id rfl rfl

theorem inv_fresh (hardware : Nat) (shared : σ) : (fresh hardware shared : EventLoop σ ι).Inv where
  locals fd := by
    have hheld : (fresh hardware shared : EventLoop σ ι).held fd = [] := by
      have hnone : (fresh hardware shared : EventLoop σ ι).holders = [] := by
        simp [holders, others, taskHolders, fresh, LoopStage.holders, ThreadPool.start,
          ThreadPool.create, Worker.tasks]
      rw [held, hnone]
      rfl
    rw [hheld]
    exact .closed rfl
  distinct _ _ _ h := by cases h
  settled c a ha := by simp [account, fresh] at ha
  known e he := by cases he

theorem inv_run {hardware : Nat} {shared : σ} {es : List (NetEvent ι)}
    (hrun : run (step handle) (fresh hardware shared) es = some s) : s.Inv :=
  inv_of_run (fun _ _ _ h hr => inv_step h hr) (inv_fresh hardware shared) hrun

end EventLoop

end TinyKV
