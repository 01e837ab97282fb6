import TinyKV.Proofs.EventLoop

/-!
# Every request is answered on its own connection, in order

The consequences of the invariant of `Proofs.EventLoop` for whole runs. Whatever
the interleaving of clients, event loop, workers and notifications, a connection
gets the answers to its own requests, in the order of the requests, without a
byte of anybody else's. A server that has come to rest has answered everything
there was to answer.

The last of these needs that nothing is forgotten on the way: that the bytes a
connection has sent are those received from it and those still to be read, and
that the pool has not fallen asleep over a task.
-/

namespace TinyKV

open Runs Threads
open scoped List

namespace EventLoop

variable {σ ι : Type} {s s' : EventLoop σ ι} {fd c : Nat} {handle : ι → σ → Str → Str × σ}

/-! ## What a step leaves alone -/

/-- All bytes that have arrived on a connection. -/
def bytesOf (s : EventLoop σ ι) (c : Nat) : Str :=
  match s.connections[c]? with
  | none => []
  | some k => k.received ++ k.unread

variable {k : Connection} {hardware : Nat} {shared : σ} {es : List (NetEvent ι)}

theorem bytesOf_some (h : s.connections[c]? = some k) : s.bytesOf c = k.received ++ k.unread := by
  rw [bytesOf, h]

theorem bytesOf_set {x : Connection} {new : Str} (hk : s.connections[c]? = some k)
    (hb : x.received ++ x.unread = k.received ++ k.unread ++ new) (c' : Nat) :
    (s.setConnection c x).bytesOf c' = s.bytesOf c' ++ if c = c' then new else [] := by
  by_cases hcc : c = c'
  · subst hcc
    have hset : (s.setConnection c x).connections[c]? = some x :=
      List.getElem?_set_self (List.getElem?_eq_some_iff.mp hk).1
    rw [bytesOf_some hset, bytesOf_some hk, hb, if_pos rfl]
  · rw [bytesOf, bytesOf, setConnection, List.getElem?_set_ne hcc, if_neg hcc, List.append_nil]

theorem bytesOf_kept {x : Connection} (hk : s.connections[c]? = some k)
    (hb : x.received ++ x.unread = k.received ++ k.unread) (c' : Nat) :
    (s.setConnection c x).bytesOf c' = s.bytesOf c' ++ [] := by
  rw [bytesOf_set hk (hb.trans (List.append_nil _).symm), ite_self]

theorem bytesOf_accept (fd c : Nat) : (s.accept fd).bytesOf c = s.bytesOf c ++ [] := by
  rw [bytesOf, bytesOf, List.append_nil, connections_accept]
  by_cases hc : c = s.connections.length
  · rw [hc, if_pos rfl, List.getElem?_eq_none le_rfl]
    rfl
  · rw [if_neg hc]

theorem connectionAt_eq_some (h : s.connectionAt fd = some (c, k)) :
    s.connections[c]? = some k := by
  obtain ⟨c', -, hc'⟩ := Option.bind_eq_some_iff.mp h
  obtain ⟨k', hk, heq⟩ := Option.map_eq_some_iff.mp hc'
  cases heq
  exact hk

/-- A request is answered, or nothing is. -/
def Serves (handle : ι → σ → Str → Str × σ) (s s' : EventLoop σ ι) : Prop :=
  s'.history = s.history ∧ s'.shared = s.shared ∨
    ∃ x, s'.history = s.history ++ [x] ∧ handle x.input s.shared x.line = (x.reply, s'.shared)

/-- What a step of the server means for the pool. -/
inductive PoolMove (s : EventLoop σ ι) : ThreadPool ClientTask → Prop
  | same : PoolMove s s.pool
  | submit (task : ClientTask) : PoolMove s (s.pool.submit task).2
  | work {i : Nat} {j : ClientTask} (hw : s.pool.workers[i]? = some (.running j))
      (j' : ClientTask) : PoolMove s (s.pool.setWorker i (.running j'))
  | step {e : PoolEvent ClientTask} {p : ThreadPool ClientTask} (ha : s.poolAllows e = true)
      (hp : s.pool.step e = some p) : PoolMove s p

/-- What a step can do to the answers, the bytes and the pool. -/
structure Effect (handle : ι → σ → Str → Str × σ) (s : EventLoop σ ι) (e : NetEvent ι)
    (s' : EventLoop σ ι) : Prop where
  serves : Serves handle s s'
  bytes : ∀ c, s'.bytesOf c = s.bytesOf c ++ e.arrives c
  pool : PoolMove s s'.pool
  epollOpen : s'.epollOpen = true → s.epollOpen = true

theorem loop_effect {n : Nat} (hr : s.loop n = some s') : Effect handle s (.loop n) s' := by
  unfold loop recv dispatch at hr
  dsimp only at hr
  repeat' split at hr
  all_goals
    first
      | cases hr; exact ⟨Or.inl ⟨rfl, rfl⟩, fun _ => (List.append_nil _).symm, .same, id⟩
      | cases hr; exact ⟨Or.inl ⟨rfl, rfl⟩, fun _ => (List.append_nil _).symm, .submit _, id⟩
      | cases hr
        exact ⟨Or.inl ⟨rfl, rfl⟩, bytesOf_kept (connectionAt_eq_some ‹_›) (by simp), .same, id⟩
      | cases hr

theorem work_effect {i n : Nat} {input : ι} {j j' : ClientTask}
    (hw : s.pool.workers[i]? = some (.running j)) (hr : s.work handle j n input = some (s', j')) :
    Effect handle s (.work i n input) (s'.setTask i j') := by
  unfold work EventLoop.send at hr
  repeat' split at hr
  all_goals
    first
      | cases hr; exact ⟨Or.inl ⟨rfl, rfl⟩, fun _ => (List.append_nil _).symm, .work hw _, id⟩
      | cases hr; exact ⟨Or.inr ⟨_, rfl, rfl⟩, fun _ => (List.append_nil _).symm, .work hw _, id⟩
      | cases hr
        exact ⟨Or.inl ⟨rfl, rfl⟩, bytesOf_kept (connectionAt_eq_some ‹_›) (by rfl), .work hw _, id⟩
      | cases hr

theorem step_effect {e : NetEvent ι} (hr : step handle s e = some s') : Effect handle s e s' := by
  cases e with
  | arrive c bytes =>
    rw [step] at hr
    split at hr
    · next k hk =>
      obtain ⟨-, hr⟩ := Option.ite_none_left_eq_some.mp hr
      cases hr
      exact ⟨Or.inl ⟨rfl, rfl⟩, bytesOf_set hk (List.append_assoc ..).symm, .same, id⟩
    · cases hr
  | loop n => exact loop_effect hr
  | work i n input =>
    rw [step] at hr
    split at hr
    · next j hw =>
      obtain ⟨⟨t, j'⟩, hwork, rfl⟩ := Option.map_eq_some_iff.mp hr
      exact work_effect hw hwork
    · cases hr
  | pool e =>
    obtain ⟨ha, hr⟩ := Option.ite_none_right_eq_some.mp hr
    obtain ⟨p, hp, rfl⟩ := Option.map_eq_some_iff.mp hr
    exact ⟨Or.inl ⟨rfl, rfl⟩, fun _ => (List.append_nil _).symm, .step ha hp, id⟩
  | closeEpoll =>
    cases hr
    exact ⟨Or.inl ⟨rfl, rfl⟩, fun _ => (List.append_nil _).symm, .same, fun h => by cases h⟩
  | end_ | break_ | accept | report | return_ =>
    rw [step] at hr
    repeat' split at hr
    all_goals
      first
        | cases hr; exact ⟨Or.inl ⟨rfl, rfl⟩, fun _ => (List.append_nil _).symm, .same, id⟩
        | cases hr; exact ⟨Or.inl ⟨rfl, rfl⟩, bytesOf_kept ‹_› (by rfl), .same, id⟩
        | cases hr; exact ⟨Or.inl ⟨rfl, rfl⟩, bytesOf_accept _, .same, id⟩
        | cases hr

/-! ## Runs -/

/-- The answers are those of a server that takes one request at a time. -/
theorem serveAll_append (handle : ι → σ → Str → Str × σ) (shared : σ) (rs : List (ι × Str))
    (input : ι) (line : Str) :
    serveAll handle shared (rs ++ [(input, line)]) =
      ((serveAll handle shared rs).1 ++
          [(handle input (serveAll handle shared rs).2 line).1],
        (handle input (serveAll handle shared rs).2 line).2) := by
  induction rs generalizing shared with
  | nil => rfl
  | cons r rs ih =>
    rw [List.cons_append, serveAll, serveAll, ih]
    rfl

theorem serveAll_run (hrun : run (step handle) (fresh hardware shared) es = some s) :
    serveAll handle shared (s.history.map fun x => (x.input, x.line)) =
      (s.history.map Served.reply, s.shared) := by
  refine inv_of_run (I := fun s => serveAll handle shared
    (s.history.map fun x => (x.input, x.line)) = (s.history.map Served.reply, s.shared))
    (fun s e s' h hr => ?_) rfl hrun
  rcases (step_effect hr).serves with ⟨hh, hs⟩ | ⟨x, hh, hx⟩
  · rw [hh, hs, h]
  · rw [hh, List.map_append, List.map_singleton, serveAll_append, h, List.map_append, hx]
    rfl

theorem bytesOf_run {s₀ : EventLoop σ ι} (hrun : run (step handle) s₀ es = some s) (c : Nat) :
    s.bytesOf c = s₀.bytesOf c ++ es.flatMap (NetEvent.arrives c) := by
  induction es generalizing s₀ with
  | nil =>
    injection hrun with hrun
    rw [hrun, List.flatMap_nil, List.append_nil]
  | cons e es ih =>
    obtain ⟨s₁, hs, hrun⟩ := run_cons_some hrun
    rw [ih hrun, (step_effect hs).bytes c, List.flatMap_cons, List.append_assoc]

/-- As long as epoll is open the pool has workers and is not stopping, and it
never sleeps over a task. -/
structure Staffed (s : EventLoop σ ι) : Prop where
  awake : s.pool.Awake
  running : s.epollOpen = true → s.pool.stopping = false ∧ s.pool.workers ≠ []

theorem PoolMove.awake {p : ThreadPool ClientTask} (hm : PoolMove s p) (ha : s.pool.Awake) :
    p.Awake := by
  cases hm with
  | same => exact ha
  | submit task =>
    exact ThreadPool.awake_pool_step ha (ThreadPool.pool_step (e := .submit task) rfl)
  | work hw j' => exact ha.set hw (by simp) (by simp) id le_rfl
  | step _ hp => exact ThreadPool.awake_pool_step ha (ThreadPool.pool_step hp)

theorem PoolMove.running {p : ThreadPool ClientTask} (hm : PoolMove s p)
    (he : s.epollOpen = true) (h : s.pool.stopping = false ∧ s.pool.workers ≠ []) :
    p.stopping = false ∧ p.workers ≠ [] := by
  cases hm with
  | same => exact h
  | submit task =>
    rw [ThreadPool.submit]
    split <;> exact h
  | work hw j' => exact ⟨h.1, by simpa [ThreadPool.setWorker] using h.2⟩
  | step ha hp =>
    have hstep := ThreadPool.pool_step hp
    refine ⟨?_, ThreadPool.workers_step hstep (by rintro rfl; simp [poolAllows, he] at ha) h.2⟩
    rw [← Bool.not_eq_true, ThreadPool.stopping_step hstep (poolAllows_ne_start ha), h.1]
    rintro (hst | rfl)
    · cases hst
    · simp [poolAllows, he] at ha

theorem staffed_run (hrun : run (step handle) (fresh hardware shared) es = some s) : s.Staffed := by
  refine inv_of_run (I := Staffed) (fun s e s' h hr => ?_) ?_ hrun
  · have heff := step_effect hr
    exact ⟨heff.pool.awake h.awake,
      fun he => heff.pool.running (heff.epollOpen he) (h.running (heff.epollOpen he))⟩
  · refine ⟨?_, fun _ => by simp [fresh, ThreadPool.create, ThreadPool.start]⟩
    exact ThreadPool.awake_pool_step (ThreadPool.awake_create 0 hardware)
      (ThreadPool.pool_step (e := .start (max 1 hardware)) rfl)

/-! ## The answers of a connection -/

theorem Inv.fair (h : s.Inv) {a : Account ι} (ha : s.account c = some a) : a.Fair := by
  by_cases hopen : ∃ fd, (s.descriptors fd).connection = some c
  · obtain ⟨fd, hc⟩ := hopen
    have hlocal := h.locals fd
    rw [accountAt_eq_some.mpr ⟨c, hc, ha⟩] at hlocal
    exact hlocal.fair fun hd => by simp [hd] at hc
  · exact (h.settled c a ha (not_exists.mp hopen)).fair

theorem fair_run (hrun : run (step handle) (fresh hardware shared) es = some s)
    (hk : s.connections[c]? = some k) : Account.Fair ⟨k, s.servedOn c⟩ :=
  (inv_run hrun).fair (account_eq_some.mpr ⟨hk, rfl⟩)

/-- In every run: what a connection has received is the front of what has
arrived; the requests of it that have been answered are the first of those its
bytes make, in order; and what it has been sent is the front of their answers. -/
theorem answers_in_order {hardware : Nat} {shared : σ} {es : List (NetEvent ι)}
    (hrun : run (step handle) (fresh hardware shared) es = some s) :
    ∀ c k, s.connections[c]? = some k →
      k.received ++ k.unread = es.flatMap (NetEvent.arrives c) ∧
      (s.servedOn c).map Served.line <+: handedOn [k.received] ∧
      k.sent <+: (s.servedOn c).flatMap Served.reply := by
  intro c k hk
  have hfair := fair_run hrun hk
  exact ⟨(bytesOf_some hk).symm.trans (bytesOf_run hrun c), hfair.lines, hfair.replies⟩

/-- A server that sends a request back. -/
def echo (_ : Unit) (count : Nat) (line : Str) : Str × Nat := (line ++ [10], count + 1)

/-- A client connects, sends a line, and gets an answer of so many bytes. -/
def exchange (input : ι) (line : Str) (answer : Nat) : List (NetEvent ι) :=
  [.return_, .accept 0, .loop 0, .pool (.look 0), .arrive 0 line, .report 0 true, .return_,
    .loop 0, .loop line.length, .loop 0, .loop 0, .loop 0, .pool (.notifyOne (some 0)),
    .pool (.look 0), .work 0 0 input, .work 0 0 input, .work 0 answer input, .work 0 0 input,
    .work 0 0 input, .work 0 0 input, .pool (.finish 0), .pool (.look 0)]

def echoOnce : List (NetEvent Unit) := exchange () [97, 10] 2

/-- A client that has gone by the time its answer is sent. -/
def echoLost : List (NetEvent Unit) := echoOnce.take 16 ++ [.break_ 0, .work 0 2 ()]

theorem echo_is_lost :
    ∃ s : EventLoop Nat Unit, run (step echo) (fresh 1 0) echoLost = some s ∧
      s.history.map Served.line = [[97]] ∧ ∀ k, s.connections[0]? = some k →
        k.sent <+: (s.servedOn 0).flatMap Served.reply := by
  have hrun : run (step echo) (fresh 1 0) echoLost = some _ := rfl
  have h := answers_in_order hrun
  exact ⟨_, hrun, rfl, fun k hk => (h 0 k hk).2.2⟩

/-- In every run a descriptor is in one place at most. Whoever has it, it still
stands for the connection the requests came from. A descriptor that is closed is
nowhere registered and has no buffer, so that the connection that is given its
number next starts from nothing; and as long as epoll is open, an open descriptor
is armed exactly if nobody has it. -/
theorem one_thread_per_connection {hardware : Nat} {shared : σ} {es : List (NetEvent ι)}
    (hrun : run (step handle) (fresh hardware shared) es = some s) :
    (∀ fd, (s.held fd).length ≤ 1) ∧
      (∀ j ∈ s.pool.tasks ++ s.pool.running, j.stage ≠ .ops [] →
        j.origin = (s.descriptors j.fd).connection ∧ (s.descriptors j.fd).connection ≠ none) ∧
      (∀ fd, (s.descriptors fd).connection = none → s.descriptors fd = {}) ∧
      (s.epollOpen = true → ∀ fd, (s.descriptors fd).connection ≠ none →
        ((s.descriptors fd).interest = some .armed ↔ s.held fd = [])) := by
  have h := inv_run hrun
  refine ⟨fun fd => (h.locals fd).length_le, fun j hj hstage => ?_, fun fd hfd => (h.closed hfd).1,
    fun he fd hfd => ⟨h.armed he, fun hheld => ?_⟩⟩
  · have hmem : (j.fd, .task j) ∈ s.holders := by
      rw [holders, others, taskHolders_eq]
      refine List.mem_append_right _ (List.mem_append_right _ (List.mem_flatMap.mpr ⟨j, hj, ?_⟩))
      rw [ClientTask.holders, if_neg hstage]
      exact List.mem_singleton_self _
    obtain ⟨l₁, l₂, hsplit⟩ := List.append_of_mem hmem
    have hperm : s.holders ~ (j.fd, .task j) :: (l₁ ++ l₂) := hsplit ▸ List.perm_middle
    obtain ⟨-, a, c, -, hc, ho, -⟩ := h.holding hperm
    exact ⟨ho, by simp [hc]⟩
  · have hlocal := h.locals fd
    rw [hheld] at hlocal
    cases hlocal with
    | closed hd => simp [hd] at hfd
    | watched _ _ hi _ => exact hi he

theorem echoing_worker_has_descriptor :
    ∃ s : EventLoop Nat Unit, run (step echo) (fresh 1 0) (echoOnce.take 16) = some s ∧
      (s.held 0).length ≤ 1 ∧ ((s.descriptors 0).interest = some .armed ↔ s.held 0 = []) := by
  have hrun : run (step echo) (fresh 1 0) (echoOnce.take 16) = some _ := rfl
  have h := one_thread_per_connection hrun
  exact ⟨_, hrun, h.1 0, h.2.2.2 rfl 0 (by decide)⟩

/-! ## A server at rest -/

/-- A worker can always go on with a task that is not done. -/
theorem exists_work [Nonempty ι] {j : ClientTask} (hj : j.stage ≠ .ops []) :
    ∃ n input, (s.work handle j n input).isSome = true := by
  obtain ⟨input⟩ := ‹Nonempty ι›
  refine ⟨1, input, ?_⟩
  rw [work]
  split
  · rfl
  · rfl
  · rfl
  · next rest hne hstage =>
    rw [EventLoop.send]
    split
    · rfl
    · split
      · rfl
      · have hlen : 0 < rest.length := List.length_pos_of_ne_nil hne
        rw [if_pos ⟨by omega, hlen⟩]
        rfl
  · next hstage => exact absurd hstage hj
  · rfl

theorem Idle.quiet [Nonempty ι] (h : s.Idle handle) : s.pool.Quiet := by
  intro e he
  have hstep := h.pool e he
  rw [step] at hstep
  by_cases ha : s.poolAllows e = true
  · rw [if_pos ha, Option.map_eq_none_iff] at hstep
    exact hstep
  · cases e with
    | start | submit | wakeUp | stop | join => cases he
    | notifyOne | notifyAll | look => simp [poolAllows] at ha
    | finish i =>
      rw [ThreadPool.step]
      split
      · next j hw =>
        -- the task is not done, and so the worker could go on with it
        have hj : j.stage ≠ .ops [] := by simpa [poolAllows, hw] using ha
        obtain ⟨n, input, hsome⟩ : ∃ n input, (s.work handle j n input).isSome = true :=
          exists_work hj
        have hnone := h.work i n input
        rw [step, hw] at hnone
        rw [Option.map_eq_none_iff.mp hnone] at hsome
        cases hsome
      · rfl

/-- In a server at rest nobody has a descriptor. -/
theorem Idle.held [Nonempty ι] (h : s.Idle handle) (hs : s.Staffed) (he : s.epollOpen = true)
    (fd : Nat) : s.held fd = [] := by
  have hquiet := h.quiet
  obtain ⟨htasks, -⟩ := hquiet.done hs.awake (hs.running he).2
  have hnone : s.holders = [] := by
    rw [holders, others, taskHolders_eq, htasks, hquiet.running, h.stage, h.batch]
    rfl
  rw [EventLoop.held, hnone]
  rfl

/-- A server that has not been stopped and has come to rest has read, answered
and sent everything. On a connection that is not broken, nothing is left to read;
the requests answered are all those the bytes make that have arrived, and if the
other side has ended also what is left of them; all answers have been sent; and
it has been closed if and only if the other side has ended. -/
theorem idle_has_answered [Nonempty ι] {hardware : Nat} {shared : σ} {es : List (NetEvent ι)}
    (hrun : run (step handle) (fresh hardware shared) es = some s) (hidle : s.Idle handle)
    (he : s.epollOpen = true) {c : Nat} {k : Connection} (hk : s.connections[c]? = some k)
    (hb : k.broken = false) :
    k.received = es.flatMap (NetEvent.arrives c) ∧
      (s.servedOn c).map Served.line =
        (if k.ended then handedOn [k.received] else (drain k.received).1) ∧
      k.sent = (s.servedOn c).flatMap Served.reply ∧
      (k.ended = true ↔ ∀ fd, (s.descriptors fd).connection ≠ some c) := by
  have h := inv_run hrun
  have hs := staffed_run hrun
  have ha : s.account c = some ⟨k, s.servedOn c⟩ := account_eq_some.mpr ⟨hk, rfl⟩
  have hbytes : k.unread = [] → k.received = es.flatMap (NetEvent.arrives c) := by
    intro hu
    have hall := (bytesOf_some hk).symm.trans (bytesOf_run hrun c)
    rwa [hu, List.append_nil] at hall
  have hsent : ∀ {buffer}, (⟨k, s.servedOn c⟩ : Account ι).Owes buffer [] [] →
      k.sent = (s.servedOn c).flatMap Served.reply :=
    fun ho => (ho.replies.trans (List.append_nil _)).symm
  by_cases hopen : ∃ fd, (s.descriptors fd).connection = some c
  · obtain ⟨fd, hc⟩ := hopen
    have hA := accountAt_eq_some.mpr ⟨c, hc, ha⟩
    have hlocal := h.locals fd
    rw [hidle.held hs he fd, hA] at hlocal
    cases hlocal with
    | closed hd => simp [hd] at hc
    | watched hA' hb' hi ho =>
      cases hA'
      -- an armed connection with something to read would be reported
      have hready : ¬ (k.unread ≠ [] ∨ k.ended = true) := by
        intro hready
        have hnone := hidle.report fd true
        rw [step, connectionAt_of_account hc ha] at hnone
        dsimp only at hnone
        rw [if_pos ⟨hidle.stage, he, by simp [hidle.batch, kMaxEvents], hi he,
          Or.inr ⟨rfl, hready⟩⟩] at hnone
        cases hnone
      simp only [not_or, not_not, Bool.not_eq_true] at hready
      obtain ⟨pending, hpending⟩ := Option.isSome_iff_exists.mp hb'
      rw [hpending] at ho
      have hlines : drain k.received = _ := ho.lines
      refine ⟨hbytes hready.1, ?_, hsent ho, ?_⟩
      · rw [hready.2, if_neg (by simp), hlines]
        exact (List.append_nil _).symm
      · rw [hready.2]
        exact ⟨fun hended => absurd hended (by simp), fun hall => absurd hc (hall fd)⟩
  · have hsettled := (h.settled c _ ha (not_exists.mp hopen)).all hb (hs.running he).1
    obtain ⟨hended, hunread, hlines⟩ := hsettled.lines
    refine ⟨hbytes hunread, ?_, hsent hsettled, fun _ => not_exists.mp hopen, fun _ => hended⟩
    rw [if_pos hended, hlines]
    exact (List.append_nil _).symm

theorem echoOnce_idle {s : EventLoop Nat Unit}
    (hrun : run (step echo) (fresh 1 0) echoOnce = some s) : s.Idle echo := by
  cases hrun
  constructor
  · rfl
  · rfl
  · intro fd readable
    cases fd with
    | zero => cases readable <;> rfl
    | succ fd => rfl
  · intro worker n input
    cases worker <;> rfl
  · intro e he
    cases e with
    | notifyOne w =>
      cases w with
      | none => rfl
      | some i => cases i <;> rfl
    | notifyAll => rfl
    | look i => cases i <;> rfl
    | finish i => cases i <;> rfl
    | start | submit | wakeUp | stop | join => cases he

theorem echo_is_sent :
    ∃ s : EventLoop Nat Unit, run (step echo) (fresh 1 0) echoOnce = some s ∧
      ∃ k, s.connections[0]? = some k ∧ k.received = [97, 10] ∧
        (s.servedOn 0).map Served.line = [[97]] ∧ k.sent = [97, 10] := by
  have hrun : run (step echo) (fresh 1 0) echoOnce = some _ := rfl
  have h := idle_has_answered hrun (echoOnce_idle hrun) rfl (c := 0) rfl rfl
  exact ⟨_, hrun, _, rfl, h.1, h.2.1, h.2.2.1⟩

end EventLoop

end TinyKV
