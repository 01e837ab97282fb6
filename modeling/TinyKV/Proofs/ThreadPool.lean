import TinyKV.Lib.Runs
import TinyKV.Lib.Threads
import TinyKV.Model.ThreadPool

/-!
# Every accepted task is run, once, and in order

Three facts about every interleaving of submitters, workers, notifications and
`stop`. The tasks are taken out of the queue in the order in which they were
accepted, each by one worker. No notification is lost: if a worker sleeps, there
are at least as many notifications and looking workers as there are tasks in the
queue. A worker only returns once the pool is stopping and the queue is empty.

The second fact says that a pool that can do nothing by itself has nothing left
to do. That it gets there is a matter of counting. A look at the queue is worth
one, a task in a worker's hands two, and a task in the queue two, since taking
it turns a look into a task; a `notify_one` is worth two and a `notify_all` one
more than there are workers, since they turn sleep into looks.
-/

namespace TinyKV

open Runs Threads
open scoped List

variable {τ : Type}

/-! ## What a step can do -/

/-- The steps, one case for each thing that can happen. -/
inductive PoolStep (p : ThreadPool τ) : PoolEvent τ → ThreadPool τ → Prop
  | startAgain {available : Nat} : PoolStep p (.start available) p
  | start {available n : Nat} {stopping : Bool} (h : p.workers = []) :
      PoolStep p (.start available)
        { p with stopping := stopping, workers := List.replicate n .looking }
  | refuse {task : τ} (h : p.stopping = true) : PoolStep p (.submit task) p
  | submit {task : τ} (h : p.stopping = false) :
      PoolStep p (.submit task) { p with tasks := p.tasks ++ [task], notices := p.notices + 1 }
  | notifyNobody (h : 0 < p.notices) (hw : .waiting ∉ p.workers) :
      PoolStep p (.notifyOne none) { p with notices := p.notices - 1 }
  | notifyOne {i : Nat} (h : 0 < p.notices) (hw : p.workers[i]? = some .waiting) :
      PoolStep p (.notifyOne (some i)) { p.setWorker i .looking with notices := p.notices - 1 }
  | notifyAll (h : p.noticeAll = true) :
      PoolStep p .notifyAll { p with workers := p.workers.map Worker.wake, noticeAll := false }
  | wakeUp {i : Nat} (hw : p.workers[i]? = some .waiting) :
      PoolStep p (.wakeUp i) (p.setWorker i .looking)
  | sleep {i : Nat} (hw : p.workers[i]? = some .looking) (h : p.tasks = [])
      (hs : p.stopping = false) : PoolStep p (.look i) (p.setWorker i .waiting)
  | leave {i : Nat} (hw : p.workers[i]? = some .looking) (h : p.tasks = [])
      (hs : p.stopping = true) : PoolStep p (.look i) (p.setWorker i .returned)
  | take {i : Nat} {task : τ} {tasks : List τ} (hw : p.workers[i]? = some .looking)
      (h : p.tasks = task :: tasks) :
      PoolStep p (.look i) { p.setWorker i (.running task) with tasks := tasks }
  | finish {i : Nat} {task : τ} (hw : p.workers[i]? = some (.running task)) :
      PoolStep p (.finish i) (p.setWorker i .looking)
  | stop : PoolStep p .stop { p with stopping := true, noticeAll := true }
  | join (h : p.stopping = true) (ha : p.noticeAll = false) (hw : ∀ w ∈ p.workers, w = .returned) :
      PoolStep p .join { p with workers := [] }

namespace Worker

@[simp] theorem isWaiting_iff {w : Worker τ} : w.isWaiting = true ↔ w = waiting := by
  cases w <;> simp [isWaiting]

@[simp] theorem isReturned_iff {w : Worker τ} : w.isReturned = true ↔ w = returned := by
  cases w <;> simp [isReturned]

end Worker

namespace ThreadPool

variable {p p' : ThreadPool τ} {e : PoolEvent τ}

theorem pool_step (h : p.step e = some p') : PoolStep p e p' := by
  cases e with
  | start available =>
    simp only [step, start, Option.some.injEq] at h
    subst h
    split
    · exact .startAgain
    · next hw =>
      split <;> exact .start (by simpa using hw)
  | submit task =>
    simp only [step, submit, Option.some.injEq] at h
    subst h
    split
    · next hs => exact .refuse hs
    · next hs => exact .submit (by simpa using hs)
  | notifyOne worker =>
    cases worker with
    | none =>
      rw [step, Option.ite_none_right_eq_some] at h
      obtain ⟨⟨hn, hw⟩, h⟩ := h
      cases h
      refine .notifyNobody hn fun hmem => ?_
      simpa using List.any_eq_false.mp hw _ hmem
    | some i =>
      rw [step] at h
      split at h
      · next hw =>
        obtain ⟨hn, h⟩ := Option.ite_none_right_eq_some.mp h
        cases h
        exact .notifyOne hn hw
      · cases h
  | notifyAll =>
    rw [step, Option.ite_none_right_eq_some] at h
    obtain ⟨hn, h⟩ := h
    cases h
    exact .notifyAll hn
  | wakeUp | finish =>
    rw [step] at h
    split at h
    · next hw =>
      cases h
      first | exact .wakeUp hw | exact .finish hw
    · cases h
  | look i =>
    rw [step] at h
    split at h
    · next hw =>
      cases h
      rw [look]
      cases ht : p.tasks with
      | nil =>
        cases hs : p.stopping with
        | false => exact .sleep hw ht hs
        | true => exact .leave hw ht hs
      | cons task tasks => exact .take hw ht
    · cases h
  | stop =>
    cases h
    exact .stop
  | join =>
    rw [step, Option.ite_none_right_eq_some] at h
    obtain ⟨hc, h⟩ := h
    cases h
    simp only [Bool.and_eq_true, Bool.not_eq_eq_eq_not, Bool.not_true, List.all_eq_true,
      Worker.isReturned_iff] at hc
    exact .join hc.1.1 hc.1.2 hc.2

/-! ## Once and in order -/

theorem running_setWorker {i : Nat} {w : Worker τ} (h : p.workers[i]? = some w) (w' : Worker τ) :
    w.tasks ++ (p.setWorker i w').running ~ w'.tasks ++ p.running :=
  flatMap_set_perm h w' Worker.tasks

theorem running_map_wake (p : ThreadPool τ) :
    (p.workers.map Worker.wake).flatMap Worker.tasks = p.running := by
  rw [List.flatMap_map, running]
  congr 1
  funext w
  cases w <;> rfl

/-- What a step of the pool does to the queue. -/
theorem tasks_step (h : PoolStep p e p') :
    p.tasks ++ p.acceptedBy e = p.startedBy e ++ p'.tasks := by
  cases h with
  | startAgain | start | notifyNobody | notifyAll | stop | join =>
    simp [acceptedBy, startedBy]
  | refuse hs | submit hs => simp [acceptedBy, startedBy, submit, hs]
  | notifyOne | wakeUp | finish => simp [acceptedBy, startedBy, setWorker]
  | sleep _ ht | leave _ ht | take _ ht => simp [acceptedBy, startedBy, setWorker, ht]

/-- What a step of the pool does to the workers' hands. -/
theorem running_step (h : PoolStep p e p') :
    p.startedBy e ++ p.running ~ p.finishedBy e ++ p'.running := by
  cases h with
  | startAgain | refuse | submit | notifyNobody | stop => exact List.Perm.refl _
  | start hw => simp [startedBy, finishedBy, running, hw, Worker.tasks]
  | notifyAll => exact List.Perm.of_eq (running_map_wake p).symm
  | notifyOne _ hw | wakeUp hw => exact (running_setWorker hw .looking).symm
  | sleep hw ht | leave hw ht | take hw ht =>
    rw [startedBy, ht]
    exact .symm (running_setWorker hw _)
  | finish hw =>
    rw [finishedBy, hw]
    exact (running_setWorker hw .looking).symm
  | join _ _ hw =>
    have hrun : p.running = [] := by
      rw [running, List.flatMap_eq_nil_iff]
      intro w hmem
      rw [hw w hmem, Worker.tasks]
    rw [hrun]
    exact List.Perm.refl _

end ThreadPool

namespace PoolHistory

/-- The queue holds what has been accepted and not begun, the workers what has
been begun and not ended. -/
structure Sound (h : PoolHistory τ) : Prop where
  queued : h.accepted = h.started ++ h.pool.tasks
  begun : h.started ~ h.finished ++ h.pool.running

theorem sound_step {h h' : PoolHistory τ} {e : PoolEvent τ} (hs : h.Sound)
    (hstep : h.step e = some h') : h'.Sound := by
  obtain ⟨p', hp, rfl⟩ := Option.map_eq_some_iff.mp hstep
  have htasks := ThreadPool.tasks_step (ThreadPool.pool_step hp)
  have hrunning := ThreadPool.running_step (ThreadPool.pool_step hp)
  constructor
  · calc h.accepted ++ h.pool.acceptedBy e
      _ = h.started ++ (h.pool.tasks ++ h.pool.acceptedBy e) := by
          rw [hs.queued, List.append_assoc]
      _ = h.started ++ (h.pool.startedBy e ++ p'.tasks) := by rw [htasks]
      _ = h.started ++ h.pool.startedBy e ++ p'.tasks := (List.append_assoc ..).symm
  · calc h.started ++ h.pool.startedBy e
      _ ~ h.finished ++ h.pool.running ++ h.pool.startedBy e := hs.begun.append_right _
      _ ~ h.finished ++ (h.pool.startedBy e ++ h.pool.running) := by
          rw [List.append_assoc]
          exact List.perm_append_comm.append_left _
      _ ~ h.finished ++ (h.pool.finishedBy e ++ p'.running) := hrunning.append_left _
      _ ~ h.finished ++ h.pool.finishedBy e ++ p'.running :=
          List.Perm.of_eq (List.append_assoc ..).symm

theorem sound_run {threadCount hardware : Nat} {es : List (PoolEvent τ)} {h : PoolHistory τ}
    (hrun : run step (fresh threadCount hardware) es = some h) : h.Sound :=
  inv_of_run (fun _ _ _ => sound_step) ⟨rfl, List.Perm.refl _⟩ hrun

/-- In every run the tasks are begun in the order in which they were accepted,
each by one worker and none twice. -/
theorem tasks_run_once_in_order {threadCount hardware : Nat} {es : List (PoolEvent τ)}
    {h : PoolHistory τ} (hrun : run step (fresh threadCount hardware) es = some h) :
    h.accepted = h.started ++ h.pool.tasks ∧ h.started ~ h.finished ++ h.pool.running :=
  ⟨(sound_run hrun).queued, (sound_run hrun).begun⟩

/-- Two tasks and one worker, which is at the first of them. -/
theorem second_task_queued_behind_first :
    ∃ h : PoolHistory Nat, run step (fresh 1 4) [.start 1, .submit 7, .submit 8, .look 0] = some h ∧
      h.accepted = [7, 8] ∧ [7] ++ h.pool.tasks = [7, 8] := by
  have hrun : run step (fresh 1 4 : PoolHistory Nat) [.start 1, .submit 7, .submit 8, .look 0] =
    some _ := rfl
  exact ⟨_, hrun, rfl, (tasks_run_once_in_order hrun).1.symm⟩

end PoolHistory

/-! ## No notification is lost -/

namespace ThreadPool

/-- One for a worker that is about to look at the queue. -/
def lookWeight : Worker τ → Nat
  | .looking => 1
  | _ => 0

structure Awake (p : ThreadPool τ) : Prop where
  told : p.stopping = true → p.noticeAll = false → .waiting ∉ p.workers
  woken : .waiting ∈ p.workers → p.tasks.length ≤ p.notices + total lookWeight p.workers
  left : .returned ∈ p.workers → p.stopping = true ∧ p.tasks = []

variable {p p' : ThreadPool τ} {i : Nat} {w : Worker τ} {e : PoolEvent τ}

theorem mem_setWorker {u : Worker τ} (h : u ∈ (p.setWorker i w).workers) (hne : u ≠ w) :
    u ∈ p.workers :=
  (List.mem_or_eq_of_mem_set h).resolve_right hne

theorem waiting_not_mem_wake (ws : List (Worker τ)) : .waiting ∉ ws.map Worker.wake := by
  intro h
  obtain ⟨w, -, hw⟩ := List.mem_map.mp h
  cases w <;> cases hw

theorem returned_mem_wake {ws : List (Worker τ)} (h : .returned ∈ ws.map Worker.wake) :
    .returned ∈ ws := by
  obtain ⟨w, hmem, hw⟩ := List.mem_map.mp h
  cases w <;> first | exact hmem | cases hw

theorem awake_create (threadCount hardware : Nat) :
    (create threadCount hardware : ThreadPool τ).Awake :=
  ⟨fun _ _ => List.not_mem_nil, fun h => absurd h List.not_mem_nil,
    fun h => absurd h List.not_mem_nil⟩

/-- A worker turns to something else. With a look or a notification less, the
queue must have become shorter. -/
theorem Awake.set (ha : p.Awake) (hw : p.workers[i]? = some w) {w' : Worker τ}
    (hwait : .waiting ≠ w') (hret : .returned ≠ w') {tasks : List τ} {notices : Nat}
    (ht : p.tasks = [] → tasks = []) (hlen : tasks.length + p.notices + lookWeight w ≤
      p.tasks.length + notices + lookWeight w') :
    ({ p.setWorker i w' with tasks := tasks, notices := notices } : ThreadPool τ).Awake where
  told hs hn := fun h => ha.told hs hn (mem_setWorker h hwait)
  woken h := by
    have hwoken := ha.woken (mem_setWorker h hwait)
    have hsum := total_set hw w' lookWeight
    simp only [setWorker]
    omega
  left h := (ha.left (mem_setWorker h hret)).imp_right ht

theorem awake_pool_step (ha : p.Awake) (h : PoolStep p e p') : p'.Awake := by
  cases h with
  | startAgain | refuse => exact ha
  | start hw =>
    refine ⟨fun _ _ h => ?_, fun h => ?_, fun h => ?_⟩
    all_goals cases List.eq_of_mem_replicate h
  | submit hs =>
    refine ⟨fun hs' => by simp [hs] at hs', fun h => ?_, fun h => ?_⟩
    · have := ha.woken h
      simp only [List.length_append, List.length_singleton]
      omega
    · have := (ha.left h).1
      simp [hs] at this
  | notifyNobody _ hw => exact ⟨ha.told, fun h => absurd h hw, ha.left⟩
  | notifyOne hn hw =>
    exact ha.set hw (by simp) (by simp) id (by simp only [lookWeight, setWorker]; omega)
  | notifyAll _ =>
    exact ⟨fun _ _ => waiting_not_mem_wake _, fun h => absurd h (waiting_not_mem_wake _),
      fun h => ha.left (returned_mem_wake h)⟩
  | wakeUp hw | finish hw => exact ha.set hw (by simp) (by simp) id (Nat.le_succ _)
  | sleep hw ht hs =>
    refine ⟨fun hs' => by simp [setWorker, hs] at hs', fun _ => ?_, fun h => ?_⟩
    · simp [setWorker, ht]
    · exact ha.left (mem_setWorker h (by simp))
  | leave hw ht hs =>
    refine ⟨fun hs hn h => ha.told hs hn (mem_setWorker h (by simp)), fun h => ?_,
      fun _ => ⟨hs, ht⟩⟩
    simp [setWorker, ht]
  | take hw ht =>
    refine ha.set hw (by simp) (by simp) (fun hnil => by simp [hnil] at ht) ?_
    simp only [ht, lookWeight, setWorker, List.length_cons]
    omega
  | stop => exact ⟨fun _ hn => by simp at hn, ha.woken, fun h => ⟨rfl, (ha.left h).2⟩⟩
  | join =>
    exact ⟨fun _ _ => List.not_mem_nil, fun h => absurd h List.not_mem_nil,
      fun h => absurd h List.not_mem_nil⟩

/-! ## A pool left alone finishes its tasks -/

def workWeight : Worker τ → Nat
  | .running _ => 2
  | .looking => 1
  | .waiting | .returned => 0

/-- How many steps the pool can take by itself, at most. -/
def work (p : ThreadPool τ) : Nat :=
  2 * p.tasks.length + 2 * p.notices + (if p.noticeAll then p.workers.length + 1 else 0) +
    total workWeight p.workers

theorem work_setWorker (hw : p.workers[i]? = some w) (w' : Worker τ) :
    (p.setWorker i w').work + workWeight w = p.work + workWeight w' := by
  have := total_set hw w' workWeight
  simp only [work, setWorker, List.length_set]
  omega

theorem work_decreases (hi : e.internal = true) (h : PoolStep p e p') : p'.work < p.work := by
  cases h with
  | startAgain | refuse | start | submit | wakeUp | stop | join => cases hi
  | notifyNobody hn _ =>
    simp only [work]
    omega
  | notifyOne hn hw =>
    have := work_setWorker hw .looking
    simp only [work, setWorker, workWeight] at this ⊢
    omega
  | notifyAll hn =>
    have := total_map_le workWeight Worker.wake
      (fun w => by cases w <;> simp [Worker.wake, workWeight]) p.workers
    simp only [work, hn, if_true]
    simp
    omega
  | sleep hw | leave hw => exact Nat.lt_of_succ_le (Nat.le_of_eq (work_setWorker hw _))
  | @take i task tasks hw ht =>
    have := work_setWorker hw (.running task)
    simp only [work, setWorker, workWeight, ht, List.length_cons] at this ⊢
    omega
  | finish hw => exact Nat.le_of_eq (Nat.succ.inj (work_setWorker hw .looking))

/-- No worker comes or goes unless the pool is started or joined. -/
theorem workers_step (h : PoolStep p e p') (he : e ≠ .join) (hw : p.workers ≠ []) :
    p'.workers ≠ [] := by
  have hset : ∀ (i : Nat) (w : Worker τ), p.workers.set i w ≠ [] := by
    intro i w
    simpa using hw
  cases h with
  | start h => exact absurd h hw
  | join => exact absurd rfl he
  | notifyAll => simpa using hw
  | startAgain | refuse | submit | notifyNobody | stop => exact hw
  | notifyOne | wakeUp | sleep | leave | take | finish => exact hset _ _

theorem stopping_step (h : PoolStep p e p') (he : ∀ available, e ≠ .start available) :
    p'.stopping = true ↔ p.stopping = true ∨ e = .stop := by
  cases h with
  | startAgain | start => exact absurd rfl (he _)
  | refuse | submit | notifyNobody | notifyOne | notifyAll | wakeUp | sleep | leave | take | finish
  | stop | join => simp [setWorker]

/-- No step is left that the pool takes by itself. -/
def Quiet (p : ThreadPool τ) : Prop := ∀ e : PoolEvent τ, e.internal = true → p.step e = none

/-- A worker of a quiet pool sleeps or has returned. -/
theorem Quiet.asleep (hq : p.Quiet) (hw : w ∈ p.workers) : w = .waiting ∨ w = .returned := by
  obtain ⟨i, hi⟩ := List.getElem?_of_mem hw
  cases w with
  | waiting => exact Or.inl rfl
  | returned => exact Or.inr rfl
  | looking =>
    have := hq (.look i) rfl
    simp [step, hi] at this
  | running task =>
    have := hq (.finish i) rfl
    simp [step, hi] at this

theorem Quiet.running (hq : p.Quiet) : p.running = [] := by
  rw [ThreadPool.running, List.flatMap_eq_nil_iff]
  intro w hw
  rcases hq.asleep hw with rfl | rfl <;> rfl

theorem Quiet.noticeAll (hq : p.Quiet) : p.noticeAll = false := by
  have := hq .notifyAll rfl
  simpa [step] using this

theorem Quiet.notices (hq : p.Quiet) (hw : .waiting ∈ p.workers) : p.notices = 0 := by
  obtain ⟨i, hi⟩ := List.getElem?_of_mem hw
  have := hq (.notifyOne (some i)) rfl
  simpa [step, hi] using this

/-- A quiet pool with a worker has an empty queue, and if it is stopping all
workers have returned. -/
theorem Quiet.done (hq : p.Quiet) (ha : p.Awake) (hw : p.workers ≠ []) :
    p.tasks = [] ∧ (p.stopping = true → ∀ w ∈ p.workers, w = .returned) := by
  have hlook : total lookWeight p.workers = 0 := by
    refine total_eq_zero fun w hmem => ?_
    rcases hq.asleep hmem with rfl | rfl <;> rfl
  constructor
  · obtain ⟨w, hmem⟩ := List.exists_mem_of_ne_nil _ hw
    rcases hq.asleep hmem with rfl | rfl
    · have hlen := ha.woken hmem
      rw [hq.notices hmem, hlook] at hlen
      exact List.length_eq_zero_iff.mp (Nat.le_zero.mp hlen)
    · exact (ha.left hmem).2
  · intro hs w hmem
    refine (hq.asleep hmem).resolve_left ?_
    rintro rfl
    exact ha.told hs hq.noticeAll hmem

end ThreadPool

namespace PoolHistory

variable {h : PoolHistory τ}

theorem pool_step_of_step {h' : PoolHistory τ} {e : PoolEvent τ} (hstep : h.step e = some h') :
    PoolStep h.pool e h'.pool := by
  obtain ⟨p', hp, rfl⟩ := Option.map_eq_some_iff.mp hstep
  exact ThreadPool.pool_step hp

theorem accepted_of_internal {h' : PoolHistory τ} {e : PoolEvent τ} (hi : e.internal = true)
    (hstep : h.step e = some h') : h'.accepted = h.accepted := by
  obtain ⟨p', hp, rfl⟩ := Option.map_eq_some_iff.mp hstep
  cases e with
  | start | submit | wakeUp | stop | join => cases hi
  | notifyOne | notifyAll | look | finish => exact List.append_nil _

theorem awake_run {threadCount hardware : Nat} {es : List (PoolEvent τ)}
    (hrun : run step (fresh threadCount hardware) es = some h) : h.pool.Awake :=
  inv_of_run (I := fun h => h.pool.Awake)
    (fun _ _ _ ha hstep => ThreadPool.awake_pool_step ha (pool_step_of_step hstep))
    (ThreadPool.awake_create threadCount hardware) hrun

/-- Whatever a pool with workers has been through: if its threads are given
the processor, in any order, and nobody asks anything more of it, it comes to
rest after a bounded number of steps. By then every accepted task has been run
to its end, and if the pool is stopping every worker has returned. -/
theorem every_schedule_finishes {threadCount hardware : Nat} {es schedule : List (PoolEvent τ)}
    {h t : PoolHistory τ} (hrun : run step (fresh threadCount hardware) es = some h)
    (hw : h.pool.workers ≠ []) (hint : ∀ e ∈ schedule, e.internal = true)
    (hsched : run step h schedule = some t) :
    schedule.length ≤ h.pool.work ∧
      (t.pool.Quiet → t.accepted = h.accepted ∧ t.finished ~ h.accepted ∧
        (t.pool.stopping = true → ∀ w ∈ t.pool.workers, w = .returned)) := by
  have hwork := length_add_le_of_decreases (m := fun h : PoolHistory τ => h.pool.work)
    (fun _ _ _ hi hstep => ThreadPool.work_decreases hi (pool_step_of_step hstep)) hint hsched
  refine ⟨by omega, fun hq => ?_⟩
  have hrun' : run step (fresh threadCount hardware) (es ++ schedule) = some t := by
    rw [run_append hrun, hsched]
  have hkept : t.pool.workers ≠ [] ∧ t.accepted = h.accepted :=
    inv_of_always (I := fun t => t.pool.workers ≠ [] ∧ t.accepted = h.accepted)
      (C := fun _ e _ => e.internal = true)
      (fun _ _ _ hI hstep hi => ⟨ThreadPool.workers_step (pool_step_of_step hstep)
        (by rintro rfl; cases hi) hI.1, (accepted_of_internal hi hstep).trans hI.2⟩)
      ⟨hw, rfl⟩ hsched (always_of_forall hint)
  obtain ⟨hempty, hreturned⟩ := hq.done (awake_run hrun') hkept.1
  have hsound := sound_run hrun'
  refine ⟨hkept.2, ?_, hreturned⟩
  rw [← hkept.2, hsound.queued, hempty, List.append_nil]
  simpa [hq.running] using hsound.begun.symm

/-- A worker that sleeps, a task, and a `stop` before the worker has been told
of either. -/
theorem stopped_pool_finishes_its_task :
    ∃ h t : PoolHistory Nat, run step (fresh 1 4) [.start 1, .look 0, .submit 7, .stop] = some h ∧
      run step h [.notifyOne (some 0), .look 0, .notifyAll, .finish 0, .look 0] = some t ∧
      5 ≤ h.pool.work ∧ t.pool.Quiet ∧ t.finished ~ [7] := by
  have hrun : run step (fresh 1 4 : PoolHistory Nat) [.start 1, .look 0, .submit 7, .stop] =
    some _ := rfl
  have hint : ∀ e ∈ [.notifyOne (some 0), .look 0, .notifyAll, .finish 0, .look 0],
    (e : PoolEvent Nat).internal = true := by decide
  have h := every_schedule_finishes hrun (by decide) hint rfl
  refine ⟨_, _, hrun, rfl, h.1, ?quiet, (h.2 ?quiet).2.1⟩
  intro e he
  cases e with
  | notifyOne w =>
    cases w with
    | none => rfl
    | some i => cases i <;> rfl
  | notifyAll => rfl
  | look i => cases i <;> rfl
  | finish i => cases i <;> rfl
  | start | submit | wakeUp | stop | join => cases he

/-- `stop` returns when all threads are joined. In a pool with workers that is
after every accepted task has been run to its end. -/
theorem join_after_all_tasks {threadCount hardware : Nat} {es : List (PoolEvent τ)}
    {h t : PoolHistory τ} (hrun : run step (fresh threadCount hardware) es = some h)
    (hw : h.pool.workers ≠ []) (hjoin : h.step .join = some t) :
    t.pool.tasks = [] ∧ t.finished ~ t.accepted := by
  have hsound := sound_step (sound_run hrun) hjoin
  obtain ⟨p', hp, rfl⟩ := Option.map_eq_some_iff.mp hjoin
  obtain ⟨w, hmem⟩ := List.exists_mem_of_ne_nil _ hw
  cases ThreadPool.pool_step hp with
  | join _ _ hreturned =>
    have hempty := ((awake_run hrun).left (hreturned w hmem ▸ hmem)).2
    refine ⟨hempty, ?_⟩
    rw [hsound.queued, hempty, List.append_nil]
    simpa [ThreadPool.running] using hsound.begun.symm

theorem joined_after_its_task :
    ∃ h t : PoolHistory Nat, run step (fresh 1 4) [.start 1, .submit 7, .notifyOne none, .look 0,
        .stop, .notifyAll, .finish 0, .look 0] = some h ∧ h.step .join = some t ∧
      t.pool.tasks = [] ∧ t.finished ~ t.accepted := by
  have hrun : run step (fresh 1 4 : PoolHistory Nat) [.start 1, .submit 7, .notifyOne none,
    .look 0, .stop, .notifyAll, .finish 0, .look 0] = some _ := rfl
  exact ⟨_, _, hrun, rfl, join_after_all_tasks hrun (by decide) rfl⟩

end PoolHistory

end TinyKV
