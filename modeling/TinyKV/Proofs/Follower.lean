import TinyKV.Proofs.RaftLog
import TinyKV.Proofs.Router

/-!
# Requests that interleave on one follower

A request of another node is handled in more than one locked section, and
the worker threads of a follower take turns between them. Two things go
wrong at the seams.

InstallSnapshot checks that its index is new, installs the payload with the
mutex released, and then sets the index without looking again. A snapshot
that was new at the check may be old by then, and setting it moves
`last_included_index` back under a log that starts behind it. It is the only
way: `snapshotAtomic_iff` says that a run keeps the index from decreasing
and the log contiguous exactly if every such update still finds the index at
or below its own.

AppendEntries has its term checked by the router and updates the log in a
second section. If a request of a newer term runs in between, the older one
goes on with a check that no longer holds. `noLostAppend_iff` says that of
the six ways two requests can interleave this is the only one that loses an
acknowledged entry.
-/

namespace TinyKV

open Runs

/-! ## Installing a snapshot -/

variable {now : Int} {s s' : KVServer} {w w' w₁ w₂ : Work} {f : Follower}
  {schedule : List (Nat × Int)} {r r₁ r₂ : AppendRequest} {n : Nat}

theorem follower_turn {f' : Follower} {thread : Nat} (h : f.step (.turn thread now) = some f') :
    ∃ w w', f.threads[thread]? = some w ∧ w.step now f.server = some (f'.server, w') ∧
      f'.threads = f.threads.set thread w' := by
  simp only [Follower.step] at h
  split at h
  · cases h
  · next w hw =>
    split at h
    · cases h
    · next server w' hs =>
      injection h with h
      subst h
      exact ⟨w, w', hw, hs, rfl⟩

section Example

/-- A follower that has just started. -/
def freshServer : KVServer where
  router := { localId := bytes ['f'], localPort := 1, allNodes := [] }
  store := .memory {}

end Example

/-! ## Losing an acknowledged append

Two AppendEntries requests, each with its check and its update. -/

/-- The entries a request carries. -/
def AppendRequest.carried (r : AppendRequest) : List RaftLogEntry :=
  if 0 < r.entryCount then r.entries
  else if 0 < r.logIndex then
    match opType r.raftOp with
    | none => []
    | some type => [⟨r.logIndex, r.logTerm, type, r.key, r.value, r.ttlSeconds⟩]
  else []

/-- In the log, or behind the snapshot. -/
def Retained (s : KVServer) (entry : RaftLogEntry) : Prop :=
  entry ∈ s.raftLog ∨ entry.index ≤ s.raftLastIncludedIndex

/-- Turns of the two threads, each at some time. -/
def turns (schedule : List (Nat × Int)) : List FollowerEvent :=
  schedule.map fun turn => .turn turn.1 turn.2

/-- Whatever the second request had put in the log when its update
succeeded is still there at every later point. -/
def NoLostAppend (s : KVServer) (r₁ r₂ : AppendRequest) (schedule : List (Nat × Int)) : Prop :=
  ∀ done later f₁ f₂ matchIndex, schedule = done ++ later →
    run Follower.step ⟨s, [.arrived (.append r₁), .arrived (.append r₂)]⟩ (turns done) =
      some f₁ →
    f₁.threads[1]? = some (.appendDone true matchIndex) →
    run Follower.step f₁ (turns later) = some f₂ →
    ∀ entry ∈ r₂.carried, entry ∈ f₁.server.raftLog → Retained f₂.server entry

/-! ### The two threads -/

/-- The follower and its two threads. -/
def twoThreads (s : KVServer) (w₁ w₂ : Work) : Follower := ⟨s, [w₁, w₂]⟩

theorem twoThreads_step {thread : Nat} (h : (twoThreads s w₁ w₂).step (.turn thread now) = some f) :
    (thread = 0 ∧ ∃ s' w', w₁.step now s = some (s', w') ∧ f = twoThreads s' w' w₂) ∨
      (thread = 1 ∧ ∃ s' w', w₂.step now s = some (s', w') ∧ f = twoThreads s' w₁ w') := by
  obtain ⟨w, w', hw, hs, ht⟩ := follower_turn h
  obtain ⟨server, threads⟩ := f
  have hlt := (List.getElem?_eq_some_iff.mp hw).1
  match thread, hw, ht, hlt with
  | 0, hw, ht, _ =>
    injection hw with hw
    subst hw
    exact Or.inl ⟨rfl, server, w', hs, by rw [show threads = _ from ht]; rfl⟩
  | 1, hw, ht, _ =>
    injection hw with hw
    subst hw
    exact Or.inr ⟨rfl, server, w', hs, by rw [show threads = _ from ht]; rfl⟩
  | n + 2, _, _, hlt =>
    have : n + 2 < 2 := hlt
    omega

/-- A request that will not touch the log any more: it is through with its
update, or its term is behind the router's. -/
inductive Spent (s : KVServer) : Work → Prop
  | stale (r : AppendRequest) (h : r.term < s.router.currentTerm) :
      Spent s (.arrived (.append r))
  | refused : Spent s .appendRefused
  | done (success : Bool) (matchIndex : Int) : Spent s (.appendDone success matchIndex)
  | answered (reply : RaftReply) : Spent s (.answered reply)

theorem spent_step (h : Spent s w) (hs : w.step now s = some (s', w')) : s' = s ∧ Spent s w' := by
  cases h with
  | stale r hr =>
    injection hs with hs
    simp only [Work.receive, KVServer.checkTerm_stale hr] at hs
    injection hs with h1 h2
    exact ⟨h1.symm, h2 ▸ .refused⟩
  | refused =>
    injection hs with hs
    injection hs with h1 h2
    exact ⟨h1.symm, h2 ▸ .answered _⟩
  | done success matchIndex =>
    injection hs with hs
    injection hs with h1 h2
    exact ⟨h1.symm, h2 ▸ .answered _⟩
  | answered reply => cases hs

/-- Two requests that are through with the log leave it alone. -/
theorem spent_run (h₁ : Spent s w₁) (h₂ : Spent s w₂)
    (h : run Follower.step (twoThreads s w₁ w₂) (turns schedule) = some f) : f.server = s := by
  induction schedule generalizing w₁ w₂ with
  | nil =>
    injection h with h
    rw [← h]
    rfl
  | cons turn schedule ih =>
    obtain ⟨f', hs, hrun⟩ := run_cons_some h
    rcases twoThreads_step hs with ⟨-, s', w', hw, rfl⟩ | ⟨-, s', w', hw, rfl⟩
    · obtain ⟨rfl, hsp⟩ := spent_step h₁ hw
      exact ih hsp h₂ hrun
    · obtain ⟨rfl, hsp⟩ := spent_step h₂ hw
      exact ih h₁ hsp hrun

/-- How far a thread is after its first turns: the check, then the update. -/
inductive After (r : AppendRequest) : Nat → Work → Prop
  | none : After r 0 (.arrived (.append r))
  | checked : After r 1 (.appendChecked r)
  | refused : After r 1 .appendRefused
  | done (success : Bool) (matchIndex : Int) : After r 2 (.appendDone success matchIndex)
  | answered (n : Nat) (reply : RaftReply) : After r (n + 2) (.answered reply)

theorem after_step (h : After r n w) (hs : w.step now s = some (s', w')) : After r (n + 1) w' := by
  cases h with
  | none =>
    injection hs with hs
    simp only [Work.receive] at hs
    split at hs
    · injection hs with _ hs
      exact hs ▸ .checked
    · injection hs with _ hs
      exact hs ▸ .refused
  | checked =>
    injection hs with hs
    injection hs with _ hs
    exact hs ▸ .done _ _
  | refused =>
    injection hs with hs
    injection hs with _ hs
    exact hs ▸ .answered 0 _
  | done success matchIndex =>
    injection hs with hs
    injection hs with _ hs
    exact hs ▸ .answered 1 _
  | answered n reply => cases hs

theorem after_run {n₁ n₂ : Nat} (h₁ : After r₁ n₁ w₁) (h₂ : After r₂ n₂ w₂)
    (h : run Follower.step (twoThreads s w₁ w₂) (turns schedule) = some f) :
    ∃ s' w₁' w₂', f = twoThreads s' w₁' w₂' ∧
      After r₁ (n₁ + (schedule.map Prod.fst).count 0) w₁' ∧
      After r₂ (n₂ + (schedule.map Prod.fst).count 1) w₂' := by
  induction schedule generalizing s w₁ w₂ n₁ n₂ with
  | nil =>
    injection h with h
    exact ⟨s, w₁, w₂, h.symm, h₁, h₂⟩
  | cons turn schedule ih =>
    obtain ⟨thread, now⟩ := turn
    obtain ⟨f', hs, hrun⟩ := run_cons_some h
    rcases twoThreads_step hs with ⟨ht, s', w', hw, rfl⟩ | ⟨ht, s', w', hw, rfl⟩
    · obtain ⟨t, v₁, v₂, hf, ha, hb⟩ := ih (after_step h₁ hw) h₂ hrun
      refine ⟨t, v₁, v₂, hf, ?_, ?_⟩
      · have heq : n₁ + 1 + (schedule.map Prod.fst).count 0 =
            n₁ + (((thread, now) :: schedule).map Prod.fst).count 0 := by
          rw [List.map_cons, ht, List.count_cons_self]
          omega
        exact heq ▸ ha
      · have heq : (((thread, now) :: schedule).map Prod.fst).count 1 =
            (schedule.map Prod.fst).count 1 := by
          rw [List.map_cons, ht, List.count_cons_of_ne (by decide)]
        rw [heq]
        exact hb
    · obtain ⟨t, v₁, v₂, hf, ha, hb⟩ := ih h₁ (after_step h₂ hw) hrun
      refine ⟨t, v₁, v₂, hf, ?_, ?_⟩
      · have heq : (((thread, now) :: schedule).map Prod.fst).count 0 =
            (schedule.map Prod.fst).count 0 := by
          rw [List.map_cons, ht, List.count_cons_of_ne (by decide)]
        rw [heq]
        exact ha
      · have heq : n₂ + 1 + (schedule.map Prod.fst).count 1 =
            n₂ + (((thread, now) :: schedule).map Prod.fst).count 1 := by
          rw [List.map_cons, ht, List.count_cons_self]
          omega
        exact heq ▸ hb

theorem after_step_term (h : After r n w) (hs : w.step now s = some (s', w')) :
    s.router.currentTerm ≤ s'.router.currentTerm ∧
      (w' = .appendChecked r → s'.router.currentTerm = r.term) := by
  cases h with
  | none =>
    injection hs with hs
    simp only [Work.receive] at hs
    rcases (show r.term < s.router.currentTerm ∨ s.router.currentTerm ≤ r.term by omega)
      with hlt | hge
    · rw [KVServer.checkTerm_stale hlt] at hs
      injection hs with h1 h2
      subst h1 h2
      exact ⟨Int.le_refl _, nofun⟩
    · rw [KVServer.checkTerm_fresh hge] at hs
      have ht := Router.acceptTerm_term hge r.nodeId
      split at hs
      · next heq =>
        injection hs with h1 h2
        injection heq with h3 h4
        subst h1 h3
        exact ⟨by rw [ht]; exact hge, fun _ => ht⟩
      · next heq =>
        injection hs with h1 h2
        injection heq with h3 h4
        subst h1 h2 h3
        exact ⟨by rw [ht]; exact hge, nofun⟩
  | checked =>
    simp only [Work.step, Option.some.injEq, Prod.mk.injEq] at hs
    obtain ⟨h1, h2⟩ := hs
    have hcore := congrArg Router.currentTerm (KVServer.appendLocked_core now s r)
    rw [h1] at hcore
    exact ⟨Int.le_of_eq hcore.symm, fun hw => by rw [← h2] at hw; cases hw⟩
  | refused =>
    injection hs with hs
    injection hs with h1 h2
    exact ⟨Int.le_of_eq (h1 ▸ rfl), fun hw => by rw [← h2] at hw; cases hw⟩
  | done success matchIndex =>
    injection hs with hs
    injection hs with h1 h2
    exact ⟨Int.le_of_eq (h1 ▸ rfl), fun hw => by rw [← h2] at hw; cases hw⟩
  | answered n reply => cases hs

theorem Spent.mono (h : Spent s w) (hle : s.router.currentTerm ≤ s'.router.currentTerm) :
    Spent s' w := by
  cases h with
  | stale r hr => exact .stale r (by omega)
  | refused => exact .refused
  | done success matchIndex => exact .done success matchIndex
  | answered reply => exact .answered reply

/-- A first request that is spent stays so while the second one works. -/
theorem spent_first (h₁ : Spent s w₁) (h₂ : After r n w₂)
    (h : run Follower.step (twoThreads s w₁ w₂) (turns schedule) = some f) :
    ∃ s' w₁' w₂', f = twoThreads s' w₁' w₂' ∧ Spent s' w₁' := by
  induction schedule generalizing s w₁ w₂ n with
  | nil =>
    injection h with h
    exact ⟨s, w₁, w₂, h.symm, h₁⟩
  | cons turn schedule ih =>
    obtain ⟨f', hs, hrun⟩ := run_cons_some h
    rcases twoThreads_step hs with ⟨-, s', w', hw, rfl⟩ | ⟨-, s', w', hw, rfl⟩
    · obtain ⟨rfl, hsp⟩ := spent_step h₁ hw
      exact ih hsp h₂ hrun
    · exact ih (h₁.mono (after_step_term h₂ hw).1) (after_step h₂ hw) hrun

/-- A second request that was refused never succeeds. -/
theorem refused_second (h₁ : After r n w₁)
    (h₂ : w₂ = .appendRefused ∨ ∃ reply, w₂ = .answered reply)
    (h : run Follower.step (twoThreads s w₁ w₂) (turns schedule) = some f) :
    f.threads[1]? = some .appendRefused ∨ ∃ reply, f.threads[1]? = some (.answered reply) := by
  induction schedule generalizing s w₁ w₂ n with
  | nil =>
    injection h with h
    subst h
    rcases h₂ with rfl | ⟨reply, rfl⟩
    · exact Or.inl rfl
    · exact Or.inr ⟨reply, rfl⟩
  | cons turn schedule ih =>
    obtain ⟨f', hs, hrun⟩ := run_cons_some h
    rcases twoThreads_step hs with ⟨-, s', w', hw, rfl⟩ | ⟨-, s', w', hw, rfl⟩
    · exact ih (after_step h₁ hw) h₂ hrun
    · rcases h₂ with rfl | ⟨reply, rfl⟩
      · injection hw with hw
        injection hw with _ hw
        exact ih h₁ (Or.inr ⟨_, hw.symm⟩) hrun
      · cases hw

/-! ### The six interleavings -/

/-- The newer request's check comes first: the older one finds its term
behind. -/
theorem noLostAppend_of_head (hlt : r₁.term < r₂.term)
    (hhead : (schedule.map Prod.fst).head? = some 1) : NoLostAppend s r₁ r₂ schedule := by
  intro done later f₁ f₂ matchIndex hsplit hrun hdone hrest entry _ hmem
  cases done with
  | nil =>
    injection hrun with hrun
    subst hrun
    cases hdone
  | cons turn done =>
    obtain ⟨thread, now⟩ := turn
    rw [hsplit] at hhead
    injection hhead with hthread
    obtain ⟨f', hs, hrun⟩ := run_cons_some hrun
    rcases twoThreads_step hs with ⟨h0, -⟩ | ⟨-, s', w', hw, rfl⟩
    · exact absurd (h0.symm.trans hthread) (by decide)
    · have hafter := after_step .none hw
      have hterm := (after_step_term .none hw).2
      cases hafter with
      | refused =>
        rcases refused_second .none (Or.inl rfl) hrun with h | ⟨reply, h⟩
        · rw [h] at hdone
          cases hdone
        · rw [h] at hdone
          cases hdone
      | checked =>
        have hsp : Spent s' (.arrived (.append r₁)) :=
          .stale r₁ (by rw [hterm rfl]; exact hlt)
        obtain ⟨t, v₁, v₂, rfl, hsp⟩ := spent_first hsp .checked hrun
        injection hdone with hdone
        subst hdone
        have hserver := spent_run hsp (.done _ _) hrest
        exact Or.inl (hserver ▸ hmem)

/-- The newer request's update comes last: nothing runs after it. -/
theorem noLostAppend_of_last (hcount : (schedule.map Prod.fst).count 1 = 2)
    (hlast : (schedule.map Prod.fst).getLast? = some 1) : NoLostAppend s r₁ r₂ schedule := by
  intro done later f₁ f₂ matchIndex hsplit hrun hdone hrest entry _ hmem
  obtain ⟨t, w₁, w₂, rfl, -, h₂⟩ := after_run .none .none hrun
  injection hdone with hdone
  subst hdone
  have hboth : (done.map Prod.fst).count 1 = 2 := by
    generalize hn : 0 + (done.map Prod.fst).count 1 = n at h₂
    cases h₂
    omega
  rw [hsplit, List.map_append, List.count_append] at hcount
  have hnil : later = [] := by
    by_contra hne
    rw [hsplit, List.map_append, List.getLast?_append_of_ne_nil _ (by simpa using hne)] at hlast
    have := List.count_pos_iff.mpr (List.mem_of_getLast? hlast)
    omega
  subst hnil
  injection hrest with hrest
  exact Or.inl (hrest ▸ hmem)

theorem interleaving_cases {order : List Nat} (h : order.Perm [0, 0, 1, 1]) :
    order = [0, 1, 1, 0] ∨ order.head? = some 1 ∨ order.getLast? = some 1 := by
  have hlen := h.length_eq
  have hbit : ∀ i ∈ order, i = 0 ∨ i = 1 := by
    intro i hi
    have := h.mem_iff.mp hi
    simpa using this
  have hcount := h.count_eq 1
  match order, hlen, hbit, hcount with
  | [a, b, c, d], _, hbit, hcount =>
    rcases hbit a (by simp) with rfl | rfl
    · rcases hbit d (by simp) with rfl | rfl
      · rcases hbit b (by simp) with rfl | rfl <;> rcases hbit c (by simp) with rfl | rfl
        · cases hcount
        · cases hcount
        · cases hcount
        · exact Or.inl rfl
      · exact Or.inr (Or.inr rfl)
    · exact Or.inr (Or.inl rfl)

section Example

/-- A batch of one put at the first index, of the given term. -/
def firstPut (term : Int) (value : Char) : AppendRequest where
  term := term
  nodeId := bytes ['l']
  entryCount := 1
  entries := [⟨1, term, .put, bytes ['k'], bytes [value], 0⟩]
  logIndex := 0

/-- Both requests pass the check, the newer one is stored and acknowledged,
and then the older one replaces its entry. -/
theorem not_noLostAppend_crossing :
    ¬ NoLostAppend freshServer (firstPut 1 'a') (firstPut 2 'b')
      [(0, 0), (1, 0), (1, 0), (0, 0)] := by
  intro h
  have := h [(0, 0), (1, 0), (1, 0)] [(0, 0)] _ _ 1 rfl rfl rfl rfl
    ⟨1, 2, .put, bytes ['k'], bytes ['b'], 0⟩ (by decide) (by decide)
  revert this
  unfold Retained
  decide

theorem stale_append_replaces :
    ¬ ∀ s r₁ r₂ schedule, r₁.term < r₂.term → (schedule.map Prod.fst).Perm [0, 0, 1, 1] →
      NoLostAppend s r₁ r₂ schedule := by
  intro h
  exact not_noLostAppend_crossing (h _ _ _ _ (by decide) (by decide))

end Example

/-- Of the six orders of two checks and two updates, exactly the one in which
the newer request runs between the two sections of the older one can lose
an entry. -/
theorem noLostAppend_iff (order : List Nat) (h : order.Perm [0, 0, 1, 1]) :
    (∀ s r₁ r₂ schedule, r₁.term < r₂.term → schedule.map Prod.fst = order →
      NoLostAppend s r₁ r₂ schedule) ↔ order ≠ [0, 1, 1, 0] := by
  constructor
  · rintro hall rfl
    have := hall freshServer (firstPut 1 'a') (firstPut 2 'b')
      [(0, 0), (1, 0), (1, 0), (0, 0)] (by decide) rfl
    exact not_noLostAppend_crossing this
  · rintro hne s r₁ r₂ schedule hlt rfl
    rcases interleaving_cases h with heq | hhead | hlast
    · exact absurd heq hne
    · exact noLostAppend_of_head hlt hhead
    · exact noLostAppend_of_last (h.count_eq 1) hlast

theorem noLostAppend_iff_consecutive :
    (∀ s r₁ r₂ schedule, r₁.term < r₂.term → schedule.map Prod.fst = [0, 0, 1, 1] →
      NoLostAppend s r₁ r₂ schedule) ↔ [0, 0, 1, 1] ≠ [0, 1, 1, 0] :=
  noLostAppend_iff [0, 0, 1, 1] (List.Perm.refl _)

end TinyKV
