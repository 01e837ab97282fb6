import Mathlib.Logic.Function.Basic
import Mathlib.Data.List.Nodup
import Mathlib.Data.List.Perm.Subperm
import Mathlib.Data.Set.Defs
import Mathlib.Logic.Relation
import Mathlib.Order.Lattice

/-!
# Elections by quorum

A protocol in which nodes move through terms, stand as candidates, give at
most one vote in each term, and lead once a quorum has voted for them. The
state keeps all votes ever given and all elections ever won, so that what
happened in a term can be asked long after everyone has left it. Votes and
elections carry data that this file never looks at; a protocol built on top
records there what it needs to remember about the moment.

The result is `Inv.leader_unique`: as long as any two quorums meet, no term
has two leaders. Majorities meet (`Majority.meet`). A program that refines
the protocol does so one node at a time; `Follows` is what the protocol does
while a single node moves.
-/

namespace TinyKV.Ballot

open Function

inductive Role
  | follower
  | candidate
  | leader
  deriving DecidableEq, Repr

structure Vote (N T V : Type) where
  voter : N
  term : T
  cand : N
  data : V

structure Election (N T R : Type) where
  term : T
  leader : N
  voters : Set N
  data : R

structure State (N T V R : Type) where
  term : N → T
  role : N → Role
  votes : List (Vote N T V)
  elections : List (Election N T R)

variable {N T V R : Type}

namespace State

/-- `v` gave its vote of this term to `c`. -/
def Voted (s : State N T V R) (v : N) (t : T) (c : N) : Prop :=
  ∃ x ∈ s.votes, x.voter = v ∧ x.term = t ∧ x.cand = c

/-- `n` won the election of this term. -/
def Led (s : State N T V R) (n : N) (t : T) : Prop :=
  ∃ r ∈ s.elections, r.leader = n ∧ r.term = t

def setRole [DecidableEq N] (s : State N T V R) (n : N) (role : Role) : State N T V R :=
  { s with role := update s.role n role }

/-- Enter a new term in the given role. -/
def enter [DecidableEq N] (s : State N T V R) (n : N) (t : T) (role : Role) : State N T V R :=
  { s with term := update s.term n t, role := update s.role n role }

def addVote (s : State N T V R) (x : Vote N T V) : State N T V R :=
  { s with votes := x :: s.votes }

def addElection (s : State N T V R) (r : Election N T R) : State N T V R :=
  { s with elections := s.elections ++ [r] }

end State

/-- What a node can do. A vote goes to a candidate that has reached the
voter's term, and to none but the one the voter has voted for already. -/
inductive Step [DecidableEq N] [LinearOrder T] (Quorum : Set N → Prop) :
    State N T V R → State N T V R → Prop
  | bump (s : State N T V R) (n : N) (t : T) (h : s.term n < t) :
      Step Quorum s (s.enter n t .follower)
  | retire (s : State N T V R) (n : N) : Step Quorum s (s.setRole n .follower)
  | stand (s : State N T V R) (n : N) (t : T) (d : V) (h : s.term n < t) :
      Step Quorum s ((s.enter n t .candidate).addVote ⟨n, t, n, d⟩)
  | vote (s : State N T V R) (v c : N) (d : V)
      (hfree : ∀ c', s.Voted v (s.term v) c' → c' = c) (hterm : s.term v ≤ s.term c) :
      Step Quorum s ((s.setRole v .follower).addVote ⟨v, s.term v, c, d⟩)
  | elect (s : State N T V R) (n : N) (voters : Set N) (d : R)
      (hrole : s.role n = .candidate) (hquorum : Quorum voters)
      (hvotes : ∀ v ∈ voters, s.Voted v (s.term n) n) :
      Step Quorum s ((s.setRole n .leader).addElection ⟨s.term n, n, voters, d⟩)

structure Inv [LinearOrder T] (Quorum : Set N → Prop) (s : State N T V R) : Prop where
  once : ∀ v t c c', s.Voted v t c → s.Voted v t c' → c = c'
  voter_le : ∀ v t c, s.Voted v t c → t ≤ s.term v
  cand_le : ∀ v t c, s.Voted v t c → t ≤ s.term c
  led_le : ∀ n t, s.Led n t → t ≤ s.term n
  /-- whoever has won its term does not stand in it any more -/
  led_role : ∀ n, s.Led n (s.term n) → s.role n ≠ .candidate
  leading : ∀ n, s.role n = .leader → s.Led n (s.term n)
  quorum : ∀ r ∈ s.elections, Quorum r.voters ∧ ∀ v ∈ r.voters, s.Voted v r.term r.leader
  distinct : (s.elections.map Election.term).Nodup

section Queries

variable {s : State N T V R}

@[simp] theorem voted_addVote (x : Vote N T V) (v : N) (t : T) (c : N) :
    (s.addVote x).Voted v t c ↔ (x.voter = v ∧ x.term = t ∧ x.cand = c) ∨ s.Voted v t c := by
  simp [State.Voted, State.addVote]

@[simp] theorem led_addElection (r : Election N T R) (m : N) (t : T) :
    (s.addElection r).Led m t ↔ s.Led m t ∨ (r.leader = m ∧ r.term = t) := by
  simp [State.Led, State.addElection, or_and_right, exists_or]

end Queries

variable [LinearOrder T] {Quorum : Set N → Prop} {s t : State N T V R}

/-! ## Where everything starts -/

omit [LinearOrder T] in
/-- Nobody has moved yet. -/
def State.start (t : T) : State N T V R := ⟨fun _ => t, fun _ => .follower, [], []⟩

variable {u : T} {n : N}

omit [LinearOrder T] in
theorem not_voted_start (t : T) {v : N} {c : N} :
    ¬ (State.start t : State N T V R).Voted v u c := by
  rintro ⟨x, hx, -⟩
  cases hx

omit [LinearOrder T] in
theorem not_led_start (t : T) : ¬ (State.start t : State N T V R).Led n u := by
  rintro ⟨r, hr, -⟩
  cases hr

theorem Inv.start (t : T) : Inv Quorum (State.start t : State N T V R) where
  once _ _ _ _ h := absurd h (not_voted_start t)
  voter_le _ _ _ h := absurd h (not_voted_start t)
  cand_le _ _ _ h := absurd h (not_voted_start t)
  led_le _ _ h := absurd h (not_led_start t)
  led_role _ h := absurd h (not_led_start t)
  leading _ h := by cases h
  quorum _ h := by cases h
  distinct := List.nodup_nil

/-! ## One leader in each term -/

theorem Inv.led_unique (h : Inv Quorum s) {m : N} (hn : s.Led n u) (hm : s.Led m u) : n = m := by
  obtain ⟨a, ha, rfl, rfl⟩ := hn
  obtain ⟨b, hb, rfl, hterm⟩ := hm
  rw [List.inj_on_of_nodup_map h.distinct ha hb hterm.symm]

theorem Inv.leader_unique (h : Inv Quorum s) {m : N} (hn : s.role n = .leader)
    (hm : s.Led m (s.term n)) : n = m := h.led_unique (h.leading n hn) hm

/-! ## Every step keeps the invariant -/

theorem Inv.addVote (h : Inv Quorum s) {x : Vote N T V}
    (hfree : ∀ c, s.Voted x.voter x.term c → c = x.cand) (hv : x.term ≤ s.term x.voter)
    (hc : x.term ≤ s.term x.cand) : Inv Quorum (s.addVote x) := by
  refine { h with
    once := fun v t c c' h1 h2 => ?_, voter_le := fun v t c hx => ?_
    cand_le := fun v t c hx => ?_, quorum := fun r hr => ?_ }
  · rw [voted_addVote] at h1 h2
    rcases h1 with ⟨rfl, rfl, rfl⟩ | h1
    · rcases h2 with ⟨-, -, rfl⟩ | h2
      · rfl
      · exact (hfree c' h2).symm
    · rcases h2 with ⟨rfl, rfl, rfl⟩ | h2
      · exact hfree c h1
      · exact h.once v t c c' h1 h2
  · rcases (voted_addVote _ _ _ _).mp hx with ⟨rfl, rfl, -⟩ | hx
    · exact hv
    · exact h.voter_le v t c hx
  · rcases (voted_addVote _ _ _ _).mp hx with ⟨-, rfl, rfl⟩ | hx
    · exact hc
    · exact h.cand_le v t c hx
  · obtain ⟨hq, hvotes⟩ := h.quorum r hr
    exact ⟨hq, fun v hv => (voted_addVote _ _ _ _).mpr (Or.inr (hvotes v hv))⟩

/-- A candidate with a quorum is the first to win its term. -/
theorem Inv.not_elected (hmeet : ∀ A B, Quorum A → Quorum B → ∃ v, v ∈ A ∧ v ∈ B) (h : Inv Quorum s)
    (hrole : s.role n = .candidate) {voters : Set N} (hquorum : Quorum voters)
    (hvotes : ∀ v ∈ voters, s.Voted v (s.term n) n) : ∀ r ∈ s.elections, r.term ≠ s.term n := by
  intro r hr hterm
  obtain ⟨hq, hrv⟩ := h.quorum r hr
  obtain ⟨v, hv, hv'⟩ := hmeet _ _ hquorum hq
  have hlead : n = r.leader := h.once v _ _ _ (hvotes v hv) (hterm ▸ hrv v hv')
  exact h.led_role n ⟨r, hr, hlead.symm, hterm⟩ hrole

variable [DecidableEq N]

theorem Inv.retire (h : Inv Quorum s) (n : N) : Inv Quorum (s.setRole n .follower) := by
  refine { h with led_role := fun m hm => ?_, leading := fun m hm => ?_ }
  · by_cases hmn : m = n
    · subst hmn
      simp [State.setRole]
    · simpa [State.setRole, hmn] using h.led_role m hm
  · by_cases hmn : m = n
    · subst hmn
      simp [State.setRole] at hm
    · exact h.leading m (by simpa [State.setRole, hmn] using hm)

theorem le_enter (hu : s.term n < u) (role : Role) (m : N) :
    s.term m ≤ (s.enter n u role).term m := by
  by_cases hmn : m = n
  · subst hmn
    simpa [State.enter] using hu.le
  · simp [State.enter, hmn]

/-- Entering a term that no one has won yet in any role but a leader's. -/
theorem Inv.enter (h : Inv Quorum s) (hu : s.term n < u) {role : Role} (hrole : role ≠ .leader) :
    Inv Quorum (s.enter n u role) := by
  refine { h with
    voter_le := fun v t c hv => (h.voter_le v t c hv).trans (le_enter hu role v)
    cand_le := fun v t c hv => (h.cand_le v t c hv).trans (le_enter hu role c)
    led_le := fun m t hm => (h.led_le m t hm).trans (le_enter hu role m)
    led_role := fun m hm => ?_, leading := fun m hm => ?_ }
  · by_cases hmn : m = n
    · subst hmn
      have hle := h.led_le m _ hm
      simp only [State.enter, update_self] at hle
      exact absurd hle (not_le.mpr hu)
    · simp only [State.enter, ne_eq, hmn, not_false_eq_true, update_of_ne] at hm ⊢
      exact h.led_role m hm
  · by_cases hmn : m = n
    · subst hmn
      simp only [State.enter, update_self] at hm
      exact absurd hm hrole
    · simp only [State.enter, ne_eq, hmn, not_false_eq_true, update_of_ne] at hm ⊢
      exact h.leading m hm

section Elect

variable (hmeet : ∀ A B, Quorum A → Quorum B → ∃ v, v ∈ A ∧ v ∈ B)
include hmeet

theorem Inv.elect (h : Inv Quorum s) {n : N} (hrole : s.role n = .candidate) {voters : Set N}
    (hquorum : Quorum voters) (hvotes : ∀ v ∈ voters, s.Voted v (s.term n) n) (d : R) :
    Inv Quorum ((s.setRole n .leader).addElection ⟨s.term n, n, voters, d⟩) := by
  have hnew := Inv.not_elected hmeet h hrole hquorum hvotes
  refine { h with
    led_le := fun m u hm => ?_, led_role := fun m hm => ?_, leading := fun m hm => ?_
    quorum := fun r hr => ?_, distinct := ?_ }
  · rcases (led_addElection _ _ _).mp hm with hm | ⟨rfl, rfl⟩
    · exact h.led_le m u hm
    · exact le_refl _
  · by_cases hmn : m = n
    · subst hmn
      simp [State.addElection, State.setRole]
    · have hold : s.Led m (s.term m) := by
        rcases (led_addElection _ _ _).mp hm with hm | ⟨heq, -⟩
        · exact hm
        · exact absurd heq.symm hmn
      simpa [State.addElection, State.setRole, hmn] using h.led_role m hold
  · by_cases hmn : m = n
    · subst hmn
      exact (led_addElection _ _ _).mpr (Or.inr ⟨rfl, rfl⟩)
    · have hm : s.role m = .leader := by simpa [State.addElection, State.setRole, hmn] using hm
      exact (led_addElection _ _ _).mpr (Or.inl (h.leading m hm))
  · rcases List.mem_append.mp hr with hr | hr
    · exact h.quorum r hr
    · obtain rfl := List.mem_singleton.mp hr
      exact ⟨hquorum, hvotes⟩
  · rw [State.addElection, List.map_append]
    refine List.nodup_append.mpr ⟨h.distinct, List.nodup_singleton _, fun a ha b hb => ?_⟩
    obtain ⟨r, hr, rfl⟩ := List.mem_map.mp ha
    obtain rfl := List.mem_singleton.mp hb
    exact hnew r hr

theorem Inv.step (h : Inv Quorum s) (hs : Step Quorum s t) : Inv Quorum t := by
  cases hs with
  | bump n u hu => exact h.enter hu (by decide)
  | retire n => exact h.retire n
  | stand n u d hu =>
    refine (h.enter hu (by decide)).addVote ?_ ?_ ?_
    · -- nobody votes in a term before reaching it
      intro c hc
      exact absurd (h.voter_le n u c hc) (not_le.mpr hu)
    · simp [State.enter]
    · simp [State.enter]
  | vote v c d hfree hterm =>
    exact (h.retire v).addVote hfree (le_refl _) hterm
  | elect n voters d hrole hquorum hvotes => exact h.elect hmeet hrole hquorum hvotes d

end Elect

theorem led_step (hs : Step Quorum s t) (h : s.Led n u) : t.Led n u := by
  cases hs with
  | elect n voters d hrole hquorum hvotes => exact (led_addElection _ _ _).mpr (Or.inl h)
  | _ => exact h

/-! ## Majorities -/

omit [LinearOrder T] [DecidableEq N] in
/-- More than half of the nodes of a list. -/
def Majority (all : List N) (S : Set N) : Prop :=
  ∃ l : List N, l.Nodup ∧ l ⊆ all ∧ (∀ v ∈ l, v ∈ S) ∧ all.length / 2 + 1 ≤ l.length

omit [DecidableEq N] in
theorem Majority.meet {all : List N} (A B : Set N) (ha : Majority all A) (hb : Majority all B) :
    ∃ v, v ∈ A ∧ v ∈ B := by
  obtain ⟨l, hl, hlall, hlA, hllen⟩ := ha
  obtain ⟨k, hk, hkall, hkB, hklen⟩ := hb
  by_contra hno
  have hdisj : List.Disjoint l k := fun v hv hv' => hno ⟨v, hlA v hv, hkB v hv'⟩
  have hsub : l ++ k ⊆ all := List.append_subset.mpr ⟨hlall, hkall⟩
  have hle := (List.subperm_of_subset (hl.append hk hdisj) hsub).length_le
  rw [List.length_append] at hle
  omega

/-! ## One node moves -/

/-- Some steps in which only `n` moves, and after which it leads whatever it
has won. -/
structure Follows (Quorum : Set N → Prop) (n : N) (s t : State N T V R) : Prop where
  steps : Relation.ReflTransGen (Step Quorum) s t
  term_eq : ∀ m, m ≠ n → t.term m = s.term m
  role_eq : ∀ m, m ≠ n → t.role m = s.role m
  voted_of : ∀ m, m ≠ n → ∀ u c, t.Voted m u c → s.Voted m u c
  won : ∀ m u, t.Led m u → s.Led m u ∨ (m = n ∧ t.role n = .leader ∧ t.term n = u)

theorem voted_step (hs : Step Quorum s t) {v : N} {c : N} (h : s.Voted v u c) : t.Voted v u c := by
  cases hs with
  | stand n u d hu => exact (voted_addVote _ _ _ _).mpr (Or.inr h)
  | vote v c d hfree hterm => exact (voted_addVote _ _ _ _).mpr (Or.inr h)
  | _ => exact h

theorem term_le_step (hs : Step Quorum s t) (m : N) : s.term m ≤ t.term m := by
  cases hs with
  | bump n u hu => exact le_enter hu .follower m
  | stand n u d hu => exact le_enter hu .candidate m
  | _ => exact le_refl _

namespace Follows

theorem refl (n : N) (s : State N T V R) : Follows Quorum n s s where
  steps := .refl
  term_eq _ _ := rfl
  role_eq _ _ := rfl
  voted_of _ _ _ _ h := h
  won _ _ h := Or.inl h

/-- What every step keeps. -/
theorem keeps (h : Follows Quorum n s t) {P : State N T V R → Prop}
    (hstep : ∀ s t, Step Quorum s t → P s → P t) (hs : P s) : P t := by
  obtain ⟨hsteps, -, -, -, -⟩ := h
  induction hsteps with
  | refl => exact hs
  | tail _ hlast ih => exact hstep _ _ hlast ih

theorem inv (h : Follows Quorum n s t)
    (hmeet : ∀ A B, Quorum A → Quorum B → ∃ v, v ∈ A ∧ v ∈ B) (hs : Inv Quorum s) :
    Inv Quorum t := h.keeps (fun _ _ hstep hs => Inv.step hmeet hs hstep) hs

theorem voted (h : Follows Quorum n s t) {v c : N} (hv : s.Voted v u c) : t.Voted v u c :=
  h.keeps (P := (·.Voted v u c)) (fun _ _ hstep hv => voted_step hstep hv) hv

theorem led (h : Follows Quorum n s t) {m : N} (hm : s.Led m u) : t.Led m u :=
  h.keeps (P := (·.Led m u)) (fun _ _ hstep hm => led_step hstep hm) hm

theorem term_le (h : Follows Quorum n s t) (m : N) : s.term m ≤ t.term m :=
  h.keeps (P := (s.term m ≤ ·.term m)) (fun _ _ hstep hle => hle.trans (term_le_step hstep m))
    (le_refl _)

/-- Steps that win nothing, and then others. -/
theorem trans {r : State N T V R} (h : Follows Quorum n s t)
    (hled : ∀ m u, t.Led m u → s.Led m u) (h' : Follows Quorum n t r) :
    Follows Quorum n s r where
  steps := h.steps.trans h'.steps
  term_eq m hm := (h'.term_eq m hm).trans (h.term_eq m hm)
  role_eq m hm := (h'.role_eq m hm).trans (h.role_eq m hm)
  voted_of m hm u c hv := h.voted_of m hm u c (h'.voted_of m hm u c hv)
  won m u hm := (h'.won m u hm).imp_left (hled m u)

theorem bump (h : s.term n < u) : Follows Quorum n s (s.enter n u .follower) where
  steps := .single (.bump s n u h)
  term_eq _ hm := update_of_ne hm _ _
  role_eq _ hm := update_of_ne hm _ _
  voted_of _ _ _ _ hv := hv
  won _ _ hm := Or.inl hm

theorem retire (n : N) (s : State N T V R) : Follows Quorum n s (s.setRole n .follower) where
  steps := .single (.retire s n)
  term_eq _ _ := rfl
  role_eq _ hm := update_of_ne hm _ _
  voted_of _ _ _ _ hv := hv
  won _ _ hm := Or.inl hm

theorem stand (d : V) (h : s.term n < u) :
    Follows Quorum n s ((s.enter n u .candidate).addVote ⟨n, u, n, d⟩) where
  steps := .single (.stand s n u d h)
  term_eq _ hm := update_of_ne hm _ _
  role_eq _ hm := update_of_ne hm _ _
  voted_of m hm u c hv := by
    rcases (voted_addVote _ _ _ _).mp hv with ⟨heq, -⟩ | hv
    · exact absurd heq.symm hm
    · exact hv
  won _ _ hm := Or.inl hm

theorem vote {c : N} (d : V) (hfree : ∀ c', s.Voted n (s.term n) c' → c' = c)
    (hterm : s.term n ≤ s.term c) :
    Follows Quorum n s ((s.setRole n .follower).addVote ⟨n, s.term n, c, d⟩) where
  steps := .single (.vote s n c d hfree hterm)
  term_eq _ _ := rfl
  role_eq _ hm := update_of_ne hm _ _
  voted_of m hm u c hv := by
    rcases (voted_addVote _ _ _ _).mp hv with ⟨heq, -⟩ | hv
    · exact absurd heq.symm hm
    · exact hv
  won _ _ hm := Or.inl hm

theorem elect {voters : Set N} (d : R) (hrole : s.role n = .candidate) (hquorum : Quorum voters)
    (hvotes : ∀ v ∈ voters, s.Voted v (s.term n) n) :
    Follows Quorum n s ((s.setRole n .leader).addElection ⟨s.term n, n, voters, d⟩) where
  steps := .single (.elect s n voters d hrole hquorum hvotes)
  term_eq _ _ := rfl
  role_eq _ hm := update_of_ne hm _ _
  voted_of _ _ _ _ hv := hv
  won m u hm := by
    rcases (led_addElection _ _ _).mp hm with hm | ⟨rfl, rfl⟩
    · exact Or.inl hm
    · exact Or.inr ⟨rfl, update_self _ _ _, rfl⟩

end Follows

end TinyKV.Ballot
