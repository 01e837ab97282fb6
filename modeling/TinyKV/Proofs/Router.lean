import TinyKV.Model.RaftServer

/-!
# What the router answers

The server reads the router's answer to AppendEntries back from its text: it
takes any zero behind a blank for a refusal. Besides the refusals that is
the term zero, and nothing else, since no other number is printed with a
leading zero. `checkTerm` then accepts a request exactly if its term is not
zero and not behind the router's.
-/

namespace TinyKV

open Text

namespace Router

/-- Text without a blank in it hides nothing. -/
theorem hasZeroField_append_right {pre : Str} (hpre : ∀ c ∈ pre, c ≠ 32) (s : Str) :
    hasZeroField (pre ++ s) = hasZeroField s := by
  induction pre with
  | nil => rfl
  | cons a pre ih =>
    have ha : a ≠ 32 := hpre a (by simp)
    have ih := ih fun c hc => hpre c (List.mem_cons_of_mem _ hc)
    cases hp : pre ++ s with
    | nil =>
      have hs : s = [] := (List.append_eq_nil_iff.mp hp).2
      rw [List.cons_append, hp, hs]
      rfl
    | cons b rest =>
      rw [List.cons_append, hp, hasZeroField, ← hp, ih]
      simp [ha]

theorem showInt_no_blank (n : Int) : ∀ c ∈ showInt n, c ≠ 32 := by
  intro c hc heq
  exact showInt_notMem (n := n) (c := 32) (by decide) (by decide) (heq ▸ hc)

theorem refused_iff (reply : HeartbeatReply) :
    reply.refused = true ↔ reply.accepted = false ∨ reply.term = 0 := by
  obtain ⟨term, accepted⟩ := reply
  have htag : ∀ c ∈ bytes ['R', 'A', 'F', 'T', '_', 'A', 'P', 'P', 'E', 'N', 'D'], c ≠ 32 := by
    simp [bytes]
  obtain ⟨d, ds, hds⟩ := List.exists_cons_of_ne_nil (showInt_ne_nil term)
  have hzero : term = 0 ↔ d = 48 := by
    constructor
    · rintro rfl
      injection hds with h _
      exact h.symm
    · rintro rfl
      exact showInt_head (by rw [hds]; rfl)
  have hrest : hasZeroField (showInt term ++ 32 :: [if accepted then 49 else 48, 10]) =
      !accepted := by
    rw [hasZeroField_append_right (showInt_no_blank term)]
    cases accepted <;> rfl
  unfold HeartbeatReply.refused HeartbeatReply.text
  simp only []
  rw [hasZeroField_append_right htag]
  rw [hds, List.cons_append] at hrest ⊢
  rw [hasZeroField, hrest, hzero]
  cases accepted <;> simp

theorem acceptTerm_term {r : Router} {term : Int} (h : r.currentTerm ≤ term)
    (leaderId : Str) : (r.acceptTerm term leaderId).currentTerm = term := by
  unfold acceptTerm
  split
  · rfl
  · show r.currentTerm = term
    omega

end Router

namespace KVServer

variable {s : KVServer}

/-- A request of an older term is refused and leaves no trace. -/
theorem checkTerm_stale {term : Int} (h : term < s.router.currentTerm) (leaderId : Str) :
    s.checkTerm term leaderId = (s, false) := by
  have hreply : s.router.handleAppendEntries term leaderId =
      (s.router, ⟨s.router.currentTerm, false⟩) := by
    rw [Router.handleAppendEntries, if_pos h]
  have href := (Router.refused_iff ⟨s.router.currentTerm, false⟩).mpr (Or.inl rfl)
  rw [checkTerm, hreply]
  simp only [href]
  rfl

theorem checkTerm_fresh {term : Int} (h : s.router.currentTerm ≤ term) (leaderId : Str) :
    s.checkTerm term leaderId =
      ({ s with router := s.router.acceptTerm term leaderId }, decide (term ≠ 0)) := by
  have hreply : s.router.handleAppendEntries term leaderId =
      (s.router.acceptTerm term leaderId, ⟨term, true⟩) := by
    rw [Router.handleAppendEntries, if_neg (by omega)]
    simp only [Router.acceptTerm_term h]
  have href : Router.HeartbeatReply.refused ⟨term, true⟩ = decide (term = 0) := by
    rw [Bool.eq_iff_iff, Router.refused_iff]
    simp
  rw [checkTerm, hreply]
  simp [href]

end KVServer

end TinyKV
