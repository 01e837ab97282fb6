import TinyKV.Lib.RaftSteps

/-!
# One node moves

A system that follows the machine does so one node at a time, and a single
step of it may take several steps of the machine. `Moves` is what is left of
them: nothing that has happened is undone, the other nodes are as they were,
and of the node itself only what its own messages rely on while they are on
their way. A candidate that is still the candidate it was has the log it had,
and whoever follows a leader follows it as long as the term lasts.

`P` is what is known of each entry and the position it was written at.
-/

namespace TinyKV.Raft

open Function Ballot

variable {N T E : Type} [DecidableEq N] [LinearOrder T] [Termed E T] {Quorum : Set N → Prop}
  {strict : Prop} {P : Nat → E → Prop} {n v : N} {s t r : State N T E} {u : T} {i c : Nat}

/-- The invariant, and what is known of the entries. -/
structure Kept (Quorum : Set N → Prop) (strict : Prop) (P : Nat → E → Prop) (s : State N T E) :
    Prop where
  inv : Inv Quorum strict s
  entry : ∀ u i e, (s.tlog u)[i]? = some e → P i e

omit [DecidableEq N] in
theorem Kept.valid (h : Kept Quorum strict P s) {xs : List E} (hv : s.Valid xs) {e : E}
    (he : xs[i]? = some e) : P i e := by
  refine h.entry (termOf e) i e ?_
  rw [← hv.get he (Nat.le_refl i)]
  exact he

/-! ## The beginning -/

/-- All nodes are in one term, with nothing in their logs. -/
def State.start (u : T) : State N T E where
  toState := .start u
  tlog _ := []
  acks := ∅
  log _ := []
  snap _ := []
  commit _ := 0
  msgs := ∅

section Start

omit [DecidableEq N]

omit [LinearOrder T] in
theorem valid_nil (s : State N T E) : s.Valid [] := by
  intro j e he
  cases he

theorem History.begin (u : T) : History (State.start u : State N T E) where
  unelected _ _ := rfl
  start r hr := by cases hr
  start_lt r hr := by cases hr
  written r hr := by cases hr
  start_valid r hr := by cases hr
  start_old i r hr := by cases hr
  vote_valid x hx := by cases hx
  won i r hr := by cases hr
  ack_entry v t i ha := by cases ha
  vote_kept x hx := by cases hx

theorem holds_start (u : T) (n : N) : (State.start u : State N T E).Holds n where
  log_valid := valid_nil _
  snap_valid := valid_nil _
  snap_le := Nat.le_refl _
  snap_commit := Nat.le_refl _
  tail_terms i e _ he := by cases he
  kept t i ha := by cases ha
  kept_snap t i ha := by cases ha
  fine_log y hy := absurd hy (Ballot.not_led_start u)
  fine_snap y hy := absurd hy (Ballot.not_led_start u)
  leader_log hr := by cases hr
  leader_snap hr := by cases hr

theorem info_start (u : T) : (State.start u : State N T E).Info where
  vote_seen x hx := by cases hx
  vote_log x hx := by cases hx
  ack_le v t i ha := by cases ha
  own_ack n t i e hled := absurd hled (Ballot.not_led_start u)

theorem claims_start (u : T) (n : N) : (State.start u : State N T E).Claims Quorum strict n where
  snap_ok := Or.inl rfl
  commit_ok k h1 h2 := absurd (Nat.lt_of_lt_of_le h1 h2) (Nat.lt_irrefl _)
  leader_commit hr := by cases hr

theorem Kept.start (u : T) : Kept Quorum strict P (State.start u : State N T E) where
  inv := ⟨.start u, .begin u, info_start u, holds_start u, claims_start u,
    fun m hm => by cases hm⟩
  entry t i e he := by cases he

end Start

/-! ## Moves -/

structure Moves (Quorum : Set N → Prop) (strict : Prop) (P : Nat → E → Prop) (n : N)
    (s t : State N T E) : Prop where
  kept : Kept Quorum strict P t
  grows : Grows s t
  ballot : Ballot.Follows Quorum n s.toState t.toState
  others : ∀ m ≠ n, t.log m = s.log m ∧ t.snap m = s.snap m ∧ t.commit m = s.commit m
  commit : s.commit n ≤ t.commit n
  candidate : t.role n = .candidate →
    s.role n = .candidate ∧ t.term n = s.term n ∧ t.log n = s.log n ∨ s.term n < t.term n
  follower : s.role n = .follower → t.term n = s.term n → t.role n = .follower

namespace Moves

omit [DecidableEq N] [Termed E T] in
theorem grows_refl (s : State N T E) : Grows s s where
  elections := List.prefix_refl _
  tlog _ := List.prefix_refl _
  acks := Set.Subset.rfl
  votes _ hx := hx
  msgs := Set.Subset.rfl
  term _ := le_refl _

omit [DecidableEq N] [Termed E T] in
theorem grows_trans (h : Grows s t) (h' : Grows t r) : Grows s r where
  elections := h.elections.trans h'.elections
  tlog x := (h.tlog x).trans (h'.tlog x)
  acks := h.acks.trans h'.acks
  votes x hx := h'.votes x (h.votes x hx)
  msgs := h.msgs.trans h'.msgs
  term m := (h.term m).trans (h'.term m)

theorem refl (n : N) (h : Kept Quorum strict P s) : Moves Quorum strict P n s s where
  kept := h
  grows := grows_refl s
  ballot := .refl n s.toState
  others _ _ := ⟨rfl, rfl, rfl⟩
  commit := Nat.le_refl _
  candidate hr := Or.inl ⟨hr, rfl, rfl⟩
  follower hr _ := hr

/-- Steps that win no election, and then others. -/
theorem trans (h : Moves Quorum strict P n s t) (hled : ∀ m u, t.Led m u → s.Led m u)
    (h' : Moves Quorum strict P n t r) : Moves Quorum strict P n s r where
  kept := h'.kept
  grows := grows_trans h.grows h'.grows
  ballot := h.ballot.trans hled h'.ballot
  others m hm := by
    obtain ⟨hl, hs, hc⟩ := h.others m hm
    obtain ⟨hl', hs', hc'⟩ := h'.others m hm
    exact ⟨hl'.trans hl, hs'.trans hs, hc'.trans hc⟩
  commit := h.commit.trans h'.commit
  candidate hr := by
    rcases h'.candidate hr with ⟨hr', ht', hl'⟩ | hlt
    · rcases h.candidate hr' with ⟨hr, ht, hl⟩ | hlt
      · exact Or.inl ⟨hr, ht'.trans ht, hl'.trans hl⟩
      · exact Or.inr (ht'.symm ▸ hlt)
    · exact Or.inr ((h.grows.term n).trans_lt hlt)
  follower hr ht := by
    have hle := h.grows.term n
    have hle' := h'.grows.term n
    have ht₁ : t.term n = s.term n := le_antisymm (ht ▸ hle') hle
    exact h'.follower (h.follower hr ht₁) (ht.trans ht₁.symm)

section Messages

variable (h : Moves Quorum strict P n s t)
include h

/-- Any candidate, not only the node that moves. -/
theorem stands {m : N} (hr : t.role m = .candidate) :
    s.role m = .candidate ∧ t.term m = s.term m ∧ t.log m = s.log m ∨ s.term m < t.term m := by
  by_cases hm : m = n
  · subst hm
    exact h.candidate hr
  · rw [h.ballot.role_eq m hm] at hr
    exact Or.inl ⟨hr, h.ballot.term_eq m hm, (h.others m hm).1⟩

theorem follows {m : N} (hr : s.role m = .follower) (ht : t.term m = s.term m) :
    t.role m = .follower := by
  by_cases hm : m = n
  · subst hm
    exact h.follower hr ht
  · rw [h.ballot.role_eq m hm]
    exact hr

/-- A prefix of the log of a term stays one. -/
theorem take_tlog {k : Nat} (hk : k ≤ (s.tlog u).length) :
    (t.tlog u).take k = (s.tlog u).take k :=
  (h.grows.take_eq hk rfl).symm

end Messages

/-! ## Terms, votes and elections -/

section Steps

variable (hmeet : ∀ A B, Quorum A → Quorum B → ∃ v, v ∈ A ∧ v ∈ B) (h : Kept Quorum strict P s)
include hmeet h

/-- A step that only the part of the elections takes. -/
theorem of_ballot {b : Ballot.State N T (List E × Nat) (List E)}
    (hs : Step Quorum strict s { s with toState := b }) (hc : BallotChange s b)
    (hf : Ballot.Follows Quorum n s.toState b)
    (hfollower : s.role n = .follower → b.term n = s.term n → b.role n = .follower) :
    Moves Quorum strict P n s { s with toState := b } where
  kept := ⟨h.inv.step hmeet hs, h.entry⟩
  grows := hc.grows
  ballot := hf
  others _ _ := ⟨rfl, rfl, rfl⟩
  commit := Nat.le_refl _
  candidate hr := (hc.candidate n hr).imp_left fun ⟨hr, ht⟩ => ⟨hr, ht, rfl⟩
  follower := hfollower

theorem bump (ht : s.term n < u) :
    Moves Quorum strict P n s { s with toState := s.toState.enter n u .follower } :=
  of_ballot hmeet h (.bump s n u ht) (ballotChange_bump s ht) (.bump ht)
    fun _ _ => update_self _ _ _

theorem retire (n : N) :
    Moves Quorum strict P n s { s with toState := s.toState.setRole n .follower } :=
  of_ballot hmeet h (.retire s n) (ballotChange_retire s n) (.retire n s.toState)
    fun _ _ => update_self _ _ _

theorem stand (ht : s.term n < u) :
    Moves Quorum strict P n s
      { s with
        toState := (s.toState.enter n u .candidate).addVote
          ⟨n, u, n, s.log n, s.elections.length⟩ } := by
  refine of_ballot hmeet h (.stand s n u ht) (ballotChange_stand s ht) (.stand _ ht) ?_
  intro _ heq
  have hterm : ((s.toState.enter n u .candidate).addVote
      ⟨n, u, n, s.log n, s.elections.length⟩).term n = u := update_self _ _ _
  exact absurd (hterm.symm.trans heq) ht.ne'

theorem vote {cand : N} (hfree : ∀ c', s.Voted n (s.term n) c' → c' = cand)
    (hterm : s.term n ≤ s.term cand)
    (hlog : s.role cand = .candidate → s.term cand = s.term n →
      AtLeast (s.log n) (s.log cand)) :
    Moves Quorum strict P n s
      { s with
        toState := (s.toState.setRole n .follower).addVote
          ⟨n, s.term n, cand, s.log n, s.elections.length⟩ } :=
  of_ballot hmeet h (.vote s n cand hfree hterm hlog) (ballotChange_vote s n cand hlog)
    (.vote _ hfree hterm) fun _ _ => update_self _ _ _

theorem elect {voters : Set N} (hrole : s.role n = .candidate) (hquorum : Quorum voters)
    (hvotes : ∀ v ∈ voters, s.Voted v (s.term n) n) :
    Moves Quorum strict P n s (s.elected n voters) where
  kept := by
    refine ⟨h.inv.elected hmeet hrole hquorum hvotes, fun u i e he => ?_⟩
    by_cases hu : u = s.term n
    · subst hu
      rw [elected_tlog_self] at he
      exact h.valid (h.inv.holds n).log_valid he
    · rw [elected_tlog_ne hu] at he
      exact h.entry u i e he
  grows := h.inv.grows_elected hmeet hrole hquorum hvotes
  ballot := .elect _ hrole hquorum hvotes
  others _ _ := ⟨rfl, rfl, rfl⟩
  commit := Nat.le_refl _
  candidate hr := by
    have hleader : (s.elected n voters).role n = .leader := update_self _ _ _
    rw [hleader] at hr
    cases hr
  follower hr := by
    rw [hrole] at hr
    cases hr

theorem write {e : E} (hrole : s.role n = .leader) (he : termOf e = s.term n)
    (hc : c ≤ s.commit n) (hP : P (s.log n).length e) :
    Moves Quorum strict P n s (s.written n e c) where
  kept := by
    refine ⟨h.inv.written hmeet hrole he hc, fun u i x hx => ?_⟩
    by_cases hu : u = s.term n
    · subst hu
      rw [written_tlog_self] at hx
      rcases getElem?_concat hx with hx | ⟨rfl, rfl⟩
      · exact h.valid (h.inv.holds n).log_valid hx
      · exact hP
    · rw [written_tlog_ne hu] at hx
      exact h.entry u i x hx
  grows := h.inv.grows_written hrole
  ballot := .refl n s.toState
  others _ hm := ⟨written_log_ne hm, rfl, rfl⟩
  commit := Nat.le_refl _
  candidate hr := by
    have hr : s.role n = .candidate := hr
    rw [hrole] at hr
    cases hr
  follower hr _ := hr

/-! ## Logs -/

/-- A step that only concerns the log, the snapshot and the commit index of
the node. -/
theorem of_local (hs : Step Quorum strict s t) (hb : t.toState = s.toState)
    (htlog : t.tlog = s.tlog) (hacks : s.acks ⊆ t.acks) (hmsgs : s.msgs ⊆ t.msgs)
    (hothers : ∀ m ≠ n, t.log m = s.log m ∧ t.snap m = s.snap m ∧ t.commit m = s.commit m)
    (hcommit : s.commit n ≤ t.commit n) (hlog : s.role n = .candidate → t.log n = s.log n) :
    Moves Quorum strict P n s t where
  kept := by
    refine ⟨h.inv.step hmeet hs, ?_⟩
    rw [htlog]
    exact h.entry
  grows :=
    { elections := by rw [hb]
      tlog := fun x => by rw [htlog]
      acks := hacks
      votes := fun x hx => by rwa [hb]
      msgs := hmsgs
      term := fun m => by rw [hb] }
  ballot := by
    rw [hb]
    exact .refl n s.toState
  others := hothers
  commit := hcommit
  candidate hr := by
    rw [hb] at hr ⊢
    exact Or.inl ⟨hr, rfl, hlog hr⟩
  follower hr _ := by rwa [hb]

theorem commitOwn {q : Set N} (hled : s.Led n u) (hq : s.Committed Quorum u i q)
    (hc : c ≤ max (s.commit n) (i + 1)) (hstrict : strict → s.role n = .leader ∧ s.term n = u) :
    Moves Quorum strict P n s ((s.settle n (s.log n) (i + 1)).send (.tail u (s.log n) c)) := by
  refine of_local hmeet h (.commitOwn s n u i c q hled hq hc hstrict) rfl rfl Set.Subset.rfl
    (Set.subset_insert _ _) (fun m hm => ?_) ?_ fun _ => update_self _ _ _
  · exact ⟨update_of_ne hm _ _, rfl, update_of_ne hm _ _⟩
  · show s.commit n ≤ update s.commit n _ n
    rw [update_self]
    exact le_max_left _ _

theorem sendSnapshot (hled : s.Led n u) :
    Moves Quorum strict P n s (s.send (.snapshot u (s.snap n))) :=
  of_local hmeet h (.sendSnapshot s n u hled) rfl rfl Set.Subset.rfl (Set.subset_insert _ _)
    (fun _ _ => ⟨rfl, rfl, rfl⟩) (Nat.le_refl _) fun _ => rfl

theorem compact {k : Nat} (hbase : (s.snap n).length < k) (hcommit : k ≤ s.commit n)
    (hlog : k ≤ (s.log n).length) : Moves Quorum strict P n s (s.compacted n k) :=
  of_local hmeet h (.compact s n k hbase hcommit hlog) rfl rfl Set.Subset.rfl Set.Subset.rfl
    (fun _ hm => ⟨rfl, update_of_ne hm _ _, rfl⟩) (Nat.le_refl _) fun _ => rfl

theorem recvBatch {upTo : Nat} {log : List E} (hm : .batch u upTo c ∈ s.msgs)
    (hv : s.Follows n u)
    (hlog : (s.log n).take upTo = (s.tlog u).take upTo ∧ log = s.log n ∨
      (s.log n).take upTo ≠ (s.tlog u).take upTo ∧ log = (s.tlog u).take upTo)
    (hbase : (s.snap n).length < upTo)
    (hfront : s.snap n <+: log ∨
      log.take (s.snap n).length = (s.log n).take (s.snap n).length) :
    Moves Quorum strict P n s ((s.settle n log c).ack n u (upTo - 1)) := by
  refine of_local hmeet h (.recvBatch s n u upTo c log hm hv hlog hbase hfront) rfl rfl
    (Set.subset_insert _ _) Set.Subset.rfl (fun m hm => ?_) ?_ fun hr => ?_
  · exact ⟨update_of_ne hm _ _, rfl, update_of_ne hm _ _⟩
  · show s.commit n ≤ update s.commit n _ n
    rw [update_self]
    exact le_max_left _ _
  · rw [hv.role] at hr
    cases hr

theorem recvTail {content : List E} (hm : .tail u content c ∈ s.msgs) (hv : s.Follows n u)
    (hmatch : content <+: s.log n ∨ content = s.snap n) :
    Moves Quorum strict P n s (s.settle n (s.log n) (min c (s.log n).length)) := by
  refine of_local hmeet h (.recvTail s n u content c hm hv hmatch) rfl rfl Set.Subset.rfl
    Set.Subset.rfl (fun m hm => ?_) ?_ fun _ => update_self _ _ _
  · exact ⟨update_of_ne hm _ _, rfl, update_of_ne hm _ _⟩
  · show s.commit n ≤ update s.commit n _ n
    rw [update_self]
    exact le_max_left _ _

theorem cut {content log : List E} {j : Nat} (hm : s.Offers u content) (hv : s.Follows n u)
    (hj : j < content.length) (hne : content[j]? ≠ (s.log n)[j]?)
    (hlog : j = (s.snap n).length ∧ log = s.snap n ∨
      (s.snap n).length < j ∧ log = (s.log n).take j) :
    Moves Quorum strict P n s (s.setLog n log) := by
  refine of_local hmeet h (.cut s n u content log j hm hv hj hne hlog) rfl rfl Set.Subset.rfl
    Set.Subset.rfl (fun m hm => ⟨update_of_ne hm _ _, rfl, rfl⟩) (Nat.le_refl _) fun hr => ?_
  rw [hv.role] at hr
  cases hr

theorem install {content log : List E} (hm : .snapshot u content ∈ s.msgs) (hv : s.Follows n u)
    (hbase : (s.snap n).length < content.length)
    (hlog : (s.log n).length ≤ content.length ∧ log = content ∨
      content.length < (s.log n).length ∧ log = s.log n) :
    Moves Quorum strict P n s (s.installed n content log) := by
  refine of_local hmeet h (.install s n u content log hm hv hbase hlog) rfl rfl Set.Subset.rfl
    Set.Subset.rfl (fun m hm => ?_) ?_ fun hr => ?_
  · exact ⟨update_of_ne hm _ _, update_of_ne hm _ _, update_of_ne hm _ _⟩
  · show s.commit n ≤ update s.commit n _ n
    rw [update_self]
    exact le_max_left _ _
  · rw [hv.role] at hr
    cases hr

end Steps

end Moves

/-! ## What follows for the system -/

/-- The entry at position `i` of what is committed. -/
def State.ChosenAt (s : State N T E) (Quorum : Set N → Prop) (i : Nat) (x : E) : Prop :=
  ∃ p, s.Chosen Quorum p ∧ p[i]? = some x

omit [DecidableEq N] [Termed E T] in
theorem Grows.chosenAt (h : Grows s t) {x : E} (hx : s.ChosenAt Quorum i x) :
    t.ChosenAt Quorum i x := by
  obtain ⟨p, hp, hi⟩ := hx
  exact ⟨p, h.chosen hp, hi⟩

section Safety

variable (hmeet : ∀ A B, Quorum A → Quorum B → ∃ v, v ∈ A ∧ v ∈ B) (h : Inv Quorum strict s)
include hmeet h

omit [DecidableEq N]

/-- A leader of a later term has everything that was ever committed. -/
theorem Inv.leader_has {q : Set N} (hc : s.Committed Quorum u i q) (hrole : s.role n = .leader)
    (hu : u < s.term n) : (s.log n)[i]? = (s.tlog u)[i]? := by
  rw [(h.holds n).leader_log hrole]
  obtain ⟨x, hx, -, hterm⟩ := h.ballot.leading n hrole
  exact h.history.tlog_agree hmeet h.ballot hc hu.le ⟨x, hx, hterm⟩ (Nat.le_refl i)

/-- No position has two entries. -/
theorem Inv.chosenAt_unique {x y : E} (hx : s.ChosenAt Quorum i x) (hy : s.ChosenAt Quorum i y) :
    x = y := by
  obtain ⟨b, hb, hbi⟩ := hx
  obtain ⟨c, hc, hci⟩ := hy
  rcases Nat.le_total b.length c.length with hle | hle
  · have hp := h.history.chosen_le hmeet h.ballot hb hc hle
    exact Option.some.inj ((getElem?_mono hp hbi).symm.trans hci)
  · have hp := h.history.chosen_le hmeet h.ballot hc hb hle
    exact Option.some.inj (hbi.symm.trans (getElem?_mono hp hci))

omit hmeet in
/-- Up to its commit index, what a node has behind its snapshot is committed. -/
theorem Inv.chosenAt (hstrict : strict) {x : E} (hsnap : (s.snap n).length ≤ i)
    (hcommit : i < s.commit n) (hx : (s.log n)[i]? = some x) : s.ChosenAt Quorum i x := by
  obtain ⟨p, hlen, ⟨hp, hsub⟩ | ⟨hno, -⟩⟩ := (h.claims n).commit_ok (i + 1) (by omega) hcommit
  · refine ⟨p, hp.learned.chosen, ?_⟩
    have hi := List.getElem?_eq_getElem (l := p) (i := i) (by omega)
    rw [hi, ← getElem?_mono hsub hi, hx]
  · exact absurd hstrict hno

end Safety

end TinyKV.Raft
