import TinyKV.Lib.RaftInv

/-!
# Elections and writes keep the invariant

The steps fall into groups. Terms, roles and votes can change without any log
changing (`BallotChange.inv`). An election makes a log the log of a term, and
a write extends it. All other steps concern the log of one node.
-/

namespace TinyKV.Raft

open Function Ballot

variable {N T E : Type} [LinearOrder T] [Termed E T] {Quorum : Set N → Prop} {strict : Prop}
  {s : State N T E}

theorem AtLeast.refl (a : List E) : AtLeast a a :=
  fun x hx => ⟨x, hx, Or.inr ⟨rfl, le_refl _⟩⟩

/-! ## Terms, roles and votes -/

/-- A change that concerns the election only. A new vote records the log of
this moment, and a node stands only in a term it has just entered. -/
structure BallotChange (s : State N T E) (b : Ballot.State N T (List E × Nat) (List E)) :
    Prop where
  elections : b.elections = s.elections
  term : ∀ n, s.term n ≤ b.term n
  votes : ∀ x ∈ s.votes, x ∈ b.votes
  new_vote : ∀ x ∈ b.votes, x ∈ s.votes ∨
    x.data = (s.log x.voter, s.elections.length) ∧ b.term x.voter = x.term ∧
      (b.role x.cand = .candidate → b.term x.cand = x.term →
        AtLeast (s.log x.voter) (s.log x.cand))
  candidate : ∀ n, b.role n = .candidate →
    s.role n = .candidate ∧ b.term n = s.term n ∨ s.term n < b.term n
  leader : ∀ n, b.role n = .leader → s.role n = .leader ∧ b.term n = s.term n

section Ballots

variable {b : Ballot.State N T (List E × Nat) (List E)} (h : Inv Quorum strict s)
  (hc : BallotChange s b)
include h hc

omit h in
theorem BallotChange.grows : Grows s { s with toState := b } where
  elections := by rw [hc.elections]
  tlog x := List.prefix_refl _
  acks := Set.Subset.rfl
  votes := hc.votes
  msgs := Set.Subset.rfl
  term := hc.term

theorem BallotChange.history : History { s with toState := b } := by
  have hist := h.history
  have he : ({ s with toState := b } : State N T E).elections = s.elections := hc.elections
  refine
    { unelected := fun t ht => hist.unelected t (he ▸ ht)
      start := fun r hr => hist.start r (he ▸ hr)
      start_lt := fun r hr => hist.start_lt r (he ▸ hr)
      written := fun r hr => hist.written r (he ▸ hr)
      start_valid := fun r hr => hist.start_valid r (he ▸ hr)
      start_old := fun i r hr => by rw [he] at hr ⊢; exact hist.start_old i r hr
      vote_valid := fun x hx => ?_
      won := fun i r hr v hv => ?_
      ack_entry := hist.ack_entry
      vote_kept := fun x hx t i ha ht => ?_ }
  · rcases hc.new_vote x hx with hx | ⟨hd, -⟩
    · exact hist.vote_valid x hx
    · rw [hd]
      exact (h.holds x.voter).log_valid
  · rw [he] at hr
    obtain ⟨x, hx, hrest⟩ := hist.won i r hr v hv
    exact ⟨x, hc.votes x hx, hrest⟩
  · rw [he]
    rcases hc.new_vote x hx with hx | ⟨hd, -⟩
    · exact hist.vote_kept x hx t i ha ht
    · rw [hd]
      simp only [List.take_length]
      exact (h.holds x.voter).kept t i ha

theorem BallotChange.info : ({ s with toState := b } : State N T E).Info := by
  refine
    { vote_seen := fun x hx => ?_
      vote_log := fun x hx hr ht => ?_
      ack_le := fun v t i ha => (h.info.ack_le v t i ha).trans (hc.term v)
      own_ack := fun n t i e hl => h.info.own_ack n t i e ?_ }
  · show x.data.2 ≤ b.elections.length
    rw [hc.elections]
    rcases hc.new_vote x hx with hx | ⟨hd, -⟩
    · exact h.info.vote_seen x hx
    · rw [hd]
  · rcases hc.new_vote x hx with hx | ⟨hd, -, hlog⟩
    · rcases hc.candidate x.cand hr with ⟨hr', heq⟩ | hlt
      · exact h.info.vote_log x hx hr' (heq.symm.trans ht)
      · -- nobody votes for a candidate before it stands
        have hle := h.ballot.cand_le x.voter x.term x.cand ⟨x, hx, rfl, rfl, rfl⟩
        exact absurd (ht ▸ hlt) (not_lt.mpr hle)
    · rw [hd]
      exact hlog hr ht
  · obtain ⟨r, hr, hrest⟩ := hl
    exact ⟨r, hc.elections ▸ hr, hrest⟩

theorem BallotChange.same (n : N) : Same Quorum s { s with toState := b } n where
  grows := hc.grows
  log := rfl
  snap := rfl
  commit := rfl
  led y hy := by
    obtain ⟨r, hr, hrest⟩ := hy
    exact ⟨r, hc.elections ▸ hr, hrest⟩
  acks u i ha := ha
  leader hr := by
    obtain ⟨hr, ht⟩ := hc.leader n hr
    exact ⟨hr, congrArg s.tlog ht⟩
  timing u i q hq ht := by
    intro hr hlt v hv ⟨x, hx, hxv, hxt, hxc⟩
    have hxt : x.term = b.term n := hxt
    rcases hc.new_vote x hx with hx | ⟨-, hterm, -⟩
    · rcases hc.candidate n hr with ⟨hr', heq⟩ | hlt'
      · have hlt : b.term n < u := hlt
        exact ht hr' (heq ▸ hlt) v hv ⟨x, hx, hxv, hxt.trans heq, hxc⟩
      · have hle := h.ballot.cand_le x.voter x.term x.cand ⟨x, hx, rfl, rfl, rfl⟩
        rw [hxt, hxc] at hle
        exact absurd hlt' (not_lt.mpr hle)
    · -- whoever has acknowledged in term `u` does not vote in an earlier one
      have hle := (h.info.ack_le v u i (hq.acked v hv)).trans (hc.term v)
      have hlt : b.term n < u := hlt
      rw [← hxv, hterm, hxt] at hle
      exact absurd hlt (not_lt.mpr hle)

variable (hmeet : ∀ A B, Quorum A → Quorum B → ∃ v, v ∈ A ∧ v ∈ B)
include hmeet

theorem BallotChange.inv (hb : Ballot.Inv Quorum b) :
    Inv Quorum strict { s with toState := b } where
  ballot := hb
  history := hc.history h
  info := hc.info h
  holds n := (hc.same h n).holds h.history (h.holds n)
  claims n := (hc.same h n).claims (h.claims n)
  msgs m hm := (hc.grows).msgOk h.history hmeet (h.msgs m hm)

end Ballots

section Steps

variable [DecidableEq N]

theorem ballotChange_bump (s : State N T E) {n : N} {t : T} (ht : s.term n < t) :
    BallotChange s (s.toState.enter n t .follower) := by
  refine ⟨rfl, le_enter ht _, fun x hx => hx, fun x hx => Or.inl hx, fun m hm => ?_,
    fun m hm => ?_⟩
  all_goals
    by_cases hmn : m = n
    · subst hmn
      simp [Ballot.State.enter] at hm
    · simp [Ballot.State.enter, hmn] at hm ⊢
      simp [hm]

theorem ballotChange_retire (s : State N T E) (n : N) :
    BallotChange s (s.toState.setRole n .follower) := by
  refine ⟨rfl, fun m => le_refl _, fun x hx => hx, fun x hx => Or.inl hx, fun m hm => ?_,
    fun m hm => ?_⟩
  all_goals
    by_cases hmn : m = n
    · subst hmn
      simp [Ballot.State.setRole] at hm
    · simp [Ballot.State.setRole, hmn] at hm ⊢
      simp [hm]

theorem ballotChange_stand (s : State N T E) {n : N} {t : T} (ht : s.term n < t) :
    BallotChange s ((s.toState.enter n t .candidate).addVote
      ⟨n, t, n, s.log n, s.elections.length⟩) := by
  refine ⟨rfl, le_enter ht .candidate, fun x hx => List.mem_cons_of_mem _ hx, fun x hx => ?_,
    fun m hm => ?_, fun m hm => ?_⟩
  · rcases List.mem_cons.mp hx with rfl | hx
    · exact Or.inr ⟨rfl, by simp [Ballot.State.enter, Ballot.State.addVote],
        fun _ _ => AtLeast.refl _⟩
    · exact Or.inl hx
  all_goals
    by_cases hmn : m = n
    · subst hmn
      simp [Ballot.State.enter, Ballot.State.addVote, ht] at hm ⊢
    · simp [Ballot.State.enter, Ballot.State.addVote, hmn] at hm ⊢
      simp [hm]

theorem ballotChange_vote (s : State N T E) (v c : N)
    (hlog : s.role c = .candidate → s.term c = s.term v → AtLeast (s.log v) (s.log c)) :
    BallotChange s ((s.toState.setRole v .follower).addVote
      ⟨v, s.term v, c, s.log v, s.elections.length⟩) := by
  refine ⟨rfl, fun m => le_refl _, fun x hx => List.mem_cons_of_mem _ hx, fun x hx => ?_,
    fun m hm => ?_, fun m hm => ?_⟩
  · rcases List.mem_cons.mp hx with rfl | hx
    · refine Or.inr ⟨rfl, rfl, fun hr ht => hlog ?_ ht⟩
      by_cases hcv : c = v
      · subst hcv
        simp [Ballot.State.setRole, Ballot.State.addVote] at hr
      · simpa [Ballot.State.setRole, Ballot.State.addVote, hcv] using hr
    · exact Or.inl hx
  all_goals
    by_cases hmn : m = v
    · subst hmn
      simp [Ballot.State.setRole, Ballot.State.addVote] at hm
    · simp [Ballot.State.setRole, Ballot.State.addVote, hmn] at hm ⊢
      simp [hm]

end Steps

/-! ## Elections -/

theorem State.Fine.sub {c d : List E} {x : T} (h : s.Fine c x) (hd : d <+: c) : s.Fine d x :=
  fun t ht j e he => h t ht j e (getElem?_mono hd he)

section Elect

variable (hmeet : ∀ A B, Quorum A → Quorum B → ∃ v, v ∈ A ∧ v ∈ B) (h : Inv Quorum strict s)
  {n : N} (hrole : s.role n = .candidate) {voters : Set N} (hquorum : Quorum voters)
  (hvotes : ∀ v ∈ voters, s.Voted v (s.term n) n)
include hmeet h hrole hquorum hvotes

/-- The winner has everything committed in earlier terms. -/
theorem Inv.winner_complete {t : T} {i : Nat} {q : Set N} (hc : s.Committed Quorum t i q)
    (ht : t < s.term n) : (s.log n)[i]? = (s.tlog t)[i]? := by
  have hist := h.history
  refine hist.complete_of_votes hmeet hc (k := s.elections.length)
    (fun j _ r hr htr => hist.complete hmeet h.ballot hc (List.mem_of_getElem? hr) htr) ht
    hquorum (fun v hv => ?_) (h.holds n).log_valid (fun e he => ?_)
  · obtain ⟨x, hx, hxv, hxt, hxc⟩ := hvotes v hv
    have hlog := h.info.vote_log x hx (hxc ▸ hrole) (hxc ▸ hxt.symm)
    exact ⟨x, hx, hxv, hxt, h.info.vote_seen x hx, hxc ▸ hlog⟩
  · obtain ⟨i, hi⟩ := List.mem_iff_getElem?.mp he
    obtain ⟨r, hr, hrt⟩ := hist.valid_elected (h.holds n).log_valid hi
    obtain ⟨j, hj⟩ := List.mem_iff_getElem?.mp hr
    exact ⟨j, (List.getElem?_eq_some_iff.mp hj).1, r, hj, hrt⟩

/-- What the winner has learned to be committed was committed before its
term, and it has it. -/
theorem Inv.winner_learned {c : List E} (hl : s.Learned Quorum n c) :
    c <+: s.log n ∧ ∃ t i q, s.Committed Quorum t i q ∧ c.length ≤ i + 1 ∧ c <+: s.tlog t ∧
      t < s.term n := by
  obtain ⟨t, i, q, hc, hlen, hp, htiming⟩ := hl
  obtain ⟨e, he, -⟩ := h.history.committed_entry hmeet hc
  have hlt : t < s.term n := by
    rcases lt_trichotomy t (s.term n) with hlt | rfl | hgt
    · exact hlt
    · obtain ⟨r, hr, hrt⟩ := h.history.elected he
      exact absurd hrt (Ballot.Inv.not_elected hmeet h.ballot hrole hquorum hvotes r hr)
    · obtain ⟨v, hvq, hvv⟩ := hmeet q voters hc.quorum hquorum
      exact absurd (hvotes v hvv) (htiming hrole hgt v hvq)
  refine ⟨isPrefix_of_getElem? fun j hj => ?_, t, i, q, hc, hlen, hp, hlt⟩
  have hwin := h.winner_complete hmeet hrole hquorum hvotes hc hlt
  rw [h.history.prefix_of_entry hmeet hc (h.holds n).log_valid hwin (show j ≤ i by omega),
    getElem?_mono hp (List.getElem?_eq_getElem hj), List.getElem?_eq_getElem hj]

theorem Inv.winner_snap : s.snap n <+: s.log n := by
  rcases (h.claims n).snap_ok with hnil | ⟨p, -, hl, hp, -⟩
  · rw [hnil]
    exact List.nil_prefix
  · obtain ⟨hpl, -⟩ := h.winner_learned hmeet hrole hquorum hvotes hl
    rcases hp with hp | hp
    · rw [hp]
      exact hpl
    · exact absurd hpl hp

theorem Inv.winner_terms {i : Nat} {e : E} (he : (s.log n)[i]? = some e) :
    termOf e < s.term n := by
  have hne : termOf e ≠ s.term n := by
    obtain ⟨r, hr, hrt⟩ := h.history.valid_elected (h.holds n).log_valid he
    rw [← hrt]
    exact Ballot.Inv.not_elected hmeet h.ballot hrole hquorum hvotes r hr
  rcases Nat.lt_or_ge i (s.snap n).length with hi | hi
  · -- the snapshot was committed before the term
    rcases (h.claims n).snap_ok with hnil | ⟨p, hlen, hl, -, -⟩
    · rw [hnil] at hi
      exact absurd hi (Nat.not_lt_zero i)
    · obtain ⟨hpl, t, k, q, -, -, hpt, ht⟩ :=
        h.winner_learned hmeet hrole hquorum hvotes hl
      have hip : i < p.length := by omega
      have hpe : p[i]? = some e := by
        rw [← he, getElem?_mono hpl (List.getElem?_eq_getElem hip),
          List.getElem?_eq_getElem hip]
      exact (h.history.term_le (getElem?_mono hpt hpe)).trans_lt ht
  · exact lt_of_le_of_ne ((h.holds n).tail_terms i e hi he) hne

variable [DecidableEq N]

theorem Inv.grows_elected : Grows s (s.elected n voters) where
  elections := ⟨_, rfl⟩
  tlog x := by
    by_cases hx : x = s.term n
    · subst hx
      rw [h.history.unelected _ (Ballot.Inv.not_elected hmeet h.ballot hrole hquorum hvotes)]
      exact List.nil_prefix
    · rw [elected_tlog_ne hx]
  acks := Set.Subset.rfl
  votes x hx := hx
  msgs := Set.Subset.rfl
  term m := le_refl _

theorem Inv.history_elected : History (s.elected n voters) := by
  have hist := h.history
  have hnew := Ballot.Inv.not_elected hmeet h.ballot hrole hquorum hvotes
  have hgrows := h.grows_elected hmeet hrole hquorum hvotes
  have hmem : ∀ r ∈ (s.elected n voters).elections, r ∈ s.elections ∨
      r = ⟨s.term n, n, voters, s.log n⟩ := by
    intro r hr
    rcases List.mem_append.mp hr with hr | hr
    · exact Or.inl hr
    · exact Or.inr (List.mem_singleton.mp hr)
  have hget : ∀ (i : Nat) r, (s.elected n voters).elections[i]? = some r →
      s.elections[i]? = some r ∨
        i = s.elections.length ∧ r = ⟨s.term n, n, voters, s.log n⟩ := by
    intro i r hr
    rw [show (s.elected n voters).elections =
      s.elections ++ [⟨s.term n, n, voters, s.log n⟩] from rfl] at hr
    rcases Nat.lt_or_ge i s.elections.length with hi | hi
    · rw [List.getElem?_append_left hi] at hr
      exact Or.inl hr
    · rw [List.getElem?_append_right hi] at hr
      have hlen := (List.getElem?_eq_some_iff.mp hr).1
      simp only [List.length_cons, List.length_nil] at hlen
      obtain rfl : i = s.elections.length := by omega
      simp only [Nat.sub_self, List.getElem?_cons_zero, Option.some.injEq] at hr
      exact Or.inr ⟨rfl, hr.symm⟩
  have hold : ∀ {i : Nat} {r}, s.elections[i]? = some r →
      (s.elected n voters).elections[i]? = some r := by
    intro i r hr
    exact (List.getElem?_append_left (List.getElem?_eq_some_iff.mp hr).1).trans hr
  refine
    { unelected := fun t ht => ?_
      start := fun r hr => ?_
      start_lt := fun r hr e he => ?_
      written := fun r hr i e hi he => ?_
      start_valid := fun r hr => ?_
      start_old := fun i r hr e he => ?_
      vote_valid := fun x hx => hgrows.valid (hist.vote_valid x hx)
      won := fun i r hr v hv => ?_
      ack_entry := fun v t i ha => ?_
      vote_kept := fun x hx t i ha ht => ?_ }
  · have hne : t ≠ s.term n := fun heq =>
      ht ⟨s.term n, n, voters, s.log n⟩ (List.mem_append_right _ (List.mem_singleton_self _))
        heq.symm
    rw [elected_tlog_ne hne]
    exact hist.unelected t fun r hr => ht r (List.mem_append_left _ hr)
  · rcases hmem r hr with hr | rfl
    · rw [elected_tlog_ne (hnew r hr)]
      exact hist.start r hr
    · rw [elected_tlog_self]
  · rcases hmem r hr with hr | rfl
    · exact hist.start_lt r hr e he
    · obtain ⟨i, hi⟩ := List.mem_iff_getElem?.mp he
      exact h.winner_terms hmeet hrole hquorum hvotes hi
  · rcases hmem r hr with hr | rfl
    · rw [elected_tlog_ne (hnew r hr)] at he
      exact hist.written r hr i e hi he
    · rw [elected_tlog_self] at he
      exact absurd (List.getElem?_eq_some_iff.mp he).1 (Nat.not_lt.mpr hi)
  · rcases hmem r hr with hr | rfl
    · exact hgrows.valid (hist.start_valid r hr)
    · exact hgrows.valid (h.holds n).log_valid
  · rcases hget i r hr with hr | ⟨rfl, rfl⟩
    · obtain ⟨j, hj, r', hr', hrt⟩ := hist.start_old i r hr e he
      exact ⟨j, hj, r', hold hr', hrt⟩
    · obtain ⟨i, hi⟩ := List.mem_iff_getElem?.mp he
      obtain ⟨r', hr', hrt⟩ := hist.valid_elected (h.holds n).log_valid hi
      obtain ⟨j, hj⟩ := List.mem_iff_getElem?.mp hr'
      exact ⟨j, (List.getElem?_eq_some_iff.mp hj).1, r', hold hj, hrt⟩
  · rcases hget i r hr with hr | ⟨rfl, rfl⟩
    · exact hist.won i r hr v hv
    · obtain ⟨x, hx, hxv, hxt, hxc⟩ := hvotes v hv
      have hlog := h.info.vote_log x hx (hxc ▸ hrole) (hxc ▸ hxt.symm)
      exact ⟨x, hx, hxv, hxt, h.info.vote_seen x hx, hxc ▸ hlog⟩
  · obtain ⟨e, he, hte⟩ := hist.ack_entry v t i ha
    exact ⟨e, getElem?_mono (hgrows.tlog t) he, hte⟩
  · obtain ⟨e, he, -⟩ := hist.ack_entry _ t i ha
    rw [getElem?_mono (hgrows.tlog t) he, ← he]
    rcases hist.vote_kept x hx t i ha ht with hk | hk
    · exact Or.inl hk
    · right
      rwa [show (s.elected n voters).elections =
        s.elections ++ [⟨s.term n, n, voters, s.log n⟩] from rfl,
        List.take_append_of_le_length (h.info.vote_seen x hx)]

theorem Inv.info_elected : (s.elected n voters).Info := by
  refine
    { vote_seen := fun x hx => ?_
      vote_log := fun x hx hr ht => ?_
      ack_le := h.info.ack_le
      own_ack := fun m t i e hl he hte => ?_ }
  · show x.data.2 ≤ (s.elections ++ [_]).length
    rw [List.length_append]
    exact (h.info.vote_seen x hx).trans (Nat.le_add_right _ _)
  · refine h.info.vote_log x hx ?_ ht
    by_cases hxn : x.cand = n
    · rw [hxn]
      exact hrole
    · rwa [elected_role_ne hxn] at hr
  · rcases (led_addElection _ _ _).mp hl with hl | ⟨rfl, rfl⟩
    · obtain ⟨r, hr, hrn, rfl⟩ := hl
      rw [elected_tlog_ne (Ballot.Inv.not_elected hmeet h.ballot hrole hquorum hvotes r hr)] at he
      exact h.info.own_ack m _ i e ⟨r, hr, hrn, rfl⟩ he hte
    · rw [elected_tlog_self] at he
      exact absurd hte (h.winner_terms hmeet hrole hquorum hvotes he).ne

theorem Inv.same_elected {m : N} (hmn : m ≠ n) : Same Quorum s (s.elected n voters) m where
  grows := h.grows_elected hmeet hrole hquorum hvotes
  log := rfl
  snap := rfl
  commit := rfl
  led y hy := by
    rcases (led_addElection _ _ _).mp hy with hy | ⟨heq, -⟩
    · exact hy
    · exact absurd heq.symm hmn
  acks u i ha := ha
  leader hr := by
    rw [elected_role_ne hmn] at hr
    obtain ⟨r, hrm, -, hrt⟩ := h.ballot.leading m hr
    refine ⟨hr, elected_tlog_ne ?_⟩
    show s.term m ≠ s.term n
    rw [← hrt]
    exact Ballot.Inv.not_elected hmeet h.ballot hrole hquorum hvotes r hrm
  timing u i q hq ht := by
    intro hr
    rw [elected_role_ne hmn] at hr
    exact ht hr

theorem Inv.holds_winner : (s.elected n voters).Holds n := by
  have hh := h.holds n
  have hgrows := h.grows_elected hmeet hrole hquorum hvotes
  have hist := h.history_elected hmeet hrole hquorum hvotes
  have hsnap := h.winner_snap hmeet hrole hquorum hvotes
  have hfine : ∀ y, (s.elected n voters).Led n y → (s.elected n voters).Fine (s.log n) y := by
    intro y hy
    rcases (led_addElection _ _ _).mp hy with hy | ⟨-, rfl⟩
    · exact hgrows.fine (hh.fine_log y hy)
    · have hf := hist.tlog_fine (s.term n)
      rwa [elected_tlog_self] at hf
  exact
    { log_valid := hgrows.valid hh.log_valid
      snap_valid := hgrows.valid hh.snap_valid
      snap_le := hh.snap_le
      snap_commit := hh.snap_commit
      tail_terms := hh.tail_terms
      kept := fun u i ha => hgrows.kept h.history ha (hh.kept u i ha)
      kept_snap := fun u i ha hi => hgrows.kept h.history ha (hh.kept_snap u i ha hi)
      fine_log := hfine
      fine_snap := fun y hy => (hfine y hy).sub hsnap
      leader_log := fun _ => (update_self (s.term n) (s.log n) s.tlog).symm
      leader_snap := fun _ => hsnap }

theorem Inv.claims_winner : (s.elected n voters).Claims Quorum strict n := by
  have hcl := h.claims n
  have hgrows := h.grows_elected hmeet hrole hquorum hvotes
  have hwin : ∀ {c : List E}, s.Learned Quorum n c → c <+: s.log n ∧
      (s.elected n voters).Reached Quorum n c := by
    intro c hl
    obtain ⟨hcl, t, i, q, hc, hlen, hp, ht⟩ := h.winner_learned hmeet hrole hquorum hvotes hl
    exact ⟨hcl, t, i, q, hgrows.committed hc, hlen, hp.trans (hgrows.tlog t), ht.le⟩
  have hcommit : ∀ k, (s.snap n).length < k → k ≤ s.commit n → ∃ p, p.length = k ∧
      p <+: s.log n ∧ (s.elected n voters).Reached Quorum n p := by
    intro k h1 h2
    obtain ⟨p, hlen, hp⟩ := hcl.commit_ok k h1 h2
    rcases hp with ⟨hr, -⟩ | ⟨-, hl, -⟩
    · exact ⟨p, hlen, hwin hr.learned⟩
    · exact ⟨p, hlen, hwin hl⟩
  refine ⟨?_, fun k h1 h2 => ?_, fun _ => ?_⟩
  · rcases hcl.snap_ok with hnil | ⟨p, hlen, hl, hp, -⟩
    · exact Or.inl hnil
    · obtain ⟨hpl, hr⟩ := hwin hl
      have heq : s.snap n = p := hp.resolve_right (not_not.mpr hpl)
      exact Or.inr ⟨p, hlen, hr.learned, Or.inl heq, Or.inl heq⟩
  · obtain ⟨p, hlen, hpl, hr⟩ := hcommit k h1 h2
    exact ⟨p, hlen, Or.inl ⟨hr, hpl⟩⟩
  · -- whatever the winner holds for committed is so in its term
    show s.commit n = 0 ∨ _
    rcases Nat.lt_or_ge (s.snap n).length (s.commit n) with hlt | hge
    · obtain ⟨p, hlen, -, t, i, q, hc, hi, -, ht⟩ := hcommit _ hlt (le_refl _)
      exact Or.inr ⟨t, i, q, hc, ht, show s.commit n ≤ i + 1 by omega⟩
    · rcases hcl.snap_ok with hnil | ⟨p, hlen, hl, -⟩
      · rw [hnil] at hge
        exact Or.inl (Nat.le_zero.mp hge)
      · obtain ⟨-, t, i, q, hc, hi, -, ht⟩ := hwin hl
        exact Or.inr ⟨t, i, q, hc, ht, show s.commit n ≤ i + 1 by omega⟩

theorem Inv.elected : Inv Quorum strict (s.elected n voters) where
  ballot := h.ballot.elect hmeet hrole hquorum hvotes _
  history := h.history_elected hmeet hrole hquorum hvotes
  info := h.info_elected hmeet hrole hquorum hvotes
  holds m := by
    by_cases hmn : m = n
    · subst hmn
      exact h.holds_winner hmeet hrole hquorum hvotes
    · exact (h.same_elected hmeet hrole hquorum hvotes hmn).holds h.history (h.holds m)
  claims m := by
    by_cases hmn : m = n
    · subst hmn
      exact h.claims_winner hmeet hrole hquorum hvotes
    · exact (h.same_elected hmeet hrole hquorum hvotes hmn).claims (h.claims m)
  msgs m hm := (h.grows_elected hmeet hrole hquorum hvotes).msgOk h.history hmeet (h.msgs m hm)

end Elect

/-! ## Writes -/

section Write

variable (hmeet : ∀ A B, Quorum A → Quorum B → ∃ v, v ∈ A ∧ v ∈ B) (h : Inv Quorum strict s)
  {n : N} (hrole : s.role n = .leader)

include hmeet h hrole in
/-- A leader's log has everything the leader holds for committed. -/
theorem Inv.leader_commit_le : s.commit n ≤ (s.log n).length := by
  rcases (h.claims n).leader_commit hrole with h0 | ⟨t, i, q, hc, ht, hle⟩
  · omega
  · obtain ⟨r, hr, -, hrt⟩ := h.ballot.leading n hrole
    obtain ⟨e, he, -⟩ := h.history.committed_entry hmeet hc
    have hagree := h.history.tlog_agree hmeet h.ballot hc ht ⟨r, hr, hrt⟩ (le_refl i)
    rw [he, ← (h.holds n).leader_log hrole] at hagree
    have := (List.getElem?_eq_some_iff.mp hagree).1
    omega

variable [DecidableEq N]

variable {e : E} {c : Nat}

include h hrole

theorem Inv.grows_written : Grows s (s.written n e c) where
  elections := List.prefix_refl _
  tlog x := by
    by_cases hx : x = s.term n
    · subst hx
      rw [written_tlog_self, (h.holds n).leader_log hrole]
      exact List.prefix_append _ _
    · rw [written_tlog_ne hx]
  acks := Set.subset_insert _ _
  votes x hx := hx
  msgs := Set.subset_insert _ _
  term m := le_refl _

theorem Inv.history_written (he : termOf e = s.term n) : History (s.written n e c) := by
  have hist := h.history
  have hgrows : Grows s (s.written n e c) := h.grows_written hrole
  have hlog := (h.holds n).leader_log hrole
  refine
    { unelected := fun t ht => ?_
      start := fun r hr => (hist.start r hr).trans (hgrows.tlog _)
      start_lt := hist.start_lt
      written := fun r hr i x hi hx => ?_
      start_valid := fun r hr => hgrows.valid (hist.start_valid r hr)
      start_old := hist.start_old
      vote_valid := fun x hx => hgrows.valid (hist.vote_valid x hx)
      won := hist.won
      ack_entry := fun v t i ha => ?_
      vote_kept := fun x hx t i ha ht => ?_ }
  · obtain ⟨r, hr, -, hrt⟩ := h.ballot.leading n hrole
    have hne : t ≠ s.term n := fun heq => ht r hr (hrt.trans heq.symm)
    rw [written_tlog_ne hne]
    exact hist.unelected t ht
  · by_cases hrn : r.term = s.term n
    · rw [hrn, written_tlog_self] at hx
      rcases getElem?_concat hx with hx | ⟨-, rfl⟩
      · rw [hlog, ← hrn] at hx
        exact hist.written r hr i x hi hx
      · rw [he, hrn]
    · rw [written_tlog_ne hrn] at hx
      exact hist.written r hr i x hi hx
  · rcases Set.mem_insert_iff.mp ha with heq | ha
    · obtain ⟨rfl, rfl, rfl⟩ : v = n ∧ t = s.term n ∧ i = (s.log n).length := by
        simpa [Prod.ext_iff] using heq
      refine ⟨e, ?_, he⟩
      rw [written_tlog_self, List.getElem?_concat_length]
    · obtain ⟨x, hx, hxt⟩ := hist.ack_entry v t i ha
      exact ⟨x, getElem?_mono (hgrows.tlog t) hx, hxt⟩
  · rcases Set.mem_insert_iff.mp ha with heq | ha
    · -- a leader has not voted in a later term
      obtain ⟨hxn, rfl, -⟩ : x.voter = n ∧ t = s.term n ∧ i = (s.log n).length := by
        simpa [Prod.ext_iff] using heq
      have hle := h.ballot.voter_le x.voter x.term x.cand ⟨x, hx, rfl, rfl, rfl⟩
      rw [hxn] at hle
      exact absurd ht (not_lt.mpr hle)
    · obtain ⟨y, hy, -⟩ := hist.ack_entry _ t i ha
      rw [getElem?_mono (hgrows.tlog t) hy, ← hy]
      exact hist.vote_kept x hx t i ha ht

theorem Inv.info_written : (s.written n e c).Info := by
  refine
    { vote_seen := h.info.vote_seen
      vote_log := fun x hx hr ht => ?_
      ack_le := fun v t i ha => ?_
      own_ack := fun m t i x hl hx hxt => ?_ }
  · have hxn : x.cand ≠ n := by
      intro heq
      have hr : s.role x.cand = .candidate := hr
      rw [heq, hrole] at hr
      cases hr
    rw [written_log_ne hxn]
    exact h.info.vote_log x hx hr ht
  · rcases Set.mem_insert_iff.mp ha with heq | ha
    · obtain ⟨rfl, rfl, -⟩ : v = n ∧ t = s.term n ∧ i = (s.log n).length := by
        simpa [Prod.ext_iff] using heq
      exact le_refl _
    · exact h.info.ack_le v t i ha
  · by_cases htn : t = s.term n
    · subst htn
      obtain rfl : n = m := h.ballot.leader_unique hrole hl
      rw [written_tlog_self] at hx
      rcases getElem?_concat hx with hx | ⟨rfl, -⟩
      · rw [(h.holds n).leader_log hrole] at hx
        exact Set.mem_insert_of_mem _ (h.info.own_ack n _ i x hl hx hxt)
      · exact Set.mem_insert _ _
    · rw [written_tlog_ne htn] at hx
      exact Set.mem_insert_of_mem _ (h.info.own_ack m t i x hl hx hxt)

theorem Inv.kin_written (m : N) : Kin Quorum s (s.written n e c) m where
  grows := h.grows_written hrole
  led _ hy := hy
  timing _ _ _ _ ht := ht

theorem Inv.same_written {m : N} (hmn : m ≠ n) : Same Quorum s (s.written n e c) m where
  toKin := h.kin_written hrole m
  log := written_log_ne hmn
  snap := rfl
  commit := rfl
  acks u i ha := by
    rcases Set.mem_insert_iff.mp ha with heq | ha
    · exact absurd (congrArg Prod.fst heq) hmn
    · exact ha
  leader hr := by
    refine ⟨hr, written_tlog_ne fun heq => hmn ?_⟩
    exact (h.ballot.leader_unique hrole (heq ▸ h.ballot.leading m hr)).symm

theorem Inv.holds_writer (he : termOf e = s.term n) : (s.written n e c).Holds n := by
  have hh := h.holds n
  have hist := h.history_written hrole he (c := c)
  have hgrows : Grows s (s.written n e c) := h.grows_written hrole
  have hlog : (s.written n e c).log n = (s.written n e c).tlog (s.term n) :=
    written_log_self.trans written_tlog_self.symm
  refine
    { log_valid := hlog ▸ hist.tlog_valid _
      snap_valid := hgrows.valid hh.snap_valid
      snap_le := ?_
      snap_commit := hh.snap_commit
      tail_terms := fun i x _ hx => hist.term_le (hlog ▸ hx)
      kept := fun u i ha => ?_
      kept_snap := fun u i ha hi => ?_
      fine_log := fun y hy => hlog ▸ (hist.tlog_fine _).mono (h.ballot.led_le n y hy)
      fine_snap := fun y hy => hgrows.fine (hh.fine_snap y hy)
      leader_log := fun _ => hlog
      leader_snap := fun hr => ?_ }
  · rw [written_log_self, List.length_append]
    exact hh.snap_le.trans (Nat.le_add_right _ _)
  · rcases Set.mem_insert_iff.mp ha with heq | ha
    · obtain ⟨rfl, -⟩ : u = s.term n ∧ i = (s.log n).length := by
        simpa [Prod.ext_iff] using heq
      exact Or.inl (congrArg (·[i]?) hlog)
    · refine hgrows.kept h.history ha ?_
      rcases hh.kept u i ha with hk | hk
      · obtain ⟨x, hx, -⟩ := h.history.ack_entry n u i ha
        rw [written_log_self, hx]
        exact Or.inl (getElem?_mono (List.prefix_append _ _) (hk.trans hx))
      · exact Or.inr hk
  · rcases Set.mem_insert_iff.mp ha with heq | ha
    · obtain ⟨-, rfl⟩ : u = s.term n ∧ i = (s.log n).length := by
        simpa [Prod.ext_iff] using heq
      exact absurd hi (Nat.not_lt.mpr hh.snap_le)
    · exact hgrows.kept h.history ha (hh.kept_snap u i ha hi)
  · rw [written_log_self]
    exact (hh.leader_snap hr).trans (List.prefix_append _ _)

theorem Inv.claims_writer : (s.written n e c).Claims Quorum strict n := by
  have hcl := h.claims n
  have hkin : Kin Quorum s (s.written n e c) n := h.kin_written hrole n
  refine ⟨?_, fun k h1 h2 => ?_, fun hr => ?_⟩
  · rcases hcl.snap_ok with hnil | ⟨p, hlen, hl, hp, hy⟩
    · exact Or.inl hnil
    · refine Or.inr ⟨p, hlen, hkin.learned hl, hp.imp_right fun hno hpl => hno ?_, hy⟩
      rw [written_log_self] at hpl
      exact List.prefix_of_prefix_length_le hpl (List.prefix_append _ _)
        (hlen ▸ (h.holds n).snap_le)
  · rw [written_log_self]
    exact hkin.vouched (hcl.commit_ok k h1 h2) fun p _ _ hp => hp.trans (List.prefix_append _ _)
  · rcases hcl.leader_commit hr with h0 | ⟨u, i, q, hq, hu, hle⟩
    · exact Or.inl h0
    · exact Or.inr ⟨u, i, q, hkin.grows.committed hq, hu, hle⟩

include hmeet in
theorem Inv.msgOk_written (he : termOf e = s.term n) (hc : c ≤ s.commit n) :
    (s.written n e c).MsgOk Quorum strict (.batch (s.term n) ((s.log n).length + 1) c) := by
  have hle := h.leader_commit_le hmeet hrole
  refine ⟨by omega, ⟨e, ?_, he⟩, ?_⟩
  · rw [written_tlog_self, Nat.add_sub_cancel, List.getElem?_concat_length]
  · rcases (h.claims n).leader_commit hrole with h0 | ⟨u, i, q, hq, hu, hi⟩
    · exact Or.inl (by omega)
    · exact Or.inr ⟨u, i, q, (h.grows_written hrole).committed hq, hu, by omega⟩

include hmeet in
theorem Inv.written (he : termOf e = s.term n) (hc : c ≤ s.commit n) :
    Inv Quorum strict (s.written n e c) where
  ballot := h.ballot
  history := h.history_written hrole he
  info := h.info_written hrole
  holds m := by
    by_cases hmn : m = n
    · subst hmn
      exact h.holds_writer hrole he
    · exact (h.same_written hrole hmn).holds h.history (h.holds m)
  claims m := by
    by_cases hmn : m = n
    · subst hmn
      exact h.claims_writer hrole
    · exact (h.same_written hrole hmn).claims (h.claims m)
  msgs m hm := by
    rcases Set.mem_insert_iff.mp hm with rfl | hm
    · exact h.msgOk_written hmeet hrole he hc
    · exact (h.grows_written hrole).msgOk h.history hmeet (h.msgs m hm)

end Write

end TinyKV.Raft
