import TinyKV.Lib.RaftSafety

/-!
# Steps of one node

All steps but elections and writes leave terms, votes and the logs of the
terms alone. They give one node a new log or snapshot, or move what it holds
for committed, and for them it matters only where the entries come from:
the node's own log, its snapshot, or something that contradicts no log of a
term the node knows of (`From`). An entry may be dropped only if something
like that contradicts the log before it (`Sourced`).

`Local` collects what such a step is to respect, and `Local.inv` leaves two
things to each step: what the node believes afterwards, and the message it
sends.
-/

namespace TinyKV.Raft

open Function Ballot

variable {N T E : Type} [LinearOrder T] [Termed E T] {Quorum : Set N → Prop} {strict : Prop}
  {s t : State N T E} {v : N}

namespace State

/-- Where node `v` may take its entry at position `i` from. -/
def From (s : State N T E) (v : N) (i : Nat) (e : E) : Prop :=
  (s.log v)[i]? = some e ∨ (s.snap v)[i]? = some e ∨
    ∃ xs, s.Fine xs (s.term v) ∧ xs[i]? = some e

structure Sourced (s : State N T E) (v : N) (log : List E) : Prop where
  entry : ∀ i e, log[i]? = some e → s.From v i e
  dropped : ∀ i, log.length ≤ i → i < (s.log v).length →
    ∃ j ≤ i, ∃ xs e, s.Fine xs (s.term v) ∧ xs[j]? = some e ∧ (s.log v)[j]? ≠ some e

end State

structure Local (s t : State N T E) (v : N) : Prop where
  ballot : t.toState = s.toState
  tlog : t.tlog = s.tlog
  acks : s.acks ⊆ t.acks
  msgs : s.msgs ⊆ t.msgs
  others : ∀ m ≠ v, t.log m = s.log m ∧ t.snap m = s.snap m ∧ t.commit m = s.commit m
  new_ack : ∀ m u i, (m, u, i) ∈ t.acks → (m, u, i) ∈ s.acks ∨
    m = v ∧ u = s.term v ∧ (∃ e, (s.tlog u)[i]? = some e ∧ termOf e = u) ∧
      (t.log v)[i]? = (s.tlog u)[i]? ∧ (t.snap v).length ≤ i
  standing : s.role v ≠ .follower → t.log v = s.log v
  log_from : s.Sourced v (t.log v)
  snap_from : ∀ i e, (t.snap v)[i]? = some e → s.From v i e
  log_valid : s.Valid (t.log v)
  snap_valid : s.Valid (t.snap v)
  snap_le : (t.snap v).length ≤ (t.log v).length
  snap_grows : (s.snap v).length ≤ (t.snap v).length
  snap_commit : (t.snap v).length ≤ t.commit v
  tail_terms : ∀ i e, (t.snap v).length ≤ i → (t.log v)[i]? = some e → termOf e ≤ s.term v
  leader_snap : s.role v = .leader → t.snap v <+: t.log v

/-! ## What the node holds -/

section Sources

variable (h : Inv Quorum strict s)
include h

theorem Inv.from_kept {u : T} {i : Nat} (ha : (v, u, i) ∈ s.acks) {e : E}
    (hf : s.From v i e) : some e = (s.tlog u)[i]? ∨ Against s.elections u i := by
  have hh := h.holds v
  rcases hf with hl | hs | ⟨c, hc, he⟩
  · rw [← hl]
    exact hh.kept u i ha
  · rw [← hs]
    exact hh.kept_snap u i ha (List.getElem?_eq_some_iff.mp hs).1
  · rcases hc u (h.info.ack_le v u i ha) i e he with hl | hag
    · exact Or.inl hl.symm
    · exact Or.inr hag

theorem Inv.from_fine {xs : List E} (hc : ∀ i e, xs[i]? = some e → s.From v i e) {y : T}
    (hy : s.Led v y) : s.Fine xs y := by
  intro u hu i e he
  rcases hc i e he with hl | hs | ⟨d, hd, hde⟩
  · exact (h.holds v).fine_log y hy u hu i e hl
  · exact (h.holds v).fine_snap y hy u hu i e hs
  · exact hd u (hu.trans (h.ballot.led_le v y hy)) i e hde

/-- An acknowledged entry is dropped only if the log it belongs to is lost. -/
theorem Inv.sourced_kept {log : List E} (hs : s.Sourced v log) {u : T} {i : Nat}
    (ha : (v, u, i) ∈ s.acks) : log[i]? = (s.tlog u)[i]? ∨ Against s.elections u i := by
  have hh := h.holds v
  cases hi : log[i]? with
  | some e => exact h.from_kept ha (hs.entry i e hi)
  | none =>
    rcases hh.kept u i ha with hk | hk
    · obtain ⟨e, he, hte⟩ := h.history.ack_entry v u i ha
      have hle : (s.log v)[i]? = some e := hk.trans he
      obtain ⟨j, hji, c, x, hc, hx, hne⟩ := hs.dropped i (List.getElem?_eq_none_iff.mp hi)
        (List.getElem?_eq_some_iff.mp hle).1
      rcases hc u (h.info.ack_le v u i ha) j x hx with hl | hag
      · rw [hh.log_valid.get hle hji, hte] at hne
        exact absurd hl hne
      · exact Or.inr (hag.mono (List.Subset.refl _) hji)
    · exact Or.inr hk

end Sources

namespace Local

variable (hl : Local s t v)
include hl

theorem grows : Grows s t where
  elections := by rw [hl.ballot]
  tlog x := by rw [hl.tlog]
  acks := hl.acks
  votes x hx := by rwa [hl.ballot]
  msgs := hl.msgs
  term m := by rw [hl.ballot]

theorem led {m : N} {y : T} (hy : t.Led m y) : s.Led m y := by rwa [hl.ballot] at hy

theorem kin (m : N) : Kin Quorum s t m where
  grows := hl.grows
  led _ hy := hl.led hy
  timing u i q _ ht := by
    unfold State.Timing at ht ⊢
    rwa [hl.ballot]

theorem same {m : N} (hm : m ≠ v) : Same Quorum s t m where
  toKin := hl.kin m
  log := (hl.others m hm).1
  snap := (hl.others m hm).2.1
  commit := (hl.others m hm).2.2
  acks u i ha := by
    rcases hl.new_ack m u i ha with ha | ⟨hmv, -⟩
    · exact ha
    · exact absurd hmv hm
  leader hr := by
    rw [hl.ballot] at hr
    rw [hl.ballot, hl.tlog]
    exact ⟨hr, rfl⟩

variable (h : Inv Quorum strict s)
include h

theorem history : History t := by
  have hist := h.history
  have hv : ∀ c, s.Valid c → t.Valid c := fun c hc => hl.grows.valid hc
  refine
    { unelected := ?_
      start := ?_
      start_lt := ?_
      written := ?_
      start_valid := fun r hr => hv _ (hist.start_valid r (by rwa [hl.ballot] at hr))
      start_old := ?_
      vote_valid := fun x hx => hv _ (hist.vote_valid x (by rwa [hl.ballot] at hx))
      won := ?_
      ack_entry := fun m u i ha => ?_
      vote_kept := fun x hx u i ha hu => ?_ }
  · rw [hl.ballot, hl.tlog]
    exact hist.unelected
  · rw [hl.ballot, hl.tlog]
    exact hist.start
  · rw [hl.ballot]
    exact hist.start_lt
  · rw [hl.ballot, hl.tlog]
    exact hist.written
  · rw [hl.ballot]
    exact hist.start_old
  · rw [hl.ballot]
    exact hist.won
  · rw [hl.tlog]
    rcases hl.new_ack m u i ha with ha | ⟨-, -, he, -⟩
    · exact hist.ack_entry m u i ha
    · exact he
  · rw [hl.ballot] at hx
    rw [hl.ballot, hl.tlog]
    rcases hl.new_ack _ u i ha with ha | ⟨hxv, rfl, -⟩
    · exact hist.vote_kept x hx u i ha hu
    · -- nobody has voted in a later term than its own
      have hle := h.ballot.voter_le x.voter x.term x.cand ⟨x, hx, rfl, rfl, rfl⟩
      rw [hxv] at hle
      exact absurd hu (not_lt.mpr hle)

theorem info : t.Info := by
  refine
    { vote_seen := ?_
      vote_log := fun x hx hr hx' => ?_
      ack_le := fun m u i ha => ?_
      own_ack := fun m u i e hm he hte => ?_ }
  · rw [hl.ballot]
    exact h.info.vote_seen
  · rw [hl.ballot] at hx hr hx'
    have hlog : t.log x.cand = s.log x.cand := by
      by_cases hxv : x.cand = v
      · rw [hxv]
        rw [hxv] at hr
        exact hl.standing (by rw [hr]; exact fun hcon => Role.noConfusion hcon)
      · exact (hl.others _ hxv).1
    rw [hlog]
    exact h.info.vote_log x hx hr hx'
  · rw [hl.ballot]
    rcases hl.new_ack m u i ha with ha | ⟨rfl, rfl, -⟩
    · exact h.info.ack_le m u i ha
    · exact le_refl _
  · rw [hl.ballot] at hm
    rw [hl.tlog] at he
    exact hl.acks (h.info.own_ack m u i e hm he hte)

theorem holds : t.Holds v := by
  have hh := h.holds v
  refine
    { log_valid := hl.grows.valid hl.log_valid
      snap_valid := hl.grows.valid hl.snap_valid
      snap_le := hl.snap_le
      snap_commit := hl.snap_commit
      tail_terms := fun i e hi he => (hl.tail_terms i e hi he).trans (hl.grows.term v)
      kept := fun u i ha => ?_
      kept_snap := fun u i ha hi => ?_
      fine_log := fun y hy => hl.grows.fine (h.from_fine hl.log_from.entry (hl.led hy))
      fine_snap := fun y hy => hl.grows.fine (h.from_fine hl.snap_from (hl.led hy))
      leader_log := fun hr => ?_
      leader_snap := fun hr => hl.leader_snap (by rwa [hl.ballot] at hr) }
  · rw [hl.tlog, hl.ballot]
    rcases hl.new_ack v u i ha with ha | ⟨-, -, -, heq, -⟩
    · exact h.sourced_kept hl.log_from ha
    · exact Or.inl heq
  · rw [hl.tlog, hl.ballot]
    rcases hl.new_ack v u i ha with ha | ⟨-, -, -, -, hle⟩
    · rw [List.getElem?_eq_getElem hi]
      exact h.from_kept ha (hl.snap_from i _ (List.getElem?_eq_getElem hi))
    · exact absurd hi (Nat.not_lt.mpr hle)
  · rw [hl.ballot] at hr
    rw [hl.ballot, hl.tlog, hl.standing (by rw [hr]; exact fun hcon => Role.noConfusion hcon)]
    exact hh.leader_log hr

theorem inv (hmeet : ∀ A B, Quorum A → Quorum B → ∃ v, v ∈ A ∧ v ∈ B)
    (hc : t.Claims Quorum strict v)
    (hm : ∀ m ∈ t.msgs, m ∈ s.msgs ∨ t.MsgOk Quorum strict m) : Inv Quorum strict t where
  ballot := by rw [hl.ballot]; exact h.ballot
  history := hl.history h
  info := hl.info h
  holds m := by
    by_cases hmv : m = v
    · subst hmv
      exact hl.holds h
    · have hsame : Same Quorum s t m := hl.same hmv
      exact hsame.holds h.history (h.holds m)
  claims m := by
    by_cases hmv : m = v
    · subst hmv
      exact hc
    · exact (hl.same hmv).claims (h.claims m)
  msgs m hmt := by
    rcases hm m hmt with hms | hok
    · exact hl.grows.msgOk h.history hmeet (h.msgs m hms)
    · exact hok

end Local

/-! ## What the node believes -/

section Beliefs

variable (hmeet : ∀ A B, Quorum A → Quorum B → ∃ v, v ∈ A ∧ v ∈ B) (h : Inv Quorum strict s)
include hmeet h

/-- If the log has what is committed in the snapshot's place, then the
snapshot has it too. -/
theorem Inv.snap_isPrefix {p : List E} (hp : s.Chosen Quorum p) (hpl : p <+: s.log v)
    (hlen : (s.snap v).length ≤ p.length) : s.snap v <+: p := by
  rcases (h.claims v).snap_ok with hnil | ⟨p', hlen', hl', hp', -⟩
  · rw [hnil]
    exact List.nil_prefix
  · have hle : p' <+: p :=
      h.history.chosen_le hmeet h.ballot hl'.chosen hp (by omega)
    rw [hp'.resolve_right (not_not.mpr (hle.trans hpl))]
    exact hle

/-- A new log keeps what is committed in a term the node has reached. -/
theorem Inv.sourced_isPrefix {log : List E} (hs : s.Sourced v log) {p : List E}
    (hr : s.Reached Quorum v p) (hpl : p <+: s.log v) (hlen : (s.snap v).length ≤ p.length) :
    p <+: log := by
  have hsnap := h.snap_isPrefix hmeet hr.learned.chosen hpl hlen
  obtain ⟨u, i, q, hc, hi, hpu, hu⟩ := hr
  have hagree : ∀ {xs : List E}, s.Fine xs (s.term v) → ∀ {j : Nat} {e : E}, j < p.length →
      xs[j]? = some e → p[j]? = some e := by
    intro xs hf j e hj he
    have hje := h.history.fine_agree hmeet h.ballot hc hf hu (show j ≤ i by omega) he
    rw [← hje, getElem?_mono hpu (List.getElem?_eq_getElem hj), List.getElem?_eq_getElem hj]
  refine isPrefix_of_getElem? fun j hj => ?_
  have hpj := getElem?_mono hpl (List.getElem?_eq_getElem hj)
  cases hlj : log[j]? with
  | some e =>
    rcases hs.entry j e hlj with hfrom | hfrom | ⟨xs, hf, he⟩
    · rw [← hfrom, hpj, List.getElem?_eq_getElem hj]
    · exact getElem?_mono hsnap hfrom
    · exact hagree hf hj he
  | none =>
    -- nothing is dropped where something is committed
    obtain ⟨k, hkj, xs, e, hf, he, hne⟩ := hs.dropped j (List.getElem?_eq_none_iff.mp hlj)
      (List.getElem?_eq_some_iff.mp hpj).1
    exact absurd (getElem?_mono hpl (hagree hf (by omega) he)) hne

theorem Local.vouched (hl : Local s t v) {k : Nat} (h1 : (t.snap v).length < k)
    (h2 : k ≤ s.commit v) : t.Vouched Quorum strict v (t.log v) k := by
  have hlt : (s.snap v).length < k := hl.snap_grows.trans_lt h1
  refine (hl.kin v).vouched ((h.claims v).commit_ok k hlt h2) fun p hlen hr hpl => ?_
  exact h.sourced_isPrefix hmeet hl.log_from hr hpl (by omega)

theorem Local.claims (hl : Local s t v) (hsnap : t.snap v = s.snap v)
    (hfront : s.snap v <+: t.log v ∨
      (t.log v).take (s.snap v).length = (s.log v).take (s.snap v).length)
    (hcommit : ∀ k, (s.snap v).length < k → s.commit v < k → k ≤ t.commit v →
      t.Vouched Quorum strict v (t.log v) k)
    (hleader : s.role v = .leader → t.commit v = 0 ∨
      ∃ u i q, s.Committed Quorum u i q ∧ u ≤ s.term v ∧ t.commit v ≤ i + 1) :
    t.Claims Quorum strict v := by
  have hcl := h.claims v
  have hvouched : ∀ k, (t.snap v).length < k → k ≤ t.commit v →
      t.Vouched Quorum strict v (t.log v) k := by
    intro k h1 h2
    rcases Nat.lt_or_ge (s.commit v) k with hk | hk
    · exact hcommit k (hsnap ▸ h1) hk h2
    · exact hl.vouched hmeet h h1 hk
  refine ⟨?_, hvouched, fun hr => ?_⟩
  · rw [hsnap]
    rcases hcl.snap_ok with hnil | ⟨p, hlen, hle, hp, hy⟩
    · exact Or.inl hnil
    · refine Or.inr ⟨p, hlen, (hl.kin v).learned hle, ?_,
        hy.imp_right fun hy => ⟨hy.1, fun y hly => hy.2 y (hl.led hly)⟩⟩
      refine (or_iff_not_imp_right.mpr fun hnn => ?_)
      have hpt : p <+: t.log v := not_not.mp hnn
      rcases hfront with hfront | hfront
      · -- both are the first entries of the new log
        exact List.IsPrefix.eq_of_length (List.prefix_of_prefix_length_le hfront hpt hlen.ge)
          hlen.symm
      · refine hp.resolve_right (not_not.mpr ?_)
        rw [List.prefix_iff_eq_take, hlen] at hpt ⊢
        rw [← hfront]
        exact hpt
  · rw [hl.ballot] at hr ⊢
    refine (hleader hr).imp_right fun hex => ?_
    obtain ⟨u, i, q, hq, hu, hle⟩ := hex
    exact ⟨u, i, q, hl.grows.committed hq, hu, hle⟩

end Beliefs

/-! ## Steps that leave the log alone -/

theorem State.Sourced.refl : s.Sourced v (s.log v) where
  entry _ _ he := Or.inl he
  dropped _ hle hlt := absurd hlt (Nat.not_lt.mpr hle)

/-- Only the commit index and the messages change. -/
theorem Inv.local_of_eq (h : Inv Quorum strict s) (hb : t.toState = s.toState)
    (htlog : t.tlog = s.tlog) (hacks : t.acks = s.acks) (hmsgs : s.msgs ⊆ t.msgs)
    (hlog : t.log = s.log) (hsnap : t.snap = s.snap) (hcommit : s.commit v ≤ t.commit v)
    (hothers : ∀ m ≠ v, t.commit m = s.commit m) :
    Local s t v := by
  have hh := h.holds v
  refine
    { ballot := hb
      tlog := htlog
      acks := hacks.ge
      msgs := hmsgs
      others := fun m hm => ⟨by rw [hlog], by rw [hsnap], hothers m hm⟩
      new_ack := fun m u i ha => Or.inl (hacks ▸ ha)
      standing := fun _ => by rw [hlog]
      log_from := hlog ▸ State.Sourced.refl
      snap_from := fun i e he => Or.inr (Or.inl (hsnap ▸ he))
      log_valid := hlog ▸ hh.log_valid
      snap_valid := hsnap ▸ hh.snap_valid
      snap_le := ?_
      snap_grows := by rw [hsnap]
      snap_commit := ?_
      tail_terms := ?_
      leader_snap := ?_ }
  · rw [hlog, hsnap]
    exact hh.snap_le
  · rw [hsnap]
    exact hh.snap_commit.trans hcommit
  · rw [hlog, hsnap]
    exact hh.tail_terms
  · rw [hlog, hsnap]
    exact hh.leader_snap

end TinyKV.Raft
