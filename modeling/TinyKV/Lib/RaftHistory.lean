import TinyKV.Lib.Raft

/-!
# Leader completeness

What a quorum has acknowledged, every later leader starts with. The usual
induction on the term does not go through here: a node may take over entries
of a term later than its own, from a leader of its own term that has moved on
without telling. So the induction is on the order in which the elections were
won, and the votes remember how many that were.

`History` collects what is known about the past. It does not mention the logs
the nodes have now, so that almost no step of the machine touches it.
-/

namespace TinyKV.Raft

open Function Ballot

variable {N T E : Type} [LinearOrder T] [Termed E T]

structure History (s : State N T E) : Prop where
  unelected : ∀ t, (∀ r ∈ s.elections, r.term ≠ t) → s.tlog t = []
  /-- a leader's log starts with the one it was elected with, -/
  start : ∀ r ∈ s.elections, r.data <+: s.tlog r.term
  start_lt : ∀ r ∈ s.elections, ∀ e ∈ r.data, termOf e < r.term
  /-- and goes on with entries of its own -/
  written : ∀ r ∈ s.elections, ∀ i e, r.data.length ≤ i →
    (s.tlog r.term)[i]? = some e → termOf e = r.term
  start_valid : ∀ r ∈ s.elections, s.Valid r.data
  start_old : ∀ (i : Nat) (r : Election N T (List E)), s.elections[i]? = some r →
    ∀ e ∈ r.data, ∃ j < i, ∃ r' : Election N T (List E),
      s.elections[j]? = some r' ∧ r'.term = termOf e
  vote_valid : ∀ x ∈ s.votes, s.Valid x.data.1
  won : ∀ (i : Nat) (r : Election N T (List E)), s.elections[i]? = some r → ∀ v ∈ r.voters,
    ∃ x ∈ s.votes, x.voter = v ∧ x.term = r.term ∧ x.data.2 ≤ i ∧ AtLeast x.data.1 r.data
  ack_entry : ∀ v t i, (v, t, i) ∈ s.acks → ∃ e, (s.tlog t)[i]? = some e ∧ termOf e = t
  /-- a voter still had what it had acknowledged, unless it was lost already -/
  vote_kept : ∀ x ∈ s.votes, ∀ t i, (x.voter, t, i) ∈ s.acks → t < x.term →
    x.data.1[i]? = (s.tlog t)[i]? ∨ Against (s.elections.take x.data.2) t i

section Logs

variable {s : State N T E} (h : History s)
include h

variable {i : Nat} {e : E}

theorem History.elected {t : T} (he : (s.tlog t)[i]? = some e) : ∃ r ∈ s.elections, r.term = t := by
  by_contra hno
  have hnil := h.unelected t fun r hr hrt => hno ⟨r, hr, hrt⟩
  rw [hnil] at he
  simp at he

theorem History.start_get {r : Election N T (List E)} (hr : r ∈ s.elections)
    (hi : i < r.data.length) : r.data[i]? = (s.tlog r.term)[i]? := by
  rw [getElem?_mono (h.start r hr) (List.getElem?_eq_getElem hi), List.getElem?_eq_getElem hi]

/-- No entry is of a later term than the log it is written in. -/
theorem History.term_le {t : T} (he : (s.tlog t)[i]? = some e) : termOf e ≤ t := by
  obtain ⟨r, hr, rfl⟩ := h.elected he
  rcases Nat.lt_or_ge i r.data.length with hi | hi
  · rw [← h.start_get hr hi] at he
    exact (h.start_lt r hr e (List.mem_of_getElem? he)).le
  · exact (h.written r hr i e hi he).le

/-- An entry of the leader's own term lies behind the log it started with. -/
theorem History.start_length_le {r : Election N T (List E)} (hr : r ∈ s.elections)
    (he : (s.tlog r.term)[i]? = some e) (ht : termOf e = r.term) : r.data.length ≤ i := by
  by_contra hlt
  rw [← h.start_get hr (by omega)] at he
  exact absurd ht (h.start_lt r hr e (List.mem_of_getElem? he)).ne

theorem History.valid_elected {xs : List E} (hc : s.Valid xs) (he : xs[i]? = some e) :
    ∃ r ∈ s.elections, r.term = termOf e :=
  h.elected ((hc.get he (le_refl i)).symm.trans he)

/-- Terms never decrease along a valid log. -/
theorem History.sorted {xs : List E} (hc : s.Valid xs) {j : Nat} (hij : i ≤ j) {a b : E}
    (ha : xs[i]? = some a) (hb : xs[j]? = some b) : termOf a ≤ termOf b :=
  h.term_le ((hc.get hb hij).symm.trans ha)

/-- The log of a term is valid itself. -/
theorem History.tlog_valid (t : T) : s.Valid (s.tlog t) := by
  intro j e he
  obtain ⟨r, hr, rfl⟩ := h.elected he
  rcases Nat.lt_or_ge j r.data.length with hj | hj
  · have hstart := h.start_get hr hj
    have htake : (s.tlog r.term).take (j + 1) = r.data.take (j + 1) := by
      obtain ⟨rest, hrest⟩ := h.start r hr
      rw [← hrest, List.take_append_of_le_length (by omega)]
    rw [htake]
    exact h.start_valid r hr j e (hstart.trans he)
  · rw [h.written r hr j e hj he]
    exact List.take_prefix _ _

end Logs

/-! ## The induction -/

section Complete

variable {s : State N T E} {Quorum : Set N → Prop}
  (hmeet : ∀ A B, Quorum A → Quorum B → ∃ v, v ∈ A ∧ v ∈ B)

variable {t : T} {i j : Nat} {q : Set N} {xs : List E}

include hmeet in
theorem History.committed_entry (h : History s) (hc : s.Committed Quorum t i q) :
    ∃ e, (s.tlog t)[i]? = some e ∧ termOf e = t := by
  obtain ⟨v, hv, -⟩ := hmeet q q hc.quorum hc.quorum
  exact h.ack_entry v t i (hc.acked v hv)

include hmeet in
/-- A log that a quorum found at least as good as its own has everything that
is committed, if all leaders before have. -/
theorem History.complete_of_votes (h : History s) (hc : s.Committed Quorum t i q) {k : Nat}
    (ih : ∀ j < k, ∀ r : Election N T (List E), s.elections[j]? = some r → t < r.term →
      r.data[i]? = (s.tlog t)[i]?) {u : T} (htu : t < u) {voters : Set N} (hq : Quorum voters)
    (hvotes : ∀ v ∈ voters, ∃ x ∈ s.votes, x.voter = v ∧ x.term = u ∧ x.data.2 ≤ k ∧
      AtLeast x.data.1 xs) (hvalid : s.Valid xs)
    (hold : ∀ e ∈ xs, ∃ j < k, ∃ r' : Election N T (List E),
      s.elections[j]? = some r' ∧ r'.term = termOf e) : xs[i]? = (s.tlog t)[i]? := by
  obtain ⟨e, he, hte⟩ := h.committed_entry hmeet hc
  -- a voter that had acknowledged the entry still had it when it voted
  obtain ⟨v, hvq, hvv⟩ := hmeet q voters hc.quorum hq
  obtain ⟨x, hx, rfl, rfl, hseen, hless⟩ := hvotes v hvv
  have hlog : x.data.1[i]? = some e := by
    rcases h.vote_kept x hx t i (hc.acked _ hvq) htu with hkept | ⟨r, hr, hlt, hno⟩
    · rw [hkept, he]
    · obtain ⟨j, hj⟩ := List.mem_iff_getElem?.mp hr
      rw [List.getElem?_take] at hj
      split at hj
      · next hjs =>
        have hre := ih j (by omega) r hj hlt
        exact absurd hte (hno i e (le_refl i) (hre.trans he))
      · cases hj
  have hi := (List.getElem?_eq_some_iff.mp hlog).1
  -- compare the last entries
  obtain ⟨z, hz⟩ : ∃ z, x.data.1.getLast? = some z := by
    cases hl : x.data.1.getLast? with
    | none =>
      rw [List.getLast?_eq_none_iff.mp hl] at hi
      simp at hi
    | some z => exact ⟨z, rfl⟩
  have htz : t ≤ termOf z := by
    rw [List.getLast?_eq_getElem?] at hz
    exact hte ▸ h.sorted (h.vote_valid x hx) (by omega) hlog hz
  obtain ⟨y, hy, hzy⟩ := hless z hz
  have hy : xs.getLast? = some y := hy
  rw [List.getLast?_eq_getElem?] at hy
  have hlen := (List.getElem?_eq_some_iff.mp hy).1
  rcases lt_or_eq_of_le (show t ≤ termOf y from htz.trans (by
    rcases hzy with hlt | ⟨heq, -⟩
    · exact hlt.le
    · exact heq.le)) with hty | hty
  · -- the last entry is of a later leader, which had the entry from the start
    obtain ⟨j, hj, r, hr, hry⟩ := hold y (List.mem_of_getElem? hy)
    have hre := (ih j hj r hr (hry ▸ hty)).trans he
    have hir := (List.getElem?_eq_some_iff.mp hre).1
    have hmem := List.mem_of_getElem? hr
    have hyr : (s.tlog r.term)[xs.length - 1]? = some y := by
      rw [hry, ← hvalid.get hy (le_refl _), hy]
    have hlast := h.start_length_le hmem hyr hry.symm
    rw [hvalid.get hy (show i ≤ xs.length - 1 by omega), ← hry, ← h.start_get hmem hir, hre, he]
  · -- the last entry is of the same term, and the log is long enough
    rcases hzy with hlt | ⟨-, hle⟩
    · exact absurd (htz.trans_lt hlt) (hty ▸ lt_irrefl t)
    · rw [hvalid.get hy (show i ≤ xs.length - 1 by omega), ← hty]

include hmeet in
/-- Leader completeness. -/
theorem History.complete (h : History s) (hb : Inv Quorum s.toState) (hc : s.Committed Quorum t i q)
    {r : Election N T (List E)} (hr : r ∈ s.elections) (htr : t < r.term) :
    r.data[i]? = (s.tlog t)[i]? := by
  obtain ⟨k, hk⟩ := List.mem_iff_getElem?.mp hr
  induction k using Nat.strongRecOn generalizing r with
  | ind k ih =>
    refine h.complete_of_votes hmeet hc (fun j hj r' hr' htr' => ?_) htr
      (hb.quorum r hr).1 (h.won k r hk) (h.start_valid r hr) (h.start_old k r hk)
    exact ih j hj (List.mem_of_getElem? hr') htr' hr'

/-! ## What is committed is settled -/

variable (h : History s) (hb : Inv Quorum s.toState) (hc : s.Committed Quorum t i q)
include hmeet h hb hc

/-- Every leader from then on has it. -/
theorem History.tlog_agree {u : T} (htu : t ≤ u) (hu : ∃ r ∈ s.elections, r.term = u) (hj : j ≤ i) :
    (s.tlog u)[j]? = (s.tlog t)[j]? := by
  rcases lt_or_eq_of_le htu with hlt | rfl
  · obtain ⟨r, hr, rfl⟩ := hu
    obtain ⟨e, he, hte⟩ := h.committed_entry hmeet hc
    have hre := (h.complete hmeet hb hc hr hlt).trans he
    have hget := getElem?_mono (h.start r hr) hre
    rw [(h.tlog_valid r.term).get hget hj, hte]
  · rfl

theorem History.not_against (hj : j ≤ i) : ¬ Against s.elections t j := by
  rintro ⟨r, hr, hlt, hno⟩
  obtain ⟨e, he, hte⟩ := h.committed_entry hmeet hc
  exact hno i e hj ((h.complete hmeet hb hc hr hlt).trans he) hte

theorem History.fine_agree {x : T} (hf : s.Fine xs x) (htx : t ≤ x) (hj : j ≤ i) {e : E}
    (he : xs[j]? = some e) : (s.tlog t)[j]? = some e := by
  rcases hf t htx j e he with hl | ha
  · exact hl
  · exact absurd ha (h.not_against hmeet hb hc hj)

omit hb in
/-- A valid log that has the committed entry has all before it. -/
theorem History.prefix_of_entry (hv : s.Valid xs) (hci : xs[i]? = (s.tlog t)[i]?) (hj : j ≤ i) :
    xs[j]? = (s.tlog t)[j]? := by
  obtain ⟨e, he, hte⟩ := h.committed_entry hmeet hc
  rw [hv.get (hci.trans he) hj, hte]

omit hc in
/-- There is one history of committed entries. -/
theorem History.chosen_le {d : List E} (hcc : s.Chosen Quorum xs) (hd : s.Chosen Quorum d)
    (hle : xs.length ≤ d.length) : xs <+: d := by
  obtain ⟨t, i, q, hc, hci, hct⟩ := hcc
  obtain ⟨u, k, p, hd, hdk, hdu⟩ := hd
  obtain ⟨e, he, -⟩ := h.committed_entry hmeet hc
  obtain ⟨e', he', -⟩ := h.committed_entry hmeet hd
  refine isPrefix_of_getElem? fun j hj => ?_
  have hcj : xs[j]? = (s.tlog t)[j]? := by
    rw [getElem?_mono hct (List.getElem?_eq_getElem hj), List.getElem?_eq_getElem hj]
  have hdj : d[j]? = (s.tlog u)[j]? := by
    have hj' : j < d.length := by omega
    rw [getElem?_mono hdu (List.getElem?_eq_getElem hj'), List.getElem?_eq_getElem hj']
  rw [hcj, hdj]
  rcases le_total t u with htu | hut
  · exact (h.tlog_agree hmeet hb hc htu (h.elected he') (by omega)).symm
  · exact h.tlog_agree hmeet hb hd hut (h.elected he) (by omega)

end Complete

/-- The log of a term contradicts no term up to its own. -/
theorem History.tlog_fine {s : State N T E} (h : History s) (u : T) : s.Fine (s.tlog u) u := by
  intro t htu j e he
  rcases lt_or_eq_of_le htu with hlt | rfl
  · obtain ⟨r, hr, rfl⟩ := h.elected he
    by_cases hown : ∃ i e', j ≤ i ∧ r.data[i]? = some e' ∧ termOf e' = t
    · obtain ⟨i, e', hji, he', ht⟩ := hown
      have hlen := (List.getElem?_eq_some_iff.mp he').1
      left
      rw [← ht, ← (h.start_valid r hr).get he' hji, h.start_get hr (by omega), he]
    · right
      exact ⟨r, hr, hlt, fun i e' hji he' ht => hown ⟨i, e', hji, he', ht⟩⟩
  · exact Or.inl he

end TinyKV.Raft
