import TinyKV.Lib.RaftLocal

/-!
# Every step keeps the invariant

Elections and writes are in `RaftSafety`. What is left are the steps of one
node, and for each of them `Local` says what to look at: where a new log comes
from, and why the node is right about what it takes for committed. `Inv.step`
puts all steps together.
-/

namespace TinyKV.Raft

open Function Ballot

theorem take_congr {E : Type} {a b : List E} {k : Nat} (h : ∀ j < k, a[j]? = b[j]?) :
    a.take k = b.take k := by
  refine List.ext_getElem? fun j => ?_
  rw [List.getElem?_take, List.getElem?_take]
  split
  · next hj => exact h j hj
  · rfl

theorem getElem?_of_take {E : Type} {a b : List E} {k : Nat} (h : a.take k = b.take k) {j : Nat}
    (hj : j < k) : a[j]? = b[j]? := by
  have := congrArg (·[j]?) h
  simpa [List.getElem?_take, hj] using this

variable {N T E : Type} [LinearOrder T] [Termed E T] {Quorum : Set N → Prop} {strict : Prop}
  {s : State N T E} {v n : N} {u : T} {i k c : Nat} {q : Set N}

section Committed

variable (hmeet : ∀ A B, Quorum A → Quorum B → ∃ v, v ∈ A ∧ v ∈ B) (h : Inv Quorum strict s)
include hmeet h

theorem Inv.committed_lt (hc : s.Committed Quorum u i q) : i < (s.tlog u).length := by
  obtain ⟨e, he, -⟩ := h.history.committed_entry hmeet hc
  exact (List.getElem?_eq_some_iff.mp he).1

/-- Whoever led a term still has what was committed in it. -/
theorem Inv.led_keeps (hl : s.Led n u) (hc : s.Committed Quorum u i q) :
    (s.log n).take (i + 1) = (s.tlog u).take (i + 1) := by
  obtain ⟨e, he, hte⟩ := h.history.committed_entry hmeet hc
  have hown := h.info.own_ack n u i e hl he hte
  have hkept := ((h.holds n).kept u i hown).resolve_right
    (h.history.not_against hmeet h.ballot hc (le_refl i))
  exact take_congr fun j hj =>
    h.history.prefix_of_entry hmeet hc (h.holds n).log_valid hkept (by omega)

theorem Inv.vouched_of (hc : s.Committed Quorum u i q) (hu : u ≤ s.term v) (hk : k ≤ i + 1)
    {log : List E} (hlog : log.take k = (s.tlog u).take k) :
    s.Vouched Quorum strict v log k := by
  have hlen := h.committed_lt hmeet hc
  refine ⟨(s.tlog u).take k, ?_, Or.inl ⟨⟨u, i, q, hc, ?_, List.take_prefix _ _, hu⟩, ?_⟩⟩
  · rw [List.length_take]
    omega
  · rw [List.length_take]
    omega
  · rw [← hlog]
    exact List.take_prefix _ _

end Committed

/-! ## Compaction -/

section Behind

variable (hmeet : ∀ A B, Quorum A → Quorum B → ∃ v, v ∈ A ∧ v ∈ B) (h : Inv Quorum strict s)
include hmeet h

/-- Something committed ends in a term later than any the node led. -/
theorem Inv.behind_last {p : List E} (hp : s.Chosen Quorum p) (hb : s.Behind Quorum n p.length)
    {y : T} (hy : s.Led n y) {e : E} (he : e ∈ p.getLast?) : y < termOf e := by
  obtain ⟨u, i, q, hc, hi, -, hlt⟩ := hb
  obtain ⟨x, hx, hxu⟩ := h.history.committed_entry hmeet hc
  have hlen := h.committed_lt hmeet hc
  have hchosen : s.Chosen Quorum ((s.tlog u).take (i + 1)) := by
    refine ⟨u, i, q, hc, ?_, List.take_prefix _ _⟩
    rw [List.length_take]
    omega
  have hle := h.history.chosen_le hmeet h.ballot hchosen hp (by rw [List.length_take]; omega)
  have hpi : p[i]? = some x := by
    refine getElem?_mono hle ?_
    rw [List.getElem?_take, if_pos (by omega)]
    exact hx
  obtain ⟨t, j, q', -, -, hpt⟩ := hp
  have he : p[p.length - 1]? = some e := List.getLast?_eq_getElem? ▸ he
  have hle := h.history.sorted ((h.history.tlog_valid t).sub hpt) (show i ≤ p.length - 1 by omega)
    hpi he
  exact (hlt y hy).trans_le (hxu ▸ hle)

theorem Inv.compacted [DecidableEq N] (hbase : (s.snap n).length < k) (hcommit : k ≤ s.commit n)
    (hlog : k ≤ (s.log n).length) : Inv Quorum strict (s.compacted n k) := by
  have hh := h.holds n
  have hlen : ((s.log n).take k).length = k := by
    rw [List.length_take]
    omega
  have hsnap : (s.compacted n k).snap n = (s.log n).take k := update_self _ _ _
  have hl : Local s (s.compacted n k) n := by
    refine
      { ballot := rfl
        tlog := rfl
        acks := Set.Subset.rfl
        msgs := Set.Subset.rfl
        others := fun m hm => ⟨rfl, update_of_ne hm _ _, rfl⟩
        new_ack := fun m x i ha => Or.inl ha
        standing := fun _ => rfl
        log_from := State.Sourced.refl
        snap_from := fun i e he => ?_
        log_valid := hh.log_valid
        snap_valid := ?_
        snap_le := ?_
        snap_grows := ?_
        snap_commit := ?_
        tail_terms := fun i e hi he => ?_
        leader_snap := fun _ => ?_ }
    · rw [hsnap] at he
      exact Or.inl (getElem?_mono (List.take_prefix _ _) he)
    · rw [hsnap]
      exact hh.log_valid.sub (List.take_prefix _ _)
    · rw [hsnap, hlen]
      exact hlog
    · rw [hsnap, hlen]
      exact hbase.le
    · rw [hsnap, hlen]
      exact hcommit
    · rw [hsnap, hlen] at hi
      exact hh.tail_terms i e (by omega) he
    · rw [hsnap]
      exact List.take_prefix _ _
  refine hl.inv h hmeet ⟨Or.inr ?_, fun k' h1 h2 => hl.vouched hmeet h h1 h2,
    fun hr => ((h.claims n).leader_commit hr).imp_right ?_⟩ fun m hm => Or.inl hm
  swap
  · rintro ⟨x, j, q', hq, hx, hle⟩
    exact ⟨x, j, q', hl.grows.committed hq, hx, hle⟩
  rw [hsnap, hlen]
  obtain ⟨p, hpk, hp⟩ := (h.claims n).commit_ok k hbase hcommit
  -- either the snapshot is what is committed, or the node is behind
  have heq : p <+: s.log n → (s.log n).take k = p := by
    intro hpl
    rw [← hpk]
    exact (List.prefix_iff_eq_take.mp hpl).symm
  have hlearned : s.Learned Quorum n p := by
    rcases hp with ⟨hr, -⟩ | ⟨-, hle, -⟩
    · exact hr.learned
    · exact hle
  refine ⟨p, hpk, (hl.kin n).learned hlearned, ?_, ?_⟩
  · by_cases hpl : p <+: s.log n
    · exact Or.inl (heq hpl)
    · exact Or.inr hpl
  · rcases hp with ⟨-, hpl⟩ | ⟨hns, -, hb⟩
    · exact Or.inl (heq hpl)
    · rw [← hpk] at hb
      exact Or.inr ⟨hns, fun y hy e he => h.behind_last hmeet hlearned.chosen hb hy he⟩

end Behind

/-! ## Leaders and those who were -/

section Leaders

/-- The commit index of a node is covered by something committed. -/
theorem Inv.commit_covered (h : Inv Quorum strict s)
    (hstrict : strict → s.role n = .leader ∧ s.term n = u) (hc : c ≤ s.commit n) :
    c = 0 ∨ ∃ x i q, s.Committed Quorum x i q ∧ c ≤ i + 1 ∧ (strict → x ≤ u) := by
  by_cases hs : strict
  · obtain ⟨hr, ht⟩ := hstrict hs
    rcases (h.claims n).leader_commit hr with h0 | ⟨x, i, q, hq, hx, hle⟩
    · exact Or.inl (by omega)
    · exact Or.inr ⟨x, i, q, hq, hc.trans hle, fun _ => ht ▸ hx⟩
  · have hcover : ∀ p : List E, s.Learned Quorum n p → c ≤ p.length →
        ∃ x i q, s.Committed Quorum x i q ∧ c ≤ i + 1 ∧ (strict → x ≤ u) := by
      rintro p ⟨x, i, q, hq, hlen, -⟩ hcp
      exact ⟨x, i, q, hq, hcp.trans hlen, fun hst => absurd hst hs⟩
    rcases Nat.lt_or_ge (s.snap n).length c with hlt | hge
    · obtain ⟨p, hlen, ⟨hr, -⟩ | ⟨-, hl, -⟩⟩ := (h.claims n).commit_ok c hlt hc
      · exact Or.inr (hcover p hr.learned hlen.ge)
      · exact Or.inr (hcover p hl hlen.ge)
    · rcases (h.claims n).snap_ok with hnil | ⟨p, hlen, hl, -⟩
      · rw [hnil] at hge
        exact Or.inl (Nat.le_zero.mp hge)
      · exact Or.inr (hcover p hl (by omega))

variable (hmeet : ∀ A B, Quorum A → Quorum B → ∃ v, v ∈ A ∧ v ∈ B) (h : Inv Quorum strict s)
include hmeet h

theorem Inv.sendSnapshot (hled : s.Led n u) :
    Inv Quorum strict (s.send (.snapshot u (s.snap n))) := by
  have hl : Local s (s.send (.snapshot u (s.snap n))) n :=
    h.local_of_eq rfl rfl rfl (Set.subset_insert _ _) rfl rfl (le_refl _) fun _ _ => rfl
  have hcl : (s.send (.snapshot u (s.snap n))).Claims Quorum strict n := by
    refine hl.claims hmeet h rfl (Or.inr rfl) (fun k _ h2 h3 => ?_) fun hr => ?_
    · exact absurd h3 (Nat.not_le.mpr h2)
    · exact (h.claims n).leader_commit hr
  refine hl.inv h hmeet hcl fun m hm => ?_
  rcases Set.mem_insert_iff.mp hm with rfl | hm
  · refine Or.inr ⟨hl.grows.fine ((h.holds n).fine_snap u hled),
      hl.grows.valid (h.holds n).snap_valid, ?_⟩
    rcases (h.claims n).snap_ok with hnil | ⟨p, hlen, hlearned, -, hlast⟩
    · exact Or.inl hnil
    · refine Or.inr ⟨p, hlen, hl.grows.chosen hlearned.chosen, hlast.imp_right ?_⟩
      rintro ⟨hns, hy⟩
      exact ⟨hns, hy u hled⟩
  · exact Or.inl hm

theorem Inv.commitOwn [DecidableEq N] (hled : s.Led n u) (hq : s.Committed Quorum u i q)
    (hc : c ≤ max (s.commit n) (i + 1)) (hstrict : strict → s.role n = .leader ∧ s.term n = u) :
    Inv Quorum strict ((s.settle n (s.log n) (i + 1)).send (.tail u (s.log n) c)) := by
  have hkeeps := h.led_keeps hmeet hled hq
  have hle := h.ballot.led_le n u hled
  have hcommit : ((s.settle n (s.log n) (i + 1)).send (.tail u (s.log n) c)).commit n =
      max (s.commit n) (i + 1) := update_self _ _ _
  have hlog : ((s.settle n (s.log n) (i + 1)).send (.tail u (s.log n) c)).log n = s.log n :=
    update_self _ _ _
  have hl : Local s ((s.settle n (s.log n) (i + 1)).send (.tail u (s.log n) c)) n := by
    refine h.local_of_eq rfl rfl rfl (Set.subset_insert _ _) (update_eq_self _ _) rfl ?_ ?_
    · rw [hcommit]
      exact le_max_left _ _
    · exact fun m hm => update_of_ne hm _ _
  refine hl.inv h hmeet (hl.claims hmeet h rfl (Or.inr (by rw [hlog])) (fun k _ h2 h3 => ?_)
    fun hr => ?_) fun m hm => ?_
  · rw [hcommit] at h3
    have hk : k ≤ i + 1 := by omega
    rw [hlog]
    refine (hl.kin n).vouched (h.vouched_of hmeet hq hle hk ?_) fun p _ _ hp => hp
    exact take_congr fun j hj => getElem?_of_take hkeeps (by omega)
  · rw [hcommit]
    right
    rcases Nat.le_total (s.commit n) (i + 1) with hmax | hmax
    · rw [max_eq_right hmax]
      exact ⟨u, i, q, hq, hle, le_refl _⟩
    · rw [max_eq_left hmax]
      rcases (h.claims n).leader_commit hr with h0 | hex
      · omega
      · exact hex
  · rcases Set.mem_insert_iff.mp hm with rfl | hm
    · refine Or.inr ⟨hl.grows.fine ((h.holds n).fine_log u hled),
        hl.grows.valid (h.holds n).log_valid, ⟨i, q, hl.grows.committed hq, hkeeps⟩, ?_⟩
      have hown : c ≤ i + 1 → ∃ x j p, s.Committed Quorum x j p ∧ c ≤ j + 1 ∧
          (strict → x ≤ u) := fun hci => ⟨u, i, q, hq, hci, fun _ => le_refl u⟩
      obtain ⟨x, j, p, hp, hcj, hx⟩ : ∃ x j p, s.Committed Quorum x j p ∧ c ≤ j + 1 ∧
          (strict → x ≤ u) := by
        rcases Nat.lt_or_ge (i + 1) c with hci | hci
        swap
        · exact hown hci
        · rcases h.commit_covered hstrict (show c ≤ s.commit n by omega) with h0 | hex
          · exact hown (by omega)
          · exact hex
      refine ⟨x, j, p, hl.grows.committed hp, hcj, hx, ?_⟩
      rintro rfl
      exact h.led_keeps hmeet hled hp
    · exact Or.inl hm

end Leaders

/-! ## Followers -/

section Followers

variable [DecidableEq N]
  (hmeet : ∀ A B, Quorum A → Quorum B → ∃ v, v ∈ A ∧ v ∈ B) (h : Inv Quorum strict s)
include hmeet h

variable {log content : List E}

theorem Inv.recvBatch {upTo : Nat} (hm : .batch u upTo c ∈ s.msgs) (hv : s.Follows v u)
    (hlog : (s.log v).take upTo = (s.tlog u).take upTo ∧ log = s.log v ∨
      (s.log v).take upTo ≠ (s.tlog u).take upTo ∧ log = (s.tlog u).take upTo)
    (hbase : (s.snap v).length < upTo) (hfront : s.snap v <+: log ∨
      log.take (s.snap v).length = (s.log v).take (s.snap v).length) :
    Inv Quorum strict ((s.settle v log c).ack v u (upTo - 1)) := by
  have hh := h.holds v
  obtain ⟨hcu, ⟨e, he, hte⟩, hcover⟩ := h.msgs _ hm
  have hlen : upTo ≤ (s.tlog u).length := by
    have := (List.getElem?_eq_some_iff.mp he).1
    omega
  have htake : log.take upTo = (s.tlog u).take upTo := by
    rcases hlog with ⟨heq, rfl⟩ | ⟨-, rfl⟩
    · exact heq
    · rw [List.take_take, Nat.min_self]
  have hlogv : ((s.settle v log c).ack v u (upTo - 1)).log v = log := update_self _ _ _
  have hcommit : ((s.settle v log c).ack v u (upTo - 1)).commit v = max (s.commit v) c :=
    update_self _ _ _
  have hfine : s.Fine ((s.tlog u).take upTo) (s.term v) :=
    hv.term.symm ▸ (h.history.tlog_fine u).sub (List.take_prefix _ _)
  have hl : Local s ((s.settle v log c).ack v u (upTo - 1)) v := by
    refine
      { ballot := rfl
        tlog := rfl
        acks := Set.subset_insert _ _
        msgs := Set.Subset.rfl
        others := fun m hm => ⟨update_of_ne hm _ _, rfl, update_of_ne hm _ _⟩
        new_ack := fun m x j ha => ?_
        standing := fun hr => absurd hv.role hr
        log_from := ?_
        snap_from := fun j x hx => Or.inr (Or.inl hx)
        log_valid := ?_
        snap_valid := hh.snap_valid
        snap_le := ?_
        snap_grows := le_refl _
        snap_commit := ?_
        tail_terms := fun j x hj hx => ?_
        leader_snap := fun hr => ?_ }
    · rcases Set.mem_insert_iff.mp ha with heq | ha
      · obtain ⟨rfl, rfl, rfl⟩ : m = v ∧ x = u ∧ j = upTo - 1 := by
          simpa [Prod.ext_iff] using heq
        refine Or.inr ⟨rfl, hv.term.symm, ⟨e, he, hte⟩, ?_, Nat.le_sub_one_of_lt hbase⟩
        rw [hlogv]
        exact getElem?_of_take htake (by omega)
      · exact Or.inl ha
    · rw [hlogv]
      rcases hlog with ⟨-, rfl⟩ | ⟨hne, rfl⟩
      · exact State.Sourced.refl
      · refine ⟨fun j x hx => Or.inr (Or.inr ⟨_, hfine, hx⟩), fun j hj hjv => ?_⟩
        rw [List.length_take, Nat.min_eq_left hlen] at hj
        -- the logs differ somewhere in the batch
        obtain ⟨d, hd, hdiff⟩ : ∃ d < upTo, (s.log v)[d]? ≠ (s.tlog u)[d]? := by
          by_contra hno
          refine hne (take_congr fun d hd => ?_)
          by_contra hdiff
          exact hno ⟨d, hd, hdiff⟩
        have hdlen : d < (s.tlog u).length := by omega
        refine ⟨d, by omega, (s.tlog u).take upTo, (s.tlog u)[d], hfine, ?_, ?_⟩
        · rw [List.getElem?_take, if_pos hd, List.getElem?_eq_getElem]
        · rwa [List.getElem?_eq_getElem hdlen] at hdiff
    · rw [hlogv]
      rcases hlog with ⟨-, rfl⟩ | ⟨-, rfl⟩
      · exact hh.log_valid
      · exact (h.history.tlog_valid u).sub (List.take_prefix _ _)
    · rw [hlogv]
      rcases hlog with ⟨-, rfl⟩ | ⟨-, rfl⟩
      · exact hh.snap_le
      · rw [List.length_take]
        exact Nat.le_min.mpr ⟨hbase.le, hbase.le.trans hlen⟩
    · rw [hcommit]
      exact hh.snap_commit.trans (le_max_left _ _)
    · rw [hlogv] at hx
      rcases hlog with ⟨-, rfl⟩ | ⟨-, rfl⟩
      · exact hh.tail_terms j x hj hx
      · rw [hv.term]
        exact h.history.term_le (getElem?_mono (List.take_prefix _ _) hx)
    · rw [hv.role] at hr
      cases hr
  refine hl.inv h hmeet (hl.claims hmeet h rfl (by rw [hlogv]; exact hfront) (fun k _ h2 h3 => ?_)
    fun hr => ?_) fun m hm => Or.inl hm
  · rw [hcommit] at h3
    rcases hcover with h0 | ⟨x, j, p, hp, hx, hle⟩
    · omega
    · rw [hlogv]
      refine (hl.kin v).vouched (h.vouched_of hmeet hp (hv.term.symm ▸ hx) (by omega) ?_)
        fun p _ _ hp => hp
      refine take_congr fun d hd => ?_
      rw [getElem?_of_take htake (show d < upTo by omega)]
      exact h.history.tlog_agree hmeet h.ballot hp hx (h.history.elected he) (by omega)
  · rw [hv.role] at hr
    cases hr

theorem Inv.recvTail (hm : .tail u content c ∈ s.msgs) (hv : s.Follows v u)
    (hmatch : content <+: s.log v ∨ content = s.snap v) :
    Inv Quorum strict (s.settle v (s.log v) (min c (s.log v).length)) := by
  obtain ⟨-, -, ⟨i₀, q₀, hq₀, htake₀⟩, x, i, q, hq, hci, hstrict, htake⟩ := h.msgs _ hm
  have hcommit : (s.settle v (s.log v) (min c (s.log v).length)).commit v =
      max (s.commit v) (min c (s.log v).length) := update_self _ _ _
  have hlog : (s.settle v (s.log v) (min c (s.log v).length)).log v = s.log v := update_self _ _ _
  have hl : Local s (s.settle v (s.log v) (min c (s.log v).length)) v := by
    refine h.local_of_eq rfl rfl rfl Set.Subset.rfl (update_eq_self _ _) rfl ?_ ?_
    · rw [hcommit]
      exact le_max_left _ _
    · exact fun m hm => update_of_ne hm _ _
  -- the node has what the message has of a term up to its own
  have hshare : ∀ {k j : Nat} {p : Set N} {y : T}, s.Committed Quorum y j p → y ≤ u →
      content.take (j + 1) = (s.tlog y).take (j + 1) → k ≤ j + 1 → (s.snap v).length < k →
      s.Vouched Quorum strict v (s.log v) k := by
    intro k j p y hp hy hcy hk hsk
    have hlen : j + 1 ≤ content.length := by
      have h1 := congrArg List.length hcy
      have h2 := h.committed_lt hmeet hp
      rw [List.length_take, List.length_take] at h1
      omega
    refine h.vouched_of hmeet hp (hv.term.symm ▸ hy) hk (take_congr fun d hd => ?_)
    rw [← getElem?_of_take hcy (show d < j + 1 by omega)]
    rcases hmatch with hpre | heq
    · have hd' : d < content.length := by omega
      rw [List.getElem?_eq_getElem hd']
      exact getElem?_mono hpre (List.getElem?_eq_getElem hd')
    · rw [heq] at hlen
      omega
  refine hl.inv h hmeet (hl.claims hmeet h rfl (Or.inr (by rw [hlog])) (fun k h1 h2 h3 => ?_)
    fun hr => ?_) fun m hm => Or.inl hm
  · rw [hcommit] at h3
    rw [hlog]
    refine (hl.kin v).vouched ?_ fun p _ _ hp => hp
    rcases lt_trichotomy x u with hxu | rfl | hux
    · -- an entry of an earlier term lies before any of the leader's own
      have hagree := fun {d : Nat} (hd : d ≤ i) => h.history.tlog_agree hmeet h.ballot hq hxu.le
        (h.history.elected (h.history.committed_entry hmeet hq₀).choose_spec.1) hd
      have hii : i < i₀ := by
        obtain ⟨e, he, hte⟩ := h.history.committed_entry hmeet hq
        obtain ⟨e₀, he₀, hte₀⟩ := h.history.committed_entry hmeet hq₀
        by_contra hge
        have hle := h.history.sorted (h.history.tlog_valid u) (Nat.le_of_not_lt hge) he₀
          ((hagree (le_refl i)).trans he)
        rw [hte, hte₀] at hle
        exact absurd hxu (not_lt.mpr hle)
      refine hshare hq hxu.le (take_congr fun d hd => ?_) (by omega) h1
      rw [getElem?_of_take htake₀ (show d < i₀ + 1 by omega)]
      exact hagree (by omega)
    · exact hshare hq (le_refl x) (htake rfl) (by omega) h1
    · -- committed in a term to come
      rcases Nat.lt_or_ge (i₀ + 1) k with hk | hk
      · refine ⟨(s.tlog x).take k, ?_, Or.inr ⟨fun hs => absurd (hstrict hs) (not_le.mpr hux),
          ⟨x, i, q, hq, ?_, List.take_prefix _ _, fun hr => ?_⟩,
          u, i₀, q₀, hq₀, hk.le, hv.term.ge, fun y hy => ?_⟩⟩
        · have := h.committed_lt hmeet hq
          rw [List.length_take]
          omega
        · rw [List.length_take]
          omega
        · rw [hv.role] at hr
          cases hr
        · refine lt_of_le_of_ne (hv.term ▸ h.ballot.led_le v y hy) fun heq => hv.other ?_
          exact heq ▸ hy
      · exact hshare hq₀ (le_refl u) htake₀ hk h1
  · rw [hv.role] at hr
    cases hr

theorem Inv.cut {j : Nat} (hm : s.Offers u content) (hv : s.Follows v u) (hj : j < content.length)
    (hne : content[j]? ≠ (s.log v)[j]?) (hlog : j = (s.snap v).length ∧ log = s.snap v ∨
      (s.snap v).length < j ∧ log = (s.log v).take j) : Inv Quorum strict (s.setLog v log) := by
  have hh := h.holds v
  have hlogv : (s.setLog v log).log v = log := update_self _ _ _
  have hfine : s.Fine content (s.term v) := by
    rw [hv.term]
    rcases hm with ⟨upTo, c, -, rfl⟩ | ⟨c, hm⟩
    · exact (h.history.tlog_fine u).sub (List.take_prefix _ _)
    · exact (h.msgs _ hm).1
  have hl : Local s (s.setLog v log) v := by
    refine
      { ballot := rfl
        tlog := rfl
        acks := Set.Subset.rfl
        msgs := Set.Subset.rfl
        others := fun m hm => ⟨update_of_ne hm _ _, rfl, rfl⟩
        new_ack := fun m x i ha => Or.inl ha
        standing := fun hr => absurd hv.role hr
        log_from := ?_
        snap_from := fun i e he => Or.inr (Or.inl he)
        log_valid := ?_
        snap_valid := hh.snap_valid
        snap_le := ?_
        snap_grows := le_refl _
        snap_commit := hh.snap_commit
        tail_terms := fun i e hi he => ?_
        leader_snap := fun hr => ?_ }
    · rw [hlogv]
      refine ⟨fun i e he => ?_, fun i hi hiv => ?_⟩
      · rcases hlog with ⟨-, rfl⟩ | ⟨-, rfl⟩
        · exact Or.inr (Or.inl he)
        · exact Or.inl (getElem?_mono (List.take_prefix _ _) he)
      · have hji : j ≤ i := by
          rcases hlog with ⟨rfl, rfl⟩ | ⟨-, rfl⟩
          · exact hi
          · rw [List.length_take] at hi
            omega
        rw [List.getElem?_eq_getElem hj] at hne
        exact ⟨j, hji, content, content[j], hfine, List.getElem?_eq_getElem hj, hne.symm⟩
    · rw [hlogv]
      rcases hlog with ⟨-, rfl⟩ | ⟨-, rfl⟩
      · exact hh.snap_valid
      · exact hh.log_valid.sub (List.take_prefix _ _)
    · rw [hlogv]
      rcases hlog with ⟨-, rfl⟩ | ⟨hlt, rfl⟩
      · exact le_refl _
      · rw [List.length_take]
        exact Nat.le_min.mpr ⟨hlt.le, hh.snap_le⟩
    · rw [hlogv] at he
      have hi : (s.snap v).length ≤ i := hi
      rcases hlog with ⟨-, rfl⟩ | ⟨-, rfl⟩
      · exact absurd (List.getElem?_eq_some_iff.mp he).1 (Nat.not_lt.mpr hi)
      · exact hh.tail_terms i e hi (getElem?_mono (List.take_prefix _ _) he)
    · rw [hv.role] at hr
      cases hr
  refine hl.inv h hmeet (hl.claims hmeet h rfl ?_ (fun k _ h2 h3 => ?_) fun hr => ?_)
    fun m hm => Or.inl hm
  · rw [hlogv]
    rcases hlog with ⟨-, rfl⟩ | ⟨hlt, rfl⟩
    · exact Or.inl (List.prefix_refl _)
    · rw [List.take_take, Nat.min_eq_left hlt.le]
      exact Or.inr rfl
  · exact absurd h3 (Nat.not_le.mpr h2)
  · rw [hv.role] at hr
    cases hr

theorem Inv.installed (hm : .snapshot u content ∈ s.msgs) (hv : s.Follows v u)
    (hbase : (s.snap v).length < content.length)
    (hlog : (s.log v).length ≤ content.length ∧ log = content ∨
      content.length < (s.log v).length ∧ log = s.log v) :
    Inv Quorum strict (s.installed v content log) := by
  have hh := h.holds v
  obtain ⟨hfine, hvalid, hchosen⟩ := h.msgs _ hm
  rw [← hv.term] at hfine
  have hlogv : (s.installed v content log).log v = log := update_self _ _ _
  have hsnap : (s.installed v content log).snap v = content := update_self _ _ _
  have hcommit : (s.installed v content log).commit v = max (s.commit v) content.length :=
    update_self _ _ _
  have hl : Local s (s.installed v content log) v := by
    refine
      { ballot := rfl
        tlog := rfl
        acks := Set.Subset.rfl
        msgs := Set.Subset.rfl
        others := fun m hm => ⟨update_of_ne hm _ _, update_of_ne hm _ _, update_of_ne hm _ _⟩
        new_ack := fun m x i ha => Or.inl ha
        standing := fun hr => absurd hv.role hr
        log_from := ?_
        snap_from := fun i e he => Or.inr (Or.inr ⟨content, hfine, hsnap ▸ he⟩)
        log_valid := ?_
        snap_valid := by rw [hsnap]; exact hvalid
        snap_le := ?_
        snap_grows := ?_
        snap_commit := ?_
        tail_terms := fun i e hi he => ?_
        leader_snap := fun hr => ?_ }
    · rw [hlogv]
      rcases hlog with ⟨hle, rfl⟩ | ⟨-, rfl⟩
      · refine ⟨fun i e he => Or.inr (Or.inr ⟨_, hfine, he⟩), fun i hi hiv => ?_⟩
        exact absurd (hiv.trans_le hle) (Nat.not_lt.mpr hi)
      · exact State.Sourced.refl
    · rw [hlogv]
      rcases hlog with ⟨-, rfl⟩ | ⟨-, rfl⟩
      · exact hvalid
      · exact hh.log_valid
    · rw [hlogv, hsnap]
      rcases hlog with ⟨-, rfl⟩ | ⟨hlt, rfl⟩
      · exact le_refl _
      · exact hlt.le
    · rw [hsnap]
      exact hbase.le
    · rw [hsnap, hcommit]
      exact le_max_right _ _
    · rw [hsnap] at hi
      rw [hlogv] at he
      rcases hlog with ⟨-, rfl⟩ | ⟨-, rfl⟩
      · exact absurd (List.getElem?_eq_some_iff.mp he).1 (Nat.not_lt.mpr hi)
      · exact hh.tail_terms i e (hbase.le.trans hi) he
    · rw [hv.role] at hr
      cases hr
  refine hl.inv h hmeet ⟨Or.inr ?_, fun k h1 h2 => hl.vouched hmeet h h1 ?_, fun hr => ?_⟩
    fun m hm => Or.inl hm
  · rw [hsnap, hlogv]
    rcases hchosen with rfl | ⟨p, hlen, hp, hlast⟩
    · exact absurd hbase (Nat.not_lt_zero _)
    · obtain ⟨t, i, q, hc, hi, hpt⟩ := hp
      have hlearned : s.Learned Quorum v p := by
        refine ⟨t, i, q, hc, hi, hpt, fun hr => ?_⟩
        rw [hv.role] at hr
        cases hr
      refine ⟨p, hlen, (hl.kin v).learned hlearned, ?_, hlast.imp_right fun hlast =>
        ⟨hlast.1, fun y hy e he => ?_⟩⟩
      · refine or_iff_not_imp_left.mpr fun hne hpl => ?_
        obtain ⟨-, hlast⟩ := hlast.resolve_left hne
        rcases hlog with ⟨-, rfl⟩ | ⟨-, rfl⟩
        · exact hne (hpl.eq_of_length hlen).symm
        · -- the log has no entry of a later term than the node's behind the snapshot
          have hpos : p.length - 1 < p.length := by omega
          have hget : p.getLast? = some p[p.length - 1] := by
            rw [List.getLast?_eq_getElem?, List.getElem?_eq_getElem hpos]
          have hle := hh.tail_terms (p.length - 1) _ (by omega)
            (getElem?_mono hpl (List.getElem?_eq_getElem hpos))
          rw [hv.term] at hle
          exact absurd (hlast _ hget) (not_lt.mpr hle)
      · exact (hv.term ▸ h.ballot.led_le v y hy).trans_lt (hlast.2 e he)
  · rw [hsnap] at h1
    rw [hcommit] at h2
    omega
  · have hr : s.role v = .leader := hr
    rw [hv.role] at hr
    cases hr

end Followers

/-! ## The machine as a whole -/

section Machine

variable [DecidableEq N] {t : State N T E}
  (hmeet : ∀ A B, Quorum A → Quorum B → ∃ v, v ∈ A ∧ v ∈ B)
include hmeet

theorem Inv.step (h : Inv Quorum strict s) (hs : Step Quorum strict s t) :
    Inv Quorum strict t := by
  cases hs with
  | bump n u hu =>
    exact (ballotChange_bump s hu).inv h hmeet (h.ballot.step hmeet (.bump _ n u hu))
  | retire n => exact (ballotChange_retire s n).inv h hmeet (h.ballot.step hmeet (.retire _ n))
  | stand n u hu =>
    exact (ballotChange_stand s hu).inv h hmeet (h.ballot.step hmeet (.stand _ n u _ hu))
  | vote v c hfree hterm hlog =>
    exact (ballotChange_vote s v c hlog).inv h hmeet
      (h.ballot.step hmeet (.vote _ v c _ hfree hterm))
  | elect n voters hrole hquorum hvotes => exact h.elected hmeet hrole hquorum hvotes
  | write n e c hrole he hc => exact h.written hmeet hrole he hc
  | commitOwn n u i c q hled hq hc hstrict => exact h.commitOwn hmeet hled hq hc hstrict
  | sendSnapshot n u hled => exact h.sendSnapshot hmeet hled
  | compact n k hbase hcommit hlog => exact h.compacted hmeet hbase hcommit hlog
  | recvBatch v u upTo c log hm hv hlog hbase hfront =>
    exact h.recvBatch hmeet hm hv hlog hbase hfront
  | recvTail v u content c hm hv hmatch => exact h.recvTail hmeet hm hv hmatch
  | cut v u content log j hm hv hj hne hlog => exact h.cut hmeet hm hv hj hne hlog
  | install v u content log hm hv hbase hlog => exact h.installed hmeet hm hv hbase hlog

end Machine

end TinyKV.Raft
