import Mathlib.Data.List.Infix
import Mathlib.Data.Set.Insert
import TinyKV.Lib.Ballot

/-!
# Replicated logs over elections

A leader writes into the log of its term and offers it to the other nodes,
which take it over, acknowledge it, cut back what contradicts it, or replace
a prefix of their log by a snapshot. This file has the machine, in terms of
whole logs: `log n` is everything node `n` stands for, whether it still has
the entries or only a snapshot of them.

Two things make it wider than the textbook. A node keeps on sending in the
name of a term it once led, and what it sends then is its log or its
snapshot of *now*, so that a message of a term can carry entries of later
terms. And a snapshot may be installed in front of entries that do not
continue it: then `snap n` is not a prefix of `log n`.

The state remembers what the proofs ask about: the log a voter had when it
voted and how many elections had been won by then, the log each leader
started with, all acknowledgements, and `tlog t`, the log of the leader of
term `t` as far as it has been written.
-/

namespace TinyKV.Raft

open Function Ballot

/-- Log entries that carry the term they were written in. -/
class Termed (E : Type) (T : outParam Type) where
  termOf : E → T

export Termed (termOf)

/-- What a node sends in the name of a term. A batch stands for the log of
the term up to some length. -/
inductive Msg (T E : Type)
  | batch (term : T) (upTo : Nat) (commit : Nat)
  | tail (term : T) (log : List E) (commit : Nat)
  | snapshot (term : T) (log : List E)

/-- The data of a vote are the voter's log and the number of elections won
so far; the data of an election are the winner's log. -/
structure State (N T E : Type) extends Ballot.State N T (List E × Nat) (List E) where
  tlog : T → List E
  acks : Set (N × T × Nat)
  log : N → List E
  snap : N → List E
  commit : N → Nat
  msgs : Set (Msg T E)

variable {N T E : Type}

/-- A quorum has acknowledged the entry of term `t` at position `i`. -/
structure State.Committed (s : State N T E) (Quorum : Set N → Prop) (t : T) (i : Nat)
    (q : Set N) : Prop where
  quorum : Quorum q
  acked : ∀ v ∈ q, (v, t, i) ∈ s.acks

/-- `c` is part of what has been committed. -/
def State.Chosen (s : State N T E) (Quorum : Set N → Prop) (c : List E) : Prop :=
  ∃ t i q, s.Committed Quorum t i q ∧ c.length ≤ i + 1 ∧ c <+: s.tlog t

theorem getElem?_mono {a b : List E} (h : a <+: b) {i : Nat} {e : E} (he : a[i]? = some e) :
    b[i]? = some e := by
  obtain ⟨c, rfl⟩ := h
  rw [List.getElem?_append_left (List.getElem?_eq_some_iff.mp he).1, he]

theorem getElem?_concat {l : List E} {x y : E} {i : Nat} (h : (l ++ [x])[i]? = some y) :
    l[i]? = some y ∨ i = l.length ∧ y = x := by
  rcases Nat.lt_or_ge i l.length with hi | hi
  · rw [List.getElem?_append_left hi] at h
    exact Or.inl h
  · rw [List.getElem?_append_right hi] at h
    have hlen := (List.getElem?_eq_some_iff.mp h).1
    simp only [List.length_cons, List.length_nil] at hlen
    obtain rfl : i = l.length := by omega
    simp only [Nat.sub_self, List.getElem?_cons_zero, Option.some.injEq] at h
    exact Or.inr ⟨rfl, h.symm⟩

theorem isPrefix_of_getElem? {a b : List E} (h : ∀ i < a.length, a[i]? = b[i]?) : a <+: b := by
  rw [List.prefix_iff_eq_take]
  refine List.ext_getElem? fun i => ?_
  rw [List.getElem?_take]
  split
  · next hi => exact h i hi
  · exact List.getElem?_eq_none (by omega)

/-- What every step of the machine does to the past: it adds to it. -/
structure Grows [LE T] (s t : State N T E) : Prop where
  elections : s.elections <+: t.elections
  tlog : ∀ x, s.tlog x <+: t.tlog x
  acks : s.acks ⊆ t.acks
  votes : ∀ x ∈ s.votes, x ∈ t.votes
  msgs : s.msgs ⊆ t.msgs
  term : ∀ n, s.term n ≤ t.term n

namespace Grows

variable [LE T] {s t : State N T E} (h : Grows s t) {Quorum : Set N → Prop}
include h

theorem committed {u : T} {i : Nat} {q : Set N} (hc : s.Committed Quorum u i q) :
    t.Committed Quorum u i q := ⟨hc.quorum, fun v hv => h.acks (hc.acked v hv)⟩

theorem chosen {c : List E} (hc : s.Chosen Quorum c) : t.Chosen Quorum c := by
  obtain ⟨u, i, q, hq, hlen, hp⟩ := hc
  exact ⟨u, i, q, h.committed hq, hlen, hp.trans (h.tlog u)⟩

end Grows

/-! ## Valid logs -/

section Valid

variable [Termed E T]

/-- Each entry of `xs` brings the log of its own term with it. -/
def State.Valid (s : State N T E) (xs : List E) : Prop :=
  ∀ j e, xs[j]? = some e → xs.take (j + 1) <+: s.tlog (termOf e)

variable {s : State N T E} {xs : List E}

theorem State.Valid.get (hc : s.Valid xs) {i : Nat} {e : E} (he : xs[i]? = some e) {j : Nat}
    (hj : j ≤ i) : xs[j]? = (s.tlog (termOf e))[j]? := by
  have hi := (List.getElem?_eq_some_iff.mp he).1
  have hlt : j < (xs.take (i + 1)).length := by
    rw [List.length_take]
    omega
  have hget := getElem?_mono (hc i e he) (List.getElem?_eq_getElem hlt)
  rw [hget, List.getElem_take, List.getElem?_eq_getElem (by omega)]

theorem State.Valid.sub (hc : s.Valid xs) {d : List E} (hd : d <+: xs) : s.Valid d := by
  intro j e he
  have hj := (List.getElem?_eq_some_iff.mp he).1
  have htake : d.take (j + 1) = xs.take (j + 1) := by
    obtain ⟨rest, rfl⟩ := hd
    rw [List.take_append_of_le_length (by omega)]
  rw [htake]
  exact hc j e (getElem?_mono hd he)

/-- Two valid logs of one length agree if their last entries are of one term. -/
theorem State.Valid.eq_of_last (hx : s.Valid xs) {ys : List E} (hy : s.Valid ys)
    (hlen : xs.length = ys.length) (hlast : xs.getLast?.map termOf = ys.getLast?.map termOf) :
    xs = ys := by
  rw [List.getLast?_eq_getElem?, List.getLast?_eq_getElem?, hlen] at hlast
  cases hxl : xs[ys.length - 1]? with
  | none =>
    have hge := List.getElem?_eq_none_iff.mp hxl
    have hxs : xs = [] := List.length_eq_zero_iff.mp (by omega)
    have hys : ys = [] := List.length_eq_zero_iff.mp (by omega)
    rw [hxs, hys]
  | some x =>
    rw [hxl] at hlast
    obtain ⟨y, hyl, hterm⟩ := Option.map_eq_some_iff.mp hlast.symm
    have hpos := (List.getElem?_eq_some_iff.mp hyl).1
    have hpx := hx _ x hxl
    have hpy := hy _ y hyl
    rw [List.take_of_length_le (by omega)] at hpx hpy
    rw [hterm] at hpy
    exact (List.prefix_of_prefix_length_le hpx hpy hlen.le).eq_of_length hlen

end Valid

/-! ## Comparing logs -/

variable [LinearOrder T] [Termed E T]

/-- The order in which logs are compared in an election. -/
def AtLeast (a b : List E) : Prop :=
  ∀ x ∈ a.getLast?, ∃ y ∈ b.getLast?,
    termOf x < termOf y ∨ termOf x = termOf y ∧ a.length ≤ b.length

/-- Some later leader started without any entry of term `t` from position
`j` on, so that the log of `t` can no longer be completed there. -/
def Against (elections : List (Election N T (List E))) (t : T) (j : Nat) : Prop :=
  ∃ r ∈ elections, t < r.term ∧ ∀ i e, j ≤ i → r.data[i]? = some e → termOf e ≠ t

/-- Nothing in `xs` contradicts a log of a term up to `x` that might still be
completed. -/
def State.Fine (s : State N T E) (xs : List E) (x : T) : Prop :=
  ∀ t ≤ x, ∀ j e, xs[j]? = some e → (s.tlog t)[j]? = some e ∨ Against s.elections t j

theorem Against.mono {es es' : List (Election N T (List E))} {t : T} {j k : Nat}
    (h : Against es t j) (hsub : es ⊆ es') (hjk : j ≤ k) : Against es' t k := by
  obtain ⟨r, hr, hlt, hno⟩ := h
  exact ⟨r, hsub hr, hlt, fun i e hi => hno i e (hjk.trans hi)⟩

theorem State.Fine.mono {s : State N T E} {c : List E} {x y : T} (h : s.Fine c x)
    (hyx : y ≤ x) : s.Fine c y := fun t ht => h t (ht.trans hyx)

namespace Grows

variable {s t : State N T E} (h : Grows s t)
include h

theorem against {x : T} {j : Nat} (ha : Against s.elections x j) : Against t.elections x j :=
  ha.mono h.elections.subset (le_refl j)

theorem valid {c : List E} (hc : s.Valid c) : t.Valid c :=
  fun j e he => (hc j e he).trans (h.tlog _)

theorem fine {c : List E} {x : T} (hc : s.Fine c x) : t.Fine c x := by
  intro u hu j e he
  rcases hc u hu j e he with hl | ha
  · exact Or.inl (getElem?_mono (h.tlog u) hl)
  · exact Or.inr (h.against ha)

end Grows

end TinyKV.Raft
