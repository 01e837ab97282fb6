import Mathlib.Data.Finset.Card
import Mathlib.Logic.Function.Iterate
import Mathlib.Order.Basic

/-!
# Ordered maps, read as a ring

A map is the list of its entries in the order of their keys. `emplace` keeps
the entry that is there, `lowerBound` is the first entry not below a key.

Read as a ring, the entry that follows a key is its lower bound or, past the
end, the first entry of the map. `Before k a b` is the order in which one
meets two keys on the way round from `k`, and `next` comes first in it.

The last section is about walks that descend in such an order.
-/

namespace TinyKV

structure OrderedMap (K V : Type) [LinearOrder K] where
  entries : List (K × V) := []
  sorted : entries.Pairwise (fun a b => a.1 < b.1) := by exact List.Pairwise.nil

namespace OrderedMap

variable {K V : Type} [LinearOrder K]

def insertNew (k : K) (v : V) : List (K × V) → List (K × V)
  | [] => [(k, v)]
  | e :: rest =>
    if k < e.1 then (k, v) :: e :: rest
    else if k = e.1 then e :: rest
    else e :: insertNew k v rest

variable {k : K} {v : V} {l es : List (K × V)} {e : K × V} {m : OrderedMap K V}

theorem eq_or_mem_of_mem_insertNew (h : e ∈ insertNew k v l) : e = (k, v) ∨ e ∈ l := by
  induction l with
  | nil => exact Or.inl (List.mem_singleton.mp h)
  | cons x rest ih =>
    rw [insertNew] at h
    split at h
    · exact List.mem_cons.mp h
    · split at h
      · exact Or.inr h
      · rcases List.mem_cons.mp h with rfl | h
        · exact Or.inr List.mem_cons_self
        · exact (ih h).imp_right (List.mem_cons_of_mem x)

theorem mem_insertNew_of_mem (h : e ∈ l) : e ∈ insertNew k v l := by
  induction l with
  | nil => cases h
  | cons x rest ih =>
    rw [insertNew]
    split
    · exact List.mem_cons_of_mem _ h
    · split
      · exact h
      · rcases List.mem_cons.mp h with rfl | h
        · exact List.mem_cons_self
        · exact List.mem_cons_of_mem x (ih h)

theorem exists_mem_insertNew (k : K) (v : V) (l : List (K × V)) :
    ∃ e ∈ insertNew k v l, e.1 = k := by
  induction l with
  | nil => exact ⟨(k, v), List.mem_cons_self, rfl⟩
  | cons x rest ih =>
    rw [insertNew]
    split
    · exact ⟨(k, v), List.mem_cons_self, rfl⟩
    · split
      · next hk => exact ⟨x, List.mem_cons_self, hk.symm⟩
      · obtain ⟨e, he, hek⟩ := ih
        exact ⟨e, List.mem_cons_of_mem x he, hek⟩

theorem pairwise_insertNew (k : K) (v : V) (h : l.Pairwise fun a b => a.1 < b.1) :
    (insertNew k v l).Pairwise fun a b => a.1 < b.1 := by
  induction l with
  | nil => exact List.pairwise_singleton _ _
  | cons x rest ih =>
    obtain ⟨hx, hrest⟩ := List.pairwise_cons.mp h
    rw [insertNew]
    split
    · next hlt =>
      refine List.pairwise_cons.mpr ⟨fun b hb => ?_, h⟩
      rcases List.mem_cons.mp hb with rfl | hb
      · exact hlt
      · exact lt_trans hlt (hx b hb)
    · split
      · exact h
      · next hlt hne =>
        refine List.pairwise_cons.mpr ⟨fun b hb => ?_, ih hrest⟩
        rcases eq_or_mem_of_mem_insertNew hb with rfl | hb
        · exact lt_of_le_of_ne (not_lt.mp hlt) (Ne.symm hne)
        · exact hx b hb

theorem key_injective (h : l.Pairwise fun a b => a.1 < b.1) {a b : K × V} (ha : a ∈ l) (hb : b ∈ l)
    (hk : a.1 = b.1) : a = b := by
  have hnodup : (l.map Prod.fst).Nodup :=
    List.pairwise_map.mpr (h.imp fun hlt => ne_of_lt hlt)
  exact List.inj_on_of_nodup_map hnodup ha hb hk

/-- `std::map::emplace`: nothing happens if the key is there. -/
def emplace (m : OrderedMap K V) (k : K) (v : V) : OrderedMap K V :=
  ⟨insertNew k v m.entries, pairwise_insertNew k v m.sorted⟩

def lowerBound (m : OrderedMap K V) (k : K) : Option (K × V) :=
  m.entries.find? fun e => k ≤ e.1

/-- The entry that follows a key on the ring. -/
def next (m : OrderedMap K V) (k : K) : Option (K × V) :=
  (m.lowerBound k).or m.entries.head?

/-- Entries put in one after the other. -/
def emplaceAll (m : OrderedMap K V) (es : List (K × V)) : OrderedMap K V :=
  es.foldl (fun m e => m.emplace e.1 e.2) m

theorem mem_of_mem_emplaceAll (h : e ∈ (m.emplaceAll es).entries) : e ∈ es ∨ e ∈ m.entries := by
  induction es generalizing m with
  | nil => exact Or.inr h
  | cons x es ih =>
    rcases ih h with h | h
    · exact Or.inl (List.mem_cons_of_mem x h)
    · rcases eq_or_mem_of_mem_insertNew h with rfl | h
      · exact Or.inl List.mem_cons_self
      · exact Or.inr h

theorem mem_emplaceAll_of_mem (h : e ∈ m.entries) (es : List (K × V)) :
    e ∈ (m.emplaceAll es).entries := by
  induction es generalizing m with
  | nil => exact h
  | cons x es ih => exact ih (mem_insertNew_of_mem h)

/-- Every key that was put in is there, if not with its own value. -/
theorem exists_mem_emplaceAll (m : OrderedMap K V) (h : e ∈ es) :
    ∃ e' ∈ (m.emplaceAll es).entries, e'.1 = e.1 := by
  induction es generalizing m with
  | nil => cases h
  | cons x es ih =>
    rcases List.mem_cons.mp h with rfl | h
    · obtain ⟨e', he', hk⟩ := exists_mem_insertNew e.1 e.2 m.entries
      exact ⟨e', mem_emplaceAll_of_mem (m := m.emplace e.1 e.2) he' es, hk⟩
    · exact ih _ h

theorem mem_insertNew_iff (h : l.Pairwise fun a b => a.1 < b.1) :
    e ∈ insertNew k v l ↔ e ∈ l ∨ e = (k, v) ∧ ∀ x ∈ l, x.1 ≠ k := by
  constructor
  · intro he
    rcases eq_or_mem_of_mem_insertNew he with rfl | hmem
    · -- an entry of this key in `l` stays, and keys are not repeated
      by_cases hfresh : ∀ x ∈ l, x.1 ≠ k
      · exact Or.inr ⟨rfl, hfresh⟩
      · push Not at hfresh
        obtain ⟨x, hx, hk⟩ := hfresh
        have hsame := key_injective (pairwise_insertNew k v h) he (mem_insertNew_of_mem hx) hk.symm
        exact Or.inl (hsame ▸ hx)
    · exact Or.inl hmem
  · rintro (hmem | ⟨rfl, hfresh⟩)
    · exact mem_insertNew_of_mem hmem
    · obtain ⟨x, hx, hk⟩ := exists_mem_insertNew k v l
      rcases eq_or_mem_of_mem_insertNew hx with rfl | hx'
      · exact hx
      · exact absurd hk (hfresh x hx')

/-- Of the entries put in under one key the first one stays. -/
theorem mem_emplaceAll_iff :
    e ∈ (m.emplaceAll es).entries ↔ e ∈ m.entries ∨
      (∀ x ∈ m.entries, x.1 ≠ e.1) ∧ es.find? (fun x => x.1 = e.1) = some e := by
  induction es generalizing m with
  | nil => simp [emplaceAll]
  | cons y es ih =>
    have hstep : m.emplaceAll (y :: es) = (m.emplace y.1 y.2).emplaceAll es := rfl
    have hmem : ∀ x, x ∈ (m.emplace y.1 y.2).entries ↔
        x ∈ m.entries ∨ x = y ∧ ∀ z ∈ m.entries, z.1 ≠ y.1 := fun x =>
      mem_insertNew_iff m.sorted
    rw [hstep, ih, hmem, List.find?_cons]
    by_cases hy : y.1 = e.1
    · -- after `y` the key is taken
      have htaken : ¬ ∀ x ∈ (m.emplace y.1 y.2).entries, x.1 ≠ e.1 := fun h => by
        obtain ⟨x, hx, hk⟩ := exists_mem_insertNew y.1 y.2 m.entries
        exact h x hx (hk.trans hy)
      rw [decide_eq_true hy]
      constructor
      · rintro ((h | ⟨rfl, hfresh⟩) | ⟨h, -⟩)
        · exact Or.inl h
        · exact Or.inr ⟨hfresh, rfl⟩
        · exact absurd h htaken
      · rintro (h | ⟨hfresh, hfirst⟩)
        · exact Or.inl (Or.inl h)
        · obtain rfl : y = e := Option.some.inj hfirst
          exact Or.inl (Or.inr ⟨rfl, hfresh⟩)
    · have hne : e ≠ y := fun h => hy (by rw [h])
      have hsame : (∀ x ∈ (m.emplace y.1 y.2).entries, x.1 ≠ e.1) ↔
          ∀ x ∈ m.entries, x.1 ≠ e.1 := by
        refine ⟨fun h x hx => h x ((hmem x).mpr (Or.inl hx)), fun h x hx => ?_⟩
        rcases (hmem x).mp hx with hx | ⟨rfl, -⟩
        · exact h x hx
        · exact hy
      simp only [hy, decide_false, hne, false_and, or_false, hsame]

/-- Where every key is put in with one value only, the order does not matter. -/
theorem mem_emplaceAll_of_functional (h : ∀ x ∈ es, ∀ y ∈ es, x.1 = y.1 → x = y) :
    e ∈ (({} : OrderedMap K V).emplaceAll es).entries ↔ e ∈ es := by
  constructor
  · intro he
    exact (mem_of_mem_emplaceAll he).resolve_right (by simp)
  · intro he
    obtain ⟨e', he', hk⟩ := exists_mem_emplaceAll ({} : OrderedMap K V) he
    have hes := (mem_of_mem_emplaceAll he').resolve_right (by simp)
    exact h e' hes e he hk ▸ he'

/-! ## The way round -/

/-- Going round from `k`, `a` is met before `b`. -/
def Before (k a b : K) : Prop := k ≤ a ∧ b < k ∨ (k ≤ a ↔ k ≤ b) ∧ a < b

theorem before_irrefl (k a : K) : ¬ Before k a a := by
  rintro (⟨h, h'⟩ | ⟨-, h⟩)
  · exact absurd h (not_le.mpr h')
  · exact lt_irrefl a h

theorem before_trans {a b c : K} (hab : Before k a b) (hbc : Before k b c) : Before k a c := by
  rcases hab with ⟨ha, hb⟩ | ⟨hiff, hlt⟩
  · rcases hbc with ⟨hb', -⟩ | ⟨hiff, -⟩
    · exact absurd hb' (not_le.mpr hb)
    · exact Or.inl ⟨ha, not_le.mp fun hc => not_le.mpr hb (hiff.mpr hc)⟩
  · rcases hbc with ⟨hb, hc⟩ | ⟨hiff', hlt'⟩
    · exact Or.inl ⟨hiff.mpr hb, hc⟩
    · exact Or.inr ⟨hiff.trans hiff', lt_trans hlt hlt'⟩

/-- A ring with an entry has a next one, and it comes before all others. -/
theorem next_spec (m : OrderedMap K V) (k : K) (hne : m.entries ≠ []) :
    ∃ o, m.next k = some o ∧ o ∈ m.entries ∧
      ∀ e ∈ m.entries, e = o ∨ Before k o.1 e.1 := by
  have hsorted := m.sorted
  cases hfind : m.lowerBound k with
  | some o =>
    obtain ⟨hk, front, back, hsplit, hfront⟩ := List.find?_eq_some_iff_append.mp hfind
    refine ⟨o, by rw [next, hfind]; rfl, by simp [hsplit], fun e he => ?_⟩
    have hk : k ≤ o.1 := of_decide_eq_true hk
    rw [hsplit] at he hsorted
    rcases List.mem_append.mp he with he | he
    · exact Or.inr (Or.inl ⟨hk, by simpa using hfront e he⟩)
    · rcases List.mem_cons.mp he with rfl | he
      · exact Or.inl rfl
      · have hlt := (List.pairwise_cons.mp (List.pairwise_append.mp hsorted).2.1).1 e he
        exact Or.inr (Or.inr ⟨iff_of_true hk (le_trans hk (le_of_lt hlt)), hlt⟩)
  | none =>
    -- everything lies below `k`, and the first entry is the least
    have hall : ∀ e ∈ m.entries, e.1 < k := fun e he => by
      simpa using List.find?_eq_none.mp hfind e he
    obtain ⟨o, rest, hcons⟩ := List.exists_cons_of_ne_nil hne
    refine ⟨o, by rw [next, hfind, hcons]; rfl, by simp [hcons], fun e he => ?_⟩
    have ho := hall o (by simp [hcons])
    have hek := hall e he
    rw [hcons] at he hsorted
    rcases List.mem_cons.mp he with rfl | he
    · exact Or.inl rfl
    · exact Or.inr (Or.inr ⟨iff_of_false (not_le.mpr ho) (not_le.mpr hek),
        (List.pairwise_cons.mp hsorted).1 e he⟩)

theorem before_asymm {a b : K} (hab : Before k a b) : ¬ Before k b a := fun hba =>
  before_irrefl k a (before_trans hab hba)

/-- The next entry is the one whose key is met first. -/
theorem next_eq_some_iff {o : K × V} :
    m.next k = some o ↔
      o ∈ m.entries ∧ ∀ e ∈ m.entries, e.1 = o.1 ∨ Before k o.1 e.1 := by
  constructor
  · intro h
    have hne : m.entries ≠ [] := fun hnil => by
      rw [next, lowerBound, hnil] at h
      cases h
    obtain ⟨o', hnext, ho', hfirst⟩ := next_spec m k hne
    obtain rfl : o' = o := Option.some.inj (hnext.symm.trans h)
    exact ⟨ho', fun e he => (hfirst e he).imp_left fun h => by rw [h]⟩
  · rintro ⟨ho, hfirst⟩
    obtain ⟨o', hnext, ho', hfirst'⟩ := next_spec m k (List.ne_nil_of_mem ho)
    rcases hfirst' o ho with rfl | hbefore
    · exact hnext
    · rcases hfirst o' ho' with hk | hbefore'
      · rw [hk] at hbefore
        exact absurd hbefore (before_irrefl k o.1)
      · exact absurd hbefore (before_asymm hbefore')

theorem next_eq_none_iff : m.next k = none ↔ m.entries = [] := by
  constructor
  · intro h
    by_contra hne
    obtain ⟨o, hnext, -⟩ := next_spec m k hne
    rw [hnext] at h
    cases h
  · intro hnil
    rw [next, lowerBound, hnil]
    rfl

/-- An entry that is met first is so on every ring that has it and has no
keys of its own. -/
theorem next_of_keys_subset {m' : OrderedMap K V} {o : K × V} (hnext : m.next k = some o)
    (ho : o ∈ m'.entries) (hkeys : ∀ e ∈ m'.entries, ∃ e' ∈ m.entries, e'.1 = e.1) :
    m'.next k = some o := by
  obtain ⟨-, hfirst⟩ := next_eq_some_iff.mp hnext
  refine next_eq_some_iff.mpr ⟨ho, fun e he => ?_⟩
  obtain ⟨e', he', hk⟩ := hkeys e he
  rw [← hk]
  exact hfirst e' he'

theorem next_congr {m' : OrderedMap K V} (h : ∀ e, e ∈ m.entries ↔ e ∈ m'.entries) (k : K) :
    m.next k = m'.next k := by
  refine Option.ext fun o => ?_
  simp only [next_eq_some_iff, h]

end OrderedMap

/-! ## Walks that descend -/

section Descent

variable {α : Type} {f : α → α} {r : α → α → Prop} {S : Finset α}

theorem iterate_mem (hS : ∀ x ∈ S, f x ∈ S) {x : α} (hx : x ∈ S) (k : Nat) : f^[k] x ∈ S := by
  induction k with
  | zero => exact hx
  | succ k ih =>
    rw [Function.iterate_succ_apply']
    exact hS _ ih

/-- As long as the walk does not stand still it descends. -/
theorem iterate_descends (htrans : ∀ x y z, r x y → r y z → r x z)
    (hS : ∀ x ∈ S, f x ∈ S) (hstep : ∀ x ∈ S, f x = x ∨ r (f x) x) {x : α} (hx : x ∈ S)
    {n : Nat} (hmoves : ∀ k < n, f (f^[k] x) ≠ f^[k] x) {i j : Nat} (hij : i < j)
    (hjn : j ≤ n) : r (f^[j] x) (f^[i] x) := by
  have one : ∀ k < n, r (f^[k + 1] x) (f^[k] x) := by
    intro k hk
    rw [Function.iterate_succ_apply']
    exact (hstep _ (iterate_mem hS hx k)).resolve_left (hmoves k hk)
  induction j with
  | zero => omega
  | succ j ih =>
    rcases Nat.lt_or_ge i j with hlt | hge
    · exact htrans _ _ _ (one j (by omega)) (ih hlt (by omega))
    · have hi : i = j := by omega
      subst hi
      exact one i (by omega)

/-- A walk that descends on a finite set stands still before it has made as
many steps as the set has elements. -/
theorem exists_fixed_of_descends (hirrefl : ∀ x, ¬ r x x)
    (htrans : ∀ x y z, r x y → r y z → r x z) (hS : ∀ x ∈ S, f x ∈ S)
    (hstep : ∀ x ∈ S, f x = x ∨ r (f x) x) {x : α} (hx : x ∈ S) :
    ∃ k < S.card, f (f^[k] x) = f^[k] x := by
  by_contra hno
  have hmoves : ∀ k < S.card, f (f^[k] x) ≠ f^[k] x := fun k hk h => hno ⟨k, hk, h⟩
  obtain ⟨i, hi, j, hj, hne, heq⟩ := Finset.exists_ne_map_eq_of_card_lt_of_maps_to
    (s := Finset.range (S.card + 1)) (t := S) (f := fun k => f^[k] x)
    (by rw [Finset.card_range]; omega) (fun k _ => iterate_mem hS hx k)
  rw [Finset.mem_range] at hi hj
  have descends : ∀ {i j : Nat}, i < j → j ≤ S.card → r (f^[j] x) (f^[i] x) := fun hij hjn =>
    iterate_descends htrans hS hstep hx hmoves hij hjn
  rcases Nat.lt_or_gt_of_ne hne with hlt | hlt
  · have h := descends hlt (by omega)
    rw [heq] at h
    exact hirrefl _ h
  · have h := descends hlt (by omega)
    rw [heq] at h
    exact hirrefl _ h

end Descent

end TinyKV
