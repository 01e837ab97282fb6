import TinyKV.Model.Types

/-!
# What the store is for: a recency list

The purpose of `MemoryStore`, without its hash map, its linked list and the
iterators that tie the two together: a list of key, value and deadline, most
recently used first, each key at most once. Storing a key puts it at the
front, reading a live key moves it there, an entry whose deadline has passed
is gone, and a bounded store keeps the front of the list.
-/

namespace TinyKV

/-- Deadline `0` means none; a positive deadline has passed once the clock
shows it. -/
def StoreEntry.expired (entry : StoreEntry) (now : Int) : Bool :=
  decide (0 < entry.expireAtMs) && decide (entry.expireAtMs ≤ now)

namespace Recency

/-- The entry of a key. -/
def find (key : Str) (l : List StoreEntry) : Option StoreEntry :=
  l.find? fun entry => entry.key = key

def remove (key : Str) (l : List StoreEntry) : List StoreEntry :=
  l.filter fun entry => !decide (entry.key = key)

def purge (now : Int) (l : List StoreEntry) : List StoreEntry :=
  l.filter fun entry => !entry.expired now

/-- A bound of `0` is no bound. -/
def cap (maxKeys : Nat) (l : List StoreEntry) : List StoreEntry :=
  if maxKeys = 0 then l else l.take maxKeys

/-- Store at the front, forgetting what the key held before. -/
def push (entry : StoreEntry) (l : List StoreEntry) : List StoreEntry :=
  entry :: remove entry.key l

def put (maxKeys : Nat) (now : Int) (entry : StoreEntry) (l : List StoreEntry) :
    List StoreEntry :=
  cap maxKeys (purge now (push entry l))

/-- What a read of the key leaves behind, and the entry it found. -/
def read (now : Int) (key : Str) (l : List StoreEntry) :
    Option StoreEntry × List StoreEntry :=
  match find key l with
  | none => (none, l)
  | some entry =>
    if entry.expired now then (none, remove key l) else (some entry, push entry l)

/-- Give a live key a new deadline. -/
def expireAt (now : Int) (key : Str) (expireAtMs : Int) (l : List StoreEntry) :
    Bool × List StoreEntry :=
  match find key l with
  | none => (false, l)
  | some entry =>
    if entry.expired now then (false, remove key l)
    else (true, push { entry with expireAtMs := expireAtMs } l)

/-- An entry, unless its deadline has passed. -/
def live (now : Int) (x : Option StoreEntry) : Option StoreEntry :=
  x.filter fun entry => !entry.expired now

/-- The live entry of a key at an instant: what a client can see. -/
def visible (now : Int) (l : List StoreEntry) (key : Str) : Option StoreEntry :=
  live now (find key l)

/-- Each key at most once. -/
def Distinct (l : List StoreEntry) : Prop := (l.map StoreEntry.key).Nodup

/-! ## Deadlines pass once -/

variable {entry : StoreEntry} {now : Int} {key : Str} {l l' ref : List StoreEntry}

theorem expired_mono {later : Int} (hle : now ≤ later) (h : entry.expired now = true) :
    entry.expired later = true := by
  simp only [StoreEntry.expired, Bool.and_eq_true, decide_eq_true_iff] at h ⊢
  omega

@[simp] theorem live_none (now : Int) : live now none = none := rfl

theorem live_some (now : Int) (entry : StoreEntry) :
    live now (some entry) = if entry.expired now then none else some entry := by
  rw [live, Option.filter_some]
  cases entry.expired now <;> rfl

theorem live_eq_some {x : Option StoreEntry} :
    live now x = some entry ↔ x = some entry ∧ entry.expired now = false := by
  simp [live, Option.filter_eq_some_iff]

/-- Purging early shows nothing to a later reader. -/
theorem live_live {later : Int} (hle : now ≤ later) (x : Option StoreEntry) :
    live later (live now x) = live later x := by
  cases x with
  | none => rfl
  | some entry =>
    rw [live_some]
    split
    · next hx => rw [live_some, if_pos (expired_mono hle hx)]; rfl
    · rfl

/-! ## Lookup through the operations -/

theorem find_key (h : find key l = some entry) : entry.key = key := by
  have := List.find?_some h
  simpa using this

theorem find_mem (h : find key l = some entry) : entry ∈ l := List.mem_of_find?_eq_some h

theorem find_eq_none : find key l = none ↔ ∀ entry ∈ l, entry.key ≠ key := by
  simp [find, List.find?_eq_none]

theorem find_of_mem (hd : Distinct l) (h : entry ∈ l) : find entry.key l = some entry := by
  induction l with
  | nil => cases h
  | cons x xs ih =>
    simp only [Distinct, List.map_cons, List.nodup_cons] at hd
    rcases List.mem_cons.mp h with rfl | hmem
    · simp [find]
    · have hne : x.key ≠ entry.key := fun he =>
        hd.1 (he ▸ List.mem_map_of_mem (f := StoreEntry.key) hmem)
      have := ih hd.2 hmem
      simpa [find, hne] using this

/-- Lookup does not see the order. -/
theorem find_perm (hd : Distinct l) (hp : l.Perm l') (key : Str) : find key l = find key l' := by
  cases hf : find key l' with
  | none =>
    rw [find_eq_none] at hf ⊢
    exact fun e he => hf e (hp.mem_iff.mp he)
  | some e =>
    have := find_of_mem hd (hp.mem_iff.mpr (find_mem hf))
    rwa [find_key hf] at this

@[simp] theorem find_nil (key : Str) : find key [] = none := rfl

theorem find_cons (key : Str) (x : StoreEntry) (l : List StoreEntry) :
    find key (x :: l) = if x.key = key then some x else find key l := by
  simp only [find, List.find?_cons]
  split <;> simp_all

theorem find_filter (hd : Distinct l) (p : StoreEntry → Bool) :
    find key (l.filter p) = (find key l).filter p := by
  induction l with
  | nil => rfl
  | cons x xs ih =>
    simp only [Distinct, List.map_cons, List.nodup_cons] at hd
    have ih := ih hd.2
    rw [find_cons, List.filter_cons]
    by_cases hp : p x = true <;> by_cases hk : x.key = key
    · simp [hp, hk, find_cons, Option.filter_some]
    · simp [hp, hk, find_cons, ih]
    · have hnone : find key xs = none :=
        find_eq_none.mpr fun e he hek =>
          hd.1 (by rw [hk, ← hek]; exact List.mem_map_of_mem (f := StoreEntry.key) he)
      simp [hp, hk, ih, hnone, Option.filter_some]
    · simp [hp, hk, ih]

@[simp] theorem find_remove_self (key : Str) (l : List StoreEntry) :
    find key (remove key l) = none := by
  rw [find_eq_none]
  intro entry he
  simpa using (List.mem_filter.mp he).2

theorem find_remove_ne {other : Str} (h : key ≠ other) (l : List StoreEntry) :
    find key (remove other l) = find key l := by
  induction l with
  | nil => rfl
  | cons x xs ih =>
    simp only [remove, List.filter_cons] at ih ⊢
    by_cases hx : x.key = other
    · simp [hx, find_cons, ih, Ne.symm h]
    · by_cases hk : x.key = key
      · simp [find_cons, hk, h]
      · simp [hx, find_cons, hk, ih]

theorem find_push (key : Str) (entry : StoreEntry) (l : List StoreEntry) :
    find key (push entry l) = if entry.key = key then some entry else find key l := by
  rw [push, find_cons]
  by_cases h : entry.key = key
  · simp [h]
  · rw [if_neg h, if_neg h, find_remove_ne (Ne.symm h)]

theorem find_purge (hd : Distinct l) (now : Int) :
    find key (purge now l) = live now (find key l) := find_filter hd _

/-! ## Each key at most once, kept -/

theorem Distinct.filter (h : Distinct l) (p : StoreEntry → Bool) : Distinct (l.filter p) :=
  List.Nodup.sublist (List.Sublist.map _ List.filter_sublist) h

theorem Distinct.remove (h : Distinct l) (key : Str) :
    Distinct (remove key l) := h.filter _

theorem Distinct.push (h : Distinct l) (entry : StoreEntry) : Distinct (push entry l) := by
  simp only [Recency.push, Distinct, List.map_cons, List.nodup_cons]
  refine ⟨?_, h.remove entry.key⟩
  simp [Recency.remove]

theorem Distinct.cap (h : Distinct l) (maxKeys : Nat) : Distinct (cap maxKeys l) := by
  unfold Recency.cap
  split
  · exact h
  · exact List.Nodup.sublist (List.Sublist.map _ (List.take_sublist _ _)) h

theorem mem_of_mem_cap {maxKeys : Nat} (h : entry ∈ cap maxKeys l) : entry ∈ l := by
  unfold Recency.cap at h
  split at h
  · exact h
  · exact List.mem_of_mem_take h

theorem Distinct.put (h : Distinct l) (maxKeys : Nat) (now : Int) (entry : StoreEntry) :
    Distinct (put maxKeys now entry l) :=
  ((h.push entry).filter _).cap maxKeys

theorem Distinct.expireAt (h : Distinct l) (now : Int) (key : Str) (d : Int) :
    Distinct (expireAt now key d l).2 := by
  unfold Recency.expireAt
  split
  · exact h
  · split
    · exact h.remove key
    · exact h.push _

@[simp] theorem distinct_nil : Distinct [] := List.nodup_nil

/-- An unbounded store: a put rewrites its own key and purges the others. -/
theorem find_put_unbounded (hd : Distinct l) (now : Int) (key : Str) (entry : StoreEntry) :
    find key (put 0 now entry l) =
      live now (if entry.key = key then some entry else find key l) := by
  rw [put, cap, if_pos rfl, find_purge (hd.push entry), find_push]

/-! ## Without deadlines, and up to the order -/

theorem expired_of_zero (h : entry.expireAtMs = 0) (now : Int) : entry.expired now = false := by
  simp [StoreEntry.expired, h]

theorem purge_timeless (h : ∀ entry ∈ l, entry.expireAtMs = 0) (now : Int) : purge now l = l :=
  List.filter_eq_self.mpr fun _ he => by rw [expired_of_zero (h _ he)]; rfl

theorem remove_perm (h : l.Perm ref) (key : Str) :
    (remove key l).Perm (remove key ref) := h.filter _

theorem push_perm (h : l.Perm ref) (entry : StoreEntry) :
    (push entry l).Perm (push entry ref) := (remove_perm h entry.key).cons _

theorem keys_remove (key : Str) (l : List StoreEntry) :
    (remove key l).map StoreEntry.key =
      (l.map StoreEntry.key).filter fun k => !decide (k = key) := by
  rw [remove, List.filter_map]
  rfl

theorem perm_timeless (h : l.Perm ref) (hz : ∀ entry ∈ ref, entry.expireAtMs = 0) :
    ∀ entry ∈ l, entry.expireAtMs = 0 :=
  fun entry he => hz entry (h.mem_iff.mp he)

theorem push_timeless (hz : ∀ entry ∈ ref, entry.expireAtMs = 0) (key value : Str) :
    ∀ entry ∈ push ⟨key, value, 0⟩ ref, entry.expireAtMs = 0 := by
  intro entry he
  rcases List.mem_cons.mp he with rfl | he
  · rfl
  · exact hz entry (List.mem_of_mem_filter he)

/-! ## Lists nobody can tell apart any more -/

/-- The two lists differ in expired entries only. -/
def Alike (now : Int) (l l' : List StoreEntry) : Prop := purge now l = purge now l'

theorem Alike.refl (now : Int) (l : List StoreEntry) : Alike now l l := rfl

theorem Alike.symm (h : Alike now l l') : Alike now l' l :=
  Eq.symm h

theorem Alike.trans {l'' : List StoreEntry} (h : Alike now l l') (h' : Alike now l' l'') :
    Alike now l l'' := Eq.trans h h'

theorem purge_purge {later : Int} (hle : now ≤ later) (l : List StoreEntry) :
    purge later (purge now l) = purge later l := by
  rw [purge, purge, List.filter_filter]
  refine List.filter_congr fun entry _ => ?_
  cases hx : entry.expired now with
  | false => simp
  | true => simp [expired_mono hle hx]

theorem alike_purge (now : Int) (l : List StoreEntry) : Alike now (purge now l) l :=
  purge_purge (Int.le_refl now) l

theorem Alike.later {later : Int} (hle : now ≤ later) (h : Alike now l l') : Alike later l l' := by
  rw [Alike, ← purge_purge hle l, ← purge_purge hle l', h]

theorem purge_remove (now : Int) (key : Str) (l : List StoreEntry) :
    purge now (remove key l) = remove key (purge now l) := by
  rw [purge, remove, List.filter_filter, remove, purge, List.filter_filter]
  exact List.filter_congr fun entry _ => Bool.and_comm _ _

theorem Alike.remove (h : Alike now l l') (key : Str) :
    Alike now (Recency.remove key l) (Recency.remove key l') := by
  rw [Alike, purge_remove, purge_remove, h]

theorem Alike.push (h : Alike now l l') (entry : StoreEntry) :
    Alike now (Recency.push entry l) (Recency.push entry l') := by
  have hr : purge now (Recency.remove entry.key l) = purge now (Recency.remove entry.key l') :=
    h.remove entry.key
  simp only [Alike, purge, Recency.push, List.filter_cons] at hr ⊢
  rw [hr]

theorem Alike.live_find (h : Alike now l l') (hd : Distinct l) (hd' : Distinct l') (key : Str) :
    live now (find key l) = live now (find key l') := by
  rw [← find_purge hd, ← find_purge hd', h]

/-- Dropping a key that has expired makes no difference. -/
theorem alike_remove (hd : Distinct l) (h : live now (find key l) = none) :
    Alike now (remove key l) l := by
  rw [Alike, purge_remove, remove]
  refine List.filter_eq_self.mpr fun entry he => ?_
  rw [← find_purge hd] at h
  simpa using find_eq_none.mp h entry he

/-- A read, up to expired entries: a live key comes to the front. -/
theorem read_alike (now : Int) (hd : Distinct l) (key : Str) :
    Alike now (read now key l).2
      (match live now (find key l) with
        | none => l
        | some entry => push entry l) := by
  rw [read]
  cases hf : find key l with
  | none => exact Alike.refl now l
  | some entry =>
    cases hx : entry.expired now with
    | true =>
      have hn : live now (some entry) = none := by rw [live_some, if_pos hx]
      simp only [hx, if_true, hn]
      exact alike_remove hd (by rw [hf, hn])
    | false =>
      have hs : live now (some entry) = some entry := live_eq_some.mpr ⟨rfl, hx⟩
      simp only [hx, Bool.false_eq_true, if_false, hs]
      exact Alike.refl now _

/-- Moving a deadline, up to expired entries: it answers whether the key is
live, and only then changes anything. -/
theorem expireAt_alike (now : Int) (hd : Distinct l) (key : Str) (d : Int) :
    (expireAt now key d l).1 = (live now (find key l)).isSome ∧
      Alike now (expireAt now key d l).2
        (match live now (find key l) with
          | none => l
          | some entry => push { entry with expireAtMs := d } l) := by
  rw [expireAt]
  cases hf : find key l with
  | none => exact ⟨rfl, Alike.refl now l⟩
  | some entry =>
    cases hx : entry.expired now with
    | true =>
      have hn : live now (some entry) = none := by rw [live_some, if_pos hx]
      simp only [hx, if_true, hn]
      exact ⟨rfl, alike_remove hd (by rw [hf, hn])⟩
    | false =>
      have hs : live now (some entry) = some entry := live_eq_some.mpr ⟨rfl, hx⟩
      simp only [hx, Bool.false_eq_true, if_false, hs]
      exact ⟨rfl, Alike.refl now _⟩

end Recency

end TinyKV
