import Mathlib.Data.List.Perm.Basic

/-!
# Threads in a list

Threads in states of their own, one of which moves at a time: the list of the
states is updated at one index. What all of them hold together, and any
weight summed over them, then changes by what the moved thread held before
and holds now.
-/

namespace TinyKV.Threads

open scoped List

variable {α β : Type}

variable {ts : List α} {i : Nat} {t : α}

/-- What the threads hold: what one of them holds and a rest, which stays when
that one moves. -/
theorem flatMap_split (h : ts[i]? = some t) (f : α → List β) :
    ∃ rest, ts.flatMap f ~ f t ++ rest ∧ ∀ t', (ts.set i t').flatMap f ~ f t' ++ rest := by
  induction ts generalizing i with
  | nil => simp at h
  | cons u ts ih =>
    cases i with
    | zero =>
      simp only [List.getElem?_cons_zero, Option.some.injEq] at h
      subst h
      exact ⟨ts.flatMap f, List.Perm.refl _, fun _ => List.Perm.refl _⟩
    | succ i =>
      obtain ⟨rest, hrest, hset⟩ := ih (by simpa using h)
      refine ⟨f u ++ rest, ?_, fun t' => ?_⟩
      · exact (hrest.append_left _).trans (List.perm_append_comm_assoc ..)
      · exact ((hset t').append_left _).trans (List.perm_append_comm_assoc ..)

/-- What the threads hold after one has moved. -/
theorem flatMap_set_perm (h : ts[i]? = some t) (t' : α) (f : α → List β) :
    f t ++ (ts.set i t').flatMap f ~ f t' ++ ts.flatMap f := by
  obtain ⟨rest, hrest, hset⟩ := flatMap_split h f
  calc f t ++ (ts.set i t').flatMap f
    _ ~ f t ++ (f t' ++ rest) := (hset t').append_left _
    _ ~ f t' ++ (f t ++ rest) := List.perm_append_comm_assoc ..
    _ ~ f t' ++ ts.flatMap f := hrest.symm.append_left _

/-- A weight summed over the threads: as many tokens as they hold together. -/
def total (w : α → Nat) (ts : List α) : Nat :=
  (ts.flatMap fun t => List.replicate (w t) ()).length

@[simp] theorem total_cons (w : α → Nat) (t : α) (ts : List α) :
    total w (t :: ts) = w t + total w ts := by
  simp [total]

theorem total_set (h : ts[i]? = some t) (t' : α) (w : α → Nat) :
    total w (ts.set i t') + w t = total w ts + w t' := by
  have hlen := (flatMap_set_perm h t' fun t => List.replicate (w t) ()).length_eq
  simp only [List.length_append, List.length_replicate] at hlen
  rw [total, total]
  omega

theorem total_map_le (w : α → Nat) (g : α → α) (hg : ∀ t, w (g t) ≤ w t + 1) (ts : List α) :
    total w (ts.map g) ≤ total w ts + ts.length := by
  induction ts with
  | nil => exact Nat.le_refl _
  | cons t ts ih =>
    have := hg t
    simp only [List.map_cons, total_cons, List.length_cons]
    omega

theorem total_eq_zero {w : α → Nat} (h : ∀ t ∈ ts, w t = 0) : total w ts = 0 := by
  rw [total, List.length_eq_zero_iff, List.flatMap_eq_nil_iff]
  intro t ht
  rw [h t ht, List.replicate_zero]

end TinyKV.Threads
