import Mathlib.Data.List.DropRight

/-!
# Trimming both ends of a list

What is left of a list when the elements of a kind are taken away at its
front and at its back, and not in between.
-/

namespace TinyKV.Trim

variable {α : Type} {p : α → Bool} {l : List α} {a : α}

def trimBy (p : α → Bool) (l : List α) : List α := (l.dropWhile p).rdropWhile p

theorem dropWhile_trimBy (p : α → Bool) (l : List α) :
    (trimBy p l).dropWhile p = trimBy p l := by
  have hpre : trimBy p l <+: l.dropWhile p := List.rdropWhile_prefix p _
  have hnot := List.head?_dropWhile_not p l
  generalize trimBy p l = t at hpre ⊢
  cases t with
  | nil => rfl
  | cons c t =>
    obtain ⟨u, hu⟩ := hpre
    rw [← hu] at hnot
    exact List.dropWhile_cons_of_neg (by simpa using hnot)

theorem rdropWhile_trimBy (p : α → Bool) (l : List α) :
    (trimBy p l).rdropWhile p = trimBy p l := List.rdropWhile_idempotent p _

theorem trimBy_trimBy (p : α → Bool) (l : List α) : trimBy p (trimBy p l) = trimBy p l := by
  rw [trimBy, dropWhile_trimBy, rdropWhile_trimBy]

theorem mem_of_mem_trimBy (h : a ∈ trimBy p l) : a ∈ l :=
  (List.dropWhile_suffix p).subset ((List.rdropWhile_prefix p _).subset h)

/-- Nothing is taken away at either end. -/
theorem trimBy_eq_self_iff_drop :
    trimBy p l = l ↔ l.dropWhile p = l ∧ l.rdropWhile p = l := by
  constructor
  · intro h
    have hfront := dropWhile_trimBy p l
    have hback := rdropWhile_trimBy p l
    rw [h] at hfront hback
    exact ⟨hfront, hback⟩
  · rintro ⟨hfront, hback⟩
    rw [trimBy, hfront, hback]

theorem trimBy_eq_self_iff :
    trimBy p l = l ↔ (∀ a ∈ l.head?, p a = false) ∧ ∀ a ∈ l.getLast?, p a = false := by
  rw [trimBy_eq_self_iff_drop]
  refine and_congr ?_ ?_
  · cases l with
    | nil => simp
    | cons a l => simp [List.dropWhile_eq_self_iff]
  · rw [List.rdropWhile_eq_self_iff]
    cases hl : l.getLast? with
    | none => simp [List.getLast?_eq_none_iff.1 hl]
    | some a =>
      obtain ⟨front, rfl⟩ := List.getLast?_eq_some_iff.1 hl
      simp

theorem trimBy_cons_pos (h : p a = true) (l : List α) : trimBy p (a :: l) = trimBy p l := by
  rw [trimBy, List.dropWhile_cons_of_pos h]
  rfl

end TinyKV.Trim
