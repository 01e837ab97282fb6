import Mathlib.Data.List.Nodup

/-!
# Lists

Facts about lists of any type that the library does not have: reading a list
through `Option`, looking up every index, and picking some of the elements.
-/

namespace List

theorem mapM_some_map {α β γ : Type*} {f : α → Option β} {g : γ → α} {h : γ → β} {items : List γ}
    (hf : ∀ item ∈ items, f (g item) = some (h item)) :
    (items.map g).mapM f = some (items.map h) := by
  induction items with
  | nil => rfl
  | cons item items ih =>
    rw [List.map_cons, List.mapM_cons, hf item List.mem_cons_self,
      ih fun i hi => hf i (List.mem_cons_of_mem _ hi)]
    rfl

theorem mem_of_mapM_eq_some {α β : Type*} {f : α → Option β} {items : List α} {results : List β}
    (h : items.mapM f = some results) {b : β} (hb : b ∈ results) : ∃ a ∈ items, f a = some b := by
  induction items generalizing results with
  | nil =>
    cases h
    cases hb
  | cons item items ih =>
    simp only [List.mapM_cons, Option.bind_eq_bind, Option.bind_eq_some_iff] at h
    obtain ⟨first, hfirst, rest, hrest, heq⟩ := h
    cases heq
    rcases mem_cons.mp hb with rfl | hb
    · exact ⟨item, List.mem_cons_self, hfirst⟩
    · obtain ⟨a, ha, hfa⟩ := ih hrest hb
      exact ⟨a, List.mem_cons_of_mem _ ha, hfa⟩

theorem filterMap_getElem? {T : Type} (items : List T) :
    (List.range items.length).filterMap (fun i => items[i]?) = items := by
  induction items with
  | nil => rfl
  | cons item rest ih =>
    simp only [List.length_cons, List.range_succ_eq_map, List.filterMap_cons,
      List.getElem?_cons_zero, List.filterMap_map]
    exact congrArg (item :: ·) ih

theorem mem_of_mem_intersperse {α : Type*} {x sep : α} {l : List α}
    (h : x ∈ l.intersperse sep) : x ∈ l ∨ x = sep := by
  induction l with
  | nil => cases h
  | cons a l ih =>
    cases l with
    | nil => exact .inl h
    | cons b l =>
      simp only [List.intersperse_cons_cons, List.mem_cons] at h ih ⊢
      tauto

/-- Of the elements of a list, any number can be picked, a given one among
them. -/
theorem exists_countP_eq {α : Type} [DecidableEq α] {l : List α} (hl : l.Nodup) {x : α}
    (hx : x ∈ l) {k : Nat} (hpos : 1 ≤ k) (hk : k ≤ l.length) :
    ∃ p : α → Bool, p x = true ∧ l.countP p = k := by
  let picked := x :: (l.erase x).take (k - 1)
  have hsub : ∀ a ∈ picked, a ∈ l := by
    intro a ha
    rcases mem_cons.mp ha with rfl | ha
    · exact hx
    · exact List.mem_of_mem_erase (List.mem_of_mem_take ha)
  have hnodup : picked.Nodup := by
    refine List.nodup_cons.mpr ⟨fun h => ?_, (hl.erase x).sublist (List.take_sublist _ _)⟩
    exact hl.not_mem_erase (List.mem_of_mem_take h)
  have hlength : picked.length = k := by
    show ((l.erase x).take (k - 1)).length + 1 = k
    rw [List.length_take, List.length_erase_of_mem hx]
    omega
  refine ⟨fun a => decide (a ∈ picked), decide_eq_true List.mem_cons_self, ?_⟩
  have hperm : (l.filter fun a => decide (a ∈ picked)).Perm picked := by
    refine (List.perm_ext_iff_of_nodup (hl.filter _) hnodup).mpr fun a => ?_
    rw [List.mem_filter, decide_eq_true_iff]
    exact ⟨fun h => h.2, fun h => ⟨hsub a h, h⟩⟩
  rw [List.countP_eq_length_filter, hperm.length_eq, hlength]

end List
