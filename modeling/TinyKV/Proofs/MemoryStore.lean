import TinyKV.Model.MemoryStore
import TinyKV.Spec.Recency

/-!
# The memory store implements the recency list

The hash map and the linked list agree: every list node's key is in the map
with an iterator that names this very node, and every entry's iterator names
a node of the list. `MemoryStore.WF` says so, every operation keeps it, and
under it the store is nothing but the recency list `view` reads off. Each
operation gets one lemma, the equation between its effect on the view and
the operation of the same purpose in `Spec.Recency`; everything proved about
the store later goes through these equations and never unfolds the store
again.

The two ways of writing an entry, in place with a `touch_locked` after it
and freshly with a `push_front`, come to the same `pushFront`.
-/

namespace TinyKV

namespace MemoryStore

/-- The linked list and the map describe each other. -/
structure WF (s : MemoryStore) : Prop where
  ids_nodup : (s.lru.map Prod.fst).Nodup
  ids_lt : ∀ node ∈ s.lru, node.1 < s.nextNode
  node_entry : ∀ node ∈ s.lru, ∃ entry, s.data.lookup node.2 = some entry ∧
    entry.lruIt = node.1
  entry_node : ∀ key entry, s.data.lookup key = some entry →
    (entry.lruIt, key) ∈ s.lru

/-- What a list node stands for. A node without an entry cannot occur in a
well-formed store. -/
def nodeEntry (s : MemoryStore) (node : Nat × Str) : StoreEntry :=
  match s.data.lookup node.2 with
  | some entry => ⟨node.2, entry.value, entry.expireAtMs⟩
  | none => ⟨node.2, [], 0⟩

/-- The store as a recency list. -/
def view (s : MemoryStore) : List StoreEntry := s.lru.map s.nodeEntry

@[simp] theorem nodeEntry_key (s : MemoryStore) (node : Nat × Str) :
    (s.nodeEntry node).key = node.2 := by
  unfold nodeEntry
  split <;> rfl

variable {s : MemoryStore} {entry : Entry} {key : Str}

theorem nodeEntry_of_lookup {node : Nat × Str} (h : s.data.lookup node.2 = some entry) :
    s.nodeEntry node = ⟨node.2, entry.value, entry.expireAtMs⟩ := by
  unfold nodeEntry
  rw [h]

theorem WF.inj_key (h : s.WF) {a b : Nat × Str} (ha : a ∈ s.lru) (hb : b ∈ s.lru) (hk : a.2 = b.2) :
    a = b := by
  obtain ⟨ea, hla, hia⟩ := h.node_entry a ha
  obtain ⟨eb, hlb, hib⟩ := h.node_entry b hb
  rw [hk, hlb] at hla
  injection hla with he
  subst he
  exact Prod.ext (hia.symm.trans hib) hk

theorem WF.inj_id (h : s.WF) {a b : Nat × Str} (ha : a ∈ s.lru) (hb : b ∈ s.lru) (hid : a.1 = b.1) :
    a = b :=
  List.inj_on_of_nodup_map h.ids_nodup ha hb hid

theorem WF.keys_nodup (h : s.WF) : (s.lru.map Prod.snd).Nodup :=
  (List.nodup_map_iff_inj_on h.ids_nodup.of_map).mpr fun _ ha _ hb hk =>
    h.inj_key ha hb hk

theorem view_distinct (h : s.WF) : Recency.Distinct s.view := by
  have : s.view.map StoreEntry.key = s.lru.map Prod.snd := by
    simp [view, Function.comp_def]
  unfold Recency.Distinct
  rw [this]
  exact h.keys_nodup

theorem find_view (h : s.WF) (key : Str) :
    Recency.find key s.view =
      (s.data.lookup key).map fun entry => ⟨key, entry.value, entry.expireAtMs⟩ := by
  cases hl : s.data.lookup key with
  | none =>
    rw [Option.map_none, Recency.find_eq_none]
    intro entry he hk
    obtain ⟨node, hn, rfl⟩ := List.mem_map.mp he
    obtain ⟨e, hle, -⟩ := h.node_entry node hn
    rw [nodeEntry_key] at hk
    rw [hk, hl] at hle
    cases hle
  | some entry =>
    have hn := h.entry_node key entry hl
    have hm : s.nodeEntry (entry.lruIt, key) ∈ s.view := List.mem_map_of_mem hn
    have hf := Recency.find_of_mem (view_distinct h) hm
    rw [nodeEntry_of_lookup hl] at hf
    simpa using hf

theorem visible_eq (h : s.WF) (now : Int) (key : Str) :
    s.visible now key = Recency.visible now s.view key := by
  rw [Recency.visible, find_view h, visible]
  cases s.data.lookup key with
  | none => rfl
  | some entry => rw [Option.map_some, Recency.live_some]; rfl

theorem lookup_of_mem_entries {kv : Σ _ : Str, Entry} (h : kv ∈ s.data.entries) :
    s.data.lookup kv.1 = some kv.2 :=
  AList.mem_lookup_iff.mpr h

/-! ## Erasing a node -/

/-- With different identities, erasing one erases what has it. -/
theorem lruErase_eq_filter_id {it : Nat} {lru : List (Nat × Str)}
    (h : (lru.map Prod.fst).Nodup) :
    lruErase it lru = lru.filter fun node => !(node.1 == it) := by
  unfold lruErase
  induction lru with
  | nil => rfl
  | cons x xs ih =>
    simp only [List.map_cons, List.nodup_cons] at h
    by_cases hx : (x.1 == it) = true
    · have hall : ∀ node ∈ xs, (!(node.1 == it)) = true := by
        intro node hm
        have hne : node.1 ≠ x.1 := fun he =>
          h.1 (he ▸ List.mem_map_of_mem (f := Prod.fst) hm)
        rw [beq_iff_eq] at hx
        simp [← hx, hne]
      rw [List.eraseP_cons, hx, List.filter_cons_of_neg (by simp [hx]),
        List.filter_eq_self.mpr hall, cond_true]
    · rw [List.eraseP_cons, Bool.not_eq_true _ |>.mp hx,
        List.filter_cons_of_pos (by simpa using hx), ih h.2, cond_false]

theorem lruErase_eq_filter (h : s.WF) (hl : s.data.lookup key = some entry) :
    lruErase entry.lruIt s.lru = s.lru.filter fun node => !decide (node.2 = key) := by
  have hn := h.entry_node key entry hl
  have hiff : ∀ node ∈ s.lru, (node.1 == entry.lruIt) = decide (node.2 = key) := by
    intro node hm
    rw [Bool.eq_iff_iff, beq_iff_eq, decide_eq_true_iff]
    constructor
    · intro hid
      rw [h.inj_id hm hn hid]
    · intro hk
      rw [h.inj_key hm hn hk]
  rw [lruErase_eq_filter_id h.ids_nodup]
  refine List.filter_congr fun node hm => ?_
  rw [hiff node hm]

theorem drop_eq (h : s.WF) (hl : s.data.lookup key = some entry) :
    s.drop key entry =
      { s with data := s.data.erase key,
               lru := s.lru.filter fun node => !decide (node.2 = key) } := by
  rw [drop, lruErase_eq_filter h hl]

theorem drop_wf (h : s.WF) (hl : s.data.lookup key = some entry) : (s.drop key entry).WF := by
  rw [drop_eq h hl]
  refine ⟨?_, ?_, ?_, ?_⟩
  · exact h.ids_nodup.sublist (List.Sublist.map _ List.filter_sublist)
  · exact fun node hm => h.ids_lt node (List.mem_of_mem_filter hm)
  · intro node hm
    obtain ⟨hm, hk⟩ := List.mem_filter.mp hm
    obtain ⟨e, hle, hid⟩ := h.node_entry node hm
    have hne : node.2 ≠ key := by simpa using hk
    exact ⟨e, by rw [AList.lookup_erase_ne hne]; exact hle, hid⟩
  · intro k e hle
    by_cases hk : k = key
    · subst hk
      rw [AList.lookup_erase] at hle
      cases hle
    · rw [AList.lookup_erase_ne hk] at hle
      exact List.mem_filter.mpr ⟨h.entry_node k e hle, by simpa using hk⟩

theorem drop_view (h : s.WF) (hl : s.data.lookup key = some entry) :
    (s.drop key entry).view = Recency.remove key s.view := by
  rw [drop_eq h hl, view, view, Recency.remove, List.filter_map]
  simp only [Function.comp_def, nodeEntry_key]
  refine List.map_congr_left fun node hm => ?_
  have hne : node.2 ≠ key := by simpa using (List.mem_filter.mp hm).2
  unfold nodeEntry
  simp only [AList.lookup_erase_ne hne]

/-! ## Writing at the front -/

/-- Store a key in a fresh node at the front of the recency list. -/
def pushFront (s : MemoryStore) (key value : Str) (expireAtMs : Int) : MemoryStore :=
  { s with
    lru := (s.nextNode, key) :: s.lru.filter fun node => !decide (node.2 = key)
    data := s.data.insert key ⟨value, expireAtMs, s.nextNode⟩
    nextNode := s.nextNode + 1 }

theorem pushFront_wf (h : s.WF) (key value : Str) (d : Int) : (s.pushFront key value d).WF := by
  refine ⟨?_, ?_, ?_, ?_⟩
  · simp only [pushFront, List.map_cons, List.nodup_cons]
    refine ⟨?_, h.ids_nodup.sublist (List.Sublist.map _ List.filter_sublist)⟩
    intro hm
    obtain ⟨node, hn, hid⟩ := List.mem_map.mp hm
    have := h.ids_lt node (List.mem_of_mem_filter hn)
    omega
  · intro node hm
    rcases List.mem_cons.mp hm with rfl | hm
    · exact Nat.lt_succ_self _
    · exact Nat.lt_succ_of_lt (h.ids_lt node (List.mem_of_mem_filter hm))
  · intro node hm
    rcases List.mem_cons.mp hm with rfl | hm
    · exact ⟨_, AList.lookup_insert _, rfl⟩
    · obtain ⟨hm, hk⟩ := List.mem_filter.mp hm
      have hne : node.2 ≠ key := by simpa using hk
      obtain ⟨e, hle, hid⟩ := h.node_entry node hm
      exact ⟨e, (AList.lookup_insert_ne hne).trans hle, hid⟩
  · intro k e hle
    by_cases hk : k = key
    · subst hk
      rw [pushFront, AList.lookup_insert] at hle
      injection hle with he
      subst he
      exact List.mem_cons_self
    · rw [pushFront, AList.lookup_insert_ne hk] at hle
      exact List.mem_cons_of_mem _
        (List.mem_filter.mpr ⟨h.entry_node k e hle, by simpa using hk⟩)

theorem pushFront_view (s : MemoryStore) (key value : Str) (d : Int) :
    (s.pushFront key value d).view = Recency.push ⟨key, value, d⟩ s.view := by
  rw [view, pushFront, List.map_cons, Recency.push, view, Recency.remove,
    List.filter_map]
  congr 1
  · unfold nodeEntry
    simp only [AList.lookup_insert]
  · simp only [Function.comp_def, nodeEntry_key]
    refine List.map_congr_left fun node hm => ?_
    have hne : node.2 ≠ key := by simpa using (List.mem_filter.mp hm).2
    unfold nodeEntry
    simp only [AList.lookup_insert_ne hne]

theorem touchLocked_eq (h : s.WF) (hl : s.data.lookup key = some entry) :
    s.touchLocked key = s.pushFront key entry.value entry.expireAtMs := by
  unfold touchLocked pushFront
  rw [hl]
  simp only [lruErase_eq_filter h hl]

/-- Rewriting a key's entry in place and touching it is a push. -/
theorem rewrite_touch_eq (h : s.WF) (hl : s.data.lookup key = some entry) (value : Str) (d : Int) :
    ({ s with data := s.data.insert key ⟨value, d, entry.lruIt⟩ } : MemoryStore).touchLocked
      key = s.pushFront key value d := by
  unfold touchLocked pushFront
  simp only [AList.lookup_insert, lruErase_eq_filter h hl, AList.insert_insert]

theorem filter_absent (h : s.WF) (hl : s.data.lookup key = none) :
    (s.lru.filter fun node => !decide (node.2 = key)) = s.lru := by
  refine List.filter_eq_self.mpr fun node hm => ?_
  obtain ⟨e, hle, -⟩ := h.node_entry node hm
  have hne : node.2 ≠ key := by
    intro hk
    rw [hk, hl] at hle
    cases hle
  simpa using hne

/-! ## Purging and bounding -/

/-- The purge loop over a part of the map's entries: it removes exactly the
expired keys of that part. -/
theorem foldl_drop (now : Int) : ∀ (es : List (Σ _ : Str, Entry)) {s : MemoryStore},
    es.NodupKeys → (∀ kv ∈ es, s.data.lookup kv.1 = some kv.2) → s.WF →
    let s' := es.foldl
      (fun s kv => if expired kv.2 now then s.drop kv.1 kv.2 else s) s
    s'.WF ∧ s'.maxKeys = s.maxKeys ∧
      s'.view = s.view.filter fun x =>
        !es.any fun kv => expired kv.2 now && decide (kv.1 = x.key) := by
  intro es
  induction es with
  | nil =>
    intro s _ _ hs
    refine ⟨hs, rfl, ?_⟩
    simp
  | cons kv rest ih =>
    intro s hnd hmem hs
    obtain ⟨hnot, hnd⟩ := List.nodupKeys_cons.mp hnd
    simp only [List.foldl_cons]
    have hl := hmem kv List.mem_cons_self
    by_cases hx : expired kv.2 now = true
    · simp only [hx, if_true]
      have hrest : ∀ kv' ∈ rest, (s.drop kv.1 kv.2).data.lookup kv'.1 = some kv'.2 := by
        intro kv' hm
        have hne : kv'.1 ≠ kv.1 := fun he => hnot (he ▸ List.mem_keys_of_mem hm)
        exact (AList.lookup_erase_ne hne).trans (hmem kv' (List.mem_cons_of_mem _ hm))
      obtain ⟨h1, h2, h3⟩ := ih hnd hrest (drop_wf hs hl)
      refine ⟨h1, h2, ?_⟩
      rw [h3, drop_view hs hl, Recency.remove, List.filter_filter]
      refine List.filter_congr fun x _ => ?_
      simp only [List.any_cons, hx, Bool.true_and, Bool.not_or]
      rw [Bool.and_comm]
      simp [eq_comm]
    · have hx : expired kv.2 now = false := by simpa using hx
      simp only [hx, if_false, Bool.false_eq_true]
      obtain ⟨h1, h2, h3⟩ :=
        ih hnd (fun kv' hm => hmem kv' (List.mem_cons_of_mem _ hm)) hs
      refine ⟨h1, h2, ?_⟩
      rw [h3]
      refine List.filter_congr fun x _ => ?_
      simp only [List.any_cons, hx, Bool.false_and, Bool.false_or]

theorem evictExpiredLocked_spec (h : s.WF) (now : Int) :
    (s.evictExpiredLocked now).WF ∧ (s.evictExpiredLocked now).maxKeys = s.maxKeys ∧
      (s.evictExpiredLocked now).view = Recency.purge now s.view := by
  obtain ⟨h1, h2, h3⟩ := foldl_drop now s.data.entries s.data.nodupKeys
    (fun _ hm => lookup_of_mem_entries hm) h
  refine ⟨h1, h2, h3.trans (List.filter_congr fun x hx => ?_)⟩
  obtain ⟨node, hn, rfl⟩ := List.mem_map.mp hx
  obtain ⟨entry, hl, -⟩ := h.node_entry node hn
  rw [nodeEntry_of_lookup hl]
  congr 1
  rw [Bool.eq_iff_iff, List.any_eq_true]
  constructor
  · rintro ⟨kv, hm, hkv⟩
    rw [Bool.and_eq_true, decide_eq_true_iff] at hkv
    have hlk := lookup_of_mem_entries (s := s) hm
    rw [hkv.2] at hlk
    have he : kv.2 = entry := Option.some.inj (hlk.symm.trans hl)
    rw [← he]
    exact hkv.1
  · intro hx
    exact ⟨⟨node.2, entry⟩, AList.mem_lookup_iff.mp hl, by
      rw [Bool.and_eq_true]; exact ⟨hx, by simp⟩⟩

theorem keys_length (h : s.WF) : s.data.keys.length = s.view.length := by
  have hp : s.data.keys.Perm (s.lru.map Prod.snd) := by
    rw [List.perm_ext_iff_of_nodup s.data.keys_nodup h.keys_nodup]
    intro key
    rw [← AList.mem_keys, ← AList.lookup_isSome, Option.isSome_iff_exists, List.mem_map]
    constructor
    · rintro ⟨entry, hl⟩
      exact ⟨_, h.entry_node key entry hl, rfl⟩
    · rintro ⟨node, hn, rfl⟩
      obtain ⟨entry, hl, -⟩ := h.node_entry node hn
      exact ⟨entry, hl⟩
  rw [hp.length_eq, view, List.length_map, List.length_map]

theorem evictLru_spec (maxKeys : Nat) : ∀ (back : List (Nat × Str)) {s : MemoryStore},
    s.WF → s.lru.reverse = back →
    let r := evictLru maxKeys s.data back
    let s' : MemoryStore := { s with data := r.1, lru := r.2.reverse }
    s'.WF ∧ s'.view = Recency.cap maxKeys s.view := by
  intro back
  induction back with
  | nil =>
    intro s hs hb
    have hnil : s.lru = [] := by simpa using hb
    simp only [evictLru, List.reverse_nil]
    refine ⟨?_, ?_⟩
    · rw [← hnil]; exact hs
    · simp [view, hnil, Recency.cap]
  | cons node rest ih =>
    intro s hs hb
    have hlru : s.lru = rest.reverse ++ [node] := by
      rw [← List.reverse_reverse s.lru, hb, List.reverse_cons]
    simp only [evictLru]
    split
    · next hfull =>
      have hmem : node ∈ s.lru := by rw [hlru]; simp
      obtain ⟨entry, hl, -⟩ := hs.node_entry node hmem
      have hdrop := drop_eq hs hl
      have hne : ∀ n ∈ rest.reverse, (!decide (n.2 = node.2)) = true := by
        intro n hn
        have hnd := hs.keys_nodup
        rw [hlru, List.map_append, List.nodup_append] at hnd
        have := hnd.2.2 n.2 (List.mem_map_of_mem hn) node.2 (by simp)
        simpa using this
      have hfilter : (s.lru.filter fun n => !decide (n.2 = node.2)) = rest.reverse := by
        rw [hlru, List.filter_append, List.filter_eq_self.mpr hne]
        simp
      rw [hfilter] at hdrop
      have hwf := drop_wf hs hl
      have hview := drop_view hs hl
      rw [hdrop] at hwf hview
      obtain ⟨h1, h2⟩ := ih hwf (by simp)
      refine ⟨h1, h2.trans ?_⟩
      -- one key fewer in the back, and the bound cut it off anyway
      have hlen : maxKeys < s.view.length := by
        have := keys_length hs
        omega
      have hvl : s.view = rest.reverse.map s.nodeEntry ++ [s.nodeEntry node] := by
        rw [view, hlru, List.map_append, List.map_singleton]
      have hrem : Recency.remove node.2 s.view = rest.reverse.map s.nodeEntry := by
        rw [hvl, Recency.remove, List.filter_append, List.filter_map]
        have : ((fun entry : StoreEntry => !decide (entry.key = node.2)) ∘
            s.nodeEntry) = fun n => !decide (n.2 = node.2) := by
          funext n; simp
        rw [this, List.filter_eq_self.mpr hne]
        simp
      have hm : maxKeys ≤ (rest.reverse.map s.nodeEntry).length := by
        rw [hvl, List.length_append] at hlen
        simp only [List.length_cons, List.length_nil] at hlen
        omega
      rw [hview, hrem, Recency.cap, Recency.cap, if_neg (by omega), if_neg (by omega),
        hvl, List.take_append_of_le_length hm]
    · next hfit =>
      have hback : (node :: rest).reverse = s.lru := by rw [← hb, List.reverse_reverse]
      simp only [hback]
      refine ⟨hs, ?_⟩
      show s.view = _
      unfold Recency.cap
      split
      · rfl
      · have := keys_length hs
        rw [List.take_of_length_le (by omega)]

theorem enforceCapacityLocked_spec (h : s.WF) (now : Int) :
    (s.enforceCapacityLocked now).WF ∧
      (s.enforceCapacityLocked now).maxKeys = s.maxKeys ∧
      (s.enforceCapacityLocked now).view =
        Recency.cap s.maxKeys (Recency.purge now s.view) := by
  obtain ⟨h1, h2, h3⟩ := evictExpiredLocked_spec h now
  obtain ⟨h4, h5⟩ := evictLru_spec (s.evictExpiredLocked now).maxKeys _ h1 rfl
  rw [h3, h2] at h5
  rw [h2] at h4
  refine ⟨?_, ?_, ?_⟩ <;> simp only [enforceCapacityLocked, h2]
  · exact h4
  · exact h5

/-! ## The operations -/

/-- The effect of an operation, seen from outside: the answer, and a
well-formed store of the same bound that reads as the given list. -/
structure Acts {α : Type} (s : MemoryStore) (r : α × MemoryStore) (answer : α)
    (l : List StoreEntry) : Prop where
  answer : r.1 = answer
  wf : r.2.WF
  maxKeys : r.2.maxKeys = s.maxKeys
  view : r.2.view = l

theorem putWithExpireAt_acts (h : s.WF) (now : Int) (hk : key ≠ []) (value : Str) (d : Int) :
    s.Acts (s.putWithExpireAt now key value d) true
      (Recency.put s.maxKeys now ⟨key, value, d⟩ s.view) := by
  have hput : s.putWithExpireAt now key value d =
      (true, (s.pushFront key value d).enforceCapacityLocked now) := by
    unfold putWithExpireAt
    rw [if_neg hk]
    cases hl : s.data.lookup key with
    | none =>
      simp only [pushFront, filter_absent h hl]
    | some entry =>
      simp only
      rw [← rewrite_touch_eq h hl value d]
  obtain ⟨h1, h2, h3⟩ := enforceCapacityLocked_spec (pushFront_wf h key value d) now
  rw [hput]
  exact ⟨rfl, h1, h2, by rw [h3, pushFront_view]; rfl⟩

theorem del_acts (h : s.WF) (key : Str) :
    s.Acts (s.del key) (Recency.find key s.view).isSome
      (Recency.remove key s.view) := by
  have hf := find_view h key
  unfold del
  cases hl : s.data.lookup key with
  | none =>
    rw [hl, Option.map_none] at hf
    refine ⟨by rw [hf]; rfl, h, rfl, ?_⟩
    rw [Recency.remove, List.filter_eq_self.mpr]
    intro entry he
    simpa using Recency.find_eq_none.mp hf entry he
  | some entry =>
    rw [hl] at hf
    exact ⟨by rw [hf]; rfl, drop_wf h hl, rfl, drop_view h hl⟩

/-- The three reads look a key up in the same way: they purge it when it has
expired, and otherwise only the touch differs. -/
theorem get_acts (h : s.WF) (now : Int) (key : Str) :
    s.Acts (s.get now key) ((Recency.read now key s.view).1.map StoreEntry.value)
      (Recency.read now key s.view).2 := by
  have hf := find_view h key
  unfold get Recency.read
  cases hl : s.data.lookup key with
  | none =>
    rw [hl, Option.map_none] at hf
    rw [hf]
    exact ⟨rfl, h, rfl, rfl⟩
  | some entry =>
    rw [hl, Option.map_some] at hf
    rw [hf]
    simp only
    have hx : StoreEntry.expired ⟨key, entry.value, entry.expireAtMs⟩ now =
        expired entry now := rfl
    rw [hx]
    cases hexp : expired entry now with
    | true =>
      simp only [if_true]
      exact ⟨rfl, drop_wf h hl, rfl, drop_view h hl⟩
    | false =>
      simp only [Bool.false_eq_true, if_false, touchLocked_eq h hl]
      exact ⟨rfl, pushFront_wf h _ _ _, rfl, pushFront_view _ _ _ _⟩

theorem exists_acts (h : s.WF) (now : Int) (key : Str) :
    s.Acts (s.exists_ now key) (Recency.read now key s.view).1.isSome
      (Recency.read now key s.view).2 := by
  have hg := get_acts h now key
  unfold exists_
  refine ⟨?_, hg.wf, hg.maxKeys, hg.view⟩
  show (s.get now key).1.isSome = _
  rw [hg.answer, Option.isSome_map]

theorem expireAt_acts (h : s.WF) (now : Int) (key : Str) (d : Int) :
    s.Acts (s.expireAt now key d) (Recency.expireAt now key d s.view).1
      (Recency.expireAt now key d s.view).2 := by
  have hf := find_view h key
  unfold expireAt Recency.expireAt
  cases hl : s.data.lookup key with
  | none =>
    rw [hl, Option.map_none] at hf
    rw [hf]
    exact ⟨rfl, h, rfl, rfl⟩
  | some entry =>
    rw [hl, Option.map_some] at hf
    rw [hf]
    simp only
    have hx : StoreEntry.expired ⟨key, entry.value, entry.expireAtMs⟩ now =
        expired entry now := rfl
    rw [hx]
    cases hexp : expired entry now with
    | true =>
      simp only [if_true]
      exact ⟨rfl, drop_wf h hl, rfl, drop_view h hl⟩
    | false =>
      simp only [Bool.false_eq_true, if_false, rewrite_touch_eq h hl]
      exact ⟨rfl, pushFront_wf h _ _ _, rfl, pushFront_view _ _ _ _⟩

/-- What `ttl` leaves behind: it purges like a read, and never touches. -/
def ttlLeaves (now : Int) (key : Str) (l : List StoreEntry) : List StoreEntry :=
  match Recency.find key l with
  | none => l
  | some entry => if entry.expired now then Recency.remove key l else l

theorem ttl_keeps (h : s.WF) (now : Int) (key : Str) :
    (s.ttl now key).2.WF ∧ (s.ttl now key).2.maxKeys = s.maxKeys ∧
      (s.ttl now key).2.view = ttlLeaves now key s.view := by
  have hf := find_view h key
  unfold ttl ttlLeaves
  cases hl : s.data.lookup key with
  | none =>
    rw [hl, Option.map_none] at hf
    rw [hf]
    exact ⟨h, rfl, rfl⟩
  | some entry =>
    rw [hl, Option.map_some] at hf
    rw [hf]
    simp only
    have hx : StoreEntry.expired ⟨key, entry.value, entry.expireAtMs⟩ now =
        expired entry now := rfl
    rw [hx]
    cases hexp : expired entry now with
    | true =>
      simp only [if_true]
      exact ⟨drop_wf h hl, rfl, drop_view h hl⟩
    | false =>
      simp only [Bool.false_eq_true, if_false]
      split <;> exact ⟨h, rfl, rfl⟩

theorem ttlLeaves_alike {now : Int} {l : List StoreEntry} (hd : Recency.Distinct l)
    (key : Str) : Recency.Alike now (ttlLeaves now key l) l := by
  rw [ttlLeaves]
  cases hf : Recency.find key l with
  | none => exact Recency.Alike.refl now l
  | some entry =>
    simp only
    split
    · next hx => exact Recency.alike_remove hd (by rw [hf, Recency.live_some, if_pos hx])
    · exact Recency.Alike.refl now l

theorem snapshotEntries_spec (h : s.WF) (now : Int) :
    (s.snapshotEntries now).1.Perm (Recency.purge now s.view) ∧
      (s.snapshotEntries now).2.WF ∧ (s.snapshotEntries now).2.maxKeys = s.maxKeys ∧
      (s.snapshotEntries now).2.view = Recency.purge now s.view := by
  obtain ⟨h1, h2, h3⟩ := evictExpiredLocked_spec h now
  refine ⟨?_, h1, h2, h3⟩
  rw [← h3]
  have hnd := view_distinct h1
  refine (List.perm_ext_iff_of_nodup ?_ hnd.of_map).mpr fun x => ?_
  · refine List.Nodup.of_map StoreEntry.key ?_
    have : (s.snapshotEntries now).1.map StoreEntry.key =
        (s.evictExpiredLocked now).data.keys := by
      simp [snapshotEntries, AList.keys, List.keys, Function.comp_def]
    rw [this]
    exact (s.evictExpiredLocked now).data.keys_nodup
  · constructor
    · intro hx
      obtain ⟨kv, hm, rfl⟩ := List.mem_map.mp hx
      have hl := lookup_of_mem_entries hm
      have := find_view h1 kv.1
      rw [hl, Option.map_some] at this
      exact Recency.find_mem this
    · intro hx
      have hf := Recency.find_of_mem hnd hx
      rw [find_view h1, Option.map_eq_some_iff] at hf
      obtain ⟨entry, hl, he⟩ := hf
      exact List.mem_map.mpr ⟨⟨_, entry⟩, AList.mem_lookup_iff.mp hl, he⟩

theorem wf_empty (maxKeys : Nat) : ({ maxKeys := maxKeys } : MemoryStore).WF := by
  refine ⟨by simp, by simp, by simp, ?_⟩
  intro key entry hl
  simp at hl

theorem clear_wf (s : MemoryStore) : s.clear.WF := by
  refine ⟨by simp [clear], by simp [clear], by simp [clear], ?_⟩
  intro key entry hl
  simp [clear] at hl

@[simp] theorem clear_view (s : MemoryStore) : s.clear.view = [] := rfl

theorem loadEntries_spec {es : List StoreEntry} (h : s.WF) (hk : ∀ entry ∈ es, entry.key ≠ [])
    (hd : Recency.Distinct es) (hnew : ∀ entry ∈ es, s.data.lookup entry.key = none) :
    (s.loadEntries es).1 = true ∧ (s.loadEntries es).2.WF ∧
      (s.loadEntries es).2.maxKeys = s.maxKeys ∧
      (s.loadEntries es).2.view = es.reverse ++ s.view := by
  induction es generalizing s with
  | nil => exact ⟨rfl, h, rfl, rfl⟩
  | cons e es ih =>
    obtain ⟨hne, hd⟩ := List.nodup_cons.mp hd
    have hfresh := hnew e List.mem_cons_self
    have hstep : s.loadEntries (e :: es) =
        (s.pushFront e.key e.value e.expireAtMs).loadEntries es := by
      rw [loadEntries, if_neg (hk e List.mem_cons_self), load, pushFront, filter_absent h hfresh]
    have hview : (s.pushFront e.key e.value e.expireAtMs).view = e :: s.view := by
      have habsent : ∀ x ∈ s.view, x.key ≠ e.key :=
        Recency.find_eq_none.mp (by rw [find_view h, hfresh]; rfl)
      rw [pushFront_view, Recency.push, Recency.remove,
        List.filter_eq_self.mpr fun x hx => by simpa using habsent x hx]
    obtain ⟨h1, h2, h3, h4⟩ := ih (pushFront_wf h e.key e.value e.expireAtMs)
      (fun x hx => hk x (List.mem_cons_of_mem _ hx)) hd (by
        intro x hx
        have hxe : x.key ≠ e.key := fun heq =>
          hne (heq ▸ List.mem_map_of_mem (f := StoreEntry.key) hx)
        rw [pushFront, AList.lookup_insert_ne hxe]
        exact hnew x (List.mem_cons_of_mem _ hx))
    rw [hstep]
    refine ⟨h1, h2, h3, ?_⟩
    rw [h4, hview, List.reverse_cons, List.append_assoc]
    rfl

theorem replaceWithSnapshot_acts (s : MemoryStore) (now : Int) {es : List StoreEntry}
    (hk : ∀ entry ∈ es, entry.key ≠ []) (hd : Recency.Distinct es) :
    s.Acts (s.replaceWithSnapshot now es) true
      (Recency.cap s.maxKeys (Recency.purge now es.reverse)) := by
  obtain ⟨h1, h2, h3, h4⟩ := loadEntries_spec (clear_wf s) hk hd fun e _ => rfl
  obtain ⟨h5, h6, h7⟩ := enforceCapacityLocked_spec h2 now
  have hload : s.clear.loadEntries es = (true, (s.clear.loadEntries es).2) := Prod.ext h1 rfl
  rw [clear_view, List.append_nil] at h4
  rw [h4, h3] at h7
  rw [replaceWithSnapshot, hload]
  exact ⟨rfl, h5, h6.trans h3, h7⟩

theorem setMaxKeys_keeps (h : s.WF) (now : Int) (maxKeys : Nat) :
    (s.setMaxKeys now maxKeys).WF ∧ (s.setMaxKeys now maxKeys).maxKeys = maxKeys ∧
      (s.setMaxKeys now maxKeys).view = Recency.cap maxKeys (Recency.purge now s.view) := by
  have hwf : ({ s with maxKeys := maxKeys } : MemoryStore).WF := ⟨h.1, h.2, h.3, h.4⟩
  exact enforceCapacityLocked_spec hwf now

end MemoryStore

end TinyKV
