import Mathlib.Data.List.TakeWhile
import TinyKV.Proofs.MemoryStore

/-!
# Replacing the contents of the in-memory store

`replace_with_snapshot` clears the store and then pushes the entries one by
one, without looking whether a key is there already and with the check for an
empty key inside the loop. On a list with repeated keys that leaves more than
one list node for a key, of which the map only knows the last: what `WF` rules
out. `Linked` is the half of it that remains, and enough to follow the
eviction at the end.
-/

namespace TinyKV

namespace MemoryStore

open Recency

/-- What the map holds for a key, whether it has expired or not. -/
def held (s : MemoryStore) (key : Str) : Option StoreEntry :=
  (s.data.lookup key).map fun entry => ⟨key, entry.value, entry.expireAtMs⟩

/-- The keys of the recency list, front first. -/
def lruKeys (s : MemoryStore) : List Str := s.lru.map Prod.snd

/-- The same bound, the same entries in the map and the same recency list, up
to the identity of the list nodes. -/
structure Unchanged (s s' : MemoryStore) : Prop where
  maxKeys : s'.maxKeys = s.maxKeys
  lruKeys : s'.lruKeys = s.lruKeys
  held : ∀ key, s'.held key = s.held key

/-- The entry given last for a key. -/
def lastEntry (key : Str) (entries : List StoreEntry) : Option StoreEntry :=
  find key entries.reverse

/-- The entries before the first with an empty key. -/
def beforeEmptyKey (entries : List StoreEntry) : List StoreEntry :=
  entries.takeWhile fun entry => decide (entry.key ≠ [])

theorem visible_held (s : MemoryStore) (now : Int) (key : Str) :
    s.visible now key = live now (s.held key) := by
  unfold visible held
  cases s.data.lookup key with
  | none => rfl
  | some entry =>
    rw [Option.map_some, live_some]
    rfl

theorem mem_data_iff_held (s : MemoryStore) (key : Str) :
    key ∈ s.data ↔ (s.held key).isSome = true := by
  rw [held, Option.isSome_map, AList.lookup_isSome]

/-! ## Every entry of the map has its node -/

structure Linked (s : MemoryStore) : Prop where
  ids_nodup : (s.lru.map Prod.fst).Nodup
  ids_lt : ∀ node ∈ s.lru, node.1 < s.nextNode
  entry_node : ∀ key entry, s.data.lookup key = some entry → (entry.lruIt, key) ∈ s.lru

variable {s : MemoryStore} {key : Str} {entries : List StoreEntry}

theorem load_linked (h : s.Linked) (entry : StoreEntry) : (s.load entry).Linked := by
  constructor
  case ids_nodup =>
    simp only [load, List.map_cons, List.nodup_cons]
    refine ⟨?_, h.ids_nodup⟩
    intro hmem
    obtain ⟨node, hnode, hid⟩ := List.mem_map.1 hmem
    have := h.ids_lt node hnode
    omega
  case ids_lt =>
    intro node hnode
    simp only [load] at hnode ⊢
    obtain rfl | hnode := List.mem_cons.1 hnode
    · simp
    · have := h.ids_lt node hnode
      omega
  case entry_node =>
    intro key e hl
    simp only [load] at hl ⊢
    by_cases hkey : key = entry.key
    · subst hkey
      rw [AList.lookup_insert] at hl
      cases hl
      exact List.mem_cons_self
    · rw [AList.lookup_insert_ne hkey] at hl
      exact List.mem_cons_of_mem _ (h.entry_node key e hl)

theorem held_load (s : MemoryStore) (entry : StoreEntry) (key : Str) :
    (s.load entry).held key = if entry.key = key then some entry else s.held key := by
  simp only [held, load]
  split
  · next heq =>
    subst heq
    rw [AList.lookup_insert]
    rfl
  · next hne => rw [AList.lookup_insert_ne (Ne.symm hne)]

/-- What the loop has done when it ends, at the end of the list or at an empty
key. -/
theorem loadEntries_does (entries : List StoreEntry) (h : s.Linked) :
    (s.loadEntries entries).1 = entries.all (fun entry => decide (entry.key ≠ [])) ∧
      (s.loadEntries entries).2.Linked ∧
      (s.loadEntries entries).2.maxKeys = s.maxKeys ∧
      (s.loadEntries entries).2.lruKeys =
        ((beforeEmptyKey entries).map StoreEntry.key).reverse ++ s.lruKeys ∧
      ∀ key, (s.loadEntries entries).2.held key =
        (lastEntry key (beforeEmptyKey entries)).or (s.held key) := by
  induction entries generalizing s with
  | nil => exact ⟨rfl, h, rfl, rfl, fun _ => rfl⟩
  | cons entry rest ih =>
    by_cases hkey : entry.key = []
    · simp only [loadEntries, if_pos hkey]
      simp [beforeEmptyKey, hkey, h, lastEntry]
    · have hload : s.loadEntries (entry :: rest) = (s.load entry).loadEntries rest := by
        rw [loadEntries, if_neg hkey]
      obtain ⟨hflag, hlinked, hmax, hkeys, hheld⟩ := ih (load_linked h entry)
      have hbefore : beforeEmptyKey (entry :: rest) = entry :: beforeEmptyKey rest := by
        simp [beforeEmptyKey, hkey]
      rw [hload, hbefore]
      refine ⟨by rw [hflag]; simp [hkey], hlinked, hmax, ?_, ?_⟩
      · rw [hkeys]
        simp [load, lruKeys]
      · intro key
        rw [hheld, held_load, lastEntry, lastEntry, List.reverse_cons, find, find,
          List.find?_append, Option.or_assoc]
        congr 1
        by_cases heq : entry.key = key <;> simp [heq]

/-! ## Eviction of expired entries -/

theorem lru_drop (h : s.Linked) (key : Str) (entry : Entry) :
    (s.drop key entry).lru = s.lru.filter fun node => !(node.1 == entry.lruIt) :=
  lruErase_eq_filter_id h.ids_nodup

/-- An identity belongs to one node. -/
theorem Linked.node_eq (h : s.Linked) {a b : Nat × Str} (ha : a ∈ s.lru) (hb : b ∈ s.lru)
    (hid : a.1 = b.1) : a = b :=
  List.inj_on_of_nodup_map h.ids_nodup ha hb hid

theorem drop_linked (h : s.Linked) {entry : Entry} (hl : s.data.lookup key = some entry) :
    (s.drop key entry).Linked := by
  constructor
  case ids_nodup =>
    rw [lru_drop h]
    exact h.ids_nodup.sublist (List.Sublist.map _ List.filter_sublist)
  case ids_lt =>
    intro node hnode
    rw [lru_drop h] at hnode
    exact h.ids_lt node (List.mem_of_mem_filter hnode)
  case entry_node =>
    intro other e hle
    by_cases hother : other = key
    · subst hother
      rw [drop, AList.lookup_erase] at hle
      cases hle
    · rw [drop, AList.lookup_erase_ne hother] at hle
      have hnode := h.entry_node other e hle
      rw [lru_drop h]
      refine List.mem_filter.2 ⟨hnode, ?_⟩
      have hid : e.lruIt ≠ entry.lruIt := by
        intro hid
        have heq := h.node_eq hnode (h.entry_node key entry hl) hid
        exact hother (Prod.mk.inj heq).2
      simpa using hid

/-- Dropping a key takes away one node of its own. -/
theorem count_drop (h : s.Linked) {other : Str} {entry : Entry}
    (hl : s.data.lookup key = some entry) (hne : other ≠ key) :
    (s.drop key entry).lruKeys.count other = s.lruKeys.count other := by
  simp only [lruKeys, lru_drop h, List.count_eq_countP, List.countP_map, List.countP_filter]
  refine List.countP_congr fun node hnode => ?_
  simp only [Function.comp_apply, Bool.and_eq_true, beq_iff_eq, Bool.not_eq_true',
    beq_eq_false_iff_ne]
  constructor
  · intro hboth
    exact hboth.1
  · intro hkey
    refine ⟨hkey, fun hid => hne ?_⟩
    rw [← hkey, h.node_eq hnode (h.entry_node key entry hl) hid]

theorem held_drop (s : MemoryStore) (key : Str) (entry : Entry) (other : Str) :
    (s.drop key entry).held other = if other = key then none else s.held other := by
  simp only [held, drop]
  split
  · next heq => rw [heq, AList.lookup_erase]; rfl
  · next hne => rw [AList.lookup_erase_ne hne]

/-- The loop over part of the map: a key it names with an expired entry is
gone, and a key it names with none keeps its entry and its nodes. -/
theorem foldl_evict (now : Int) (es : List (Σ _ : Str, Entry)) (h : s.Linked) (hd : es.NodupKeys)
    (hes : ∀ kv ∈ es, s.data.lookup kv.1 = some kv.2) :
    let s' := es.foldl (fun s kv => if expired kv.2 now then s.drop kv.1 kv.2 else s) s
    s'.maxKeys = s.maxKeys ∧ ∀ key,
      ((∃ kv ∈ es, kv.1 = key ∧ expired kv.2 now = true) → s'.held key = none) ∧
      ((∀ kv ∈ es, kv.1 = key → expired kv.2 now = false) →
        s'.held key = s.held key ∧ s'.lruKeys.count key = s.lruKeys.count key) := by
  induction es generalizing s with
  | nil => exact ⟨rfl, fun key => ⟨by simp, fun _ => ⟨rfl, rfl⟩⟩⟩
  | cons kv es ih =>
    obtain ⟨hhead, htail⟩ := List.nodupKeys_cons.mp hd
    obtain ⟨hkv, hrest⟩ := List.forall_mem_cons.1 hes
    have hother : ∀ kv' ∈ es, kv'.1 ≠ kv.1 := by
      intro kv' hmem heq
      exact hhead (heq ▸ List.mem_keys_of_mem hmem)
    cases hexp : expired kv.2 now with
    | false =>
      simp only [List.foldl_cons, hexp, Bool.false_eq_true, if_false]
      obtain ⟨hmax, hkeys⟩ := ih h htail hrest
      refine ⟨hmax, fun key => ⟨?_, ?_⟩⟩
      · rintro ⟨kv', hmem, hkey, hexp'⟩
        obtain rfl | hmem := List.mem_cons.1 hmem
        · rw [hexp] at hexp'
          cases hexp'
        · exact (hkeys key).1 ⟨kv', hmem, hkey, hexp'⟩
      · intro hnone
        exact (hkeys key).2 fun kv' hmem => hnone kv' (List.mem_cons_of_mem _ hmem)
    | true =>
      simp only [List.foldl_cons, hexp, if_true]
      have hrest' : ∀ kv' ∈ es, (s.drop kv.1 kv.2).data.lookup kv'.1 = some kv'.2 := by
        intro kv' hmem
        rw [drop, AList.lookup_erase_ne (hother kv' hmem)]
        exact hrest kv' hmem
      obtain ⟨hmax, hkeys⟩ := ih (drop_linked h hkv) htail hrest'
      refine ⟨hmax, fun key => ⟨?_, ?_⟩⟩
      · rintro ⟨kv', hmem, hkey, hexp'⟩
        obtain rfl | hmem := List.mem_cons.1 hmem
        · -- the rest of the loop does not meet this key again
          have hkeep := ((hkeys key).2 fun other hmem heq =>
            absurd (heq.trans hkey.symm) (hother other hmem)).1
          rw [hkeep, held_drop, if_pos hkey.symm]
        · exact (hkeys key).1 ⟨kv', hmem, hkey, hexp'⟩
      · intro hnone
        have hne : key ≠ kv.1 := by
          intro heq
          rw [hnone kv List.mem_cons_self heq.symm] at hexp
          cases hexp
        obtain ⟨hheld, hcount⟩ := (hkeys key).2 fun kv' hmem =>
          hnone kv' (List.mem_cons_of_mem _ hmem)
        rw [hheld, hcount, held_drop, if_neg hne, count_drop h hkv hne]
        exact ⟨rfl, rfl⟩

theorem evictExpiredLocked_held (h : s.Linked) (now : Int) (key : Str) :
    (s.evictExpiredLocked now).held key = live now (s.held key) ∧
      ((live now (s.held key)).isSome = true →
        (s.evictExpiredLocked now).lruKeys.count key = s.lruKeys.count key) := by
  obtain ⟨-, hkeys⟩ := foldl_evict now s.data.entries h s.data.nodupKeys
    fun kv hmem => lookup_of_mem_entries hmem
  obtain ⟨hgone, hkept⟩ := hkeys key
  -- the entries of the map under this key are the one that is looked up
  have hlookup : ∀ kv ∈ s.data.entries, kv.1 = key → s.data.lookup key = some kv.2 := by
    intro kv hmem heq
    rw [← heq]
    exact lookup_of_mem_entries hmem
  cases hl : s.data.lookup key with
  | none =>
    have hheld : s.held key = none := by rw [held, hl]; rfl
    have hnone : ∀ kv ∈ s.data.entries, kv.1 = key → expired kv.2 now = false := by
      intro kv hmem heq
      have hsome := hlookup kv hmem heq
      rw [hl] at hsome
      cases hsome
    rw [hheld]
    exact ⟨(hkept hnone).1.trans hheld, fun hlive => by cases hlive⟩
  | some entry =>
    have hheld : s.held key = some ⟨key, entry.value, entry.expireAtMs⟩ := by rw [held, hl]; rfl
    have hx : StoreEntry.expired ⟨key, entry.value, entry.expireAtMs⟩ now =
        expired entry now := rfl
    rw [hheld, live_some, hx]
    cases hexp : expired entry now with
    | true =>
      refine ⟨hgone ⟨⟨key, entry⟩, AList.mem_lookup_iff.1 hl, rfl, hexp⟩, ?_⟩
      intro hlive
      cases hlive
    | false =>
      have hnone : ∀ kv ∈ s.data.entries, kv.1 = key → expired kv.2 now = false := by
        intro kv hmem heq
        have hsome := hlookup kv hmem heq
        rw [hl] at hsome
        cases hsome
        exact hexp
      exact ⟨(hkept hnone).1.trans hheld, fun _ => (hkept hnone).2⟩

/-- Without a bound only expired entries go. -/
theorem enforceCapacityLocked_unbounded (h : s.Linked) (hmax : s.maxKeys = 0) (now : Int) :
    s.enforceCapacityLocked now = s.evictExpiredLocked now := by
  have hkeep : (s.evictExpiredLocked now).maxKeys = 0 :=
    (foldl_evict now s.data.entries h s.data.nodupKeys
      fun kv hmem => lookup_of_mem_entries hmem).1.trans hmax
  have hno : ∀ data lru, evictLru 0 data lru = (data, lru) := by
    intro data lru
    cases lru with
    | nil => rfl
    | cons node rest => rw [evictLru, if_neg (by omega)]
  unfold enforceCapacityLocked
  generalize s.evictExpiredLocked now = left at hkeep ⊢
  obtain ⟨data, lru, nextNode, maxKeys⟩ := left
  simp only at hkeep
  subst hkeep
  simp only [hno, List.reverse_reverse]

/-! ## The method -/

theorem clear_linked (s : MemoryStore) : s.clear.Linked := by
  constructor
  case ids_nodup => exact List.nodup_nil
  case ids_lt => intro node hnode; cases hnode
  case entry_node => intro key entry hl; cases hl

theorem beforeEmptyKey_eq_self (h : ∀ entry ∈ entries, entry.key ≠ []) :
    beforeEmptyKey entries = entries := by
  rw [beforeEmptyKey, List.takeWhile_eq_self_iff]
  simpa using h

theorem replaceWithSnapshot_flag (s : MemoryStore) (now : Int) (entries : List StoreEntry) :
    (s.replaceWithSnapshot now entries).1 = true ↔ ∀ entry ∈ entries, entry.key ≠ [] := by
  obtain ⟨hflag, -⟩ := loadEntries_does entries s.clear_linked
  have hsame : (s.replaceWithSnapshot now entries).1 = (s.clear.loadEntries entries).1 := by
    unfold replaceWithSnapshot
    split <;> simp_all
  rw [hsame, hflag, List.all_eq_true]
  simp

/-- All entries taken, without a bound. -/
theorem replaceWithSnapshot_taken (hmax : s.maxKeys = 0) (now : Int)
    (h : ∀ entry ∈ entries, entry.key ≠ []) (key : Str) :
    (s.replaceWithSnapshot now entries).2.held key = live now (lastEntry key entries) ∧
      ((live now (lastEntry key entries)).isSome = true →
        (s.replaceWithSnapshot now entries).2.lruKeys.count key =
          (entries.map StoreEntry.key).count key) := by
  obtain ⟨hflag, hlinked, hkeep, hkeys, hheld⟩ := loadEntries_does entries s.clear_linked
  have htrue : (s.clear.loadEntries entries).1 = true := by
    rw [hflag, List.all_eq_true]
    simpa using h
  have hreplace : (s.replaceWithSnapshot now entries).2 =
      (s.clear.loadEntries entries).2.evictExpiredLocked now := by
    rw [← enforceCapacityLocked_unbounded hlinked (hkeep.trans hmax)]
    unfold replaceWithSnapshot
    split <;> simp_all
  have hlast := hheld key
  rw [beforeEmptyKey_eq_self h, show s.clear.held key = none from rfl, Option.or_none] at hlast
  rw [beforeEmptyKey_eq_self h, show s.clear.lruKeys = [] from rfl, List.append_nil] at hkeys
  have hevict := evictExpiredLocked_held hlinked now key
  rw [hlast, hkeys, List.count_reverse] at hevict
  rw [hreplace]
  exact hevict

/-- Stopped at an empty key. -/
theorem replaceWithSnapshot_stopped (s : MemoryStore) (now : Int)
    (h : ∃ entry ∈ entries, entry.key = []) :
    (s.replaceWithSnapshot now entries).2.maxKeys = s.maxKeys ∧
      (s.replaceWithSnapshot now entries).2.lruKeys =
        ((beforeEmptyKey entries).map StoreEntry.key).reverse ∧
      ∀ key, (s.replaceWithSnapshot now entries).2.held key =
        lastEntry key (beforeEmptyKey entries) := by
  obtain ⟨hflag, -, hkeep, hkeys, hheld⟩ := loadEntries_does entries s.clear_linked
  have hfalse : (s.clear.loadEntries entries).1 = false := by
    rw [hflag, List.all_eq_false]
    simpa using h
  have hreplace : (s.replaceWithSnapshot now entries).2 = (s.clear.loadEntries entries).2 := by
    unfold replaceWithSnapshot
    split <;> simp_all
  rw [hreplace]
  refine ⟨hkeep, hkeys.trans (List.append_nil _), fun key => ?_⟩
  rw [hheld, show s.clear.held key = none from rfl, Option.or_none]

theorem lastEntry_count_pos {entry : StoreEntry} (h : lastEntry key entries = some entry) :
    0 < (entries.map StoreEntry.key).count key := by
  rw [List.count_pos_iff, ← find_key h]
  exact List.mem_map_of_mem (List.mem_reverse.1 (find_mem h))

/-- Every stored key is once in the recency list exactly if no key is given more
than once, unless its last entry is not stored. -/
theorem replaceWithSnapshot_once_iff (hmax : s.maxKeys = 0) (now : Int)
    (hkeys : ∀ entry ∈ entries, entry.key ≠ []) :
    (∀ key, key ∈ (s.replaceWithSnapshot now entries).2.data →
        (s.replaceWithSnapshot now entries).2.lruKeys.count key = 1) ↔
      ∀ key, 1 < (entries.map StoreEntry.key).count key →
        live now (lastEntry key entries) = none := by
  constructor
  · intro honce key hcount
    obtain ⟨hheld, hnodes⟩ := replaceWithSnapshot_taken hmax now hkeys key
    by_contra hlive
    have hsome := Option.isSome_iff_ne_none.2 hlive
    have hone := honce key (by rw [mem_data_iff_held, hheld]; exact hsome)
    have := hnodes hsome
    omega
  · intro hrepeat key hmem
    obtain ⟨hheld, hnodes⟩ := replaceWithSnapshot_taken hmax now hkeys key
    rw [mem_data_iff_held, hheld] at hmem
    obtain ⟨entry, hlive⟩ := Option.isSome_iff_exists.1 hmem
    have hpos := lastEntry_count_pos (live_eq_some.1 hlive).1
    have hone : ¬ 1 < (entries.map StoreEntry.key).count key := by
      intro hcount
      rw [hrepeat key hcount] at hlive
      cases hlive
    have := hnodes hmem
    omega

/-- A refused call changes nothing exactly if the store was already what the
entries before the empty key make. -/
theorem replaceWithSnapshot_unchanged_iff (s : MemoryStore) (now : Int)
    (hempty : ∃ entry ∈ entries, entry.key = []) :
    s.Unchanged (s.replaceWithSnapshot now entries).2 ↔
      s.lruKeys = ((beforeEmptyKey entries).map StoreEntry.key).reverse ∧
        ∀ key, s.held key = lastEntry key (beforeEmptyKey entries) := by
  obtain ⟨hmax, hlru, hheld⟩ := replaceWithSnapshot_stopped s now hempty
  constructor
  · intro hsame
    refine ⟨hsame.lruKeys.symm.trans hlru, fun key => ?_⟩
    rw [← hsame.held, hheld]
  · rintro ⟨hlru', hheld'⟩
    exact ⟨hmax, hlru.trans hlru'.symm, fun key => (hheld key).trans (hheld' key).symm⟩

/-- All or nothing: `true` exactly without an empty key, and then, without a
bound, the last entry of each key is what is seen of it and each stored key is
once in the recency list; `false` and the store is as it was. -/
structure AllOrNothing (s : MemoryStore) (now : Int) (entries : List StoreEntry)
    (r : Bool × MemoryStore) : Prop where
  flag : r.1 = true ↔ ∀ entry ∈ entries, entry.key ≠ []
  seen : r.1 = true → s.maxKeys = 0 → ∀ key, r.2.visible now key = live now (lastEntry key entries)
  once : r.1 = true → s.maxKeys = 0 → ∀ key, key ∈ r.2.data → r.2.lruKeys.count key = 1
  nothing : r.1 = false → s.Unchanged r.2

theorem replaceWithSnapshot_allOrNothing_iff (s : MemoryStore) (now : Int)
    (entries : List StoreEntry) :
    s.AllOrNothing now entries (s.replaceWithSnapshot now entries) ↔
      ((∀ entry ∈ entries, entry.key ≠ []) → s.maxKeys = 0 → ∀ key,
        1 < (entries.map StoreEntry.key).count key → live now (lastEntry key entries) = none) ∧
      ((∃ entry ∈ entries, entry.key = []) →
        s.lruKeys = ((beforeEmptyKey entries).map StoreEntry.key).reverse ∧
        ∀ key, s.held key = lastEntry key (beforeEmptyKey entries)) := by
  have hflag := replaceWithSnapshot_flag s now entries
  have hrefused : (s.replaceWithSnapshot now entries).1 = false ↔
      ∃ entry ∈ entries, entry.key = [] := by
    rw [← Bool.not_eq_true, hflag]
    simp
  constructor
  · intro h
    refine ⟨fun hkeys hmax => ?_, fun hempty => ?_⟩
    · exact (replaceWithSnapshot_once_iff hmax now hkeys).1 (h.once (hflag.2 hkeys) hmax)
    · exact (replaceWithSnapshot_unchanged_iff s now hempty).1 (h.nothing (hrefused.2 hempty))
  · rintro ⟨hrepeat, hsame⟩
    constructor
    case flag => exact hflag
    case seen =>
      intro htrue hmax key
      obtain ⟨hheld, -⟩ := replaceWithSnapshot_taken hmax now (hflag.1 htrue) key
      rw [visible_held, hheld, live_live (Int.le_refl now)]
    case once =>
      intro htrue hmax
      have hkeys := hflag.1 htrue
      exact (replaceWithSnapshot_once_iff hmax now hkeys).2 (hrepeat hkeys hmax)
    case nothing =>
      intro hfalse
      have hempty := hrefused.1 hfalse
      exact (replaceWithSnapshot_unchanged_iff s now hempty).2 (hsame hempty)

/-- A key given twice is twice in the recency list, and an empty key leaves
nothing of a store that held `b`. -/
theorem replaceWithSnapshot_not_allOrNothing :
    (({} : MemoryStore).replaceWithSnapshot 0 [⟨[97], [49], 0⟩, ⟨[97], [50], 0⟩]).2.lruKeys =
        [[97], [97]] ∧
      ¬ ({} : MemoryStore).AllOrNothing 0 [⟨[97], [49], 0⟩, ⟨[97], [50], 0⟩]
        (({} : MemoryStore).replaceWithSnapshot 0 [⟨[97], [49], 0⟩, ⟨[97], [50], 0⟩]) ∧
      (let s := (({} : MemoryStore).put 0 [98] [49]).2
      (s.replaceWithSnapshot 0 [⟨[], [], 0⟩]).1 = false ∧ s.visible 0 [98] = some ⟨[98], [49], 0⟩ ∧
        (s.replaceWithSnapshot 0 [⟨[], [], 0⟩]).2.visible 0 [98] = none) := by
  refine ⟨by decide +kernel, ?_, by decide +kernel⟩
  intro h
  have honce := h.once (by decide +kernel) rfl [97] (by decide +kernel)
  revert honce
  decide +kernel

end MemoryStore

end TinyKV
