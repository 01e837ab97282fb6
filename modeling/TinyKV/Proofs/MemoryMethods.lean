import TinyKV.Model.MemoryMethods
import TinyKV.Proofs.MemoryStore

/-!
# What every method does to a well-formed store

`leaves` and `answers` say of each method what it leaves of the recency list
and what it returns, with the list as the only state; `exec_spec` is the one
lemma that looks at the store. What follows for whole runs, whatever the clock
shows, is that the hash map and the linked list stay two views of one
recency list that fits the bound.
-/

namespace TinyKV

open Recency

/-- The entries of a snapshot have different keys, none of them empty, as
`snapshot_entries` gives them. -/
def MemoryMethod.Proper : MemoryMethod → Prop
  | .replaceWithSnapshot entries => (∀ entry ∈ entries, entry.key ≠ []) ∧ Distinct entries
  | _ => True

instance : DecidablePred MemoryMethod.Proper
  | .replaceWithSnapshot entries =>
    inferInstanceAs (Decidable ((∀ entry ∈ entries, entry.key ≠ []) ∧
      (entries.map StoreEntry.key).Nodup))
  | .put .. | .putWithExpireAt .. | .putTtl .. | .get _ | .del _ | .exists_ _ | .expire ..
  | .expireAt .. | .ttl _ | .setMaxKeys _ | .size | .snapshotEntries | .snapshot | .clear =>
    isTrue trivial

/-- The same result, where the order of an `unordered_map` does not count. -/
def MemoryResult.Same : MemoryResult → MemoryResult → Prop
  | .entries es, .entries es' => es.Perm es'
  | .pairs ps, .pairs ps' => ps.Perm ps'
  | a, b => a = b

namespace MemoryMethod

def storeLeaves (maxKeys : Nat) (now : Int) (entry : StoreEntry) (l : List StoreEntry) :
    List StoreEntry :=
  if entry.key = [] then l else Recency.put maxKeys now entry l

/-- The recency list after a method. -/
def leaves (now : Int) (maxKeys : Nat) (l : List StoreEntry) : MemoryMethod → List StoreEntry
  | put key value => storeLeaves maxKeys now ⟨key, value, 0⟩ l
  | putWithExpireAt key value d => storeLeaves maxKeys now ⟨key, value, d⟩ l
  | putTtl key value ttlSeconds =>
    if ttlSeconds ≤ 0 then l
    else storeLeaves maxKeys now ⟨key, value, MemoryStore.ttlToExpireAtMs now ttlSeconds⟩ l
  | get key => (read now key l).2
  | exists_ key => (read now key l).2
  | del key => remove key l
  | expire key ttlSeconds =>
    if ttlSeconds ≤ 0 then l
    else (Recency.expireAt now key (MemoryStore.ttlToExpireAtMs now ttlSeconds) l).2
  | expireAt key d => (Recency.expireAt now key d l).2
  | ttl key => MemoryStore.ttlLeaves now key l
  | setMaxKeys maxKeys => cap maxKeys (purge now l)
  | size | snapshotEntries | snapshot => purge now l
  | replaceWithSnapshot entries => cap maxKeys (purge now entries.reverse)
  | clear => []

/-- The bound after a method. -/
def bound (maxKeys : Nat) : MemoryMethod → Nat
  | setMaxKeys maxKeys => maxKeys
  | _ => maxKeys

/-- The seconds left to a live entry, as `ttl` counts them. -/
def secondsLeft (now : Int) : Option StoreEntry → Int
  | none => -2
  | some entry =>
    if entry.expireAtMs = 0 then -1
    else if entry.expireAtMs - now ≤ 0 then -2
    else (entry.expireAtMs - now + 999).tdiv 1000

/-- What a method returns. -/
def answers (now : Int) (l : List StoreEntry) : MemoryMethod → MemoryResult
  | put key _ | putWithExpireAt key _ _ => .flag (key ≠ [])
  | putTtl key _ ttlSeconds => .flag (0 < ttlSeconds ∧ key ≠ [])
  | get key => .value ((read now key l).1.map StoreEntry.value)
  | exists_ key => .flag (read now key l).1.isSome
  | del key => .flag (find key l).isSome
  | expire key ttlSeconds =>
    .flag (0 < ttlSeconds ∧
      (Recency.expireAt now key (MemoryStore.ttlToExpireAtMs now ttlSeconds) l).1 = true)
  | expireAt key d => .flag (Recency.expireAt now key d l).1
  | ttl key => .seconds (secondsLeft now (live now (find key l)))
  | size => .count (purge now l).length
  | snapshotEntries => .entries (purge now l)
  | snapshot => .pairs ((purge now l).map fun entry => (entry.key, entry.value))
  | replaceWithSnapshot _ => .flag true
  | setMaxKeys _ | clear => .nothing

end MemoryMethod

namespace MemoryStore

variable {s : MemoryStore}

/-! ## The two methods without a lemma so far -/

theorem ttl_answers (h : s.WF) (now : Int) (key : Str) :
    (s.ttl now key).1 = MemoryMethod.secondsLeft now (live now (find key s.view)) := by
  rw [find_view h, ttl]
  cases hl : s.data.lookup key with
  | none => rfl
  | some entry =>
    have hx : StoreEntry.expired ⟨key, entry.value, entry.expireAtMs⟩ now =
        expired entry now := rfl
    rw [Option.map_some, live_some, hx]
    cases hexp : expired entry now with
    | true => simp [hexp, MemoryMethod.secondsLeft]
    | false =>
      simp only [hexp, MemoryMethod.secondsLeft, Bool.false_eq_true, if_false]
      split <;> rfl

/-- Emplacing keys that are not there yet, one after the other. -/
theorem emplace_entries {es : List (Σ _ : Str, Entry)} (hd : es.NodupKeys)
    {out : AList (fun _ : Str => Str)} (hnew : ∀ kv ∈ es, kv.1 ∉ out) :
    (es.foldl (fun out kv => emplace out kv.1 kv.2.value) out).entries =
      (es.map fun kv => (⟨kv.1, kv.2.value⟩ : Σ _ : Str, Str)).reverse ++ out.entries := by
  induction es generalizing out with
  | nil => rfl
  | cons kv es ih =>
    obtain ⟨hhead, htail⟩ := List.nodupKeys_cons.mp hd
    have hkv : emplace out kv.1 kv.2.value = out.insert kv.1 kv.2.value :=
      if_neg (hnew kv List.mem_cons_self)
    have hrest : ∀ kv' ∈ es, kv'.1 ∉ out.insert kv.1 kv.2.value := by
      intro kv' hmem hin
      obtain heq | hold := AList.mem_insert out |>.mp hin
      · exact hhead (heq ▸ List.mem_keys_of_mem hmem)
      · exact hnew kv' (List.mem_cons_of_mem _ hmem) hold
    rw [List.foldl_cons, hkv, ih htail hrest,
      AList.entries_insert_of_notMem (hnew kv List.mem_cons_self)]
    simp

theorem snapshot_pairs (h : s.WF) (now : Int) :
    ((s.snapshot now).1.entries.map fun kv => (kv.1, kv.2)).Perm
      ((purge now s.view).map fun entry => (entry.key, entry.value)) := by
  obtain ⟨hperm, -⟩ := snapshotEntries_spec h now
  refine List.Perm.trans ?_ (hperm.map _)
  have hentries := emplace_entries (s.evictExpiredLocked now).data.nodupKeys
    fun kv _ => AList.notMem_empty kv.1
  simp only [snapshot, snapshotEntries, hentries]
  simp [Function.comp_def, List.map_reverse]

end MemoryStore

/-! ## One method -/

theorem MemoryResult.Same.refl (a : MemoryResult) : a.Same a := by
  cases a with
  | entries es => exact List.Perm.refl es
  | pairs ps => exact List.Perm.refl ps
  | flag b | value v | seconds n | count n | nothing => rfl

theorem MemoryResult.Same.of_eq {a b : MemoryResult} (h : a = b) : a.Same b := h ▸ .refl a

namespace MemoryMethod

variable {s : MemoryStore} {now : Int}

/-- The result of a method on `s`, told by the recency list alone. -/
structure Does (now : Int) (s : MemoryStore) (m : MemoryMethod)
    (r : MemoryResult × MemoryStore) : Prop where
  wf : r.2.WF
  maxKeys : r.2.maxKeys = m.bound s.maxKeys
  view : r.2.view = m.leaves now s.maxKeys s.view
  result : r.1.Same (m.answers now s.view)

theorem storeLeaves_acts (h : s.WF) (now : Int) (key value : Str) (d : Int) :
    s.Acts (s.putWithExpireAt now key value d) (decide (key ≠ []))
      (storeLeaves s.maxKeys now ⟨key, value, d⟩ s.view) := by
  by_cases hkey : key = []
  · simp only [MemoryStore.putWithExpireAt, storeLeaves, hkey, if_true]
    exact ⟨by simp, h, rfl, rfl⟩
  · have hput := MemoryStore.putWithExpireAt_acts h now hkey value d
    refine ⟨hput.answer.trans (by simp [hkey]), hput.wf, hput.maxKeys, ?_⟩
    rw [hput.view, storeLeaves, if_neg hkey]

theorem putTtl_acts (h : s.WF) (now : Int) (key value : Str) (ttlSeconds : Int) :
    s.Acts (s.putTtl now key value ttlSeconds) (decide (0 < ttlSeconds ∧ key ≠ []))
      ((putTtl key value ttlSeconds).leaves now s.maxKeys s.view) := by
  by_cases hle : ttlSeconds ≤ 0
  · simp only [MemoryStore.putTtl, leaves, if_pos hle]
    exact ⟨by simp [Int.not_lt.2 hle], h, rfl, rfl⟩
  · simp only [MemoryStore.putTtl, leaves, if_neg hle, Int.not_le.1 hle, true_and]
    exact storeLeaves_acts h now key value (MemoryStore.ttlToExpireAtMs now ttlSeconds)

theorem expire_acts (h : s.WF) (now : Int) (key : Str) (ttlSeconds : Int) :
    s.Acts (s.expire now key ttlSeconds)
      (decide (0 < ttlSeconds ∧ (Recency.expireAt now key
        (MemoryStore.ttlToExpireAtMs now ttlSeconds) s.view).1 = true))
      ((expire key ttlSeconds).leaves now s.maxKeys s.view) := by
  by_cases hle : ttlSeconds ≤ 0
  · simp only [MemoryStore.expire, leaves, if_pos hle]
    exact ⟨by simp [Int.not_lt.2 hle], h, rfl, rfl⟩
  · simp only [MemoryStore.expire, leaves, if_neg hle, Int.not_le.1 hle, true_and,
      Bool.decide_eq_true]
    exact MemoryStore.expireAt_acts h now key (MemoryStore.ttlToExpireAtMs now ttlSeconds)

variable {m : MemoryMethod} {l : List StoreEntry} {maxKeys : Nat}

/-- A method whose effect is known as that of `Acts`. -/
theorem Does.of_acts {α : Type} {r : α × MemoryStore} {answer : α} {wrap : α → MemoryResult}
    (h : s.Acts r answer (m.leaves now s.maxKeys s.view)) (hbound : m.bound s.maxKeys = s.maxKeys)
    (hanswer : wrap answer = m.answers now s.view) : Does now s m (r.map wrap id) :=
  ⟨h.wf, h.maxKeys.trans hbound.symm, h.view,
    .of_eq ((congrArg wrap h.answer).trans hanswer)⟩

theorem exec_spec (h : s.WF) (now : Int) (hm : m.Proper) : Does now s m (m.exec now s) := by
  cases m with
  | put key value => exact .of_acts (storeLeaves_acts h now key value 0) rfl rfl
  | putWithExpireAt key value d => exact .of_acts (storeLeaves_acts h now key value d) rfl rfl
  | putTtl key value ttlSeconds => exact .of_acts (putTtl_acts h now key value ttlSeconds) rfl rfl
  | get key => exact .of_acts (MemoryStore.get_acts h now key) rfl rfl
  | del key => exact .of_acts (MemoryStore.del_acts h key) rfl rfl
  | exists_ key =>
    have hact := MemoryStore.exists_acts h now key
    exact ⟨hact.wf, hact.maxKeys, hact.view, .of_eq (congrArg MemoryResult.flag hact.answer)⟩
  | expire key ttlSeconds => exact .of_acts (expire_acts h now key ttlSeconds) rfl rfl
  | expireAt key d => exact .of_acts (MemoryStore.expireAt_acts h now key d) rfl rfl
  | ttl key =>
    obtain ⟨hwf, hmax, hview⟩ := MemoryStore.ttl_keeps h now key
    exact ⟨hwf, hmax, hview, .of_eq (congrArg MemoryResult.seconds
      (MemoryStore.ttl_answers h now key))⟩
  | setMaxKeys maxKeys =>
    obtain ⟨hwf, hmax, hview⟩ := MemoryStore.setMaxKeys_keeps h now maxKeys
    exact ⟨hwf, hmax, hview, .refl _⟩
  | size =>
    obtain ⟨hwf, hmax, hview⟩ := MemoryStore.evictExpiredLocked_spec h now
    refine ⟨hwf, hmax, hview, .of_eq (congrArg MemoryResult.count ?_)⟩
    exact (MemoryStore.keys_length hwf).trans (congrArg List.length hview)
  | snapshotEntries =>
    obtain ⟨hperm, hwf, hmax, hview⟩ := MemoryStore.snapshotEntries_spec h now
    exact ⟨hwf, hmax, hview, hperm⟩
  | replaceWithSnapshot entries =>
    exact .of_acts (MemoryStore.replaceWithSnapshot_acts s now hm.1 hm.2) rfl rfl
  | snapshot =>
    obtain ⟨hwf, hmax, hview⟩ := MemoryStore.evictExpiredLocked_spec h now
    exact ⟨hwf, hmax, hview, MemoryStore.snapshot_pairs h now⟩
  | clear => exact ⟨MemoryStore.clear_wf s, rfl, rfl, .refl _⟩

/-! ## The bound -/

theorem length_push_le {key : Str} {entry : StoreEntry} (hfind : (find key l).isSome)
    (hkey : entry.key = key) : (push entry l).length ≤ l.length := by
  obtain ⟨old, hold⟩ := Option.isSome_iff_exists.1 hfind
  have hlt : (remove key l).length < l.length := by
    rw [remove, List.length_filter_lt_length_iff_exists]
    exact ⟨old, find_mem hold, by simp [find_key hold]⟩
  rw [push, hkey, List.length_cons]
  omega

theorem length_cap_le (hpos : 0 < maxKeys) (l : List StoreEntry) :
    (cap maxKeys l).length ≤ maxKeys := by
  rw [cap, if_neg (by omega)]
  exact List.length_take_le maxKeys l

theorem length_read_le (now : Int) (key : Str) (l : List StoreEntry) :
    (read now key l).2.length ≤ l.length := by
  unfold Recency.read
  split
  · exact Nat.le_refl _
  · next entry hfind =>
    split
    · exact List.length_filter_le ..
    · exact length_push_le (hfind ▸ rfl) (find_key hfind)

theorem length_expireAt_le (now : Int) (key : Str) (d : Int) (l : List StoreEntry) :
    (Recency.expireAt now key d l).2.length ≤ l.length := by
  unfold Recency.expireAt
  split
  · exact Nat.le_refl _
  · next entry hfind =>
    split
    · exact List.length_filter_le ..
    · have hkey := find_key hfind
      exact length_push_le (hfind ▸ rfl) hkey

theorem length_storeLeaves_le (hpos : 0 < maxKeys) (now : Int) (entry : StoreEntry)
    (hfits : l.length ≤ maxKeys) : (storeLeaves maxKeys now entry l).length ≤ maxKeys := by
  unfold storeLeaves
  split
  · exact hfits
  · exact length_cap_le hpos _

/-- A list within the bound is left within the bound of after. -/
theorem leaves_fits (m : MemoryMethod) (h : 0 < maxKeys → l.length ≤ maxKeys)
    (hpos : 0 < m.bound maxKeys) : (m.leaves now maxKeys l).length ≤ m.bound maxKeys := by
  cases m with
  | put key value => exact length_storeLeaves_le hpos now _ (h hpos)
  | putWithExpireAt key value d => exact length_storeLeaves_le hpos now _ (h hpos)
  | putTtl key value ttlSeconds =>
    simp only [leaves]
    split
    · exact h hpos
    · exact length_storeLeaves_le hpos now _ (h hpos)
  | get key => exact Nat.le_trans (length_read_le now key l) (h hpos)
  | exists_ key => exact Nat.le_trans (length_read_le now key l) (h hpos)
  | del key => exact Nat.le_trans (List.length_filter_le ..) (h hpos)
  | expire key ttlSeconds =>
    simp only [leaves]
    split
    · exact h hpos
    · exact Nat.le_trans (length_expireAt_le now key _ l) (h hpos)
  | expireAt key d => exact Nat.le_trans (length_expireAt_le now key d l) (h hpos)
  | ttl key =>
    simp only [leaves, MemoryStore.ttlLeaves]
    split
    · exact h hpos
    · split
      · exact Nat.le_trans (List.length_filter_le ..) (h hpos)
      · exact h hpos
  | setMaxKeys n => exact length_cap_le hpos _
  | size | snapshotEntries | snapshot => exact Nat.le_trans (List.length_filter_le ..) (h hpos)
  | replaceWithSnapshot entries => exact length_cap_le hpos _
  | clear => exact Nat.zero_le _

/-! ## Whole runs -/

theorem execAll_cons (s : MemoryStore) (call : Int × MemoryMethod)
    (calls : List (Int × MemoryMethod)) :
    execAll s (call :: calls) =
      ((call.2.exec call.1 s).1 :: (execAll (call.2.exec call.1 s).2 calls).1,
        (execAll (call.2.exec call.1 s).2 calls).2) := rfl

/-- Well formed, and within the bound if there is one. -/
structure Kept (s : MemoryStore) : Prop where
  wf : s.WF
  fits : 0 < s.maxKeys → s.view.length ≤ s.maxKeys

theorem exec_kept (h : Kept s) (now : Int) (hm : m.Proper) : Kept (m.exec now s).2 := by
  have hdoes := exec_spec h.wf now hm
  refine ⟨hdoes.wf, fun hpos => ?_⟩
  rw [hdoes.maxKeys] at hpos ⊢
  rw [hdoes.view]
  exact leaves_fits m h.fits hpos

theorem execAll_kept {calls : List (Int × MemoryMethod)} (h : Kept s)
    (hcalls : ∀ call ∈ calls, call.2.Proper) : Kept (execAll s calls).2 := by
  induction calls generalizing s with
  | nil => exact h
  | cons call calls ih =>
    obtain ⟨hcall, hrest⟩ := List.forall_mem_cons.1 hcalls
    rw [execAll_cons]
    exact ih (exec_kept h call.1 hcall) hrest

end MemoryMethod

/-- The hash map and the linked list are two views of the same keys, and the
map is no larger than the bound. -/
structure MemoryStore.Consistent (s : MemoryStore) : Prop where
  nodup : (s.lru.map Prod.snd).Nodup
  keys : ∀ key, key ∈ s.lru.map Prod.snd ↔ key ∈ s.data
  position : ∀ key entry, s.data.lookup key = some entry →
    s.lru.filter (fun node => node.1 == entry.lruIt) = [(entry.lruIt, key)]
  bounded : 0 < s.maxKeys → s.data.keys.length ≤ s.maxKeys

theorem MemoryMethod.Kept.consistent {s : MemoryStore} (h : Kept s) : s.Consistent := by
  refine ⟨h.wf.keys_nodup, ?_, ?_, ?_⟩
  · intro key
    constructor
    · intro hmem
      obtain ⟨node, hnode, rfl⟩ := List.mem_map.1 hmem
      obtain ⟨entry, hl, -⟩ := h.wf.node_entry node hnode
      exact AList.lookup_isSome.1 (hl ▸ rfl)
    · intro hmem
      obtain ⟨entry, hl⟩ := Option.isSome_iff_exists.1 (AList.lookup_isSome.2 hmem)
      exact List.mem_map.2 ⟨_, h.wf.entry_node key entry hl, rfl⟩
  · intro key entry hl
    have hnode := h.wf.entry_node key entry hl
    have honly : ∀ node ∈ s.lru, (node.1 == entry.lruIt) = (node == (entry.lruIt, key)) := by
      intro node hmem
      rw [Bool.eq_iff_iff, beq_iff_eq, beq_iff_eq]
      constructor
      · intro hid
        exact h.wf.inj_id hmem hnode hid
      · intro heq
        rw [heq]
    have hnodup : s.lru.Nodup := List.Nodup.of_map _ h.wf.ids_nodup
    rw [List.filter_congr honly, List.filter_beq, hnodup.count, if_pos hnode]
    rfl
  · intro hpos
    rw [MemoryStore.keys_length h.wf]
    exact h.fits hpos

/-- Whatever is called in whatever order and whatever the clock shows, after
every call the store is consistent. -/
theorem MemoryMethod.execAll_consistent (calls : List (Int × MemoryMethod))
    (hcalls : ∀ call ∈ calls, call.2.Proper) (n : Nat) :
    (execAll {} (calls.take n)).2.Consistent := by
  have hstart : Kept {} := ⟨MemoryStore.wf_empty 0, fun _ => Nat.zero_le _⟩
  exact (execAll_kept hstart fun call hmem => hcalls call (List.mem_of_mem_take hmem)).consistent

/-- A bound of one key, an expired key and a snapshot of two. -/
theorem MemoryMethod.execAll_consistent_one :
    let calls : List (Int × MemoryMethod) := [(1, .setMaxKeys 1), (2, .putTtl [97] [49] 1),
      (5000, .get [97]), (3, .replaceWithSnapshot [⟨[97], [49], 0⟩, ⟨[98], [50], 0⟩]),
      (4, .del [97])]
    (∀ call ∈ calls, call.2.Proper) ∧ (execAll {} (calls.take 4)).2.Consistent :=
  ⟨by decide, execAll_consistent _ (by decide) 4⟩

end TinyKV
