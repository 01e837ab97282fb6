import TinyKV.Proofs.MemoryMethods

/-!
# What is left of an expired key

Two stores with the same live entries may differ in expired ones that nothing
has purged yet. `LiveTwins now` is that relation at an instant. Every method leaves
twins, and every method but one answers twins alike: `del` looks at the map
before it looks at any deadline, and reports the removal of a key that every
other method takes for absent. So two runs differ exactly where a key is
deleted that lingers in one of the stores only.
-/

namespace TinyKV

open Recency

/-- The key has expired and is still in the map. -/
def MemoryStore.lingers (s : MemoryStore) (now : Int) (key : Str) : Bool :=
  match s.data.lookup key with
  | none => false
  | some entry => expired entry now

/-- The same bound and the same live entries in the same order. -/
structure LiveTwins (now : Int) (s s' : MemoryStore) : Prop where
  left : s.WF
  right : s'.WF
  maxKeys : s.maxKeys = s'.maxKeys
  alike : Alike now s.view s'.view

theorem MemoryResult.Same.symm {a b : MemoryResult} (h : a.Same b) : b.Same a := by
  cases a <;> cases b <;> first | exact List.Perm.symm h | exact Eq.symm h

theorem MemoryResult.Same.trans {a b c : MemoryResult} (h : a.Same b) (h' : b.Same c) :
    a.Same c := by
  cases a <;> cases b <;> simp only [Same, reduceCtorEq] at h <;>
    cases c <;> simp only [Same, reduceCtorEq] at h'
  case entries.entries.entries => exact List.Perm.trans h h'
  case pairs.pairs.pairs => exact List.Perm.trans h h'
  all_goals first | exact Eq.trans h h' | rfl

namespace Recency

theorem read_found (now : Int) (key : Str) (l : List StoreEntry) :
    (read now key l).1 = live now (find key l) := by
  unfold Recency.read
  cases find key l with
  | none => rfl
  | some entry =>
    rw [live_some]
    simp only
    split <;> rfl

theorem Alike.read {now : Int} {l l' : List StoreEntry} (h : Alike now l l') (hd : Distinct l)
    (hd' : Distinct l') (key : Str) :
    Alike now (Recency.read now key l).2 (Recency.read now key l').2 := by
  refine (read_alike now hd key).trans (.trans ?_ (read_alike now hd' key).symm)
  rw [h.live_find hd hd' key]
  cases live now (find key l') with
  | none => exact h
  | some entry => exact h.push entry

theorem Alike.expireAt {now : Int} {l l' : List StoreEntry} (h : Alike now l l')
    (hd : Distinct l) (hd' : Distinct l') (key : Str) (d : Int) :
    (Recency.expireAt now key d l).1 = (Recency.expireAt now key d l').1 ∧
      Alike now (Recency.expireAt now key d l).2 (Recency.expireAt now key d l').2 := by
  obtain ⟨hflag, hleft⟩ := expireAt_alike now hd key d
  obtain ⟨hflag', hright⟩ := expireAt_alike now hd' key d
  have hlive := h.live_find hd hd' key
  refine ⟨by rw [hflag, hflag', hlive], hleft.trans (.trans ?_ hright.symm)⟩
  rw [hlive]
  cases live now (find key l') with
  | none => exact h
  | some entry => exact h.push _

end Recency

namespace MemoryMethod

variable {now : Int} {l l' : List StoreEntry}

/-! ## One method -/

theorem storeLeaves_alike (h : Alike now l l') (maxKeys : Nat) (entry : StoreEntry) :
    Alike now (storeLeaves maxKeys now entry l) (storeLeaves maxKeys now entry l') := by
  have hpush : purge now (push entry l) = purge now (push entry l') := h.push entry
  unfold storeLeaves
  split
  · exact h
  · simp only [Recency.put, hpush]
    exact .refl now _

theorem leaves_alike (h : Alike now l l') (hd : Distinct l) (hd' : Distinct l') (maxKeys : Nat)
    (m : MemoryMethod) : Alike now (m.leaves now maxKeys l) (m.leaves now maxKeys l') := by
  have hpurge : purge now l = purge now l' := h
  cases m with
  | put key value => exact storeLeaves_alike h maxKeys _
  | putWithExpireAt key value d => exact storeLeaves_alike h maxKeys _
  | putTtl key value ttlSeconds =>
    simp only [leaves]
    split
    · exact h
    · exact storeLeaves_alike h maxKeys _
  | get key => exact h.read hd hd' key
  | exists_ key => exact h.read hd hd' key
  | del key => exact h.remove key
  | expire key ttlSeconds =>
    simp only [leaves]
    split
    · exact h
    · exact (h.expireAt hd hd' key _).2
  | expireAt key d => exact (h.expireAt hd hd' key d).2
  | ttl key =>
    have hleft : Alike now _ l := MemoryStore.ttlLeaves_alike hd key
    have hright : Alike now _ l' := MemoryStore.ttlLeaves_alike hd' key
    exact hleft.trans (h.trans hright.symm)
  | setMaxKeys n =>
    simp only [leaves, hpurge]
    exact .refl now _
  | size | snapshotEntries | snapshot =>
    simp only [leaves, hpurge]
    exact .refl now _
  | replaceWithSnapshot entries => exact .refl now _
  | clear => exact .refl now _

/-- Only `del` sees more than the live entries. -/
theorem answers_alike (h : Alike now l l') (hd : Distinct l) (hd' : Distinct l')
    {m : MemoryMethod} (hm : ∀ key, m ≠ .del key) : m.answers now l = m.answers now l' := by
  have hpurge : purge now l = purge now l' := h
  cases m with
  | del key => exact absurd rfl (hm key)
  | get key => simp only [answers, read_found, h.live_find hd hd' key]
  | exists_ key => simp only [answers, read_found, h.live_find hd hd' key]
  | expire key ttlSeconds => simp only [answers, (h.expireAt hd hd' key _).1]
  | expireAt key d => simp only [answers, (h.expireAt hd hd' key d).1]
  | ttl key => simp only [answers, h.live_find hd hd' key]
  | size | snapshotEntries | snapshot => simp only [answers, hpurge]
  | put | putWithExpireAt | putTtl | setMaxKeys | replaceWithSnapshot | clear => rfl

end MemoryMethod

namespace LiveTwins

variable {t now : Int} {s s' : MemoryStore}

theorem later (h : LiveTwins t s s') (hle : t ≤ now) : LiveTwins now s s' :=
  ⟨h.left, h.right, h.maxKeys, h.alike.later hle⟩

theorem lingers_view {s : MemoryStore} (h : s.WF) (now : Int) (key : Str) :
    s.lingers now key = (find key s.view).any fun entry => entry.expired now := by
  rw [MemoryStore.find_view h, MemoryStore.lingers]
  cases s.data.lookup key <;> rfl

/-- An entry is there exactly when it is live or has expired. -/
theorem isSome_eq (now : Int) (x : Option StoreEntry) :
    x.isSome = ((live now x).isSome || x.any fun entry => entry.expired now) := by
  cases x with
  | none => rfl
  | some entry =>
    rw [live_some]
    cases hexp : entry.expired now <;> simp [hexp]

theorem not_expired_of_live {now : Int} {x : Option StoreEntry}
    (h : (live now x).isSome = true) : (x.any fun entry => entry.expired now) = false := by
  obtain ⟨entry, hlive⟩ := Option.isSome_iff_exists.1 h
  obtain ⟨rfl, hexp⟩ := live_eq_some.1 hlive
  simp [hexp]

theorem del_same_iff (h : LiveTwins now s s') (key : Str) :
    (s.del key).1 = (s'.del key).1 ↔ s.lingers now key = s'.lingers now key := by
  have hlive := h.alike.live_find (MemoryStore.view_distinct h.left)
    (MemoryStore.view_distinct h.right) key
  rw [(MemoryStore.del_acts h.left key).answer, (MemoryStore.del_acts h.right key).answer,
    lingers_view h.left, lingers_view h.right, isSome_eq now, isSome_eq now (find key s'.view),
    hlive]
  cases hsome : (live now (find key s'.view)).isSome with
  | false => simp
  | true => simp [not_expired_of_live hsome, not_expired_of_live (hlive ▸ hsome)]

theorem exec (h : LiveTwins now s s') {m : MemoryMethod} (hm : m.Proper) :
    LiveTwins now (m.exec now s).2 (m.exec now s').2 := by
  have hleft := MemoryMethod.exec_spec h.left now hm
  have hright := MemoryMethod.exec_spec h.right now hm
  refine ⟨hleft.wf, hright.wf, by rw [hleft.maxKeys, hright.maxKeys, h.maxKeys], ?_⟩
  rw [hleft.view, hright.view, h.maxKeys]
  exact MemoryMethod.leaves_alike h.alike (MemoryStore.view_distinct h.left)
    (MemoryStore.view_distinct h.right) _ m

theorem exec_same_iff (h : LiveTwins now s s') {m : MemoryMethod} (hm : m.Proper) :
    (m.exec now s).1.Same (m.exec now s').1 ↔
      ∀ key, m = .del key → s.lingers now key = s'.lingers now key := by
  by_cases hdel : ∃ key, m = .del key
  · obtain ⟨key, rfl⟩ := hdel
    have hflags : ((MemoryMethod.del key).exec now s).1.Same ((MemoryMethod.del key).exec now s').1
        ↔ (s.del key).1 = (s'.del key).1 :=
      ⟨MemoryResult.flag.inj, congrArg MemoryResult.flag⟩
    rw [hflags, h.del_same_iff key]
    constructor
    · rintro hsame key' heq
      cases heq
      exact hsame
    · intro hall
      exact hall key rfl
  · have hnot : ∀ key, m ≠ .del key := fun key heq => hdel ⟨key, heq⟩
    have hleft := (MemoryMethod.exec_spec h.left now hm).result
    have hright := (MemoryMethod.exec_spec h.right now hm).result
    rw [MemoryMethod.answers_alike h.alike (MemoryStore.view_distinct h.left)
      (MemoryStore.view_distinct h.right) hnot] at hleft
    exact iff_of_true (hleft.trans hright.symm) fun key heq => absurd heq (hnot key)

end LiveTwins

/-! ## Whole runs -/

/-- Both runs return the same exactly when every key that a `del` names at its
instant lingers in both stores or in neither. -/
theorem LiveTwins.execAll_same_iff {now : Int} {s s' : MemoryStore} (h : LiveTwins now s s')
    {calls : List (Int × MemoryMethod)} (hproper : ∀ call ∈ calls, call.2.Proper)
    (hclock : (now :: calls.map Prod.fst).Pairwise (· ≤ ·)) :
    List.Forall₂ MemoryResult.Same (MemoryMethod.execAll s calls).1
        (MemoryMethod.execAll s' calls).1 ↔
      ∀ before t key after, calls = before ++ (t, .del key) :: after →
        (MemoryMethod.execAll s before).2.lingers t key =
          (MemoryMethod.execAll s' before).2.lingers t key := by
  induction calls generalizing now s s' with
  | nil =>
    refine iff_of_true .nil ?_
    intro before t key after heq
    simp at heq
  | cons call calls ih =>
    obtain ⟨hcall, hrest⟩ := List.forall_mem_cons.1 hproper
    obtain ⟨hle, hlater⟩ := List.pairwise_cons.1 hclock
    have htwins := h.later (hle call.1 (by simp))
    have hrun := ih (htwins.exec hcall) hrest hlater
    have hstep := htwins.exec_same_iff hcall
    rw [MemoryMethod.execAll_cons, MemoryMethod.execAll_cons, List.forall₂_cons, hrun, hstep]
    constructor
    · rintro ⟨hhead, htail⟩ before t key after heq
      cases before with
      | nil =>
        obtain ⟨rfl, rfl⟩ := List.cons.inj heq
        exact hhead key rfl
      | cons first before =>
        obtain ⟨rfl, rfl⟩ := List.cons.inj heq
        exact htail before t key after rfl
    · intro hall
      refine ⟨?_, ?_⟩
      · intro key heq
        exact hall [] call.1 key calls (by rw [← heq]; rfl)
      · intro before t key after heq
        exact hall (call :: before) t key after (by rw [heq]; rfl)

/-- At 3, `a` has expired in both stores; the second has been asked for its
size since. -/
def purgedTwin : MemoryStore × MemoryStore :=
  let s := (MemoryMethod.execAll {} [(1, .putWithExpireAt [97] [49] 2)]).2
  (s, (MemoryMethod.execAll s [(3, .size)]).2)

theorem purgedTwin_twins : LiveTwins 3 purgedTwin.1 purgedTwin.2 := by
  have hempty : MemoryMethod.Kept {} := ⟨MemoryStore.wf_empty 0, fun _ => Nat.zero_le _⟩
  have hkept := MemoryMethod.exec_kept hempty 1 (m := .putWithExpireAt [97] [49] 2) trivial
  have hsize := MemoryMethod.exec_spec hkept.wf 3 (m := .size) trivial
  refine ⟨hkept.wf, hsize.wf, rfl, ?_⟩
  rw [show purgedTwin.2.view = purge 3 purgedTwin.1.view from hsize.view]
  exact (alike_purge 3 _).symm

/-- The key is gone for every other method, and `del` removes it from one of
the two. -/
theorem purgedTwin_del_differs :
    LiveTwins 3 purgedTwin.1 purgedTwin.2 ∧
      (MemoryMethod.execAll purgedTwin.1 [(3, .del [97])]).1 = [.flag true] ∧
      (MemoryMethod.execAll purgedTwin.2 [(3, .del [97])]).1 = [.flag false] :=
  ⟨purgedTwin_twins, by decide +kernel, by decide +kernel⟩

/-- Asked for the key before it is deleted, the two cannot be told apart. -/
theorem purgedTwin_read_first :
    let calls := [(3, MemoryMethod.get [97]), (4, .del [97]), (5, .size)]
    LiveTwins 3 purgedTwin.1 purgedTwin.2 ∧ (3 :: calls.map Prod.fst).Pairwise (· ≤ ·) ∧
      List.Forall₂ MemoryResult.Same (MemoryMethod.execAll purgedTwin.1 calls).1
        (MemoryMethod.execAll purgedTwin.2 calls).1 := by
  refine ⟨purgedTwin_twins, by decide, ?_⟩
  refine (purgedTwin_twins.execAll_same_iff (by decide) (by decide)).2 ?_
  intro before t key after heq
  rcases before with _ | ⟨first, _ | ⟨second, _ | ⟨third, before⟩⟩⟩ <;>
    simp only [List.nil_append, List.cons_append, List.cons.injEq, Prod.mk.injEq, reduceCtorEq,
      and_false, false_and, List.nil_eq, List.append_eq_nil_iff] at heq
  obtain ⟨rfl, ⟨rfl, hkey⟩, -⟩ := heq
  cases hkey
  decide +kernel

end TinyKV
