import TinyKV.Proofs.MemoryStore
import TinyKV.Spec.ReferenceStore

/-!
# The in-memory store against its reference

The store purges an expired entry when it happens to meet it, the reference
drops it at once. So the two lists are not equal between calls, and `Follows`
asks for what can be seen only: the same live entries in the same order. At
the instant of a call the reference is the purged list of the store
(`Follows.live`), and each call is followed on it.

Deadlines that are not negative matter to `ttl` alone, which takes a negative
one for a key that is gone.
-/

namespace TinyKV

open Recency

/-- The same live entries in the same order, under the same bound. -/
structure Follows (now : Int) (s : MemoryStore) (r : ReferenceStore) : Prop where
  wf : s.WF
  maxKeys : r.maxKeys = s.maxKeys
  alike : Alike now s.view r.entries
  dated : ∀ entry ∈ r.entries, 0 ≤ entry.expireAtMs

/-- A call answers as the reference does and leaves the store behind it. -/
structure Agrees (now : Int) (a : MemoryAnswer × MemoryStore)
    (b : MemoryAnswer × ReferenceStore) : Prop where
  answer : a.1 = b.1
  follows : Follows now a.2 b.2

variable {t : Int} {s : MemoryStore} {r : ReferenceStore}

theorem Follows.live {now : Int} (hle : t ≤ now) (h : Follows t s r) :
    Follows now s (r.at_ now) ∧ (r.at_ now).entries = purge now s.view := by
  have hpurge : purge now r.entries = purge now s.view := (h.alike.later hle).symm
  refine ⟨⟨h.wf, h.maxKeys, ?_, fun entry he => h.dated entry (List.mem_of_mem_filter he)⟩, hpurge⟩
  show purge now s.view = purge now (purge now r.entries)
  rw [hpurge, purge_purge (Int.le_refl now)]

section Calls

variable {now : Int} (h : Follows now s r) (hlive : r.entries = purge now s.view)
include h hlive

theorem find_live (key : Str) : find key r.entries = Recency.live now (find key s.view) := by
  rw [hlive, find_purge (MemoryStore.view_distinct h.wf)]

omit h in
theorem alike_live : Alike now s.view r.entries := by
  rw [hlive]
  exact (alike_purge now s.view).symm

theorem store_agrees (key value : Str) {d : Int} (hd : 0 ≤ d) :
    Agrees now ((s.putWithExpireAt now key value d).map .flag id) (r.store now key value d) := by
  by_cases hk : key = []
  · subst hk
    exact ⟨rfl, h⟩
  · have hput := MemoryStore.putWithExpireAt_acts h.wf now hk value d
    have hpush : purge now (push ⟨key, value, d⟩ s.view) =
        purge now (push ⟨key, value, d⟩ r.entries) := (alike_live hlive).push _
    rw [ReferenceStore.store, if_neg hk]
    refine ⟨congrArg MemoryAnswer.flag hput.answer, hput.wf, ?_, ?_, fun entry he => ?_⟩
    · exact h.maxKeys.trans hput.maxKeys.symm
    · show Alike now (s.putWithExpireAt now key value d).2.view _
      rw [hput.view, put, hpush, h.maxKeys]
      exact Alike.refl now _
    · rcases List.mem_cons.mp (List.mem_of_mem_filter (mem_of_mem_cap he)) with rfl | he
      · exact hd
      · exact h.dated entry (List.mem_of_mem_filter he)

/-- Both reads leave the same behind. -/
theorem touch_follows {m : MemoryStore} (hwf : m.WF) (hmax : m.maxKeys = s.maxKeys) {key : Str}
    (hview : m.view = (read now key s.view).2) : Follows now m (r.touch key) := by
  have hread := read_alike now (MemoryStore.view_distinct h.wf) key
  rw [← find_live h hlive, ← hview] at hread
  rw [ReferenceStore.touch]
  cases hf : find key r.entries with
  | none =>
    rw [hf] at hread
    exact ⟨hwf, h.maxKeys.trans hmax.symm, hread.trans (alike_live hlive), h.dated⟩
  | some entry =>
    rw [hf] at hread
    refine ⟨hwf, h.maxKeys.trans hmax.symm, hread.trans ((alike_live hlive).push entry), ?_⟩
    intro e he
    rcases List.mem_cons.mp he with rfl | he
    · exact h.dated e (find_mem hf)
    · exact h.dated e (List.mem_of_mem_filter he)

/-- What a read finds is the live entry. -/
theorem read_fst (key : Str) : (read now key s.view).1 = find key r.entries := by
  rw [find_live h hlive, Recency.read]
  cases find key s.view with
  | none => rfl
  | some entry =>
    rw [live_some]
    cases hx : entry.expired now with
    | true => simp only [hx, if_true]
    | false => simp only [hx, Bool.false_eq_true, if_false]

theorem get_agrees (key : Str) : Agrees now ((s.get now key).map .value id)
    (.value ((find key r.entries).map StoreEntry.value), r.touch key) := by
  have hget := MemoryStore.get_acts h.wf now key
  have hanswer := hget.answer
  rw [read_fst h hlive] at hanswer
  exact ⟨congrArg MemoryAnswer.value hanswer,
    touch_follows h hlive hget.wf hget.maxKeys hget.view⟩

theorem exists_agrees (key : Str) : Agrees now ((s.exists_ now key).map .flag id)
    (.flag (find key r.entries).isSome, r.touch key) := by
  have hex := MemoryStore.exists_acts h.wf now key
  have hanswer := hex.answer
  rw [read_fst h hlive] at hanswer
  exact ⟨congrArg MemoryAnswer.flag hanswer, touch_follows h hlive hex.wf hex.maxKeys hex.view⟩

theorem del_agrees (key : Str) : Agrees now (.nothing, (s.del key).2)
    (.nothing, { r with entries := remove key r.entries }) := by
  have hdel := MemoryStore.del_acts h.wf key
  refine ⟨rfl, hdel.wf, h.maxKeys.trans hdel.maxKeys.symm, ?_, fun entry he =>
    h.dated entry (List.mem_of_mem_filter he)⟩
  rw [hdel.view]
  exact (alike_live hlive).remove key

theorem date_agrees (key : Str) {d : Int} (hd : 0 ≤ d) :
    Agrees now ((s.expireAt now key d).map .flag id) (r.date key d) := by
  have hexp := MemoryStore.expireAt_acts h.wf now key d
  obtain ⟨hflag, hleft⟩ := expireAt_alike now (MemoryStore.view_distinct h.wf) key d
  rw [← hexp.view] at hleft
  rw [← find_live h hlive] at hflag hleft
  have hmax := h.maxKeys.trans hexp.maxKeys.symm
  have hanswer := hexp.answer.trans hflag
  rw [ReferenceStore.date]
  cases hf : find key r.entries with
  | none =>
    rw [hf] at hanswer hleft
    exact ⟨congrArg MemoryAnswer.flag hanswer, hexp.wf, hmax,
      hleft.trans (alike_live hlive), h.dated⟩
  | some entry =>
    rw [hf] at hanswer hleft
    refine ⟨congrArg MemoryAnswer.flag hanswer, hexp.wf, hmax,
      hleft.trans ((alike_live hlive).push _), fun e he => ?_⟩
    rcases List.mem_cons.mp he with rfl | he
    · exact hd
    · exact h.dated e (List.mem_of_mem_filter he)

theorem ttl_answer (key : Str) : (s.ttl now key).1 = r.remaining now key := by
  have hfind := find_live h hlive key
  rw [MemoryStore.find_view h.wf] at hfind
  rw [MemoryStore.ttl, ReferenceStore.remaining]
  cases hl : s.data.lookup key with
  | none =>
    rw [hl] at hfind
    rw [hfind]
    rfl
  | some entry =>
    rw [hl, Option.map_some, live_some] at hfind
    have hx : StoreEntry.expired ⟨key, entry.value, entry.expireAtMs⟩ now =
        MemoryStore.expired entry now := rfl
    rw [hx] at hfind
    cases hexp : MemoryStore.expired entry now with
    | true =>
      rw [hexp, if_pos rfl] at hfind
      rw [hfind]
      simp only [hexp, if_true]
    | false =>
      rw [hexp, if_neg Bool.false_ne_true] at hfind
      -- the deadline is none, or it is still to come
      have hd : 0 ≤ entry.expireAtMs := h.dated _ (find_mem hfind)
      have hfuture : entry.expireAtMs = 0 ∨ now < entry.expireAtMs := by
        simp only [MemoryStore.expired, Bool.and_eq_false_iff, decide_eq_false_iff_not] at hexp
        omega
      rw [hfind]
      simp only [hexp, Bool.false_eq_true, if_false]
      split
      · rfl
      · next hne =>
        have hlt := hfuture.resolve_left hne
        rw [if_neg (by omega), Int.tdiv_eq_ediv_of_nonneg (by omega),
          ReferenceStore.roundUp]
        omega

theorem ttl_agrees (key : Str) : Agrees now ((s.ttl now key).map .seconds id)
    (.seconds (r.remaining now key), r) := by
  obtain ⟨hwf, hmax, hview⟩ := MemoryStore.ttl_keeps h.wf now key
  refine ⟨congrArg MemoryAnswer.seconds (ttl_answer h hlive key), hwf,
    h.maxKeys.trans hmax.symm, ?_, h.dated⟩
  show Alike now (s.ttl now key).2.view r.entries
  rw [hview]
  exact (MemoryStore.ttlLeaves_alike (MemoryStore.view_distinct h.wf) key).trans
    (alike_live hlive)

theorem size_agrees : Agrees now ((s.size now).map .count id) (.count r.entries.length, r) := by
  obtain ⟨hwf, hmax, hview⟩ := MemoryStore.evictExpiredLocked_spec h.wf now
  refine ⟨congrArg MemoryAnswer.count ?_, hwf, h.maxKeys.trans hmax.symm, ?_, h.dated⟩
  · show (s.evictExpiredLocked now).data.keys.length = r.entries.length
    rw [MemoryStore.keys_length hwf, hview, hlive]
  · show Alike now (s.evictExpiredLocked now).view r.entries
    rw [hview, hlive]
    exact Alike.refl now _

theorem setMaxKeys_agrees (maxKeys : Nat) : Agrees now (.nothing, s.setMaxKeys now maxKeys)
    (.nothing, ⟨cap maxKeys r.entries, maxKeys⟩) := by
  obtain ⟨hwf, hmax, hview⟩ := MemoryStore.setMaxKeys_keeps h.wf now maxKeys
  refine ⟨rfl, hwf, hmax.symm, ?_, fun entry he => ?_⟩
  · rw [hview, hlive]
    exact Alike.refl now _
  · exact h.dated entry (mem_of_mem_cap he)

end Calls

/-- One call, made at a later instant. -/
theorem exec_agrees {now : Int} (hle : t ≤ now) (hnow : 0 < now) (h : Follows t s r)
    {call : MemoryCall} (hdated : call.Dated) : Agrees now (call.exec now s) (r.exec now call) := by
  obtain ⟨h, hlive⟩ := h.live hle
  cases call with
  | put key value => exact store_agrees h hlive key value (Int.le_refl 0)
  | putTtl key value ttlSeconds =>
    simp only [MemoryCall.exec, MemoryStore.putTtl, ReferenceStore.exec, ReferenceStore.act]
    split
    · exact ⟨rfl, h⟩
    · have hd : 0 ≤ now + ttlSeconds * 1000 := by omega
      exact store_agrees h hlive key value hd
  | putWithExpireAt key value d => exact store_agrees h hlive key value hdated
  | get key => exact get_agrees h hlive key
  | exists_ key => exact exists_agrees h hlive key
  | del key => exact del_agrees h hlive key
  | expire key ttlSeconds =>
    simp only [MemoryCall.exec, MemoryStore.expire, ReferenceStore.exec, ReferenceStore.act]
    split
    · exact ⟨rfl, h⟩
    · have hd : 0 ≤ now + ttlSeconds * 1000 := by omega
      exact date_agrees h hlive key hd
  | expireAt key d => exact date_agrees h hlive key hdated
  | ttl key => exact ttl_agrees h hlive key
  | size => exact size_agrees h hlive
  | setMaxKeys maxKeys => exact setMaxKeys_agrees h hlive maxKeys

/-- Every call answers as the reference does, and the store follows it from
the last call on. -/
theorem execAll_agrees {calls : List (Int × MemoryCall)}
    (hclock : (calls.map Prod.fst).Pairwise (· ≤ ·)) (hpos : ∀ c ∈ calls, 0 < c.1)
    (hdated : ∀ c ∈ calls, c.2.Dated) (ht : ∀ c ∈ calls, t ≤ c.1) (h : Follows t s r) :
    (MemoryCall.execAll s calls).1 = (r.execAll calls).1 ∧
      ∃ last, (∀ later, t ≤ later → (∀ c ∈ calls, c.1 ≤ later) → last ≤ later) ∧
        Follows last (MemoryCall.execAll s calls).2 (r.execAll calls).2 := by
  induction calls generalizing t s r with
  | nil => exact ⟨rfl, t, fun later hlater _ => hlater, h⟩
  | cons c rest ih =>
    obtain ⟨now, call⟩ := c
    have hrest : ∀ c ∈ rest, c ∈ (now, call) :: rest := fun c hc => List.mem_cons_of_mem _ hc
    have hnow : 0 < now := hpos _ List.mem_cons_self
    have hcall : call.Dated := hdated _ List.mem_cons_self
    obtain ⟨hfirst, hclock⟩ := List.pairwise_cons.mp hclock
    have hstep := exec_agrees (ht _ List.mem_cons_self) hnow h hcall
    obtain ⟨hanswers, last, hlast, hfollows⟩ := ih hclock (fun c hc => hpos c (hrest c hc))
      (fun c hc => hdated c (hrest c hc)) (fun c hc => hfirst _ (List.mem_map_of_mem hc))
      hstep.follows
    refine ⟨congrArg₂ List.cons hstep.answer hanswers, last, fun later _ hend => ?_, hfollows⟩
    exact hlast later (hend _ List.mem_cons_self) fun c hc => hend c (hrest c hc)

/-- The store implements the reference, for every bound and every sequence of
calls under a clock that is positive and does not go back: the answers are the
same, and so is what can be seen of every key from the last call on. -/
theorem implements_reference (maxKeys : Nat) {calls : List (Int × MemoryCall)}
    (hclock : (calls.map Prod.fst).Pairwise (· ≤ ·)) (hpos : ∀ c ∈ calls, 0 < c.1)
    (hdated : ∀ c ∈ calls, c.2.Dated) :
    let s : MemoryStore := { maxKeys := maxKeys }
    let r : ReferenceStore := { maxKeys := maxKeys }
    (MemoryCall.execAll s calls).1 = (r.execAll calls).1 ∧
      ∀ later, 0 < later → (∀ c ∈ calls, c.1 ≤ later) → ∀ key,
        (MemoryCall.execAll s calls).2.visible later key =
          find key ((r.execAll calls).2.at_ later).entries := by
  intro s r
  have hstart : Follows 0 s r := ⟨MemoryStore.wf_empty maxKeys, rfl, rfl, fun _ he => by cases he⟩
  have hzero : ∀ c ∈ calls, 0 ≤ c.1 := fun c hc => Int.le_of_lt (hpos c hc)
  obtain ⟨hanswers, last, hlast, hfollows⟩ := execAll_agrees hclock hpos hdated hzero hstart
  refine ⟨hanswers, fun later hlater hend key => ?_⟩
  obtain ⟨-, hlive⟩ := hfollows.live (hlast later (Int.le_of_lt hlater) hend)
  rw [MemoryStore.visible_eq hfollows.wf, hlive,
    find_purge (MemoryStore.view_distinct hfollows.wf)]
  rfl

/-- A bound of two keys: a read keeps the older key, a deadline passes, and a
third key takes the place of nobody. -/
def cacheCalls : List (Int × MemoryCall) :=
  [(1, .setMaxKeys 2), (1, .put (bytes ['a']) (bytes ['1'])),
    (2, .putTtl (bytes ['b']) (bytes ['2']) 1), (3, .get (bytes ['a'])),
    (500, .ttl (bytes ['b'])), (1002, .put (bytes ['c']) (bytes ['3'])),
    (1003, .exists_ (bytes ['a'])), (1003, .size)]

theorem implements_reference_cacheCalls :
    let s : MemoryStore := {}
    let r : ReferenceStore := {}
    (MemoryCall.execAll s cacheCalls).1 = (r.execAll cacheCalls).1 ∧
      ∀ later, 0 < later → (∀ c ∈ cacheCalls, c.1 ≤ later) → ∀ key,
        (MemoryCall.execAll s cacheCalls).2.visible later key =
          find key ((r.execAll cacheCalls).2.at_ later).entries :=
  implements_reference 0 (by decide) (by decide) (by decide)

end TinyKV
