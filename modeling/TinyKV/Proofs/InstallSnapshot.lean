import TinyKV.Proofs.Replica
import TinyKV.Proofs.Router

/-!
# What a snapshot replaces

InstallSnapshot puts the leader's contents in the place of the node's own and
raises `last_applied` to the snapshot's index. If the node has applied more
than the leader had when it took the snapshot, the index stays where it is
while the contents go back: the entries in between are applied nowhere, and
will not be applied again. `installKeepsApplied_iff` says when this happens.
-/

namespace TinyKV

open Recency

/-! ## A replica's store can be loaded again

It is within its bound and has no empty key, so that `replace_with_snapshot`
takes all of it. -/

def Fits (m : Nat) (l : List StoreEntry) : Prop :=
  (m = 0 ∨ l.length ≤ m) ∧ ∀ entry ∈ l, entry.key ≠ []

variable {m : Nat} {l : List StoreEntry} {now : Int} {s : Store} {log : List RaftLogEntry}

theorem Fits.mono {l' : List StoreEntry} (h : Fits m l) (hlen : l'.length ≤ l.length)
    (hmem : ∀ entry ∈ l', ∃ x ∈ l, x.key = entry.key) : Fits m l' := by
  refine ⟨by have := h.1; omega, fun entry he => ?_⟩
  obtain ⟨x, hx, hk⟩ := hmem entry he
  exact hk ▸ h.2 x hx

theorem Fits.sublist {l' : List StoreEntry} (h : Fits m l) (hs : l'.Sublist l) : Fits m l' :=
  h.mono hs.length_le fun entry he => ⟨entry, hs.subset he, rfl⟩

/-- Moving a key to the front takes no room. -/
theorem Fits.push (h : Fits m l) {key : Str} {entry x : StoreEntry} (hf : find key l = some x)
    (hk : entry.key = key) : Fits m (Recency.push entry l) := by
  have hx := find_mem hf
  have hxk := find_key hf
  refine h.mono ?_ fun e he => ?_
  · have hlt : (remove entry.key l).length < l.length := by
      refine List.length_filter_lt_length_iff_exists.mpr ⟨x, hx, ?_⟩
      simp [hk, hxk]
    rw [Recency.push, List.length_cons]
    omega
  · rcases List.mem_cons.mp he with rfl | he
    · exact ⟨x, hx, by rw [hxk, hk]⟩
    · exact ⟨e, List.mem_of_mem_filter he, rfl⟩

theorem Fits.put (h : Fits m l) {entry : StoreEntry} (hk : entry.key ≠ []) (now : Int) :
    Fits m (Recency.put m now entry l) := by
  have hmem : ∀ e ∈ Recency.put m now entry l, e.key ≠ [] := by
    intro e he
    have he : e ∈ Recency.push entry l := by
      rw [Recency.put, cap] at he
      split at he
      · exact List.mem_of_mem_filter he
      · exact List.mem_of_mem_filter (List.mem_of_mem_take he)
    rcases List.mem_cons.mp he with rfl | he
    · exact hk
    · exact h.2 e (List.mem_of_mem_filter he)
  refine ⟨?_, hmem⟩
  by_cases hm : m = 0
  · exact Or.inl hm
  · rw [Recency.put, cap, if_neg hm]
    exact Or.inr (List.length_take_le _ _)

def Stocked (m : Nat) (s : Store) : Prop := ∃ l, Reads m s l ∧ Fits m l

theorem stocked_of_leaves (h : Leaves m now s l) (hf : Fits m l) : Stocked m s := by
  rcases h with h | h
  · exact ⟨l, h, hf⟩
  · exact ⟨_, h, hf.sublist List.filter_sublist⟩

theorem stocked_of_mem_eq {t : Store} (h : Stocked m s) (ht : t.mem = s.mem) : Stocked m t := by
  obtain ⟨l, hr, hf⟩ := h
  exact ⟨l, ⟨ht ▸ hr.wf, ht ▸ hr.maxKeys, ht ▸ hr.view⟩, hf⟩

theorem stocked_apply (h : Stocked m s) (now : Int) (entry : RaftLogEntry) :
    Stocked m (applyRaftEntryLocked now s entry).2 := by
  obtain ⟨l, hr, hf⟩ := h
  unfold applyRaftEntryLocked
  split
  · -- an empty key is refused
    by_cases hk : entry.key = []
    · split
      · exact stocked_of_mem_eq ⟨l, hr, hf⟩ (by rw [hk]; exact putTtl_nil _ _ _ _)
      · exact stocked_of_mem_eq ⟨l, hr, hf⟩ (by rw [hk]; exact put_nil _ _ _)
    · split
      · next ht => exact stocked_of_leaves (putTtl_leaves hr now hk _ ht) (hf.put hk now)
      · exact stocked_of_leaves (put_leaves hr now hk _) (hf.put hk now)
  · exact stocked_of_leaves (del_leaves hr now _) (hf.sublist List.filter_sublist)
  · by_cases ht : entry.ttlSeconds ≤ 0
    · exact stocked_of_mem_eq ⟨l, hr, hf⟩ (by rw [expire_le_zero ht])
    · refine stocked_of_leaves (expire_leaves hr now _ (by omega)) ?_
      unfold Recency.expireAt
      cases hx : find entry.key l with
      | none => exact hf
      | some x =>
        simp only []
        split
        · exact hf.sublist List.filter_sublist
        · exact hf.push hx (show x.key = entry.key from find_key hx)
  · exact ⟨l, hr, hf⟩

theorem stocked_read {key : Str} (hf : Fits m l) : Fits m (Recency.read now key l).2 := by
  unfold Recency.read
  cases hx : find key l with
  | none => exact hf
  | some x =>
    simp only []
    split
    · exact hf.sublist List.filter_sublist
    · exact hf.push hx (find_key hx)

theorem stocked_step (h : Stocked m s) (ev : ReplicaEvent) : Stocked m (ev.step s) := by
  cases ev with
  | apply now entry => exact stocked_apply h now entry
  | get now key =>
    obtain ⟨l, hr, hf⟩ := h
    have ha := MemoryStore.get_acts hr.wf now key
    rw [hr.view] at ha
    exact ⟨_, reads_of_acts hr ha (setMem_mem _ _), stocked_read hf⟩
  | exists_ now key =>
    obtain ⟨l, hr, hf⟩ := h
    have ha := MemoryStore.exists_acts hr.wf now key
    rw [hr.view] at ha
    exact ⟨_, reads_of_acts hr ha (setMem_mem _ _), stocked_read hf⟩
  | ttl now key =>
    obtain ⟨l, hr, hf⟩ := h
    obtain ⟨hwf, hm, hv⟩ := MemoryStore.ttl_keeps hr.wf now key
    have hs : (ReplicaEvent.step s (.ttl now key)).mem = (s.mem.ttl now key).2 :=
      setMem_mem _ _
    rw [hr.view] at hv
    refine ⟨_, ⟨hs ▸ hwf, by rw [hs, hm, hr.maxKeys], by rw [hs, hv]⟩, ?_⟩
    unfold MemoryStore.ttlLeaves
    cases hx : find key l with
    | none => exact hf
    | some x =>
      simp only []
      split
      · exact hf.sublist List.filter_sublist
      · exact hf

theorem stocked_run (h : Stocked m s) (evs : List ReplicaEvent) : Stocked m (runEvents s evs) := by
  induction evs generalizing s with
  | nil => exact h
  | cons ev evs ih => exact ih (stocked_step h ev)

theorem replica_stocked {cfg : StoreConfig} (h : ReplicaAt cfg log now s) :
    Stocked cfg.maxKeys s := by
  obtain ⟨ord, start, s₀, evs, hi, -, -, -, rfl⟩ := h
  obtain ⟨l, hr, hp⟩ := (holds_init cfg ord start hi).reads
  have hnil : l = [] := hp.eq_nil
  exact stocked_run ⟨l, hr, by subst hnil; exact ⟨Or.inr (Nat.zero_le _), by simp⟩⟩ evs

/-! ## Loading a snapshot -/

theorem visible_purge (hd : Distinct l) {t : Int} (hle : t ≤ now) (key : Str) :
    Recency.visible now (purge t l) key = Recency.visible now l key := by
  rw [Recency.visible, find_purge hd, live_live hle]
  rfl

/-- A store loaded with entries that fit shows these entries. -/
theorem replaceWithSnapshot_shows (hm : s.mem.maxKeys = m) {es : List StoreEntry} (hd : Distinct es)
    (hf : Fits m es) (now : Int) :
    (s.replaceWithSnapshot now es).1 = true ∧
      ∀ key, (s.replaceWithSnapshot now es).2.mem.visible now key =
        Recency.visible now es key := by
  have hmem : ∀ p : MemoryStore, p.maxKeys = m → (p.replaceWithSnapshot now es).1 = true ∧
      (p.replaceWithSnapshot now es).2.WF ∧
      (p.replaceWithSnapshot now es).2.view = purge now es.reverse := by
    intro p hp
    have ha := MemoryStore.replaceWithSnapshot_acts p now hf.2 hd
    refine ⟨ha.answer, ha.wf, ha.view.trans ?_⟩
    rw [hp, cap]
    split
    · rfl
    · refine List.take_of_length_le ?_
      have hlen := List.length_filter_le (fun e : StoreEntry => !e.expired now) es.reverse
      rw [List.length_reverse] at hlen
      have := hf.1
      unfold purge
      omega
  have hrev : Distinct es.reverse := by
    rw [Distinct, List.map_reverse]
    exact List.nodup_reverse.mpr hd
  have hshow : ∀ key, Recency.visible now (purge now es.reverse) key =
      Recency.visible now es key := by
    intro key
    rw [visible_purge hrev (Int.le_refl now), Recency.visible,
      find_perm hrev (List.reverse_perm es), Recency.visible]
  cases s with
  | memory p =>
    obtain ⟨h1, h2, h3⟩ := hmem p hm
    refine ⟨h1, fun key => ?_⟩
    show (p.replaceWithSnapshot now es).2.visible now key = _
    rw [MemoryStore.visible_eq h2, h3, hshow]
  | persistent ord p =>
    obtain ⟨h1, h2, h3⟩ := hmem p.memory hm
    cases hl : p.memory.replaceWithSnapshot now es with
    | mk ok q =>
      rw [hl] at h1 h2 h3
      obtain rfl : ok = true := h1
      -- the new snapshot file lists the store, which purges it once more
      obtain ⟨-, h4, -, h6⟩ := MemoryStore.snapshotEntries_spec h2 now
      simp only [Store.replaceWithSnapshot, PersistentMemoryStore.replaceWithSnapshot, hl]
      refine ⟨rfl, fun key => ?_⟩
      show (q.snapshotEntries now).2.visible now key = _
      have hpurged : Distinct (purge now es.reverse) := hrev.filter _
      rw [MemoryStore.visible_eq h4, h6, h3, visible_purge hpurged (Int.le_refl now), hshow]

/-! ## Contents of a prefix of the log -/

/-- The store shows what a replica shows that has applied the first `n`
entries, at whatever times it did. -/
def ShowsPrefix (m : Nat) (log : List RaftLogEntry) (now : Int) (n : Nat) (s : Store) : Prop :=
  ∃ cfg r, cfg.maxKeys = m ∧ ReplicaAt cfg (log.take n) now r ∧
    ∀ key, s.mem.visible now key = r.mem.visible now key

/-- A node that has applied the committed log up to `last_applied`. -/
structure AppliedPrefix (m : Nat) (log : List RaftLogEntry) (now : Int) (s : KVServer) :
    Prop where
  base : s.raftLastIncludedIndex ≤ s.raftLastApplied
  nonneg : 0 ≤ s.raftLastApplied
  bound : s.raftLastApplied ≤ log.length
  maxKeys : s.store.mem.maxKeys = m
  shows : ShowsPrefix m log now s.raftLastApplied.toNat s.store

/-- A message with the header of a committed entry and the contents of
`sender`, taken when this replica had applied the first `j` entries. -/
structure SnapshotOf (m : Nat) (log : List RaftLogEntry) (now : Int) (j : Nat)
    (sender : Store) (request : InstallRequest) : Prop where
  header : ∃ n : Nat, request.lastLogIndex = n + 1 ∧
    ∃ entry, log[n]? = some entry ∧ entry.term = request.lastLogTerm
  upTo : request.lastLogIndex ≤ j
  bound : j ≤ log.length
  taken : ∃ cfg t, cfg.maxKeys = m ∧ t ≤ now ∧ ReplicaAt cfg (log.take j) t sender ∧
    ∃ es, request.payload = some es ∧ es.Perm (sender.snapshotEntries t).1

/-- The store holds the entries up to `last_applied`, or more. -/
def KeepsApplied (m : Nat) (log : List RaftLogEntry) (now : Int) (s : KVServer) : Prop :=
  ∃ n : Nat, s.raftLastApplied ≤ n ∧ n ≤ log.length ∧ ShowsPrefix m log now n s.store

theorem ReplicaAt.later {cfg : StoreConfig} {t : Int} (h : ReplicaAt cfg log t s) (hle : t ≤ now) :
    ReplicaAt cfg log now s := by
  obtain ⟨ord, start, s₀, evs, hi, ha, hp, hb, heq⟩ := h
  exact ⟨ord, start, s₀, evs, hi, ha, hp, fun u hu => Int.le_trans (hb u hu) hle, heq⟩

/-- What is loaded from the message shows what the sender shows. -/
theorem SnapshotOf.loads {j : Nat} {sender : Store} {request : InstallRequest}
    (h : SnapshotOf m log now j sender request) (hm : s.mem.maxKeys = m) :
    ∃ es, request.payload = some es ∧ (s.replaceWithSnapshot now es).1 = true ∧
      ∀ key, (s.replaceWithSnapshot now es).2.mem.visible now key =
        sender.mem.visible now key := by
  obtain ⟨cfg, t, hcfg, hle, hr, es, hpay, hperm⟩ := h.taken
  obtain ⟨l, hreads, hfits⟩ := replica_stocked hr
  have hl := hreads.distinct
  have hlisted : es.Perm (purge t l) := by
    obtain ⟨hp, -⟩ := MemoryStore.snapshotEntries_spec hreads.wf t
    rw [hreads.view] at hp
    exact hperm.trans hp
  have hdl : Distinct (purge t l) := hl.filter _
  have hd : Distinct es := (hlisted.map StoreEntry.key).nodup_iff.mpr hdl
  have hf : Fits m es := by
    rw [← hcfg]
    refine (hfits.sublist List.filter_sublist).mono (Nat.le_of_eq hlisted.length_eq) fun e he => ?_
    exact ⟨e, hlisted.mem_iff.mp he, rfl⟩
  obtain ⟨hok, hshow⟩ := replaceWithSnapshot_shows hm hd hf now
  refine ⟨es, hpay, hok, fun key => ?_⟩
  rw [hshow, Recency.visible, find_perm hd hlisted, ← Recency.visible, visible_purge hl hle,
    hreads.visible]

/-! ## The handler -/

namespace KVServer

variable {s : KVServer} {request : InstallRequest}

/-- A message that is stale, or that the node's own snapshot covers, changes
nothing here. (Term 0 is accepted by the router and then taken for a
refusal.) -/
theorem handleInstallSnapshot_refused (h : request.term < s.router.currentTerm ∨
      request.term = 0 ∨ request.lastLogIndex ≤ s.raftLastIncludedIndex) (now : Int) :
    (s.handleInstallSnapshot now request).1.store = s.store ∧
      (s.handleInstallSnapshot now request).1.raftLastApplied = s.raftLastApplied := by
  unfold handleInstallSnapshot
  rcases (show request.term < s.router.currentTerm ∨ s.router.currentTerm ≤ request.term by
    omega) with hlt | hle
  · rw [checkTerm_stale hlt]
    exact ⟨rfl, rfl⟩
  · rw [checkTerm_fresh hle]
    by_cases h0 : request.term = 0
    · rw [decide_eq_false (by simpa using h0)]
      exact ⟨rfl, rfl⟩
    · rw [decide_eq_true (by simpa using h0)]
      have hcov : (installCovered { s with
          router := s.router.acceptTerm request.term request.nodeId } request) = true := by
        refine decide_eq_true ?_
        show request.lastLogIndex ≤ s.raftLastIncludedIndex
        omega
      simp only [hcov, if_true, and_self]

/-- Any other message replaces the store and raises `last_applied`. -/
theorem handleInstallSnapshot_installs (hterm : s.router.currentTerm ≤ request.term)
    (h0 : request.term ≠ 0) (hk : s.raftLastIncludedIndex < request.lastLogIndex)
    {es : List StoreEntry} (hpay : request.payload = some es) {now : Int}
    (hok : (s.store.replaceWithSnapshot now es).1 = true) :
    (s.handleInstallSnapshot now request).1.store = (s.store.replaceWithSnapshot now es).2 ∧
      (s.handleInstallSnapshot now request).1.raftLastApplied =
        max s.raftLastApplied request.lastLogIndex := by
  unfold handleInstallSnapshot
  have hcov : (installCovered { s with
      router := s.router.acceptTerm request.term request.nodeId } request) = false := by
    refine decide_eq_false ?_
    show ¬ request.lastLogIndex ≤ s.raftLastIncludedIndex
    omega
  rw [checkTerm_fresh hterm, decide_eq_true h0]
  simp only [hcov, hpay, installPayload, hok]
  exact ⟨rfl, rfl⟩

end KVServer

/-! ## When nothing applied is lost -/

section Install

variable {s : KVServer} {j : Nat} {sender : Store} {request : InstallRequest}

theorem ShowsPrefix.congr {n : Nat} {a b : Store}
    (h : ∀ key, a.mem.visible now key = b.mem.visible now key)
    (ha : ShowsPrefix m log now n a) : ShowsPrefix m log now n b := by
  obtain ⟨cfg, r, hcfg, hr, hshow⟩ := ha
  exact ⟨cfg, r, hcfg, hr, fun key => (h key).symm.trans (hshow key)⟩

theorem SnapshotOf.shows (h : SnapshotOf m log now j sender request) :
    ShowsPrefix m log now j sender := by
  obtain ⟨cfg, t, hcfg, hle, hr, -⟩ := h.taken
  exact ⟨cfg, sender, hcfg, hr.later hle, fun _ => rfl⟩

/-- Installing a snapshot loses no applied entry exactly if it is not
installed, or its contents go at least as far as the node had applied, or
they look as if they did. -/
theorem installKeepsApplied_iff (hs : AppliedPrefix m log now s)
    (hr : SnapshotOf m log now j sender request) :
    KeepsApplied m log now (s.handleInstallSnapshot now request).1 ↔
      request.term < s.router.currentTerm ∨ request.term = 0 ∨
        request.lastLogIndex ≤ s.raftLastIncludedIndex ∨ s.raftLastApplied ≤ j ∨
        ∃ n : Nat, s.raftLastApplied ≤ n ∧ n ≤ log.length ∧ ShowsPrefix m log now n sender := by
  have hbound := hs.bound
  have hnonneg := hs.nonneg
  by_cases href : request.term < s.router.currentTerm ∨ request.term = 0 ∨
      request.lastLogIndex ≤ s.raftLastIncludedIndex
  · obtain ⟨hstore, happ⟩ := KVServer.handleInstallSnapshot_refused href now
    refine ⟨fun _ => by tauto, fun _ => ⟨s.raftLastApplied.toNat, ?_, ?_, ?_⟩⟩
    · rw [happ]
      omega
    · omega
    · rw [hstore]
      exact hs.shows
  · obtain ⟨es, hpay, hok, hshow⟩ := hr.loads hs.maxKeys
    have hterm : s.router.currentTerm ≤ request.term := by omega
    have hbase : s.raftLastIncludedIndex < request.lastLogIndex := by omega
    obtain ⟨hstore, happ⟩ :=
      KVServer.handleInstallSnapshot_installs hterm (by omega) hbase hpay hok
    have hk := hr.upTo
    have hj := hr.bound
    unfold KeepsApplied
    rw [hstore, happ]
    constructor
    · rintro ⟨n, hn, hle, hp⟩
      exact Or.inr (Or.inr (Or.inr (Or.inr ⟨n, by omega, hle, hp.congr hshow⟩)))
    · intro hcond
      by_cases haj : s.raftLastApplied ≤ j
      · exact ⟨j, by omega, hj, hr.shows.congr fun key => (hshow key).symm⟩
      · obtain ⟨n, hn, hle, hp⟩ : ∃ n : Nat, s.raftLastApplied ≤ n ∧ n ≤ log.length ∧
            ShowsPrefix m log now n sender := by tauto
        exact ⟨n, by omega, hle, hp.congr fun key => (hshow key).symm⟩

end Install

/-! ### A key that comes back

The key was put and deleted, and the node has applied both. A snapshot of
the first entry arrives. -/

def putThenDel : List RaftLogEntry :=
  [⟨1, 1, .put, bytes ['k'], bytes ['a'], 0⟩, ⟨2, 1, .del, bytes ['k'], [], 0⟩]

def emptyStore : Store := .memory (({} : MemoryStore).setMaxKeys 0 0)

/-- The store of a replica that has applied the first entries at time 0. -/
def afterEntries (n : Nat) : Store :=
  runEvents emptyStore ((putThenDel.take n).map (ReplicaEvent.apply 0))

def appliedBoth : KVServer where
  router := { localId := bytes ['f'], localPort := 1, allNodes := [], currentTerm := 1 }
  store := afterEntries 2
  raftLog := putThenDel
  raftCommitIndex := 2
  raftLastApplied := 2

def snapshotOfFirst : InstallRequest :=
  ⟨1, bytes ['l'], 1, 1, some ((afterEntries 1).snapshotEntries 0).1⟩

theorem replicaAt_afterEntries (n : Nat) :
    ReplicaAt {} (putThenDel.take n) 0 (afterEntries n) := by
  have hinit : Store.init {} IterOrder.asStored 0 [] none = .ok emptyStore := rfl
  have htimes : ∀ ev ∈ (putThenDel.take n).map (ReplicaEvent.apply 0), ev.now = 0 := by
    intro ev hev
    obtain ⟨entry, -, rfl⟩ := List.mem_map.mp hev
    rfl
  have hrun := replicaAt_run hinit htimes (Int.le_refl 0)
  have happ : applied ((putThenDel.take n).map (ReplicaEvent.apply 0)) = putThenDel.take n := by
    rw [applied, List.filterMap_map]
    exact List.filterMap_some
  rw [happ] at hrun
  exact hrun

theorem appliedBoth_prefix : AppliedPrefix 0 putThenDel 0 appliedBoth :=
  ⟨by decide, by decide, by decide, rfl,
    {}, afterEntries 2, rfl, replicaAt_afterEntries 2, fun _ => rfl⟩

theorem snapshotOfFirst_taken :
    SnapshotOf 0 putThenDel 0 1 (afterEntries 1) snapshotOfFirst :=
  ⟨⟨0, rfl, _, rfl, rfl⟩, by decide, by decide,
    {}, 0, rfl, Int.le_refl 0, replicaAt_afterEntries 1, _, rfl, List.Perm.refl _⟩

theorem installKeepsApplied_iff_deleted :
    KeepsApplied 0 putThenDel 0 (appliedBoth.handleInstallSnapshot 0 snapshotOfFirst).1 ↔
      snapshotOfFirst.term < appliedBoth.router.currentTerm ∨ snapshotOfFirst.term = 0 ∨
        snapshotOfFirst.lastLogIndex ≤ appliedBoth.raftLastIncludedIndex ∨
        appliedBoth.raftLastApplied ≤ (1 : Nat) ∨
        ∃ n : Nat, appliedBoth.raftLastApplied ≤ n ∧ n ≤ putThenDel.length ∧
          ShowsPrefix 0 putThenDel 0 n (afterEntries 1) :=
  installKeepsApplied_iff appliedBoth_prefix snapshotOfFirst_taken

/-- The deleted key is there again, and no replica that has applied the
deletion shows it. -/
theorem install_restores_deleted_key :
    ¬ ∀ m log now s j sender request, AppliedPrefix m log now s →
      SnapshotOf m log now j sender request →
      KeepsApplied m log now (s.handleInstallSnapshot now request).1 := by
  intro h
  obtain ⟨n, hn, hle, cfg, r, hcfg, hr, hshow⟩ :=
    h 0 putThenDel 0 appliedBoth 1 _ _ appliedBoth_prefix snapshotOfFirst_taken
  have happ : (appliedBoth.handleInstallSnapshot 0 snapshotOfFirst).1.raftLastApplied = 2 := by
    decide
  have hlen : putThenDel.length = 2 := rfl
  obtain rfl : n = 2 := by omega
  obtain ⟨ord, start, s₀, evs, hi, ha, -, -, rfl⟩ := hr
  have hsteady : Steady cfg.maxKeys [] (applied evs) := by
    rw [ha, hcfg]
    exact ⟨by decide, trivial⟩
  have hholds := holds_run (holds_init cfg ord start hi) hsteady
  rw [ha, hcfg] at hholds
  obtain ⟨l, hreads, hperm⟩ := hholds.reads
  obtain rfl : l = [] := hperm.eq_nil
  have hkey := hshow (bytes ['k'])
  rw [hreads.visible] at hkey
  revert hkey
  decide

end TinyKV
