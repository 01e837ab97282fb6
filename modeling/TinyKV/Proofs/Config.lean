import TinyKV.Lib.Lists
import TinyKV.Model.Config
import TinyKV.Proofs.Codec

/-!
# What the configuration file keeps of a configuration

`to_yaml` quotes every string and escapes nothing; `load` cuts a line at the
first `#`, quoted or not, and takes the string of peers apart at commas, the
first `@` and the last colon. A string with a `#` in it does not come back, and
neither does a peer whose id or host has a separator in it or a blank at an
end. `Clean` rules that out, and that is all: what is not clean could not have
been loaded from any file (`load_clean`), and what is clean is read back line
by line.
-/

namespace TinyKV

open Text

namespace ServerConfig

/-- The string members, other than those of the peers. -/
def texts (c : ServerConfig) : List Str :=
  [c.node.id, c.node.host, c.node.dataDir, c.store.engine, c.store.walFile, c.store.snapshotFile,
    c.cluster.consistency, c.cluster.leaderId, c.log.writeMode, c.log.file]

/-- The `int` members, other than those of the peers. -/
def ints (c : ServerConfig) : List Int :=
  [c.node.port, c.store.snapshotThreshold, c.store.maxKeys, c.cluster.replicationFactor,
    c.cluster.healthCheckIntervalMs, c.log.bufferSize, c.log.splitLines, c.log.maxQueueSize]

/-- Every string is there and on one line, and every number is an `int`. -/
structure Written (c : ServerConfig) : Prop where
  texts : ∀ s ∈ c.texts, s ≠ [] ∧ 10 ∉ s
  peers : ∀ peer ∈ c.cluster.peers,
    peer.id ≠ [] ∧ 10 ∉ peer.id ∧ peer.host ≠ [] ∧ 10 ∉ peer.host ∧ InRange32 peer.port
  ints : ∀ n ∈ c.ints, InRange32 n

end ServerConfig

/-- No separator in the id or the host, and no blank at their ends. -/
structure ClusterPeerConfig.Clean (peer : ClusterPeerConfig) : Prop where
  id : 35 ∉ peer.id ∧ 44 ∉ peer.id ∧ 64 ∉ peer.id
  id_trim : YamlConfigParser.trim peer.id = peer.id
  host : 35 ∉ peer.host ∧ 44 ∉ peer.host
  host_trim : YamlConfigParser.trim peer.host = peer.host

/-- No string with a `#` in it, and clean peers. -/
structure ServerConfig.Clean (c : ServerConfig) : Prop where
  texts : ∀ s ∈ c.texts, 35 ∉ s
  peers : ∀ peer ∈ c.cluster.peers, peer.Clean

theorem ServerConfig.Clean.of_eq {c c' : ServerConfig} (h : c.Clean) (htexts : c'.texts = c.texts)
    (hpeers : c'.cluster.peers = c.cluster.peers) : c'.Clean :=
  ⟨fun s hs => h.texts s (htexts ▸ hs), fun peer hp => h.peers peer (hpeers ▸ hp)⟩

namespace YamlConfigParser

/-! ## Pieces of a line -/

theorem trim_trim (s : Str) : trim (trim s) = trim s := Trim.trimBy_trimBy isBlank s

variable {c : UInt8} {s value key : Str} {peer : ClusterPeerConfig} {config : ServerConfig}
  {kind : FieldKind}

theorem mem_of_mem_trim (h : c ∈ trim s) : c ∈ s := Trim.mem_of_mem_trimBy h

theorem trim_eq_self_iff : trim s = s ↔
    (∀ c ∈ s.head?, isBlank c = false) ∧ ∀ c ∈ s.getLast?, isBlank c = false :=
  Trim.trimBy_eq_self_iff

theorem trim_blank (h : isBlank c = true) (s : Str) : trim (c :: s) = trim s :=
  Trim.trimBy_cons_pos h s

theorem mem_of_mem_unquote (h : c ∈ unquote s) : c ∈ s := by
  unfold unquote at h
  split at h
  · exact List.mem_of_mem_tail (List.mem_of_mem_dropLast h)
  · exact h

theorem hash_notMem_stripComment (s : Str) : 35 ∉ stripComment s := by
  intro h
  have := List.mem_takeWhile_imp (mem_of_mem_trim h)
  simp at this

theorem stripComment_eq_trim (h : 35 ∉ s) : stripComment s = trim s := by
  have hself : s.takeWhile (fun c => !decide (c = 35)) = s := by
    rw [List.takeWhile_eq_self_iff]
    intro c hc
    have hne : c ≠ 35 := fun heq => h (heq ▸ hc)
    simp [hne]
  rw [stripComment, hself]

theorem unquote_quoted (s : Str) : unquote (quoted s) = s := by
  have hq : isQuoted (quoted s) = true := by
    simp [isQuoted, quoted, List.getLast?_cons]
  rw [unquote, if_pos hq]
  simp [quoted]

theorem unquote_plain (h : ∀ c ∈ s.head?, c ≠ 34 ∧ c ≠ 39) : unquote s = s := by
  have hq : isQuoted s = false := by
    cases s with
    | nil => rfl
    | cons c rest =>
      have hc := h c rfl
      simp [isQuoted, hc.1, hc.2]
  rw [unquote, hq]
  rfl

theorem trim_quoted (s : Str) : trim (quoted s) = quoted s := by
  rw [trim_eq_self_iff]
  refine ⟨by simp [quoted, isBlank], ?_⟩
  simp [quoted, List.getLast?_cons, isBlank]

theorem isBlank_of_mem_showInt {n : Int} (h : c ∈ showInt n) : isBlank c = false := by
  rcases showInt_bytes h with hdigit | rfl
  · have hspace := isSpace_of_isDigit hdigit
    rw [Bool.eq_false_iff]
    intro hblank
    simp only [isBlank, Bool.or_eq_true, decide_eq_true_iff] at hblank
    rcases hblank with ((rfl | rfl) | rfl) | rfl <;> cases hspace
  · decide

theorem trim_showInt (n : Int) : trim (showInt n) = showInt n := by
  rw [trim_eq_self_iff]
  refine ⟨fun c hc => isBlank_of_mem_showInt (List.mem_of_mem_head? hc), fun c hc => ?_⟩
  exact isBlank_of_mem_showInt (List.mem_of_getLast? hc)

theorem unquote_showInt (n : Int) : unquote (showInt n) = showInt n := by
  refine unquote_plain fun c hc => ?_
  have hmem := List.mem_of_mem_head? hc
  refine ⟨?_, ?_⟩
  · rintro rfl
    exact showInt_notMem (by decide) (by decide) hmem
  · rintro rfl
    exact showInt_notMem (by decide) (by decide) hmem

theorem stoi_showInt {n : Int} (h : InRange32 n) : stoi (showInt n) = some n := by
  rw [stoi, readInt_showInt_end]
  exact if_pos h

/-! ## Values -/

theorem findIdx?_byte {front : Str} (h : c ∉ front) (back : Str) :
    (front ++ c :: back).findIdx? (fun b => decide (b = c)) = some front.length := by
  have hnone : front.findIdx? (fun b => decide (b = c)) = none := by
    rw [List.findIdx?_eq_none_iff]
    intro b hb
    have hne : b ≠ c := fun heq => h (heq ▸ hb)
    simp [hne]
  rw [List.findIdx?_append, hnone, List.findIdx?_cons]
  simp

theorem rfind_byte {back : Str} (h : c ∉ back) (front : Str) :
    rfind c (front ++ c :: back) = some front.length := by
  have hrev : (front ++ c :: back).reverse = back.reverse ++ c :: front.reverse := by simp
  rw [rfind, hrev, findIdx?_byte (by simpa using h)]
  simp only [Option.map_some, List.length_append, List.length_cons, List.length_reverse]
  congr 1
  omega

theorem parseBool_render (b : Bool) :
    parseBool (if b then str "true" else str "false") = some b := by
  cases b <;> decide

/-- A peer comes back if the first `@` of its text is the one behind the id; the
last colon is always the one in front of the port. -/
theorem parsePeer_peerText (hclean : peer.Clean) (hid : peer.id ≠ []) (hhost : peer.host ≠ [])
    (hport : InRange32 peer.port) : parsePeer (peerText peer) = some (some peer) := by
  have hat : (peerText peer).findIdx? (fun c => decide (c = 64)) = some peer.id.length :=
    findIdx?_byte hclean.id.2.2 _
  have hback : peerText peer = (peer.id ++ 64 :: peer.host) ++ 58 :: showInt peer.port := by
    simp [peerText]
  have hcolon : rfind 58 (peerText peer) = some (peer.id ++ 64 :: peer.host).length := by
    rw [hback]
    exact rfind_byte (showInt_notMem (by decide) (by decide)) _
  have hrest : (peerText peer).drop (peer.id.length + 1) =
      peer.host ++ 58 :: showInt peer.port := by
    rw [peerText, List.drop_append]
    simp
  have hlen : (peer.id ++ 64 :: peer.host).length - peer.id.length - 1 = peer.host.length := by
    simp only [List.length_append, List.length_cons]
    omega
  have hdigits : (peerText peer).drop ((peer.id ++ 64 :: peer.host).length + 1) =
      showInt peer.port := by
    rw [hback, List.drop_append]
    simp
  have hidText : (peerText peer).take peer.id.length = peer.id := List.take_left
  unfold parsePeer
  simp only [hat, hcolon]
  rw [if_neg (by simp)]
  simp only [hlen, hrest, hdigits, hidText, List.take_left, trim_showInt, stoi_showInt hport,
    hclean.id_trim, hclean.host_trim]
  rw [if_pos ⟨hid, hhost⟩]

theorem trim_peerText (hclean : peer.Clean) (hid : peer.id ≠ []) :
    trim (peerText peer) = peerText peer := by
  rw [trim_eq_self_iff]
  refine ⟨?_, ?_⟩
  · intro c hc
    refine (trim_eq_self_iff.1 hclean.id_trim).1 c ?_
    obtain ⟨b, rest, heq⟩ := List.exists_cons_of_ne_nil hid
    rw [peerText, heq] at hc
    rw [heq]
    exact hc
  · intro c hc
    have hne : showInt peer.port ≠ [] := showInt_ne_nil _
    refine isBlank_of_mem_showInt (n := peer.port) ?_
    obtain ⟨b, rest, heq⟩ := List.exists_cons_of_ne_nil hne
    rw [peerText, heq] at hc
    rw [heq]
    refine List.mem_of_getLast? ?_
    simpa [List.getLast?_append, List.getLast?_cons] using hc

theorem notMem_peerText (hid : c ∉ peer.id) (hhost : c ∉ peer.host) (hat : c ≠ 64) (hcolon : c ≠ 58)
    (hdigit : isDigit c = false) (hminus : c ≠ 45) : c ∉ peerText peer := by
  simp [peerText, hid, hhost, hat, hcolon, showInt_notMem hdigit hminus]

theorem getlines_peersText {peers : List ClusterPeerConfig} (hclean : ∀ peer ∈ peers, peer.Clean) :
    getlines 44 (peersText peers) = peers.map peerText := by
  induction peers using peersText.induct with
  | case1 => rfl
  | case2 peer =>
    have h := hclean peer (by simp)
    exact getlines_of_notMem
      (notMem_peerText h.id.2.1 h.host.2 (by decide) (by decide) (by decide) (by decide))
      (by simp [peersText, peerText])
  | case3 peer peers hne ih =>
    have h := hclean peer (by simp)
    rw [peersText.eq_3 _ _ hne, getlines_append_sep
      (notMem_peerText h.id.2.1 h.host.2 (by decide) (by decide) (by decide) (by decide)),
      ih fun p hp => hclean p (List.mem_cons_of_mem _ hp), List.map_cons]

theorem parsePeers_peersText {peers : List ClusterPeerConfig} (hclean : ∀ peer ∈ peers, peer.Clean)
    (hok : ∀ peer ∈ peers, peer.id ≠ [] ∧ peer.host ≠ [] ∧ InRange32 peer.port) :
    parsePeers (peersText peers) = some peers := by
  have htrim : (peers.map peerText).map trim = peers.map peerText := by
    rw [List.map_map]
    exact List.map_congr_left fun peer hp => trim_peerText (hclean peer hp) (hok peer hp).1
  have hsplit : split (peersText peers) 44 = peers.map peerText := by
    rw [split, getlines_peersText hclean, htrim, List.filter_eq_self]
    intro part hpart
    obtain ⟨peer, -, rfl⟩ := List.mem_map.mp hpart
    simp [peerText]
  have hparse : (peers.map peerText).mapM parsePeer = some (peers.map some) :=
    List.mapM_some_map fun peer hp =>
      parsePeer_peerText (hclean peer hp) (hok peer hp).1 (hok peer hp).2.1 (hok peer hp).2.2
  rw [parsePeers, hsplit, hparse]
  simp

theorem parsePeer_clean {text : Str} (h : parsePeer text = some (some peer)) (hhash : 35 ∉ text)
    (hcomma : 44 ∉ text) : peer.Clean := by
  unfold parsePeer at h
  split at h
  · next atPos colonPos hat hcolon =>
    split at h
    · cases h
    · split at h
      · cases h
      · next port hport =>
        simp only [Option.some.injEq, Option.ite_none_right_eq_some] at h
        obtain ⟨-, rfl⟩ := h
        have hid : ∀ {c}, c ∈ trim (text.take atPos) → c ∈ text := fun hc =>
          List.mem_of_mem_take (mem_of_mem_trim hc)
        have hhost : ∀ {c}, c ∈ trim ((text.drop (atPos + 1)).take (colonPos - atPos - 1)) →
            c ∈ text := fun hc =>
          List.mem_of_mem_drop (List.mem_of_mem_take (mem_of_mem_trim hc))
        refine ⟨⟨fun hc => hhash (hid hc), fun hc => hcomma (hid hc), ?_⟩, trim_trim _,
          ⟨fun hc => hhash (hhost hc), fun hc => hcomma (hhost hc)⟩, trim_trim _⟩
        -- everything in front of the first separator is another byte
        intro hc
        obtain ⟨i, hi, heq⟩ := List.mem_take_iff_getElem.mp (mem_of_mem_trim hc)
        have hfirst := (List.findIdx?_eq_some_iff_getElem.mp hat).2.2 i (by omega)
        rw [heq] at hfirst
        simp at hfirst
  · cases h

theorem parsePeers_clean {peers : List ClusterPeerConfig} (h : parsePeers value = some peers)
    (hhash : 35 ∉ value) (hmem : peer ∈ peers) : peer.Clean := by
  unfold parsePeers at h
  obtain ⟨parsed, hparsed, rfl⟩ := Option.map_eq_some_iff.mp h
  obtain ⟨_, hin, rfl⟩ := List.mem_filterMap.mp hmem
  obtain ⟨part, hpart, hpeer⟩ := List.mem_of_mapM_eq_some hparsed hin
  obtain ⟨line, hline, rfl⟩ := List.mem_map.mp (List.mem_filter.mp hpart).1
  refine parsePeer_clean hpeer (fun hc => ?_) fun hc => ?_
  · exact hhash (mem_of_mem_getlines hline (mem_of_mem_trim hc)).2
  · exact (mem_of_mem_getlines hline (mem_of_mem_trim hc)).1 rfl

/-! ## One line -/

/-- The name of a section or a key: something, with no blank and no colon or
`#` in it. -/
structure IsName (name : Str) : Prop where
  ne_nil : name ≠ []
  bytes : ∀ c ∈ name, isBlank c = false ∧ c ≠ 58 ∧ c ≠ 35

instance (name : Str) : Decidable (IsName name) :=
  have : Decidable (∀ c ∈ name, isBlank c = false ∧ c ≠ 58 ∧ c ≠ 35) := List.decidableBAll _ name
  decidable_of_iff (name ≠ [] ∧ ∀ c ∈ name, isBlank c = false ∧ c ≠ 58 ∧ c ≠ 35)
    ⟨fun h => ⟨h.1, h.2⟩, fun h => ⟨h.ne_nil, h.bytes⟩⟩

theorem IsName.trim {name : Str} (h : IsName name) : trim name = name := by
  rw [trim_eq_self_iff]
  exact ⟨fun c hc => (h.bytes c (List.mem_of_mem_head? hc)).1,
    fun c hc => (h.bytes c (List.mem_of_getLast? hc)).1⟩

/-- A key and its value in a line of `to_yaml`, without its indent. -/
theorem trim_fieldLine (hkey : IsName key) (hvalue : trim value = value) (hne : value ≠ []) :
    trim (32 :: 32 :: (key ++ 58 :: 32 :: value)) = key ++ 58 :: 32 :: value := by
  rw [trim_blank rfl, trim_blank rfl, trim_eq_self_iff]
  obtain ⟨c, rest, rfl⟩ := List.exists_cons_of_ne_nil hkey.ne_nil
  refine ⟨?_, ?_⟩
  · intro b hb
    cases hb
    exact (hkey.bytes c List.mem_cons_self).1
  · intro b hb
    refine (trim_eq_self_iff.1 hvalue).2 b ?_
    obtain ⟨v, vs, rfl⟩ := List.exists_cons_of_ne_nil hne
    simpa [List.getLast?_append, List.getLast?_cons] using hb

theorem loadLine_field {current : Str} (hkey : IsName key) (hvalue : trim value = value)
    (hne : value ≠ []) (hhash : 35 ∉ value) :
    loadLine (config, current) (32 :: 32 :: (key ++ 58 :: 32 :: value)) =
      if unquote value = [] then (config, current)
      else ((assign config current key (unquote value)).getD config, current) := by
  have hline : 35 ∉ (32 :: 32 :: (key ++ 58 :: 32 :: value) : Str) := by
    intro hmem
    simp only [List.mem_cons, List.mem_append] at hmem
    rcases hmem with h | h | h | h | h | h
    · cases h
    · cases h
    · exact (hkey.bytes 35 h).2.2 rfl
    · cases h
    · cases h
    · exact hhash h
  have hcolon : 58 ∉ key := fun h => (hkey.bytes 58 h).2.1 rfl
  have hstripped : stripComment (32 :: 32 :: (key ++ 58 :: 32 :: value)) =
      key ++ 58 :: 32 :: value := by
    rw [stripComment_eq_trim hline, trim_fieldLine hkey hvalue hne]
  have hindent : indentLevel (32 :: 32 :: (key ++ 58 :: 32 :: value)) ≠ 0 := by
    simp [indentLevel]
  have hdrop : (key ++ 58 :: 32 :: value).drop (key.length + 1) = 32 :: value := by
    rw [List.drop_append]
    simp
  unfold loadLine
  simp only [hstripped]
  rw [if_neg (by simp), if_neg (fun h => hindent h.1), findIdx?_byte hcolon]
  simp only [List.take_left, hkey.trim, hdrop, trim_blank (c := 32) rfl, hvalue, hkey.ne_nil,
    false_or]
  cases assign config current key (unquote value) <;> rfl

theorem loadLine_section {state : ServerConfig × Str} {name : Str} (hname : IsName name) :
    loadLine state (name ++ [58]) = (state.1, name) := by
  have hhash : 35 ∉ name ++ [58] := by
    intro hmem
    rcases List.mem_append.1 hmem with h | h
    · exact (hname.bytes 35 h).2.2 rfl
    · simp at h
  obtain ⟨c, rest, hcons⟩ := List.exists_cons_of_ne_nil hname.ne_nil
  have hc := (hname.bytes c (hcons ▸ List.mem_cons_self)).1
  have htrim : trim (name ++ [58]) = name ++ [58] := by
    rw [trim_eq_self_iff]
    refine ⟨?_, ?_⟩
    · rw [hcons]
      intro b hb
      cases hb
      exact hc
    · intro b hb
      rw [List.getLast?_concat] at hb
      cases hb
      decide
  have hindent : indentLevel (name ++ [58]) = 0 := by
    rw [hcons, List.cons_append]
    unfold indentLevel
    split
    · next heq => cases heq; cases hc
    · next heq => cases heq; cases hc
    · rfl
  unfold loadLine
  simp only [stripComment_eq_trim hhash, htrim, hindent, List.getLast?_concat,
    List.dropLast_concat, hname.trim]
  simp

/-! ## The table -/

/-- The member with the value it has in another configuration. -/
def FieldKind.copy (src dst : ServerConfig) : FieldKind → ServerConfig
  | text get set => set dst (get src)
  | int get set => set dst (get src)
  | bool get set => set dst (get src)
  | peers get set => set dst (get src)

/-- A kind reads and sets one of the strings, or reads one of the numbers, and
leaves the other strings and the peers as they are; or it is that of the
peers. -/
def FieldKind.Lawful : FieldKind → Prop
  | text get set => ∃ i : Nat, ∀ c, c.texts[i]? = some (get c) ∧
      ∀ v, (set c v).texts = c.texts.set i v ∧ (set c v).cluster.peers = c.cluster.peers
  | int get set => ∃ i : Nat, ∀ c, c.ints[i]? = some (get c) ∧
      ∀ v, (set c v).texts = c.texts ∧ (set c v).cluster.peers = c.cluster.peers
  | bool _ set => ∀ c v, (set c v).texts = c.texts ∧ (set c v).cluster.peers = c.cluster.peers
  | peers get set => ∀ c, get c = c.cluster.peers ∧
      ∀ v, (set c v).texts = c.texts ∧ (set c v).cluster.peers = v ∧
        (v = c.cluster.peers → set c v = c)

theorem nodeFields_lawful : ∀ field ∈ nodeFields, field.2.Lawful := by
  simp only [nodeFields, List.forall_mem_cons]
  and_intros
  · exact ⟨0, fun c => ⟨rfl, fun v => ⟨rfl, rfl⟩⟩⟩
  · exact ⟨1, fun c => ⟨rfl, fun v => ⟨rfl, rfl⟩⟩⟩
  · exact ⟨0, fun c => ⟨rfl, fun v => ⟨rfl, rfl⟩⟩⟩
  · exact ⟨2, fun c => ⟨rfl, fun v => ⟨rfl, rfl⟩⟩⟩
  · simp

theorem storeFields_lawful : ∀ field ∈ storeFields, field.2.Lawful := by
  simp only [storeFields, List.forall_mem_cons]
  and_intros
  · exact ⟨3, fun c => ⟨rfl, fun v => ⟨rfl, rfl⟩⟩⟩
  · exact fun c v => ⟨rfl, rfl⟩
  · exact ⟨4, fun c => ⟨rfl, fun v => ⟨rfl, rfl⟩⟩⟩
  · exact ⟨5, fun c => ⟨rfl, fun v => ⟨rfl, rfl⟩⟩⟩
  · exact ⟨1, fun c => ⟨rfl, fun v => ⟨rfl, rfl⟩⟩⟩
  · exact ⟨2, fun c => ⟨rfl, fun v => ⟨rfl, rfl⟩⟩⟩
  · simp

theorem clusterFields_lawful : ∀ field ∈ clusterFields, field.2.Lawful := by
  simp only [clusterFields, List.forall_mem_cons]
  and_intros
  · exact fun c v => ⟨rfl, rfl⟩
  · exact fun c => ⟨rfl, fun v => ⟨rfl, rfl, fun h => h ▸ rfl⟩⟩
  · exact ⟨3, fun c => ⟨rfl, fun v => ⟨rfl, rfl⟩⟩⟩
  · exact ⟨4, fun c => ⟨rfl, fun v => ⟨rfl, rfl⟩⟩⟩
  · exact ⟨6, fun c => ⟨rfl, fun v => ⟨rfl, rfl⟩⟩⟩
  · exact ⟨7, fun c => ⟨rfl, fun v => ⟨rfl, rfl⟩⟩⟩
  · simp

theorem logFields_lawful : ∀ field ∈ logFields, field.2.Lawful := by
  simp only [logFields, List.forall_mem_cons]
  and_intros
  · exact ⟨8, fun c => ⟨rfl, fun v => ⟨rfl, rfl⟩⟩⟩
  · exact ⟨9, fun c => ⟨rfl, fun v => ⟨rfl, rfl⟩⟩⟩
  · exact ⟨5, fun c => ⟨rfl, fun v => ⟨rfl, rfl⟩⟩⟩
  · exact ⟨6, fun c => ⟨rfl, fun v => ⟨rfl, rfl⟩⟩⟩
  · exact ⟨7, fun c => ⟨rfl, fun v => ⟨rfl, rfl⟩⟩⟩
  · exact fun c v => ⟨rfl, rfl⟩
  · simp

theorem lawful_of_mem : ∀ s ∈ sections, ∀ field ∈ s.2, field.2.Lawful := by
  simp only [sections, List.forall_mem_cons]
  exact ⟨nodeFields_lawful, storeFields_lawful, clusterFields_lawful, logFields_lawful, by simp⟩

theorem lookup_of_mem : ∀ s ∈ sections, ∀ field ∈ s.2,
    ((sections.lookup s.1).bind fun fields => fields.lookup field.1) = some field.2 := by
  simp only [sections, nodeFields, storeFields, clusterFields, logFields, List.forall_mem_cons]
  and_intros <;> first | rfl | simp

theorem isName_of_mem : ∀ s ∈ sections, IsName s.1 ∧ ∀ field ∈ s.2, IsName field.1 := by
  simp only [sections, nodeFields, storeFields, clusterFields, logFields, List.forall_mem_cons]
  and_intros <;> first | exact List.forall_mem_nil _ | decide

theorem lawful_of_lookup {current : Str}
    (h : ((sections.lookup current).bind fun fields => fields.lookup key) = some kind) :
    kind.Lawful := by
  obtain ⟨fields, hfields, hkind⟩ := Option.bind_eq_some_iff.mp h
  obtain ⟨l, l', hsections, -⟩ := List.lookup_eq_some_iff.mp hfields
  obtain ⟨m, m', rfl, -⟩ := List.lookup_eq_some_iff.mp hkind
  refine lawful_of_mem (current, m ++ (key, kind) :: m') ?_ (key, kind) (by simp)
  rw [hsections]
  simp

/-! ## Reading back what was written -/

theorem peersText_eq_nil {peers : List ClusterPeerConfig} (h : peersText peers = []) :
    peers = [] := by
  fun_cases peersText peers with
  | case1 => rfl
  | case2 peer => simp [peersText, peerText] at h
  | case3 peer peers hne =>
    rw [peersText.eq_3 _ _ hne] at h
    simp at h

theorem notMem_peersText {peers : List ClusterPeerConfig} (h : ∀ peer ∈ peers, c ∉ peerText peer)
    (hcomma : c ≠ 44) : c ∉ peersText peers := by
  induction peers using peersText.induct with
  | case1 => exact List.not_mem_nil
  | case2 peer => exact h peer (by simp)
  | case3 peer peers hne ih =>
    rw [peersText.eq_3 _ _ hne]
    simp only [List.mem_append, List.mem_cons, not_or]
    exact ⟨h peer (by simp), hcomma, ih fun p hp => h p (List.mem_cons_of_mem _ hp)⟩

theorem notMem_quoted (h : c ∉ s) (hquote : c ≠ 34) : c ∉ quoted s := by
  simp [quoted, h, hquote]

/-- A byte of no value `render` writes on its own is in the value only if it is
in a string. -/
theorem FieldKind.Lawful.notMem_render (hkind : kind.Lawful) {src : ServerConfig}
    (htexts : ∀ s ∈ src.texts, c ∉ s)
    (hpeers : ∀ peer ∈ src.cluster.peers, c ∉ peer.id ∧ c ∉ peer.host) (hc : c = 35 ∨ c = 10) :
    c ∉ kind.render src := by
  have hdigit : isDigit c = false ∧ c ≠ 45 ∧ c ≠ 34 ∧ c ≠ 44 ∧ c ≠ 64 ∧ c ≠ 58 ∧
      c ∉ str "true" ∧ c ∉ str "false" := by
    rcases hc with rfl | rfl <;> decide
  obtain ⟨hdigit, hminus, hquote, hcomma, hat, hcolon, htrue, hfalse⟩ := hdigit
  cases kind with
  | text get set =>
    obtain ⟨i, hi⟩ := hkind
    exact notMem_quoted (htexts _ (List.mem_of_getElem? (hi src).1)) hquote
  | int get set => exact showInt_notMem hdigit hminus
  | bool get set =>
    rw [FieldKind.render]
    split
    · exact htrue
    · exact hfalse
  | peers get set =>
    rw [FieldKind.render, (hkind src).1]
    refine notMem_quoted (notMem_peersText (fun peer hp => ?_) hcomma) hquote
    exact notMem_peerText (hpeers peer hp).1 (hpeers peer hp).2 hat hcolon hdigit hminus

theorem FieldKind.trim_render (kind : FieldKind) (src : ServerConfig) :
    trim (kind.render src) = kind.render src ∧ kind.render src ≠ [] := by
  cases kind with
  | text get set => exact ⟨trim_quoted _, by simp [FieldKind.render, quoted]⟩
  | int get set => exact ⟨trim_showInt _, showInt_ne_nil _⟩
  | bool get set =>
    rw [FieldKind.render]
    cases get src <;> decide
  | peers get set => exact ⟨trim_quoted _, by simp [FieldKind.render, quoted]⟩

section ReadBack

variable {src : ServerConfig} (hwritten : src.Written) (hclean : src.Clean)

include hwritten hclean

variable {dst : ServerConfig}

/-- The line of a key sets its member to what the writer found in it. The empty
list of peers is written as an empty value, which is skipped, so the peers must
not have been set before. -/
theorem FieldKind.Lawful.loadLine_fieldLine {name : Str} {kind : FieldKind} (hkind : kind.Lawful)
    (hname : IsName name) {current : Str}
    (hassign : ∀ value, YamlConfigParser.assign dst current name value = kind.assign dst value)
    (hempty : src.cluster.peers = [] → dst.cluster.peers = []) :
    loadLine (dst, current) (fieldLine src (name, kind)) = (kind.copy src dst, current) := by
  have hhash : 35 ∉ kind.render src := hkind.notMem_render hclean.texts
    (fun peer hp => ⟨(hclean.peers peer hp).id.1, (hclean.peers peer hp).host.1⟩) (.inl rfl)
  have htrim := kind.trim_render src
  rw [fieldLine, loadLine_field hname htrim.1 htrim.2 hhash, hassign]
  cases kind with
  | text get set =>
    obtain ⟨i, hi⟩ := hkind
    have hne := (hwritten.texts _ (List.mem_of_getElem? (hi src).1)).1
    rw [FieldKind.render, unquote_quoted, if_neg hne]
    rfl
  | int get set =>
    obtain ⟨i, hi⟩ := hkind
    have hrange := hwritten.ints _ (List.mem_of_getElem? (hi src).1)
    rw [FieldKind.render, unquote_showInt, if_neg (showInt_ne_nil _), FieldKind.assign,
      stoi_showInt hrange]
    rfl
  | bool get set =>
    have hplain : unquote (if get src = true then str "true" else str "false") =
        if get src = true then str "true" else str "false" := by
      cases get src <;> decide
    rw [FieldKind.render, hplain, if_neg (by cases get src <;> decide), FieldKind.assign,
      parseBool_render]
    rfl
  | peers get set =>
    rw [FieldKind.render, unquote_quoted, FieldKind.copy, (hkind src).1]
    split
    · next hnil =>
      have hsrc := peersText_eq_nil hnil
      rw [hsrc, ((hkind dst).2 []).2.2 (hempty hsrc).symm]
    · rw [FieldKind.assign, parsePeers_peersText hclean.peers fun peer hp =>
        ⟨(hwritten.peers peer hp).1, (hwritten.peers peer hp).2.2.1,
          (hwritten.peers peer hp).2.2.2.2⟩]
      rfl

omit hwritten hclean in
theorem FieldKind.Lawful.copy_peers {kind : FieldKind} (hkind : kind.Lawful)
    (dst : ServerConfig) : (kind.copy src dst).cluster.peers = dst.cluster.peers ∨
      (kind.copy src dst).cluster.peers = src.cluster.peers := by
  cases kind with
  | text get set =>
    obtain ⟨i, hi⟩ := hkind
    exact .inl ((hi dst).2 _).2
  | int get set =>
    obtain ⟨i, hi⟩ := hkind
    exact .inl ((hi dst).2 _).2
  | bool get set => exact .inl (hkind dst _).2
  | peers get set => exact .inr ((((hkind dst).2 _).2.1).trans (hkind src).1)

/-- The members of the keys, one after the other. -/
def copyFields (src dst : ServerConfig) (fields : List (Str × FieldKind)) : ServerConfig :=
  fields.foldl (fun dst field => field.2.copy src dst) dst

omit hwritten hclean in
theorem copyFields_peers {fields : List (Str × FieldKind)}
    (hfields : ∀ field ∈ fields, field.2.Lawful)
    (hempty : src.cluster.peers = [] → dst.cluster.peers = []) (hsrc : src.cluster.peers = []) :
    (copyFields src dst fields).cluster.peers = [] := by
  induction fields generalizing dst with
  | nil => exact hempty hsrc
  | cons field fields ih =>
    refine ih (fun f hf => hfields f (List.mem_cons_of_mem _ hf)) fun _ => ?_
    rcases (hfields field List.mem_cons_self).copy_peers dst with h | h
    · rw [h, hempty hsrc]
    · rw [h, hsrc]

theorem loadLine_fieldLines {s : Str × List (Str × FieldKind)} (hs : s ∈ sections)
    {fields : List (Str × FieldKind)} (hfields : ∀ field ∈ fields, field ∈ s.2)
    (hempty : src.cluster.peers = [] → dst.cluster.peers = []) :
    (fields.map (fieldLine src)).foldl loadLine (dst, s.1) = (copyFields src dst fields, s.1) := by
  induction fields generalizing dst with
  | nil => rfl
  | cons field fields ih =>
    have hmem := hfields field List.mem_cons_self
    have hkind := lawful_of_mem s hs field hmem
    have hassign : ∀ value, YamlConfigParser.assign dst s.1 field.1 value =
        field.2.assign dst value := by
      intro value
      rw [YamlConfigParser.assign, lookup_of_mem s hs field hmem]
    rw [List.map_cons, List.foldl_cons, hkind.loadLine_fieldLine hwritten hclean
      ((isName_of_mem s hs).2 field hmem) hassign hempty]
    refine ih (fun f hf => hfields f (List.mem_cons_of_mem _ hf)) fun hsrc => ?_
    rcases hkind.copy_peers dst with h | h
    · rw [h, hempty hsrc]
    · rw [h, hsrc]

/-- The lines of some sections, with an empty line after each but the last. -/
theorem foldl_sectionLines {ss : List (Str × List (Str × FieldKind))} (hss : ∀ s ∈ ss, s ∈ sections)
    (hempty : src.cluster.peers = [] → dst.cluster.peers = []) (current : Str) :
    (((ss.map (sectionLines src)).intersperse [[]]).flatten.foldl loadLine (dst, current)).1 =
      ss.foldl (fun dst s => copyFields src dst s.2) dst := by
  induction ss generalizing dst current with
  | nil => rfl
  | cons s ss ih =>
    have hs := hss s List.mem_cons_self
    have hlines : (sectionLines src s).foldl loadLine (dst, current) =
        (copyFields src dst s.2, s.1) := by
      rw [sectionLines, List.foldl_cons, loadLine_section (isName_of_mem s hs).1]
      exact loadLine_fieldLines hwritten hclean hs (fun _ hf => hf) hempty
    have hrest := ih (fun t ht => hss t (List.mem_cons_of_mem _ ht))
      (copyFields_peers (lawful_of_mem s hs) hempty) s.1
    cases ss with
    | nil => simp [hlines]
    | cons t ts =>
      rw [List.foldl_cons, ← hrest]
      simp only [List.map_cons, List.intersperse_cons_cons, List.flatten_cons,
        List.foldl_append, hlines]
      rfl

omit hwritten hclean in
/-- Each section copies its own part, so all of them copy everything. -/
theorem copyFields_sections : sections.foldl (fun dst s => copyFields src dst s.2) {} = src := by
  have hnode : ∀ dst, copyFields src dst nodeFields = { dst with node := src.node } :=
    fun _ => rfl
  have hstore : ∀ dst, copyFields src dst storeFields = { dst with store := src.store } :=
    fun _ => rfl
  have hcluster : ∀ dst, copyFields src dst clusterFields = { dst with cluster := src.cluster } :=
    fun _ => rfl
  have hlog : ∀ dst, copyFields src dst logFields = { dst with log := src.log } :=
    fun _ => rfl
  simp only [sections, List.foldl_cons, List.foldl_nil, hnode, hstore, hcluster, hlog]

omit hclean in
theorem newline_notMem_yamlLines {line : Str} (hline : line ∈ yamlLines src) : 10 ∉ line := by
  have hname : ∀ {name : Str}, IsName name → 10 ∉ name := fun h hc => by
    cases (h.bytes 10 hc).1
  obtain ⟨lines, hlines, hline⟩ := List.mem_flatten.mp hline
  rcases List.mem_of_mem_intersperse hlines with hlines | rfl
  · obtain ⟨s, hs, rfl⟩ := List.mem_map.mp hlines
    rcases List.mem_cons.mp hline with rfl | hline
    · simp [hname (isName_of_mem s hs).1]
    · obtain ⟨field, hfield, rfl⟩ := List.mem_map.mp hline
      have hvalue : 10 ∉ field.2.render src :=
        (lawful_of_mem s hs field hfield).notMem_render (fun t ht => (hwritten.texts t ht).2)
          (fun peer hp => ⟨(hwritten.peers peer hp).2.1, (hwritten.peers peer hp).2.2.2.1⟩)
          (.inr rfl)
      simp [fieldLine, hname ((isName_of_mem s hs).2 field hfield), hvalue]
  · simp_all

/-- What is clean is read back. -/
theorem load_toYaml (hvalid : src.validate = true) : load (toYaml src) = some src := by
  have hlines : getlines 10 (toYaml src) = yamlLines src := by
    rw [toYaml, getlines_flatMap fun line hl => newline_notMem_yamlLines hwritten hl, List.map_id']
  have hloaded : ((yamlLines src).foldl loadLine ({}, [])).1 = src :=
    (foldl_sectionLines hwritten hclean (fun _ hs => hs) (fun _ => rfl) []).trans
      copyFields_sections
  unfold load
  rw [hlines]
  simp only [hloaded, hvalid, if_true]

end ReadBack

/-! ## What can be loaded at all -/

theorem FieldKind.Lawful.assign_clean (hkind : kind.Lawful) {config' : ServerConfig}
    (hclean : config.Clean) (hvalue : 35 ∉ value) (h : kind.assign config value = some config') :
    config'.Clean := by
  cases kind with
  | text get set =>
    obtain ⟨i, hi⟩ := hkind
    obtain ⟨htexts, hpeers⟩ := (hi config).2 value
    cases h
    refine ⟨fun s hs => ?_, fun peer hp => hclean.peers peer (hpeers ▸ hp)⟩
    rw [htexts] at hs
    rcases List.mem_or_eq_of_mem_set hs with hs | rfl
    · exact hclean.texts s hs
    · exact hvalue
  | int get set =>
    obtain ⟨i, hi⟩ := hkind
    obtain ⟨n, -, rfl⟩ := Option.map_eq_some_iff.mp h
    obtain ⟨htexts, hpeers⟩ := (hi config).2 n
    exact hclean.of_eq htexts hpeers
  | bool get set =>
    rw [FieldKind.assign] at h
    split at h
    · next b hb =>
      cases h
      obtain ⟨htexts, hpeers⟩ := hkind config b
      exact hclean.of_eq htexts hpeers
    · cases h
      exact hclean
  | peers get set =>
    obtain ⟨peers, hparse, rfl⟩ := Option.map_eq_some_iff.mp h
    obtain ⟨htexts, hpeers, -⟩ := (hkind config).2 peers
    refine ⟨fun s hs => hclean.texts s (htexts ▸ hs), fun peer hp => ?_⟩
    exact parsePeers_clean hparse hvalue (hpeers ▸ hp)

theorem loadLine_clean {state : ServerConfig × Str} (h : state.1.Clean) (line : Str) :
    (loadLine state line).1.Clean := by
  unfold loadLine
  dsimp only
  split
  · exact h
  · split
    · exact h
    · split
      · exact h
      · next colonPos hcolon =>
        split
        · exact h
        · split
          · exact h
          · next config hassign =>
            have hvalue : 35 ∉ unquote (trim ((stripComment line).drop (colonPos + 1))) :=
              fun hc => hash_notMem_stripComment line
                (List.mem_of_mem_drop (mem_of_mem_trim (mem_of_mem_unquote hc)))
            unfold YamlConfigParser.assign at hassign
            split at hassign
            · cases hassign
              exact h
            · next kind hkind =>
              exact (lawful_of_lookup hkind).assign_clean h hvalue hassign

theorem load_clean {text : Str} (h : load text = some config) : config.Clean := by
  have hdefault : ({} : ServerConfig).Clean := ⟨by decide, fun peer hp => by cases hp⟩
  have hlines : ∀ (lines : List Str) (state : ServerConfig × Str), state.1.Clean →
      (lines.foldl loadLine state).1.Clean := by
    intro lines
    induction lines with
    | nil => exact fun _ hstate => hstate
    | cons line lines ih => exact fun state hstate => ih _ (loadLine_clean hstate line)
  unfold load at h
  dsimp only at h
  split at h
  · cases h
    exact hlines _ _ hdefault
  · cases h

/-- A valid configuration with its strings on one line comes back, peers and all,
if and only if it is clean. -/
theorem load_toYaml_iff (cfg : ServerConfig) (hvalid : cfg.validate = true)
    (hwritten : cfg.Written) : load (toYaml cfg) = some cfg ↔ cfg.Clean :=
  ⟨load_clean, fun hclean => load_toYaml hwritten hclean hvalid⟩

/-- Two peers; colons and a second `@` in a host do no harm. -/
def twoPeers : ServerConfig :=
  { cluster :=
      { enabled := true
        peers := [⟨str "node-1", str "127.0.0.1", 9006⟩, ⟨str "node-2", str "kv@[::1]", 9007⟩] } }

theorem load_toYaml_twoPeers : twoPeers.validate = true ∧ twoPeers.Written ∧
    load (toYaml twoPeers) = some twoPeers := by
  have hvalid : twoPeers.validate = true := by decide
  have hwritten : twoPeers.Written := ⟨by decide, by decide, by decide⟩
  have hpeer : ∀ peer ∈ twoPeers.cluster.peers, peer.Clean := by
    intro peer hp
    simp only [twoPeers, List.mem_cons, List.not_mem_nil, or_false] at hp
    rcases hp with rfl | rfl <;> exact ⟨by decide, by decide, by decide, by decide⟩
  exact ⟨hvalid, hwritten, (load_toYaml_iff twoPeers hvalid hwritten).2 ⟨by decide, hpeer⟩⟩

/-- A data directory with a `#` in its name. -/
def hashDir : ServerConfig := { node := { dataDir := str "./data#1" } }

/-- The line is cut in the middle of the string, and the opening quote becomes
part of what is left. -/
theorem load_toYaml_hashDir : hashDir.validate = true ∧ hashDir.Written ∧
    load (toYaml hashDir) ≠ some hashDir ∧
    loadLine ({}, str "node") (str "  data_dir: \"./data#1\"") =
      ({ node := { dataDir := str "\"./data" } }, str "node") := by
  refine ⟨by decide, ⟨by decide, by decide, by decide⟩, fun h => ?_, by decide⟩
  exact absurd (load_clean h).texts (by decide)

end YamlConfigParser

end TinyKV
