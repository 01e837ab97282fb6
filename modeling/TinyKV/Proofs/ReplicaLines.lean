import TinyKV.Proofs.Lines

/-!
# Which updates reach a replica unchanged

Without Raft a node passes updates on as lines of text, with the key and the
value as they came in. A client of the array protocol can put any bytes
there. The receiver cuts the line at the first line end, trims it and splits
it at white space, so that the key has to be a word and the value must not
begin or end in white space or hold a line end; nothing else is needed.

The answer to `REPL_GET` has its line ends taken off, all of them. A value
that ends in one comes back shorter.
-/

namespace TinyKV

open Text

/-! ## The request a line stands for -/

def ReplicaLine.request : ReplicaLine → Request
  | put key value => { type := .replicaPut, key := key, value := value }
  | get key => { type := .replicaGet, key := key }
  | del key => { type := .replicaDel, key := key }
  | expire key ttlSeconds => { type := .replicaExpire, key := key, ttlSeconds := ttlSeconds }

/-- The receiver finds one frame in the line, and in it the request. -/
def ReplicaLine.Faithful (l : ReplicaLine) : Prop :=
  (drain l.text).1.map parseRequest = [l.request] ∧ (drain l.text).2 = []

/-- A line that is one frame, read as a request. -/
theorem drain_line_iff {body : Str} (hstar : body.head? ≠ some 42) (r : Request) :
    (drain (body ++ [10])).1.map parseRequest = [r] ∧ (drain (body ++ [10])).2 = [] ↔
      10 ∉ body ∧ parseRequest body = r := by
  have hhead : (body ++ [10]).head? ≠ some 42 := by
    cases body with
    | nil => simp
    | cons c body => exact hstar
  constructor
  · rintro ⟨hframes, hrest⟩
    obtain ⟨frame, hframe, hparse⟩ := List.map_eq_singleton_iff.mp hframes
    have hwire := drain_onWire (body ++ [10])
    rw [hframe, hrest, List.flatMap_singleton, List.append_nil] at hwire
    have hnostar : frame.head? ≠ some 42 := by
      intro hs
      rw [onWire, if_pos hs] at hwire
      exact hhead (hwire ▸ hs)
    rw [onWire, if_neg hnostar] at hwire
    have hbody : frame = body := List.append_cancel_right hwire
    subst hbody
    refine ⟨?_, hparse⟩
    cases hcut : extractRequestFrame (frame ++ [10]) with
    | none =>
      rw [drain_none hcut] at hframe
      cases hframe
    | some p =>
      rw [drain_some hcut] at hframe
      have hp : p.1 = frame := (List.cons.inj hframe).1
      rcases extract_cases hcut with ⟨hline, -, -⟩ | ⟨_, _, hs, -⟩
      · exact hp ▸ hline
      · exact absurd hs hhead
  · rintro ⟨hline, rfl⟩
    have hcut : extractRequestFrame (body ++ [10]) = some (body, []) := extract_line hline hstar []
    rw [drain_some hcut]
    exact ⟨rfl, rfl⟩

/-! ## Keys -/

theorem notMem_of_isWord {w : Str} (h : IsWord w) : 10 ∉ w := by
  intro hm
  have := h.2 10 hm
  revert this
  decide

theorem words_blank {args : List Str} (h : ∀ w ∈ args, IsWord w) :
    words ((args.flatMap (32 :: ·)).rdropWhile isSpace) = args := by
  have hdrop := rdropWhile_flatMap h (t := []) (by simp)
  rw [List.append_nil] at hdrop
  rw [hdrop, words_flatMap h]

/-- A command with a key, as the parser reads the rest of its line. -/
theorem parseKey_iff {type : CommandType} (htype : type ≠ .unknown) {usage input key : Str} :
    parseKey type usage (words input) .text = { type := type, key := key } ↔
      words input = [key] := by
  rcases parseKey_cases type usage (words input) .text with ⟨e, herror⟩ | ⟨k, hargs, -, hread⟩
  · rw [herror]
    constructor
    · intro h
      exact absurd (congrArg Request.type h).symm htype
    · intro h
      have hw : IsWord key := words_isWord (s := input) (by rw [h]; exact List.mem_singleton_self _)
      rw [h] at herror
      have hok : parseKey type usage [key] .text = { type := type, key := key } := if_neg hw.1
      rw [← herror, hok]
  · rw [hread, hargs]
    constructor
    · intro h
      have hk : k = key := congrArg Request.key h
      rw [hk]
    · intro h
      rw [(List.cons.inj h).1]

theorem mem_words_of_parseExpire {type : CommandType} (htype : type ≠ .unknown)
    {input key : Str} {ttl : Int}
    (h : parseExpire type (words input) .text = { type := type, key := key, ttlSeconds := ttl }) :
    key ∈ words input := by
  rcases parseExpire_cases type (words input) .text with
    ⟨e, herror⟩ | ⟨k, seconds, n, hargs, -, -, -, hread⟩
  · rw [herror] at h
    exact absurd (congrArg Request.type h).symm htype
  · rw [hread] at h
    have hk : k = key := congrArg Request.key h
    rw [hargs, hk]
    exact List.mem_cons_self

/-! ## Values -/

/-- The three `PUT` commands, on what follows them in the line. -/
theorem parsePutLine_replica (input : Str) :
    parsePutLine (upper (str "REPL_PUT")) input =
      match readWord input with
      | none => errorRequest usagePut .text
      | some (key, rest) =>
        if trim (rest.takeWhile fun c => !decide (c = 10)) = [] then errorRequest usagePut .text
        else
          { type := .replicaPut, key := key,
            value := trim (rest.takeWhile fun c => !decide (c = 10)) } := by
  rw [parsePutLine]
  cases hread : readWord input with
  | none => rfl
  | some p =>
    have hw : IsWord p.1 := readWord_isWord hread
    simp only
    split
    · rfl
    · next hvalue => exact if_neg (not_or.mpr ⟨hw.1, hvalue⟩)

theorem parsePutLine_iff {key value : Str} (hline : 10 ∉ value) :
    parsePutLine (upper (str "REPL_PUT"))
        ((32 :: (key ++ 32 :: value)).rdropWhile isSpace) =
        { type := .replicaPut, key := key, value := value } ↔
      IsWord key ∧ value ≠ [] ∧ trim value = value := by
  rw [parsePutLine_replica]
  constructor
  · intro h
    split at h
    · cases h
    · next k rest hread =>
      split at h
      · cases h
      · next hne =>
        have hk : k = key := congrArg Request.key h
        have hv : trim (rest.takeWhile fun c => !decide (c = 10)) = value :=
          congrArg Request.value h
        subst hk hv
        exact ⟨readWord_isWord hread, hne, trim_trim _⟩
  · rintro ⟨hkey, hne, htrim⟩
    obtain ⟨hfront, hback⟩ := Trim.trimBy_eq_self_iff_drop.1 htrim
    have hinput : (32 :: (key ++ 32 :: value)).rdropWhile isSpace = 32 :: (key ++ 32 :: value) := by
      have happ : 32 :: (key ++ 32 :: value) = (32 :: (key ++ [32])) ++ value := by simp
      rw [happ, rdropWhile_append_of_ne_nil (by rw [hback]; exact hne), hback]
    have hread : readWord (32 :: (key ++ 32 :: value)) = some (key, 32 :: value) :=
      readWord_blank hkey (head_blank (by decide) value)
    have hrest : (32 :: value).takeWhile (fun c => !decide (c = 10)) = 32 :: value := by
      refine List.takeWhile_eq_self_iff.mpr fun c hc => ?_
      rcases List.mem_cons.mp hc with rfl | hc
      · decide
      · simpa using fun heq : c = 10 => hline (heq ▸ hc)
    have hvalue : trim (32 :: value) = value := by
      rw [trim, List.dropWhile_cons_of_pos (by decide), hfront, hback]
    rw [hinput, hread]
    simp only [hrest, hvalue]
    exact if_neg hne

/-! ## Lines -/

theorem drain_text_iff {command rest : Str} (hw : IsWord command)
    (hstar : command.head? ≠ some 42) (r : Request) :
    (drain (command ++ rest ++ [10])).1.map parseRequest = [r] ∧
        (drain (command ++ rest ++ [10])).2 = [] ↔
      10 ∉ rest ∧ parseRequest (command ++ rest) = r := by
  rw [drain_line_iff (head_ne_star hw hstar rest)]
  have hline : 10 ∉ command ++ rest ↔ 10 ∉ rest := by
    simp [notMem_of_isWord hw]
  rw [hline]

theorem faithful_put (key value : Str) :
    (ReplicaLine.put key value).Faithful ↔
      IsWord key ∧ value ≠ [] ∧ 10 ∉ value ∧ trim value = value := by
  have htext : (ReplicaLine.put key value).text =
      str "REPL_PUT" ++ 32 :: (key ++ 32 :: value) ++ [10] := by
    simp [ReplicaLine.text]
  have hput : TakesRest (upper (str "REPL_PUT")) := by decide +kernel
  rw [ReplicaLine.Faithful, htext, drain_text_iff (by decide) (by decide),
    parseRequest_put (by decide) (by decide) hput (head_blank (by decide) _)]
  have hmem : 10 ∉ 32 :: (key ++ 32 :: value) ↔ 10 ∉ key ∧ 10 ∉ value := by
    simp
  rw [hmem]
  constructor
  · rintro ⟨⟨-, hvalue⟩, hparse⟩
    obtain ⟨hkey, hne, htrim⟩ := (parsePutLine_iff hvalue).mp hparse
    exact ⟨hkey, hne, hvalue, htrim⟩
  · rintro ⟨hkey, hne, hvalue, htrim⟩
    exact ⟨⟨notMem_of_isWord hkey, hvalue⟩, (parsePutLine_iff hvalue).mpr ⟨hkey, hne, htrim⟩⟩

section Key

variable {command : Str} (hw : IsWord command) (hstar : command.head? ≠ some 42)
  (hput : ¬ TakesRest (upper command)) {type : CommandType} (htype : type ≠ .unknown)
include hw hstar hput htype

theorem faithful_key {usage : Str}
    (hcommand : ∀ args, parseCommand (upper (upper command)) args .text =
      parseKey type usage args .text) (key : Str) :
    (drain (command ++ 32 :: key ++ [10])).1.map parseRequest =
          [{ type := type, key := key }] ∧
        (drain (command ++ 32 :: key ++ [10])).2 = [] ↔ IsWord key := by
  rw [drain_text_iff hw hstar, parseRequest_other hw hstar hput (head_blank (by decide) key),
    hcommand, parseKey_iff htype]
  constructor
  · rintro ⟨-, hwords⟩
    refine words_isWord (s := (32 :: key).rdropWhile isSpace) ?_
    rw [hwords]
    exact List.mem_singleton_self key
  · intro hkey
    have hline : 10 ∉ 32 :: key := by simpa using notMem_of_isWord hkey
    have hwords : words (([key].flatMap (32 :: ·)).rdropWhile isSpace) = [key] :=
      words_blank (by simpa using hkey)
    rw [List.flatMap_singleton] at hwords
    exact ⟨hline, hwords⟩

theorem faithful_key_ttl
    (hcommand : ∀ args, parseCommand (upper (upper command)) args .text =
      parseExpire type args .text) (key : Str) {ttl : Int} (hpos : 0 < ttl)
    (hlt : ttl < 2 ^ 31) :
    (drain (command ++ 32 :: (key ++ 32 :: showInt ttl) ++ [10])).1.map parseRequest =
          [{ type := type, key := key, ttlSeconds := ttl }] ∧
        (drain (command ++ 32 :: (key ++ 32 :: showInt ttl) ++ [10])).2 = [] ↔ IsWord key := by
  rw [drain_text_iff hw hstar, parseRequest_other hw hstar hput (head_blank (by decide) _),
    hcommand]
  constructor
  · rintro ⟨-, hparse⟩
    exact words_isWord (mem_words_of_parseExpire htype hparse)
  · intro hkey
    have hline : 10 ∉ 32 :: (key ++ 32 :: showInt ttl) := by
      simp [notMem_of_isWord hkey, notMem_of_isWord (showInt_isWord ttl)]
    have hwords : words (([key, showInt ttl].flatMap (32 :: ·)).rdropWhile isSpace) =
        [key, showInt ttl] := words_blank (by simpa using ⟨hkey, showInt_isWord ttl⟩)
    have happ : [key, showInt ttl].flatMap (32 :: ·) = 32 :: (key ++ 32 :: showInt ttl) := by
      simp
    rw [happ] at hwords
    refine ⟨hline, ?_⟩
    have hparse : parseLong (showInt ttl) = some ttl := parseLong_showInt (by omega) (by omega)
    rw [hwords]
    simp only [parseExpire, hparse, if_neg hkey.1]
    rw [if_neg (by omega), toInt32_of_lt (by omega) hlt]

end Key

theorem faithful_get (key : Str) : (ReplicaLine.get key).Faithful ↔ IsWord key :=
  faithful_key (by decide) (by decide) (by decide +kernel) (by decide) (fun _ => rfl) key

theorem faithful_del (key : Str) : (ReplicaLine.del key).Faithful ↔ IsWord key :=
  faithful_key (by decide) (by decide) (by decide +kernel) (by decide) (fun _ => rfl) key

theorem faithful_expire (key : Str) {ttl : Int} (hpos : 0 < ttl) (hlt : ttl < 2 ^ 31) :
    (ReplicaLine.expire key ttl).Faithful ↔ IsWord key := by
  have htext : (ReplicaLine.expire key ttl).text =
      str "REPL_EXPIRE" ++ 32 :: (key ++ 32 :: showInt ttl) ++ [10] := by
    simp [ReplicaLine.text]
  rw [ReplicaLine.Faithful, htext]
  exact faithful_key_ttl (by decide) (by decide) (by decide +kernel) (by decide)
    (fun _ => rfl) key hpos hlt

/-! ## What a node sends -/

section Sent

variable {env : LocalEnv} {now : Int} {s : Store} {r : Request}

theorem mem_replicate {passOn : Bool} {lines : List ReplicaLine}
    {p : ClusterNode × ReplicaLine} (h : p ∈ env.replicate passOn lines) :
    passOn = true ∧ p.2 ∈ lines ∧ ∀ line ∈ lines, (p.1, line) ∈ env.replicate passOn lines := by
  by_cases hpass : (passOn && env.enabled && !env.raftEnabled) = true
  · rw [LocalEnv.replicate, if_pos hpass] at h ⊢
    simp only [Bool.and_eq_true] at hpass
    simp only [List.mem_flatMap, List.mem_map] at h ⊢
    obtain ⟨node, hnode, line, hline, rfl⟩ := h
    exact ⟨hpass.1.1, hline, fun other hother => ⟨node, hnode, other, hother, rfl⟩⟩
  · rw [LocalEnv.replicate, if_neg hpass] at h
    cases h

theorem askOthers_sent {key : Str} {others : List (ClusterNode × Str)}
    {p : ClusterNode × ReplicaLine} (h : p ∈ (askOthers key others).2) : p.2 = .get key := by
  induction others with
  | nil => cases h
  | cons o others ih =>
    rw [askOthers] at h
    split at h
    · rw [List.mem_singleton.mp h]
    · rcases List.mem_cons.mp h with rfl | h
      · rfl
      · exact ih h

theorem expire_pos {key : Str} {ttl : Int} (h : (s.expire now key ttl).1 = true) : 0 < ttl := by
  by_contra hle
  have hle : ttl ≤ 0 := by omega
  cases s with
  | memory m => simp [Store.expire, MemoryStore.expire, hle] at h
  | persistent ord m => simp [Store.expire, PersistentMemoryStore.expire, hle] at h

/-- The key is a word, and a value that is passed on can stand in a line. -/
def Request.Plain (r : Request) : Prop :=
  IsWord r.key ∧
    (r.type = .put → r.value ≠ [] ∧ 10 ∉ r.value ∧ trim r.value = r.value)

theorem sent_put_iff (htype : r.type = .put) (hlt : r.ttlSeconds < 2 ^ 31) :
    (∀ p ∈ (executePut env now s r).sent, p.2.Faithful) ↔
      (executePut env now s r).sent = [] ∨ r.Plain := by
  constructor
  · intro h
    refine or_iff_not_imp_left.mpr fun hne => ?_
    obtain ⟨p, hp⟩ := List.exists_mem_of_ne_nil _ hne
    have hfirst := h _ ((mem_replicate hp).2.2 _ List.mem_cons_self)
    obtain ⟨hkey, hvalue⟩ := (faithful_put r.key r.value).mp hfirst
    exact ⟨hkey, fun _ => hvalue⟩
  · rintro (hnil | hplain) p hp
    · rw [hnil] at hp
      cases hp
    · have hline := (mem_replicate hp).2.1
      rcases List.mem_cons.mp hline with heq | hline
      · rw [heq]
        exact (faithful_put _ _).mpr ⟨hplain.1, hplain.2 htype⟩
      · split at hline
        · next hpos =>
          rw [List.mem_singleton.mp hline]
          exact (faithful_expire _ hpos hlt).mpr hplain.1
        · cases hline

/-- The other requests send one kind of line, which is read back exactly if
the key is a word. -/
theorem sent_key_iff {sent : List (ClusterNode × ReplicaLine)} (htype : r.type ≠ .put)
    (hsent : ∀ p ∈ sent, p.2.Faithful ↔ IsWord r.key) :
    (∀ p ∈ sent, p.2.Faithful) ↔ sent = [] ∨ r.Plain := by
  constructor
  · intro h
    refine or_iff_not_imp_left.mpr fun hne => ?_
    obtain ⟨p, hp⟩ := List.exists_mem_of_ne_nil _ hne
    exact ⟨(hsent p hp).mp (h p hp), fun hput => absurd hput htype⟩
  · rintro (rfl | hplain) p hp
    · cases hp
    · exact (hsent p hp).mpr hplain.1

theorem sent_faithful_iff
    (htype : r.type = .put ∨ r.type = .get ∨ r.type = .del ∨ r.type = .expire)
    (hlt : r.ttlSeconds < 2 ^ 31) :
    (∀ p ∈ (executeLocal env now s r).sent, p.2.Faithful) ↔
      (executeLocal env now s r).sent = [] ∨ r.Plain := by
  rcases htype with htype | htype | htype | htype
  · simp only [executeLocal, htype]
    exact sent_put_iff htype hlt
  · simp only [executeLocal, htype]
    refine sent_key_iff (by rw [htype]; decide) fun p hp => ?_
    have hline : p.2 = .get r.key := by
      simp only [executeGet] at hp
      split at hp
      · exact askOthers_sent hp
      · cases hp
    rw [hline]
    exact faithful_get r.key
  · simp only [executeLocal, htype]
    refine sent_key_iff (by rw [htype]; decide) fun p hp => ?_
    rw [List.mem_singleton.mp (mem_replicate hp).2.1]
    exact faithful_del r.key
  · simp only [executeLocal, htype]
    refine sent_key_iff (by rw [htype]; decide) fun p hp => ?_
    obtain ⟨hpass, hline, -⟩ := mem_replicate hp
    simp only [Bool.and_eq_true] at hpass
    rw [List.mem_singleton.mp hline]
    exact faithful_expire r.key (expire_pos hpass.1) hlt

end Sent

/-! ## The answer to REPL_GET -/

theorem textResponse_value (value : Str) :
    parseTextValue (textResponse (str "VALUE " ++ value)) = some (stripLineEnd value) := by
  have htext : textResponse (str "VALUE " ++ value) = str "VALUE " ++ (value ++ [10]) := by
    rw [textResponse, if_neg (by simp [str, bytes]), List.append_assoc]
  have hdrop : (str "VALUE " ++ (value ++ [10])).drop 6 = value ++ [10] := rfl
  rw [htext, parseTextValue, if_pos (List.prefix_append _ _), hdrop, stripLineEnd,
    List.rdropWhile_concat_pos _ _ _ (by decide)]
  rfl

theorem stripLineEnd_eq_self_iff {value : Str} :
    stripLineEnd value = value ↔ ∀ c ∈ value.getLast?, isLineEnd c = false := by
  rw [stripLineEnd, List.rdropWhile_eq_self_iff]
  cases value using List.reverseRecOn with
  | nil => simp
  | append_singleton value c => simp

/-- The lines a node sends for a request are read back, each as one request
with the same key, value and time to live, exactly if there are none or the
request is plain; and the answer to `REPL_GET` gives back exactly those
values that do not end in a line end. -/
theorem replication_faithful_iff (env : LocalEnv) (now : Int) (s : Store) (r : Request)
    (htype : r.type = .put ∨ r.type = .get ∨ r.type = .del ∨ r.type = .expire)
    (httl : 0 ≤ r.ttlSeconds ∧ r.ttlSeconds < 2 ^ 31) :
    ((∀ p ∈ (executeLocal env now s r).sent, p.2.Faithful) ↔
      (executeLocal env now s r).sent = [] ∨ r.Plain) ∧
    ∀ store key value, (Store.get now store key).1 = some value →
      (parseTextValue (executeLocal env now store (ReplicaLine.get key).request).reply =
          some value ↔
        ∀ c ∈ value.getLast?, isLineEnd c = false) := by
  refine ⟨sent_faithful_iff htype httl.2, fun store key value hget => ?_⟩
  have hreply : (executeLocal env now store (ReplicaLine.get key).request).reply =
      textResponse (str "VALUE " ++ value) := by
    simp only [executeLocal, ReplicaLine.request, executeGet, hget, Request.answer]
    rw [if_neg (by simp)]
  rw [hreply, textResponse_value, Option.some.injEq]
  exact stripLineEnd_eq_self_iff

/-- A cluster without Raft, in which each key has one replica. -/
def oneReplica : LocalEnv :=
  { raftEnabled := false, replicas := [⟨str "n2", str "127.0.0.1", 6381⟩] }

/-- A put with a time to live is sent as two lines, and both are read back. -/
theorem replication_faithful_iff_plain :
    (executeLocal oneReplica 0 (.memory {})
        { type := .put, key := str "k", value := str "a b", ttlSeconds := 7 }).sent.length = 2 ∧
      ∀ p ∈ (executeLocal oneReplica 0 (.memory {})
        { type := .put, key := str "k", value := str "a b", ttlSeconds := 7 }).sent,
        p.2.Faithful :=
  ⟨by decide, (replication_faithful_iff oneReplica 0 (.memory {})
    { type := .put, key := str "k", value := str "a b", ttlSeconds := 7 } (Or.inl rfl)
    (by decide)).1.mpr (Or.inr ⟨by decide, fun _ => by decide⟩)⟩

/-- A key with a blank in it, set by a client of the array protocol, reaches
the replica as another key with another value. -/
theorem replica_splits_key :
    let r := parseRequest (respEncode [str "SET", str "a b", str "v"])
    r.type = .put ∧ r.key = str "a b" ∧ r.value = str "v" ∧
      (executeLocal oneReplica 0 (.memory {}) r).sent =
        [(⟨str "n2", str "127.0.0.1", 6381⟩, .put (str "a b") (str "v"))] ∧
      (drain (ReplicaLine.put (str "a b") (str "v")).text).1.map parseRequest =
        [{ type := .replicaPut, key := str "a", value := str "b v" }] := by
  decide +kernel

end TinyKV
