import TinyKV.Proofs.Framing

/-!
# The framer and the parser read arrays alike

`resp_frame_size` and `parse_resp_request` were written apart. Both accept
the standard encoding of every list of byte strings, whatever bytes the
strings hold and whatever follows, and what the framer cuts without calling
it malformed the parser accepts: an array that is complete in the buffer
is complete on its own.
-/

namespace TinyKV

open Text

/-! ## Lines and numbers -/

theorem readCrlfLine_of_notMem {line : Str} (h : 13 ∉ line) (rest : Str) :
    readCrlfLine (line ++ 13 :: 10 :: rest) = some (line, rest) := by
  induction line with
  | nil => rfl
  | cons c line ih =>
    simp only [List.mem_cons, not_or] at h
    rw [List.cons_append, readCrlfLine, if_neg fun hc => h.1 hc.1.symm, ih h.2]
    rfl

/-- Where a line ends does not depend on what follows it. -/
theorem readCrlfLine_replace {s line rest : Str} (h : readCrlfLine s = some (line, rest))
    (other : Str) : readCrlfLine (line ++ 13 :: 10 :: other) = some (line, other) := by
  induction s generalizing line with
  | nil => cases h
  | cons c s ih =>
    rw [readCrlfLine] at h
    split at h
    · cases h
      rfl
    · next hc =>
      obtain ⟨p, hp, heq⟩ := Option.map_eq_some_iff.mp h
      cases heq
      have hs := readCrlfLine_eq hp
      have hhead : (p.1 ++ 13 :: 10 :: other).head? = s.head? := by
        rw [hs]
        cases p.1 <;> rfl
      rw [List.cons_append, readCrlfLine, hhead, if_neg hc, ih hp]
      rfl

variable {n : Int} {args : List Str}

theorem parseLong_showInt (hlo : -2 ^ 63 ≤ n) (hhi : n < 2 ^ 63) :
    parseLong (showInt n) = some n := by
  rw [parseLong, readInt_showInt_end]
  exact if_pos ⟨hlo, hhi⟩

theorem parseNonneg_showInt (hlo : 0 ≤ n) (hhi : n < 2 ^ 63) :
    parseNonneg (showInt n) = some n := by
  rw [parseNonneg, parseLong_showInt (by omega) hhi]
  exact if_pos (decide_eq_true hlo)

theorem parseNonneg_le {text : Str} (h : parseNonneg text = some n) : 0 ≤ n := by
  obtain ⟨-, hn⟩ := Option.filter_eq_some_iff.mp h
  exact of_decide_eq_true hn

theorem notMem_showNat {c : UInt8} (hc : isDigit c = false) (n : Nat) : c ∉ showNat n := by
  intro h
  rw [showNat_digits h] at hc
  cases hc

/-! ## One bulk string -/

section Bulk

variable {rest digits payload tail : Str}

/-- The rest of a buffer starts with this bulk string. -/
def BulkAt (rest digits payload tail : Str) : Prop :=
  readCrlfLine rest = some (36 :: digits, payload ++ 13 :: 10 :: tail) ∧
    parseNonneg digits = some (payload.length : Int)

theorem take_crlf (payload tail : Str) :
    ((payload ++ 13 :: 10 :: tail).drop payload.length).take 2 = crlf := by
  rw [List.drop_left]
  rfl

theorem drop_crlf (payload tail : Str) :
    (payload ++ 13 :: 10 :: tail).drop (payload.length + 2) = tail := by
  rw [← List.drop_drop, List.drop_left]
  rfl

theorem length_crlf (payload tail : Str) :
    ¬ (payload ++ 13 :: 10 :: tail).length < payload.length + 2 := by
  simp only [List.length_append, List.length_cons]
  omega

theorem BulkAt.respArgs (h : BulkAt rest digits payload tail) (n : Nat) :
    respArgs (n + 1) rest = (TinyKV.respArgs n tail).map fun p => (payload :: p.1, p.2) := by
  rw [TinyKV.respArgs, h.1]
  simp only [h.2, Int.toNat_natCast, length_crlf, take_crlf, drop_crlf, List.take_left]
  simp

theorem BulkAt.respBulks (h : BulkAt rest digits payload tail) (n pos : Nat) :
    respBulks (n + 1) pos rest =
      TinyKV.respBulks n (pos + (digits.length + 1) + 2 + payload.length + 2) tail := by
  rw [TinyKV.respBulks, h.1]
  simp only [h.2, Int.toNat_natCast, length_crlf, take_crlf, drop_crlf, List.length_cons]
  simp

theorem BulkAt.eq (h : BulkAt rest digits payload tail) :
    rest = 36 :: digits ++ 13 :: 10 :: (payload ++ 13 :: 10 :: tail) := readCrlfLine_eq h.1

/-- A bulk string stays one if what follows it changes. -/
theorem BulkAt.replace (h : BulkAt rest digits payload tail) (other : Str) :
    BulkAt (36 :: digits ++ 13 :: 10 :: (payload ++ 13 :: 10 :: other)) digits payload other :=
  ⟨readCrlfLine_replace h.1 _, h.2⟩

/-- What the framer has seen when it goes on to the next bulk string. -/
theorem bulkAt_of_respBulks {n pos size : Nat}
    (h : respBulks (n + 1) pos rest = some (size, false)) :
    ∃ digits payload tail, BulkAt rest digits payload tail := by
  rw [respBulks] at h
  split at h
  · cases h
  · next line body hline =>
    simp only at h
    split at h
    · next digits =>
      split at h
      · cases h
      · next bulkLen hnum =>
        split at h
        · cases h
        · next hlen =>
          split at h
          · cases h
          · next hcrlf =>
            have hpos := parseNonneg_le hnum
            have hpayload : (body.take bulkLen.toNat).length = bulkLen.toNat := by
              rw [List.length_take]
              omega
            have hbody : body = body.take bulkLen.toNat ++
                13 :: 10 :: body.drop (bulkLen.toNat + 2) := by
              conv_lhs => rw [← List.take_append_drop bulkLen.toNat body,
                ← List.take_append_drop 2 (body.drop bulkLen.toNat), not_not.mp hcrlf,
                List.drop_drop]
              rfl
            refine ⟨digits, body.take bulkLen.toNat, body.drop (bulkLen.toNat + 2),
              ?_, ?_⟩
            · rw [hline, ← hbody]
            · rw [hnum, hpayload, Int.toNat_of_nonneg hpos]
    · cases h

end Bulk

/-! ## The standard encoding -/

/-- A bulk string. -/
def respBulk (arg : Str) : Str := 36 :: (showNat arg.length ++ 13 :: 10 :: (arg ++ crlf))

/-- An array of bulk strings. -/
def respEncode (args : List Str) : Str :=
  42 :: (showNat args.length ++ 13 :: 10 :: args.flatMap respBulk)

theorem bulkAt_respBulk {arg : Str} (h : arg.length < 2 ^ 63) (rest : Str) :
    BulkAt (respBulk arg ++ rest) (showNat arg.length) arg rest := by
  constructor
  · have hline : 13 ∉ 36 :: showNat arg.length := by
      simpa using notMem_showNat (by decide) arg.length
    have happ : respBulk arg ++ rest =
        (36 :: showNat arg.length) ++ 13 :: 10 :: (arg ++ 13 :: 10 :: rest) := by
      simp [respBulk, crlf]
    rw [happ]
    exact readCrlfLine_of_notMem hline _
  · exact parseNonneg_showInt (n := arg.length) (by omega) (by exact_mod_cast h)

theorem respArgs_flatMap (h : ∀ arg ∈ args, arg.length < 2 ^ 63) (rest : Str) :
    respArgs args.length (args.flatMap respBulk ++ rest) = some (args, rest) := by
  induction args with
  | nil => rfl
  | cons arg args ih =>
    have hargs := ih fun a ha => h a (List.mem_cons_of_mem _ ha)
    rw [List.flatMap_cons, List.append_assoc, List.length_cons,
      (bulkAt_respBulk (h arg List.mem_cons_self) _).respArgs, hargs]
    rfl

theorem respBulks_flatMap (h : ∀ arg ∈ args, arg.length < 2 ^ 63) (pos : Nat) (rest : Str) :
    respBulks args.length pos (args.flatMap respBulk ++ rest) =
      some (pos + (args.flatMap respBulk).length, false) := by
  induction args generalizing pos with
  | nil => rfl
  | cons arg args ih =>
    have hargs := ih fun a ha => h a (List.mem_cons_of_mem _ ha)
    rw [List.flatMap_cons, List.append_assoc, List.length_cons,
      (bulkAt_respBulk (h arg List.mem_cons_self) _).respBulks, hargs]
    simp only [respBulk, crlf, List.length_append, List.length_cons, List.length_nil]
    congr 2
    omega

theorem length_le_flatMap {arg : Str} (h : arg ∈ args) :
    arg.length ≤ (args.flatMap respBulk).length := by
  induction args with
  | nil => cases h
  | cons a args ih =>
    rw [List.flatMap_cons, List.length_append]
    rcases List.mem_cons.mp h with rfl | h
    · simp only [respBulk, List.length_append, List.length_cons]
      omega
    · have := ih h
      omega

theorem count_le_flatMap (args : List Str) : args.length ≤ (args.flatMap respBulk).length := by
  induction args with
  | nil => simp
  | cons a args ih =>
    simp only [List.flatMap_cons, List.length_append, List.length_cons, respBulk]
    omega

theorem length_respEncode (args : List Str) :
    (respEncode args).length =
      (showNat args.length).length + 3 + (args.flatMap respBulk).length := by
  simp only [respEncode, List.length_append, List.length_cons]
  omega

/-- The header of an array, in front of its bulk strings and anything else. -/
theorem readCrlfLine_respEncode (args : List Str) (rest : Str) :
    readCrlfLine (respEncode args ++ rest) =
      some (42 :: showNat args.length, args.flatMap respBulk ++ rest) := by
  have hline : 13 ∉ 42 :: showNat args.length := by
    simpa using notMem_showNat (by decide) args.length
  have happ : respEncode args ++ rest =
      (42 :: showNat args.length) ++ 13 :: 10 :: (args.flatMap respBulk ++ rest) := by
    simp [respEncode]
  rw [happ]
  exact readCrlfLine_of_notMem hline _

theorem parseLong_count (h : (respEncode args).length < 2 ^ 63) :
    parseLong (showNat args.length) = some (args.length : Int) := by
  have hcount := count_le_flatMap args
  rw [length_respEncode] at h
  exact parseLong_showInt (n := args.length) (by omega) (by omega)

theorem args_short (h : (respEncode args).length < 2 ^ 63) :
    ∀ arg ∈ args, arg.length < 2 ^ 63 := by
  intro arg harg
  have hle := length_le_flatMap harg
  rw [length_respEncode] at h
  omega

theorem respFrameSize_respEncode (hne : args ≠ []) (h : (respEncode args).length < 2 ^ 63)
    (rest : Str) :
    respFrameSize (respEncode args ++ rest) = some ((respEncode args).length, false) := by
  have hpos := List.length_pos_iff.mpr hne
  rw [respFrameSize, readCrlfLine_respEncode]
  simp only [parseLong_count h]
  rw [if_neg (by omega), Int.toNat_natCast, respBulks_flatMap (args_short h), length_respEncode,
    List.length_cons]

theorem parseRespArgs_respEncode (hne : args ≠ []) (h : (respEncode args).length < 2 ^ 63) :
    parseRespArgs (respEncode args) = some args := by
  have hpos := List.length_pos_iff.mpr hne
  have hline := readCrlfLine_respEncode args []
  have hargs := respArgs_flatMap (args_short h) []
  rw [List.append_nil] at hline
  rw [parseRespArgs, hline]
  simp only [parseLong_count h]
  rw [if_neg (by omega), Int.toNat_natCast, hargs]

/-! ## What the framer accepts -/

/-- Bulk strings that are complete in the buffer are complete on their own. -/
theorem respArgs_of_respBulks {n pos size : Nat} {rest : Str}
    (h : respBulks n pos rest = some (size, false)) :
    ∃ front back args, rest = front ++ back ∧ size = pos + front.length ∧
      respArgs n front = some (args, []) := by
  induction n generalizing pos rest with
  | zero =>
    cases h
    exact ⟨[], rest, [], rfl, rfl, rfl⟩
  | succ n ih =>
    obtain ⟨digits, payload, tail, hbulk⟩ := bulkAt_of_respBulks h
    rw [hbulk.respBulks] at h
    obtain ⟨front, back, args, rfl, hsize, hargs⟩ := ih h
    refine ⟨36 :: digits ++ 13 :: 10 :: (payload ++ 13 :: 10 :: front), back,
      payload :: args, ?_, ?_, ?_⟩
    · rw [hbulk.eq]
      simp
    · rw [hsize]
      simp only [List.length_append, List.length_cons]
      omega
    · rw [(hbulk.replace front).respArgs, hargs]
      rfl

theorem parseRespArgs_of_respFrameSize {buffer : Str} {size : Nat}
    (h : respFrameSize buffer = some (size, false)) :
    ∃ args, parseRespArgs (buffer.take size) = some args := by
  rw [respFrameSize] at h
  split at h
  · cases h
  · next line rest hline =>
    simp only at h
    split at h
    · next digits =>
      split at h
      · cases h
      · next count hcount =>
        split at h
        · cases h
        · next hpos =>
          obtain ⟨front, back, args, rfl, rfl, hargs⟩ := respArgs_of_respBulks h
          have hframe : buffer.take ((42 :: digits).length + 2 + front.length) =
              42 :: digits ++ 13 :: 10 :: front := by
            have hbuffer : buffer = (42 :: digits ++ 13 :: 10 :: front) ++ back := by
              rw [readCrlfLine_eq hline]
              simp
            rw [hbuffer]
            refine List.take_left' ?_
            simp only [List.length_append, List.length_cons]
            omega
          refine ⟨args, ?_⟩
          rw [hframe, parseRespArgs, readCrlfLine_replace hline]
          simp only [hcount, hargs, if_neg hpos]
    · cases h

/-! ## Which errors `parse_args` reports -/

/-- The messages of `parse_args`. -/
def argsErrors : List Str :=
  [str "ERROR empty_command", str "ERROR unknown_command", str "ERROR usage: PING",
    str "ERROR usage: RAFT_STATUS", str "ERROR usage: METRICS", str "ERROR usage: GET <key>",
    str "ERROR usage: REPL_GET <key>", str "ERROR usage: DEL <key>",
    str "ERROR usage: EXISTS <key>", str "ERROR usage: TTL <key>", usageSet, usageExpire,
    invalidTtl, usageVote, invalidTerm, str "ERROR invalid_raft_vote_log", usageAppend,
    invalidAppend, invalidHex, usageInstall, invalidSnapshotHeader]

/-- A command, or one of the messages. -/
def Request.Reported (r : Request) : Prop :=
  r.error = [] ∧ r.type ≠ .unknown ∨ r.error ∈ argsErrors ∧ r.type = .unknown

section Errors

variable {protocol : ProtocolType} {type : CommandType} {usage : Str}

theorem reported_error {e : Str} (h : e ∈ argsErrors) : (errorRequest e protocol).Reported :=
  Or.inr ⟨h, rfl⟩

theorem parseBare_reported (htype : type ≠ .unknown) (h : usage ∈ argsErrors) :
    (parseBare type usage args protocol).Reported := by
  unfold parseBare
  split
  · exact Or.inl ⟨rfl, htype⟩
  · exact reported_error h

theorem parseKey_reported (htype : type ≠ .unknown) (h : usage ∈ argsErrors) :
    (parseKey type usage args protocol).Reported := by
  unfold parseKey
  split
  · split
    · exact reported_error h
    · exact Or.inl ⟨rfl, htype⟩
  · exact reported_error h

theorem parsePut_reported (htype : type ≠ .unknown) :
    (parsePut type args protocol).Reported := by
  have husage : usageSet ∈ argsErrors := by simp [argsErrors]
  have hinvalid : invalidTtl ∈ argsErrors := by simp [argsErrors]
  unfold parsePut
  split
  · split
    · exact reported_error husage
    · exact Or.inl ⟨rfl, htype⟩
  · split
    · exact reported_error husage
    · split
      · split
        · exact reported_error hinvalid
        · exact Or.inl ⟨rfl, htype⟩
      · exact reported_error hinvalid
  · exact reported_error husage

theorem parseExpire_reported (htype : type ≠ .unknown) :
    (parseExpire type args protocol).Reported := by
  have husage : usageExpire ∈ argsErrors := by simp [argsErrors]
  have hinvalid : invalidTtl ∈ argsErrors := by simp [argsErrors]
  unfold parseExpire
  split
  · split
    · exact reported_error husage
    · split
      · split
        · exact reported_error hinvalid
        · exact Or.inl ⟨rfl, htype⟩
      · exact reported_error hinvalid
  · exact reported_error husage

theorem parseRequestVote_reported : (parseRequestVote args protocol).Reported := by
  have hterm : invalidTerm ∈ argsErrors := by simp [argsErrors]
  unfold parseRequestVote
  split
  · split
    · exact reported_error hterm
    · exact Or.inl ⟨rfl, by simp⟩
  · split
    · exact reported_error hterm
    · split
      · exact Or.inl ⟨rfl, by simp⟩
      · exact reported_error (by simp [argsErrors])
  · exact reported_error (by simp [argsErrors])

theorem parseAppendEntries_reported : (parseAppendEntries args protocol).Reported := by
  have hterm : invalidTerm ∈ argsErrors := by simp [argsErrors]
  have hfields : invalidAppend ∈ argsErrors := by simp [argsErrors]
  have hhex : invalidHex ∈ argsErrors := by simp [argsErrors]
  unfold parseAppendEntries
  split
  · split
    · exact reported_error hterm
    · exact Or.inl ⟨rfl, by simp⟩
  · split
    · exact reported_error hterm
    · split
      · split
        · exact reported_error hhex
        · exact Or.inl ⟨rfl, by simp⟩
      · exact reported_error hfields
  · split
    · exact reported_error hterm
    · split
      · split
        · exact Or.inl ⟨rfl, by simp⟩
        · exact reported_error hhex
      · exact reported_error hfields
  · exact reported_error (by simp [argsErrors])

theorem parseInstallSnapshot_reported : (parseInstallSnapshot args protocol).Reported := by
  unfold parseInstallSnapshot
  split
  · split
    · split
      · exact reported_error (by simp [argsErrors])
      · exact Or.inl ⟨rfl, by simp⟩
    · exact reported_error (by simp [argsErrors])
  · exact reported_error (by simp [argsErrors])

/-- What both branches have in common. -/
theorem ite_request {P : Request → Prop} {c : Prop} [Decidable c] {a b : Request} (ha : P a)
    (hb : P b) : P (if c then a else b) := by
  split
  · exact ha
  · exact hb

theorem parseArgs_reported (args : List Str) (protocol : ProtocolType) :
    (parseArgs args protocol).Reported := by
  cases args with
  | nil => exact reported_error (by simp [argsErrors])
  | cons command args =>
    refine ite_request (parseBare_reported (by decide) (by simp [argsErrors])) ?_
    refine ite_request (parsePut_reported (by decide)) ?_
    refine ite_request (parsePut_reported (by decide)) ?_
    refine ite_request (parsePut_reported (by decide)) ?_
    refine ite_request (parseKey_reported (by decide) (by simp [argsErrors])) ?_
    refine ite_request (parseKey_reported (by decide) (by simp [argsErrors])) ?_
    refine ite_request (parseKey_reported (by decide) (by simp [argsErrors])) ?_
    refine ite_request (parseKey_reported (by decide) (by simp [argsErrors])) ?_
    refine ite_request (parseKey_reported (by decide) (by simp [argsErrors])) ?_
    refine ite_request (parseKey_reported (by decide) (by simp [argsErrors])) ?_
    refine ite_request (parseExpire_reported (by decide)) ?_
    refine ite_request (parseExpire_reported (by decide)) ?_
    refine ite_request (parseExpire_reported (by decide)) ?_
    refine ite_request (parseKey_reported (by decide) (by simp [argsErrors])) ?_
    refine ite_request parseRequestVote_reported (ite_request parseAppendEntries_reported ?_)
    refine ite_request parseInstallSnapshot_reported ?_
    refine ite_request (parseBare_reported (by decide) (by simp [argsErrors])) ?_
    refine ite_request (parseBare_reported (by decide) (by simp [argsErrors])) ?_
    exact reported_error (by simp [argsErrors])

/-- `invalid_resp` is not among them. -/
theorem parseArgs_error (args : List Str) (protocol : ProtocolType) :
    (parseArgs args protocol).error ≠ invalidResp := by
  have hother : ∀ e ∈ argsErrors, e ≠ invalidResp := by decide +kernel
  rcases parseArgs_reported args protocol with ⟨hnil, -⟩ | ⟨hmem, -⟩
  · rw [hnil]
    exact (str_ne_nil (by decide)).symm
  · exact hother _ hmem

end Errors

/-! ## What an accepted request holds -/

section Accepted

variable {protocol : ProtocolType} {type : CommandType} {usage : Str}

theorem parseKey_cases (type : CommandType) (usage : Str) (args : List Str)
    (protocol : ProtocolType) :
    (∃ e, parseKey type usage args protocol = errorRequest e protocol) ∨
      ∃ key, args = [key] ∧ key ≠ [] ∧ parseKey type usage args protocol =
        { type := type, protocol := protocol, key := key } := by
  unfold parseKey
  split
  · next key =>
    split
    · exact Or.inl ⟨usage, rfl⟩
    · next hkey => exact Or.inr ⟨key, rfl, hkey, rfl⟩
  · exact Or.inl ⟨usage, rfl⟩

theorem parseExpire_cases (type : CommandType) (args : List Str) (protocol : ProtocolType) :
    (∃ e, parseExpire type args protocol = errorRequest e protocol) ∨
      ∃ key seconds ttl, args = [key, seconds] ∧ key ≠ [] ∧ parseLong seconds = some ttl ∧
        0 < ttl ∧ parseExpire type args protocol =
          { type := type, protocol := protocol, key := key, ttlSeconds := toInt32 ttl } := by
  unfold parseExpire
  split
  · next key seconds =>
    split
    · exact Or.inl ⟨usageExpire, rfl⟩
    · next hkey =>
      split
      · next ttl hparse =>
        split
        · exact Or.inl ⟨invalidTtl, rfl⟩
        · next hpos => exact Or.inr ⟨key, seconds, ttl, rfl, hkey, hparse, by omega, rfl⟩
      · exact Or.inl ⟨invalidTtl, rfl⟩
  · exact Or.inl ⟨usageExpire, rfl⟩

theorem parsePut_cases (type : CommandType) (args : List Str) (protocol : ProtocolType) :
    (∃ e, parsePut type args protocol = errorRequest e protocol) ∨
      ∃ key value ttl, args.take 2 = [key, value] ∧ key ≠ [] ∧ value ≠ [] ∧
        parsePut type args protocol =
          { type := type, protocol := protocol, key := key, value := value,
            ttlSeconds := ttl } := by
  unfold parsePut
  split
  · next key value =>
    split
    · exact Or.inl ⟨usageSet, rfl⟩
    · next h =>
      obtain ⟨hkey, hvalue⟩ := not_or.mp h
      exact Or.inr ⟨key, value, 0, rfl, hkey, hvalue, rfl⟩
  · next key value ex seconds =>
    split
    · exact Or.inl ⟨usageSet, rfl⟩
    · next h =>
      obtain ⟨-, h⟩ := not_or.mp h
      obtain ⟨hkey, hvalue⟩ := not_or.mp h
      split
      · next ttl _ =>
        split
        · exact Or.inl ⟨invalidTtl, rfl⟩
        · exact Or.inr ⟨key, value, toInt32 ttl, rfl, hkey, hvalue, rfl⟩
      · exact Or.inl ⟨invalidTtl, rfl⟩
  · exact Or.inl ⟨usageSet, rfl⟩

variable {P : Request → Prop}

/-- What holds of the request the parser of a command builds, whichever it
is. -/
theorem parseCommand_holds (command : Str) (herror : ∀ e, P (errorRequest e protocol))
    (hbare : ∀ type ∈ [CommandType.ping, .raftStatus, .metrics], ∀ usage,
      P (parseBare type usage args protocol))
    (hput : ∀ type ∈ [CommandType.put, .replicaPut, .raftPut], P (parsePut type args protocol))
    (hkey : ∀ type ∈ [CommandType.get, .replicaGet, .del, .replicaDel, .raftDel, .exists, .ttl],
      ∀ usage, P (parseKey type usage args protocol))
    (hexpire : ∀ type ∈ [CommandType.expire, .replicaExpire, .raftExpire],
      P (parseExpire type args protocol)) (hvote : P (parseRequestVote args protocol))
    (happend : P (parseAppendEntries args protocol))
    (hinstall : P (parseInstallSnapshot args protocol)) :
    P (parseCommand command args protocol) := by
  refine ite_request (hbare _ (by simp) _) ?_
  refine ite_request (hput _ (by simp)) (ite_request (hput _ (by simp)) ?_)
  refine ite_request (hput _ (by simp)) (ite_request (hkey _ (by simp) _) ?_)
  refine ite_request (hkey _ (by simp) _) (ite_request (hkey _ (by simp) _) ?_)
  refine ite_request (hkey _ (by simp) _) (ite_request (hkey _ (by simp) _) ?_)
  refine ite_request (hkey _ (by simp) _) (ite_request (hexpire _ (by simp)) ?_)
  refine ite_request (hexpire _ (by simp)) (ite_request (hexpire _ (by simp)) ?_)
  refine ite_request (hkey _ (by simp) _) ?_
  refine ite_request hvote (ite_request happend (ite_request hinstall ?_))
  refine ite_request (hbare _ (by simp) _) (ite_request (hbare _ (by simp) _) ?_)
  exact herror _

theorem inRange32_toInt32 (n : Int) : InRange32 (toInt32 n) := by
  have hlow := Int.le_bmod (x := n) (m := 2 ^ 32) (by decide)
  have hhigh := Int.bmod_lt (x := n) (m := 2 ^ 32) (by decide)
  rw [InRange32, toInt32]
  omega

/-- What the parser returns is refused, has nothing but its type, is about a
key that is not empty, or comes from another node. -/
theorem parseArgs_holds (herror : ∀ e, P (errorRequest e protocol))
    (hbare : ∀ type ∈ [CommandType.ping, .raftStatus, .metrics],
      P { type := type, protocol := protocol })
    (hdata : ∀ type key value ttl, key ≠ [] →
      P { type := type, protocol := protocol, key := key, value := value, ttlSeconds := ttl })
    (hpeer : ∀ r : Request, r.protocol = protocol → InRange32 r.term →
      r.type ∈ [CommandType.raftRequestVote, .raftAppendEntries, .raftInstallSnapshot] → P r) :
    P (parseArgs args protocol) := by
  cases args with
  | nil => exact herror _
  | cons command args =>
    refine parseCommand_holds (upper command) herror ?_ ?_ ?_ ?_ ?_ ?_ ?_
    · intro type htype usage
      rw [parseBare]
      exact ite_request (hbare type htype) (herror _)
    · intro type _
      rcases parsePut_cases type args protocol with ⟨e, he⟩ | ⟨key, value, ttl, -, hkey, -, he⟩
      · exact he ▸ herror e
      · exact he ▸ hdata type key value ttl hkey
    · intro type _ usage
      rcases parseKey_cases type usage args protocol with ⟨e, he⟩ | ⟨key, -, hkey, he⟩
      · exact he ▸ herror e
      · exact he ▸ hdata type key [] 0 hkey
    · intro type _
      rcases parseExpire_cases type args protocol with ⟨e, he⟩ | ⟨key, _, _, -, hkey, -, -, he⟩
      · exact he ▸ herror e
      · exact he ▸ hdata type key [] _ hkey
    · unfold parseRequestVote
      repeat' split
      all_goals first | exact herror _ | exact hpeer _ rfl (inRange32_toInt32 _) (by simp)
    · unfold parseAppendEntries
      repeat' split
      all_goals first | exact herror _ | exact hpeer _ rfl (inRange32_toInt32 _) (by simp)
    · unfold parseInstallSnapshot
      repeat' split
      all_goals first | exact herror _ | exact hpeer _ rfl (inRange32_toInt32 _) (by simp)

theorem parseRequest_holds (herror : ∀ e protocol, P (errorRequest e protocol))
    (hargs : ∀ args protocol, P (parseArgs args protocol)) (line : Str) :
    P (parseRequest line) := by
  unfold parseRequest
  split
  · unfold parseRespRequest
    split
    · exact herror _ _
    · exact hargs _ _
  · split
    · exact herror _ _
    · simp only []
      split
      · unfold parsePutLine
        split
        · exact herror _ _
        · exact ite_request (herror _ _) (hargs _ _)
      · exact hargs _ _

end Accepted

/-- The encoding of arguments is cut off whole, whatever follows, and parsed
back into these arguments; and whatever is cut off as well-formed is not
refused as invalid. A buffer is a `std::string`, and no longer than that. -/
theorem resp_framed_and_parsed :
    (∀ args rest, args ≠ [] → (respEncode args ++ rest).length < 2 ^ 63 →
      extractRequestFrame (respEncode args ++ rest) = some (respEncode args, rest) ∧
        parseRespArgs (respEncode args) = some args ∧
        parseRespRequest (respEncode args) = parseArgs args .resp) ∧
      ∀ buffer size, respFrameSize buffer = some (size, false) →
        (parseRespRequest (buffer.take size)).error ≠ invalidResp := by
  constructor
  · intro args rest hne hlength
    have hshort : (respEncode args).length < 2 ^ 63 := by
      rw [List.length_append] at hlength
      omega
    have hparse := parseRespArgs_respEncode hne hshort
    have hcut := extract_resp rfl (respFrameSize_respEncode hne hshort rest)
    rw [List.take_left, List.drop_left] at hcut
    exact ⟨hcut, hparse, by rw [parseRespRequest, hparse]⟩
  · intro buffer size hsize
    obtain ⟨args, hargs⟩ := parseRespArgs_of_respFrameSize hsize
    rw [parseRespRequest, hargs]
    exact parseArgs_error args .resp

/-- A value made of a line end and a star, in front of the next request. -/
theorem resp_framed_and_parsed_crlf :
    extractRequestFrame (respEncode [str "SET", str "k", crlf ++ str "*"] ++ str "*1") =
      some (respEncode [str "SET", str "k", crlf ++ str "*"], str "*1") :=
  (resp_framed_and_parsed.1 _ _ (by decide) (by decide)).1

end TinyKV
