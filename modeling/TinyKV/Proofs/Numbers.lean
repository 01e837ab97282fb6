import TinyKV.Proofs.Lines

/-!
# The numbers of a request

Every number of a request is read as a `long` and kept as an `int`. The
checks in between (a deadline is positive, a header field is not negative)
look at the `long`. So a field holds its token's number reduced to 32 bits,
whatever the command, and it holds the number itself exactly if that is below
`2 ^ 31`.
-/

namespace TinyKV

open Text

/-! ## Which token a field comes from -/

/-- The numeric fields of a `Request`. -/
inductive NumericField
  | ttlSeconds | term | prevLogIndex | prevLogTerm | leaderCommit | entryCount | logIndex
  | logTerm | lastLogIndex | lastLogTerm
  deriving DecidableEq, Repr

def Request.number (r : Request) : NumericField → Int
  | .ttlSeconds => r.ttlSeconds
  | .term => r.term
  | .prevLogIndex => r.prevLogIndex
  | .prevLogTerm => r.prevLogTerm
  | .leaderCommit => r.leaderCommit
  | .entryCount => r.entryCount
  | .logIndex => r.logIndex
  | .logTerm => r.logTerm
  | .lastLogIndex => r.lastLogIndex
  | .lastLogTerm => r.lastLogTerm

/-- The numbers among the arguments of a command, each with the field it is
for. -/
def numberTokens : CommandType → List Str → List (NumericField × Str)
  | .put, [_, _, _, seconds] | .replicaPut, [_, _, _, seconds]
  | .raftPut, [_, _, _, seconds] => [(.ttlSeconds, seconds)]
  | .expire, [_, seconds] | .replicaExpire, [_, seconds]
  | .raftExpire, [_, seconds] => [(.ttlSeconds, seconds)]
  | .raftRequestVote, [term, _] => [(.term, term)]
  | .raftRequestVote, [term, _, index, logTerm] =>
    [(.term, term), (.lastLogIndex, index), (.lastLogTerm, logTerm)]
  | .raftAppendEntries, [term, _] => [(.term, term)]
  | .raftAppendEntries, [term, _, prevIndex, prevTerm, commit, count, _] =>
    [(.term, term), (.prevLogIndex, prevIndex), (.prevLogTerm, prevTerm),
      (.leaderCommit, commit), (.entryCount, count)]
  | .raftAppendEntries, [term, _, prevIndex, prevTerm, commit, index, entryTerm, _, _, seconds,
      _] =>
      [(.term, term), (.prevLogIndex, prevIndex), (.prevLogTerm, prevTerm),
        (.leaderCommit, commit), (.logIndex, index), (.logTerm, entryTerm),
        (.ttlSeconds, seconds)]
  | .raftInstallSnapshot, [term, _, index, logTerm, _] =>
    [(.term, term), (.lastLogIndex, index), (.lastLogTerm, logTerm)]
  | _, _ => []

/-- What `parse_request` hands to `parse_args`. -/
def requestArgs (line : Str) : Option (List Str) :=
  if line.head? = some 42 then parseRespArgs line
  else
    match readWord (trim line) with
    | none => none
    | some (word, input) =>
      let command := upper word
      if command = str "PUT" ∨ command = str "REPL_PUT" ∨ command = str "RAFT_PUT" then
        match readWord input with
        | none => none
        | some (key, rest) =>
          let value := trim (rest.takeWhile fun c => !decide (c = 10))
          if value = [] then none else some [command, key, value]
      else some (command :: words input)

/-- The numbers of a line, each with its field. -/
def lineNumbers (line : Str) : List (NumericField × Str) :=
  match requestArgs line with
  | none | some [] => []
  | some (_ :: args) => numberTokens (parseRequest line).type args

theorem parseRequest_of_args {line : Str} {args : List Str} (h : requestArgs line = some args) :
    ∃ protocol, parseRequest line = parseArgs args protocol := by
  unfold requestArgs at h
  unfold parseRequest
  by_cases hstar : line.head? = some 42
  · rw [if_pos hstar] at h
    rw [if_pos hstar, parseRespRequest, h]
    exact ⟨.resp, rfl⟩
  · rw [if_neg hstar] at h
    rw [if_neg hstar]
    cases hword : readWord (trim line) with
    | none =>
      rw [hword] at h
      cases h
    | some p =>
      rw [hword] at h
      simp only at h ⊢
      split at h
      · next hput =>
        rw [if_pos hput, parsePutLine]
        cases hkey : readWord p.2 with
        | none =>
          rw [hkey] at h
          cases h
        | some q =>
          rw [hkey] at h
          simp only [Option.ite_none_left_eq_some, Option.some.injEq] at h ⊢
          obtain ⟨hvalue, rfl⟩ := h
          rw [if_neg hvalue]
          exact ⟨.text, rfl⟩
      · next hput =>
        rw [if_neg hput]
        obtain rfl := Option.some.inj h
        exact ⟨.text, rfl⟩

/-! ## What a field holds -/

theorem parseNonneg_eq_some {text : Str} {n : Int} :
    parseNonneg text = some n ↔ parseLong text = some n ∧ 0 ≤ n := by
  simp [parseNonneg, Option.filter_eq_some_iff]

theorem parseLong_eq_some {text : Str} {n : Int} :
    parseLong text = some n ↔ readInt text = some (n, []) ∧ -2 ^ 63 ≤ n ∧ n < 2 ^ 63 := by
  unfold parseLong
  split
  · next m hread =>
    rw [hread]
    simp only [Option.ite_none_right_eq_some, Option.some.injEq, Prod.mk.injEq, and_true]
    constructor
    · rintro ⟨hrange, rfl⟩
      exact ⟨rfl, hrange⟩
    · rintro ⟨rfl, hrange⟩
      exact ⟨hrange, rfl⟩
  · next hread =>
    constructor
    · intro h
      cases h
    · rintro ⟨h, -⟩
      exact absurd h (hread n)

/-- The field holds the token's number, reduced to 32 bits. Only the deadline
of an entry in a log may be zero. -/
def Request.Reads (r : Request) (t : NumericField × Str) : Prop :=
  ∃ n, parseLong t.2 = some n ∧ 0 ≤ n ∧ r.number t.1 = toInt32 n ∧
    (r.type ≠ .raftAppendEntries → t.1 = .ttlSeconds → 0 < n)

theorem Request.reads_field {r : Request} {f : NumericField} {text : Str} {n : Int}
    (h : parseNonneg text = some n) (hfield : r.number f = toInt32 n)
    (hf : r.type = .raftAppendEntries ∨ f ≠ .ttlSeconds) : r.Reads (f, text) := by
  obtain ⟨hlong, hn⟩ := parseNonneg_eq_some.mp h
  refine ⟨n, hlong, hn, hfield, fun htype heq => ?_⟩
  rcases hf with hf | hf
  · exact absurd hf htype
  · exact absurd heq hf

section Commands

variable {args : List Str} {protocol : ProtocolType} {type : CommandType}

/-- All numbers of the arguments are where they belong. -/
def ReadsAll (args : List Str) (r : Request) : Prop := ∀ t ∈ numberTokens r.type args, r.Reads t

theorem readsAll_error (args : List Str) (e : Str) : ReadsAll args (errorRequest e protocol) := by
  intro t ht
  cases ht

theorem parsePut_readsAll (h : type ∈ [CommandType.put, .replicaPut, .raftPut]) :
    ReadsAll args (parsePut type args protocol) := by
  unfold parsePut
  split
  · split
    · exact readsAll_error _ _
    · simp only [List.mem_cons, List.not_mem_nil, or_false] at h
      rcases h with rfl | rfl | rfl
      all_goals
        intro t ht
        cases ht
  · next key value ex seconds =>
    split
    · exact readsAll_error _ _
    · split
      · next ttl hparse =>
        split
        · exact readsAll_error _ _
        · next hpos =>
          intro t ht
          have htoken : t = (.ttlSeconds, seconds) := by
            simp only [List.mem_cons, List.not_mem_nil, or_false] at h
            rcases h with rfl | rfl | rfl
            all_goals simpa [numberTokens] using ht
          rw [htoken]
          exact ⟨ttl, hparse, by omega, rfl, fun _ _ => by omega⟩
      · exact readsAll_error _ _
  · exact readsAll_error _ _

theorem parseExpire_readsAll (h : type ∈ [CommandType.expire, .replicaExpire, .raftExpire]) :
    ReadsAll args (parseExpire type args protocol) := by
  rcases parseExpire_cases type args protocol with
    ⟨e, he⟩ | ⟨key, seconds, ttl, rfl, -, hparse, hpos, he⟩
  · rw [he]
    exact readsAll_error _ _
  · rw [he]
    intro t ht
    have htoken : t = (.ttlSeconds, seconds) := by
      simp only [List.mem_cons, List.not_mem_nil, or_false] at h
      rcases h with rfl | rfl | rfl
      all_goals simpa [numberTokens] using ht
    rw [htoken]
    exact ⟨ttl, hparse, by omega, rfl, fun _ _ => hpos⟩

theorem parseRequestVote_readsAll : ReadsAll args (parseRequestVote args protocol) := by
  unfold parseRequestVote
  split
  · split
    · exact readsAll_error _ _
    · next hterm =>
      intro t ht
      simp only [numberTokens, List.mem_cons, List.not_mem_nil, or_false] at ht
      rw [ht]
      exact Request.reads_field hterm rfl (Or.inr (by decide))
  · split
    · exact readsAll_error _ _
    · next hterm =>
      split
      · next hindex hlogTerm =>
        intro t ht
        simp only [numberTokens, List.mem_cons, List.not_mem_nil, or_false] at ht
        rcases ht with rfl | rfl | rfl
        · exact Request.reads_field hterm rfl (Or.inr (by decide))
        · exact Request.reads_field hindex rfl (Or.inr (by decide))
        · exact Request.reads_field hlogTerm rfl (Or.inr (by decide))
      · exact readsAll_error _ _
  · exact readsAll_error _ _

theorem parseAppendEntries_readsAll : ReadsAll args (parseAppendEntries args protocol) := by
  unfold parseAppendEntries
  split
  · split
    · exact readsAll_error _ _
    · next hterm =>
      intro t ht
      simp only [numberTokens, List.mem_cons, List.not_mem_nil, or_false] at ht
      rw [ht]
      exact Request.reads_field hterm rfl (Or.inl rfl)
  · split
    · exact readsAll_error _ _
    · next hterm =>
      split
      · next hindex hprev hcommit hcount =>
        split
        · exact readsAll_error _ _
        · intro t ht
          simp only [numberTokens, List.mem_cons, List.not_mem_nil, or_false] at ht
          rcases ht with rfl | rfl | rfl | rfl | rfl
          · exact Request.reads_field hterm rfl (Or.inl rfl)
          · exact Request.reads_field hindex rfl (Or.inl rfl)
          · exact Request.reads_field hprev rfl (Or.inl rfl)
          · exact Request.reads_field hcommit rfl (Or.inl rfl)
          · exact Request.reads_field hcount rfl (Or.inl rfl)
      · exact readsAll_error _ _
  · split
    · exact readsAll_error _ _
    · next hterm =>
      split
      · next hindex hprev hcommit hentry hentryTerm httl =>
        split
        · intro t ht
          simp only [numberTokens, List.mem_cons, List.not_mem_nil, or_false] at ht
          rcases ht with rfl | rfl | rfl | rfl | rfl | rfl | rfl
          · exact Request.reads_field hterm rfl (Or.inl rfl)
          · exact Request.reads_field hindex rfl (Or.inl rfl)
          · exact Request.reads_field hprev rfl (Or.inl rfl)
          · exact Request.reads_field hcommit rfl (Or.inl rfl)
          · exact Request.reads_field hentry rfl (Or.inl rfl)
          · exact Request.reads_field hentryTerm rfl (Or.inl rfl)
          · exact Request.reads_field httl rfl (Or.inl rfl)
        · exact readsAll_error _ _
      · exact readsAll_error _ _
  · exact readsAll_error _ _

theorem parseInstallSnapshot_readsAll : ReadsAll args (parseInstallSnapshot args protocol) := by
  unfold parseInstallSnapshot
  split
  · split
    · next hterm hindex hlogTerm =>
      split
      · exact readsAll_error _ _
      · intro t ht
        simp only [numberTokens, List.mem_cons, List.not_mem_nil, or_false] at ht
        rcases ht with rfl | rfl | rfl
        · exact Request.reads_field hterm rfl (Or.inr (by decide))
        · exact Request.reads_field hindex rfl (Or.inr (by decide))
        · exact Request.reads_field hlogTerm rfl (Or.inr (by decide))
    · exact readsAll_error _ _
  · exact readsAll_error _ _

theorem parseCommand_readsAll (command : Str) :
    ReadsAll args (parseCommand command args protocol) := by
  refine parseCommand_holds command (readsAll_error args) ?_ (fun _ h => parsePut_readsAll h) ?_
    (fun _ h => parseExpire_readsAll h) parseRequestVote_readsAll parseAppendEntries_readsAll
    parseInstallSnapshot_readsAll
  · intro type htype usage
    unfold parseBare
    split
    · simp only [List.mem_cons, List.not_mem_nil, or_false] at htype
      rcases htype with rfl | rfl | rfl
      all_goals
        intro t ht
        cases ht
    · exact readsAll_error _ _
  · intro type htype usage
    rcases parseKey_cases type usage args protocol with ⟨e, he⟩ | ⟨key, -, -, he⟩
    · rw [he]
      exact readsAll_error _ _
    · rw [he]
      simp only [List.mem_cons, List.not_mem_nil, or_false] at htype
      rcases htype with rfl | rfl | rfl | rfl | rfl | rfl | rfl
      all_goals
        intro t ht
        cases ht

end Commands

theorem parseRequest_reads (line : Str) : ∀ t ∈ lineNumbers line, (parseRequest line).Reads t := by
  intro t ht
  unfold lineNumbers at ht
  split at ht
  · cases ht
  · cases ht
  · next command args hargs =>
    obtain ⟨protocol, hparse⟩ := parseRequest_of_args hargs
    rw [hparse] at ht ⊢
    exact parseCommand_readsAll (upper command) t ht

/-! ## Kept exactly -/

theorem toInt32_eq_self_iff {n : Int} (h : 0 ≤ n) : toInt32 n = n ↔ n < 2 ^ 31 := by
  constructor
  · intro heq
    have hlt : toInt32 n < 2 ^ 31 := by
      have := Int.bmod_lt (x := n) (m := 2 ^ 32) (by decide)
      rw [toInt32]
      omega
    omega
  · exact fun hlt => toInt32_of_lt (by omega) hlt

/-- An accepted line sets each numeric field to the number its token denotes,
and the seconds of a deadline to a positive one. -/
def KeepsNumbers (line : Str) : Prop :=
  (parseRequest line).error = [] → ∀ t ∈ lineNumbers line,
    ∃ n, readInt t.2 = some (n, []) ∧ (parseRequest line).number t.1 = n ∧
      ((parseRequest line).type ≠ .raftAppendEntries → t.1 = .ttlSeconds → 0 < n)

/-- Exactly the numbers that fit an `int` are kept. -/
theorem keepsNumbers_iff (line : Str) :
    KeepsNumbers line ↔ ((parseRequest line).error = [] → ∀ t ∈ lineNumbers line,
      ∃ n, readInt t.2 = some (n, []) ∧ n < 2 ^ 31) := by
  refine imp_congr_right fun _ => forall₂_congr fun t ht => ?_
  obtain ⟨n, hlong, hn, hfield, hpos⟩ := parseRequest_reads line t ht
  have hread := (parseLong_eq_some.mp hlong).1
  have hunique : ∀ m, readInt t.2 = some (m, []) → m = n := by
    intro m hm
    rw [hread] at hm
    exact (congrArg Prod.fst (Option.some.inj hm)).symm
  constructor
  · rintro ⟨m, hm, hkept, -⟩
    obtain rfl := hunique m hm
    exact ⟨m, hm, (toInt32_eq_self_iff hn).mp (hfield.symm.trans hkept)⟩
  · rintro ⟨m, hm, hlt⟩
    obtain rfl := hunique m hm
    exact ⟨m, hm, hfield.trans ((toInt32_eq_self_iff hn).mpr hlt), hpos⟩

/-- A key that was to expire in `2 ^ 32` seconds never does. -/
theorem ttl_narrowed_to_zero : ¬ ∀ line, KeepsNumbers line := by
  intro h
  have haccepted : (parseRequest (str "SET k v EX 4294967296")).error = [] := by decide +kernel
  have hmem : (NumericField.ttlSeconds, str "4294967296") ∈
      lineNumbers (str "SET k v EX 4294967296") := by decide +kernel
  obtain ⟨n, -, hkept, hpos⟩ := h _ haccepted _ hmem
  have hzero : (parseRequest (str "SET k v EX 4294967296")).number .ttlSeconds = 0 := by
    decide +kernel
  have hn := hpos (by decide +kernel) rfl
  have hnzero : 0 = n := hzero.symm.trans hkept
  omega

end TinyKV
