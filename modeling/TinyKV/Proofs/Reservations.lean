import TinyKV.Model.LineReply
import TinyKV.Proofs.Protocol

/-!
# What the parser reserves room for

`parse_resp_request` believes the first line of a frame and reserves room for
as many arguments as it announces, before it has seen one of them. Of a frame
that is an array this is harmless, since each of its strings takes some bytes
of the frame. But the framer also hands on what it finds malformed behind the
first line, and the end of a stream hands on whatever is left, so that the
announced number alone decides.

Nothing catches between the parser and the loop of a worker thread: an
exception ends the process.
-/

namespace TinyKV

theorem respArgs_count {n : Nat} {rest : Str} {p : List Str × Str}
    (h : respArgs n rest = some p) : n ≤ rest.length := by
  induction n generalizing rest p with
  | zero => exact Nat.zero_le _
  | succ n ih =>
    rw [respArgs] at h
    split at h
    · next digits body hline =>
      split at h
      · next bulkLen _ =>
        split at h
        · cases h
        · obtain ⟨q, hq, -⟩ := Option.map_eq_some_iff.mp h
          have hn := ih hq
          have hrest := readCrlfLine_length hline
          rw [List.length_drop] at hn
          omega
      · cases h
    · cases h

/-- The first line of the frame announces no more arguments than the frame
has bytes. -/
def Modest (frame : Str) : Prop :=
  ∀ digits rest count, readCrlfLine frame = some (42 :: digits, rest) →
    parseLong digits = some count → count ≤ frame.length

variable {frame : Str} {room : Nat}

theorem reservedArgs_eq_some {n : Nat} (h : reservedArgs frame = some n) :
    ∃ digits rest count, readCrlfLine frame = some (42 :: digits, rest) ∧
      parseLong digits = some count ∧ count.toNat = n := by
  rw [reservedArgs] at h
  split at h
  · split at h
    · next digits rest hline =>
      split at h
      · next count hcount =>
        obtain ⟨-, hn⟩ := Option.ite_none_left_eq_some.mp h
        exact ⟨digits, rest, count, hline, hcount, Option.some.inj hn⟩
      · cases h
    · cases h
  · cases h

/-- The announced number is the one that is reserved. -/
theorem reservedArgs_of_line {digits rest : Str} {count : Int}
    (hline : readCrlfLine frame = some (42 :: digits, rest))
    (hcount : parseLong digits = some count) (hpos : 0 < count) :
    reservedArgs frame = some count.toNat := by
  have hstar : frame.head? = some 42 := by
    rw [readCrlfLine_eq hline]
    rfl
  rw [reservedArgs, if_pos hstar, hline]
  simp only [hcount]
  rw [if_neg (by omega)]

/-- The first line of the frame announces no more arguments than a vector may
hold and there is room for. -/
def Affords (room : Nat) (frame : Str) : Prop :=
  ∀ digits rest count, readCrlfLine frame = some (42 :: digits, rest) →
    parseLong digits = some count → count ≤ room ∧ count ≤ vectorMaxSize

theorem affords_iff :
    Affords room frame ↔ ∀ n ∈ reservedArgs frame, n ≤ room ∧ n ≤ vectorMaxSize := by
  constructor
  · intro h n hn
    obtain ⟨digits, rest, count, hline, hcount, rfl⟩ := reservedArgs_eq_some hn
    have hle := h digits rest count hline hcount
    omega
  · intro h digits rest count hline hcount
    by_cases hneg : count ≤ 0
    · omega
    · have hle := h _ (reservedArgs_of_line hline hcount (by omega))
      omega

instance (room : Nat) (frame : Str) : Decidable (Affords room frame) :=
  decidable_of_iff _ affords_iff.symm

/-- The parser returns exactly from such a frame. -/
theorem parseRequestIn_eq_ok_iff {r : Request} :
    parseRequestIn room frame = .ok r ↔ Affords room frame ∧ parseRequest frame = r := by
  rw [affords_iff, parseRequestIn]
  cases reservedArgs frame with
  | none => simp
  | some n =>
    simp only [reserve, Option.mem_some_iff, forall_eq']
    by_cases hmax : vectorMaxSize < n
    · simp [hmax, not_le.2 hmax]
    · by_cases hroom : room < n
      · simp [hmax, hroom, not_le.2 hroom]
      · simp [hmax, hroom, not_lt.1 hmax, not_lt.1 hroom]

theorem parseRequestIn_of_affords (h : Affords room frame) :
    parseRequestIn room frame = .ok (parseRequest frame) :=
  parseRequestIn_eq_ok_iff.2 ⟨h, rfl⟩

theorem affords_of_modest (h : Modest frame) (hmax : room ≤ vectorMaxSize)
    (hroom : frame.length ≤ room) : Affords room frame := by
  intro digits rest count hline hcount
  have hle := h digits rest count hline hcount
  omega

/-- An array announces no more arguments than it has. -/
theorem modest_of_parseRespArgs {args : List Str} (h : parseRespArgs frame = some args) :
    Modest frame := by
  intro digits rest count hline hcount
  have hlength := readCrlfLine_length hline
  rw [parseRespArgs, hline] at h
  simp only [hcount] at h
  split at h
  · cases h
  · split at h
    · next hargs =>
      have hn := respArgs_count hargs
      omega
    · cases h

/-- Parsing the frame reserves no more than its size and, where a vector of
as many strings as the frame has bytes can be had, returns a request. -/
def Survives (frame : Str) : Prop :=
  (∀ n, reservedArgs frame = some n → n ≤ frame.length) ∧
    ∀ room ≤ vectorMaxSize, frame.length ≤ room →
      parseRequestIn room frame = .ok (parseRequest frame)

theorem survives_of_modest (h : Modest frame) : Survives frame := by
  have hreserved : ∀ n, reservedArgs frame = some n → n ≤ frame.length := by
    intro n hn
    obtain ⟨digits, rest, count, hline, hcount, rfl⟩ := reservedArgs_eq_some hn
    have hle := h digits rest count hline hcount
    omega
  exact ⟨hreserved, fun room hmax hroom =>
    parseRequestIn_of_affords (affords_of_modest h hmax hroom)⟩

theorem modest_of_survives (h : Survives frame) : Modest frame := by
  intro digits rest count hline hcount
  by_cases hneg : count ≤ 0
  · omega
  · have hpos : 0 < count := by omega
    have hle := h.1 _ (reservedArgs_of_line hline hcount hpos)
    omega

/-- The framer finds only such frames complete. -/
theorem survives_of_respFrameSize {buffer : Str} {size : Nat}
    (h : respFrameSize buffer = some (size, false)) : Survives (buffer.take size) := by
  obtain ⟨args, hargs⟩ := parseRespArgs_of_respFrameSize h
  exact survives_of_modest (modest_of_parseRespArgs hargs)

/-- The parser survives exactly the frames that announce no more arguments
than they have bytes. -/
theorem survives_iff (frame : Str) : Survives frame ↔ Modest frame :=
  ⟨modest_of_survives, survives_of_modest⟩

/-! ## Lines -/

theorem map_parseRequestIn_eq_ok_iff {α : Type} {f : Request → α} {a : α} {line : Str} :
    (parseRequestIn room line).map f = .ok a ↔
      Affords room line ∧ f (parseRequest line) = a := by
  cases hparse : parseRequestIn room line with
  | error e =>
    refine iff_of_false (fun h => by cases h) fun h => ?_
    rw [parseRequestIn_of_affords h.1] at hparse
    cases hparse
  | ok r =>
    obtain ⟨hroom, rfl⟩ := parseRequestIn_eq_ok_iff.1 hparse
    simp only [Except.map, Except.ok.injEq, hroom, true_and]

section Line

variable {now : Int} {s t : KVServer} {env : LineEnv} {m : Metrics} {forwarded : Option Str}
  {line reply : Str}

/-- A line is answered and carried out exactly if the parser returns. -/
theorem lineReply_eq_ok_iff : s.lineReply room now env m forwarded line = .ok reply ↔
    Affords room line ∧ s.requestReply now env m forwarded (parseRequest line) = reply :=
  map_parseRequestIn_eq_ok_iff

theorem processRequestLine_eq_ok_iff : s.processRequestLine room now env line = .ok t ↔
    Affords room line ∧ s.processRequest now env (parseRequest line) = t :=
  map_parseRequestIn_eq_ok_iff

end Line

/-- A connection that sends one line and is closed. -/
def hostileLine : Str := str "*9223372036854775807" ++ crlf

theorem hostileLine_throws : hostileLine ∈ handedOn [hostileLine] ∧ ¬ Survives hostileLine ∧
    ∀ room, parseRequestIn room hostileLine = .error .lengthError := by
  have hcount : reservedArgs hostileLine = some 9223372036854775807 := by decide +kernel
  refine ⟨by decide +kernel, fun h => ?_, fun room => ?_⟩
  · have hle := h.1 _ hcount
    revert hle
    decide +kernel
  · rw [parseRequestIn, hcount]
    rfl

end TinyKV
