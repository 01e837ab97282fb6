import TinyKV.Model.Log
import TinyKV.Proofs.Config

/-!
# Where the logger divides and what it writes to

The buffer keeps the size it was given, so whether a call stays inside it is a
matter of three numbers: the header, the message and the two bytes behind them
must not be longer than `buffer_size`. The room `vsnprintf` is told about does
not help, because the line feed goes behind the message it was asked for and
not behind the one it wrote. The remainder is taken on every call that finds
the day unchanged, by what `split_lines` is.

Nothing in a configuration keeps a message short, so an open log is in range for
all sequences of calls only if it never uses the buffer (`writeAll_always_iff`);
for one sequence `writeAll_ok_iff` says when it is.
-/

namespace TinyKV

open Text

theorem toSizeT_eq_zero_iff {n : Int} (h : InRange32 n) : toSizeT n = 0 ↔ n = 0 := by
  unfold InRange32 at h
  unfold toSizeT
  omega

namespace Log

/-! ## The buffer -/

variable {buf bytes : List UInt8} {start : Nat} {log : Log} {call : LogCall}

theorem putBytes_length {buf' : List UInt8} (h : putBytes buf start bytes = .ok buf') :
    buf'.length = buf.length := by
  unfold putBytes at h
  split at h
  · next hroom =>
    cases h
    simp only [List.length_append, List.length_take, List.length_drop]
    rcases hroom with rfl | hroom
    · simp only [List.length_nil]
      omega
    · omega
  · cases h

theorem putBytes_room {buf' : List UInt8} (h : putBytes buf start bytes = .ok buf')
    (hne : bytes ≠ []) : start + bytes.length ≤ buf.length := by
  unfold putBytes at h
  split at h
  · next hroom => exact hroom.resolve_left hne
  · cases h

/-- Bytes take the place of as many. -/
theorem putBytes_append {front old : List UInt8} (hstart : front.length = start)
    (hold : old.length = bytes.length) (back : List UInt8) :
    putBytes (front ++ (old ++ back)) start bytes = .ok (front ++ (bytes ++ back)) := by
  subst hstart
  have hdrop : (front ++ (old ++ back)).drop (front.length + bytes.length) = back := by
    rw [← List.append_assoc, List.drop_left' (by rw [List.length_append, hold])]
  have hroom : front.length + bytes.length ≤ (front ++ (old ++ back)).length := by
    simp only [List.length_append]
    omega
  rw [putBytes, if_pos (.inr hroom), List.take_left, hdrop]

theorem vsnprintf_of_lt {size : Nat} {text : Str} (h : text.length < size) :
    vsnprintf size text = text ++ [0] := by
  rw [vsnprintf, if_neg (by omega), List.take_of_length_le (by omega)]

theorem exists_append_of_le {k : Nat} (h : k ≤ buf.length) :
    ∃ front back, buf = front ++ back ∧ front.length = k :=
  ⟨buf.take k, buf.drop k, (List.take_append_drop k buf).symm, List.length_take_of_le h⟩

/-- A line that fits is in the buffer as a whole. -/
theorem formatLine_ok (hsize : (log.buf.length : Int) = log.logBufSize)
    (hrange : InRange32 log.logBufSize)
    (hfits : call.header.length + call.text.length + 2 ≤ log.buf.length) :
    ∃ rest, log.formatLine call =
      .ok (call.header ++ (call.text ++ ([10] ++ ([0] ++ rest)))) := by
  -- the parts of the buffer the line is written over
  obtain ⟨front, back, hbuf, hfront⟩ := exists_append_of_le
    (show call.header.length ≤ log.buf.length by omega)
  obtain ⟨mid, back, rfl, hmid⟩ := exists_append_of_le
    (show call.text.length ≤ back.length by
      rw [hbuf, List.length_append] at hfits
      omega)
  obtain ⟨last, rest, rfl, hlast⟩ := exists_append_of_le
    (show 2 ≤ back.length by
      rw [hbuf, List.length_append, List.length_append] at hfits
      omega)
  obtain ⟨x, y, rfl⟩ := List.length_eq_two.mp hlast
  have hroom : vsnprintf (toSizeT (log.logBufSize - call.header.length - 1)) call.text =
      call.text ++ [0] := by
    refine vsnprintf_of_lt ?_
    unfold InRange32 at hrange
    unfold toSizeT
    omega
  have hheader : putBytes ([] ++ (front ++ (mid ++ ([x, y] ++ rest)))) 0 call.header =
      .ok ([] ++ (call.header ++ (mid ++ ([x, y] ++ rest)))) := putBytes_append rfl hfront _
  have htext : putBytes (call.header ++ ((mid ++ [x]) ++ ([y] ++ rest))) call.header.length
      (call.text ++ [0]) = .ok (call.header ++ ((call.text ++ [0]) ++ ([y] ++ rest))) :=
    putBytes_append rfl (by simp [hmid]) _
  have hline : putBytes ((call.header ++ call.text) ++ ([0] ++ ([y] ++ rest)))
      (call.header.length + call.text.length) [10] =
        .ok ((call.header ++ call.text) ++ ([10] ++ ([y] ++ rest))) :=
    putBytes_append List.length_append (by simp) _
  have hend : putBytes ((call.header ++ (call.text ++ [10])) ++ ([y] ++ rest))
      (call.header.length + call.text.length + 1) [0] =
        .ok ((call.header ++ (call.text ++ [10])) ++ ([0] ++ rest)) :=
    putBytes_append (by simp [Nat.add_assoc]) (by simp) _
  simp only [List.append_assoc, List.cons_append, List.nil_append] at hheader htext hline hend ⊢
  refine ⟨rest, ?_⟩
  simp only [formatLine, hbuf, hroom, hheader, htext, hline, hend, bind, Except.bind,
    List.cons_append, List.nil_append]

theorem bind_ok {α β : Type} {x : Except LogFault α} {f : α → Except LogFault β} {b : β}
    (h : x >>= f = .ok b) : ∃ a, x = .ok a ∧ f a = .ok b := by
  cases x with
  | error e => cases h
  | ok a => exact ⟨a, rfl, h⟩

theorem formatLine_room (h : log.formatLine call = .ok buf) :
    call.header.length + call.text.length + 2 ≤ log.buf.length ∧ buf.length = log.buf.length := by
  obtain ⟨buf₁, h₁, h⟩ := bind_ok h
  obtain ⟨buf₂, h₂, h⟩ := bind_ok h
  obtain ⟨buf₃, h₃, h⟩ := bind_ok h
  have hlength : buf₃.length = log.buf.length := by
    rw [putBytes_length h₃, putBytes_length h₂, putBytes_length h₁]
  have hroom := putBytes_room h (by simp)
  rw [List.length_singleton, hlength] at hroom
  exact ⟨by omega, (putBytes_length h).trans hlength⟩

/-! ## One call -/

/-- Whether a call gets as far as the buffer. -/
def buffers (log : Log) : Bool :=
  decide (log.closeLog = 0) && (log.initialized && (log.fp.isSome && !log.buf.isEmpty))

/-- A log with these settings, and a buffer of the size it was given. -/
structure Sized (splitLines logBufSize : Int) (log : Log) : Prop where
  splitLines_eq : log.splitLines = splitLines
  logBufSize_eq : log.logBufSize = logBufSize
  buf_length : (log.buf.length : Int) = logBufSize

/-- No remainder by zero and no index outside the buffer, on a day. -/
def InBounds (splitLines logBufSize today : Int) (call : LogCall) : Prop :=
  (today ≠ call.time.mday ∨ splitLines ≠ 0) ∧
    (call.header.length + call.text.length + 2 : Int) ≤ logBufSize

theorem writeLog_unbuffered (h : log.buffers = false) (call : LogCall) :
    ∃ output, log.writeLog call = .ok (log, output) := by
  unfold writeLog
  split
  · exact ⟨_, rfl⟩
  · next hopen =>
    have hopen : log.closeLog = 0 := not_not.mp hopen
    have hskip : (!log.initialized || log.fp.isNone || log.buf.isEmpty) = true := by
      rw [buffers, hopen] at h
      cases hi : log.initialized <;> cases hf : log.fp <;> simp_all
    rw [if_pos hskip]
    exact ⟨_, rfl⟩

theorem writeLog_buffered (h : log.buffers = true) (call : LogCall) :
    log.writeLog call = log.writeLine call := by
  simp only [buffers, Bool.and_eq_true, decide_eq_true_iff, Bool.not_eq_true'] at h
  obtain ⟨hclose, hinit, hfp, hbuf⟩ := h
  have hskip : ¬(!log.initialized || log.fp.isNone || log.buf.isEmpty) = true := by
    cases hf : log.fp <;> simp_all
  rw [writeLog, if_neg (not_not.mpr hclose), if_neg hskip]

/-- What `roll` leaves: everything but the count, the day and the file. -/
theorem roll_spec {log' : Log} (h : log.roll call = .ok log') :
    (log.today ≠ call.time.mday ∨ toSizeT log.splitLines ≠ 0) ∧
      ∃ count fp, log' = { log with count := count, today := call.time.mday, fp := fp } := by
  unfold roll at h
  dsimp only at h
  split at h
  · next hday =>
    cases h
    exact ⟨.inl hday, _, _, rfl⟩
  · next hday =>
    have hday : log.today = call.time.mday := not_not.mp hday
    split at h
    · cases h
    · next hsplit =>
      refine ⟨.inr hsplit, ?_⟩
      rw [← hday]
      split at h <;> cases h <;> exact ⟨_, _, rfl⟩

theorem roll_ok (h : log.today ≠ call.time.mday ∨ toSizeT log.splitLines ≠ 0) :
    ∃ log', log.roll call = .ok log' := by
  unfold roll
  dsimp only
  split
  · exact ⟨_, rfl⟩
  · next hday =>
    rw [if_neg (h.resolve_left hday)]
    split <;> exact ⟨_, rfl⟩

section Call

variable {splitLines logBufSize : Int}

/-- A call that returns leaves the settings and the size of the buffer, and if the
log can still be used, the day of the call. -/
theorem Sized.writeLog {call : LogCall} {result : Log × LogOutput}
    (hsized : log.Sized splitLines logBufSize) (h : log.writeLog call = .ok result) :
    result.1.Sized splitLines logBufSize ∧
      (result.1.buffers = true → log.buffers = true ∧ result.1.today = call.time.mday) := by
  cases hbuffers : log.buffers with
  | false =>
    obtain ⟨output, hok⟩ := writeLog_unbuffered hbuffers call
    rw [hok] at h
    cases h
    refine ⟨hsized, fun hb => ?_⟩
    rw [hbuffers] at hb
    cases hb
  | true =>
    rw [writeLog_buffered hbuffers] at h
    obtain ⟨rolled, hroll, h⟩ := bind_ok h
    obtain ⟨buf, hbuf, h⟩ := bind_ok h
    obtain ⟨-, count, fp, rfl⟩ := roll_spec hroll
    have hlength : (buf.length : Int) = logBufSize := by
      rw [(formatLine_room hbuf).2]
      exact hsized.buf_length
    dsimp only at h
    split at h <;> cases h <;>
      exact ⟨⟨hsized.splitLines_eq, hsized.logBufSize_eq, hlength⟩, fun _ => ⟨rfl, rfl⟩⟩

/-- In bounds, the line is put together as a whole. -/
theorem Sized.formatLine_roll (hsized : log.Sized splitLines logBufSize)
    (hsplit : InRange32 splitLines) (hsize : InRange32 logBufSize) {call : LogCall}
    (h : InBounds splitLines logBufSize log.today call) :
    ∃ rolled rest, log.roll call = .ok rolled ∧ rolled.formatLine call =
      .ok (call.header ++ (call.text ++ ([10] ++ ([0] ++ rest)))) := by
  have hdivides : log.today ≠ call.time.mday ∨ toSizeT log.splitLines ≠ 0 := by
    rw [hsized.splitLines_eq, ne_eq (toSizeT _), toSizeT_eq_zero_iff hsplit]
    exact h.1
  have hroom : call.header.length + call.text.length + 2 ≤ log.buf.length := by
    have hlength := hsized.buf_length
    have hfits := h.2
    omega
  obtain ⟨rolled, hroll⟩ := roll_ok hdivides
  obtain ⟨-, count, fp, rfl⟩ := roll_spec hroll
  obtain ⟨rest, hline⟩ : ∃ rest, formatLine _ call = _ := formatLine_ok
    (show (({ log with count, today := call.time.mday, fp } : Log).buf.length : Int) = _ from
      hsized.buf_length.trans hsized.logBufSize_eq.symm)
    (hsized.logBufSize_eq ▸ hsize) hroom
  exact ⟨_, rest, hroll, hline⟩

theorem Sized.writeLog_ok_iff (hsized : log.Sized splitLines logBufSize)
    (hsplit : InRange32 splitLines) (hsize : InRange32 logBufSize) (call : LogCall) :
    (∃ result, log.writeLog call = .ok result) ↔
      (log.buffers = true → InBounds splitLines logBufSize log.today call) := by
  cases hbuffers : log.buffers with
  | false =>
    obtain ⟨output, hok⟩ := writeLog_unbuffered hbuffers call
    simp [hok]
  | true =>
    rw [writeLog_buffered hbuffers]
    constructor
    · rintro ⟨result, h⟩ -
      obtain ⟨rolled, hroll, h⟩ := bind_ok h
      obtain ⟨buf, hbuf, h⟩ := bind_ok h
      obtain ⟨hdivides, count, fp, rfl⟩ := roll_spec hroll
      rw [hsized.splitLines_eq, ne_eq (toSizeT _), toSizeT_eq_zero_iff hsplit] at hdivides
      refine ⟨hdivides, ?_⟩
      have hroom := (formatLine_room hbuf).1
      have hlength := hsized.buf_length
      dsimp only at hroom
      omega
    · intro h
      obtain ⟨rolled, rest, hroll, hline⟩ := hsized.formatLine_roll hsplit hsize (h rfl)
      simp only [writeLine, hroll, bind, Except.bind, hline]
      split <;> exact ⟨_, rfl⟩

end Call

/-! ## A sequence of calls -/

theorem writeAll_cons_ok {calls : List LogCall} {result : Log × List LogOutput}
    (h : log.writeAll (call :: calls) = .ok result) :
    ∃ first rest, log.writeLog call = .ok first ∧ first.1.writeAll calls = .ok rest ∧
      result = (rest.1, first.2 :: rest.2) := by
  obtain ⟨first, hfirst, h⟩ := bind_ok h
  obtain ⟨rest, hrest, h⟩ := bind_ok h
  cases h
  exact ⟨first, rest, hfirst, hrest, rfl⟩

theorem writeAll_cons {calls : List LogCall} {first : Log × LogOutput} {rest : Log × List LogOutput}
    (hfirst : log.writeLog call = .ok first) (hrest : first.1.writeAll calls = .ok rest) :
    log.writeAll (call :: calls) = .ok (rest.1, first.2 :: rest.2) := by
  simp only [writeAll, hfirst, hrest, bind, Except.bind]

/-- The day of the last call, or the one the log was started on. -/
def lastDay (day : Int) (calls : List LogCall) : Int :=
  (calls.map (·.time.mday)).getLastD day

theorem lastDay_cons (day : Int) (call : LogCall) (calls : List LogCall) :
    lastDay day (call :: calls) = lastDay call.time.mday calls := by
  rw [lastDay, List.map_cons, List.getLastD_cons, lastDay]

section Run

variable {splitLines logBufSize : Int} (hsplit : InRange32 splitLines)
  (hsize : InRange32 logBufSize)

include hsplit hsize

/-- The whole sequence returns if and only if each call that gets as far as the
buffer is in bounds. -/
theorem Sized.writeAll_returns_iff {log : Log} (hsized : log.Sized splitLines logBufSize)
    {day : Int} (hday : log.buffers = true → log.today = day) (calls : List LogCall) :
    (∃ result, log.writeAll calls = .ok result) ↔
      ∀ front call back result, calls = front ++ call :: back →
        log.writeAll front = .ok result → result.1.buffers = true →
          InBounds splitLines logBufSize (lastDay day front) call := by
  induction calls generalizing log day with
  | nil =>
    refine ⟨fun _ front call back result h => ?_, fun _ => ⟨_, rfl⟩⟩
    simp at h
  | cons call calls ih =>
    have hcall := hsized.writeLog_ok_iff hsplit hsize call
    constructor
    · rintro ⟨result, h⟩ front next back before heq hfront hbuffers
      obtain ⟨first, rest, hfirst, hrest, -⟩ := writeAll_cons_ok h
      cases front with
      | nil =>
        cases heq
        cases hfront
        have hbounds := hcall.1 ⟨_, hfirst⟩ hbuffers
        rwa [hday hbuffers] at hbounds
      | cons c front =>
        obtain ⟨rfl, rfl⟩ := List.cons.inj heq
        obtain ⟨first', rest', hfirst', hrest', rfl⟩ := writeAll_cons_ok hfront
        cases hfirst.symm.trans hfirst'
        obtain ⟨hsized', hday'⟩ := hsized.writeLog hfirst
        rw [lastDay_cons]
        exact (ih hsized' fun hb => (hday' hb).2).1 ⟨_, hrest⟩ front next back rest' rfl hrest'
          hbuffers
    · intro h
      obtain ⟨first, hfirst⟩ := hcall.2 fun hb => by
        have hbounds := h [] call calls (log, []) rfl rfl hb
        rwa [hday hb]
      obtain ⟨hsized', hday'⟩ := hsized.writeLog hfirst
      obtain ⟨rest, hrest⟩ := (ih hsized' fun hb => (hday' hb).2).2 (by
        intro front next back before heq hfront hbuffers
        have hbounds := h (call :: front) next back _ (by rw [heq, List.cons_append])
          (writeAll_cons hfirst hfront) hbuffers
        rwa [lastDay_cons] at hbounds)
      exact ⟨_, writeAll_cons hfirst hrest⟩

end Run

/-! ## From the configuration -/

theorem sized_of_initLog {config : ServerConfig.LogConfig} {path : Str → Str × Str} {time : LogTime}
    {opens : Bool} (h : initLog config path time opens = some log) :
    log.Sized config.splitLines config.bufferSize ∧ log.today = time.mday := by
  unfold initLog init at h
  dsimp only at h
  split at h
  · cases h
  · next hsize =>
    cases h
    refine ⟨⟨rfl, rfl, ?_⟩, rfl⟩
    simp only [List.length_replicate]
    omega

/-- No setting is right for every sequence of calls, unless it keeps all of them
away from the buffer. -/
theorem writeAll_always_iff {config : ServerConfig} (hints : ∀ n ∈ config.ints, InRange32 n)
    {path : Str → Str × Str} {time : LogTime} {opens : Bool}
    (hinit : initLog config.log path time opens = some log) :
    (∀ calls, ∃ result, log.writeAll calls = .ok result) ↔ log.buffers = false := by
  obtain ⟨hsized, -⟩ := sized_of_initLog hinit
  constructor
  · intro h
    rw [← Bool.not_eq_true]
    intro hbuffers
    -- a message as long as the buffer
    let call : LogCall := ⟨1, List.replicate config.log.bufferSize.toNat 65, time, true, false⟩
    obtain ⟨result, hresult⟩ := h [call]
    obtain ⟨first, -, hfirst, -, -⟩ := writeAll_cons_ok hresult
    have hbounds := (hsized.writeLog_ok_iff (hints _ (by simp [ServerConfig.ints]))
      (hints _ (by simp [ServerConfig.ints])) call).1 ⟨_, hfirst⟩ hbuffers
    have hfits := hbounds.2
    simp only [call, List.length_replicate] at hfits
    omega
  · intro hbuffers calls
    induction calls with
    | nil => exact ⟨_, rfl⟩
    | cons call calls ih =>
      obtain ⟨output, hfirst⟩ := writeLog_unbuffered hbuffers call
      obtain ⟨rest, hrest⟩ := ih
      exact ⟨_, writeAll_cons hfirst hrest⟩

/-- A sequence of calls divides by nothing but a number and stays in the buffer
if and only if each call that gets as far as the buffer finds another day than
the one before, or a `split_lines` that is not zero, and a message that fits. -/
theorem writeAll_ok_iff (config : ServerConfig) (hints : ∀ n ∈ config.ints, InRange32 n)
    (path : Str → Str × Str) (time : LogTime) (opens : Bool) (log : Log)
    (hinit : initLog config.log path time opens = some log) (calls : List LogCall) :
    (∃ result, log.writeAll calls = .ok result) ↔
      ∀ front call back result, calls = front ++ call :: back →
        log.writeAll front = .ok result → result.1.buffers = true →
          (lastDay time.mday front ≠ call.time.mday ∨ config.log.splitLines ≠ 0) ∧
            (call.header.length + call.text.length + 2 : Int) ≤ config.log.bufferSize := by
  obtain ⟨hsized, hday⟩ := sized_of_initLog hinit
  exact hsized.writeAll_returns_iff (hints _ (by simp [ServerConfig.ints]))
    (hints _ (by simp [ServerConfig.ints])) (fun _ => hday) calls

def noon : LogTime := ⟨2024, 5, 17, 12, 0, 0, 0⟩

/-- The default settings, with a short buffer and a new file every other line. -/
def shortLog : ServerConfig := { log := { bufferSize := 64, splitLines := 2 } }

def started (config : ServerConfig) : Log :=
  (initLog config.log (fun file => ([], file)) noon true).getD {}

theorem shortLog_in_bounds : ∃ result, (started shortLog).writeAll
    [⟨1, str "ready", noon, true, false⟩, ⟨3, str "port in use", noon, true, false⟩] =
      .ok result := by
  refine (writeAll_ok_iff shortLog (by decide) (fun file => ([], file)) noon true _ rfl _).2 ?_
  have hfits : ∀ call ∈ ([⟨1, str "ready", noon, true, false⟩,
      ⟨3, str "port in use", noon, true, false⟩] : List LogCall),
      (call.header.length + call.text.length + 2 : Int) ≤ 64 := by decide
  intro front call back result heq _ _
  exact ⟨.inr (by decide), hfits call (by rw [heq]; simp)⟩

/-- `split_lines: 0`, which `validate` accepts. -/
def splitZero : ServerConfig := { log := { splitLines := 0 } }

/-- The first line of the day divides by zero; and with the default settings a
message of 8192 bytes leaves the buffer. -/
theorem default_settings_fault :
    splitZero.validate = true ∧
    (started splitZero).writeAll [⟨1, str "ready", noon, true, false⟩] = .error .divisionByZero ∧
    ({} : ServerConfig).validate = true ∧
    ¬∃ result, (started {}).writeAll [⟨1, List.replicate 8192 65, noon, true, false⟩] =
      .ok result := by
  refine ⟨by decide, rfl, by decide, ?_⟩
  rintro ⟨result, h⟩
  obtain ⟨first, -, hfirst, -, -⟩ := writeAll_cons_ok h
  have hinit : initLog {} (fun file => ([], file)) noon true = some (started {}) := rfl
  have hsized : (started {}).Sized 5000000 8192 := (sized_of_initLog hinit).1
  have hbounds := (hsized.writeLog_ok_iff (by decide) (by decide) _).1 ⟨_, hfirst⟩ rfl
  have hfits := hbounds.2
  rw [List.length_replicate] at hfits
  omega

end Log

end TinyKV
