import TinyKV.Model.Framing

/-!
# Framing does not depend on how the bytes arrive

What `extract_request_frame` decides on a buffer it decides on every longer
buffer as well: it never looks past the frame it cuts, and where bytes are
missing it says so instead of deciding. So a frame cut early is the frame
that would have been cut late, and cutting after every chunk amounts to
cutting once at the end.
-/

namespace TinyKV

open Text

/-! ## Lines -/

variable {s line rest pending frame : Str} {size : Nat} {malformed : Bool}

/-- A line, its end, and the rest. -/
theorem readCrlfLine_eq (h : readCrlfLine s = some (line, rest)) :
    s = line ++ (13 :: 10 :: rest) := by
  induction s generalizing line with
  | nil => cases h
  | cons c s ih =>
    rw [readCrlfLine] at h
    split at h
    · next hc =>
      obtain ⟨rfl, hhead⟩ := hc
      cases h
      obtain ⟨b, t, rfl⟩ := List.exists_cons_of_ne_nil (l := s) (by rintro rfl; cases hhead)
      cases hhead
      rfl
    · obtain ⟨p, hp, heq⟩ := Option.map_eq_some_iff.mp h
      cases heq
      rw [ih hp]
      rfl

theorem readCrlfLine_length (h : readCrlfLine s = some (line, rest)) :
    s.length = line.length + 2 + rest.length := by
  rw [readCrlfLine_eq h]
  simp only [List.length_append, List.length_cons]
  omega

theorem readCrlfLine_append (h : readCrlfLine s = some (line, rest)) (more : Str) :
    readCrlfLine (s ++ more) = some (line, rest ++ more) := by
  induction s generalizing line with
  | nil => cases h
  | cons c s ih =>
    rw [readCrlfLine] at h
    rw [List.cons_append, readCrlfLine]
    split at h
    · next hc =>
      cases h
      obtain ⟨rfl, hhead⟩ := hc
      obtain ⟨b, t, rfl⟩ := List.exists_cons_of_ne_nil (l := s) (by rintro rfl; cases hhead)
      rw [if_pos ⟨rfl, hhead⟩]
      rfl
    · next hc =>
      obtain ⟨p, hp, heq⟩ := Option.map_eq_some_iff.mp h
      cases heq
      -- the line has not ended yet, so there is a next byte to look at
      have hne : s ≠ [] := by
        rintro rfl
        cases hp
      obtain ⟨b, t, rfl⟩ := List.exists_cons_of_ne_nil hne
      rw [if_neg (by simpa using hc), ih hp]
      rfl

/-! ## Arrays of bulk strings -/

theorem respBulks_append {n pos : Nat} {r : Nat × Bool} (h : respBulks n pos rest = some r)
    (more : Str) : respBulks n pos (rest ++ more) = some r := by
  induction n generalizing pos rest with
  | zero => exact h
  | succ n ih =>
    rw [respBulks] at h ⊢
    cases hline : readCrlfLine rest with
    | none =>
      rw [hline] at h
      cases h
    | some p =>
      obtain ⟨line, body⟩ := p
      rw [hline] at h
      rw [readCrlfLine_append hline more]
      simp only at h ⊢
      split at h
      · split at h
        · exact h
        · next bulkLen _ =>
          split at h
          · cases h
          · next hlen =>
            have hlen' : ¬ (body ++ more).length < bulkLen.toNat + 2 := by
              rw [List.length_append]
              omega
            have hdrop : ∀ k ≤ bulkLen.toNat + 2,
                (body ++ more).drop k = body.drop k ++ more := fun k hk =>
              List.drop_append_of_le_length (by omega)
            have htake : ((body ++ more).drop bulkLen.toNat).take 2 =
                (body.drop bulkLen.toNat).take 2 := by
              rw [hdrop _ (by omega), List.take_append_of_le_length]
              rw [List.length_drop]
              omega
            rw [if_neg hlen', htake]
            split at h
            · next hbad => rw [if_pos hbad]; exact h
            · next hok =>
              rw [if_neg hok, hdrop _ (le_refl _)]
              exact ih h
      · exact h

/-- A frame ends where its bulk strings start or behind, and not behind the
buffer. -/
theorem respBulks_bounds {n pos : Nat} (h : respBulks n pos rest = some (size, malformed)) :
    pos ≤ size ∧ size ≤ pos + rest.length := by
  induction n generalizing pos rest with
  | zero =>
    cases h
    omega
  | succ n ih =>
    rw [respBulks] at h
    cases hline : readCrlfLine rest with
    | none =>
      rw [hline] at h
      cases h
    | some p =>
      obtain ⟨line, body⟩ := p
      have hlength := readCrlfLine_length hline
      rw [hline] at h
      simp only at h
      split at h
      · split at h
        · cases h
          omega
        · next bulkLen _ =>
          split at h
          · cases h
          · split at h
            · cases h
              omega
            · have hrec := ih h
              rw [List.length_drop] at hrec
              omega
      · cases h
        omega

theorem respFrameSize_append {buffer : Str} {r : Nat × Bool}
    (h : respFrameSize buffer = some r) (more : Str) :
    respFrameSize (buffer ++ more) = some r := by
  rw [respFrameSize] at h ⊢
  cases hline : readCrlfLine buffer with
  | none =>
    rw [hline] at h
    cases h
  | some p =>
    rw [hline] at h
    rw [readCrlfLine_append hline more]
    simp only at h ⊢
    split at h
    · split at h
      · exact h
      · split at h
        · next hc => rw [if_pos hc]; exact h
        · next hc => rw [if_neg hc]; exact respBulks_append h more
    · exact h

/-- The first line is part of every frame, so no frame is empty. -/
theorem respFrameSize_bounds {buffer : Str} (h : respFrameSize buffer = some (size, malformed)) :
    0 < size ∧ size ≤ buffer.length := by
  rw [respFrameSize] at h
  cases hline : readCrlfLine buffer with
  | none =>
    rw [hline] at h
    cases h
  | some p =>
    have hlength := readCrlfLine_length hline
    rw [hline] at h
    simp only at h
    split at h
    · split at h
      · cases h
        omega
      · split at h
        · cases h
          omega
        · have := respBulks_bounds h
          omega
    · cases h
      omega

/-! ## One frame -/

/-- The bytes of the stream a frame was cut from: a line has lost its end. -/
def onWire (frame : Str) : Str := if frame.head? = some 42 then frame else frame ++ [10]

theorem onWire_ne_nil (frame : Str) : onWire frame ≠ [] := by
  unfold onWire
  split
  · next h =>
    rintro rfl
    cases h
  · simp

/-- A line is cut at its end. -/
theorem extract_line (h : 10 ∉ line) (hstar : line.head? ≠ some 42) (rest : Str) :
    extractRequestFrame (line ++ 10 :: rest) = some (line, rest) := by
  have hhead : (line ++ 10 :: rest).head? ≠ some 42 := by
    cases line with
    | nil => simp
    | cons c line => exact hstar
  have hpos : ∀ c ∈ line, (!decide (c = 10)) = true := by
    intro c hc
    simpa using fun heq : c = 10 => h (heq ▸ hc)
  rw [extractRequestFrame, if_neg (by simp), if_pos hhead, if_pos (by simp),
    List.takeWhile_append_of_pos hpos, List.dropWhile_append_of_pos hpos]
  simp

/-- How a frame comes to be cut: a line in front of a line end, or as many
bytes as `resp_frame_size` says. -/
theorem extract_cases (h : extractRequestFrame pending = some (frame, rest)) :
    (10 ∉ frame ∧ frame.head? ≠ some 42 ∧ pending = frame ++ 10 :: rest) ∨
      ∃ size malformed, pending.head? = some 42 ∧
        respFrameSize pending = some (size, malformed) ∧
        frame = pending.take size ∧ rest = pending.drop size := by
  have horig := h
  rw [extractRequestFrame] at h
  split at h
  · cases h
  · split at h
    · next hstar =>
      split at h
      · next hmem =>
        obtain ⟨line, tail, rfl, hline⟩ := List.eq_append_cons_of_mem hmem
        have hhead : line.head? ≠ some 42 := by
          cases line with
          | nil => simp
          | cons c line => exact hstar
        rw [extract_line hline hhead] at horig
        cases horig
        exact Or.inl ⟨hline, hhead, rfl⟩
      · cases h
    · next hstar =>
      split at h
      · cases h
      · next size malformed hsize =>
        have hpos := (respFrameSize_bounds hsize).1
        rw [if_neg (by omega)] at h
        cases h
        exact Or.inr ⟨size, malformed, not_not.mp hstar, hsize, rfl, rfl⟩

theorem extract_resp (hstar : pending.head? = some 42)
    (hsize : respFrameSize pending = some (size, malformed)) :
    extractRequestFrame pending = some (pending.take size, pending.drop size) := by
  have hpos := (respFrameSize_bounds hsize).1
  have hne : pending ≠ [] := by
    rintro rfl
    cases hstar
  rw [extractRequestFrame, if_neg hne, if_neg (not_not.mpr hstar), hsize]
  simp only
  rw [if_neg (by omega)]

/-- No byte is lost or made up. -/
theorem extract_onWire (h : extractRequestFrame pending = some (frame, rest)) :
    pending = onWire frame ++ rest := by
  rcases extract_cases h with ⟨-, hstar, rfl⟩ | ⟨size, malformed, hstar, hsize, rfl, rfl⟩
  · rw [onWire, if_neg hstar, List.append_assoc]
    rfl
  · have hpos := (respFrameSize_bounds hsize).1
    have hhead : (pending.take size).head? = some 42 := by
      rw [List.head?_take, if_neg (by omega)]
      exact hstar
    rw [onWire, if_pos hhead, List.take_append_drop]

theorem extract_consumes (h : extractRequestFrame pending = some (frame, rest)) :
    rest.length < pending.length := by
  have hpos := List.length_pos_iff.mpr (onWire_ne_nil frame)
  rw [extract_onWire h, List.length_append]
  omega

/-- A frame that can be cut is cut the same way whatever follows. -/
theorem extract_append (h : extractRequestFrame pending = some (frame, rest)) (more : Str) :
    extractRequestFrame (pending ++ more) = some (frame, rest ++ more) := by
  rcases extract_cases h with ⟨hline, hstar, rfl⟩ | ⟨size, malformed, hstar, hsize, rfl, rfl⟩
  · rw [List.append_assoc]
    exact extract_line hline hstar (rest ++ more)
  · have hle := (respFrameSize_bounds hsize).2
    have hstar' : (pending ++ more).head? = some 42 := by
      rw [List.head?_append, hstar]
      rfl
    rw [extract_resp hstar' (respFrameSize_append hsize more),
      List.take_append_of_le_length hle, List.drop_append_of_le_length hle]

/-! ## All frames -/

/-- Enough fuel is as good as any. -/
theorem drainAux_fuel {fuel fuel' : Nat} (h : pending.length ≤ fuel) (h' : pending.length ≤ fuel') :
    drainAux fuel pending = drainAux fuel' pending := by
  induction fuel generalizing fuel' pending with
  | zero =>
    have hnil : pending = [] := List.length_eq_zero_iff.mp (by omega)
    subst hnil
    cases fuel' <;> rfl
  | succ fuel ih =>
    cases fuel' with
    | zero =>
      have hnil : pending = [] := List.length_eq_zero_iff.mp (by omega)
      subst hnil
      rfl
    | succ fuel' =>
      rw [drainAux, drainAux]
      cases hcut : extractRequestFrame pending with
      | none => rfl
      | some p =>
        have hlt := extract_consumes hcut
        have hsame : drainAux fuel p.2 = drainAux fuel' p.2 := ih (by omega) (by omega)
        simp only [hsame]

theorem drain_none (h : extractRequestFrame pending = none) : drain pending = ([], pending) := by
  cases pending with
  | nil => rfl
  | cons c rest =>
    rw [drain, List.length_cons, drainAux, h]

theorem drain_some (h : extractRequestFrame pending = some (frame, rest)) :
    drain pending = (frame :: (drain rest).1, (drain rest).2) := by
  have hlt := extract_consumes h
  obtain ⟨fuel, hfuel⟩ : ∃ fuel, pending.length = fuel + 1 := ⟨pending.length - 1, by omega⟩
  have hsame : drainAux fuel rest = drain rest := drainAux_fuel (by omega) (le_refl _)
  rw [drain, hfuel, drainAux, h]
  simp only [hsame]

/-- Induction along the frames of a buffer. -/
theorem drain_induction {P : Str → Prop}
    (none : ∀ pending, extractRequestFrame pending = none → P pending)
    (some : ∀ pending frame rest, extractRequestFrame pending = some (frame, rest) →
      P rest → P pending) (pending : Str) : P pending := by
  induction hn : pending.length using Nat.strong_induction_on generalizing pending with
  | _ n ih =>
    cases hcut : extractRequestFrame pending with
    | none => exact none pending hcut
    | some p =>
      have hlt := extract_consumes hcut
      exact some pending p.1 p.2 hcut (ih p.2.length (by omega) p.2 rfl)

/-- The loop ends for want of a frame. -/
theorem drain_stops (pending : Str) : extractRequestFrame (drain pending).2 = none := by
  induction pending using drain_induction with
  | none pending h => rw [drain_none h, h]
  | some pending frame rest h ih => rw [drain_some h]; exact ih

theorem drain_onWire (pending : Str) :
    (drain pending).1.flatMap onWire ++ (drain pending).2 = pending := by
  induction pending using drain_induction with
  | none pending h => rw [drain_none h]; rfl
  | some pending frame rest h ih =>
    rw [drain_some h, List.flatMap_cons, List.append_assoc, ih]
    exact (extract_onWire h).symm

/-- Cutting early and going on with what is left. -/
theorem drain_append (pending more : Str) :
    drain (pending ++ more) =
      ((drain pending).1 ++ (drain ((drain pending).2 ++ more)).1,
        (drain ((drain pending).2 ++ more)).2) := by
  induction pending using drain_induction with
  | none pending h => rw [drain_none h]; rfl
  | some pending frame rest h ih =>
    rw [drain_some (extract_append h more), drain_some h, ih]
    rfl

theorem receive_eq (h : extractRequestFrame pending = none) (chunks : List Str) :
    receive pending chunks = drain (pending ++ chunks.flatten) := by
  induction chunks generalizing pending with
  | nil =>
    rw [List.flatten_nil, List.append_nil, drain_none h]
    rfl
  | cons chunk chunks ih =>
    have hcut := drain_append (pending ++ chunk) chunks.flatten
    rw [← ih (drain_stops _), List.append_assoc] at hcut
    rw [List.flatten_cons, hcut, receive]

/-- Any way of splitting a stream into chunks gives the same frames and the
same rest as the stream in one piece. Every cut takes a byte and the loop
ends for want of a frame. The frames, each line with its end, and the rest
are the stream. -/
theorem receive_chunks (chunks : List Str) :
    receive [] chunks = receive [] [chunks.flatten] ∧
      (∀ pending frame rest, extractRequestFrame pending = some (frame, rest) →
        rest.length < pending.length) ∧
      extractRequestFrame (receive [] chunks).2 = none ∧
      (receive [] chunks).1.flatMap onWire ++ (receive [] chunks).2 = chunks.flatten := by
  have hall : ∀ chunks, receive [] chunks = drain chunks.flatten := fun _ => receive_eq rfl _
  refine ⟨?_, fun _ _ _ => extract_consumes, ?_, ?_⟩
  · rw [hall, hall, List.flatten_singleton]
  · rw [hall]
    exact drain_stops _
  · rw [hall]
    exact drain_onWire _

end TinyKV
