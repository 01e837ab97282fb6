import TinyKV.Model.Protocol

/-!
# Cutting the byte stream of a connection into frames

Bytes arrive in chunks of any size. `handle_client_read` appends each chunk
to what is left of the connection's buffer and cuts frames off its front for
as long as there is a complete one. A frame that starts with a star ends
where its bulk strings end, or where they stop making sense; any other frame
is a line.

The functions of the source move a position through the buffer. Here the
position stays a number where it is an answer, and what lies behind it is
passed on as the rest of the buffer.
-/

namespace TinyKV

open Text

/-- The loop of `resp_frame_size` over the bulk strings that are still to
come: where the frame ends and whether it is malformed, or nothing if bytes
are missing. A length that does not lead to a line end puts the end of the
frame in front of its header. -/
def respBulks : Nat → Nat → Str → Option (Nat × Bool)
  | 0, pos, _ => some (pos, false)
  | n + 1, pos, rest =>
    match readCrlfLine rest with
    | none => none
    | some (line, body) =>
      let next := pos + line.length + 2
      match line with
      | 36 :: digits =>
        match parseNonneg digits with
        | none => some (next, true)
        | some bulkLen =>
          if body.length < bulkLen.toNat + 2 then none
          else if (body.drop bulkLen.toNat).take 2 ≠ crlf then some (pos, true)
          else respBulks n (next + bulkLen.toNat + 2) (body.drop (bulkLen.toNat + 2))
      | _ => some (next, true)

/-- `resp_frame_size`: `frame_size` and `malformed`. -/
def respFrameSize (buffer : Str) : Option (Nat × Bool) :=
  match readCrlfLine buffer with
  | none => none
  | some (line, rest) =>
    let pos := line.length + 2
    match line with
    | 42 :: digits =>
      match parseLong digits with
      | none => some (pos, true)
      | some count =>
        if count ≤ 0 then some (pos, true) else respBulks count.toNat pos rest
    | _ => some (pos, true)

/-- `extract_request_frame`: the frame and what is left of `pending`. -/
def extractRequestFrame (pending : Str) : Option (Str × Str) :=
  if pending = [] then none
  else if pending.head? ≠ some 42 then
    if 10 ∈ pending then
      some (pending.takeWhile fun c => !decide (c = 10),
        (pending.dropWhile fun c => !decide (c = 10)).tail)
    else none
  else
    match respFrameSize pending with
    | none => none
    | some (frameSize, malformed) =>
      let frameSize :=
        if malformed = true ∧ frameSize = 0 then pending.length else frameSize
      some (pending.take frameSize, pending.drop frameSize)

/-- The loop `while (extract_request_frame(pending, frame))`: the frames and
what is left. No frame takes less than a byte, so that a fuel of the length
of the buffer is enough. -/
def drainAux : Nat → Str → List Str × Str
  | 0, pending => ([], pending)
  | fuel + 1, pending =>
    match extractRequestFrame pending with
    | none => ([], pending)
    | some (frame, rest) =>
      let p := drainAux fuel rest
      (frame :: p.1, p.2)

def drain (pending : Str) : List Str × Str := drainAux pending.length pending

/-- The receive loop of `handle_client_read` over the chunks of a stream. -/
def receive (pending : Str) : List Str → List Str × Str
  | [] => ([], pending)
  | chunk :: chunks =>
    let p := drain (pending ++ chunk)
    let q := receive p.2 chunks
    (p.1 ++ q.1, q.2)

/-- What `handle_client_read` hands on when the stream ends: the frames, and
as one more what is left in the buffer. -/
def handedOn (chunks : List Str) : List Str :=
  let p := receive [] chunks
  if p.2 = [] then p.1 else p.1 ++ [p.2]

end TinyKV
