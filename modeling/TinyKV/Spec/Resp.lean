import TinyKV.Model.Protocol

/-!
# Replies as a client reads them

The four kinds of values a client of the RESP protocol is answered with, and
the reader it uses: it looks at the first byte, takes a line, and for a bulk
string as many bytes as the line announces. What it does not read stays for
the next reply.

A reply is in order if the reader takes it whole, whatever follows it. Then a
client that has sent several requests finds as many values in what comes
back, and nothing else.
-/

namespace TinyKV

open Text

inductive RespValue
  | simple (text : Str)
  | error (text : Str)
  | integer (n : Int)
  | bulk (value : Option Str)
  deriving DecidableEq, Repr

/-- A line has no line end inside, not even half of one. -/
def cleanByte (c : UInt8) : Bool := decide (c ≠ 10) && decide (c ≠ 13)

/-- The bytes of a bulk string of the announced length. -/
def readBulk (n : Int) (rest : Str) : Option (RespValue × Str) :=
  if n = -1 then some (.bulk none, rest)
  else if 0 ≤ n ∧ (rest.drop n.toNat).take 2 = crlf then
    some (.bulk (some (rest.take n.toNat)), rest.drop (n.toNat + 2))
  else none

def readReply : Str → Option (RespValue × Str)
  | [] => none
  | kind :: s =>
    match readCrlfLine s with
    | none => none
    | some (line, rest) =>
      if kind = 43 then if line.all cleanByte then some (.simple line, rest) else none
      else if kind = 45 then if line.all cleanByte then some (.error line, rest) else none
      else if kind = 58 then
        match readInt line with
        | some (n, []) => some (.integer n, rest)
        | _ => none
      else if kind = 36 then
        match readInt line with
        | some (n, []) => readBulk n rest
        | _ => none
      else none

/-- So many values, and nothing after them. -/
def readReplies : Nat → Str → Option (List RespValue)
  | 0, s => if s = [] then some [] else none
  | n + 1, s =>
    match readReply s with
    | none => none
    | some (v, rest) => (readReplies n rest).map (v :: ·)

/-- The reply is one value. -/
def OneReply (reply : Str) : Prop := ∃ v, ∀ rest, readReply (reply ++ rest) = some (v, rest)

end TinyKV
