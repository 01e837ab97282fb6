import TinyKV.Model.Router

/-!
# raft.log and raft.state

Two more text files. `raft.log` has one line for each entry of the log: its
index, term, command, key, time to live and value, with keys and values in
hexadecimal so that any bytes fit between blanks. `raft.state` has four
named numbers. `load_raft_state` reads the numbers with the same key loop as
`raft.meta`, and refuses the whole start on a log line it cannot parse.
-/

namespace TinyKV

open Text

/-! ## Hexadecimal -/

def hexDigit (n : Nat) : UInt8 :=
  if n < 10 then UInt8.ofNat (48 + n) else UInt8.ofNat (87 + n)

/-- `local_hex_value`, where −1 is no digit. -/
def hexValue (c : UInt8) : Option Nat :=
  if 48 ≤ c.toNat ∧ c.toNat ≤ 57 then some (c.toNat - 48)
  else if 97 ≤ c.toNat ∧ c.toNat ≤ 102 then some (c.toNat - 87)
  else if 65 ≤ c.toNat ∧ c.toNat ≤ 70 then some (c.toNat - 55)
  else none

def hexBytes : Str → Str
  | [] => []
  | c :: rest => hexDigit (c.toNat / 16) :: hexDigit (c.toNat % 16) :: hexBytes rest

/-- `hex_encode`: nothing is a dash, so that it still is a word. -/
def hexEncode (value : Str) : Str := if value = [] then dash else hexBytes value

def unhexBytes : Str → Option Str
  | [] => some []
  | [_] => none
  | a :: b :: rest => do
      let high ← hexValue a
      let low ← hexValue b
      let tail ← unhexBytes rest
      some (UInt8.ofNat (16 * high + low) :: tail)

/-- `hex_decode`. -/
def hexDecode (encoded : Str) : Option Str :=
  if encoded = dash then some [] else unhexBytes encoded

/-! ## raft.log -/

def opName : CommandType → Str
  | .put => bytes ['P', 'U', 'T']
  | .del => bytes ['D', 'E', 'L']
  | .expire => bytes ['E', 'X', 'P', 'I', 'R', 'E']
  | _ => bytes ['U', 'N', 'K', 'N', 'O', 'W', 'N']

def opType (op : Str) : Option CommandType :=
  if op = opName .put then some .put
  else if op = opName .del then some .del
  else if op = opName .expire then some .expire
  else none

/-- One line of `raft.log`, and of the payload of a batch of entries. -/
def raftLogLine (e : RaftLogEntry) : Str :=
  showInt e.index ++ 32 :: (showInt e.term ++ 32 :: (opName e.type ++ 32 ::
    (hexEncode e.key ++ 32 :: (showInt e.ttlSeconds ++ 32 :: hexEncode e.value))))

def raftLogText : List RaftLogEntry → Str
  | [] => []
  | e :: log => raftLogLine e ++ 10 :: raftLogText log

def parseRaftLogLine (line : Str) : Option RaftLogEntry := do
  let (index, s) ← readInt32 line
  let (term, s) ← readInt32 s
  let (op, s) ← readWord s
  let (keyHex, s) ← readWord s
  let (ttl, s) ← readInt32 s
  let (valueHex, _) ← readWord s
  let key ← hexDecode keyHex
  let value ← hexDecode valueHex
  let type ← opType op
  some ⟨index, term, type, key, value, ttl⟩

/-- The line loop of `load_raft_state`; empty lines are skipped. -/
def loadRaftLog (text : Str) : Option (List RaftLogEntry) :=
  ((getlines 10 text).filter fun line => !decide (line = [])).mapM parseRaftLogLine

/-- `decode_raft_entries_payload`, which reads the same lines: nothing if one
of them is malformed. -/
def decodeRaftEntriesPayload (payload : Str) : List RaftLogEntry :=
  (loadRaftLog payload).getD []

/-! ## raft.state -/

/-- The four numbers of `raft.state`. -/
structure RaftIndices where
  commitIndex : Int := 0
  lastApplied : Int := 0
  lastIncludedIndex : Int := 0
  lastIncludedTerm : Int := 0
  deriving DecidableEq, Repr

def keyCommitIndex : Str :=
  bytes ['c', 'o', 'm', 'm', 'i', 't', '_', 'i', 'n', 'd', 'e', 'x']

def keyLastApplied : Str :=
  bytes ['l', 'a', 's', 't', '_', 'a', 'p', 'p', 'l', 'i', 'e', 'd']

def keyLastIncludedIndex : Str :=
  bytes ['l', 'a', 's', 't', '_', 'i', 'n', 'c', 'l', 'u', 'd', 'e', 'd', '_',
    'i', 'n', 'd', 'e', 'x']

def keyLastIncludedTerm : Str :=
  bytes ['l', 'a', 's', 't', '_', 'i', 'n', 'c', 'l', 'u', 'd', 'e', 'd', '_',
    't', 'e', 'r', 'm']

def stateLine (key : Str) (n : Int) (rest : Str) : Str :=
  key ++ 32 :: (showInt n ++ 10 :: rest)

def raftStateText (r : RaftIndices) : Str :=
  stateLine keyCommitIndex r.commitIndex
    (stateLine keyLastApplied r.lastApplied
      (stateLine keyLastIncludedIndex r.lastIncludedIndex
        (stateLine keyLastIncludedTerm r.lastIncludedTerm [])))

/-- The four numbers are `int`s. -/
def RaftIndices.InRange (r : RaftIndices) : Prop :=
  InRange32 r.commitIndex ∧ InRange32 r.lastApplied ∧ InRange32 r.lastIncludedIndex ∧
    InRange32 r.lastIncludedTerm

instance (r : RaftIndices) : Decidable r.InRange := inferInstanceAs (Decidable (_ ∧ _))

/-- What a key of `raft.state` sets, if it is one. -/
def RaftIndices.set (r : RaftIndices) (key : Str) (n : Int) : RaftIndices :=
  if key = keyCommitIndex then { r with commitIndex := n }
  else if key = keyLastApplied then { r with lastApplied := n }
  else if key = keyLastIncludedIndex then { r with lastIncludedIndex := n }
  else if key = keyLastIncludedTerm then { r with lastIncludedTerm := n }
  else r

/-- The number a key of `raft.state` stands for. -/
def RaftIndices.get (r : RaftIndices) (key : Str) : Int :=
  if key = keyCommitIndex then r.commitIndex
  else if key = keyLastApplied then r.lastApplied
  else if key = keyLastIncludedIndex then r.lastIncludedIndex
  else r.lastIncludedTerm

def isStateKey (key : Str) : Bool :=
  decide (key = keyCommitIndex) || decide (key = keyLastApplied) ||
    decide (key = keyLastIncludedIndex) || decide (key = keyLastIncludedTerm)

/-- The key loop of `load_raft_state`. -/
def loadRaftIndicesAux : Nat → Str → RaftIndices → RaftIndices
  | 0, _, r => r
  | fuel + 1, s, r =>
    match readWord s with
    | none => r
    | some (key, rest) =>
      if isStateKey key then
        match extractInt rest (r.get key) with
        | (n, some rest) => loadRaftIndicesAux fuel rest (r.set key n)
        | (n, none) => r.set key n
      else loadRaftIndicesAux fuel rest r

def loadRaftIndices : Option Str → RaftIndices
  | none => {}
  | some text => loadRaftIndicesAux text.length text {}

end TinyKV
