import Mathlib.Data.List.DropRight
import TinyKV.Model.RaftFiles

/-!
# Requests

`KVProtocol::parse_request` turns a frame into a `Request`. A frame that
starts with a star is an array of bulk strings and must be exactly that; any
other frame is a line of text, trimmed and split at white space, except that
the value of a `PUT` is the rest of its line. Both end in `parse_args`.

A request that cannot be parsed has type `Unknown` and carries the message
for the client. Numbers are read as 64 bit and kept as 32 bit, without a
check in between.
-/

namespace TinyKV

open Text

/-- A source literal of any length. -/
def str (s : String) : Str := bytes s.toList

/-- A literal is a list of characters to the kernel. Going through the list
spares it the decoding of the literal. -/
theorem str_ofList (l : List Char) : str (String.ofList l) = bytes l := by
  rw [str, String.toList_ofList]

theorem str_ne_nil {l : List Char} (h : bytes l ≠ []) : str (String.ofList l) ≠ [] := by
  rwa [str_ofList]

theorem all_str {p : UInt8 → Bool} {l : List Char} (h : (bytes l).all p = true) :
    (str (String.ofList l)).all p = true := by
  rwa [str_ofList]

inductive ProtocolType
  | text | resp
  deriving DecidableEq, Repr

/-- `Request` of `protocol/request.h`. -/
structure Request where
  type : CommandType := .unknown
  protocol : ProtocolType := .text
  key : Str := []
  value : Str := []
  ttlSeconds : Int := 0
  term : Int := 0
  nodeId : Str := []
  prevLogIndex : Int := 0
  prevLogTerm : Int := 0
  leaderCommit : Int := 0
  logIndex : Int := -1
  logTerm : Int := 0
  raftOp : Str := []
  lastLogIndex : Int := 0
  lastLogTerm : Int := 0
  entryCount : Int := 0
  snapshotPayload : Str := []
  error : Str := []
  deriving DecidableEq, Repr

/-! ## Bytes -/

def trim (value : Str) : Str := (value.dropWhile isSpace).rdropWhile isSpace

def upperByte (c : UInt8) : UInt8 :=
  if 97 ≤ c.toNat ∧ c.toNat ≤ 122 then UInt8.ofNat (c.toNat - 32) else c

def upper (value : Str) : Str := value.map upperByte

/-- `static_cast<int>` of a `long`. -/
def toInt32 (n : Int) : Int := n.bmod (2 ^ 32)

/-- `parse_long`, and `parse_number` of the server: `std::stol` has to use up
the text, and what it throws counts as a failure. -/
def parseLong (text : Str) : Option Int :=
  match readInt text with
  | some (n, []) => if -2 ^ 63 ≤ n ∧ n < 2 ^ 63 then some n else none
  | _ => none

/-- The check every header field and every length goes through. -/
def parseNonneg (text : Str) : Option Int := (parseLong text).filter fun n => decide (0 ≤ n)

/-- `decode_hex`. -/
def decodeHex (encoded : Str) : Option Str :=
  if encoded = dash then some []
  else if encoded.length % 2 ≠ 0 then none
  else unhexBytes encoded

/-- `read_crlf_line`, and `read_resp_line` of the server: the line, and what
follows the line end. -/
def readCrlfLine : Str → Option (Str × Str)
  | [] => none
  | c :: rest =>
    if c = 13 ∧ rest.head? = some 10 then some ([], rest.tail)
    else (readCrlfLine rest).map fun p => (c :: p.1, p.2)

def crlf : Str := [13, 10]

/-! ## Arguments -/

def errorRequest (message : Str) (protocol : ProtocolType) : Request :=
  { protocol := protocol, error := message }

/-- `PING`, `RAFT_STATUS` and `METRICS` take no argument. -/
def parseBare (type : CommandType) (usage : Str) (args : List Str) (protocol : ProtocolType) :
    Request :=
  if args = [] then { type := type, protocol := protocol } else errorRequest usage protocol

/-- The commands whose one argument is a key. -/
def parseKey (type : CommandType) (usage : Str) (args : List Str) (protocol : ProtocolType) :
    Request :=
  match args with
  | [key] =>
    if key = [] then errorRequest usage protocol
    else { type := type, protocol := protocol, key := key }
  | _ => errorRequest usage protocol

def usageSet : Str := str "ERROR usage: SET <key> <value> [EX seconds]"

def invalidTtl : Str := str "ERROR invalid_ttl"

def parsePut (type : CommandType) (args : List Str) (protocol : ProtocolType) : Request :=
  match args with
  | [key, value] =>
    if key = [] ∨ value = [] then errorRequest usageSet protocol
    else { type := type, protocol := protocol, key := key, value := value }
  | [key, value, ex, seconds] =>
    if upper ex ≠ str "EX" ∨ key = [] ∨ value = [] then errorRequest usageSet protocol
    else match parseLong seconds with
      | some ttl =>
        if ttl ≤ 0 then errorRequest invalidTtl protocol
        else
          { type := type, protocol := protocol, key := key, value := value,
            ttlSeconds := toInt32 ttl }
      | none => errorRequest invalidTtl protocol
  | _ => errorRequest usageSet protocol

def usageExpire : Str := str "ERROR usage: EXPIRE <key> <seconds>"

def parseExpire (type : CommandType) (args : List Str) (protocol : ProtocolType) : Request :=
  match args with
  | [key, seconds] =>
    if key = [] then errorRequest usageExpire protocol
    else match parseLong seconds with
      | some ttl =>
        if ttl ≤ 0 then errorRequest invalidTtl protocol
        else { type := type, protocol := protocol, key := key, ttlSeconds := toInt32 ttl }
      | none => errorRequest invalidTtl protocol
  | _ => errorRequest usageExpire protocol

def usageVote : Str := str
  "ERROR usage: RAFT_REQUEST_VOTE <term> <candidate_id> [last_log_index last_log_term]"

def invalidTerm : Str := str "ERROR invalid_term"

def parseRequestVote (args : List Str) (protocol : ProtocolType) : Request :=
  match args with
  | [term, candidate] =>
    match parseNonneg term with
    | none => errorRequest invalidTerm protocol
    | some term =>
      { type := .raftRequestVote, protocol := protocol, term := toInt32 term,
        nodeId := candidate }
  | [term, candidate, index, logTerm] =>
    match parseNonneg term with
    | none => errorRequest invalidTerm protocol
    | some term =>
      match parseNonneg index, parseNonneg logTerm with
      | some lastIndex, some lastTerm =>
        { type := .raftRequestVote, protocol := protocol, term := toInt32 term,
          nodeId := candidate, lastLogIndex := toInt32 lastIndex,
          lastLogTerm := toInt32 lastTerm }
      | _, _ => errorRequest (str "ERROR invalid_raft_vote_log") protocol
  | _ => errorRequest usageVote protocol

def usageAppend : Str :=
  str ("ERROR usage: RAFT_APPEND_ENTRIES <term> <leader_id> " ++
    "[prev_index prev_term leader_commit entry_count payload_hex]")

def invalidAppend : Str := str "ERROR invalid_raft_append"

def invalidHex : Str := str "ERROR invalid_raft_hex"

/-- A heartbeat has two arguments, a batch seven, and a single entry eleven. -/
def parseAppendEntries (args : List Str) (protocol : ProtocolType) : Request :=
  match args with
  | [term, leader] =>
    match parseNonneg term with
    | none => errorRequest invalidTerm protocol
    | some term =>
      { type := .raftAppendEntries, protocol := protocol, term := toInt32 term,
        nodeId := leader }
  | [term, leader, prevIndex, prevTerm, commit, count, payloadHex] =>
    match parseNonneg term with
    | none => errorRequest invalidTerm protocol
    | some term =>
      match parseNonneg prevIndex, parseNonneg prevTerm, parseNonneg commit,
          parseNonneg count with
      | some prevIndex, some prevTerm, some commit, some count =>
        match decodeHex payloadHex with
        | none => errorRequest invalidHex protocol
        | some payload =>
          { type := .raftAppendEntries, protocol := protocol, term := toInt32 term,
            nodeId := leader, prevLogIndex := toInt32 prevIndex,
            prevLogTerm := toInt32 prevTerm, leaderCommit := toInt32 commit,
            entryCount := toInt32 count, snapshotPayload := payload, logIndex := 0 }
      | _, _, _, _ => errorRequest invalidAppend protocol
  | [term, leader, prevIndex, prevTerm, commit, index, entryTerm, op, keyHex, seconds,
      valueHex] =>
      match parseNonneg term with
      | none => errorRequest invalidTerm protocol
      | some term =>
        match parseNonneg prevIndex, parseNonneg prevTerm, parseNonneg commit,
            parseNonneg index, parseNonneg entryTerm, parseNonneg seconds with
        | some prevIndex, some prevTerm, some commit, some index, some entryTerm, some ttl =>
          match decodeHex keyHex, decodeHex valueHex with
          | some key, some value =>
            { type := .raftAppendEntries, protocol := protocol, term := toInt32 term,
              nodeId := leader, prevLogIndex := toInt32 prevIndex,
              prevLogTerm := toInt32 prevTerm, leaderCommit := toInt32 commit,
              logIndex := toInt32 index, logTerm := toInt32 entryTerm,
              raftOp := upper op, key := key, value := value,
              ttlSeconds := toInt32 ttl }
          | _, _ => errorRequest invalidHex protocol
        | _, _, _, _, _, _ => errorRequest invalidAppend protocol
  | _ => errorRequest usageAppend protocol

def usageInstall : Str := str
  "ERROR usage: RAFT_INSTALL_SNAPSHOT <term> <leader_id> <last_index> <last_term> <payload_hex>"

def invalidSnapshotHeader : Str := str "ERROR invalid_snapshot_header"

def parseInstallSnapshot (args : List Str) (protocol : ProtocolType) : Request :=
  match args with
  | [term, leader, index, logTerm, payloadHex] =>
    match parseNonneg term, parseNonneg index, parseNonneg logTerm with
    | some term, some lastIndex, some lastTerm =>
      match decodeHex payloadHex with
      | none => errorRequest invalidHex protocol
      | some payload =>
        { type := .raftInstallSnapshot, protocol := protocol, term := toInt32 term,
          nodeId := leader, lastLogIndex := toInt32 lastIndex,
          lastLogTerm := toInt32 lastTerm, snapshotPayload := payload }
    | _, _, _ => errorRequest invalidSnapshotHeader protocol
  | _ => errorRequest usageInstall protocol

/-- `parse_args` on the command, already in upper case, and its arguments. -/
def parseCommand (command : Str) (args : List Str) (protocol : ProtocolType) : Request :=
  if command = str "PING" then parseBare .ping (str "ERROR usage: PING") args protocol
  else if command = str "PUT" ∨ command = str "SET" then parsePut .put args protocol
  else if command = str "REPL_PUT" then parsePut .replicaPut args protocol
  else if command = str "RAFT_PUT" then parsePut .raftPut args protocol
  else if command = str "GET" then parseKey .get (str "ERROR usage: GET <key>") args protocol
  else if command = str "REPL_GET" then
    parseKey .replicaGet (str "ERROR usage: REPL_GET <key>") args protocol
  else if command = str "DEL" then parseKey .del (str "ERROR usage: DEL <key>") args protocol
  else if command = str "REPL_DEL" then
    parseKey .replicaDel (str "ERROR usage: DEL <key>") args protocol
  else if command = str "RAFT_DEL" then
    parseKey .raftDel (str "ERROR usage: DEL <key>") args protocol
  else if command = str "EXISTS" then
    parseKey .exists (str "ERROR usage: EXISTS <key>") args protocol
  else if command = str "EXPIRE" then parseExpire .expire args protocol
  else if command = str "REPL_EXPIRE" then parseExpire .replicaExpire args protocol
  else if command = str "RAFT_EXPIRE" then parseExpire .raftExpire args protocol
  else if command = str "TTL" then parseKey .ttl (str "ERROR usage: TTL <key>") args protocol
  else if command = str "RAFT_REQUEST_VOTE" then parseRequestVote args protocol
  else if command = str "RAFT_APPEND_ENTRIES" then parseAppendEntries args protocol
  else if command = str "RAFT_INSTALL_SNAPSHOT" then parseInstallSnapshot args protocol
  else if command = str "RAFT_STATUS" then
    parseBare .raftStatus (str "ERROR usage: RAFT_STATUS") args protocol
  else if command = str "METRICS" then
    parseBare .metrics (str "ERROR usage: METRICS") args protocol
  else errorRequest (str "ERROR unknown_command") protocol

def parseArgs (args : List Str) (protocol : ProtocolType) : Request :=
  match args with
  | [] => errorRequest (str "ERROR empty_command") protocol
  | command :: args => parseCommand (upper command) args protocol

/-! ## Arrays of bulk strings -/

/-- The loop of `parse_resp_request`: so many bulk strings, and what follows
them. -/
def respArgs : Nat → Str → Option (List Str × Str)
  | 0, rest => some ([], rest)
  | n + 1, rest =>
    match readCrlfLine rest with
    | some (36 :: digits, body) =>
      match parseNonneg digits with
      | some bulkLen =>
        if body.length < bulkLen.toNat + 2 ∨
            (body.drop bulkLen.toNat).take 2 ≠ crlf then none
        else (respArgs n (body.drop (bulkLen.toNat + 2))).map fun p =>
          (body.take bulkLen.toNat :: p.1, p.2)
      | none => none
    | _ => none

/-- The arguments `parse_resp_request` hands to `parse_args`. That it
reserves room for as many as the header announces is left to
`parseRequestIn`. -/
def parseRespArgs (frame : Str) : Option (List Str) :=
  match readCrlfLine frame with
  | some (42 :: digits, rest) =>
    match parseLong digits with
    | some count =>
      if count ≤ 0 then none
      else match respArgs count.toNat rest with
        | some (args, []) => some args
        | _ => none
    | none => none
  | _ => none

def invalidResp : Str := str "ERROR invalid_resp"

def parseRespRequest (frame : Str) : Request :=
  match parseRespArgs frame with
  | none => errorRequest invalidResp .resp
  | some args => parseArgs args .resp

/-! ## Lines of text -/

def usagePut : Str := str "ERROR usage: PUT <key> <value>"

/-- The rest of a line that starts with one of the three `PUT` commands. -/
def parsePutLine (command input : Str) : Request :=
  match readWord input with
  | none => errorRequest usagePut .text
  | some (key, rest) =>
    let value := trim (rest.takeWhile fun c => !decide (c = 10))
    if value = [] then errorRequest usagePut .text
    else parseArgs [command, key, value] .text

def parseRequest (line : Str) : Request :=
  if line.head? = some 42 then parseRespRequest line
  else
    match readWord (trim line) with
    | none => errorRequest [] .text
    | some (word, input) =>
      let command := upper word
      if command = str "PUT" ∨ command = str "REPL_PUT" ∨ command = str "RAFT_PUT" then
        parsePutLine command input
      else parseArgs (command :: words input) .text

/-! ## Exceptions -/

/-- What `std::vector::reserve` throws. -/
inductive StdException
  | lengthError | badAlloc
  deriving DecidableEq, Repr

/-- `max_size` of a vector of strings, which take 32 bytes each. -/
def vectorMaxSize : Nat := (2 ^ 63 - 1) / 32

/-- `args.reserve(count)`, where there is room for so many strings. -/
def reserve (room count : Nat) : Except StdException Unit :=
  if vectorMaxSize < count then .error .lengthError
  else if room < count then .error .badAlloc
  else .ok ()

/-- How many arguments `parse_resp_request` reserves room for, if it gets as
far as that: it has only seen the first line of the frame then. -/
def reservedArgs (line : Str) : Option Nat :=
  if line.head? = some 42 then
    match readCrlfLine line with
    | some (42 :: digits, _) =>
      match parseLong digits with
      | some count => if count ≤ 0 then none else some count.toNat
      | none => none
    | _ => none
  else none

/-- `parse_request` with what it throws. Nothing else in it does: positions
are checked before they are used, and `parse_long` catches. -/
def parseRequestIn (room : Nat) (line : Str) : Except StdException Request :=
  match reservedArgs line with
  | none => .ok (parseRequest line)
  | some count =>
    match reserve room count with
    | .error e => .error e
    | .ok () => .ok (parseRequest line)

end TinyKV
