import TinyKV.Model.Membership
import TinyKV.Model.Protocol

/-!
# The logger

`write_log` counts the line, goes over to another file when the day has changed
or the count is a multiple of `m_split_lines`, and puts the line together in
`m_buf`: a header, the message, a line feed and a zero byte. Both sizes are
what the configuration says, and `validate` does not look at them.

The room `vsnprintf` is told about is computed as an `int` and becomes a
`size_t`; what it returns is the length of the whole message, cut off or not.
A remainder by zero and an index outside `m_buf` are ends of their own here, as
they are not in the source.

The time, the message its format and arguments make, whether a file can be
opened and whether the queue is full come with the call.
-/

namespace TinyKV

open Text

/-- `struct tm`, the year and the month as they are printed, and the
microseconds. -/
structure LogTime where
  year : Int
  month : Int
  mday : Int
  hour : Int
  min : Int
  sec : Int
  us : Int
  deriving DecidableEq, Repr

structure LogCall where
  level : Int
  text : Str
  time : LogTime
  opens : Bool := true
  queueFull : Bool := false
  deriving DecidableEq, Repr

inductive LogFault
  | divisionByZero
  | outOfRange
  deriving DecidableEq, Repr

/-- Where a line goes. `fputs` is called without looking at the file again. -/
inductive LogOutput
  | nothing
  | stderr (text : Str)
  | queued (line : Str)
  | file (path : Option Str) (line : Str)
  deriving DecidableEq, Repr

/-- `Log`, without the queue and the thread that empties it. An open file is the
path it was opened with. -/
structure Log where
  dirName : Str := []
  logName : Str := []
  splitLines : Int := 0
  logBufSize : Int := 0
  count : Nat := 0
  today : Int := 0
  fp : Option Str := none
  initialized : Bool := false
  buf : List UInt8 := []
  isAsync : Bool := false
  closeLog : Int := 0
  deriving DecidableEq, Repr

/-- An `int` where a `size_t` is wanted. -/
def toSizeT (n : Int) : Nat := (n % 2 ^ 64).toNat

/-- `%0wd`. -/
def padInt (width : Nat) (n : Int) : Str :=
  let sign : Str := if n < 0 then [45] else []
  sign ++ List.replicate (width - sign.length - (showNat n.natAbs).length) 48 ++ showNat n.natAbs

def levelStr (level : Int) : Str :=
  if level = 0 then str "[debug]:"
  else if level = 1 then str "[info]:"
  else if level = 2 then str "[warn]:"
  else if level = 3 then str "[erro]:"
  else str "[info]:"

namespace LogCall

/-- `"%04d-%02d-%02d %02d:%02d:%02d.%06d %s "`. -/
def header (call : LogCall) : Str :=
  padInt 4 call.time.year ++ 45 :: (padInt 2 call.time.month ++ 45 :: (padInt 2 call.time.mday ++
    32 :: (padInt 2 call.time.hour ++ 58 :: (padInt 2 call.time.min ++ 58 ::
      (padInt 2 call.time.sec ++ 46 :: (padInt 6 call.time.us ++
        32 :: (levelStr call.level ++ [32])))))))

end LogCall

namespace Log

/-- `"%s%04d_%02d_%02d_%s"` in 512 bytes. -/
def datedName (dirName logName : Str) (time : LogTime) : Str :=
  (dirName ++ padInt 4 time.year ++ 95 :: (padInt 2 time.month ++ 95 ::
    (padInt 2 time.mday ++ 95 :: logName))).take 511

/-- `init`, on the directory and the file name `fs::path` takes the name apart
into. A negative size makes `resize` throw. -/
def init (path : Str × Str) (closeLog logBufSize splitLines maxQueueSize : Int) (time : LogTime)
    (opens : Bool) : Option Log :=
  if logBufSize < 0 then none
  else
    some
      { dirName := path.1
        logName := path.2
        splitLines := splitLines
        logBufSize := logBufSize
        today := time.mday
        fp := if opens then some (datedName path.1 path.2 time) else none
        initialized := opens
        buf := List.replicate logBufSize.toNat 0
        isAsync := decide (1 ≤ maxQueueSize)
        closeLog := closeLog }

/-- The count, and the next file if it is time for one. -/
def roll (log : Log) (call : LogCall) : Except LogFault Log :=
  let count := (log.count + 1) % 2 ^ 64
  let newLog := datedName log.dirName log.logName call.time
  if log.today ≠ call.time.mday then
    .ok { log with
      count := 0
      today := call.time.mday
      fp := if call.opens then some newLog else none }
  else if toSizeT log.splitLines = 0 then .error .divisionByZero
  else if count % toSizeT log.splitLines = 0 then
    let suffix := 46 :: showNat (count / toSizeT log.splitLines)
    .ok { log with
      count := count
      fp := if call.opens then some (newLog ++ suffix) else none }
  else .ok { log with count := count }

/-- Bytes into the buffer, at an index. -/
def putBytes (buf : List UInt8) (start : Nat) (bytes : List UInt8) :
    Except LogFault (List UInt8) :=
  if bytes = [] ∨ start + bytes.length ≤ buf.length then
    .ok (buf.take start ++ (bytes ++ buf.drop (start + bytes.length)))
  else .error .outOfRange

/-- What `vsnprintf` writes where it is told there is this much room. -/
def vsnprintf (size : Nat) (text : Str) : List UInt8 :=
  if size = 0 then [] else text.take (size - 1) ++ [0]

/-- The line in the buffer. -/
def formatLine (log : Log) (call : LogCall) : Except LogFault (List UInt8) := do
  let n := call.header.length
  let m := call.text.length
  let buf ← putBytes log.buf 0 call.header
  let buf ← putBytes buf n (vsnprintf (toSizeT (log.logBufSize - n - 1)) call.text)
  let buf ← putBytes buf (n + m) [10]
  putBytes buf (n + m + 1) [0]

/-- `write_log` from the count on. -/
def writeLine (log : Log) (call : LogCall) : Except LogFault (Log × LogOutput) := do
  let log ← log.roll call
  let buf ← log.formatLine call
  let line := buf.takeWhile fun c => !decide (c = 0)
  if log.isAsync && !call.queueFull then .ok ({ log with buf := buf }, .queued line)
  else .ok ({ log with buf := buf }, .file log.fp line)

def writeLog (log : Log) (call : LogCall) : Except LogFault (Log × LogOutput) :=
  if log.closeLog ≠ 0 then .ok (log, .nothing)
  else if !log.initialized || log.fp.isNone || log.buf.isEmpty then
    .ok (log, .stderr (call.text ++ [10]))
  else log.writeLine call

/-- A sequence of calls, with what became of each. -/
def writeAll (log : Log) : List LogCall → Except LogFault (Log × List LogOutput)
  | [] => .ok (log, [])
  | call :: calls => do
      let (log, output) ← log.writeLog call
      let (log, outputs) ← writeAll log calls
      .ok (log, output :: outputs)

end Log

/-- `KVServer::init_log`. -/
def initLog (config : ServerConfig.LogConfig) (path : Str → Str × Str) (time : LogTime)
    (opens : Bool) : Option Log :=
  let maxQueueSize := if config.writeMode = str "async" then config.maxQueueSize else 0
  Log.init (path config.file) (if config.close then 1 else 0) config.bufferSize config.splitLines
    maxQueueSize time opens

end TinyKV
