import TinyKV.Lib.Text
import TinyKV.Model.Types

/-!
# Write-ahead log and snapshot file

The files are their bytes: appending a record appends its line to the log's
text, and the readers parse both texts back. `std::stoll` throws where the
parsers return `false`, and nothing catches it, so the two ends are kept apart
in `LoadError`.

`WriteAheadLog::replay` and `SnapshotFile::load` take a `KVStore`, the abstract
base class of the stores, and call three of its methods. `KVStore σ` is such an
implementation with states in `σ`.
-/

namespace TinyKV

/-- How reading a file back can fail: the parser's `return false`, or an
exception out of `std::stoll`. -/
inductive LoadError
  | malformed | badNumber
  deriving DecidableEq, Repr

/-- `std::stoll`: trailing bytes are ignored, no digits and values outside
64 bits throw. -/
def stoll (text : Str) : Except LoadError Int :=
  match Text.readInt text with
  | none => .error .badNumber
  | some (n, _) =>
    if -2 ^ 63 ≤ n ∧ n < 2 ^ 63 then .ok n else .error .badNumber

/-- `escape` of both `wal.cpp` and `snapshot.cpp`. -/
def escape : Str → Str
  | [] => []
  | 92 :: rest => 92 :: 92 :: escape rest
  | 9 :: rest => 92 :: 116 :: escape rest
  | 10 :: rest => 92 :: 110 :: escape rest
  | 13 :: rest => 92 :: 114 :: escape rest
  | c :: rest => c :: escape rest

/-- `unescape` of both files: a backslash at the end or before any other
byte is an error. -/
def unescape : Str → Option Str
  | [] => some []
  | 92 :: 92 :: rest => (unescape rest).map (92 :: ·)
  | 92 :: 116 :: rest => (unescape rest).map (9 :: ·)
  | 92 :: 110 :: rest => (unescape rest).map (10 :: ·)
  | 92 :: 114 :: rest => (unescape rest).map (13 :: ·)
  | 92 :: _ => none
  | c :: rest => (unescape rest).map (c :: ·)

def tagPut : Str := bytes ['P', 'U', 'T']
def tagExpire : Str := bytes ['E', 'X', 'P', 'I', 'R', 'E']
def tagDel : Str := bytes ['D', 'E', 'L']

/-! ## The write-ahead log -/

/-- What the log records. -/
inductive WalRecord
  | put (key value : Str) (expireAtMs : Int)
  | expire (key : Str) (expireAtMs : Int)
  | del (key : Str)
  deriving DecidableEq, Repr

/-- The lines of `append_put`, `append_expire` and `append_del`, without the
line end. -/
def WalRecord.line : WalRecord → Str
  | .put key value d =>
    tagPut ++ 9 :: (escape key ++ 9 :: (escape value ++ 9 :: Text.showInt d))
  | .expire key d => tagExpire ++ 9 :: (escape key ++ 9 :: Text.showInt d)
  | .del key => tagDel ++ 9 :: escape key

def walAppend (wal : Str) (r : WalRecord) : Str := wal ++ (r.line ++ [10])

/-! ## The snapshot file -/

def snapshotMagicV1 : Str :=
  bytes ['T', 'I', 'N', 'Y', 'K', 'V', '_', 'S', 'N', 'A', 'P', 'S', 'H', 'O', 'T', '_', 'V', '1']

def snapshotMagicV2 : Str :=
  bytes ['T', 'I', 'N', 'Y', 'K', 'V', '_', 'S', 'N', 'A', 'P', 'S', 'H', 'O', 'T', '_', 'V', '2']

def snapshotLine (entry : StoreEntry) : Str :=
  escape entry.key ++ 9 :: (escape entry.value ++ 9 :: Text.showInt entry.expireAtMs)

/-- The text `SnapshotFile::save` writes. -/
def snapshotText (entries : List StoreEntry) : Str :=
  snapshotMagicV2 ++ 10 :: entries.flatMap fun entry => snapshotLine entry ++ [10]

/-! ## The readers and the stores they fill -/

/-- The methods of the base class that the readers call, each with the value it
returns. -/
structure KVStore (σ : Type) where
  putWithExpireAt : σ → Str → Str → Int → Bool × σ
  expireAt : σ → Str → Int → Bool × σ
  del : σ → Str → Bool × σ

namespace KVStore

variable {σ : Type} (K : KVStore σ)

/-- `if (!store.put_with_expire_at(..)) return false;` -/
def store (s : σ) (entry : StoreEntry) : Except LoadError σ :=
  match K.putWithExpireAt s entry.key entry.value entry.expireAtMs with
  | (true, s) => .ok s
  | (false, _) => .error .malformed

/-- A record of the log, given to the store. Only a refused `PUT` ends the
replay. -/
def apply (s : σ) : WalRecord → Except LoadError σ
  | .put key value d => K.store s ⟨key, value, d⟩
  | .expire key d => .ok (K.expireAt s key d).2
  | .del key => .ok (K.del s key).2

/-- One line of `WriteAheadLog::replay`. -/
def replayLine (s : σ) (line : Str) : Except LoadError σ :=
  match Text.splitOn 9 line with
  | [tag, k, v] =>
    if tag = tagPut then
      match unescape k, unescape v with
      | some key, some value => K.store s ⟨key, value, 0⟩
      | _, _ => .error .malformed
    else if tag = tagExpire then
      match unescape k with
      | some key => do
          let d ← stoll v
          .ok (K.expireAt s key d).2
      | none => .error .malformed
    else .error .malformed
  | [tag, k, v, d] =>
    if tag = tagPut then
      match unescape k, unescape v with
      | some key, some value => do
          let d ← stoll d
          K.store s ⟨key, value, d⟩
      | _, _ => .error .malformed
    else .error .malformed
  | [tag, k] =>
    if tag = tagDel then
      match unescape k with
      | some key => .ok (K.del s key).2
      | none => .error .malformed
    else .error .malformed
  | _ => .error .malformed

def replay (s : σ) (wal : Str) : Except LoadError σ :=
  (Text.getlines 10 wal).foldlM K.replayLine s

/-- One line of `SnapshotFile::load` after the first. -/
def loadLine (v2 : Bool) (s : σ) (line : Str) : Except LoadError σ :=
  match v2, Text.splitOn 9 line with
  | false, [k, v] =>
    match unescape k, unescape v with
    | some key, some value => K.store s ⟨key, value, 0⟩
    | _, _ => .error .malformed
  | true, [k, v, d] =>
    match unescape k, unescape v with
    | some key, some value => do
        let d ← stoll d
        K.store s ⟨key, value, d⟩
    | _, _ => .error .malformed
  | _, _ => .error .malformed

/-- `SnapshotFile::load`; a file that does not exist loads nothing. -/
def load (s : σ) : Option Str → Except LoadError σ
  | none => .ok s
  | some text =>
    match Text.getlines 10 text with
    | [] => .error .malformed
    | magic :: lines =>
      if magic = snapshotMagicV1 then lines.foldlM (K.loadLine false) s
      else if magic = snapshotMagicV2 then lines.foldlM (K.loadLine true) s
      else .error .malformed

/-- Accepts every call and keeps it as the record it was read from. -/
def recording : KVStore (List WalRecord) where
  putWithExpireAt calls key value d := (true, calls ++ [.put key value d])
  expireAt calls key d := (true, calls ++ [.expire key d])
  del calls key := (true, calls ++ [.del key])

end KVStore

end TinyKV
