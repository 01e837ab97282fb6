import TinyKV.Lib.Trim
import TinyKV.Model.Membership
import TinyKV.Model.Protocol

/-!
# The configuration file

`YamlConfigParser` reads a subset of YAML line by line. A line at the margin
that ends in a colon opens a section; any other line with a colon in it is a
key and a value, with comments, blanks and one pair of quotes taken away. What
does not make sense is skipped, and only `validate` looks at the result.

Both the reader's chain of `if`s and the writer go through the sections and
their keys in the same order, so that order is written down once, as the table
`sections`. A key has a kind, which says how its value is read and written and
which member of the configuration it is.
-/

namespace TinyKV

open Text

/-- `std::stoi`: trailing bytes are ignored; no digits, and a value that is no
`int`, throw. -/
def stoi (text : Str) : Option Int :=
  match readInt text with
  | none => none
  | some (n, _) => if InRange32 n then some n else none

namespace YamlConfigParser

/-! ## Pieces of a line -/

/-- One of `" \t\r\n"`. -/
def isBlank (c : UInt8) : Bool :=
  decide (c = 32) || decide (c = 9) || decide (c = 13) || decide (c = 10)

def trim (s : Str) : Str := Trim.trimBy isBlank s

def stripComment (s : Str) : Str := trim (s.takeWhile fun c => !decide (c = 35))

def indentLevel : Str → Nat
  | 32 :: rest => indentLevel rest + 1
  | 9 :: rest => indentLevel rest + 2
  | _ => 0

/-- The same quote, double or single, at both ends. -/
def isQuoted (s : Str) : Bool :=
  decide (2 ≤ s.length) &&
    (decide (s.head? = some 34 ∧ s.getLast? = some 34) ||
      decide (s.head? = some 39 ∧ s.getLast? = some 39))

def unquote (s : Str) : Str := if isQuoted s then s.tail.dropLast else s

def lowerByte (c : UInt8) : UInt8 :=
  if 65 ≤ c.toNat ∧ c.toNat ≤ 90 then c + 32 else c

def parseBool (s : Str) : Option Bool :=
  let lower := s.map lowerByte
  if lower = str "true" ∨ lower = str "yes" ∨ lower = str "on" then some true
  else if lower = str "false" ∨ lower = str "no" ∨ lower = str "off" then some false
  else none

def split (s : Str) (delimiter : UInt8) : List Str :=
  ((getlines delimiter s).map trim).filter fun part => !decide (part = [])

/-- `text.rfind(c)`. -/
def rfind (c : UInt8) (text : Str) : Option Nat :=
  (text.reverse.findIdx? fun b => decide (b = c)).map fun i => text.length - 1 - i

/-- `parse_peer`: nothing if `std::stoi` throws, and otherwise the peer, if it
returns `true`. -/
def parsePeer (text : Str) : Option (Option ClusterPeerConfig) :=
  match text.findIdx? (fun c => decide (c = 64)), rfind 58 text with
  | some atPos, some colonPos =>
    if colonPos < atPos then some none
    else
      let id := trim (text.take atPos)
      let host := trim ((text.drop (atPos + 1)).take (colonPos - atPos - 1))
      match stoi (trim (text.drop (colonPos + 1))) with
      | none => none
      | some port => some (if id ≠ [] ∧ host ≠ [] then some ⟨id, host, port⟩ else none)
  | _, _ => some none

def parsePeers (value : Str) : Option (List ClusterPeerConfig) :=
  ((split value 44).mapM parsePeer).map fun peers => peers.filterMap id

/-! ## The keys -/

/-- What the value of a key is, with the member it stands for. -/
inductive FieldKind
  | text (get : ServerConfig → Str) (set : ServerConfig → Str → ServerConfig)
  | int (get : ServerConfig → Int) (set : ServerConfig → Int → ServerConfig)
  | bool (get : ServerConfig → Bool) (set : ServerConfig → Bool → ServerConfig)
  | peers (get : ServerConfig → List ClusterPeerConfig)
      (set : ServerConfig → List ClusterPeerConfig → ServerConfig)

def nodeFields : List (Str × FieldKind) :=
  [(str "id", .text (·.node.id) fun c v => { c with node := { c.node with id := v } }),
    (str "host", .text (·.node.host) fun c v => { c with node := { c.node with host := v } }),
    (str "port", .int (·.node.port) fun c v => { c with node := { c.node with port := v } }),
    (str "data_dir",
      .text (·.node.dataDir) fun c v => { c with node := { c.node with dataDir := v } })]

def storeFields : List (Str × FieldKind) :=
  [(str "engine",
      .text (·.store.engine) fun c v => { c with store := { c.store with engine := v } }),
    (str "wal_enabled",
      .bool (·.store.walEnabled) fun c v => { c with store := { c.store with walEnabled := v } }),
    (str "wal_file",
      .text (·.store.walFile) fun c v => { c with store := { c.store with walFile := v } }),
    (str "snapshot_file",
      .text (·.store.snapshotFile) fun c v =>
        { c with store := { c.store with snapshotFile := v } }),
    (str "snapshot_threshold",
      .int (·.store.snapshotThreshold) fun c v =>
        { c with store := { c.store with snapshotThreshold := v } }),
    (str "max_keys",
      .int (·.store.maxKeys) fun c v => { c with store := { c.store with maxKeys := v } })]

def clusterFields : List (Str × FieldKind) :=
  [(str "enabled",
      .bool (·.cluster.enabled) fun c v => { c with cluster := { c.cluster with enabled := v } }),
    (str "peers",
      .peers (·.cluster.peers) fun c v => { c with cluster := { c.cluster with peers := v } }),
    (str "replication_factor",
      .int (·.cluster.replicationFactor) fun c v =>
        { c with cluster := { c.cluster with replicationFactor := v } }),
    (str "health_check_interval_ms",
      .int (·.cluster.healthCheckIntervalMs) fun c v =>
        { c with cluster := { c.cluster with healthCheckIntervalMs := v } }),
    (str "consistency",
      .text (·.cluster.consistency) fun c v =>
        { c with cluster := { c.cluster with consistency := v } }),
    (str "leader_id",
      .text (·.cluster.leaderId) fun c v => { c with cluster := { c.cluster with leaderId := v } })]

def logFields : List (Str × FieldKind) :=
  [(str "write_mode",
      .text (·.log.writeMode) fun c v => { c with log := { c.log with writeMode := v } }),
    (str "file", .text (·.log.file) fun c v => { c with log := { c.log with file := v } }),
    (str "buffer_size",
      .int (·.log.bufferSize) fun c v => { c with log := { c.log with bufferSize := v } }),
    (str "split_lines",
      .int (·.log.splitLines) fun c v => { c with log := { c.log with splitLines := v } }),
    (str "max_queue_size",
      .int (·.log.maxQueueSize) fun c v => { c with log := { c.log with maxQueueSize := v } }),
    (str "close", .bool (·.log.close) fun c v => { c with log := { c.log with close := v } })]

def sections : List (Str × List (Str × FieldKind)) :=
  [(str "node", nodeFields), (str "store", storeFields), (str "cluster", clusterFields),
    (str "log", logFields)]

/-! ## Reading -/

/-- The assignment of a key; nothing if it throws. A text that is no truth value
assigns nothing. -/
def FieldKind.assign (config : ServerConfig) (value : Str) : FieldKind → Option ServerConfig
  | text _ set => some (set config value)
  | int _ set => (stoi value).map (set config)
  | bool _ set =>
    match parseBool value with
    | some b => some (set config b)
    | none => some config
  | peers _ set => (parsePeers value).map (set config)

/-- The chain of `if`s inside the `try`. -/
def assign (config : ServerConfig) (currentSection key value : Str) : Option ServerConfig :=
  match (sections.lookup currentSection).bind fun fields => fields.lookup key with
  | none => some config
  | some kind => kind.assign config value

/-- One round of the loop of `load`, on the configuration so far and
`current_section`. -/
def loadLine (state : ServerConfig × Str) (line : Str) : ServerConfig × Str :=
  let stripped := stripComment line
  if stripped = [] then state
  else if indentLevel line = 0 ∧ stripped.getLast? = some 58 then
    (state.1, trim stripped.dropLast)
  else
    match stripped.findIdx? fun c => decide (c = 58) with
    | none => state
    | some colonPos =>
      let key := trim (stripped.take colonPos)
      let value := unquote (trim (stripped.drop (colonPos + 1)))
      if key = [] ∨ value = [] then state
      else
        match assign state.1 state.2 key value with
        | none => state
        | some config => (config, state.2)

/-- `load`, on the bytes of the file. -/
def load (text : Str) : Option ServerConfig :=
  let config := ((getlines 10 text).foldl loadLine ({}, [])).1
  if config.validate then some config else none

/-! ## Writing -/

def quoted (s : Str) : Str := 34 :: (s ++ [34])

def peerText (peer : ClusterPeerConfig) : Str :=
  peer.id ++ 64 :: (peer.host ++ 58 :: showInt peer.port)

/-- The peers with commas between them. -/
def peersText : List ClusterPeerConfig → Str
  | [] => []
  | [peer] => peerText peer
  | peer :: peers => peerText peer ++ 44 :: peersText peers

def FieldKind.render (config : ServerConfig) : FieldKind → Str
  | text get _ => quoted (get config)
  | int get _ => showInt (get config)
  | bool get _ => if get config then str "true" else str "false"
  | peers get _ => quoted (peersText (get config))

def fieldLine (config : ServerConfig) (field : Str × FieldKind) : Str :=
  32 :: 32 :: (field.1 ++ 58 :: 32 :: field.2.render config)

def sectionLines (config : ServerConfig) (s : Str × List (Str × FieldKind)) : List Str :=
  (s.1 ++ [58]) :: s.2.map (fieldLine config)

/-- The lines of `to_yaml`: the sections, with an empty line after each but the
last. -/
def yamlLines (config : ServerConfig) : List Str :=
  (sections.map (sectionLines config)).intersperse [[]] |>.flatten

def toYaml (config : ServerConfig) : Str := (yamlLines config).flatMap (· ++ [10])

def defaultConfigYaml : Str :=
  [str "# TinyKVServer Configuration",
    str "node:",
    str "  id: \"node-1\"",
    str "  host: \"0.0.0.0\"",
    str "  port: 9006",
    str "  data_dir: \"./data/node-1\"",
    [],
    str "store:",
    str "  engine: \"memory\"",
    str "  wal_enabled: false",
    str "  wal_file: \"./data/node-1/kv.wal\"",
    str "  snapshot_file: \"./data/node-1/kv.snapshot\"",
    str "  snapshot_threshold: 1000",
    str "  max_keys: 0",
    [],
    str "cluster:",
    str "  enabled: false",
    str "  peers: \"node-1@127.0.0.1:9006\"",
    str "  replication_factor: 2",
    str "  health_check_interval_ms: 1000",
    str "  consistency: \"best_effort\"",
    str "  leader_id: \"node-1\"",
    [],
    str "log:",
    str "  write_mode: \"async\"",
    str "  file: \"./KVServerLog\"",
    str "  buffer_size: 8192",
    str "  split_lines: 5000000",
    str "  max_queue_size: 800",
    str "  close: false"].flatMap (· ++ [10])

end YamlConfigParser

/-! ## The command line -/

/-- What `getopt` returns, one option after the other. -/
inductive CliOption
  | port (arg : Str)
  | logWrite (arg : Str)
  | closeLog (arg : Str)
  | configFile (path : Str)
  | other
  deriving DecidableEq, Repr

/-- A file as the process finds it: its bytes, if there is one, and whether it
can be opened for reading and for writing. -/
structure ConfigFile where
  content : Option Str := none
  readable : Bool := true
  writable : Bool := true
  deriving DecidableEq, Repr

/-- The variables of the option loop. -/
structure CliOptions where
  configPath : Str := str "./configs/kvserver.yaml"
  port : Option Int := none
  logWrite : Option Int := none
  closeLog : Option Int := none
  deriving DecidableEq, Repr

namespace ConfigLoader

/-- The loop over the options. A number that is none ends the process. -/
def readOptions (options : CliOptions) : List CliOption → Option CliOptions
  | [] => some options
  | .port arg :: rest => (stoi arg).bind fun n => readOptions { options with port := some n } rest
  | .logWrite arg :: rest =>
    (stoi arg).bind fun n => readOptions { options with logWrite := some n } rest
  | .closeLog arg :: rest =>
    (stoi arg).bind fun n => readOptions { options with closeLog := some n } rest
  | .configFile path :: rest => readOptions { options with configPath := path } rest
  | .other :: rest => readOptions options rest

/-- `YamlConfigParser::load` on a file that may not be there. -/
def loadFile (file : ConfigFile) : Option ServerConfig :=
  if file.readable then file.content.bind YamlConfigParser.load else none

/-- `std::ofstream out(path)` and the default configuration into it. -/
def createDefault (file : ConfigFile) : ConfigFile :=
  if file.writable then { file with content := some YamlConfigParser.defaultConfigYaml } else file

def override (options : CliOptions) (config : ServerConfig) : ServerConfig :=
  { config with
    node := { config.node with port := options.port.getD config.node.port }
    log := { config.log with
      writeMode := match options.logWrite with
        | none => config.log.writeMode
        | some n => if n = 1 then str "async" else str "sync"
      close := match options.closeLog with
        | none => config.log.close
        | some n => decide (n = 1) } }

/-- `parse_arg`: the configuration, unless the process has ended, and the files
it leaves. -/
def parseArg (files : Str → ConfigFile) (args : List CliOption) :
    Option ServerConfig × (Str → ConfigFile) :=
  match readOptions {} args with
  | none => (none, files)
  | some options =>
    match loadFile (files options.configPath) with
    | some config => (some (override options config), files)
    | none =>
      (some (override options {}),
        Function.update files options.configPath
          (createDefault (files options.configPath)))

end ConfigLoader

end TinyKV
