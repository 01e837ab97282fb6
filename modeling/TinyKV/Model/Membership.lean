import TinyKV.Model.ConsistentHash

/-!
# Who is in the cluster

A node learns of its cluster from its configuration. `init` looks for the
node itself among the peers, by its id or by the address it listens on, and
adds it if it is not listed. From then on `refresh_health_if_needed` pings
the others from time to time and rebuilds the ring from those that answer.

Times are those of the steady clock, in nanoseconds.
-/

namespace TinyKV

/-- `ClusterPeerConfig`. -/
structure ClusterPeerConfig where
  id : Str
  host : Str
  port : Int := 0
  deriving DecidableEq, Repr

namespace ServerConfig

/-- `ServerConfig::Node`. -/
structure Node where
  id : Str := bytes ['n', 'o', 'd', 'e', '-', '1']
  host : Str := bytes ['0', '.', '0', '.', '0', '.', '0']
  port : Int := 9006
  dataDir : Str := bytes ['.', '/', 'd', 'a', 't', 'a', '/', 'n', 'o', 'd', 'e', '-', '1']
  deriving DecidableEq, Repr

def engineMemory : Str := bytes ['m', 'e', 'm', 'o', 'r', 'y']

/-- `ServerConfig::Store`. -/
structure Store where
  engine : Str := engineMemory
  walEnabled : Bool := false
  walFile : Str :=
    bytes ['.', '/', 'd', 'a', 't', 'a', '/', 'n', 'o', 'd', 'e', '-', '1', '/', 'k', 'v', '.',
      'w', 'a', 'l']
  snapshotFile : Str :=
    bytes ['.', '/', 'd', 'a', 't', 'a', '/', 'n', 'o', 'd', 'e', '-', '1', '/', 'k', 'v', '.',
      's', 'n', 'a', 'p', 's', 'h', 'o', 't']
  snapshotThreshold : Int := 1000
  maxKeys : Int := 0
  deriving DecidableEq, Repr

def bestEffort : Str := bytes ['b', 'e', 's', 't', '_', 'e', 'f', 'f', 'o', 'r', 't']

def raft : Str := bytes ['r', 'a', 'f', 't']

/-- `ServerConfig::Cluster`. -/
structure Cluster where
  enabled : Bool := false
  peers : List ClusterPeerConfig := []
  replicationFactor : Int := 2
  healthCheckIntervalMs : Int := 1000
  consistency : Str := bestEffort
  leaderId : Str := bytes ['n', 'o', 'd', 'e', '-', '1']
  deriving DecidableEq, Repr

/-- `ServerConfig::LogConfig`. -/
structure LogConfig where
  writeMode : Str := bytes ['a', 's', 'y', 'n', 'c']
  file : Str := bytes ['.', '/', 'K', 'V', 'S', 'e', 'r', 'v', 'e', 'r', 'L', 'o', 'g']
  bufferSize : Int := 8192
  splitLines : Int := 5000000
  maxQueueSize : Int := 800
  close : Bool := false
  deriving DecidableEq, Repr

end ServerConfig

structure ServerConfig where
  node : ServerConfig.Node := {}
  store : ServerConfig.Store := {}
  cluster : ServerConfig.Cluster := {}
  log : ServerConfig.LogConfig := {}
  deriving DecidableEq, Repr

namespace ServerConfig

def portInRange (port : Int) : Bool := decide (1 ≤ port) && decide (port ≤ 65535)

def peerValid (peer : ClusterPeerConfig) : Bool :=
  decide (peer.id ≠ []) && decide (peer.host ≠ []) && portInRange peer.port

def validate (config : ServerConfig) : Bool :=
  decide (config.node.id ≠ []) &&
  decide (config.node.host ≠ []) &&
  portInRange config.node.port &&
  decide (config.store.engine = engineMemory) &&
  decide (0 ≤ config.store.snapshotThreshold) &&
  decide (0 ≤ config.store.maxKeys) &&
  !(config.cluster.enabled && config.cluster.peers.isEmpty) &&
  decide (1 ≤ config.cluster.replicationFactor) &&
  decide (100 ≤ config.cluster.healthCheckIntervalMs) &&
  (decide (config.cluster.consistency = bestEffort) ||
    decide (config.cluster.consistency = raft)) &&
  config.cluster.peers.all peerValid

end ServerConfig

def loopback : Str := bytes ['1', '2', '7', '.', '0', '.', '0', '.', '1']

def localhost : Str := bytes ['l', 'o', 'c', 'a', 'l', 'h', 'o', 's', 't']

/-- `ClusterRouter` with what it holds for alive. `m_hash` is left out: it is
rebuilt from `aliveView` whenever that changes. `lastPing` is not a member of
the class; it records what `ping_node` returned when it was last called for a
node. -/
structure ClusterRouter extends Router where
  enabled : Bool
  raftEnabled : Bool
  replicationFactor : Int
  healthCheckIntervalMs : Int
  localNode : ClusterNode
  aliveView : List ClusterNode := []
  lastHealthCheck : Int := 0
  lastPing : ClusterNode → Option Bool := fun _ => none

namespace ClusterRouter

def isLocalEndpoint (node : ClusterNode) (config : ServerConfig) : Bool :=
  decide (node.port = config.node.port) &&
    (decide (node.host = config.node.host) || decide (node.host = loopback) ||
      decide (node.host = localhost))

/-- The peers as nodes. -/
def peerNodes (config : ServerConfig) : List ClusterNode :=
  config.cluster.peers.map fun peer => ⟨peer.id, peer.host, peer.port⟩

/-- The loop of `init` that looks for the node itself. -/
def findLocal (config : ServerConfig) : Option ClusterNode :=
  (peerNodes config).find? fun node =>
    decide (node.id = config.node.id) || isLocalEndpoint node config

/-- `m_local_node` after `init`: the address is that of the entry found, the
id that of the configuration. -/
def localNodeOf (config : ServerConfig) : ClusterNode :=
  match findLocal config with
  | some node => ⟨config.node.id, node.host, node.port⟩
  | none => ⟨config.node.id, loopback, config.node.port⟩

/-- `m_all_nodes` after `init`. -/
def allNodesOf (config : ServerConfig) : List ClusterNode :=
  match findLocal config with
  | some _ => peerNodes config
  | none => peerNodes config ++ [localNodeOf config]

/-- A `std::chrono::milliseconds`, on the clock. -/
def milliseconds (n : Int) : Int := n * 1000000

/-- The health check is due. `duration_cast` drops what is less than a
millisecond. -/
def healthCheckDue (c : ClusterRouter) (now : Int) : Bool :=
  !decide ((now - c.lastHealthCheck).tdiv 1000000 < c.healthCheckIntervalMs)

/-- The nodes a health check pings. -/
def pings (c : ClusterRouter) (node : ClusterNode) : Bool :=
  decide (node ∈ c.allNodes) && !decide (node.id = c.localId) &&
    !decide (node.port = c.localNode.port)

def refreshHealthIfNeeded (c : ClusterRouter) (now : Int) (pingNode : ClusterNode → Bool) :
    ClusterRouter :=
  if c.enabled && c.healthCheckDue now then
    { c with
      lastHealthCheck := now
      aliveView := c.toRouter.aliveNodes c.localNode pingNode
      lastPing := fun node => if c.pings node then some (pingNode node) else c.lastPing node }
  else c

/-- What `init` sets before it asks whether there is a cluster. -/
def settings (config : ServerConfig) : ClusterRouter where
  enabled := config.cluster.enabled
  localId := config.node.id
  replicationFactor := config.cluster.replicationFactor
  healthCheckIntervalMs := config.cluster.healthCheckIntervalMs
  raftEnabled := decide (config.cluster.consistency = ServerConfig.raft)
  leaderId := config.cluster.leaderId
  localNode := ⟨config.node.id, loopback, config.node.port⟩
  localPort := config.node.port
  allNodes := []

/-- `init` up to its health check. `booted` is the time at which it sets the
last check an interval back; what it finds in `raft.meta` is `raftMeta`. -/
def joinCluster (config : ServerConfig) (raftMeta : Option Str) (booted : Int) : ClusterRouter :=
  { settings config with
    allNodes := allNodesOf config
    localNode := localNodeOf config
    localPort := (localNodeOf config).port
    aliveView := [localNodeOf config]
    lastHealthCheck := booted - milliseconds config.cluster.healthCheckIntervalMs
    role := .follower
    raftMetaFile := raftMeta
    currentTerm := (loadRaftMeta raftMeta).1
    votedFor := (loadRaftMeta raftMeta).2
    leaderId := if (settings config).raftEnabled then [] else config.cluster.leaderId }

def init (config : ServerConfig) (raftMeta : Option Str) (booted now : Int)
    (pingNode : ClusterNode → Bool) : ClusterRouter :=
  if config.cluster.enabled then
    (joinCluster config raftMeta booted).refreshHealthIfNeeded now pingNode
  else settings config

/-- Health checks, each with its time and what the pings answer. -/
def refreshes (c : ClusterRouter) (rounds : List (Int × (ClusterNode → Bool))) : ClusterRouter :=
  rounds.foldl (fun c round => c.refreshHealthIfNeeded round.1 round.2) c

end ClusterRouter

end TinyKV
