import DBMesh.Core.Types

/-!
# Configuration

The parts of `core/include/dbmesh/core/config.h` that routing, the pools, the validator and the
start of the application read.
-/

namespace DBMesh

structure NodeConfig where
  id : String
  deriving DecidableEq, Repr

structure ListenerConfig where
  enabled : Bool := false
  port : UInt16 := 0
  deriving DecidableEq, Repr

structure ListenersConfig where
  mysql : ListenerConfig := {}
  postgres : ListenerConfig := {}
  deriving DecidableEq, Repr

structure ApiConfig where
  port : UInt16 := 8080
  deriving DecidableEq, Repr

structure PoolConfig where
  min : UInt32 := 10
  max : UInt32 := 100
  idleTimeoutSec : UInt32 := 60
  connectTimeoutMs : UInt32 := 2000
  acquireTimeoutMs : UInt32 := 5000
  warm : Bool := true
  deriving DecidableEq, Repr

structure BackendConfig where
  id : BackendID
  host : String := ""
  port : UInt16 := 3306
  role : BackendRole := .primary
  group : String
  user : String := ""
  password : String := ""
  weight : UInt32 := 100
  maxReplicationLagMs : UInt32 := 500
  pool : PoolConfig := {}
  deriving DecidableEq, Repr

structure SchemaConfig where
  name : SchemaName
  backendGroup : String
  routingPolicy : Option RoutingPolicy := none
  readWriteSplit : Option Bool := none
  deriving DecidableEq, Repr

structure RoutingConfig where
  defaultPolicy : RoutingPolicy := .roundRobin
  readWriteSplit : Bool := true
  replicationAware : Bool := true
  maxReplicaLagMs : UInt32 := 500
  deriving DecidableEq, Repr

structure Config where
  node : NodeConfig
  listeners : ListenersConfig := {}
  backends : List BackendConfig := []
  schemas : List SchemaConfig := []
  routing : RoutingConfig := {}
  api : ApiConfig := {}
  deriving DecidableEq, Repr

end DBMesh
