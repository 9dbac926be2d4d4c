import DBMesh.Core.ConfigLoader
import DBMesh.Core.Yaml
import DBMesh.Routing.BackendRegistry
import Mathlib.Algebra.Group.Int.Defs
import Mathlib.Algebra.Group.Nat.Defs

/-!
# Reading the configuration

`ConfigLoader::load` of `core/src/config.cpp`: the parsers of the sections, `parse_config`, and the
validator at the end. A member of `Config` that nothing else reads is read here all the same, since
it may throw, but its value is not kept.

Ports are read with 32 bits and cast to 16 bits, and the weight of a backend is cast to a signed
number when its entry is made. The validator looks at the ports after the cast, and only asks that
some of them are not zero. So the numbers in use are those written in the document exactly if all of
these are small enough.

## Main definitions

* `DBMesh.ConfigLoader.parseConfig`, `load` — the code
* `DBMesh.ConfigLoader.Exact` — the numbers in use are those written
* `DBMesh.ConfigLoader.InRange` — the numbers written fit into their types

## Main results

* `DBMesh.ConfigLoader.numbers_exact_iff` — when the numbers of an accepted document are in use
-/

namespace DBMesh

structure ClusterConfig where
  port : UInt16 := 7946
  deriving DecidableEq, Repr

structure PrometheusConfig where
  port : UInt16 := 9090
  deriving DecidableEq, Repr

/-- The members of `Config` that are read nowhere else. -/
structure LoadedConfig extends Config where
  admin : ListenerConfig
  cluster : ClusterConfig
  prometheus : PrometheusConfig
  deriving DecidableEq, Repr

namespace ConfigLoader

section Parsers

variable {Node : Type} (y : YamlCpp Node)

/-! ### Enumerations -/

def parseNodeMode : Node → Parse Unit :=
  y.skipOneOf ["standalone", "cluster"] fun s =>
    "invalid node.mode '" ++ s ++ "' (standalone|cluster)"

def parseBackendType : Node → Parse Unit :=
  y.skipOneOf ["mysql", "mariadb", "postgres", "rds-mysql", "rds-mariadb", "rds-postgres"] fun s =>
    "invalid backend type '" ++ s ++ "'"

def parseBackendRole : Node → Parse BackendRole :=
  y.oneOf [("primary", .primary), ("replica", .replica)] fun s =>
    "invalid role '" ++ s ++ "' (primary|replica)"

def parseRecoveryMode : Node → Parse Unit :=
  y.skipOneOf ["STATELESS", "BASIC", "ADVANCED", "STRICT"] fun s =>
    "invalid recovery_mode '" ++ s ++ "' (STATELESS|BASIC|ADVANCED|STRICT)"

def parseAffinityMode : Node → Parse Unit :=
  y.skipOneOf ["NONE", "SCHEMA", "BACKEND", "TRANSACTION"] fun s =>
    "invalid affinity '" ++ s ++ "' (NONE|SCHEMA|BACKEND|TRANSACTION)"

def parseRoutingPolicy : Node → Parse RoutingPolicy :=
  y.oneOf [("round_robin", .roundRobin), ("weighted", .weighted),
    ("least_connections", .leastConnections), ("latency", .latency), ("random", .random),
    ("failover", .failover), ("consistent_hashing", .consistentHashing)] fun s =>
    "invalid routing_policy '" ++ s ++ "'"

def parseFailoverPolicy : Node → Parse Unit :=
  y.skipOneOf ["IMMEDIATE", "GRACEFUL", "MANUAL"] fun s =>
    "invalid failover.policy '" ++ s ++ "' (IMMEDIATE|GRACEFUL|MANUAL)"

/-! ### Sections -/

def parseNode (n : Node) : Parse NodeConfig := do
  let id ← y.field n "id" y.string ""
  y.check n "name" y.string
  y.check n "data_dir" y.string
  y.check n "mode" (parseNodeMode y)
  pure { id := id }

def parsePool (n : Node) : Parse PoolConfig := do
  let min ← y.field n "min" y.uint32 10
  let max ← y.field n "max" y.uint32 100
  let idleTimeoutSec ← y.field n "idle_timeout_sec" y.uint32 60
  let connectTimeoutMs ← y.field n "connect_timeout_ms" y.uint32 2000
  let acquireTimeoutMs ← y.field n "acquire_timeout_ms" y.uint32 5000
  let warm ← y.field n "warm" y.bool true
  pure { min := min, max := max, idleTimeoutSec := idleTimeoutSec,
         connectTimeoutMs := connectTimeoutMs, acquireTimeoutMs := acquireTimeoutMs, warm := warm }

def parseListener (defaultPort : UInt16) (n : Node) : Parse ListenerConfig := do
  let enabled ← y.field n "enabled" y.bool false
  y.check n "bind" y.string
  let port ← y.field n "port" y.uint16 defaultPort
  y.check n "max_connections" y.uint32
  y.check n "backlog" y.uint32
  y.check n "io_threads" y.uint32
  pure { enabled := enabled, port := port }

/-- The three listeners, the last of which is always on. -/
def parseListeners (l : Node) : Parse (ListenersConfig × ListenerConfig) := do
  let mysql ← y.field l "mysql" (parseListener y 3306) { port := 3306 }
  let postgres ← y.field l "postgres" (parseListener y 5432) { port := 5432 }
  let admin ← y.field l "admin" (parseListener y 8080) { port := 8080 }
  pure ({ mysql := mysql, postgres := postgres }, { admin with enabled := true })

def parseTlsEndpoint : Node → Parse Unit :=
  y.checks [("enabled", y.skipBool), ("cert", y.skipString), ("key", y.skipString),
    ("ca", y.skipString), ("mutual", y.skipBool), ("min_version", y.skipString)]

def parseTls : Node → Parse Unit :=
  y.checks [("frontend", parseTlsEndpoint y), ("backend", parseTlsEndpoint y),
    ("backend", y.checks [("verify_server", y.skipBool)])]

/-- The tags, if they are a map; the value is converted before the key. -/
def parseTags (n : Node) : Parse Unit := go (y.entries n)
where
  go : List (Node × Node) → Parse Unit
    | [] => .ok ()
    | (key, value) :: entries => do
      y.skipString value
      y.skipString key
      go entries

def parseBackend (n : Node) : Parse BackendConfig := do
  let id ← y.field n "id" y.string ""
  y.check n "type" (parseBackendType y)
  let host ← y.field n "host" y.string ""
  let port ← y.field n "port" y.uint16 3306
  let role ← y.field n "role" (parseBackendRole y) .primary
  let group ← y.field n "group" y.string ""
  let user ← y.field n "user" y.string ""
  let password ← y.field n "password" y.string ""
  y.check n "secrets_file" y.string
  let weight ← y.field n "weight" y.uint32 100
  let maxReplicationLagMs ← y.field n "max_replication_lag_ms" y.uint32 500
  let pool ← y.field n "pool" (parsePool y) {}
  y.check n "tags" (parseTags y)
  pure { id := id, host := host, port := port, role := role, group := group, user := user,
         password := password, weight := weight, maxReplicationLagMs := maxReplicationLagMs,
         pool := pool }

def parseSchema (n : Node) : Parse SchemaConfig := do
  let name ← y.field n "name" y.string ""
  let backendGroup ← y.field n "backend_group" y.string ""
  let routingPolicy ← y.field n "routing_policy" (fun v => (parseRoutingPolicy y v).map some) none
  y.check n "session_recovery" (parseRecoveryMode y)
  y.check n "session_affinity" (parseAffinityMode y)
  let readWriteSplit ← y.field n "read_write_split" (fun v => (y.bool v).map some) none
  pure { name := name.toList, backendGroup := backendGroup, routingPolicy := routingPolicy,
         readWriteSplit := readWriteSplit }

def parseTenants : Node → Parse Unit :=
  y.checks [("enabled", y.skipBool), ("attribute_key", y.skipString),
    ("mappings", y.skipEach
      (y.checks [("tenant", y.skipString), ("backend_group", y.skipString)]))]

def parseRouting (n : Node) : Parse RoutingConfig := do
  let defaultPolicy ← y.field n "default_policy" (parseRoutingPolicy y) .roundRobin
  let readWriteSplit ← y.field n "read_write_split" y.bool true
  y.check n "send_writes_to_primary" y.bool
  let replicationAware ← y.field n "replication_aware" y.bool true
  let maxReplicaLagMs ← y.field n "max_replica_lag_ms" y.uint32 500
  y.check n "tenants" (parseTenants y)
  pure { defaultPolicy := defaultPolicy, readWriteSplit := readWriteSplit,
         replicationAware := replicationAware, maxReplicaLagMs := maxReplicaLagMs }

def parseSession : Node → Parse Unit :=
  y.checks [("recovery_mode", parseRecoveryMode y), ("affinity", parseAffinityMode y),
    ("max_idle_sec", y.skipUInt32), ("max_lifetime_sec", y.skipUInt32),
    ("per_user", y.skipEach (y.checks [("user", y.skipString),
      ("recovery_mode", parseRecoveryMode y), ("affinity", parseAffinityMode y)]))]

def parseHealthCheck : Node → Parse Unit :=
  y.checks [("interval_ms", y.skipUInt32), ("timeout_ms", y.skipUInt32),
    ("failure_threshold", y.skipUInt32), ("recovery_threshold", y.skipUInt32),
    ("method", y.skipString), ("query", y.skipString)]

def parseFailover : Node → Parse Unit :=
  y.checks [("enabled", y.skipBool), ("policy", parseFailoverPolicy y),
    ("grace_period_ms", y.skipUInt32), ("promotion_enabled", y.skipBool),
    ("promotion_strategy", y.skipString), ("health_check", parseHealthCheck y),
    ("query_recovery", y.checks [("enabled", y.skipBool), ("retry_selects", y.skipBool),
      ("retry_writes", y.skipBool), ("max_retries", y.skipUInt32),
      ("retry_delay_ms", y.skipUInt32), ("retry_backoff", y.skipString)])]

def parseCluster (n : Node) : Parse ClusterConfig := do
  y.check n "enabled" y.bool
  y.check n "bind" y.string
  let port ← y.field n "port" y.uint16 7946
  y.check n "discovery" y.string
  y.check n "seed_dns" y.string
  y.check n "seed_nodes" (y.skipEach y.skipString)
  y.check n "gossip" (y.checks [("interval_ms", y.skipUInt32), ("fanout", y.skipUInt32),
    ("suspicion_mult", y.skipUInt32), ("retransmit_mult", y.skipUInt32),
    ("sync_keys", y.skipEach y.skipString)])
  pure { port := port }

def parseAuth : Node → Parse Unit :=
  y.checks [("method", y.skipString),
    ("local", y.checks [("users_file", y.skipString)]),
    ("ldap", y.checks [("enabled", y.skipBool), ("url", y.skipString),
      ("base_dn", y.skipString), ("bind_dn", y.skipString), ("bind_password", y.skipString),
      ("user_filter", y.skipString), ("group_attribute", y.skipString),
      ("timeout_ms", y.skipUInt32), ("start_tls", y.skipBool)]),
    ("jwt", y.checks [("enabled", y.skipBool), ("algorithm", y.skipString),
      ("public_key", y.skipString), ("secret", y.skipString), ("issuer", y.skipString),
      ("audience", y.skipString), ("leeway_sec", y.skipUInt32)])]

def parseRbac : Node → Parse Unit :=
  y.checks [("enabled", y.skipBool), ("roles_file", y.skipString)]

def parseFirewall : Node → Parse Unit :=
  y.checks [("enabled", y.skipBool), ("default_action", y.skipString),
    ("rules", y.skipEach (y.checks [("name", y.skipString), ("match", y.skipString),
      ("match_regex", y.skipString), ("action", y.skipString), ("message", y.skipString),
      ("schemas", y.skipEach y.skipString), ("users", y.skipEach y.skipString)]))]

/-- The key of an override is the first of three members that is there. -/
def parseOverride (n : Node) : Parse Unit := do
  match ← y.lookup n "user" with
  | some v => y.skipString v
  | none =>
    match ← y.lookup n "schema" with
    | some v => y.skipString v
    | none => y.check n "tenant" y.string
  y.check n "qps" y.uint32

def parseRateLimitDim : Node → Parse Unit :=
  y.checks [("enabled", y.skipBool), ("default_qps", y.skipUInt32),
    ("burst_multiplier", y.skipDouble), ("overrides", y.skipEach (parseOverride y))]

def parseRateLimit : Node → Parse Unit :=
  y.checks [("enabled", y.skipBool), ("per_user", parseRateLimitDim y),
    ("per_ip", parseRateLimitDim y), ("per_schema", parseRateLimitDim y),
    ("per_tenant", parseRateLimitDim y)]

def parseApi (n : Node) : Parse ApiConfig := do
  y.check n "enabled" y.bool
  y.check n "bind" y.string
  let port ← y.field n "port" y.uint16 8080
  y.check n "auth" y.bool
  y.check n "token_file" y.string
  y.check n "ui" (y.checks [("enabled", y.skipBool), ("path", y.skipString)])
  y.check n "cors" (y.checks [("enabled", y.skipBool),
    ("origins", y.skipEach y.skipString)])
  y.check n "max_request_body_kb" y.uint32
  y.check n "request_timeout_ms" y.uint32
  pure { port := port }

def parsePrometheus (n : Node) : Parse PrometheusConfig := do
  y.check n "enabled" y.bool
  y.check n "bind" y.string
  let port ← y.field n "port" y.uint16 9090
  y.check n "path" y.string
  y.check n "auth" y.bool
  pure { port := port }

def parseMetrics (n : Node) : Parse PrometheusConfig := do
  let prometheus ← y.field n "prometheus" (parsePrometheus y) {}
  y.check n "tracing" (y.checks [("enabled", y.skipBool), ("exporter", y.skipString),
    ("endpoint", y.skipString), ("service_name", y.skipString), ("service_version", y.skipString),
    ("sample_rate", y.skipDouble), ("propagation", y.skipString)])
  pure prometheus

def parseLogging : Node → Parse Unit :=
  y.checks [("level", y.skipString), ("format", y.skipString), ("output", y.skipString),
    ("file", y.checks [("path", y.skipString), ("rotate", y.skipBool),
      ("max_size_mb", y.skipUInt32), ("max_backups", y.skipUInt32), ("compress", y.skipBool)]),
    ("audit", y.checks [("enabled", y.skipBool), ("output", y.skipString),
      ("file", y.skipString), ("log_queries", y.skipBool), ("log_connections", y.skipBool),
      ("log_failovers", y.skipBool), ("log_auth", y.skipBool), ("log_config_changes", y.skipBool),
      ("log_firewall_hits", y.skipBool)])]

/-! ### The document -/

def parseConfig (root : Node) : Parse LoadedConfig := do
  let node ← y.field root "node" (parseNode y) { id := "" }
  let listeners ← y.field root "listeners" (parseListeners y)
    ({ mysql := { port := 3306 }, postgres := { port := 5432 } }, { enabled := true, port := 8080 })
  y.check root "tls" (parseTls y)
  let backends ← y.field root "backends" (fun bs => YamlCpp.each (parseBackend y) (y.items bs)) []
  let schemas ← y.field root "schemas" (fun ss => YamlCpp.each (parseSchema y) (y.items ss)) []
  let routing ← y.field root "routing" (parseRouting y) {}
  y.check root "session" (parseSession y)
  y.check root "failover" (parseFailover y)
  let cluster ← y.field root "cluster" (parseCluster y) {}
  y.check root "auth" (parseAuth y)
  y.check root "rbac" (parseRbac y)
  y.check root "firewall" (parseFirewall y)
  y.check root "rate_limit" (parseRateLimit y)
  let api ← y.field root "api" (parseApi y) {}
  let prometheus ← y.field root "metrics" (parseMetrics y) {}
  y.check root "logging" (parseLogging y)
  pure { node := node, listeners := listeners.1, backends := backends, schemas := schemas,
         routing := routing, api := api, admin := listeners.2, cluster := cluster,
         prometheus := prometheus }

/-- `ConfigLoader::load`; `file` is what `YAML::LoadFile` gives or throws, `none` if there is no
such file. -/
def load (path : String) (file : Option (Except String Node)) : Except String LoadedConfig :=
  match file with
  | none => .error ("config file not found: " ++ path)
  | some (.error what) => .error ("YAML parse error: " ++ what)
  | some (.ok root) =>
    match parseConfig y root with
    | .error (.yaml what) => .error ("YAML parse error: " ++ what)
    | .error (.std what) => .error ("config error: " ++ what)
    | .ok cfg =>
      match validate cfg.toConfig with
      | some err => .error err
      | none => .ok cfg

end Parsers

/-! ### The numbers of a document -/

/-- The ports outside the backends: where they are written, and what becomes of them. -/
def ports (cfg : LoadedConfig) : List (List String × UInt16) :=
  [(["listeners", "mysql", "port"], cfg.listeners.mysql.port),
    (["listeners", "postgres", "port"], cfg.listeners.postgres.port),
    (["listeners", "admin", "port"], cfg.admin.port),
    (["cluster", "port"], cfg.cluster.port),
    (["api", "port"], cfg.api.port),
    (["metrics", "prometheus", "port"], cfg.prometheus.port)]

/-- The backends as they are written. -/
def backendNodes {Node : Type} (y : YamlCpp Node) (root : Node) : List Node :=
  ((y.find root "backends").map y.items).getD []

section Numbers

/-! `written` says which integer a node spells, if it spells one. -/

variable {Node : Type} (y : YamlCpp Node) (written : Node → Option Int)

/-- **The numbers in use are those written**: every port, and the weight of every backend as its
entry has it. -/
def Exact (root : Node) (cfg : LoadedConfig) : Prop :=
  (∀ p ∈ ports cfg, ∀ n, y.path p.1 root = some n → written n = some (p.2.toNat : Int)) ∧
    List.Forall₂ (fun node b =>
      (∀ n, y.find node "port" = some n → written n = some (b.port.toNat : Int)) ∧
      ∀ n, y.find node "weight" = some n →
        written n = some (Routing.BackendEntry.ofConfig b).weight)
      (backendNodes y root) cfg.backends

/-- Where ports are written outside the backends. -/
def portPaths : List (List String) :=
  [["listeners", "mysql", "port"], ["listeners", "postgres", "port"],
    ["listeners", "admin", "port"], ["cluster", "port"], ["api", "port"],
    ["metrics", "prometheus", "port"]]

/-- Every port that is written has 16 bits, and every weight 31 bits. -/
def InRange (root : Node) : Prop :=
  (∀ path ∈ portPaths, ∀ n, y.path path root = some n → ∀ k, written n = some k → k < 2 ^ 16) ∧
    ∀ node ∈ backendNodes y root,
      (∀ n, y.find node "port" = some n → ∀ k, written n = some k → k < 2 ^ 16) ∧
      ∀ n, y.find node "weight" = some n → ∀ k, written n = some k → k < 2 ^ 31

end Numbers

variable {Node : Type} {y : YamlCpp Node} {root : Node} {cfg : LoadedConfig}

/-- A port that is written has been read with 32 bits and cast. -/
def PortRead (y : YamlCpp Node) (o : Option Node) (p : UInt16) : Prop :=
  ∀ n, o = some n → ∃ w, y.asUInt32 n = .ok w ∧ p = w.toUInt16

theorem portRead_field {n : Node} {p default : UInt16}
    (h : y.field n "port" y.uint16 default = .ok p) : PortRead y (y.find n "port") p :=
  fun _ hv => Parse.uint16_eq_ok (Parse.read_of_field h hv)

/-- The port of a section that is read in a field. -/
theorem PortRead.under {α : Type} {n : Node} {key : String} {keys : List String}
    {read : Node → Parse α} {default a : α} {f : α → UInt16}
    (h : y.field n key read default = .ok a)
    (hport : ∀ v, read v = .ok a → PortRead y (y.path keys v) (f a)) :
    PortRead y (y.path (key :: keys) n) (f a) := by
  intro v hv
  obtain ⟨v', hv', hpath⟩ := Option.bind_eq_some_iff.mp hv
  exact hport v' (Parse.read_of_field h hv') v hpath

theorem portRead_path {n : Node} {p default : UInt16}
    (h : y.field n "port" y.uint16 default = .ok p) : PortRead y (y.path ["port"] n) p := by
  have hpath : y.path ["port"] n = y.find n "port" := by
    rw [YamlCpp.path]
    cases y.find n "port" <;> rfl
  rw [hpath]
  exact portRead_field h

theorem parseListener_port {n : Node} {d : UInt16} {l : ListenerConfig}
    (h : parseListener y d n = .ok l) : PortRead y (y.path ["port"] n) l.port := by
  simp only [parseListener, Parse.bind_eq_ok] at h
  obtain ⟨enabled, -, -, -, port, hport, -, -, -, -, -, -, h⟩ := h
  obtain rfl := Except.ok.inj h
  exact portRead_path hport

theorem parseListeners_ports {n : Node} {l : ListenersConfig × ListenerConfig}
    (h : parseListeners y n = .ok l) :
    PortRead y (y.path ["mysql", "port"] n) l.1.mysql.port ∧
      PortRead y (y.path ["postgres", "port"] n) l.1.postgres.port ∧
      PortRead y (y.path ["admin", "port"] n) l.2.port := by
  simp only [parseListeners, Parse.bind_eq_ok] at h
  obtain ⟨mysql, hmysql, postgres, hpostgres, admin, hadmin, h⟩ := h
  obtain rfl := Except.ok.inj h
  have hadmin' : PortRead y (y.path ["admin", "port"] n) admin.port :=
    .under (f := ListenerConfig.port) hadmin fun _ => parseListener_port
  exact ⟨.under (f := ListenerConfig.port) hmysql fun _ => parseListener_port,
    .under (f := ListenerConfig.port) hpostgres fun _ => parseListener_port, hadmin'⟩

theorem parseCluster_port {n : Node} {c : ClusterConfig} (h : parseCluster y n = .ok c) :
    PortRead y (y.path ["port"] n) c.port := by
  simp only [parseCluster, Parse.bind_eq_ok] at h
  obtain ⟨-, -, -, -, port, hport, -, -, -, -, -, -, -, -, h⟩ := h
  obtain rfl := Except.ok.inj h
  exact portRead_path hport

theorem parseApi_port {n : Node} {a : ApiConfig} (h : parseApi y n = .ok a) :
    PortRead y (y.path ["port"] n) a.port := by
  simp only [parseApi, Parse.bind_eq_ok] at h
  obtain ⟨-, -, -, -, port, hport, -, -, -, -, -, -, -, -, -, -, -, -, h⟩ := h
  obtain rfl := Except.ok.inj h
  exact portRead_path hport

theorem parsePrometheus_port {n : Node} {p : PrometheusConfig} (h : parsePrometheus y n = .ok p) :
    PortRead y (y.path ["port"] n) p.port := by
  simp only [parsePrometheus, Parse.bind_eq_ok] at h
  obtain ⟨-, -, -, -, port, hport, -, -, -, -, h⟩ := h
  obtain rfl := Except.ok.inj h
  exact portRead_path hport

theorem parseMetrics_port {n : Node} {p : PrometheusConfig} (h : parseMetrics y n = .ok p) :
    PortRead y (y.path ["prometheus", "port"] n) p.port := by
  simp only [parseMetrics, Parse.bind_eq_ok] at h
  obtain ⟨prometheus, hprometheus, -, -, h⟩ := h
  obtain rfl := Except.ok.inj h
  exact .under (f := PrometheusConfig.port) hprometheus fun _ => parsePrometheus_port

/-- The numbers of a backend. -/
def BackendRead (y : YamlCpp Node) (n : Node) (b : BackendConfig) : Prop :=
  PortRead y (y.find n "port") b.port ∧
    ∀ v, y.find n "weight" = some v → y.asUInt32 v = .ok b.weight

theorem parseBackend_read {n : Node} {b : BackendConfig} (h : parseBackend y n = .ok b) :
    BackendRead y n b := by
  simp only [parseBackend, Parse.bind_eq_ok] at h
  obtain ⟨id, -, -, -, host, -, port, hport, role, -, group, -, user, -, password, -, -, -, weight,
    hweight, lag, -, pool, -, -, -, h⟩ := h
  obtain rfl := Except.ok.inj h
  refine ⟨portRead_field hport, fun v hv => ?_⟩
  have hread : y.uint32 v = .ok weight := Parse.read_of_field hweight hv
  exact Parse.mapError_eq_ok hread

/-- **What has been read from a document.** -/
theorem parseConfig_read (h : parseConfig y root = .ok cfg) :
    (∀ p ∈ ports cfg, PortRead y (y.path p.1 root) p.2) ∧
      List.Forall₂ (BackendRead y) (backendNodes y root) cfg.backends := by
  simp only [parseConfig, Parse.bind_eq_ok] at h
  obtain ⟨node, -, listeners, hlisteners, -, -, backends, hbackends, schemas, -, routing, -, -, -,
    -, -, cluster, hcluster, -, -, -, -, -, -, -, -, api, hapi, prometheus, hprometheus, -, -,
    h⟩ := h
  obtain rfl := Except.ok.inj h
  constructor
  · have hmysql : PortRead y (y.path ["listeners", "mysql", "port"] root) listeners.1.mysql.port :=
      .under (f := fun l => l.1.mysql.port) hlisteners fun _ h => (parseListeners_ports h).1
    have hpostgres : PortRead y (y.path ["listeners", "postgres", "port"] root)
        listeners.1.postgres.port :=
      .under (f := fun l => l.1.postgres.port) hlisteners
        fun _ h => (parseListeners_ports h).2.1
    have hadmin : PortRead y (y.path ["listeners", "admin", "port"] root) listeners.2.port :=
      .under (f := fun l => l.2.port) hlisteners fun _ h => (parseListeners_ports h).2.2
    have hcluster' : PortRead y (y.path ["cluster", "port"] root) cluster.port :=
      .under (f := ClusterConfig.port) hcluster fun _ => parseCluster_port
    have hapi' : PortRead y (y.path ["api", "port"] root) api.port :=
      .under (f := ApiConfig.port) hapi fun _ => parseApi_port
    have hprometheus' : PortRead y (y.path ["metrics", "prometheus", "port"] root)
        prometheus.port :=
      .under (f := PrometheusConfig.port) hprometheus fun _ => parseMetrics_port
    simp only [ports, List.forall_mem_cons, List.not_mem_nil, false_imp_iff, implies_true,
      and_true]
    exact ⟨hmysql, hpostgres, hadmin, hcluster', hapi', hprometheus'⟩
  · obtain ⟨hnone, rfl⟩ | ⟨bs, hbs, hread⟩ := Parse.field_eq_ok hbackends
    · rw [backendNodes, hnone]
      exact .nil
    · rw [backendNodes, hbs]
      exact (Parse.each_eq_ok hread).imp fun _ _ => parseBackend_read

/-! ### When the numbers are those written -/

theorem toNat_toUInt16_eq_iff (w : UInt32) : (w.toUInt16.toNat : Int) = w.toNat ↔
    (w.toNat : Int) < 2 ^ 16 := by
  rw [UInt32.toNat_toUInt16]
  omega

theorem toInt_toBitVec_eq_iff (w : UInt32) : w.toBitVec.toInt = (w.toNat : Int) ↔
    (w.toNat : Int) < 2 ^ 31 := by
  have hlt := w.toNat_lt
  rw [BitVec.toInt_eq_toNat_cond]
  show (if 2 * w.toNat < 2 ^ 32 then (w.toNat : Int) else (w.toNat : Int) - (2 ^ 32 : ℕ)) = _ ↔ _
  split
  · omega
  · omega

section

variable {written : Node → Option Int}
  (hexact : ∀ n w, y.asUInt32 n = .ok w → written n = some (w.toNat : Int))

include hexact

/-- A port that has been read is the one written if that has 16 bits. -/
theorem PortRead.exact_iff {o : Option Node} {p : UInt16} (h : PortRead y o p) :
    (∀ n, o = some n → written n = some (p.toNat : Int)) ↔
      ∀ n, o = some n → ∀ k, written n = some k → k < 2 ^ 16 := by
  refine forall_congr' fun n => forall_congr' fun hn => ?_
  obtain ⟨w, hw, rfl⟩ := h n hn
  rw [hexact n w hw, Option.some.injEq, eq_comm, toNat_toUInt16_eq_iff]
  simp only [Option.some.injEq, forall_eq']

/-- The numbers of a backend likewise; the weight has 31 bits. -/
theorem BackendRead.exact_iff {node : Node} {b : BackendConfig} (h : BackendRead y node b) :
    ((∀ n, y.find node "port" = some n → written n = some (b.port.toNat : Int)) ∧
      ∀ n, y.find node "weight" = some n →
        written n = some (Routing.BackendEntry.ofConfig b).weight) ↔
    (∀ n, y.find node "port" = some n → ∀ k, written n = some k → k < 2 ^ 16) ∧
      ∀ n, y.find node "weight" = some n → ∀ k, written n = some k → k < 2 ^ 31 := by
  refine and_congr (h.1.exact_iff hexact) ?_
  refine forall_congr' fun n => forall_congr' fun hn => ?_
  rw [hexact n b.weight (h.2 n hn), Option.some.injEq, eq_comm]
  simp only [Option.some.injEq, forall_eq']
  exact toInt_toBitVec_eq_iff b.weight

end

theorem forall₂_iff_of_forall₂ {α β : Type} {R S : α → β → Prop} {I : α → Prop} {xs : List α}
    {bs : List β} (h : List.Forall₂ R xs bs) (hiff : ∀ x b, R x b → (S x b ↔ I x)) :
    List.Forall₂ S xs bs ↔ ∀ x ∈ xs, I x := by
  induction h with
  | nil => exact iff_of_true .nil fun _ hx => absurd hx List.not_mem_nil
  | @cons x b xs bs hR _ ih =>
    rw [List.forall₂_cons, List.forall_mem_cons, hiff x b hR, ih]

/-- **When the numbers of an accepted document are in use.** Where a conversion to 32 bits gives the
integer that is written, or throws, every port in the configuration is the one written and every
weight in a backend's entry too, exactly if the ports have 16 bits and the weights 31. -/
theorem numbers_exact_iff {Node : Type} (y : YamlCpp Node) (written : Node → Option Int)
    (hexact : ∀ n w, y.asUInt32 n = .ok w → written n = some (w.toNat : Int)) (path : String)
    (root : Node) (cfg : LoadedConfig) (h : load y path (some (.ok root)) = .ok cfg) :
    Exact y written root cfg ↔ InRange y written root := by
  have hparse : parseConfig y root = .ok cfg := by
    rw [load] at h
    cases hp : parseConfig y root with
    | error e =>
      rw [hp] at h
      cases e with
      | yaml what => exact absurd h nofun
      | std what => exact absurd h nofun
    | ok cfg' =>
      rw [hp] at h
      dsimp only at h
      split at h
      · exact absurd h nofun
      · exact congrArg Except.ok (Except.ok.inj h)
  obtain ⟨hports, hbackends⟩ := parseConfig_read hparse
  have hpaths : portPaths = (ports cfg).map Prod.fst := rfl
  rw [Exact, InRange, hpaths, List.forall_mem_map]
  refine and_congr (forall₂_congr fun p hp => (hports p hp).exact_iff hexact) ?_
  exact forall₂_iff_of_forall₂ hbackends fun _ _ hread => hread.exact_iff hexact

/-- The number that decimal digits spell. -/
def decimal (text : String) : Option ℕ :=
  if text.toList ≠ [] ∧ text.toList.all Char.isDigit then
    some (text.toList.foldl (fun n c => 10 * n + (c.toNat - 48)) 0)
  else none

/-- The nodes of a plain document. The keys of a map are nodes. -/
inductive Yaml
  | null
  | scalar (text : String)
  | seq (items : List Yaml)
  | map (entries : List (Yaml × Yaml))

def Yaml.isKey (key : String) : Yaml → Bool
  | .scalar text => text == key
  | _ => false

/-- Plain documents as the library takes them: decimal numbers, `true` and `false`, and any text. -/
def plainScalars : YamlCpp Yaml where
  asUInt32
    | .scalar text =>
      match decimal text with
      | some k => if k < 2 ^ 32 then .ok (.ofNat k) else .error "bad conversion"
      | none => .error "bad conversion"
    | _ => .error "bad conversion"
  asBool
    | .scalar "true" => .ok true
    | .scalar "false" => .ok false
    | _ => .error "bad conversion"
  asString
    | .scalar text => .ok text
    | _ => .error "bad conversion"
  asDouble
    | .scalar _ => .ok ()
    | _ => .error "bad conversion"
  get n key :=
    match n with
    | .scalar _ => .error ("operator[] call on a scalar (key: \"" ++ key ++ "\")")
    | .map entries => .ok ((entries.find? fun e => e.1.isKey key).map Prod.snd)
    | _ => .ok none
  items
    | .seq xs => xs
    | _ => []
  entries
    | .map entries => entries
    | _ => []

def plainNumber : Yaml → Option Int
  | .scalar text => (decimal text).map Nat.cast
  | _ => none

theorem plainNumber_exact (n : Yaml) (w : UInt32) (h : plainScalars.asUInt32 n = .ok w) :
    plainNumber n = some (w.toNat : Int) := by
  cases n with
  | scalar text =>
    show (decimal text).map Nat.cast = some (w.toNat : Int)
    change (match decimal text with
      | some k => if k < 2 ^ 32 then .ok (UInt32.ofNat k) else .error "bad conversion"
      | none => .error "bad conversion" : Except String UInt32) = .ok w at h
    cases hk : decimal text with
    | none =>
      rw [hk] at h
      exact absurd h nofun
    | some k =>
      rw [hk] at h
      dsimp only at h
      split at h
      · next hlt =>
        obtain rfl := Except.ok.inj h
        rw [Option.map_some, UInt32.toNat_ofNat_of_lt' hlt]
      · exact absurd h nofun
  | _ => exact absurd h nofun

/-- A backend with its port and its weight as given. -/
def backendNode (port weight : String) : Yaml :=
  .map [(.scalar "id", .scalar "b1"), (.scalar "host", .scalar "db"),
    (.scalar "port", .scalar port), (.scalar "group", .scalar "g"),
    (.scalar "weight", .scalar weight)]

/-- A document with that backend. -/
def oneBackend (port weight : String) : Yaml :=
  .map [(.scalar "node", .map [(.scalar "id", .scalar "n1")]),
    (.scalar "backends", .seq [backendNode port weight])]

/-- The configuration that a document with one backend gives. -/
def oneBackendConfig (port : UInt16) (weight : UInt32) : LoadedConfig where
  node := { id := "n1" }
  listeners := { mysql := { port := 3306 }, postgres := { port := 5432 } }
  backends := [{ id := "b1", host := "db", port := port, group := "g", weight := weight }]
  admin := { enabled := true, port := 8080 }
  cluster := {}
  prometheus := {}

/-- A port and a weight that fit. -/
theorem numbers_exact_small :
    Exact plainScalars plainNumber (oneBackend "3306" "70") (oneBackendConfig 3306 70) := by
  refine (numbers_exact_iff plainScalars plainNumber plainNumber_exact "dbmesh.yaml"
    (oneBackend "3306" "70") _ (by decide +kernel)).mpr ⟨fun path hpath n hn => ?_, ?_⟩
  · have hnone : ∀ path ∈ portPaths,
        (plainScalars.path path (oneBackend "3306" "70")).isSome = false := by
      decide +kernel
    have hsome := hnone path hpath
    rw [hn] at hsome
    exact absurd hsome nofun
  · have hnodes : backendNodes plainScalars (oneBackend "3306" "70") =
        [backendNode "3306" "70"] := rfl
    have hport : (plainScalars.find (backendNode "3306" "70") "port").bind plainNumber =
        some 3306 := by
      decide +kernel
    have hweight : (plainScalars.find (backendNode "3306" "70") "weight").bind plainNumber =
        some 70 := by
      decide +kernel
    rw [hnodes, List.forall_mem_singleton]
    constructor
    · intro n hn k hk
      rw [hn, Option.bind_some, hk] at hport
      rw [Option.some.inj hport]
      decide
    · intro n hn k hk
      rw [hn, Option.bind_some, hk] at hweight
      rw [Option.some.inj hweight]
      decide

/-- Port 68842 is accepted as port 3306, and a weight of 4294967295 counts as -1. -/
theorem numbers_wrap :
    load plainScalars "dbmesh.yaml" (some (.ok (oneBackend "68842" "4294967295"))) =
      .ok (oneBackendConfig 3306 4294967295) ∧
    (Routing.BackendEntry.ofConfig { id := "b1", group := "g", weight := 4294967295 }).weight =
      -1 ∧
    ¬ Exact plainScalars plainNumber (oneBackend "68842" "4294967295")
      (oneBackendConfig 3306 4294967295) := by
  refine ⟨by decide +kernel, by decide +kernel, fun h => ?_⟩
  have hport : (plainScalars.find (backendNode "68842" "4294967295") "port").bind plainNumber =
      some 68842 := by
    decide +kernel
  obtain ⟨n, hn, hwritten⟩ := Option.bind_eq_some_iff.mp hport
  have hexact := (List.forall₂_cons.mp h.2).1.1 n hn
  rw [hwritten] at hexact
  exact absurd hexact (by decide)

end ConfigLoader

end DBMesh
