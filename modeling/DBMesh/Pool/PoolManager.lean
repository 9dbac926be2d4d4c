import DBMesh.Core.Config
import DBMesh.Lib.Emplace

/-!
# The pool manager

`pool/src/pool_manager.cpp`: one pool for each backend id, made at the start of the application from
the backend's configuration and a factory that connects to it. The factory is
`BackendConnector::make_factory`, a closure that holds a copy of the configuration it was made from;
`connect` takes host, port, user and password out of that copy.

## Main results

* `DBMesh.Pool.getPool_createPools` — the pool of an id is made from the first backend that has it
-/

namespace DBMesh.Pool

/-- What the closure that `make_factory` returns has captured. -/
structure Factory where
  backend : BackendConfig
  deriving DecidableEq, Repr

def makeFactory (backend : BackendConfig) : Factory := ⟨backend⟩

/-- A `ConnectionPool` as constructed. Its state is that of `Pool.initial`, with a reaper
started. -/
structure ConnectionPool where
  backendId : BackendID
  config : DBMesh.PoolConfig
  factory : Factory
  deriving DecidableEq, Repr

structure PoolManager where
  pools : AList fun _ : BackendID => ConnectionPool := ∅

/-- A second pool for an id is not made. -/
def PoolManager.createPoolWithFactory (m : PoolManager) (backend : BackendConfig)
    (factory : Factory) : PoolManager :=
  if backend.id ∈ m.pools then m
  else { m with pools := m.pools.insert backend.id ⟨backend.id, backend.pool, factory⟩ }

def PoolManager.getPool (m : PoolManager) (id : BackendID) : Option ConnectionPool :=
  m.pools.lookup id

/-- The pool that belongs to a backend's configuration. -/
def poolOf (backend : BackendConfig) : ConnectionPool :=
  ⟨backend.id, backend.pool, makeFactory backend⟩

/-- The loop of `start_subsystems` over the backends. -/
def PoolManager.createPools (m : PoolManager) (backends : List BackendConfig) : PoolManager :=
  backends.foldl (fun m b => m.createPoolWithFactory b (makeFactory b)) m

theorem pools_createPools (m : PoolManager) (backends : List BackendConfig) :
    (m.createPools backends).pools =
      backends.foldl (fun ps b => Emplace.emplace ps b.id (poolOf b)) m.pools := by
  induction backends generalizing m with
  | nil => rfl
  | cons b bs ih =>
    rw [PoolManager.createPools, List.foldl_cons, List.foldl_cons]
    have hcreate : (m.createPoolWithFactory b (makeFactory b)).pools =
        Emplace.emplace m.pools b.id (poolOf b) := by
      rw [PoolManager.createPoolWithFactory, Emplace.emplace]
      split <;> rfl
    rw [← hcreate]
    exact ih _

/-- **The pool of an id is made from the first backend that has it.** -/
theorem getPool_createPools (backends : List BackendConfig) (id : BackendID) :
    (({} : PoolManager).createPools backends).getPool id =
      (backends.find? fun b => b.id = id).map poolOf := by
  rw [PoolManager.getPool, pools_createPools, Emplace.lookup_foldl_emplace, AList.lookup_empty,
    Option.none_or]

end DBMesh.Pool
