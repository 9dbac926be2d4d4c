import DBMesh.Core.ConfigLoader
import DBMesh.Pool.PoolManager
import DBMesh.Routing.RoutingEngine

/-!
# The start of the application

`Application::start_subsystems` of `core/src/application.cpp` fills three stores from one
configuration: the schemas, the backends and their pools. They are filled by loops of their own and
consulted by different layers later: a plan names a backend out of the registry, and the session
then asks the pool manager for that id.

## Main definitions

* `DBMesh.Application.startSubsystems` — the three stores and the engine
* `DBMesh.Application.BuiltFrom` — an entry of the registry comes from a backend's configuration
* `DBMesh.Application.Routable` — a configured schema has a backend for a piece of work

## Main results

* `DBMesh.Application.plannable_has_pool` — every backend that can be planned has its pool
* `DBMesh.Application.plan_start_iff` — which work it can route in a context, whatever the signals
* `DBMesh.Application.plan_accepted_iff` — which work an accepted configuration can route
-/

namespace DBMesh.Application

open Routing Pool

/-- What `start_subsystems` makes. -/
structure Subsystems where
  engine : RoutingEngine
  backends : BackendRegistry
  pools : PoolManager

/-- The registry leaves the order in which its map iterates open, so it is given. -/
def startSubsystems (config : Config) (order : List BackendID) : Subsystems where
  engine :=
    { schemas := ({} : SchemaRegistry).load config.schemas
      selector := { defaults := config.routing }
      routing := config.routing }
  backends := ({} : BackendRegistry).load config.backends order
  pools := ({} : PoolManager).createPools config.backends

/-- The order is one in which the map of the backends can iterate. -/
def LoadOrder (config : Config) (order : List BackendID) : Prop :=
  Iterates order (({} : BackendRegistry).loadLoop ∅ config.backends).2

instance (config : Config) (order : List BackendID) : Decidable (LoadOrder config order) :=
  inferInstanceAs (Decidable (Iterates _ _))

/-- The first backend of a configuration with an id. -/
def firstWith (config : Config) (id : BackendID) : Option BackendConfig :=
  config.backends.find? fun b => b.id = id

theorem mem_of_firstWith {config : Config} {id : BackendID} {b : BackendConfig}
    (h : firstWith config id = some b) : b ∈ config.backends ∧ b.id = id :=
  ⟨List.mem_of_find?_eq_some h, by simpa using List.find?_some h⟩

variable {config : Config} {order : List BackendID} {reg reg' : BackendRegistry} {id : BackendID}

/-! ### The registry after the start -/

theorem map_heap_makeShared {byId : ById} (hk : Keyed reg.heap reg.next byId) (b : BackendConfig)
    (id : BackendID) :
    (byId.lookup id).map (reg.makeShared b).heap = (byId.lookup id).map reg.heap :=
  Option.map_congr fun r hr => BackendRegistry.heap_makeShared b (hk id r hr).2

/-- The loop of `load` keeps the entry of an id that has one, and makes it from the first backend
otherwise. -/
theorem entry_loadLoop (bs : List BackendConfig) {reg : BackendRegistry} {byId : ById}
    (hk : Keyed reg.heap reg.next byId) (id : BackendID) :
    ((reg.loadLoop byId bs).2.lookup id).map (reg.loadLoop byId bs).1.heap =
      ((byId.lookup id).map reg.heap).or
        ((bs.find? fun b => b.id = id).map BackendEntry.ofConfig) := by
  induction bs generalizing reg byId with
  | nil => exact Option.or_none.symm
  | cons b bs ih =>
    rw [BackendRegistry.loadLoop]
    split
    case isTrue hmem =>
      rw [ih (BackendRegistry.keyed_makeShared hk b), map_heap_makeShared hk b]
      rcases eq_or_ne id b.id with rfl | hid
      · obtain ⟨r, hr⟩ := Option.isSome_iff_exists.mp (AList.lookup_isSome.mpr hmem)
        rw [hr]
        rfl
      · rw [List.find?_cons_of_neg (by simpa using hid.symm)]
    case isFalse hmem =>
      rw [ih (BackendRegistry.keyed_insert hk b)]
      rcases eq_or_ne id b.id with rfl | hid
      · rw [AList.lookup_insert, AList.lookup_eq_none.mpr hmem, List.find?_cons_of_pos (by simp)]
        show some ((reg.makeShared b).heap reg.next) = some (BackendEntry.ofConfig b)
        exact congrArg some (Function.update_self ..)
      · rw [AList.lookup_insert_ne hid, map_heap_makeShared hk b,
          List.find?_cons_of_neg (by simpa using hid.symm)]

/-- Every id has the entry of the first backend with it. -/
theorem entry_start (config : Config) (order : List BackendID) (id : BackendID) :
    (startSubsystems config order).backends.entry id =
      (firstWith config id).map BackendEntry.ofConfig := by
  refine (entry_loadLoop config.backends (BackendRegistry.keyed_empty _ _) id).trans ?_
  rw [AList.lookup_empty, Option.map_none, Option.none_or, firstWith]

/-- Every id has the pool of the first backend with it. -/
theorem getPool_start (config : Config) (order : List BackendID) (id : BackendID) :
    (startSubsystems config order).pools.getPool id = (firstWith config id).map poolOf :=
  getPool_createPools config.backends id

theorem mem_byId_start :
    id ∈ (startSubsystems config order).backends.current.byId ↔ (firstWith config id).isSome := by
  rw [← AList.lookup_isSome, ← Option.isSome_map (f := BackendEntry.ofConfig),
    ← entry_start config order, BackendRegistry.entry, Option.isSome_map]
  rfl

theorem mem_pools_start :
    id ∈ (startSubsystems config order).pools.pools ↔ (firstWith config id).isSome := by
  rw [← AList.lookup_isSome, ← Option.isSome_map (f := poolOf), ← getPool_start config order]
  rfl

theorem inv_start (ho : LoadOrder config order) : (startSubsystems config order).backends.Inv := by
  have hstep : BackendRegistry.step {} (.load config.backends order) =
      some (startSubsystems config order).backends := if_pos ho
  exact BackendRegistry.inv_initial.step hstep

/-! ### Updates of the registry -/

/-- The operations that write into entries. -/
def IsUpdate : RegistryOp → Prop
  | .updateState _ _ | .updateRole _ _ | .updateLag _ _ => True
  | .load _ _ | .add _ _ | .remove _ _ => False

instance : DecidablePred IsUpdate
  | .updateState _ _ | .updateRole _ _ | .updateLag _ _ => isTrue trivial
  | .load _ _ | .add _ _ | .remove _ _ => isFalse False.elim

/-- The entry was made from the configuration and has been updated since at most. -/
def BuiltFrom (b : BackendConfig) (e : BackendEntry) : Prop :=
  e = { BackendEntry.ofConfig b with
    role := e.role, state := e.state, replicationLagMs := e.replicationLagMs }

/-- The ids of the configuration have entries that were made from the first backend with that id,
and no other ids have entries. -/
structure Stands (config : Config) (reg : BackendRegistry) : Prop where
  built : ∀ id b, firstWith config id = some b → ∃ e, reg.entry id = some e ∧ BuiltFrom b e
  none : ∀ id, firstWith config id = none → reg.entry id = none

theorem stands_start (config : Config) (order : List BackendID) :
    Stands config (startSubsystems config order).backends where
  built id b hb := by
    rw [entry_start, hb]
    exact ⟨_, rfl, rfl⟩
  none id hid := by
    rw [entry_start, hid]
    rfl

/-- Every entry comes from a backend. -/
theorem Stands.exists_builtFrom (h : Stands config reg) {e : BackendEntry}
    (he : reg.entry id = some e) : ∃ b, firstWith config id = some b ∧ BuiltFrom b e := by
  cases hb : firstWith config id with
  | none => exact absurd ((h.none id hb).symm.trans he) nofun
  | some b =>
    obtain ⟨e', he', hbuilt⟩ := h.built id b hb
    obtain rfl : e' = e := Option.some.inj (he'.symm.trans he)
    exact ⟨b, rfl, hbuilt⟩

theorem entry_modify_self (f : BackendEntry → BackendEntry) :
    (reg.modify id f).entry id = (reg.entry id).map f := by
  rw [BackendRegistry.modify]
  cases hr : reg.get id with
  | none =>
    show reg.entry id = (reg.entry id).map f
    rw [BackendRegistry.entry, hr]
    rfl
  | some r =>
    show (reg.get id).map (Function.update reg.heap r (f (reg.heap r))) =
      ((reg.get id).map reg.heap).map f
    rw [hr]
    exact congrArg some (Function.update_self ..)

theorem entry_bump (id' : BackendID) : (reg.bump id).entry id' = reg.entry id' := by
  rw [BackendRegistry.bump]
  split <;> rfl

/-- Writing members that `BuiltFrom` leaves open, in one entry. -/
theorem Stands.write (h : Stands config reg) {f : BackendEntry → BackendEntry}
    (hf : ∀ b e, BuiltFrom b e → BuiltFrom b (f e)) (hself : reg'.entry id = (reg.entry id).map f)
    (hframe : ∀ id', id' ≠ id → reg'.entry id' = reg.entry id') : Stands config reg' where
  built id' b hb := by
    obtain ⟨e, he, hbuilt⟩ := h.built id' b hb
    rcases eq_or_ne id' id with rfl | hne
    · rw [hself, he]
      exact ⟨f e, rfl, hf b e hbuilt⟩
    · rw [hframe id' hne]
      exact ⟨e, he, hbuilt⟩
  none id' hnone := by
    rcases eq_or_ne id' id with rfl | hne
    · rw [hself, h.none id' hnone]
      rfl
    · rw [hframe id' hne]
      exact h.none id' hnone

/-- An update writes the state, the role or the lag of one entry. -/
theorem Stands.step (h : Stands config reg) (I : reg.Inv) {op : RegistryOp} (hop : IsUpdate op)
    (hs : reg.step op = some reg') : Stands config reg' := by
  have hframe : ∀ id, op.target = some id → ∀ id', id' ≠ id → reg'.entry id' = reg.entry id' := by
    intro id ht id' hne
    refine I.entry_step hs ⟨by rw [ht]; exact Option.some_ne_none id, fun heq => hne ?_⟩
    exact Option.some.inj (heq.symm.trans ht)
  cases op with
  | updateState id state =>
    refine h.write (f := fun e => { e with state := state }) (fun b e hb => ?_) ?_ (hframe id rfl)
    · rw [BuiltFrom, hb]
    · obtain rfl := Option.some.inj hs
      exact (entry_bump id).trans (entry_modify_self _)
  | updateRole id role =>
    refine h.write (f := fun e => { e with role := role }) (fun b e hb => ?_) ?_ (hframe id rfl)
    · rw [BuiltFrom, hb]
    · obtain rfl := Option.some.inj hs
      exact (entry_bump id).trans (entry_modify_self _)
  | updateLag id lagMs =>
    refine h.write (f := fun e => { e with replicationLagMs := lagMs }) (fun b e hb => ?_) ?_
      (hframe id rfl)
    · rw [BuiltFrom, hb]
    · obtain rfl := Option.some.inj hs
      exact entry_modify_self _
  | load _ _ | add _ _ | remove _ _ => exact hop.elim

/-- **After any updates** every entry is still the one of its first backend. -/
theorem stands_run {ops : List RegistryOp} (h : Stands config reg) (I : reg.Inv)
    (hops : ∀ op ∈ ops, IsUpdate op)
    (hr : Transition.run BackendRegistry.step reg ops = some reg') :
    Stands config reg' ∧ reg'.Inv := by
  have hok : Transition.Along BackendRegistry.step (fun _ op => IsUpdate op) reg ops :=
    .of_forall_mem fun op hop _ => hops op hop
  have hstep : ∀ (r : BackendRegistry) (op : RegistryOp) (r' : BackendRegistry),
      (Stands config r ∧ r.Inv) → IsUpdate op → r.step op = some r' →
        Stands config r' ∧ r'.Inv :=
    fun r op r' hr hop hs => ⟨hr.1.step hr.2 hop hs, hr.2.step hs⟩
  exact Transition.invariant_run hstep ⟨h, I⟩ hok hr

/-! ### Pools of planned backends -/

/-- **Every plannable backend has its pool.** The registry and the pool manager know the same ids,
and the entry and the pool of an id were made from the same backend of the configuration. After any
updates of the registry, a plan for a session without a pin names an id whose pool the pool manager
finds: the one of the backend that the entry comes from. -/
theorem plannable_has_pool (config : Config) (order : List BackendID)
    (ho : LoadOrder config order) :
    let app := startSubsystems config order
    (∀ id, id ∈ app.backends.current.byId ↔ id ∈ app.pools.pools) ∧
    (∀ id ∈ app.backends.current.byId, ∃ b ∈ config.backends, b.id = id ∧
      app.backends.entry id = some (.ofConfig b) ∧ app.pools.getPool id = some (poolOf b)) ∧
    ∀ ops reg, (∀ op ∈ ops, IsUpdate op) →
      Transition.run BackendRegistry.step app.backends ops = some reg →
      ∀ (eng : RoutingEngine) sql (session : SessionView) ctx draw plan,
        session.pinnedBackend = none → (eng.plan reg sql session ctx draw).1 = .ok plan →
        ∃ b ∈ config.backends, b.id = plan.backendId ∧
          app.pools.getPool plan.backendId = some (poolOf b) ∧
          ∃ e, reg.entry plan.backendId = some e ∧ BuiltFrom b e := by
  intro app
  refine ⟨fun id => mem_byId_start.trans mem_pools_start.symm, fun id hid => ?_, ?_⟩
  · obtain ⟨b, hb⟩ := Option.isSome_iff_exists.mp (mem_byId_start.mp hid)
    obtain ⟨hmem, hbid⟩ := mem_of_firstWith hb
    refine ⟨b, hmem, hbid, ?_, ?_⟩
    · rw [entry_start, hb]
      rfl
    · rw [getPool_start, hb]
      rfl
  · intro ops reg hops hr eng sql session ctx draw plan hpin hplan
    obtain ⟨hstands, I⟩ := stands_run (stands_start config order) (inv_start ho) hops hr
    obtain ⟨schema, -, -, ⟨hp, -⟩ | hselect⟩ := plan_eq_ok hplan
    · exact absurd (hpin.symm.trans hp) nofun
    · obtain ⟨e, he, hid⟩ := BackendSelector.select_eq_ok hselect
      have hentry : reg.entry plan.backendId = some e :=
        hid ▸ ((I.mem_candidates eng.selector).mp he).entry
      obtain ⟨b, hb, hbuilt⟩ := hstands.exists_builtFrom hentry
      obtain ⟨hmem, hbid⟩ := mem_of_firstWith hb
      refine ⟨b, hmem, hbid, ?_, e, hentry, hbuilt⟩
      rw [getPool_start, hb]
      rfl

/-- Two backends with one id: the registry and the pool manager keep the first. -/
def doubled : Config where
  node := { id := "n" }
  backends := [{ id := "a", host := "h1", group := "g" }, { id := "a", host := "h2", group := "g" }]
  schemas := [{ name := "s".toList, backendGroup := "g" }]

theorem plannable_has_pool_doubled : ∃ reg plan b,
    Transition.run BackendRegistry.step (startSubsystems doubled ["a"]).backends
      [.updateState "a" .degraded] = some reg ∧
    ((startSubsystems doubled ["a"]).engine.plan reg "SELECT 1".toList
      { currentSchema := "s".toList } {} 0).1 = .ok plan ∧
    b ∈ doubled.backends ∧ (startSubsystems doubled ["a"]).pools.getPool plan.backendId =
      some (poolOf b) := by
  obtain ⟨-, -, hplan⟩ := plannable_has_pool doubled ["a"] (by decide +kernel)
  obtain ⟨b, hb, -, hpool, -⟩ := hplan [.updateState "a" .degraded] _ (by decide) rfl
    (startSubsystems doubled ["a"]).engine "SELECT 1".toList { currentSchema := "s".toList } {} 0
    ⟨.select, "s".toList, "a", .replica⟩ rfl (by decide +kernel)
  exact ⟨_, _, b, rfl, by decide +kernel, hb, hpool⟩

/-! ### What an accepted configuration can route -/

/-- The backends that work for a schema may go to: of its group, the primaries, or for work that is
bound for a replica the replicas, if there are any. -/
structure MayServe (config : Config) (schema : SchemaConfig) (read : Prop) (b : BackendConfig) :
    Prop where
  mem : b ∈ config.backends
  inGroup : b.group = schema.backendGroup
  hasRole : b.role = .replica ∧ read ∨ b.role = .primary ∧
    (read → ∀ b' ∈ config.backends, b'.group = schema.backendGroup → b'.role = .primary)

/-- A configured schema has a backend for a piece of work. -/
def Routable (config : Config) (eng : RoutingEngine) (schema : SchemaConfig) (sql : List Char)
    (session : SessionView) : Prop :=
  ∃ b, MayServe config schema (ReadBound eng schema sql session) b

/-- A configured schema has a backend for a piece of work that the policy does not pass over. -/
def RoutableIn (config : Config) (eng : RoutingEngine) (schema : SchemaConfig) (sql : List Char)
    (session : SessionView) (ctx : RoutingContext) : Prop :=
  ∃ b, MayServe config schema (ReadBound eng schema sql session) b ∧
    Heard (schema.routingPolicy.getD config.routing.defaultPolicy) ctx b.id

variable {schema : SchemaConfig}

/-- In an accepted configuration every backend is the first with its id. -/
theorem firstWith_eq (hv : ConfigLoader.validate config = none) {b : BackendConfig}
    (hb : b ∈ config.backends) : firstWith config b.id = some b :=
  Emplace.find?_eq_of_nodup (ConfigLoader.backends_of_validate hv).1 hb

/-- In an accepted configuration every schema resolves to its own entry. -/
theorem lookup_start (hv : ConfigLoader.validate config = none) (order : List BackendID)
    (hs : schema ∈ config.schemas) :
    (startSubsystems config order).engine.schemas.lookup schema.name = some schema := by
  refine SchemaRegistry.lookup_eq_some_iff.mpr (.inl ?_)
  have hfirst := Emplace.find?_eq_of_nodup (ConfigLoader.schemas_of_validate hv) hs
  refine (Emplace.lookup_foldl_emplace SchemaConfig.name id config.schemas ∅ schema.name).trans ?_
  rw [AList.lookup_empty, Option.none_or, hfirst]
  rfl

/-- After the start every backend is healthy and up to date, so it offers its role in its group. -/
theorem offers_start_iff (hv : ConfigLoader.validate config = none) (order : List BackendID)
    {group : String} {role : BackendRole} {e : BackendEntry} :
    Offers config.routing (startSubsystems config order).backends group role id e ↔
      ∃ b ∈ config.backends, b.id = id ∧ b.group = group ∧ b.role = role ∧ e = .ofConfig b := by
  constructor
  · rintro ⟨hentry, hgroup, hrole, -⟩
    rw [entry_start] at hentry
    obtain ⟨b, hb, rfl⟩ := Option.map_eq_some_iff.mp hentry
    obtain ⟨hmem, hid⟩ := mem_of_firstWith hb
    exact ⟨b, hmem, hid, hgroup, hrole, rfl⟩
  · rintro ⟨b, hb, rfl, rfl, rfl, rfl⟩
    refine ⟨?_, rfl, rfl, ?_⟩
    · rw [entry_start, firstWith_eq hv hb]
      rfl
    · cases b.role with
      | primary => exact .inl rfl
      | replica => exact ⟨rfl, fun _ => UInt32.le_iff_toNat_le.mpr (Nat.zero_le _)⟩

/-- The candidates after the start are the backends that may serve. -/
theorem mem_candidates_start_iff (hv : ConfigLoader.validate config = none)
    (ho : LoadOrder config order) {sel : BackendSelector} (hsel : sel.defaults = config.routing)
    {role : BackendRole} {e : BackendEntry} :
    e ∈ sel.candidates (startSubsystems config order).backends schema.backendGroup role ↔
      ∃ b, MayServe config schema (role = .replica) b ∧ e = .ofConfig b := by
  rw [(inv_start ho).mem_candidates sel, hsel, Serves]
  simp only [offers_start_iff hv order]
  constructor
  · rintro (⟨b, hb, -, hg, hr, rfl⟩ | ⟨hrole, hnone, b, hb, -, hg, hr, rfl⟩)
    · refine ⟨b, ⟨hb, hg, ?_⟩, rfl⟩
      cases role with
      | primary => exact .inr ⟨hr, fun h => by cases h⟩
      | replica => exact .inl ⟨hr, rfl⟩
    · refine ⟨b, ⟨hb, hg, .inr ⟨hr, fun _ b' hb' hg' => ?_⟩⟩, rfl⟩
      cases hr' : b'.role with
      | primary => rfl
      | replica => exact absurd ⟨b', hb', rfl, hg', hr', rfl⟩ (hnone b'.id _)
  · rintro ⟨b, ⟨hb, hg, ⟨hr, rfl⟩ | ⟨hr, hall⟩⟩, rfl⟩
    · exact .inl ⟨b, hb, rfl, hg, hr, rfl⟩
    · cases role with
      | primary => exact .inl ⟨b, hb, rfl, hg, hr, rfl⟩
      | replica =>
        refine .inr ⟨rfl, ?_, b, hb, rfl, hg, hr, rfl⟩
        rintro id' e' ⟨b', hb', -, hg', hr', -⟩
        have hrole : BackendRole.replica = .primary := hr'.symm.trans (hall rfl b' hb' hg')
        cases hrole

/-- The engine with the counters of its selector wherever earlier plans have left them. -/
def Subsystems.engineAt (app : Subsystems) (counters : RoutingPolicy → UInt64) : RoutingEngine :=
  { app.engine with selector := { app.engine.selector with counters := counters } }

theorem roleFor_eq_replica_iff {eng : RoutingEngine} {sql : List Char} {session : SessionView} :
    eng.roleFor schema sql session = .replica ↔ ReadBound eng schema sql session := by
  rw [← not_iff_not, ← roleFor_eq_primary_iff]
  cases eng.roleFor schema sql session <;> simp

/-- The selector names a backend of the group if the configuration is routable for the work. -/
theorem exists_select_iff (hv : ConfigLoader.validate config = none) (ho : LoadOrder config order)
    {sql : List Char} {session : SessionView} {eng : RoutingEngine}
    (hsel : eng.selector.defaults = config.routing) (ctx : RoutingContext) (draw : ℕ) :
    (∃ bid, (eng.selector.select (startSubsystems config order).backends schema
      (eng.roleFor schema sql session) ctx draw).1 = .ok bid) ↔
    RoutableIn config eng schema sql session ctx := by
  have hmem : ∀ e, e ∈ eng.selector.candidates (startSubsystems config order).backends
      schema.backendGroup (eng.roleFor schema sql session) ↔
        ∃ b, MayServe config schema (ReadBound eng schema sql session) b ∧ e = .ofConfig b := by
    intro e
    rw [← propext roleFor_eq_replica_iff]
    exact mem_candidates_start_iff hv ho hsel
  have hid : ∀ e ∈ eng.selector.candidates (startSubsystems config order).backends
      schema.backendGroup (eng.roleFor schema sql session), e.id ≠ "" := by
    intro e he
    obtain ⟨b, hb, rfl⟩ := (hmem e).mp he
    exact (ConfigLoader.backends_of_validate hv).2 b hb.mem
  rw [BackendSelector.exists_select_eq_ok_iff _ _ _ _ ctx draw hid, BackendSelector.policyOf, hsel]
  constructor
  · rintro ⟨e, he, hheard⟩
    obtain ⟨b, hb, rfl⟩ := (hmem e).mp he
    exact ⟨b, hb, hheard⟩
  · rintro ⟨b, hb, hheard⟩
    exact ⟨.ofConfig b, (hmem _).mpr ⟨b, hb, rfl⟩, hheard⟩

/-- A plan right after the start, in any context. -/
theorem plan_start_iff (hv : ConfigLoader.validate config = none) (ho : LoadOrder config order)
    (hschema : schema ∈ config.schemas) {sql : List Char} (hsql : extract sql = none)
    {session : SessionView} (hsession : session.currentSchema = schema.name)
    (counters : RoutingPolicy → UInt64) (ctx : RoutingContext) (draw : ℕ)
    (hpin : session.pinnedBackend = none ∨
      ReadBound ((startSubsystems config order).engineAt counters) schema sql session) :
    let app := startSubsystems config order
    ((∃ plan e, ((app.engineAt counters).plan app.backends sql session ctx draw).1 = .ok plan ∧
        app.backends.entry plan.backendId = some e ∧ e.group = schema.backendGroup) ↔
      RoutableIn config (app.engineAt counters) schema sql session ctx) ∧
    (¬ RoutableIn config (app.engineAt counters) schema sql session ctx →
      ((app.engineAt counters).plan app.backends sql session ctx draw).1 =
        .error .noBackendAvailable) := by
  intro app
  have hlookup : (app.engineAt counters).schemas.lookup (extractOr sql session.currentSchema) =
      some schema := by
    rw [extractOr, hsql, hsession]
    exact lookup_start hv order hschema
  have hselect := hpin.imp_right roleFor_eq_replica_iff.mpr
  have hok : (∃ bid, ((app.engineAt counters).selector.select app.backends schema
      ((app.engineAt counters).roleFor schema sql session) ctx draw).1 = .ok bid) ↔
        RoutableIn config (app.engineAt counters) schema sql session ctx :=
    exists_select_iff hv ho rfl ctx draw
  rw [plan_of_select hlookup hselect]
  refine ⟨⟨?_, fun h => ?_⟩, fun hnot => ?_⟩
  · rintro ⟨plan, -, hplan, -, -⟩
    obtain ⟨bid, hbid, -⟩ := map_eq_ok hplan
    exact hok.mp ⟨bid, hbid⟩
  · obtain ⟨bid, hbid⟩ := hok.mpr h
    obtain ⟨e, he, rfl⟩ := BackendSelector.select_eq_ok hbid
    have hserves := ((inv_start ho).mem_candidates (app.engineAt counters).selector).mp he
    rw [hbid]
    exact ⟨_, e, rfl, hserves.entry, hserves.inGroup⟩
  · obtain hbid | herr := BackendSelector.select_ok_or_error (app.engineAt counters).selector
      app.backends schema ((app.engineAt counters).roleFor schema sql session) ctx draw
    · exact absurd (hok.mp hbid) hnot
    · rw [herr]
      rfl

/-- **What an accepted configuration can route.** For a schema of a configuration that the validator
accepts and a statement without a qualified name that no pin decides, in a context whose signals are
below the largest value there is, a plan right after the start names a backend of the schema's group
exactly if the configuration is routable for that work, and says otherwise that there is no backend.
The validator looks at each list by itself and does not ask for that. -/
theorem plan_accepted_iff (config : Config) (hv : ConfigLoader.validate config = none)
    (order : List BackendID) (ho : LoadOrder config order) (schema : SchemaConfig)
    (hschema : schema ∈ config.schemas) (sql : List Char) (hsql : extract sql = none)
    (session : SessionView) (hsession : session.currentSchema = schema.name)
    (counters : RoutingPolicy → UInt64) (ctx : RoutingContext) (draw : ℕ)
    (hpin : session.pinnedBackend = none ∨
      ReadBound ((startSubsystems config order).engineAt counters) schema sql session)
    (hsignal : ∀ p f, signalOf p ctx = some f → ∀ id, f id < 0xFFFFFFFFFFFFFFFF) :
    let app := startSubsystems config order
    ((∃ plan e, ((app.engineAt counters).plan app.backends sql session ctx draw).1 = .ok plan ∧
        app.backends.entry plan.backendId = some e ∧ e.group = schema.backendGroup) ↔
      Routable config (app.engineAt counters) schema sql session) ∧
    (¬ Routable config (app.engineAt counters) schema sql session →
      ((app.engineAt counters).plan app.backends sql session ctx draw).1 =
        .error .noBackendAvailable) := by
  intro app
  have hheard : Routable config (app.engineAt counters) schema sql session ↔
      RoutableIn config (app.engineAt counters) schema sql session ctx :=
    exists_congr fun b => (and_iff_left fun f hf => hsignal _ f hf b.id).symm
  rw [hheard]
  exact plan_start_iff hv ho hschema hsql hsession counters ctx draw hpin

/-- A schema, its primary, and a second schema whose group has only a replica. -/
def lopsided : Config where
  node := { id := "n" }
  listeners := { mysql := { enabled := true, port := 3306 } }
  backends := [{ id := "p", host := "h1", group := "g" },
    { id := "r", host := "h2", group := "reports", role := .replica }]
  schemas := [{ name := "shop".toList, backendGroup := "g" },
    { name := "stats".toList, backendGroup := "reports" },
    { name := "lost".toList, backendGroup := "nowhere" }]

theorem plan_accepted_shop : ∃ plan e,
    (((startSubsystems lopsided ["p", "r"]).engineAt fun _ => 0).plan
        (startSubsystems lopsided ["p", "r"]).backends "UPDATE t SET a=1".toList
        { currentSchema := "shop".toList } {} 0).1 = .ok plan ∧
      (startSubsystems lopsided ["p", "r"]).backends.entry plan.backendId = some e ∧
      e.group = "g" := by
  refine (plan_accepted_iff lopsided (by decide +kernel) ["p", "r"] (by decide +kernel)
    { name := "shop".toList, backendGroup := "g" } (by decide) "UPDATE t SET a=1".toList
    (by decide +kernel) { currentSchema := "shop".toList } rfl (fun _ => 0) {} 0
    (.inl rfl) ?_).1.mpr ?_
  · intro p f hf
    cases p <;> cases hf
  · refine ⟨{ id := "p", host := "h1", group := "g" },
      ⟨by decide, rfl, .inr ⟨rfl, fun hread => ?_⟩⟩⟩
    exact absurd hread.isSelect (by decide +kernel)

/-- The configuration is accepted. A write in a schema whose group has no primary cannot be planned,
and in a schema whose group has no backend at all nothing can. -/
theorem plan_accepted_fails : ConfigLoader.validate lopsided = none ∧
    lopsided.listeners.mysql.enabled = true ∧ LoadOrder lopsided ["p", "r"] ∧
    extract "UPDATE t SET a=1".toList = none ∧ extract "SELECT 1".toList = none ∧
    (((startSubsystems lopsided ["p", "r"]).engineAt fun _ => 0).plan
        (startSubsystems lopsided ["p", "r"]).backends "UPDATE t SET a=1".toList
        { currentSchema := "stats".toList } {} 0).1 = .error .noBackendAvailable ∧
    (((startSubsystems lopsided ["p", "r"]).engineAt fun _ => 0).plan
        (startSubsystems lopsided ["p", "r"]).backends "SELECT 1".toList
        { currentSchema := "lost".toList } {} 0).1 = .error .noBackendAvailable :=
  ⟨by decide +kernel, rfl, by decide +kernel, by decide +kernel, by decide +kernel,
    by decide +kernel, by decide +kernel⟩

end DBMesh.Application
