import DBMesh.Routing.BackendSelector
import DBMesh.Routing.ReadWriteRouter
import DBMesh.Routing.SchemaExtractor
import DBMesh.Routing.SchemaRegistry

/-!
# The routing engine

`routing/src/routing_engine.cpp`: a query is classified, its schema is found and looked up, the role
follows from the type and the session, and the selector names a backend. A session that is pinned to
a backend goes there with all work for a primary, whatever has become of the backend since.

## Main definitions

* `DBMesh.Routing.RoutingEngine.plan` — the pipeline
* `DBMesh.Routing.ReadBound` — the work that may go to a replica

## Main results

* `DBMesh.Routing.plan_split` — only work that is bound for a replica is planned to one
* `DBMesh.Routing.plan_pinned_iff` — when a pinned session is served by a valid backend
-/

namespace DBMesh.Routing

structure SessionView where
  currentSchema : SchemaName := []
  inTransaction : Bool := false
  autocommit : Bool := true
  pinnedBackend : Option BackendID := none
  deriving DecidableEq, Repr

structure RoutePlan where
  queryType : QueryType
  schema : SchemaName
  backendId : BackendID
  role : BackendRole
  deriving DecidableEq, Repr

structure RoutingEngine where
  schemas : SchemaRegistry := {}
  selector : BackendSelector := {}
  routing : RoutingConfig := {}

namespace RoutingEngine

/-- The schema's own setting for read/write splitting, or the global one. -/
def rwSplit (eng : RoutingEngine) (config : SchemaConfig) : Bool :=
  config.readWriteSplit.getD eng.routing.readWriteSplit

/-- The role that a query in a session asks for; without splitting everything is for the primary. -/
def roleFor (eng : RoutingEngine) (config : SchemaConfig) (sql : List Char)
    (session : SessionView) : BackendRole :=
  if eng.rwSplit config then
    selectRole (classify sql) ⟨session.inTransaction, session.autocommit⟩
  else .primary

/-- The plan, and the engine with the counters of its selector after it. -/
def plan (eng : RoutingEngine) (reg : BackendRegistry) (sql : List Char) (session : SessionView)
    (ctx : RoutingContext) (draw : ℕ) : Except RoutingError RoutePlan × RoutingEngine :=
  let type := classify sql
  let schema := extractOr sql session.currentSchema
  match eng.schemas.lookup schema with
  | none => (.error .noSchemaConfig, eng)
  | some config =>
    let role := eng.roleFor config sql session
    match session.pinnedBackend, role with
    | some p, .primary => (.ok ⟨type, schema, p, role⟩, eng)
    | _, _ =>
      let backend := eng.selector.select reg config role ctx draw
      (backend.1.map fun id => ⟨type, schema, id, role⟩, { eng with selector := backend.2 })

end RoutingEngine

/-- The work that may go to a replica: a `SELECT` outside a transaction, where reads are split
off. -/
structure ReadBound (eng : RoutingEngine) (config : SchemaConfig) (sql : List Char)
    (session : SessionView) : Prop where
  isSelect : classify sql = .select
  noTransaction : session.inTransaction = false
  split : eng.rwSplit config = true

variable {eng : RoutingEngine} {reg : BackendRegistry} {sql : List Char} {session : SessionView}
  {ctx : RoutingContext} {draw : ℕ} {config : SchemaConfig} {plan : RoutePlan}

theorem roleFor_eq_primary_iff :
    eng.roleFor config sql session = .primary ↔ ¬ ReadBound eng config sql session := by
  rw [RoutingEngine.roleFor]
  split
  · next hsplit =>
    rw [selectRole_eq_primary_iff]
    constructor
    · rintro (htx | htype) hread
      · exact absurd (htx.symm.trans hread.noTransaction) (by simp)
      · exact htype hread.isSelect
    · intro hnot
      by_contra hrole
      obtain ⟨htx, htype⟩ := not_or.mp hrole
      exact hnot ⟨not_not.mp htype, Bool.eq_false_iff.mpr htx, hsplit⟩
  · next hsplit => exact iff_of_true rfl fun hread => hsplit hread.split

/-! ### The branches of the pipeline -/

theorem plan_of_unknown
    (h : eng.schemas.lookup (extractOr sql session.currentSchema) = none) :
    eng.plan reg sql session ctx draw = (.error .noSchemaConfig, eng) := by
  rw [RoutingEngine.plan, h]

theorem plan_of_pin {p : BackendID}
    (h : eng.schemas.lookup (extractOr sql session.currentSchema) = some config)
    (hp : session.pinnedBackend = some p) (hrole : eng.roleFor config sql session = .primary) :
    eng.plan reg sql session ctx draw =
      (.ok ⟨classify sql, extractOr sql session.currentSchema, p, .primary⟩, eng) := by
  rw [RoutingEngine.plan, h]
  simp only [hp, hrole]

theorem plan_of_select
    (h : eng.schemas.lookup (extractOr sql session.currentSchema) = some config)
    (hpin : session.pinnedBackend = none ∨ eng.roleFor config sql session = .replica) :
    (eng.plan reg sql session ctx draw).1 =
      (eng.selector.select reg config (eng.roleFor config sql session) ctx draw).1.map fun id =>
        ⟨classify sql, extractOr sql session.currentSchema, id,
          eng.roleFor config sql session⟩ := by
  rw [RoutingEngine.plan, h]
  obtain hnone | hrole := hpin
  · simp only [hnone]
  · cases hp : session.pinnedBackend with
    | none => simp only [hrole]
    | some p => simp only [hrole]

/-- Either the pin decides or the selector does. -/
theorem pin_or_select (eng : RoutingEngine) (config : SchemaConfig) (sql : List Char)
    (session : SessionView) :
    (∃ p, session.pinnedBackend = some p ∧ eng.roleFor config sql session = .primary) ∨
      session.pinnedBackend = none ∨ eng.roleFor config sql session = .replica := by
  cases session.pinnedBackend <;> cases eng.roleFor config sql session <;> simp

theorem map_eq_ok {ε α β : Type} {f : α → β} {x : Except ε α} {b : β} (h : x.map f = .ok b) :
    ∃ a, x = .ok a ∧ f a = b := by
  cases x with
  | error e => exact absurd h (by simp [Except.map])
  | ok a => exact ⟨a, rfl, Except.ok.inj h⟩

/-- What a plan can be. -/
theorem plan_eq_ok (h : (eng.plan reg sql session ctx draw).1 = .ok plan) :
    ∃ config, Resolves eng.schemas (extractOr sql session.currentSchema) config ∧
      plan.role = eng.roleFor config sql session ∧
      ((session.pinnedBackend = some plan.backendId ∧ plan.role = .primary) ∨
        (eng.selector.select reg config plan.role ctx draw).1 = .ok plan.backendId) := by
  cases hlookup : eng.schemas.lookup (extractOr sql session.currentSchema) with
  | none =>
    rw [plan_of_unknown hlookup] at h
    exact absurd h (by simp)
  | some config =>
    refine ⟨config, SchemaRegistry.lookup_eq_some_iff.mp hlookup, ?_⟩
    obtain ⟨p, hp, hrole⟩ | hselect := pin_or_select eng config sql session
    · rw [plan_of_pin hlookup hp hrole] at h
      obtain rfl := Except.ok.inj h
      exact ⟨hrole.symm, .inl ⟨hp, rfl⟩⟩
    · rw [plan_of_select hlookup hselect] at h
      obtain ⟨id, hid, rfl⟩ := map_eq_ok h
      exact ⟨rfl, .inr hid⟩

theorem plan_eq_noSchemaConfig_iff :
    (eng.plan reg sql session ctx draw).1 = .error .noSchemaConfig ↔
      eng.schemas.lookup (extractOr sql session.currentSchema) = none := by
  constructor
  · intro h
    cases hlookup : eng.schemas.lookup (extractOr sql session.currentSchema) with
    | none => rfl
    | some config =>
      obtain ⟨p, hp, hrole⟩ | hselect := pin_or_select eng config sql session
      · rw [plan_of_pin hlookup hp hrole] at h
        exact absurd h (by simp)
      · rw [plan_of_select hlookup hselect] at h
        -- the selector has one error only, and it is another one
        obtain hok | herr := BackendSelector.select_ok_or_error eng.selector reg config
          (eng.roleFor config sql session) ctx draw
        · obtain ⟨id, hid⟩ := hok
          rw [hid] at h
          exact absurd h (by simp [Except.map])
        · rw [herr] at h
          exact absurd h (by simp [Except.map])
  · intro h
    rw [plan_of_unknown h]

/-! ### Sessions without a pin -/

/-- **Read/write splitting is safe.** For a session without a pin, after every sequence of registry
operations, a plan names a registered backend of the group of the schema that the query resolves to.
It is a primary, unless the query is a `SELECT` outside a transaction and reads are split off. There
is no plan for want of a schema exactly if neither the schema nor the default has an entry. -/
theorem plan_split (ops : List RegistryOp) (reg : BackendRegistry)
    (hrun : Transition.run BackendRegistry.step {} ops = some reg) (eng : RoutingEngine)
    (sql : List Char) (session : SessionView) (hpin : session.pinnedBackend = none)
    (ctx : RoutingContext) (draw : ℕ) :
    (∀ plan, (eng.plan reg sql session ctx draw).1 = .ok plan → ∃ config e,
      Resolves eng.schemas (extractOr sql session.currentSchema) config ∧
      reg.entry plan.backendId = some e ∧ e.group = config.backendGroup ∧
      (e.role = .replica → ReadBound eng config sql session) ∧
      (¬ ReadBound eng config sql session → e.role = .primary)) ∧
    ((eng.plan reg sql session ctx draw).1 = .error .noSchemaConfig ↔
      eng.schemas.current.lookup (extractOr sql session.currentSchema) = none ∧
        eng.schemas.current.lookup defaultSchema = none) := by
  have I := BackendRegistry.inv_run hrun
  refine ⟨fun plan h => ?_, plan_eq_noSchemaConfig_iff.trans SchemaRegistry.lookup_eq_none_iff⟩
  obtain ⟨config, hconfig, hrole, ⟨hp, -⟩ | hselect⟩ := plan_eq_ok h
  · exact absurd (hpin.symm.trans hp) (by simp)
  · obtain ⟨e, he, hid⟩ := BackendSelector.select_eq_ok hselect
    have hserves := (I.mem_candidates eng.selector).mp he
    rw [hid] at hserves
    have hprimary : ¬ ReadBound eng config sql session → e.role = .primary := by
      intro hread
      rw [hrole, roleFor_eq_primary_iff.mpr hread] at hserves
      exact (hserves.resolve_right fun hfallback => absurd hfallback.1 (by simp)).hasRole
    refine ⟨config, e, hconfig, hserves.entry, hserves.inGroup, fun hreplica => ?_, hprimary⟩
    by_contra hread
    exact absurd (hreplica.symm.trans (hprimary hread)) (by simp)

/-- A primary and its replica. -/
def twoBackends : List RegistryOp :=
  [.load [{ id := "p", group := "g" }, { id := "r", group := "g", role := .replica }] ["p", "r"]]

/-- An engine that knows one group. -/
def oneGroup : RoutingEngine where
  schemas := ({} : SchemaRegistry).load [{ name := defaultSchema, backendGroup := "g" }]

/-- A read outside a transaction goes to the replica. -/
theorem plan_split_read : ∃ reg plan config e,
    Transition.run BackendRegistry.step {} twoBackends = some reg ∧
    (oneGroup.plan reg "SELECT 1".toList {} {} 0).1 = .ok plan ∧ plan.backendId = "r" ∧
    Resolves oneGroup.schemas (extractOr "SELECT 1".toList []) config ∧
    reg.entry plan.backendId = some e ∧ e.group = config.backendGroup ∧
    (e.role = .replica → ReadBound oneGroup config "SELECT 1".toList {}) := by
  obtain ⟨config, e, hconfig, hentry, hgroup, hread, -⟩ :=
    (plan_split twoBackends _ rfl oneGroup "SELECT 1".toList {} rfl {} 0).1
      ⟨.select, [], "r", .replica⟩ (by decide +kernel)
  exact ⟨_, _, config, e, rfl, by decide +kernel, rfl, hconfig, hentry, hgroup, hread⟩

/-! ### Pinned sessions -/

/-- **When a pin is good.** A plan for a pinned session names a backend that serves the role in the
group of its schema exactly if the pin does, for work that is bound for a primary: it is registered
in that group, as a primary, and healthy or degraded. -/
theorem plan_pinned_iff (ops : List RegistryOp) (reg : BackendRegistry)
    (hrun : Transition.run BackendRegistry.step {} ops = some reg) (eng : RoutingEngine)
    (sql : List Char) (session : SessionView) (p : BackendID)
    (hp : session.pinnedBackend = some p) (ctx : RoutingContext) (draw : ℕ) :
    (∀ plan, (eng.plan reg sql session ctx draw).1 = .ok plan → ∃ config e,
      Resolves eng.schemas (extractOr sql session.currentSchema) config ∧
      Serves eng.selector.defaults reg config.backendGroup plan.role plan.backendId e) ↔
    ∀ config, Resolves eng.schemas (extractOr sql session.currentSchema) config →
      ¬ ReadBound eng config sql session →
      ∃ e, Offers eng.selector.defaults reg config.backendGroup .primary p e := by
  have I := BackendRegistry.inv_run hrun
  constructor
  · intro h config hconfig hread
    have hlookup := SchemaRegistry.lookup_eq_some_iff.mpr hconfig
    obtain ⟨config', e, hconfig', hserves⟩ := h _
      (congrArg Prod.fst (plan_of_pin hlookup hp (roleFor_eq_primary_iff.mpr hread)))
    obtain rfl : config = config' :=
      Option.some.inj (hlookup.symm.trans (SchemaRegistry.lookup_eq_some_iff.mpr hconfig'))
    exact ⟨e, hserves.resolve_right fun hfallback => absurd hfallback.1 (by simp)⟩
  · intro h plan hplan
    obtain ⟨config, hconfig, hrole, ⟨hpin, hprimary⟩ | hselect⟩ := plan_eq_ok hplan
    · obtain rfl : p = plan.backendId := Option.some.inj (hp.symm.trans hpin)
      obtain ⟨e, he⟩ := h config hconfig
        (roleFor_eq_primary_iff.mp (hrole.symm.trans hprimary))
      exact ⟨config, e, hconfig, .inl (hprimary ▸ he)⟩
    · obtain ⟨e, he, hid⟩ := BackendSelector.select_eq_ok hselect
      exact ⟨config, e, hconfig, hid ▸ (I.mem_candidates eng.selector).mp he⟩

/-- A transaction that is pinned to the primary of its group. -/
theorem plan_pinned_primary : ∃ reg plan,
    Transition.run BackendRegistry.step {} twoBackends = some reg ∧
    (oneGroup.plan reg "UPDATE t SET a=1".toList
      { inTransaction := true, pinnedBackend := some "p" } {} 0).1 = .ok plan ∧
    ∃ config e, Resolves oneGroup.schemas (extractOr "UPDATE t SET a=1".toList []) config ∧
      Serves {} reg config.backendGroup plan.role plan.backendId e := by
  refine ⟨_, ⟨.update, [], "p", .primary⟩, rfl, by decide +kernel, ?_⟩
  refine (plan_pinned_iff twoBackends _ rfl oneGroup "UPDATE t SET a=1".toList
    { inTransaction := true, pinnedBackend := some "p" } "p" rfl {} 0).mpr ?_ _ (by decide +kernel)
  intro config hconfig _
  have hgroup : config.backendGroup = "g" := by
    have hmap : (oneGroup.schemas.lookup (extractOr "UPDATE t SET a=1".toList [])).map
        (·.backendGroup) = some "g" := by decide +kernel
    rw [SchemaRegistry.lookup_eq_some_iff.mpr hconfig] at hmap
    exact Option.some.inj hmap
  exact ⟨_, rfl, hgroup.symm ▸ rfl, rfl, .inl rfl⟩

/-- A transaction stays pinned to a primary that has failed. -/
theorem plan_pinned_failed : ∃ reg plan,
    Transition.run BackendRegistry.step {} (twoBackends ++ [.updateState "p" .failed]) = some reg ∧
    (oneGroup.plan reg "UPDATE t SET a=1".toList
      { inTransaction := true, pinnedBackend := some "p" } {} 0).1 = .ok plan ∧
    plan.backendId = "p" ∧
    ¬ ∃ (config : SchemaConfig) (e : BackendEntry),
      Resolves oneGroup.schemas (extractOr "UPDATE t SET a=1".toList []) config ∧
      Serves {} reg config.backendGroup plan.role plan.backendId e := by
  refine ⟨_, ⟨.update, [], "p", .primary⟩, rfl, by decide +kernel, rfl, ?_⟩
  rintro ⟨config, e, -, hserves⟩
  have hstate : some BackendState.failed = some e.state :=
    congrArg (Option.map BackendEntry.state) hserves.entry
  obtain hoffers | ⟨hrole, -⟩ := hserves
  · have husable : e.state = .healthy ∨ e.state = .degraded := hoffers.usable
    rw [← Option.some.inj hstate] at husable
    exact absurd husable (by decide)
  · exact absurd hrole (by decide)

end DBMesh.Routing
