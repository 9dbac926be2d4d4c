import DBMesh.Routing.RoutingPolicies

/-!
# The backend selector

`routing/src/backend_selector.cpp`: the candidates of a group are filtered by role, health and
replication lag, and the policy of the schema picks one of them. When no replica is left the
primaries are tried.

## Main definitions

* `DBMesh.Routing.BackendSelector.select` — the selector
* `DBMesh.Routing.Usable` — what makes a backend fit for a role
* `DBMesh.Routing.Serves` — a backend that may take a request for a role

## Main results

* `DBMesh.Routing.select_serves` — the selector names only backends that may take the request
-/

namespace DBMesh.Routing

inductive RoutingError
  | noSchemaConfig
  | noBackendAvailable
  | backendDisconnected
  | firewallBlocked
  | rateLimited
  | poolQueueFull
  deriving DecidableEq, Repr

/-- The registry is an argument of `select`; `counters` holds the counter of each policy instance in
`policies_`, which stays zero for the policies that have none. -/
structure BackendSelector where
  defaults : RoutingConfig := {}
  counters : RoutingPolicy → UInt64 := fun _ => 0

def usableForRole (st : BackendState) (role : BackendRole) : Bool :=
  if role = .primary then st = .healthy ∨ st = .degraded else st = .healthy

def filter (c : List BackendEntry) (role : BackendRole) (maxLagMs : UInt32)
    (replicationAware : Bool) : List BackendEntry :=
  c.filter fun e =>
    usableForRole e.state role &&
      !(role = .replica && replicationAware && maxLagMs < e.replicationLagMs)

namespace BackendSelector

/-- The entries of a group that pass the filter for a role. -/
def usable (s : BackendSelector) (reg : BackendRegistry) (group : String) (role : BackendRole) :
    List BackendEntry :=
  filter ((reg.getGroupByRole group role).map reg.heap) role s.defaults.maxReplicaLagMs
    s.defaults.replicationAware

/-- The candidates for a role: the primaries, where a replica was asked for and none is usable. -/
def candidates (s : BackendSelector) (reg : BackendRegistry) (group : String) (role : BackendRole) :
    List BackendEntry :=
  if s.usable reg group role = [] ∧ role = .replica then s.usable reg group .primary
  else s.usable reg group role

/-- The policy that a schema uses. -/
def policyOf (s : BackendSelector) (schema : SchemaConfig) : RoutingPolicy :=
  schema.routingPolicy.getD s.defaults.defaultPolicy

def select (s : BackendSelector) (reg : BackendRegistry) (schema : SchemaConfig)
    (role : BackendRole) (ctx : RoutingContext) (draw : ℕ) :
    Except RoutingError BackendID × BackendSelector :=
  let c := s.candidates reg schema.backendGroup role
  if c = [] then (.error .noBackendAvailable, s)
  else
    let p := s.policyOf schema
    let chosen := createPolicy p c ctx draw (s.counters p)
    let s' := { s with counters := Function.update s.counters p chosen.2 }
    if chosen.1 = "" then (.error .noBackendAvailable, s') else (.ok chosen.1, s')

end BackendSelector

/-! ### What may be selected -/

/-- The backend is fit for work of this role: a primary also while degraded, a replica only while
healthy and, where lag counts, not too far behind. -/
def Usable (config : RoutingConfig) (e : BackendEntry) : BackendRole → Prop
  | .primary => e.state = .healthy ∨ e.state = .degraded
  | .replica => e.state = .healthy ∧
      (config.replicationAware = true → e.replicationLagMs ≤ config.maxReplicaLagMs)

/-- A registered backend of the group that has the role and is usable for it. -/
structure Offers (config : RoutingConfig) (reg : BackendRegistry) (group : String)
    (role : BackendRole) (id : BackendID) (e : BackendEntry) : Prop where
  entry : reg.entry id = some e
  inGroup : e.group = group
  hasRole : e.role = role
  usable : Usable config e role

/-- A backend that may take a request for a role: one that offers it or, when a replica was asked
for and there is none, a primary of the same group. -/
def Serves (config : RoutingConfig) (reg : BackendRegistry) (group : String) (role : BackendRole)
    (id : BackendID) (e : BackendEntry) : Prop :=
  Offers config reg group role id e ∨
    (role = .replica ∧ (∀ id' e', ¬ Offers config reg group .replica id' e') ∧
      Offers config reg group .primary id e)

section

variable {config : RoutingConfig} {reg : BackendRegistry} {group : String} {role : BackendRole}
  {id : BackendID} {e : BackendEntry}

theorem Serves.entry (h : Serves config reg group role id e) : reg.entry id = some e :=
  h.elim (·.entry) (·.2.2.entry)

theorem Serves.inGroup (h : Serves config reg group role id e) : e.group = group :=
  h.elim (·.inGroup) (·.2.2.inGroup)

end

/-- What the filter looks at. -/
theorem passes_iff {role : BackendRole} {config : RoutingConfig} {e : BackendEntry} :
    (usableForRole e.state role && !(role = .replica && config.replicationAware &&
      config.maxReplicaLagMs < e.replicationLagMs)) = true ↔ Usable config e role := by
  cases role with
  | primary => simp [usableForRole, Usable]
  | replica => cases haware : config.replicationAware <;> simp [usableForRole, Usable, haware]

/-- The filter keeps what is usable. -/
theorem mem_filter_iff {c : List BackendEntry} {role : BackendRole} {config : RoutingConfig}
    {e : BackendEntry} :
    e ∈ filter c role config.maxReplicaLagMs config.replicationAware ↔
      e ∈ c ∧ Usable config e role := by
  rw [filter, List.mem_filter]
  exact and_congr_right fun _ => passes_iff

variable {reg : BackendRegistry}

theorem BackendRegistry.Inv.mem_usable (I : reg.Inv) (s : BackendSelector) {group : String}
    {role : BackendRole} {e : BackendEntry} :
    e ∈ s.usable reg group role ↔ Offers s.defaults reg group role e.id e := by
  rw [BackendSelector.usable, mem_filter_iff, List.mem_map]
  constructor
  · rintro ⟨⟨r, hr, rfl⟩, husable⟩
    obtain ⟨id, hid, hgroup, hrole⟩ := (I.mem_getGroupByRole group role).mp hr
    refine ⟨?_, hgroup, hrole, husable⟩
    rw [(I.keyed id r hid).1, BackendRegistry.entry, hid]
    rfl
  · rintro ⟨hentry, hgroup, hrole, husable⟩
    obtain ⟨r, hr, rfl⟩ := Option.map_eq_some_iff.mp hentry
    exact ⟨⟨r, (I.mem_getGroupByRole group role).mpr ⟨_, hr, hgroup, hrole⟩, rfl⟩, husable⟩

/-- A registered entry has the id it is registered under. -/
theorem BackendRegistry.Inv.id_of_entry (I : reg.Inv) {id : BackendID} {e : BackendEntry}
    (h : reg.entry id = some e) : e.id = id := by
  obtain ⟨r, hr, rfl⟩ := Option.map_eq_some_iff.mp h
  exact (I.keyed id r hr).1

theorem BackendRegistry.Inv.usable_eq_nil (I : reg.Inv) (s : BackendSelector) {group : String}
    {role : BackendRole} :
    s.usable reg group role = [] ↔ ∀ id e, ¬ Offers s.defaults reg group role id e := by
  rw [List.eq_nil_iff_forall_not_mem]
  constructor
  · intro h id e he
    refine h e ((I.mem_usable s).mpr ?_)
    rwa [I.id_of_entry he.entry]
  · exact fun h e he => h e.id e ((I.mem_usable s).mp he)

/-- The candidates are the backends that may take the request. -/
theorem BackendRegistry.Inv.mem_candidates (I : reg.Inv) (s : BackendSelector) {group : String}
    {role : BackendRole} {e : BackendEntry} :
    e ∈ s.candidates reg group role ↔ Serves s.defaults reg group role e.id e := by
  rw [BackendSelector.candidates, Serves]
  split
  · next h =>
    obtain ⟨hnil, rfl⟩ := h
    have hnone := (I.usable_eq_nil s).mp hnil
    rw [I.mem_usable s]
    exact ⟨fun he => .inr ⟨rfl, hnone, he⟩, fun he => he.elim (fun he => absurd he (hnone _ _))
      fun he => he.2.2⟩
  · next h =>
    rw [I.mem_usable s]
    refine ⟨.inl, fun he => he.elim (fun he => he) fun ⟨hrole, hnone, _⟩ => ?_⟩
    subst hrole
    exact absurd ⟨(I.usable_eq_nil s).mpr hnone, rfl⟩ h

/-- The selector names a backend or has the one error. -/
theorem BackendSelector.select_ok_or_error (s : BackendSelector) (reg : BackendRegistry)
    (schema : SchemaConfig) (role : BackendRole) (ctx : RoutingContext) (draw : ℕ) :
    (∃ id, (s.select reg schema role ctx draw).1 = .ok id) ∨
      (s.select reg schema role ctx draw).1 = .error .noBackendAvailable := by
  rw [select]
  split
  · exact .inr rfl
  · dsimp only
    split
    · exact .inr rfl
    · exact .inl ⟨_, rfl⟩

/-- A backend that is named is what the policy answered. -/
theorem BackendSelector.chosen_of_select {s : BackendSelector} {schema : SchemaConfig}
    {role : BackendRole} {ctx : RoutingContext} {draw : ℕ} {id : BackendID}
    (h : (s.select reg schema role ctx draw).1 = .ok id) :
    id ≠ "" ∧ (createPolicy (s.policyOf schema) (s.candidates reg schema.backendGroup role) ctx draw
      (s.counters (s.policyOf schema))).1 = id := by
  rw [select] at h
  split at h
  · exact absurd h (by simp)
  · dsimp only at h
    split at h
    · exact absurd h (by simp)
    · next hne =>
      have hid := Except.ok.inj h
      exact ⟨hid ▸ hne, hid⟩

theorem BackendSelector.select_eq_ok {s : BackendSelector} {schema : SchemaConfig}
    {role : BackendRole} {ctx : RoutingContext} {draw : ℕ} {id : BackendID}
    (h : (s.select reg schema role ctx draw).1 = .ok id) :
    ∃ e ∈ s.candidates reg schema.backendGroup role, e.id = id := by
  obtain ⟨hne, rfl⟩ := chosen_of_select h
  exact (answers_createPolicy _ _ ctx draw _).resolve_left hne

/-- The selector names a backend if there is a candidate that its policy does not pass over. -/
theorem BackendSelector.exists_select_eq_ok_iff (s : BackendSelector) (reg : BackendRegistry)
    (schema : SchemaConfig) (role : BackendRole) (ctx : RoutingContext) (draw : ℕ)
    (hid : ∀ e ∈ s.candidates reg schema.backendGroup role, e.id ≠ "") :
    (∃ id, (s.select reg schema role ctx draw).1 = .ok id) ↔
      ∃ e ∈ s.candidates reg schema.backendGroup role, Heard (s.policyOf schema) ctx e.id := by
  rw [select]
  split
  · next hnil =>
    rw [hnil]
    refine iff_of_false (fun ⟨_, h⟩ => absurd h nofun) fun ⟨e, he, _⟩ => ?_
    exact absurd he List.not_mem_nil
  · next hne =>
    rw [← createPolicy_ne_empty_iff _ hid hne ctx draw (s.counters (s.policyOf schema))]
    dsimp only
    split
    · next hempty => exact iff_of_false (fun ⟨_, h⟩ => absurd h nofun) (not_not.mpr hempty)
    · next hid => exact iff_of_true ⟨_, rfl⟩ hid

/-- **The selector is sound.** After every sequence of registry operations, whatever the counters,
the draw and the signals are, the selector names a registered backend of the schema's group that
serves the role, and when there is none it says so. -/
theorem select_serves (ops : List RegistryOp) (reg : BackendRegistry)
    (hrun : Transition.run BackendRegistry.step {} ops = some reg) (s : BackendSelector)
    (schema : SchemaConfig) (role : BackendRole) (ctx : RoutingContext) (draw : ℕ) :
    (∀ id, (s.select reg schema role ctx draw).1 = .ok id →
      ∃ e, Serves s.defaults reg schema.backendGroup role id e) ∧
    ((∀ id e, ¬ Serves s.defaults reg schema.backendGroup role id e) →
      (s.select reg schema role ctx draw).1 = .error .noBackendAvailable) := by
  have I := BackendRegistry.inv_run hrun
  constructor
  · intro id h
    obtain ⟨e, he, rfl⟩ := BackendSelector.select_eq_ok h
    exact ⟨e, (I.mem_candidates s).mp he⟩
  · intro hnone
    have hnil : s.candidates reg schema.backendGroup role = [] :=
      List.eq_nil_iff_forall_not_mem.mpr fun e he => hnone _ _ ((I.mem_candidates s).mp he)
    rw [BackendSelector.select, if_pos hnil]

/-- With its replica too far behind, a group of two sends a read to its primary. -/
theorem select_serves_lagging : ∃ reg,
    Transition.run BackendRegistry.step {}
      [.load [{ id := "p", group := "g" }, { id := "r", group := "g", role := .replica }]
          ["r", "p"],
        .updateLag "r" 501] = some reg ∧
    (({} : BackendSelector).select reg { name := [], backendGroup := "g" } .replica {} 0).1 =
      .ok "p" ∧
    ∃ e, Serves {} reg "g" .replica "p" e := by
  refine ⟨_, rfl, by decide +kernel, ?_⟩
  exact (select_serves
    [.load [{ id := "p", group := "g" }, { id := "r", group := "g", role := .replica }] ["r", "p"],
      .updateLag "r" 501] _ rfl {} { name := [], backendGroup := "g" } .replica {} 0).1 "p"
    (by decide +kernel)

end DBMesh.Routing
