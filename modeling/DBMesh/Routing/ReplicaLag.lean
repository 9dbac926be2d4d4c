import DBMesh.Core.Application

/-!
# The lag of replicas

A backend is configured with a limit of its own for its replication lag, beside the limit of the
routing configuration. The entry keeps it, but the filter of the selector compares the lag with the
limit of the routing configuration only. So a replica beyond its own limit is read from, unless its
own limit is not the smaller of the two.

## Main definitions

* `DBMesh.Routing.ReadsWithinLimits` — no replica beyond one of its limits is ever selected

## Main results

* `DBMesh.Routing.reads_within_limits_iff` — when lagging replicas are not read from
-/

namespace DBMesh.Routing

open Application

/-- After the backends are loaded and any updates of states, roles and lags are made, a replica that
is selected for a read lags no more than its own limit and the limit of the routing configuration
allow. -/
def ReadsWithinLimits (config : Config) (order : List BackendID) (routing : RoutingConfig) : Prop :=
  ∀ (ops : List RegistryOp) (reg : BackendRegistry), (∀ op ∈ ops, IsUpdate op) →
    Transition.run BackendRegistry.step (startSubsystems config order).backends ops = some reg →
    ∀ (s : BackendSelector) (schema : SchemaConfig) (ctx : RoutingContext) (draw : ℕ)
      (id : BackendID) (e : BackendEntry), s.defaults = routing →
      (s.select reg schema .replica ctx draw).1 = .ok id → reg.entry id = some e →
      e.role = .replica →
      e.replicationLagMs ≤ e.maxReplicationLagMs ∧ e.replicationLagMs ≤ routing.maxReplicaLagMs

variable {config : Config} {order : List BackendID} {reg : BackendRegistry} {id : BackendID}
  {e : BackendEntry}

/-- A replica that is selected offers itself, so it passes the limit of the configuration. -/
theorem lag_le_of_select (I : reg.Inv) {s : BackendSelector} {schema : SchemaConfig}
    {ctx : RoutingContext} {draw : ℕ} (haware : s.defaults.replicationAware = true)
    (h : (s.select reg schema .replica ctx draw).1 = .ok id) (he : reg.entry id = some e)
    (hrole : e.role = .replica) : e.replicationLagMs ≤ s.defaults.maxReplicaLagMs := by
  obtain ⟨e', he', rfl⟩ := BackendSelector.select_eq_ok h
  have hserves := (I.mem_candidates s).mp he'
  obtain rfl : e' = e := Option.some.inj (hserves.entry.symm.trans he)
  obtain hoffer | ⟨-, -, hoffer⟩ := hserves
  · exact hoffer.usable.2 haware
  · exact absurd (hoffer.hasRole.symm.trans hrole) nofun

/-- Any backend that offers the role can be selected, at random. -/
theorem exists_select_of_offers (I : reg.Inv) {routing : RoutingConfig} {group : String}
    (hoffer : Offers routing reg group .replica id e) (hid : id ≠ "") :
    ∃ draw, (({ defaults := routing } : BackendSelector).select reg
      { name := [], backendGroup := group, routingPolicy := some .random } .replica {} draw).1 =
        .ok id := by
  set s : BackendSelector := { defaults := routing }
  obtain rfl := I.id_of_entry hoffer.entry
  have hmem : e ∈ s.candidates reg group .replica := (I.mem_candidates s).mpr (.inl hoffer)
  obtain ⟨draw, hdraw, hget⟩ := List.mem_iff_getElem.mp hmem
  have hne : s.candidates reg group .replica ≠ [] := List.ne_nil_of_mem hmem
  refine ⟨draw, ?_⟩
  have hchosen : (randomPolicy (s.candidates reg group .replica) {} draw
      (s.counters .random)).1 = e.id := by
    rw [randomPolicy, if_neg hne, Nat.mod_eq_of_lt hdraw]
    show idAt _ draw = e.id
    rw [idAt, List.getElem?_eq_getElem hdraw, hget]
    rfl
  rw [BackendSelector.select, if_neg hne]
  dsimp only [BackendSelector.policyOf, Option.getD_some, createPolicy]
  rw [hchosen, if_neg hid]

/-- A backend made a replica that lags just as far as the routing configuration allows. -/
theorem exists_lagging (ho : LoadOrder config order) {b : BackendConfig}
    (hb : firstWith config id = some b) (lag : UInt32) :
    ∃ reg, Transition.run BackendRegistry.step (startSubsystems config order).backends
        [.updateRole id .replica, .updateLag id lag] = some reg ∧ reg.Inv ∧
      reg.entry id = some { BackendEntry.ofConfig b with
        role := .replica, replicationLagMs := lag } := by
  have hrole : (startSubsystems config order).backends.step (.updateRole id .replica) =
      some ((startSubsystems config order).backends.updateRole id .replica) := rfl
  have hlag : ((startSubsystems config order).backends.updateRole id .replica).step
      (.updateLag id lag) = some (((startSubsystems config order).backends.updateRole id
        .replica).updateLag id lag) := rfl
  refine ⟨_, rfl, ((inv_start ho).step hrole).step hlag, ?_⟩
  rw [BackendRegistry.updateLag, entry_modify_self, BackendRegistry.updateRole, entry_bump,
    entry_modify_self, entry_start, hb]
  rfl

/-- **When lagging replicas are not read from.** Where lag counts, no replica beyond its own limit
or that of the routing configuration is ever selected exactly if no backend that has an id is
configured with the smaller limit. -/
theorem reads_within_limits_iff (config : Config) (order : List BackendID)
    (ho : LoadOrder config order) (routing : RoutingConfig)
    (haware : routing.replicationAware = true) :
    ReadsWithinLimits config order routing ↔
      ∀ id b, firstWith config id = some b → id ≠ "" →
        routing.maxReplicaLagMs ≤ b.maxReplicationLagMs := by
  constructor
  · intro h id b hb hid
    obtain ⟨reg, hrun, I, hentry⟩ := exists_lagging ho hb routing.maxReplicaLagMs
    have hoffer : Offers routing reg b.group .replica id
        { BackendEntry.ofConfig b with
          role := .replica, replicationLagMs := routing.maxReplicaLagMs } :=
      ⟨hentry, rfl, rfl, rfl, fun _ => UInt32.le_refl _⟩
    obtain ⟨draw, hselect⟩ := exists_select_of_offers I hoffer hid
    refine (h _ reg (fun op hop => ?_) hrun _ _ _ draw id _ rfl hselect hentry rfl).1
    simp only [List.mem_cons, List.not_mem_nil, or_false] at hop
    obtain rfl | rfl := hop
    · trivial
    · trivial
  · rintro h ops reg hops hrun s schema ctx draw id e rfl hselect he hrole
    obtain ⟨hstands, I⟩ := stands_run (stands_start config order) (inv_start ho) hops hrun
    have hlag := lag_le_of_select I haware hselect he hrole
    obtain ⟨b, hb, hbuilt⟩ := hstands.exists_builtFrom he
    have hown : e.maxReplicationLagMs = b.maxReplicationLagMs := by
      rw [hbuilt]
      rfl
    refine ⟨?_, hlag⟩
    rw [hown]
    exact UInt32.le_trans hlag (h id b hb (BackendSelector.chosen_of_select hselect).1)

/-- The replica allows itself more lag than the routing configuration does. -/
theorem reads_within_limits_generous :
    ReadsWithinLimits
      { node := { id := "n" }
        backends := [{ id := "p", group := "g" },
          { id := "r", group := "g", role := .replica, maxReplicationLagMs := 800 }] }
      ["p", "r"] { maxReplicaLagMs := 500, replicationAware := true } := by
  refine (reads_within_limits_iff _ _ (by decide) _ rfl).mpr fun id b hb _ => ?_
  have hmem := (mem_of_firstWith hb).1
  simp only [List.mem_cons, List.not_mem_nil, or_false] at hmem
  obtain rfl | rfl := hmem
  · decide
  · decide

/-- A replica that may lag 100 ms is read from while it lags 300 ms. -/
theorem lagging_replica_read :
    let config : Config :=
      { node := { id := "n" }
        backends := [{ id := "p", group := "g" },
          { id := "r", group := "g", role := .replica, maxReplicationLagMs := 100 }] }
    ∃ reg e, Transition.run BackendRegistry.step (startSubsystems config ["p", "r"]).backends
        [.updateLag "r" 300] = some reg ∧
      (({ defaults := { maxReplicaLagMs := 500, replicationAware := true } } :
        BackendSelector).select reg { name := [], backendGroup := "g" } .replica {} 0).1 =
          .ok "r" ∧
      reg.entry "r" = some e ∧ e.role = .replica ∧ e.maxReplicationLagMs = 100 ∧
      e.replicationLagMs = 300 ∧
      ¬ ReadsWithinLimits config ["p", "r"]
        { maxReplicaLagMs := 500, replicationAware := true } := by
  refine ⟨_, _, rfl, by decide +kernel, rfl, rfl, rfl, rfl, fun h => ?_⟩
  have hlag := h [.updateLag "r" 300] _ (by simp [IsUpdate]) rfl
    { defaults := { maxReplicaLagMs := 500, replicationAware := true } }
    { name := [], backendGroup := "g" } {} 0 "r" _ rfl (by decide +kernel) rfl rfl
  exact absurd hlag.1 (by decide +kernel)

end DBMesh.Routing
