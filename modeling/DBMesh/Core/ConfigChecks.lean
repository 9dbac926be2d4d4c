import DBMesh.Core.ConfigLoader
import DBMesh.Lib.FirstFault

/-!
# What the validator complains about

`ConfigLoader::validate` of `core/src/config.cpp` returns at the first complaint, and the sets that
its loops fill with ids and names grow as it goes. What it accepts can be said without an order, and
what it complains about with the order of the file alone: the head of the configuration comes first,
then the backends, the schemas, and at last what the MySQL listener needs. In each list the first
record counts with which something is wrong, by itself or beside those before it.

## Main definitions

* `ConfigLoader.WellFormed` — what is accepted
* `ConfigLoader.Complaint` — what is complained about, in the order of the source

## Main results

* `ConfigLoader.checkBackends_eq`, `ConfigLoader.checkSchemas_eq` — the loops look for the first
  fault of their list
* `ConfigLoader.validate_iff` — the validator accepts the well-formed configurations, and complains
  about the others as `Complaint` says
-/

namespace DBMesh

namespace ConfigLoader

open FirstFault

variable {cfg : Config} {msg : String}

/-! ### The loops -/

/-- What can be wrong with a backend by itself. -/
def backendFault (b : BackendConfig) : Option String :=
  if b.id = "" then some "backend is missing 'id'"
  else if b.host = "" then some ("backend '" ++ b.id ++ "' is missing 'host'")
  else if b.port = 0 then some ("backend '" ++ b.id ++ "' port cannot be 0")
  else if b.group = "" then some ("backend '" ++ b.id ++ "' is missing 'group'")
  else none

def backendDup (b : BackendConfig) : String := "duplicate backend id '" ++ b.id ++ "'"

/-- What can be wrong with a schema by itself. -/
def schemaFault (s : SchemaConfig) : Option String :=
  if s.name = [] then some "schema is missing 'name'"
  else if s.backendGroup = "" then
    some ("schema '" ++ String.ofList s.name ++ "' is missing 'backend_group'")
  else none

def schemaDup (s : SchemaConfig) : String :=
  "duplicate schema name '" ++ String.ofList s.name ++ "'"

theorem checkBackends_eq (ids : List BackendID) (bs : List BackendConfig) :
    checkBackends ids bs = check (·.id) backendFault backendDup ids bs := by
  induction bs generalizing ids with
  | nil => rfl
  | cons b bs ih =>
    rw [checkBackends, check, backendFault, ih]
    split_ifs <;> rfl

theorem checkSchemas_eq (names : List SchemaName) (ss : List SchemaConfig) :
    checkSchemas names ss = check (·.name) schemaFault schemaDup names ss := by
  induction ss generalizing names with
  | nil => rfl
  | cons s ss ih =>
    rw [checkSchemas, check, schemaFault, ih]
    split_ifs <;> rfl

theorem backendFault_eq_none_iff {b : BackendConfig} :
    backendFault b = none ↔ b.id ≠ "" ∧ b.host ≠ "" ∧ b.port ≠ 0 ∧ b.group ≠ "" := by
  rw [backendFault]
  split_ifs <;> simp_all

theorem schemaFault_eq_none_iff {s : SchemaConfig} :
    schemaFault s = none ↔ s.name ≠ [] ∧ s.backendGroup ≠ "" := by
  rw [schemaFault]
  split_ifs <;> simp_all

/-! ### The whole -/

/-- What comes before the lists. -/
def headFault (cfg : Config) : Option String :=
  (if cfg.node.id = "" then some "node.id is required" else none) <|>
  (if cfg.listeners.mysql.enabled then checkPort cfg.listeners.mysql.port "listeners.mysql"
    else none) <|>
  (if cfg.listeners.postgres.enabled then
      checkPort cfg.listeners.postgres.port "listeners.postgres"
    else none) <|>
  checkPort cfg.api.port "api"

/-- What comes behind them: the MySQL listener has something to serve. -/
def serviceFault (cfg : Config) : Option String :=
  (if cfg.listeners.mysql.enabled ∧ cfg.backends = [] then
      some "listeners.mysql is enabled but no backends are configured"
    else none) <|>
  if cfg.listeners.mysql.enabled ∧ cfg.schemas = [] then
    some "listeners.mysql is enabled but no schemas are configured"
  else none

/-- **The configurations that are accepted.** -/
structure WellFormed (cfg : Config) : Prop where
  node : cfg.node.id ≠ ""
  mysql : cfg.listeners.mysql.enabled = true → cfg.listeners.mysql.port ≠ 0
  postgres : cfg.listeners.postgres.enabled = true → cfg.listeners.postgres.port ≠ 0
  api : cfg.api.port ≠ 0
  backends : ∀ b ∈ cfg.backends, b.id ≠ "" ∧ b.host ≠ "" ∧ b.port ≠ 0 ∧ b.group ≠ ""
  backends_nodup : (cfg.backends.map (·.id)).Nodup
  schemas : ∀ s ∈ cfg.schemas, s.name ≠ [] ∧ s.backendGroup ≠ ""
  schemas_nodup : (cfg.schemas.map (·.name)).Nodup
  served : cfg.listeners.mysql.enabled = true → cfg.backends ≠ [] ∧ cfg.schemas ≠ []

/-- Nothing is wrong with the backends. -/
abbrev BackendsClean (bs : List BackendConfig) : Prop := Clean (·.id) backendFault bs

/-- Nothing is wrong with the schemas. -/
abbrev SchemasClean (ss : List SchemaConfig) : Prop := Clean (·.name) schemaFault ss

/-- **The complaints**, each where nothing is wrong with what is looked at before. -/
inductive Complaint (cfg : Config) (msg : String) : Prop
  | head (h : headFault cfg = some msg)
  | backend {done rest : List BackendConfig} {b : BackendConfig} (hhead : headFault cfg = none)
    (hcfg : cfg.backends = done ++ b :: rest) (hdone : BackendsClean done)
    (h : Faulty (·.id) backendFault backendDup done b msg)
  | schema {done rest : List SchemaConfig} {s : SchemaConfig} (hhead : headFault cfg = none)
    (hbackends : BackendsClean cfg.backends) (hcfg : cfg.schemas = done ++ s :: rest)
    (hdone : SchemasClean done) (h : Faulty (·.name) schemaFault schemaDup done s msg)
  | service (hhead : headFault cfg = none) (hbackends : BackendsClean cfg.backends)
    (hschemas : SchemasClean cfg.schemas) (h : serviceFault cfg = some msg)

theorem validate_eq (cfg : Config) : validate cfg =
    (headFault cfg).or ((checkBackends [] cfg.backends).or
      ((checkSchemas [] cfg.schemas).or (serviceFault cfg))) := by
  simp only [validate, headFault, serviceFault, Option.orElse_eq_orElse, Option.orElse_eq_or,
    Option.or_assoc]

theorem headFault_eq_none_iff : headFault cfg = none ↔ cfg.node.id ≠ "" ∧
    (cfg.listeners.mysql.enabled = true → cfg.listeners.mysql.port ≠ 0) ∧
    (cfg.listeners.postgres.enabled = true → cfg.listeners.postgres.port ≠ 0) ∧
    cfg.api.port ≠ 0 := by
  simp only [headFault, checkPort, Option.orElse_eq_orElse, Option.orElse_eq_or,
    Option.or_eq_none_iff, ite_eq_right_iff, reduceCtorEq, imp_false, ne_eq]

theorem serviceFault_eq_none_iff : serviceFault cfg = none ↔
    (cfg.listeners.mysql.enabled = true → cfg.backends ≠ [] ∧ cfg.schemas ≠ []) := by
  simp only [serviceFault, Option.orElse_eq_orElse, Option.orElse_eq_or, Option.or_eq_none_iff,
    ite_eq_right_iff, reduceCtorEq, imp_false, ne_eq, not_and]
  tauto

/-- What is accepted has nothing wrong with it, wherever one looks. -/
theorem wellFormed_iff : WellFormed cfg ↔ headFault cfg = none ∧ BackendsClean cfg.backends ∧
    SchemasClean cfg.schemas ∧ serviceFault cfg = none := by
  rw [headFault_eq_none_iff, serviceFault_eq_none_iff]
  constructor
  · intro h
    exact ⟨⟨h.node, h.mysql, h.postgres, h.api⟩,
      ⟨fun b hb => backendFault_eq_none_iff.mpr (h.backends b hb), h.backends_nodup⟩,
      ⟨fun s hs => schemaFault_eq_none_iff.mpr (h.schemas s hs), h.schemas_nodup⟩, h.served⟩
  · rintro ⟨⟨hnode, hmysql, hpostgres, hapi⟩, hbs, hss, hserved⟩
    exact ⟨hnode, hmysql, hpostgres, hapi,
      fun b hb => backendFault_eq_none_iff.mp (hbs.fault b hb), hbs.nodup,
      fun s hs => schemaFault_eq_none_iff.mp (hss.fault s hs), hss.nodup, hserved⟩

theorem validate_eq_none_iff : validate cfg = none ↔ WellFormed cfg := by
  rw [validate_eq, Option.or_eq_none_iff, Option.or_eq_none_iff, Option.or_eq_none_iff,
    checkBackends_eq, checkSchemas_eq, check_eq_none_iff, check_eq_none_iff, wellFormed_iff]

theorem validate_eq_some_iff : validate cfg = some msg ↔ Complaint cfg msg := by
  rw [validate_eq, Option.or_eq_some_iff, Option.or_eq_some_iff, Option.or_eq_some_iff,
    checkBackends_eq, checkSchemas_eq, check_eq_none_iff, check_eq_none_iff, check_eq_some_iff,
    check_eq_some_iff]
  constructor
  · rintro (h | ⟨hhead, h | ⟨hbackends, h | ⟨hschemas, h⟩⟩⟩)
    · exact .head h
    · obtain ⟨done, b, rest, hcfg, hdone, hb⟩ := h
      exact .backend hhead hcfg hdone hb
    · obtain ⟨done, s, rest, hcfg, hdone, hs⟩ := h
      exact .schema hhead hbackends hcfg hdone hs
    · exact .service hhead hbackends hschemas h
  · intro h
    cases h with
    | head h => exact .inl h
    | backend hhead hcfg hdone hb => exact .inr ⟨hhead, .inl ⟨_, _, _, hcfg, hdone, hb⟩⟩
    | schema hhead hbackends hcfg hdone hs =>
      exact .inr ⟨hhead, .inr ⟨hbackends, .inl ⟨_, _, _, hcfg, hdone, hs⟩⟩⟩
    | service hhead hbackends hschemas h =>
      exact .inr ⟨hhead, .inr ⟨hbackends, .inr ⟨hschemas, h⟩⟩⟩

/-- **What the validator says.** It accepts the well-formed configurations and no others. What it
complains about is the first thing that is wrong: with the head of the configuration; else with the
first backend that is incomplete or has the id of one before it; else with such a schema; else with
an enabled MySQL listener that has no backend or no schema. -/
theorem validate_iff (cfg : Config) : (validate cfg = none ↔ WellFormed cfg) ∧
    ∀ msg, validate cfg = some msg ↔ Complaint cfg msg :=
  ⟨validate_eq_none_iff, fun _ => validate_eq_some_iff⟩

/-- The second backend has the id of the first one, which is looked at before its schemas are. -/
example : validate { node := { id := "n" }
                     backends := [{ id := "b", host := "h", group := "g" },
                       { id := "b", host := "i", group := "g" }]
                     schemas := [{ name := [], backendGroup := "g" }] } =
    some "duplicate backend id 'b'" := by decide

end ConfigLoader

end DBMesh
