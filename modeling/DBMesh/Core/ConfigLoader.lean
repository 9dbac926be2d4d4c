import DBMesh.Core.Config
import Mathlib.Data.List.Basic

/-!
# The validator of configurations

`ConfigLoader::validate` of `core/src/config.cpp`. It looks at each list of the configuration by
itself: names are there and not given twice, ports are not zero, and with the MySQL listener there
are a backend and a schema at all. It does not look across the lists.

## Main definitions

* `DBMesh.ConfigLoader.validate` — the first complaint about a configuration, if there is one

## Main results

* `DBMesh.ConfigLoader.backends_of_validate`, `schemas_of_validate` — what is known of the lists of
  a configuration that is accepted
-/

namespace DBMesh

namespace ConfigLoader

def checkPort (port : UInt16) (name : String) : Option String :=
  if port = 0 then some (name ++ " port cannot be 0") else none

/-- The loop over the backends, with the ids of the ones before. -/
def checkBackends (backendIds : List BackendID) : List BackendConfig → Option String
  | [] => none
  | b :: bs =>
    if b.id = "" then some "backend is missing 'id'"
    else if b.host = "" then some ("backend '" ++ b.id ++ "' is missing 'host'")
    else if b.port = 0 then some ("backend '" ++ b.id ++ "' port cannot be 0")
    else if b.group = "" then some ("backend '" ++ b.id ++ "' is missing 'group'")
    else if b.id ∈ backendIds then some ("duplicate backend id '" ++ b.id ++ "'")
    else checkBackends (b.id :: backendIds) bs

/-- The loop over the schemas, with the names of the ones before. -/
def checkSchemas (schemaNames : List SchemaName) : List SchemaConfig → Option String
  | [] => none
  | s :: ss =>
    if s.name = [] then some "schema is missing 'name'"
    else if s.backendGroup = "" then
      some ("schema '" ++ String.ofList s.name ++ "' is missing 'backend_group'")
    else if s.name ∈ schemaNames then
      some ("duplicate schema name '" ++ String.ofList s.name ++ "'")
    else checkSchemas (s.name :: schemaNames) ss

def validate (cfg : Config) : Option String :=
  (if cfg.node.id = "" then some "node.id is required" else none) <|>
  (if cfg.listeners.mysql.enabled then checkPort cfg.listeners.mysql.port "listeners.mysql"
    else none) <|>
  (if cfg.listeners.postgres.enabled then
      checkPort cfg.listeners.postgres.port "listeners.postgres"
    else none) <|>
  checkPort cfg.api.port "api" <|>
  checkBackends [] cfg.backends <|>
  checkSchemas [] cfg.schemas <|>
  (if cfg.listeners.mysql.enabled ∧ cfg.backends = [] then
      some "listeners.mysql is enabled but no backends are configured"
    else none) <|>
  if cfg.listeners.mysql.enabled ∧ cfg.schemas = [] then
    some "listeners.mysql is enabled but no schemas are configured"
  else none

/-! ### What is accepted -/

theorem nodup_of_checkBackends {ids : List BackendID} {bs : List BackendConfig}
    (h : checkBackends ids bs = none) :
    (bs.map (·.id)).Nodup ∧ ∀ b ∈ bs, b.id ≠ "" ∧ b.id ∉ ids := by
  induction bs generalizing ids with
  | nil => exact ⟨List.nodup_nil, fun _ hb => absurd hb List.not_mem_nil⟩
  | cons b bs ih =>
    rw [checkBackends] at h
    split_ifs at h with hid _ _ _ hdup
    obtain ⟨hnd, hall⟩ := ih h
    refine ⟨List.nodup_cons.mpr ⟨fun hmem => ?_, hnd⟩, fun b' hb' => ?_⟩
    · obtain ⟨b', hb', heq⟩ := List.mem_map.mp hmem
      exact (hall b' hb').2 (heq ▸ List.mem_cons_self ..)
    · rcases List.mem_cons.mp hb' with rfl | hb'
      · exact ⟨hid, hdup⟩
      · exact ⟨(hall b' hb').1, fun hmem => (hall b' hb').2 (List.mem_cons_of_mem _ hmem)⟩

theorem nodup_of_checkSchemas {names : List SchemaName} {ss : List SchemaConfig}
    (h : checkSchemas names ss = none) :
    (ss.map (·.name)).Nodup ∧ ∀ s ∈ ss, s.name ∉ names := by
  induction ss generalizing names with
  | nil => exact ⟨List.nodup_nil, fun _ hs => absurd hs List.not_mem_nil⟩
  | cons s ss ih =>
    rw [checkSchemas] at h
    split_ifs at h with _ _ hdup
    obtain ⟨hnd, hall⟩ := ih h
    refine ⟨List.nodup_cons.mpr ⟨fun hmem => ?_, hnd⟩, fun s' hs' => ?_⟩
    · obtain ⟨s', hs', heq⟩ := List.mem_map.mp hmem
      exact hall s' hs' (heq ▸ List.mem_cons_self ..)
    · rcases List.mem_cons.mp hs' with rfl | hs'
      · exact hdup
      · exact fun hmem => hall s' hs' (List.mem_cons_of_mem _ hmem)

variable {cfg : Config}

/-- The backends of an accepted configuration have ids, each its own. -/
theorem backends_of_validate (h : validate cfg = none) :
    (cfg.backends.map (·.id)).Nodup ∧ ∀ b ∈ cfg.backends, b.id ≠ "" := by
  simp only [validate, Option.orElse_eq_orElse, Option.orElse_eq_or, Option.or_eq_none_iff] at h
  obtain ⟨hnd, hall⟩ := nodup_of_checkBackends h.2.2.2.2.1
  exact ⟨hnd, fun b hb => (hall b hb).1⟩

/-- The schemas of an accepted configuration have names of their own. -/
theorem schemas_of_validate (h : validate cfg = none) : (cfg.schemas.map (·.name)).Nodup := by
  simp only [validate, Option.orElse_eq_orElse, Option.orElse_eq_or, Option.or_eq_none_iff] at h
  exact (nodup_of_checkSchemas h.2.2.2.2.2.1).1

end ConfigLoader

end DBMesh
