import DBMesh.Core.Config
import DBMesh.Lib.Transition
import Mathlib.Data.List.AList

/-!
# The schema registry

`routing/src/schema_registry.cpp`: the entry of each schema, with the entry `default` for the
schemas that have none. The map is copied and swapped in as a whole by every change.

## Main definitions

* `DBMesh.Routing.SchemaRegistry.lookup` — the entry of a schema, or the default
* `DBMesh.Routing.Resolves` — what `lookup` is for

## Main results

* `DBMesh.Routing.SchemaRegistry.lookup_eq_some_iff`, `lookup_eq_none_iff` — `lookup` resolves a
  name
* `DBMesh.Routing.SchemaRegistry.default_run` — the default entry is permanent
-/

namespace DBMesh.Routing

structure SchemaRegistry where
  current : AList (fun _ : SchemaName => SchemaConfig) := ∅
  version : ℕ := 0

def defaultSchema : SchemaName := "default".toList

namespace SchemaRegistry

/-- `emplace` keeps the entry that a name already has. -/
def load (reg : SchemaRegistry) (schemas : List SchemaConfig) : SchemaRegistry where
  current := schemas.foldl (fun m s => if s.name ∈ m then m else m.insert s.name s) ∅
  version := reg.version + 1

def lookup (reg : SchemaRegistry) (name : SchemaName) : Option SchemaConfig :=
  match reg.current.lookup name with
  | some config => some config
  | none => reg.current.lookup defaultSchema

def upsert (reg : SchemaRegistry) (config : SchemaConfig) : SchemaRegistry where
  current := reg.current.insert config.name config
  version := reg.version + 1

def remove (reg : SchemaRegistry) (name : SchemaName) : SchemaRegistry :=
  if name = defaultSchema then reg
  else if name ∈ reg.current then
    { current := reg.current.erase name, version := reg.version + 1 }
  else reg

/-- A change of one schema. -/
inductive Change
  | upsert (config : SchemaConfig)
  | remove (name : SchemaName)

def change (reg : SchemaRegistry) : Change → Option SchemaRegistry
  | .upsert config => some (reg.upsert config)
  | .remove name => some (reg.remove name)

end SchemaRegistry

/-- The entry that a name stands for: its own, or the default if it has none. -/
def Resolves (reg : SchemaRegistry) (name : SchemaName) (config : SchemaConfig) : Prop :=
  reg.current.lookup name = some config ∨
    (reg.current.lookup name = none ∧ reg.current.lookup defaultSchema = some config)

namespace SchemaRegistry

variable {reg reg' : SchemaRegistry} {name : SchemaName} {config : SchemaConfig}

theorem lookup_eq_some_iff : reg.lookup name = some config ↔ Resolves reg name config := by
  rw [lookup, Resolves]
  cases hname : reg.current.lookup name with
  | none => simp
  | some config' => simp

theorem lookup_eq_none_iff :
    reg.lookup name = none ↔
      reg.current.lookup name = none ∧ reg.current.lookup defaultSchema = none := by
  rw [lookup]
  cases hname : reg.current.lookup name with
  | none => simp
  | some config' => simp

theorem default_change {c : Change} (hdefault : (reg.current.lookup defaultSchema).isSome)
    (h : reg.change c = some reg') : (reg'.current.lookup defaultSchema).isSome := by
  cases c with
  | upsert config =>
    obtain rfl := Option.some.inj h
    show ((reg.current.insert config.name config).lookup defaultSchema).isSome
    by_cases hname : defaultSchema = config.name
    · rw [hname, AList.lookup_insert]
      rfl
    · rwa [AList.lookup_insert_ne hname]
  | remove name =>
    obtain rfl := Option.some.inj h
    rw [remove]
    split_ifs with hname hmem
    · exact hdefault
    · show ((reg.current.erase name).lookup defaultSchema).isSome
      rwa [AList.lookup_erase_ne (Ne.symm hname)]
    · exact hdefault

/-- **The default entry is permanent**: no sequence of changes takes it away, so that every name
keeps resolving. -/
theorem default_run {cs : List Change} (hdefault : (reg.current.lookup defaultSchema).isSome)
    (h : Transition.run change reg cs = some reg') (name : SchemaName) :
    (reg'.lookup name).isSome := by
  have hdefault' : (reg'.current.lookup defaultSchema).isSome :=
    Transition.preserved_run (I := fun reg => (reg.current.lookup defaultSchema).isSome)
      (fun _ _ _ hd h => default_change hd h) hdefault h
  rw [Option.isSome_iff_ne_none]
  intro hnone
  rw [(lookup_eq_none_iff.mp hnone).2] at hdefault'
  exact absurd hdefault' (by simp)

end SchemaRegistry

end DBMesh.Routing
