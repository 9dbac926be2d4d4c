/-!
# Shared types

`core/include/dbmesh/core/types.h`: the kinds of query, the roles and states of a backend and the
routing policies.
-/

namespace DBMesh

inductive QueryType
  | select
  | insert
  | update
  | delete
  | ddl
  | call
  | begin
  | commit
  | rollback
  | set
  | use
  | unknown
  deriving DecidableEq, Repr

def QueryType.isWrite (t : QueryType) : Bool :=
  t == .insert || t == .update || t == .delete || t == .ddl || t == .call

inductive BackendRole
  | primary
  | replica
  deriving DecidableEq, Repr

inductive BackendState
  | healthy
  | degraded
  | failed
  | recovering
  | draining
  deriving DecidableEq, Repr

inductive RoutingPolicy
  | roundRobin
  | weighted
  | leastConnections
  | latency
  | random
  | failover
  | consistentHashing
  deriving DecidableEq, Repr

abbrev BackendID := String

/-- The name of a schema. It may come out of a query, so it is the list of its characters. -/
abbrev SchemaName := List Char

instance : LawfulBEq SchemaName := inferInstance

end DBMesh
