import DBMesh.Lib.Trace
import DBMesh.Routing.BackendSelector

/-!
# The selector beside the updates

`BackendSelector::select` takes no lock. It loads the snapshot once and then reads role, state and
lag of one entry after the other, each with an atomic load of its own, while the health monitor
writes them through `update_state`, `update_role` and `update_lag` and the snapshot is replaced.
Here each of these loads and stores is a step, and the steps of all calls interleave in every order.

What is selected need never have been fit for the request at any one time. It had what it needs at
moments that come one after the other within the call, and this is what the theorem says.

## Main definitions

* `DBMesh.Selecting.Phase.move` — the next step of a call
* `DBMesh.Selecting.State.step` — one step of the system
* `DBMesh.Selecting.moments` — the registry as a call saw it, step by step
* `DBMesh.Selecting.Offered`, `Refused` — what a call has seen of a backend and of a group

## Main results

* `DBMesh.Selecting.select_moments` — what an answer says of the moments of its call
-/

namespace DBMesh.Selecting

open DBMesh.Routing Transition

/-! ### Calls -/

/-- The arguments of `select`, and the draw of the generator. -/
structure Call where
  schema : SchemaConfig
  role : BackendRole
  ctx : RoutingContext := {}
  draw : ℕ := 0

/-- A call that writes into an entry. -/
inductive Update
  | state (id : BackendID) (state : BackendState)
  | role (id : BackendID) (role : BackendRole)
  | lag (id : BackendID) (lagMs : UInt32)

namespace Update

def id : Update → BackendID
  | state id _ | role id _ | lag id _ => id

def write (e : BackendEntry) : Update → BackendEntry
  | state _ x => { e with state := x }
  | role _ x => { e with role := x }
  | lag _ x => { e with replicationLagMs := x }

/-- `update_lag` does not count as a change of version. -/
def bumps : Update → Bool
  | state _ _ | role _ _ => true
  | lag _ _ => false

/-- The same call with nothing beside it. -/
def op : Update → RegistryOp
  | state id x => .updateState id x
  | role id x => .updateRole id x
  | lag id x => .updateLag id x

end Update

/-- Where a call is, with the references that it holds: those it has still to look at and those it
has kept. -/
inductive Phase
  | updating (u : Update)
  | writing (u : Update) (r : Ref)
  | bumping
  | loading (call : Call) (role : BackendRole)
  -- the loop of `get_group_by_role`
  | matching (call : Call) (role : BackendRole) (todo found : List Ref)
  -- the loop of `filter`: the state, and then the lag of a replica
  | filtering (call : Call) (role : BackendRole) (todo kept : List Ref)
  | lagging (call : Call) (role : BackendRole) (r : Ref) (todo kept : List Ref)
  | choosing (call : Call) (kept : List Ref)
  -- the loop of `FailoverPolicy::select`
  | probing (call : Call) (todo kept : List Ref)
  | selected (call : Call) (result : Except RoutingError BackendID)
  | done

/-- What all calls share. -/
structure Shared where
  reg : BackendRegistry
  selector : BackendSelector

/-- The end of `select`. -/
def answer (chosen : BackendID) : Except RoutingError BackendID :=
  if chosen = "" then .error .noBackendAvailable else .ok chosen

def Shared.write (x : Shared) (u : Update) (r : Ref) : Shared :=
  { x with reg := { x.reg with heap := Function.update x.reg.heap r (u.write (x.reg.heap r)) } }

/-- The next step of a call. The id and the weight of an entry never change, so that a policy which
reads nothing else has them from any registry. -/
def Phase.move (x : Shared) : Phase → Option (Shared × Phase)
  | updating u =>
    match x.reg.get u.id with
    | some r => some (x, writing u r)
    | none => some (x, done)
  | writing u r => some (x.write u r, if u.bumps then bumping else done)
  | bumping => some ({ x with reg := { x.reg with version := x.reg.version + 1 } }, done)
  | loading call role =>
    some (x, matching call role (x.reg.getGroup call.schema.backendGroup) [])
  | matching call role (r :: todo) found =>
    some (x, matching call role todo
      (if (x.reg.heap r).role = role then found ++ [r] else found))
  | matching call role [] found => some (x, filtering call role found [])
  | filtering call role (r :: todo) kept =>
    if usableForRole (x.reg.heap r).state role then
      if role = .replica ∧ x.selector.defaults.replicationAware = true then
        some (x, lagging call role r todo kept)
      else some (x, filtering call role todo (kept ++ [r]))
    else some (x, filtering call role todo kept)
  | lagging call role r todo kept =>
    some (x, filtering call role todo
      (if x.selector.defaults.maxReplicaLagMs < (x.reg.heap r).replicationLagMs then kept
      else kept ++ [r]))
  | filtering call role [] [] =>
    if role = .replica then some (x, loading call .primary)
    else some (x, selected call (.error .noBackendAvailable))
  | filtering call _ [] (r :: kept) => some (x, choosing call (r :: kept))
  | choosing call kept =>
    let p := x.selector.policyOf call.schema
    if p = .failover then some (x, probing call kept kept)
    else
      let chosen := createPolicy p (kept.map x.reg.heap) call.ctx call.draw (x.selector.counters p)
      some ({ x with selector :=
          { x.selector with counters := Function.update x.selector.counters p chosen.2 } },
        selected call (answer chosen.1))
  | probing call (r :: todo) kept =>
    if (x.reg.heap r).state ≠ .failed ∧ (x.reg.heap r).state ≠ .draining then
      some (x, selected call (answer (x.reg.heap r).id))
    else some (x, probing call todo kept)
  | probing call [] kept => some (x, selected call (answer (idAt (kept.map x.reg.heap) 0)))
  | selected _ _ => none
  | done => none

/-! ### The system -/

structure State extends Shared where
  procs : List Phase := []

def start (reg : BackendRegistry) (selector : BackendSelector) : State := { reg, selector }

/-- The operations that replace the snapshot. They run under the lock, and what they prepare is out
of reach for the others until it is stored, so that each is one step. -/
def structural : RegistryOp → Bool
  | .load _ _ | .add _ _ | .remove _ _ => true
  | .updateState _ _ | .updateRole _ _ | .updateLag _ _ => false

inductive Act
  | change (op : RegistryOp)
  | update (u : Update)
  | select (call : Call)
  | step (i : ℕ)

def Act.caller : Act → Option ℕ
  | .step i => some i
  | .change _ | .update _ | .select _ => none

def State.step (s : State) : Act → Option State
  | .change op =>
    if structural op then (s.reg.step op).map fun reg => { s with reg := reg } else none
  | .update u => some { s with procs := s.procs ++ [.updating u] }
  | .select call => some { s with procs := s.procs ++ [.loading call call.role] }
  | .step i => s.procs[i]?.bind fun q =>
      (q.move s.toShared).map fun y => { toShared := y.1, procs := s.procs.set i y.2 }

/-- The registry as the call `i` saw it, at each of its steps. -/
def moments (i : ℕ) (s : State) (as : List Act) : List BackendRegistry :=
  trace State.step (fun s a => if a.caller = some i then [s.reg] else []) s as

/-! ### What a call has seen -/

/-- In this registry the entry has the role and is usable for it. -/
def Fit (config : RoutingConfig) (role : BackendRole) (v : BackendRegistry) (r : Ref) : Prop :=
  (v.heap r).role = role ∧ Usable config (v.heap r) role

/-- At a first moment `r` was the entry of `id` in the group, at a second one it had the role, at a
third one its state was fit and, for a replica whose lag counts, at a last one its lag. -/
def Offered (config : RoutingConfig) (h : List BackendRegistry) (group : String)
    (role : BackendRole) (r : Ref) (id : BackendID) : Prop :=
  ∃ u₁ u₂ u₃ : BackendRegistry, [u₁, u₂, u₃].Sublist h ∧
    u₁.get id = some r ∧ (u₁.heap r).group = group ∧ (u₂.heap r).role = role ∧
    usableForRole (u₃.heap r).state role = true ∧
    (role = .replica → config.replicationAware = true → ∃ u₄ : BackendRegistry,
      [u₁, u₂, u₃, u₄].Sublist h ∧ (u₄.heap r).replicationLagMs ≤ config.maxReplicaLagMs)

/-- Each backend that was in the group at a first moment was unfit for the role at a later one. -/
def Refused (config : RoutingConfig) (h : List BackendRegistry) (group : String)
    (role : BackendRole) : Prop :=
  ∃ (u : BackendRegistry) (h' : List BackendRegistry), (u :: h').Sublist h ∧
    ∀ id r, u.get id = some r → (u.heap r).group = group → ∃ v ∈ h', ¬ Fit config role v r

/-- The role that a call asks for: its own or, when it has been refused a replica, a primary. -/
def Asks (config : RoutingConfig) (h : List BackendRegistry) (call : Call) (role : BackendRole) :
    Prop :=
  role = call.role ∨
    (role = .primary ∧ call.role = .replica ∧
      Refused config h call.schema.backendGroup .replica)

/-- What an answer says of the moments `h` of its call. A backend that is named was offered for the
role that the call asked for. With an error the call was refused a primary, or its policy passed
over what it was offered. -/
def Answered (config : RoutingConfig) (h : List BackendRegistry) (call : Call) :
    Except RoutingError BackendID → Prop
  | .ok id => ∃ h₁ h₂ role r, h = h₁ ++ h₂ ∧ Asks config h₁ call role ∧
      Offered config h₂ call.schema.backendGroup role r id
  | .error e => e = .noBackendAvailable ∧
      ((∃ h₁ h₂, h = h₁ ++ h₂ ∧ Asks config h₁ call .primary ∧
          Refused config h₂ call.schema.backendGroup .primary) ∨
        ∃ h₁ h₂ role r id, h = h₁ ++ h₂ ∧ Asks config h₁ call role ∧
          Offered config h₂ call.schema.backendGroup role r id ∧
          (id = "" ∨ ¬ Heard (call.schema.routingPolicy.getD config.defaultPolicy) call.ctx id))

/-! ### What a step can do -/

inductive Move (x : Shared) : Phase → Shared → Phase → Prop
  | find (u : Update) (r : Ref) : Move x (.updating u) x (.writing u r)
  | absent (u : Update) : Move x (.updating u) x .done
  | write (u : Update) (r : Ref) :
    Move x (.writing u r) (x.write u r) (if u.bumps then .bumping else .done)
  | bump : Move x .bumping { x with reg := { x.reg with version := x.reg.version + 1 } } .done
  | load (call : Call) (role : BackendRole) :
    Move x (.loading call role) x
      (.matching call role (x.reg.getGroup call.schema.backendGroup) [])
  | hasRole (call : Call) (role : BackendRole) (r : Ref) (todo found : List Ref)
    (h : (x.reg.heap r).role = role) :
    Move x (.matching call role (r :: todo) found) x (.matching call role todo (found ++ [r]))
  | otherRole (call : Call) (role : BackendRole) (r : Ref) (todo found : List Ref)
    (h : (x.reg.heap r).role ≠ role) :
    Move x (.matching call role (r :: todo) found) x (.matching call role todo found)
  | matched (call : Call) (role : BackendRole) (found : List Ref) :
    Move x (.matching call role [] found) x (.filtering call role found [])
  | unusable (call : Call) (role : BackendRole) (r : Ref) (todo kept : List Ref)
    (h : ¬ usableForRole (x.reg.heap r).state role = true) :
    Move x (.filtering call role (r :: todo) kept) x (.filtering call role todo kept)
  | usable (call : Call) (role : BackendRole) (r : Ref) (todo kept : List Ref)
    (h : usableForRole (x.reg.heap r).state role = true)
    (hlag : ¬ (role = .replica ∧ x.selector.defaults.replicationAware = true)) :
    Move x (.filtering call role (r :: todo) kept) x (.filtering call role todo (kept ++ [r]))
  | upToLag (call : Call) (role : BackendRole) (r : Ref) (todo kept : List Ref)
    (h : usableForRole (x.reg.heap r).state role = true)
    (hlag : role = .replica ∧ x.selector.defaults.replicationAware = true) :
    Move x (.filtering call role (r :: todo) kept) x (.lagging call role r todo kept)
  | behind (call : Call) (role : BackendRole) (r : Ref) (todo kept : List Ref)
    (h : x.selector.defaults.maxReplicaLagMs < (x.reg.heap r).replicationLagMs) :
    Move x (.lagging call role r todo kept) x (.filtering call role todo kept)
  | inTime (call : Call) (role : BackendRole) (r : Ref) (todo kept : List Ref)
    (h : ¬ x.selector.defaults.maxReplicaLagMs < (x.reg.heap r).replicationLagMs) :
    Move x (.lagging call role r todo kept) x (.filtering call role todo (kept ++ [r]))
  | fallBack (call : Call) : Move x (.filtering call .replica [] []) x (.loading call .primary)
  | refuse (call : Call) :
    Move x (.filtering call .primary [] []) x (.selected call (.error .noBackendAvailable))
  | filtered (call : Call) (role : BackendRole) (kept : List Ref) (h : kept ≠ []) :
    Move x (.filtering call role [] kept) x (.choosing call kept)
  | choose (call : Call) (kept : List Ref) (p : RoutingPolicy)
    (hp : x.selector.policyOf call.schema = p) (hfailover : p ≠ .failover)
    (chosen : BackendID × UInt64) (h : createPolicy p (kept.map x.reg.heap) call.ctx call.draw
      (x.selector.counters p) = chosen) :
    Move x (.choosing call kept)
      { x with selector :=
        { x.selector with counters := Function.update x.selector.counters p chosen.2 } }
      (.selected call (answer chosen.1))
  | probe (call : Call) (kept : List Ref) (h : x.selector.policyOf call.schema = .failover) :
    Move x (.choosing call kept) x (.probing call kept kept)
  | up (call : Call) (r : Ref) (todo kept : List Ref)
    (h : (x.reg.heap r).state ≠ .failed ∧ (x.reg.heap r).state ≠ .draining) :
    Move x (.probing call (r :: todo) kept) x (.selected call (answer (x.reg.heap r).id))
  | down (call : Call) (r : Ref) (todo kept : List Ref)
    (h : ¬ ((x.reg.heap r).state ≠ .failed ∧ (x.reg.heap r).state ≠ .draining)) :
    Move x (.probing call (r :: todo) kept) x (.probing call todo kept)
  | allDown (call : Call) (kept : List Ref) :
    Move x (.probing call [] kept) x
      (.selected call (answer (idAt (kept.map x.reg.heap) 0)))

variable {x y : Shared} {q q' : Phase}

theorem Move.of_move (h : q.move x = some (y, q')) : Move x q y q' := by
  cases q with
  | updating u =>
    rw [Phase.move] at h
    split at h
    · obtain ⟨rfl, rfl⟩ := Prod.mk.inj (Option.some.inj h)
      exact .find u _
    · obtain ⟨rfl, rfl⟩ := Prod.mk.inj (Option.some.inj h)
      exact .absent u
  | writing u r =>
    obtain ⟨rfl, rfl⟩ := Prod.mk.inj (Option.some.inj h)
    exact .write u r
  | bumping =>
    obtain ⟨rfl, rfl⟩ := Prod.mk.inj (Option.some.inj h)
    exact .bump
  | loading call role =>
    obtain ⟨rfl, rfl⟩ := Prod.mk.inj (Option.some.inj h)
    exact .load call role
  | matching call role todo found =>
    cases todo with
    | nil =>
      obtain ⟨rfl, rfl⟩ := Prod.mk.inj (Option.some.inj h)
      exact .matched call role found
    | cons r todo =>
      obtain ⟨rfl, rfl⟩ := Prod.mk.inj (Option.some.inj h)
      split
      · next hrole => exact .hasRole call role r todo found hrole
      · next hrole => exact .otherRole call role r todo found hrole
  | filtering call role todo kept =>
    cases todo with
    | nil =>
      cases kept with
      | nil =>
        rw [Phase.move] at h
        split at h
        · next hrole =>
          obtain ⟨rfl, rfl⟩ := Prod.mk.inj (Option.some.inj h)
          subst hrole
          exact .fallBack call
        · next hrole =>
          obtain ⟨rfl, rfl⟩ := Prod.mk.inj (Option.some.inj h)
          cases role with
          | primary => exact .refuse call
          | replica => exact absurd rfl hrole
      | cons r kept =>
        obtain ⟨rfl, rfl⟩ := Prod.mk.inj (Option.some.inj h)
        exact .filtered call role (r :: kept) (List.cons_ne_nil r kept)
    | cons r todo =>
      rw [Phase.move] at h
      split at h
      · next husable =>
        split at h
        · next hlag =>
          obtain ⟨rfl, rfl⟩ := Prod.mk.inj (Option.some.inj h)
          exact .upToLag call role r todo kept husable hlag
        · next hlag =>
          obtain ⟨rfl, rfl⟩ := Prod.mk.inj (Option.some.inj h)
          exact .usable call role r todo kept husable hlag
      · next husable =>
        obtain ⟨rfl, rfl⟩ := Prod.mk.inj (Option.some.inj h)
        exact .unusable call role r todo kept husable
  | lagging call role r todo kept =>
    obtain ⟨rfl, rfl⟩ := Prod.mk.inj (Option.some.inj h)
    split
    · next hlag => exact .behind call role r todo kept hlag
    · next hlag => exact .inTime call role r todo kept hlag
  | choosing call kept =>
    rw [Phase.move] at h
    dsimp only at h
    split at h
    · next hp =>
      obtain ⟨rfl, rfl⟩ := Prod.mk.inj (Option.some.inj h)
      exact .probe call kept hp
    · next hp =>
      obtain ⟨rfl, rfl⟩ := Prod.mk.inj (Option.some.inj h)
      exact .choose call kept _ rfl hp _ rfl
  | probing call todo kept =>
    cases todo with
    | nil =>
      obtain ⟨rfl, rfl⟩ := Prod.mk.inj (Option.some.inj h)
      exact .allDown call kept
    | cons r todo =>
      rw [Phase.move] at h
      split at h
      · next hup =>
        obtain ⟨rfl, rfl⟩ := Prod.mk.inj (Option.some.inj h)
        exact .up call r todo kept hup
      · next hup =>
        obtain ⟨rfl, rfl⟩ := Prod.mk.inj (Option.some.inj h)
        exact .down call r todo kept hup
  | selected call result => cases h
  | done => cases h

/-! ### The registry along a run -/

/-- Entries that have been made keep their id. -/
def Ages (u v : BackendRegistry) : Prop :=
  u.next ≤ v.next ∧ ∀ r < u.next, (v.heap r).id = (u.heap r).id

variable {reg reg' u v w : BackendRegistry}

theorem Ages.refl (u : BackendRegistry) : Ages u u := ⟨Nat.le_refl _, fun _ _ => rfl⟩

theorem Ages.trans (h : Ages u v) (h' : Ages v w) : Ages u w :=
  ⟨Nat.le_trans h.1 h'.1, fun r hr => (h'.2 r (Nat.lt_of_lt_of_le hr h.1)).trans (h.2 r hr)⟩

theorem ages_makeShared (reg : BackendRegistry) (b : BackendConfig) :
    Ages reg (reg.makeShared b) :=
  ⟨Nat.le_succ _, fun _ hr => congrArg (·.id) (BackendRegistry.heap_makeShared b hr)⟩

theorem ages_loadLoop (backends : List BackendConfig) (reg : BackendRegistry) (byId : ById) :
    Ages reg (reg.loadLoop byId backends).1 := by
  induction backends generalizing reg byId with
  | nil => exact .refl reg
  | cons b bs ih => exact (ages_makeShared reg b).trans (ih _ _)

theorem ages_modify (id : BackendID) {f : BackendEntry → BackendEntry}
    (hf : BackendRegistry.KeepsIdentity f) : Ages reg (reg.modify id f) :=
  ⟨Nat.le_of_eq (BackendRegistry.next_modify f).symm,
    fun r _ => (BackendRegistry.heap_modify hf r).1⟩

theorem ages_step {op : RegistryOp} (h : reg.step op = some reg') : Ages reg reg' := by
  obtain ⟨backends, order, -, -, rfl⟩ | ⟨b, order, -, -, rfl⟩ | ⟨id, order, -, -, rfl⟩ |
    ⟨id, f, -, hf, rfl | rfl⟩ := BackendRegistry.step_cases h
  · exact ages_loadLoop backends reg ∅
  · exact ages_makeShared reg b
  · rw [BackendRegistry.remove]
    split <;> exact .refl _
  · exact ages_modify id hf
  · rw [BackendRegistry.bump]
    split <;> exact ages_modify id hf

/-- A store into an entry leaves its id and its group alone, whether it is still registered or
not. -/
theorem heap_write (x : Shared) (u : Update) (r r' : Ref) :
    ((x.write u r).reg.heap r').id = (x.reg.heap r').id ∧
      ((x.write u r).reg.heap r').group = (x.reg.heap r').group := by
  rw [Shared.write]
  by_cases hr : r' = r
  · subst hr
    simp only [Function.update_self]
    cases u <;> exact ⟨rfl, rfl⟩
  · simp only [Function.update_of_ne hr, and_self]

theorem inv_write (I : x.reg.Inv) (u : Update) (r : Ref) : (x.write u r).reg.Inv where
  keyed := by
    intro id r' hr'
    rw [(heap_write x u r r').1]
    exact I.keyed id r' hr'
  noEmptyGroup := I.noEmptyGroup
  index := by
    obtain ⟨order, hperm, hindex⟩ := I.index
    refine ⟨order, hperm, fun g => ?_⟩
    simp only [(heap_write x u r _).2]
    exact hindex g

/-- What a step of a call does to the registry. -/
theorem Move.keeps (I : x.reg.Inv) (h : Move x q y q') : y.reg.Inv ∧ Ages x.reg y.reg := by
  cases h with
  | write u r => exact ⟨inv_write I u r, Nat.le_refl _, fun r' _ => (heap_write x u r r').1⟩
  | bump => exact ⟨⟨I.keyed, I.noEmptyGroup, I.index⟩, .refl _⟩
  | _ => exact ⟨I, .refl _⟩

theorem Move.defaults (h : Move x q y q') : y.selector.defaults = x.selector.defaults := by
  cases h <;> rfl

/-! ### What is known of a call under way -/

def HasRole (role : BackendRole) (h : List BackendRegistry) (r : Ref) : Prop :=
  ∃ u₁ ∈ h, (u₁.heap r).role = role

def InState (role : BackendRole) (h : List BackendRegistry) (r : Ref) : Prop :=
  ∃ u₁ u₂ : BackendRegistry, [u₁, u₂].Sublist h ∧ (u₁.heap r).role = role ∧
    usableForRole (u₂.heap r).state role = true

def Through (config : RoutingConfig) (role : BackendRole) (h : List BackendRegistry) (r : Ref) :
    Prop :=
  ∃ u₁ u₂ : BackendRegistry, [u₁, u₂].Sublist h ∧ (u₁.heap r).role = role ∧
    usableForRole (u₂.heap r).state role = true ∧
    (role = .replica → config.replicationAware = true → ∃ u₃ : BackendRegistry,
      [u₁, u₂, u₃].Sublist h ∧ (u₃.heap r).replicationLagMs ≤ config.maxReplicaLagMs)

/-- One pass over the group that was loaded at the moment `u`. The references that it has still to
look at have come through the loop before, those it has kept have come through this one, and the
others were unfit. -/
structure Pass (config : RoutingConfig) (call : Call) (role : BackendRole)
    (before after : List BackendRegistry → Ref → Prop) (h₁ : List BackendRegistry)
    (u : BackendRegistry) (h₂ : List BackendRegistry) (todo kept : List Ref) : Prop where
  asks : Asks config h₁ call role
  sorted : ∀ r ∈ u.getGroup call.schema.backendGroup,
    r ∈ todo ∨ r ∈ kept ∨ ∃ v ∈ h₂, ¬ Fit config role v r
  todo : ∀ r ∈ todo, r ∈ u.getGroup call.schema.backendGroup ∧ before h₂ r
  kept : ∀ r ∈ kept, r ∈ u.getGroup call.schema.backendGroup ∧ after h₂ r

/-- The candidates of a call: each was offered for the role that the call asked for. -/
def Candidates (config : RoutingConfig) (h : List BackendRegistry) (call : Call)
    (kept : List Ref) : Prop :=
  kept ≠ [] ∧ ∃ h₁ h₂ role, h = h₁ ++ h₂ ∧ Asks config h₁ call role ∧
    ∀ r ∈ kept, ∃ id, Offered config h₂ call.schema.backendGroup role r id

def Phase.Known (config : RoutingConfig) (h : List BackendRegistry) : Phase → Prop
  | loading call role => Asks config h call role
  | matching call role todo found => ∃ h₁ u h₂, h = h₁ ++ u :: h₂ ∧
      Pass config call role (fun _ _ => True) (HasRole role) h₁ u h₂ todo found
  | filtering call role todo kept => ∃ h₁ u h₂, h = h₁ ++ u :: h₂ ∧
      Pass config call role (HasRole role) (Through config role) h₁ u h₂ todo kept
  | lagging call role r todo kept => (role = .replica ∧ config.replicationAware = true) ∧
      ∃ h₁ u h₂, h = h₁ ++ u :: h₂ ∧ InState role h₂ r ∧
        Pass config call role (HasRole role) (Through config role) h₁ u h₂ (r :: todo) kept
  | choosing call kept => Candidates config h call kept
  | probing call todo kept => Candidates config h call kept ∧ todo ⊆ kept
  | selected call result => Answered config h call result
  | updating _ | writing _ _ | bumping | done => True

section

variable {config : RoutingConfig} {call : Call} {role : BackendRole}
  {h h₁ h₂ : List BackendRegistry} {r : Ref} {todo kept : List Ref}

/-- The last moment comes after every other one. -/
theorem sublist_concat {l : List BackendRegistry} (hl : l.Sublist h) (v : BackendRegistry) :
    (l ++ [v]).Sublist (h ++ [v]) := hl.append (List.Sublist.refl [v])

theorem HasRole.concat (H : HasRole role h r) (v : BackendRegistry) :
    HasRole role (h ++ [v]) r := by
  obtain ⟨u₁, hu₁, hrole⟩ := H
  exact ⟨u₁, List.mem_append_left _ hu₁, hrole⟩

theorem Through.concat (H : Through config role h r) (v : BackendRegistry) :
    Through config role (h ++ [v]) r := by
  obtain ⟨u₁, u₂, hsub, hrole, hstate, hlag⟩ := H
  refine ⟨u₁, u₂, hsub.trans (List.sublist_append_left ..), hrole, hstate, fun hr haware => ?_⟩
  obtain ⟨u₃, hsub₃, hu₃⟩ := hlag hr haware
  exact ⟨u₃, hsub₃.trans (List.sublist_append_left ..), hu₃⟩

theorem hasRole_concat (h : List BackendRegistry) (hrole : (v.heap r).role = role) :
    HasRole role (h ++ [v]) r :=
  ⟨v, List.mem_append_right _ (List.mem_singleton_self v), hrole⟩

theorem HasRole.inState (H : HasRole role h r)
    (hstate : usableForRole (v.heap r).state role = true) : InState role (h ++ [v]) r := by
  obtain ⟨u₁, hu₁, hrole⟩ := H
  exact ⟨u₁, v, sublist_concat (List.singleton_sublist.mpr hu₁) v, hrole, hstate⟩

theorem InState.through (H : InState role h r)
    (hlag : (v.heap r).replicationLagMs ≤ config.maxReplicaLagMs) :
    Through config role (h ++ [v]) r := by
  obtain ⟨u₁, u₂, hsub, hrole, hstate⟩ := H
  exact ⟨u₁, u₂, hsub.trans (List.sublist_append_left ..), hrole, hstate,
    fun _ _ => ⟨v, sublist_concat hsub v, hlag⟩⟩

theorem InState.through_of_not (H : InState role h r)
    (hlag : ¬ (role = .replica ∧ config.replicationAware = true)) : Through config role h r := by
  obtain ⟨u₁, u₂, hsub, hrole, hstate⟩ := H
  exact ⟨u₁, u₂, hsub, hrole, hstate, fun hr haware => absurd ⟨hr, haware⟩ hlag⟩

/-! ### One step of a pass -/

namespace Pass

variable {before after : List BackendRegistry → Ref → Prop}

/-- The step that looks at `r` keeps it, or has seen that it is unfit. -/
theorem next (P : Pass config call role before after h₁ u h₂ (r :: todo) kept)
    (hbefore : ∀ r, before h₂ r → before (h₂ ++ [v]) r)
    (hafter : ∀ r, after h₂ r → after (h₂ ++ [v]) r) :
    (after (h₂ ++ [v]) r →
      Pass config call role before after h₁ u (h₂ ++ [v]) todo (kept ++ [r])) ∧
    (¬ Fit config role v r → Pass config call role before after h₁ u (h₂ ++ [v]) todo kept) := by
  have htodo : ∀ r ∈ todo, r ∈ u.getGroup call.schema.backendGroup ∧ before (h₂ ++ [v]) r :=
    fun r' hr' => (P.todo r' (List.mem_cons_of_mem _ hr')).imp_right (hbefore r')
  have hkept : ∀ r ∈ kept, r ∈ u.getGroup call.schema.backendGroup ∧ after (h₂ ++ [v]) r :=
    fun r' hr' => (P.kept r' hr').imp_right (hafter r')
  have hold : ∀ r', (∃ v ∈ h₂, ¬ Fit config role v r') →
      ∃ w ∈ h₂ ++ [v], ¬ Fit config role w r' := by
    intro r' hr'
    obtain ⟨w, hw, hfit⟩ := hr'
    exact ⟨w, List.mem_append_left _ hw, hfit⟩
  constructor
  · intro hr
    refine ⟨P.asks, fun r' hr' => ?_, htodo, fun r' hr' => ?_⟩
    · obtain hmem | hmem | hmem := P.sorted r' hr'
      · obtain rfl | hmem := List.mem_cons.mp hmem
        · exact .inr (.inl (List.mem_append_right _ (List.mem_singleton_self r')))
        · exact .inl hmem
      · exact .inr (.inl (List.mem_append_left _ hmem))
      · exact .inr (.inr (hold r' hmem))
    · obtain hmem | hmem := List.mem_append.mp hr'
      · exact hkept r' hmem
      · obtain rfl := List.mem_singleton.mp hmem
        exact ⟨(P.todo r' (List.mem_cons_self ..)).1, hr⟩
  · intro hr
    refine ⟨P.asks, fun r' hr' => ?_, htodo, hkept⟩
    obtain hmem | hmem | hmem := P.sorted r' hr'
    · obtain rfl | hmem := List.mem_cons.mp hmem
      · exact .inr (.inr ⟨v, List.mem_append_right _ (List.mem_singleton_self v), hr⟩)
      · exact .inl hmem
    · exact .inr (.inl hmem)
    · exact .inr (.inr (hold r' hmem))

/-- A step that looks at none of them. -/
theorem wait (P : Pass config call role before after h₁ u h₂ todo kept)
    (hbefore : ∀ r, before h₂ r → before (h₂ ++ [v]) r)
    (hafter : ∀ r, after h₂ r → after (h₂ ++ [v]) r) :
    Pass config call role before after h₁ u (h₂ ++ [v]) todo kept := by
  refine ⟨P.asks, fun r hr => ?_, fun r hr => (P.todo r hr).imp_right (hbefore r),
    fun r hr => (P.kept r hr).imp_right (hafter r)⟩
  obtain hmem | hmem | ⟨w, hw, hfit⟩ := P.sorted r hr
  · exact .inl hmem
  · exact .inr (.inl hmem)
  · exact .inr (.inr ⟨w, List.mem_append_left _ hw, hfit⟩)

/-- What has come through one loop goes into the next one. -/
theorem swap {after' : List BackendRegistry → Ref → Prop}
    (P : Pass config call role before after h₁ u h₂ [] kept) :
    Pass config call role after after' h₁ u h₂ kept [] := by
  refine ⟨P.asks, fun r hr => ?_, P.kept, fun r hr => absurd hr List.not_mem_nil⟩
  obtain hmem | hmem | hmem := P.sorted r hr
  · exact absurd hmem List.not_mem_nil
  · exact .inl hmem
  · exact .inr (.inr hmem)

/-- A pass that has kept nothing has refused the group. -/
theorem refused (P : Pass config call role before after h₁ u h₂ [] []) (I : u.Inv)
    (hsub : (u :: h₂).Sublist h) : Refused config h call.schema.backendGroup role := by
  refine ⟨u, h₂, hsub, fun id r hid hgroup => ?_⟩
  obtain hmem | hmem | hmem := P.sorted r ((I.mem_getGroup _).mpr ⟨id, hid, hgroup⟩)
  · exact absurd hmem List.not_mem_nil
  · exact absurd hmem List.not_mem_nil
  · exact hmem

/-- What it has kept was offered. -/
theorem candidates (P : Pass config call role before (Through config role) h₁ u h₂ [] kept)
    (I : u.Inv) (hkept : kept ≠ []) : Candidates config (h₁ ++ u :: h₂) call kept := by
  refine ⟨hkept, h₁, u :: h₂, role, rfl, P.asks, fun r hr => ?_⟩
  obtain ⟨hmem, u₁, u₂, hsub, hrole, hstate, hlag⟩ := P.kept r hr
  obtain ⟨id, hid, hgroup⟩ := (I.mem_getGroup _).mp hmem
  refine ⟨id, u, u₁, u₂, hsub.cons_cons u, hid, hgroup, hrole, hstate, fun hr haware => ?_⟩
  obtain ⟨u₃, hsub₃, hu₃⟩ := hlag hr haware
  exact ⟨u₃, hsub₃.cons_cons u, hu₃⟩

end Pass

/-! ### One step of a call -/

theorem Asks.concat (A : Asks config h call role) (v : BackendRegistry) :
    Asks config (h ++ [v]) call role := by
  obtain hrole | ⟨hrole, hcall, w, h', hsub, hunfit⟩ := A
  · exact .inl hrole
  · exact .inr ⟨hrole, hcall, w, h', hsub.trans (List.sublist_append_left ..), hunfit⟩

theorem Offered.concat {group : String} {id : BackendID}
    (O : Offered config h group role r id) (v : BackendRegistry) :
    Offered config (h ++ [v]) group role r id := by
  obtain ⟨u₁, u₂, u₃, hsub, hid, hgroup, hrole, hstate, hlag⟩ := O
  refine ⟨u₁, u₂, u₃, hsub.trans (List.sublist_append_left ..), hid, hgroup, hrole, hstate,
    fun hr haware => ?_⟩
  obtain ⟨u₄, hsub₄, hu₄⟩ := hlag hr haware
  exact ⟨u₄, hsub₄.trans (List.sublist_append_left ..), hu₄⟩

theorem Candidates.concat (C : Candidates config h call kept) (v : BackendRegistry) :
    Candidates config (h ++ [v]) call kept := by
  obtain ⟨hkept, h₁, h₂, role, rfl, hasks, hall⟩ := C
  refine ⟨hkept, h₁, h₂ ++ [v], role, List.append_assoc .., hasks, fun r hr => ?_⟩
  obtain ⟨id, O⟩ := hall r hr
  exact ⟨id, O.concat v⟩

/-- The registries that a call has seen, from a later one on. -/
def Seen (h : List BackendRegistry) (v : BackendRegistry) : Prop := ∀ u ∈ h, u.Inv ∧ Ages u v

/-- The id that was offered is the one that the entry still has. -/
theorem Offered.id_eq {group : String} {id : BackendID} (O : Offered config h group role r id)
    (hseen : Seen h v) : (v.heap r).id = id := by
  obtain ⟨u₁, u₂, u₃, hsub, hid, -⟩ := O
  obtain ⟨I, hages⟩ := hseen u₁ (hsub.subset (List.mem_cons_self ..))
  obtain ⟨hkey, hlt⟩ := I.keyed id r hid
  rw [hages.2 r hlt, hkey]

/-- A candidate that is picked answers the call. -/
theorem Candidates.answered (C : Candidates config h call kept) (hseen : Seen h v)
    (hr : r ∈ kept) : Answered config h call (answer (v.heap r).id) := by
  obtain ⟨-, h₁, h₂, role, rfl, hasks, hall⟩ := C
  obtain ⟨id, O⟩ := hall r hr
  have hid : (v.heap r).id = id := O.id_eq fun u hu => hseen u (List.mem_append_right _ hu)
  rw [hid, answer]
  split
  · next hempty => exact ⟨rfl, .inr ⟨h₁, h₂, role, r, id, rfl, hasks, O, .inl hempty⟩⟩
  · exact ⟨h₁, h₂, role, r, rfl, hasks, O⟩

/-- A policy answers with a candidate, or has passed over one. -/
theorem Candidates.answered_createPolicy (C : Candidates config h call kept) (hseen : Seen h v)
    (counter : UInt64) :
    Answered config h call (answer (createPolicy
      (call.schema.routingPolicy.getD config.defaultPolicy) (kept.map v.heap) call.ctx call.draw
      counter).1) := by
  generalize hp : call.schema.routingPolicy.getD config.defaultPolicy = p
  by_cases hempty : (createPolicy p (kept.map v.heap) call.ctx call.draw counter).1 = ""
  · -- the policy has answered nothing: some candidate has no id, or it heard none of them
    have hpassed : ∃ r ∈ kept, (v.heap r).id = "" ∨ ¬ Heard p call.ctx (v.heap r).id := by
      by_cases hid : ∀ e ∈ kept.map v.heap, e.id ≠ ""
      · have hnone := (createPolicy_ne_empty_iff p hid
          (by simpa using C.1) call.ctx call.draw counter).not.mp (not_not.mpr hempty)
        obtain ⟨r, hr⟩ := List.exists_mem_of_ne_nil kept C.1
        exact ⟨r, hr, .inr fun hheard => hnone ⟨_, List.mem_map_of_mem hr, hheard⟩⟩
      · by_contra hno
        refine hid fun e he hempty => hno ?_
        obtain ⟨r, hr, rfl⟩ := List.mem_map.mp he
        exact ⟨r, hr, .inl hempty⟩
    rw [hempty, answer, if_pos rfl]
    obtain ⟨r, hr, hpassed⟩ := hpassed
    obtain ⟨-, h₁, h₂, role, rfl, hasks, hall⟩ := C
    obtain ⟨id, O⟩ := hall r hr
    have hid : (v.heap r).id = id := O.id_eq fun u hu => hseen u (List.mem_append_right _ hu)
    rw [hid] at hpassed
    exact ⟨rfl, .inr ⟨h₁, h₂, role, r, id, rfl, hasks, O, hp ▸ hpassed⟩⟩
  · obtain ⟨e, he, hid⟩ := (answers_createPolicy p _ call.ctx call.draw counter).resolve_left hempty
    obtain ⟨r, hr, rfl⟩ := List.mem_map.mp he
    rw [← hid]
    exact C.answered hseen hr

/-- **One step of a call** adds its moment to what is known. -/
theorem Phase.Known.move (K : q.Known config h) (hconfig : x.selector.defaults = config)
    (hseen : Seen h x.reg) (I : x.reg.Inv) (hmove : Move x q y q') :
    q'.Known config (h ++ [x.reg]) := by
  have hseen' : Seen (h ++ [x.reg]) x.reg := by
    intro u hu
    obtain hu | hu := List.mem_append.mp hu
    · exact hseen u hu
    · obtain rfl := List.mem_singleton.mp hu
      exact ⟨I, .refl _⟩
  have hassoc : ∀ (h₁ : List BackendRegistry) (u : BackendRegistry) (h₂ : List BackendRegistry),
      (h₁ ++ u :: h₂) ++ [x.reg] = h₁ ++ u :: (h₂ ++ [x.reg]) := fun h₁ u h₂ => by simp
  cases hmove with
  | find u r => trivial
  | absent u => trivial
  | write u r => cases u <;> trivial
  | bump => trivial
  | load call role =>
    refine ⟨h, x.reg, [], rfl, K, fun r hr => .inl hr, fun r hr => ⟨hr, trivial⟩, fun r hr => ?_⟩
    exact absurd hr List.not_mem_nil
  | hasRole call role r todo found hrole =>
    obtain ⟨h₁, u, h₂, rfl, P⟩ := K
    exact ⟨h₁, u, h₂ ++ [x.reg], hassoc h₁ u h₂,
      (P.next (fun _ _ => trivial) fun _ H => H.concat _).1 (hasRole_concat h₂ hrole)⟩
  | otherRole call role r todo found hrole =>
    obtain ⟨h₁, u, h₂, rfl, P⟩ := K
    exact ⟨h₁, u, h₂ ++ [x.reg], hassoc h₁ u h₂,
      (P.next (fun _ _ => trivial) fun _ H => H.concat _).2 fun hfit => hrole hfit.1⟩
  | matched call role found =>
    obtain ⟨h₁, u, h₂, rfl, P⟩ := K
    exact ⟨h₁, u, h₂ ++ [x.reg], hassoc h₁ u h₂,
      P.swap.wait (fun _ H => H.concat _) fun _ H => H.concat _⟩
  | unusable call role r todo kept hstate =>
    obtain ⟨h₁, u, h₂, rfl, P⟩ := K
    refine ⟨h₁, u, h₂ ++ [x.reg], hassoc h₁ u h₂,
      (P.next (fun _ H => H.concat _) fun _ H => H.concat _).2 fun hfit => hstate ?_⟩
    exact (Bool.and_eq_true_iff.mp (passes_iff.mpr hfit.2)).1
  | usable call role r todo kept hstate hlag =>
    obtain ⟨h₁, u, h₂, rfl, P⟩ := K
    refine ⟨h₁, u, h₂ ++ [x.reg], hassoc h₁ u h₂,
      (P.next (fun _ H => H.concat _) fun _ H => H.concat _).1 ?_⟩
    rw [hconfig] at hlag
    exact ((P.todo r (List.mem_cons_self ..)).2.inState hstate).through_of_not hlag
  | upToLag call role r todo kept hstate hlag =>
    obtain ⟨h₁, u, h₂, rfl, P⟩ := K
    rw [hconfig] at hlag
    exact ⟨hlag, h₁, u, h₂ ++ [x.reg], hassoc h₁ u h₂,
      (P.todo r (List.mem_cons_self ..)).2.inState hstate,
      P.wait (fun _ H => H.concat _) fun _ H => H.concat _⟩
  | behind call role r todo kept hlag =>
    obtain ⟨⟨rfl, haware⟩, h₁, u, h₂, rfl, -, P⟩ := K
    rw [hconfig] at hlag
    exact ⟨h₁, u, h₂ ++ [x.reg], hassoc h₁ u h₂,
      (P.next (fun _ H => H.concat _) fun _ H => H.concat _).2 fun hfit =>
        UInt32.not_le.mpr hlag (hfit.2.2 haware)⟩
  | inTime call role r todo kept hlag =>
    obtain ⟨-, h₁, u, h₂, rfl, S, P⟩ := K
    rw [hconfig] at hlag
    exact ⟨h₁, u, h₂ ++ [x.reg], hassoc h₁ u h₂,
      (P.next (fun _ H => H.concat _) fun _ H => H.concat _).1 (S.through (UInt32.not_lt.mp hlag))⟩
  | fallBack call =>
    obtain ⟨h₁, u, h₂, rfl, P⟩ := K
    have hcall : call.role = .replica := by
      obtain hrole | ⟨hrole, -⟩ := P.asks
      · exact hrole.symm
      · cases hrole
    refine .inr ⟨rfl, hcall, P.refused (hseen u (by simp)).1 ?_⟩
    exact (List.sublist_append_right ..).trans (List.sublist_append_left ..)
  | refuse call =>
    obtain ⟨h₁, u, h₂, rfl, P⟩ := K
    refine ⟨rfl, .inl ⟨h₁, u :: (h₂ ++ [x.reg]), hassoc h₁ u h₂, P.asks, ?_⟩⟩
    exact P.refused (hseen u (by simp)).1 ((List.sublist_append_left ..).cons_cons u)
  | filtered call role kept hkept =>
    obtain ⟨h₁, u, h₂, rfl, P⟩ := K
    exact (P.candidates (hseen u (by simp)).1 hkept).concat x.reg
  | choose call kept p hp hfailover chosen hchosen =>
    obtain rfl : call.schema.routingPolicy.getD config.defaultPolicy = p := by
      rw [← hp, BackendSelector.policyOf, hconfig]
    rw [← hchosen]
    exact (Candidates.concat K x.reg).answered_createPolicy hseen' _
  | probe call kept hp => exact ⟨Candidates.concat K x.reg, fun _ hr => hr⟩
  | up call r todo kept hup =>
    exact (K.1.concat x.reg).answered hseen' (K.2 (List.mem_cons_self ..))
  | down call r todo kept hdown =>
    exact ⟨K.1.concat x.reg, fun r' hr' => K.2 (List.mem_cons_of_mem _ hr')⟩
  | allDown call kept =>
    obtain ⟨C, -⟩ := K
    cases kept with
    | nil => exact absurd rfl C.1
    | cons r kept => exact (C.concat x.reg).answered hseen' (List.mem_cons_self ..)

end

/-! ### Every run -/

/-- What is known of the system after the moments `h` of the call `i`. -/
structure Known (config : RoutingConfig) (i : ℕ) (h : List BackendRegistry) (s : State) :
    Prop where
  inv : s.reg.Inv
  seen : Seen h s.reg
  defaults : s.selector.defaults = config
  call : ∀ q, s.procs[i]? = some q → q.Known config h

variable {config : RoutingConfig} {i : ℕ} {h : List BackendRegistry} {s s' : State} {a : Act}

theorem Seen.ages (hseen : Seen h u) (hages : Ages u v) : Seen h v :=
  fun w hw => (hseen w hw).imp_right fun hold => hold.trans hages

/-- A call that comes in knows nothing, and need not. -/
theorem Known.concat (K : Known config i h s) (q : Phase) (hq : ∀ h, q.Known config h) :
    Known config i h { s with procs := s.procs ++ [q] } where
  inv := K.inv
  seen := K.seen
  defaults := K.defaults
  call := by
    intro q' hq'
    rcases Nat.lt_or_ge i s.procs.length with hlt | hle
    · rw [List.getElem?_append_left hlt] at hq'
      exact K.call q' hq'
    · rw [List.getElem?_append_right hle] at hq'
      obtain rfl := List.mem_singleton.mp (List.mem_of_getElem? hq')
      exact hq h

/-- **One step of the system** adds its moment, if it is one of the call. -/
theorem Known.step (K : Known config i h s) (hs : s.step a = some s') :
    Known config i (h ++ if a.caller = some i then [s.reg] else []) s' := by
  cases a with
  | change op =>
    obtain ⟨-, hs⟩ := Option.ite_none_right_eq_some.mp hs
    obtain ⟨reg, hreg, rfl⟩ := Option.map_eq_some_iff.mp hs
    rw [if_neg (by simp [Act.caller]), List.append_nil]
    exact ⟨K.inv.step hreg, K.seen.ages (ages_step hreg), K.defaults, K.call⟩
  | update u =>
    obtain rfl := Option.some.inj hs
    rw [if_neg (by simp [Act.caller]), List.append_nil]
    exact K.concat _ fun _ => trivial
  | select call =>
    obtain rfl := Option.some.inj hs
    rw [if_neg (by simp [Act.caller]), List.append_nil]
    exact K.concat _ fun _ => .inl rfl
  | step j =>
    obtain ⟨q, hq, hs⟩ := Option.bind_eq_some_iff.mp hs
    obtain ⟨⟨y, q'⟩, hmove, rfl⟩ := Option.map_eq_some_iff.mp hs
    have hmove := Move.of_move hmove
    obtain ⟨I, hages⟩ := hmove.keeps K.inv
    have hdefaults : y.selector.defaults = config := hmove.defaults.trans K.defaults
    have hnow : Seen [s.reg] y.reg := by
      intro u hu
      obtain rfl := List.mem_singleton.mp hu
      exact ⟨K.inv, hages⟩
    rcases eq_or_ne j i with rfl | hne
    · rw [Act.caller, if_pos rfl]
      refine ⟨I, fun u hu => ?_, hdefaults, fun q'' hq'' => ?_⟩
      · exact (List.mem_append.mp hu).elim (K.seen.ages hages u) (hnow u)
      · have hlt : j < s.procs.length := (List.getElem?_eq_some_iff.mp hq).1
        obtain rfl := Option.some.inj ((List.getElem?_set_self hlt).symm.trans hq'')
        exact (K.call q hq).move K.defaults K.seen K.inv hmove
    · rw [Act.caller, if_neg (by simpa using hne), List.append_nil]
      refine ⟨I, K.seen.ages hages, hdefaults, fun q'' hq'' => ?_⟩
      rw [List.getElem?_set_ne hne] at hq''
      exact K.call q'' hq''

/-- **What an answer says of the moments of its call.** Whatever updates, structural changes and
other calls run beside it: a backend that is named was offered to the call, for the role that it
asked for, at moments of the call that come one after the other. With an error the call was refused
a primary, or was offered a backend that its policy passed over. -/
theorem select_moments (reg : BackendRegistry) (I : reg.Inv) (selector : BackendSelector)
    (as : List Act) (s : State) (hrun : run State.step (start reg selector) as = some s) (i : ℕ)
    (call : Call) (result : Except RoutingError BackendID)
    (hi : s.procs[i]? = some (.selected call result)) :
    Answered selector.defaults (moments i (start reg selector) as) call result := by
  have hinit : Known selector.defaults i [] (start reg selector) :=
    ⟨I, fun u hu => absurd hu List.not_mem_nil, rfl, fun q hq => by cases hq⟩
  exact (known_run (fun _ _ _ _ K hs => K.step hs) hinit hrun).call _ hi

/-- A failed primary becomes a healthy replica while a write is routed. -/
def demotedWhileSelecting : List Act :=
  [.select { schema := { name := [], backendGroup := "g" }, role := .primary },
    .step 0, .step 0, .step 0,
    .update (.role "b" .replica), .step 1, .step 1,
    .update (.state "b" .healthy), .step 2, .step 2,
    .step 0, .step 0, .step 0]

/-- It is selected, and at no moment was it a primary that was up. -/
theorem select_moments_demoted : ∃ (reg : BackendRegistry) (s : State) (call : Call),
    run BackendRegistry.step {}
      [.load [{ id := "b", group := "g" }] ["b"], .updateState "b" .failed] = some reg ∧
    run State.step (start reg {}) demotedWhileSelecting = some s ∧
    Answered {} (moments 0 (start reg {}) demotedWhileSelecting) call (.ok "b") ∧
    (moments 0 (start reg {}) demotedWhileSelecting).map
        (fun u => ((u.heap 0).role, (u.heap 0).state)) =
      [(.primary, .failed), (.primary, .failed), (.primary, .failed),
        (.replica, .healthy), (.replica, .healthy), (.replica, .healthy)] := by
  have hreg : run BackendRegistry.step {}
      [.load [{ id := "b", group := "g" }] ["b"], .updateState "b" .failed] = some _ := rfl
  refine ⟨_, _, { schema := { name := [], backendGroup := "g" }, role := .primary }, hreg, rfl,
    ?_, rfl⟩
  exact select_moments _ (BackendRegistry.inv_run hreg) {} demotedWhileSelecting _ rfl 0 _ _ rfl

end DBMesh.Selecting
