import DBMesh.Core.Config
import DBMesh.Lib.Transition
import Mathlib.Data.List.AList
import Mathlib.Logic.Function.Basic

/-!
# The backend registry

`routing/src/backend_registry.cpp`: a snapshot of all backends, by id and by group, that is replaced
as a whole by `load`, `add` and `remove`, while `update_state`, `update_role` and `update_lag` write
into the entries the snapshot points to.

An entry lives behind a `shared_ptr`, so the registry has a heap of entries and the snapshot holds
references into it. `build` fills the group index in the order in which `std::unordered_map`
iterates over the ids. That order is not specified, so every operation that builds a snapshot is
given it.

## Main definitions

* `DBMesh.Routing.BackendEntry`, `BackendSnapshot`, `BackendRegistry` — the data
* `DBMesh.Routing.RegistryOp`, `BackendRegistry.step` — the operations
* `DBMesh.Routing.BackendRegistry.entry` — what the registry knows of an id

## Main results

* `DBMesh.Routing.BackendRegistry.Inv` — the group index is the index of the ids
* `DBMesh.Routing.registry_index` — along every sequence of operations, and the frame of each
-/

namespace DBMesh.Routing

/-! ### Data -/

structure BackendEntry where
  id : BackendID
  host : String
  port : UInt16
  dbUser : String
  passwordRef : String
  group : String
  role : BackendRole
  state : BackendState
  replicationLagMs : UInt32
  weight : Int
  maxReplicationLagMs : UInt32
  deriving DecidableEq, Repr

/-- The constructor from a `BackendConfig`; the weight is cast to a 32-bit `int`. -/
def BackendEntry.ofConfig (c : BackendConfig) : BackendEntry where
  id := c.id
  host := c.host
  port := c.port
  dbUser := c.user
  passwordRef := c.id
  group := c.group
  role := c.role
  state := .healthy
  replicationLagMs := 0
  weight := c.weight.toBitVec.toInt
  maxReplicationLagMs := c.maxReplicationLagMs

/-- A `shared_ptr<BackendEntry>`. -/
abbrev Ref := ℕ

abbrev ById := AList fun _ : BackendID => Ref

abbrev ByGroup := AList fun _ : String => List Ref

structure BackendSnapshot where
  byId : ById := ∅
  byGroup : ByGroup := ∅

/-- `heap` holds the entries that have been made so far, at the references below `next`. -/
structure BackendRegistry where
  heap : Ref → BackendEntry := fun _ => .ofConfig { id := "", group := "" }
  next : Ref := 0
  current : BackendSnapshot := {}
  version : ℕ := 0

/-! ### Operations -/

/-- `by_group[entry->group].push_back(entry)` -/
def pushGroup (byGroup : ByGroup) (group : String) (r : Ref) : ByGroup :=
  byGroup.insert group ((byGroup.lookup group).getD [] ++ [r])

/-- `BackendRegistry::build`, iterating over the ids in the given order. -/
def build (heap : Ref → BackendEntry) (byId : ById) (order : List BackendID) : BackendSnapshot where
  byId := byId
  byGroup := (order.filterMap byId.lookup).foldl (fun m r => pushGroup m (heap r).group r) ∅

namespace BackendRegistry

/-- `std::make_shared<BackendEntry>(b)`, which is the reference `reg.next`. -/
def makeShared (reg : BackendRegistry) (b : BackendConfig) : BackendRegistry :=
  { reg with heap := Function.update reg.heap reg.next (.ofConfig b), next := reg.next + 1 }

/-- `current_.store(build(byId))` and `version_.fetch_add(1)`, under the lock. -/
def store (reg : BackendRegistry) (byId : ById) (order : List BackendID) : BackendRegistry :=
  { reg with current := build reg.heap byId order, version := reg.version + 1 }

/-- The loop of `load`: `emplace` keeps the entry an id already has. -/
def loadLoop (reg : BackendRegistry) (byId : ById) : List BackendConfig → BackendRegistry × ById
  | [] => (reg, byId)
  | b :: bs =>
    loadLoop (reg.makeShared b) (if b.id ∈ byId then byId else byId.insert b.id reg.next) bs

def load (reg : BackendRegistry) (backends : List BackendConfig) (order : List BackendID) :
    BackendRegistry :=
  let r := reg.loadLoop ∅ backends
  r.1.store r.2 order

def get (reg : BackendRegistry) (id : BackendID) : Option Ref := reg.current.byId.lookup id

def getGroup (reg : BackendRegistry) (group : String) : List Ref :=
  (reg.current.byGroup.lookup group).getD []

def getGroupByRole (reg : BackendRegistry) (group : String) (role : BackendRole) : List Ref :=
  (reg.getGroup group).filter fun r => (reg.heap r).role = role

/-- `copy[backend.id] = std::make_shared<BackendEntry>(backend)` -/
def addMap (reg : BackendRegistry) (b : BackendConfig) : ById :=
  reg.current.byId.insert b.id reg.next

def add (reg : BackendRegistry) (b : BackendConfig) (order : List BackendID) : BackendRegistry :=
  (reg.makeShared b).store (reg.addMap b) order

def remove (reg : BackendRegistry) (id : BackendID) (order : List BackendID) : BackendRegistry :=
  if id ∈ reg.current.byId then reg.store (reg.current.byId.erase id) order else reg

/-- Writing members of the entry behind `get(id)`, if there is one. -/
def modify (reg : BackendRegistry) (id : BackendID) (f : BackendEntry → BackendEntry) :
    BackendRegistry :=
  match reg.get id with
  | some r => { reg with heap := Function.update reg.heap r (f (reg.heap r)) }
  | none => reg

/-- `version_.fetch_add(1)` of the updates that found their entry. -/
def bump (reg : BackendRegistry) (id : BackendID) : BackendRegistry :=
  if (reg.get id).isSome then { reg with version := reg.version + 1 } else reg

def updateState (reg : BackendRegistry) (id : BackendID) (state : BackendState) : BackendRegistry :=
  (reg.modify id fun e => { e with state := state }).bump id

def updateRole (reg : BackendRegistry) (id : BackendID) (role : BackendRole) : BackendRegistry :=
  (reg.modify id fun e => { e with role := role }).bump id

def updateLag (reg : BackendRegistry) (id : BackendID) (lagMs : UInt32) : BackendRegistry :=
  reg.modify id fun e => { e with replicationLagMs := lagMs }

def size (reg : BackendRegistry) : ℕ := reg.current.byId.keys.length

end BackendRegistry

/-- The operations, with the iteration order of the map they build the index from. -/
inductive RegistryOp
  | load (backends : List BackendConfig) (order : List BackendID)
  | add (backend : BackendConfig) (order : List BackendID)
  | remove (id : BackendID) (order : List BackendID)
  | updateState (id : BackendID) (state : BackendState)
  | updateRole (id : BackendID) (role : BackendRole)
  | updateLag (id : BackendID) (lagMs : UInt32)
  deriving DecidableEq, Repr

/-- The id an operation is about; `load` is about all of them. -/
def RegistryOp.target : RegistryOp → Option BackendID
  | .load _ _ => none
  | .add b _ => some b.id
  | .remove id _ | .updateState id _ | .updateRole id _ | .updateLag id _ => some id

/-- The order is one in which a map with these keys can iterate. -/
def Iterates (order : List BackendID) (byId : ById) : Prop := order.Perm byId.keys

instance (order : List BackendID) (byId : ById) : Decidable (Iterates order byId) :=
  inferInstanceAs (Decidable (List.Perm _ _))

namespace BackendRegistry

def step (reg : BackendRegistry) : RegistryOp → Option BackendRegistry
  | .load backends order =>
    if Iterates order (reg.loadLoop ∅ backends).2 then some (reg.load backends order) else none
  | .add b order => if Iterates order (reg.addMap b) then some (reg.add b order) else none
  | .remove id order =>
    if id ∈ reg.current.byId → Iterates order (reg.current.byId.erase id) then
      some (reg.remove id order)
    else none
  | .updateState id state => some (reg.updateState id state)
  | .updateRole id role => some (reg.updateRole id role)
  | .updateLag id lagMs => some (reg.updateLag id lagMs)

/-- What the registry knows of an id. -/
def entry (reg : BackendRegistry) (id : BackendID) : Option BackendEntry :=
  (reg.get id).map reg.heap

end BackendRegistry

/-! ### The group index -/

theorem lookup_pushGroup (m : ByGroup) (group g : String) (r : Ref) :
    ((pushGroup m group r).lookup g).getD [] =
      (m.lookup g).getD [] ++ if group = g then [r] else [] := by
  by_cases h : group = g
  · subst h
    rw [pushGroup, AList.lookup_insert, if_pos rfl]
    rfl
  · rw [pushGroup, AList.lookup_insert_ne (Ne.symm h), if_neg h, List.append_nil]

theorem lookup_foldl_pushGroup (heap : Ref → BackendEntry) (refs : List Ref) (m : ByGroup)
    (g : String) :
    ((refs.foldl (fun m r => pushGroup m (heap r).group r) m).lookup g).getD [] =
      (m.lookup g).getD [] ++ refs.filter fun r => (heap r).group = g := by
  induction refs generalizing m with
  | nil => exact (List.append_nil _).symm
  | cons r refs ih =>
    rw [List.foldl_cons, ih, lookup_pushGroup, List.append_assoc, List.filter_cons]
    by_cases h : (heap r).group = g
    · rw [if_pos h, if_pos (decide_eq_true h)]
      rfl
    · rw [if_neg h, if_neg (by simpa using h)]
      rfl

/-- No group list is empty. -/
def NoEmptyGroup (m : ByGroup) : Prop := ∀ g rs, m.lookup g = some rs → rs ≠ []

theorem NoEmptyGroup.pushGroup {m : ByGroup} (h : NoEmptyGroup m) (group : String) (r : Ref) :
    NoEmptyGroup (pushGroup m group r) := by
  intro g rs hrs
  by_cases hg : g = group
  · subst hg
    rw [Routing.pushGroup, AList.lookup_insert] at hrs
    obtain rfl := Option.some.inj hrs
    exact List.append_ne_nil_of_right_ne_nil _ (List.cons_ne_nil _ _)
  · rw [Routing.pushGroup, AList.lookup_insert_ne hg] at hrs
    exact h g rs hrs

theorem noEmptyGroup_build (heap : Ref → BackendEntry) (byId : ById) (order : List BackendID) :
    NoEmptyGroup (build heap byId order).byGroup := by
  have hfold : ∀ (refs : List Ref) (m : ByGroup), NoEmptyGroup m →
      NoEmptyGroup (refs.foldl (fun m r => pushGroup m (heap r).group r) m) := by
    intro refs
    induction refs with
    | nil => exact fun _ hm => hm
    | cons r refs ih => exact fun m hm => ih _ (hm.pushGroup _ r)
  refine hfold _ ∅ fun g rs hrs => ?_
  rw [AList.lookup_empty] at hrs
  exact absurd hrs (by simp)

/-! ### The invariant -/

/-- Every key is the id of its entry, and the entry has been made. -/
def Keyed (heap : Ref → BackendEntry) (next : Ref) (byId : ById) : Prop :=
  ∀ id r, byId.lookup id = some r → (heap r).id = id ∧ r < next

namespace BackendRegistry

structure Inv (reg : BackendRegistry) : Prop where
  keyed : Keyed reg.heap reg.next reg.current.byId
  noEmptyGroup : NoEmptyGroup reg.current.byGroup
  index : ∃ order, Iterates order reg.current.byId ∧ ∀ g, reg.getGroup g =
    (order.filterMap reg.current.byId.lookup).filter fun r => (reg.heap r).group = g

variable {reg reg' : BackendRegistry} {id : BackendID} {r : Ref}

theorem Inv.mem_getGroup (I : Inv reg) (g : String) :
    r ∈ reg.getGroup g ↔ ∃ id, reg.get id = some r ∧ (reg.heap r).group = g := by
  obtain ⟨order, hperm, hindex⟩ := I.index
  rw [hindex, List.mem_filter, List.mem_filterMap, decide_eq_true_eq]
  constructor
  · rintro ⟨⟨id, -, hid⟩, hg⟩
    exact ⟨id, hid, hg⟩
  · rintro ⟨id, hid, hg⟩
    refine ⟨⟨id, hperm.mem_iff.mpr ?_, hid⟩, hg⟩
    exact AList.mem_keys.mp (AList.lookup_isSome.mp (Option.isSome_iff_exists.mpr ⟨r, hid⟩))

theorem Inv.nodup_getGroup (I : Inv reg) (g : String) : (reg.getGroup g).Nodup := by
  obtain ⟨order, hperm, hindex⟩ := I.index
  rw [hindex]
  refine List.Nodup.filter _ (List.Nodup.filterMap (fun id id' r hr hr' => ?_)
    (hperm.nodup_iff.mpr reg.current.byId.keys_nodup))
  rw [← (I.keyed id r hr).1, (I.keyed id' r hr').1]

theorem Inv.mem_getGroupByRole (I : Inv reg) (g : String) (role : BackendRole) :
    r ∈ reg.getGroupByRole g role ↔
      ∃ id, reg.get id = some r ∧ (reg.heap r).group = g ∧ (reg.heap r).role = role := by
  rw [getGroupByRole, List.mem_filter, I.mem_getGroup, decide_eq_true_eq]
  constructor
  · rintro ⟨⟨id, hid, hg⟩, hrole⟩
    exact ⟨id, hid, hg, hrole⟩
  · rintro ⟨id, hid, hg, hrole⟩
    exact ⟨⟨id, hid, hg⟩, hrole⟩

/-! ### Structural changes -/

theorem inv_store {byId : ById} {order : List BackendID} (hk : Keyed reg.heap reg.next byId)
    (ho : Iterates order byId) : Inv (reg.store byId order) where
  keyed := hk
  noEmptyGroup := noEmptyGroup_build _ _ _
  index := by
    refine ⟨order, ho, fun g => ?_⟩
    exact (lookup_foldl_pushGroup reg.heap _ ∅ g).trans (List.nil_append _)

/-- An entry that is in use is not the one just made. -/
theorem heap_makeShared (b : BackendConfig) (hr : r < reg.next) :
    (reg.makeShared b).heap r = reg.heap r :=
  Function.update_of_ne (Nat.ne_of_lt hr) _ _

theorem keyed_makeShared {byId : ById} (hk : Keyed reg.heap reg.next byId) (b : BackendConfig) :
    Keyed (reg.makeShared b).heap (reg.makeShared b).next byId := by
  intro id r hr
  obtain ⟨hid, hlt⟩ := hk id r hr
  rw [heap_makeShared b hlt]
  exact ⟨hid, Nat.lt_succ_of_lt hlt⟩

theorem keyed_insert {byId : ById} (hk : Keyed reg.heap reg.next byId) (b : BackendConfig) :
    Keyed (reg.makeShared b).heap (reg.makeShared b).next (byId.insert b.id reg.next) := by
  intro id r hr
  by_cases hid : id = b.id
  · subst hid
    rw [AList.lookup_insert] at hr
    obtain rfl := Option.some.inj hr
    refine ⟨?_, Nat.lt_succ_self _⟩
    show (Function.update reg.heap reg.next (.ofConfig b) reg.next).id = b.id
    rw [Function.update_self]
    rfl
  · rw [AList.lookup_insert_ne hid] at hr
    exact keyed_makeShared hk b id r hr

theorem keyed_loadLoop (backends : List BackendConfig) {byId : ById}
    (hk : Keyed reg.heap reg.next byId) :
    Keyed (reg.loadLoop byId backends).1.heap (reg.loadLoop byId backends).1.next
      (reg.loadLoop byId backends).2 := by
  induction backends generalizing reg byId with
  | nil => exact hk
  | cons b bs ih =>
    rw [loadLoop]
    split
    · exact ih (keyed_makeShared hk b)
    · exact ih (keyed_insert hk b)

theorem keyed_empty (heap : Ref → BackendEntry) (next : Ref) : Keyed heap next ∅ := by
  intro id r hr
  rw [AList.lookup_empty] at hr
  exact absurd hr (by simp)

theorem inv_initial : Inv {} where
  keyed := keyed_empty _ _
  noEmptyGroup := fun g rs hrs => by
    rw [AList.lookup_empty] at hrs
    exact absurd hrs (by simp)
  index := ⟨[], List.Perm.refl _, fun _ => rfl⟩

theorem keyed_erase (I : Inv reg) (id : BackendID) :
    Keyed reg.heap reg.next (reg.current.byId.erase id) := by
  intro id' r hr
  by_cases hid : id' = id
  · subst hid
    rw [AList.lookup_erase] at hr
    exact absurd hr (by simp)
  · rw [AList.lookup_erase_ne hid] at hr
    exact I.keyed id' r hr

/-! ### Updates in place -/

/-- The updates leave the identity of an entry alone. -/
def KeepsIdentity (f : BackendEntry → BackendEntry) : Prop :=
  ∀ e, (f e).id = e.id ∧ (f e).group = e.group

@[simp] theorem current_modify (f : BackendEntry → BackendEntry) :
    (reg.modify id f).current = reg.current := by
  rw [modify]
  split <;> rfl

@[simp] theorem next_modify (f : BackendEntry → BackendEntry) :
    (reg.modify id f).next = reg.next := by
  rw [modify]
  split <;> rfl

theorem heap_modify {f : BackendEntry → BackendEntry} (hf : KeepsIdentity f) (r : Ref) :
    ((reg.modify id f).heap r).id = (reg.heap r).id ∧
      ((reg.modify id f).heap r).group = (reg.heap r).group := by
  rw [modify]
  split
  · next r₀ hr₀ =>
    by_cases hr : r = r₀
    · subst hr
      simp only [Function.update_self]
      exact hf _
    · simp only [Function.update_of_ne hr, and_self]
  · exact ⟨rfl, rfl⟩

theorem inv_modify (I : Inv reg) {f : BackendEntry → BackendEntry} (hf : KeepsIdentity f) :
    Inv (reg.modify id f) where
  keyed := by
    intro id' r hr
    rw [current_modify] at hr
    rw [(heap_modify hf r).1, next_modify]
    exact I.keyed id' r hr
  noEmptyGroup := by
    rw [current_modify]
    exact I.noEmptyGroup
  index := by
    obtain ⟨order, hperm, hindex⟩ := I.index
    refine ⟨order, by rwa [current_modify], fun g => ?_⟩
    rw [getGroup, current_modify]
    simp only [(heap_modify hf _).2]
    exact hindex g

theorem inv_bump (I : Inv reg) : Inv (reg.bump id) := by
  rw [bump]
  split
  · exact ⟨I.keyed, I.noEmptyGroup, I.index⟩
  · exact I

/-! ### Every operation -/

/-- What an operation can do. -/
theorem step_cases {op : RegistryOp} (h : reg.step op = some reg') :
    (∃ backends order, op = .load backends order ∧ Iterates order (reg.loadLoop ∅ backends).2 ∧
      reg' = reg.load backends order) ∨
    (∃ b order, op = .add b order ∧ Iterates order (reg.addMap b) ∧ reg' = reg.add b order) ∨
    (∃ id order, op = .remove id order ∧
      (id ∈ reg.current.byId → Iterates order (reg.current.byId.erase id)) ∧
      reg' = reg.remove id order) ∨
    (∃ id f, op.target = some id ∧ KeepsIdentity f ∧
      (reg' = reg.modify id f ∨ reg' = (reg.modify id f).bump id)) := by
  cases op with
  | load backends order =>
    obtain ⟨ho, hs⟩ := Option.ite_none_right_eq_some.mp h
    exact .inl ⟨backends, order, rfl, ho, (Option.some.inj hs).symm⟩
  | add b order =>
    obtain ⟨ho, hs⟩ := Option.ite_none_right_eq_some.mp h
    exact .inr (.inl ⟨b, order, rfl, ho, (Option.some.inj hs).symm⟩)
  | remove id order =>
    obtain ⟨ho, hs⟩ := Option.ite_none_right_eq_some.mp h
    exact .inr (.inr (.inl ⟨id, order, rfl, ho, (Option.some.inj hs).symm⟩))
  | updateState id state =>
    exact .inr (.inr (.inr ⟨id, fun e => { e with state := state }, rfl, fun _ => ⟨rfl, rfl⟩,
      .inr (Option.some.inj h).symm⟩))
  | updateRole id role =>
    exact .inr (.inr (.inr ⟨id, fun e => { e with role := role }, rfl, fun _ => ⟨rfl, rfl⟩,
      .inr (Option.some.inj h).symm⟩))
  | updateLag id lagMs =>
    exact .inr (.inr (.inr ⟨id, fun e => { e with replicationLagMs := lagMs }, rfl,
      fun _ => ⟨rfl, rfl⟩, .inl (Option.some.inj h).symm⟩))

theorem Inv.step (I : Inv reg) {op : RegistryOp} (h : reg.step op = some reg') : Inv reg' := by
  obtain ⟨backends, order, -, ho, rfl⟩ | ⟨b, order, -, ho, rfl⟩ | ⟨id, order, -, ho, rfl⟩ |
    ⟨id, f, -, hf, rfl | rfl⟩ := step_cases h
  · exact inv_store (keyed_loadLoop backends (keyed_empty _ _)) ho
  · exact inv_store (keyed_insert I.keyed b) ho
  · rw [remove]
    split
    · next hid => exact inv_store (keyed_erase I id) (ho hid)
    · exact I
  · exact inv_modify I hf
  · exact inv_bump (inv_modify I hf)

/-- **The frame of an operation** on one id: what the registry knows of any other id stays. -/
theorem Inv.entry_step (I : Inv reg) {op : RegistryOp} (h : reg.step op = some reg')
    (hid : op.target ≠ none ∧ op.target ≠ some id) : reg'.entry id = reg.entry id := by
  obtain ⟨backends, order, rfl, -, -⟩ | ⟨b, order, rfl, -, rfl⟩ | ⟨id₀, order, rfl, -, rfl⟩ |
    ⟨id₀, f, ht, -, hreg⟩ := step_cases h
  · exact absurd rfl hid.1
  · have hne : id ≠ b.id := fun heq => hid.2 (heq ▸ rfl)
    show ((reg.addMap b).lookup id).map (reg.makeShared b).heap = (reg.get id).map reg.heap
    rw [addMap, AList.lookup_insert_ne hne]
    refine Option.map_congr fun r hr => heap_makeShared b (I.keyed id r hr).2
  · have hne : id ≠ id₀ := fun heq => hid.2 (heq ▸ rfl)
    rw [remove]
    split
    · show ((reg.current.byId.erase id₀).lookup id).map reg.heap = (reg.get id).map reg.heap
      rw [AList.lookup_erase_ne hne]
      rfl
    · rfl
  · have hne : id ≠ id₀ := fun heq => hid.2 (heq ▸ ht)
    have hmod : (reg.modify id₀ f).entry id = reg.entry id := by
      rw [modify]
      split
      · next r₀ hr₀ =>
        refine Option.map_congr fun r hr => Function.update_of_ne (fun heq => hne ?_) _ _
        rw [← (I.keyed id r hr).1, heq, (I.keyed id₀ r₀ hr₀).1]
      · rfl
    obtain rfl | rfl := hreg
    · exact hmod
    · rw [bump]
      split
      · exact hmod
      · exact hmod

theorem inv_run {ops : List RegistryOp} (h : Transition.run step {} ops = some reg) : Inv reg :=
  Transition.preserved_run (fun _ _ _ I h => I.step h) inv_initial h

end BackendRegistry

/-- **The registry index.** After every sequence of operations each key of `by_id` is the id of its
entry, `by_group` holds every entry exactly once, under its group, and has no empty group, and the
getters read it off. An operation on one id leaves the entry of every other id as it was. -/
theorem registry_index (ops : List RegistryOp) (reg : BackendRegistry)
    (hrun : Transition.run BackendRegistry.step {} ops = some reg) :
    (∀ id r, reg.current.byId.lookup id = some r → (reg.heap r).id = id) ∧
    (∀ g r, r ∈ (reg.current.byGroup.lookup g).getD [] ↔
      ∃ id, reg.current.byId.lookup id = some r ∧ (reg.heap r).group = g) ∧
    (∀ g rs, reg.current.byGroup.lookup g = some rs → rs.Nodup ∧ rs ≠ []) ∧
    (∀ id r, reg.get id = some r ↔ reg.current.byId.lookup id = some r) ∧
    (∀ g, (reg.getGroup g).Nodup ∧ ∀ r, r ∈ reg.getGroup g ↔
      ∃ id, reg.get id = some r ∧ (reg.heap r).group = g) ∧
    (∀ g role, (reg.getGroupByRole g role).Nodup ∧ ∀ r, r ∈ reg.getGroupByRole g role ↔
      ∃ id, reg.get id = some r ∧ (reg.heap r).group = g ∧ (reg.heap r).role = role) ∧
    ∀ op reg', reg.step op = some reg' → ∀ id, op.target ≠ none → op.target ≠ some id →
      reg'.entry id = reg.entry id := by
  have I := BackendRegistry.inv_run hrun
  refine ⟨fun id r hr => (I.keyed id r hr).1, fun g r => I.mem_getGroup g, fun g rs hrs => ?_,
    fun id r => Iff.rfl, fun g => ⟨I.nodup_getGroup g, fun r => I.mem_getGroup g⟩,
    fun g role => ⟨(I.nodup_getGroup g).filter _, fun r => I.mem_getGroupByRole g role⟩,
    fun op reg' h id hall hid => I.entry_step h ⟨hall, hid⟩⟩
  refine ⟨?_, I.noEmptyGroup g rs hrs⟩
  have hnodup := I.nodup_getGroup g
  rw [BackendRegistry.getGroup, hrs] at hnodup
  exact hnodup

/-- A backend keeps its lag while another is added again, under another group. -/
theorem registry_index_regroup : ∃ reg reg',
    Transition.run BackendRegistry.step {}
      [.load [{ id := "a", group := "g" }, { id := "b", group := "g" }] ["b", "a"],
        .updateLag "b" 7] = some reg ∧
    reg.step (.add { id := "a", group := "h" } ["a", "b"]) = some reg' ∧
    (reg'.entry "b").map (·.replicationLagMs) = some 7 := by
  refine ⟨_, _, rfl, rfl, ?_⟩
  rw [(registry_index
    [.load [{ id := "a", group := "g" }, { id := "b", group := "g" }] ["b", "a"],
      .updateLag "b" 7] _ rfl).2.2.2.2.2.2 (.add { id := "a", group := "h" } ["a", "b"]) _ rfl "b"
    (by decide) (by decide)]
  rfl

end DBMesh.Routing
