import Mathlib.Data.List.Forall2

/-!
# Reading YAML nodes

What `core/src/config.cpp` does with the nodes of yaml-cpp: it looks up a key, converts a scalar,
and runs over a sequence or a map. A lookup may throw, and gives an undefined node if there is no
such key.

The library is not part of this repository, so its nodes, lookups and conversions are parameters,
and so are the texts of its exceptions.

## Main definitions

* `DBMesh.YamlCpp` — the nodes, and what the library does with them
* `DBMesh.YamlCpp.field`, `check`, `each` — what the parsers are made of

## Main results

* `DBMesh.Parse.field_eq_ok`, `each_eq_ok` — what a parser that succeeds has read
-/

namespace DBMesh

/-- The library on the nodes of a document, with `what()` where it throws. No value of type `double`
is kept. -/
structure YamlCpp (Node : Type) where
  /-- `n.as<uint32_t>()` -/
  asUInt32 : Node → Except String UInt32
  asBool : Node → Except String Bool
  asString : Node → Except String String
  asDouble : Node → Except String Unit
  /-- `n[key]` of a constant node; `none` is the undefined node. -/
  get : Node → String → Except String (Option Node)
  /-- What a loop runs over that is guarded by `IsSequence()`. -/
  items : Node → List Node
  /-- What a loop runs over that is guarded by `IsMap()`. -/
  entries : Node → List (Node × Node)

/-- The exceptions that `ConfigLoader::load` catches, with `what()`. -/
inductive LoadError
  | yaml (what : String)
  | std (what : String)
  deriving DecidableEq, Repr

abbrev Parse := Except LoadError

namespace YamlCpp

/-- `for (const auto& x : n) xs.push_back(read(x));` -/
def each {Node α : Type} (read : Node → Parse α) : List Node → Parse (List α)
  | [] => .ok []
  | x :: xs => do
    let a ← read x
    let as ← each read xs
    pure (a :: as)

variable {Node : Type} (y : YamlCpp Node)

/-- `n[key]`, with its exception as the loader catches it. -/
def lookup (n : Node) (key : String) : Parse (Option Node) := (y.get n key).mapError .yaml

/-- The value of a key. -/
def find (n : Node) (key : String) : Option Node :=
  match y.get n key with
  | .ok o => o
  | .error _ => none

/-- The value under a sequence of keys. -/
def path : List String → Node → Option Node
  | [], n => some n
  | key :: keys, n => (y.find n key).bind (path keys)

/-- `if (n[key]) x = read(n[key]);` where `x` has its default before. -/
def field {α : Type} (n : Node) (key : String) (read : Node → Parse α) (default : α) : Parse α :=
  match y.lookup n key with
  | .error e => .error e
  | .ok none => .ok default
  | .ok (some v) => read v

/-- The same for a member that is not modelled: its value is read, and may throw, but not kept. -/
def check {α : Type} (n : Node) (key : String) (read : Node → Parse α) : Parse Unit :=
  y.field n key (fun v => (read v).map fun _ => ()) ()

/-- A group of members none of which is modelled, each a key with its reader. -/
def checks (fields : List (String × (Node → Parse Unit))) (n : Node) : Parse Unit :=
  match fields with
  | [] => .ok ()
  | (key, read) :: fields => do
    y.check n key read
    checks fields n

def uint32 (n : Node) : Parse UInt32 := (y.asUInt32 n).mapError .yaml

def bool (n : Node) : Parse Bool := (y.asBool n).mapError .yaml

def string (n : Node) : Parse String := (y.asString n).mapError .yaml

/-- `static_cast<uint16_t>(n.as<uint32_t>())` -/
def uint16 (n : Node) : Parse UInt16 := (y.uint32 n).map (·.toUInt16)

/-- A string that `table` gives a meaning to. -/
def oneOf {α : Type} (table : List (String × α)) (err : String → String) (n : Node) : Parse α := do
  let s ← y.string n
  match table.lookup s with
  | some a => pure a
  | none => throw (.std (err s))

/-! The readers of members that are not modelled. -/

def skipUInt32 (n : Node) : Parse Unit := (y.uint32 n).map fun _ => ()

def skipBool (n : Node) : Parse Unit := (y.bool n).map fun _ => ()

def skipString (n : Node) : Parse Unit := (y.string n).map fun _ => ()

def skipDouble (n : Node) : Parse Unit := (y.asDouble n).mapError .yaml

def skipEach (read : Node → Parse Unit) (n : Node) : Parse Unit :=
  (each read (y.items n)).map fun _ => ()

def skipOneOf (names : List String) (err : String → String) (n : Node) : Parse Unit :=
  y.oneOf (names.map fun name => (name, ())) err n

end YamlCpp

/-! ### What has been read -/

namespace Parse

variable {Node : Type} {y : YamlCpp Node} {α β : Type} {n v : Node} {key : String}

theorem bind_eq_ok {x : Parse α} {f : α → Parse β} {b : β} :
    (x >>= f) = .ok b ↔ ∃ a, x = .ok a ∧ f a = .ok b := by
  cases x with
  | error e => exact ⟨fun h => absurd h nofun, fun ⟨_, h, _⟩ => absurd h nofun⟩
  | ok a =>
    refine ⟨fun h => ⟨a, rfl, h⟩, ?_⟩
    rintro ⟨_, ha, h⟩
    obtain rfl := Except.ok.inj ha
    exact h

/-- A member whose key is there has been read. -/
theorem field_eq_ok {read : Node → Parse α} {default a : α}
    (h : y.field n key read default = .ok a) :
    (y.find n key = none ∧ a = default) ∨ ∃ v, y.find n key = some v ∧ read v = .ok a := by
  rw [YamlCpp.field, YamlCpp.lookup] at h
  rw [YamlCpp.find]
  cases hget : y.get n key with
  | error what =>
    rw [hget] at h
    cases h
  | ok o =>
    rw [hget] at h
    cases o with
    | none => exact .inl ⟨rfl, (Except.ok.inj h).symm⟩
    | some v => exact .inr ⟨v, rfl, h⟩

theorem read_of_field {read : Node → Parse α} {default a : α}
    (h : y.field n key read default = .ok a) (hv : y.find n key = some v) : read v = .ok a := by
  obtain ⟨hnone, -⟩ | ⟨v', hv', hread⟩ := field_eq_ok h
  · exact absurd (hnone.symm.trans hv) nofun
  · rwa [Option.some.inj (hv.symm.trans hv')]

/-- Every item of a sequence has been read. -/
theorem each_eq_ok {read : Node → Parse α} {xs : List Node} {as : List α}
    (h : YamlCpp.each read xs = .ok as) : List.Forall₂ (fun x a => read x = .ok a) xs as := by
  induction xs generalizing as with
  | nil =>
    obtain rfl := Except.ok.inj h
    exact .nil
  | cons x xs ih =>
    obtain ⟨a, ha, h⟩ := bind_eq_ok.mp h
    obtain ⟨as', has, h⟩ := bind_eq_ok.mp h
    obtain rfl := Except.ok.inj h
    exact .cons ha (ih has)

theorem mapError_eq_ok {ε : Type} {x : Except ε α} {f : ε → LoadError} {a : α}
    (h : x.mapError f = .ok a) : x = .ok a := by
  cases x with
  | error e => exact absurd h nofun
  | ok b => exact congrArg Except.ok (Except.ok.inj h)

/-- What a narrowed number has been read from. -/
theorem uint16_eq_ok {p : UInt16} (h : y.uint16 v = .ok p) :
    ∃ w, y.asUInt32 v = .ok w ∧ p = w.toUInt16 := by
  rw [YamlCpp.uint16] at h
  cases hw : y.uint32 v with
  | error e =>
    rw [hw] at h
    exact absurd h nofun
  | ok w =>
    rw [hw] at h
    exact ⟨w, mapError_eq_ok hw, (Except.ok.inj h).symm⟩

end Parse

end DBMesh
