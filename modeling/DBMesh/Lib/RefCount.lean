import Mathlib.Data.List.Count
import Mathlib.Logic.Function.Basic

/-!
# Reference counts

Parties hold references to shared objects, and one root refers to an object of its own. Each object
has a count; a party that takes a reference raises it, a party that gives one up lowers it, and an
object whose count is zero is retired. The counts are *accounted* for when each is the number of
references that there are: an operation keeps them so when it changes the count as it changes what
the party holds, whatever the other parties hold.

## Main definitions

* `RefCount.held` — the references to an object that a list of parties holds
* `RefCount.Accounted` — every count is the number of references to the object

## Main results

* `RefCount.held_set` — how the references change when one party changes
* `RefCount.Accounted.keep`, `take`, `drop`, `swap` — the operations keep the counts accounted for
* `RefCount.Accounted.refs_eq_zero_iff` — a retired object is one that nothing refers to
-/

namespace RefCount

variable {ι π : Type*} [DecidableEq ι] {holds : π → List ι} {ps : List π} {p q : π} {i : ℕ}
  {x y : ι}
  {refs : ι → ℕ} {root : ι}

/-- The references to `x` that the parties hold. -/
def held (holds : π → List ι) (ps : List π) (x : ι) : ℕ := (ps.flatMap holds).count x

theorem held_cons : held holds (p :: ps) x = (holds p).count x + held holds ps x := by
  rw [held, List.flatMap_cons, List.count_append, held]

theorem held_concat : held holds (ps ++ [p]) x = held holds ps x + (holds p).count x := by
  rw [held, List.flatMap_append, List.count_append, List.flatMap_singleton, held]

theorem held_eq_zero_iff : held holds ps x = 0 ↔ ∀ p ∈ ps, x ∉ holds p := by
  rw [held, List.count_eq_zero, List.mem_flatMap]
  push Not
  rfl

theorem held_pos (hp : p ∈ ps) (hx : x ∈ holds p) : 0 < held holds ps x :=
  List.count_pos_iff.mpr (List.mem_flatMap.mpr ⟨p, hp, hx⟩)

/-- When one party changes, its old references go and its new ones come. -/
theorem held_set (holds : π → List ι) (q : π) (x : ι) (h : ps[i]? = some p) :
    held holds (ps.set i q) x + (holds p).count x = held holds ps x + (holds q).count x := by
  induction ps generalizing i with
  | nil => exact absurd h (by simp)
  | cons p₀ ps ih =>
    cases i with
    | zero =>
      obtain rfl : p₀ = p := by simpa using h
      rw [List.set_cons_zero, held_cons, held_cons]
      omega
    | succ i =>
      have ih := ih (by simpa using h : ps[i]? = some p)
      rw [List.set_cons_succ, held_cons, held_cons]
      omega

/-- One party takes a reference to `x`. -/
theorem held_set_of_take (h : ps[i]? = some p) (hq : (holds q).Perm (x :: holds p)) (y : ι) :
    held holds (ps.set i q) y = held holds ps y + if y = x then 1 else 0 := by
  have hset := held_set holds q y h
  have hcount := hq.count_eq y
  rw [List.count_cons] at hcount
  simp only [beq_iff_eq, eq_comm (a := x)] at hcount
  omega

/-- One party gives up a reference to `x`. -/
theorem held_set_of_drop (h : ps[i]? = some p) (hp : (holds p).Perm (x :: holds q)) (y : ι) :
    held holds (ps.set i q) y + (if y = x then 1 else 0) = held holds ps y := by
  have hset := held_set holds q y h
  have hcount := hp.count_eq y
  rw [List.count_cons] at hcount
  simp only [beq_iff_eq, eq_comm (a := x)] at hcount
  omega

/-- Every count is the number of references to the object: the root's and the parties'. -/
def Accounted (holds : π → List ι) (refs : ι → ℕ) (root : ι) (ps : List π) : Prop :=
  ∀ x, refs x = (if x = root then 1 else 0) + held holds ps x

def inc (refs : ι → ℕ) (x : ι) : ι → ℕ := Function.update refs x (refs x + 1)

def dec (refs : ι → ℕ) (x : ι) : ι → ℕ := Function.update refs x (refs x - 1)

theorem inc_apply : inc refs x y = refs y + if y = x then 1 else 0 := by
  rw [inc, Function.update_apply]
  split
  · next h => rw [h]
  · rfl

theorem dec_apply : dec refs x y = refs y - if y = x then 1 else 0 := by
  rw [dec, Function.update_apply]
  split
  · next h => rw [h]
  · rfl

/-- A retired object stays retired when another one is taken. -/
theorem inc_eq_zero (h : refs y = 0) (hne : y ≠ x) : inc refs x y = 0 := by
  rw [inc_apply, if_neg hne, h]

theorem dec_eq_zero (h : refs y = 0) : dec refs x y = 0 := by
  rw [dec_apply, h, Nat.zero_sub]

namespace Accounted

variable (A : Accounted holds refs root ps)

include A

theorem refs_eq_zero_iff : refs x = 0 ↔ x ≠ root ∧ ∀ p ∈ ps, x ∉ holds p := by
  rw [A x, Nat.add_eq_zero_iff, held_eq_zero_iff]
  refine and_congr_left fun _ => ?_
  split <;> simp_all

theorem root_pos : 0 < refs root := by
  rw [A root, if_pos rfl]
  omega

theorem pos (hp : p ∈ ps) (hx : x ∈ holds p) : 0 < refs x := by
  have := held_pos hp hx
  rw [A x]
  omega

/-- A party that comes with no reference changes no count. -/
theorem concat (hp : holds p = []) : Accounted holds refs root (ps ++ [p]) := by
  intro x
  rw [A x, held_concat, hp, List.count_nil, Nat.add_zero]

variable (h : ps[i]? = some p)

include h

theorem keep (hq : (holds q).Perm (holds p)) : Accounted holds refs root (ps.set i q) := by
  intro x
  have hset := held_set holds q x h
  have hcount := hq.count_eq x
  rw [A x]
  omega

/-- Taking a reference. -/
theorem take (hq : (holds q).Perm (x :: holds p)) :
    Accounted holds (inc refs x) root (ps.set i q) := by
  intro y
  rw [inc_apply, A y, held_set_of_take h hq y, Nat.add_assoc]

/-- Giving up a reference. -/
theorem drop (hp : (holds p).Perm (x :: holds q)) :
    Accounted holds (dec refs x) root (ps.set i q) := by
  intro y
  rw [dec_apply, A y, ← held_set_of_drop h hp y]
  omega

/-- Handing a reference over to the root, which gives up the one it had. -/
theorem swap (hp : (holds p).Perm (x :: holds q)) :
    Accounted holds (dec refs root) x (ps.set i q) := by
  intro y
  rw [dec_apply, A y, ← held_set_of_drop h hp y]
  omega

end Accounted

end RefCount
