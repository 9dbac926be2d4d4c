import Mathlib.Data.List.Basic
import Mathlib.Algebra.Order.Group.Nat

/-!
# Cutting a list into chunks

`chunks m l` cuts `l` into pieces of length `m` followed by one shorter piece, which is empty when
`m` divides the length: a reader that takes pieces until one is shorter than `m` can tell where the
list ends, whatever its length.

## Main results

* `Chunk.length_chunks`, `length_of_getElem?_chunks` — how many pieces there are and how long each
  is
* `Chunk.flatten_chunks` — the pieces make up the list
-/

namespace Chunk

variable {α : Type*} {m : ℕ}

/-- Pieces of length `m`, then one of length below `m`. (With `m = 0` there is one piece.) -/
def chunks (m : ℕ) (l : List α) : List (List α) :=
  if _h : 0 < m ∧ m ≤ l.length then l.take m :: chunks m (l.drop m) else [l]
termination_by l.length
decreasing_by
  rw [List.length_drop]
  omega

theorem chunks_of_le (hm : 0 < m) {l : List α} (h : m ≤ l.length) :
    chunks m l = l.take m :: chunks m (l.drop m) := by
  rw [chunks, dif_pos ⟨hm, h⟩]

theorem chunks_of_lt {l : List α} (h : l.length < m) : chunks m l = [l] := by
  rw [chunks, dif_neg fun hm => (Nat.not_le.mpr h) hm.2]

/-- Induction along the pieces: a list shorter than `m`, or one more piece of length `m`. -/
theorem chunks_induction (hm : 0 < m) {P : List α → Prop} (short : ∀ l, l.length < m → P l)
    (long : ∀ l, m ≤ l.length → P (l.drop m) → P l) (l : List α) : P l := by
  induction hn : l.length using Nat.strong_induction_on generalizing l with
  | _ n ih =>
    rcases Nat.lt_or_ge l.length m with h | h
    · exact short l h
    · exact long l h (ih (l.drop m).length (by rw [List.length_drop]; omega) _ rfl)

theorem flatten_chunks (hm : 0 < m) (l : List α) : (chunks m l).flatten = l := by
  induction l using chunks_induction hm with
  | short l h => rw [chunks_of_lt h, List.flatten_singleton]
  | long l h ih => rw [chunks_of_le hm h, List.flatten_cons, ih, List.take_append_drop]

theorem length_chunks (hm : 0 < m) (l : List α) : (chunks m l).length = l.length / m + 1 := by
  induction l using chunks_induction hm with
  | short l h => rw [chunks_of_lt h, List.length_singleton, Nat.div_eq_of_lt h]
  | long l h ih =>
    rw [chunks_of_le hm h, List.length_cons, ih, List.length_drop, Nat.div_eq_sub_div hm h]

theorem length_of_getElem?_chunks (hm : 0 < m) {l : List α} {i : ℕ} {c : List α}
    (hc : (chunks m l)[i]? = some c) :
    c.length = if i < l.length / m then m else l.length % m := by
  induction l using chunks_induction hm generalizing i with
  | short l h =>
    rw [chunks_of_lt h, List.getElem?_singleton] at hc
    split_ifs at hc with hi
    obtain rfl := Option.some.inj hc
    rw [Nat.div_eq_of_lt h, if_neg (Nat.not_lt_zero i), Nat.mod_eq_of_lt h]
  | long l h ih =>
    rw [chunks_of_le hm h] at hc
    rw [Nat.div_eq_sub_div hm h, Nat.mod_eq_sub_mod h]
    cases i with
    | zero =>
      obtain rfl : l.take m = c := by simpa using hc
      rw [if_pos (Nat.succ_pos _), List.length_take, Nat.min_eq_left h]
    | succ i =>
      have := ih (show (chunks m (l.drop m))[i]? = some c by simpa using hc)
      simpa only [List.length_drop, Nat.add_lt_add_iff_right] using this

end Chunk
