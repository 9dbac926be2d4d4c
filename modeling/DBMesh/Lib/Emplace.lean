import Mathlib.Data.List.AList

/-!
# Filling a map with `emplace`

`emplace` inserts a key with its value unless the map has the key already. A map that is filled from
a list by `emplace` therefore holds, for each key, the first item of the list with that key.

## Main results

* `Emplace.lookup_foldl_emplace` — what a map filled from a list holds
-/

namespace Emplace

variable {α β ι : Type*} [DecidableEq α]

/-- Insert a key with its value, unless the map has the key. -/
def emplace (m : AList fun _ : α => β) (a : α) (b : β) : AList fun _ : α => β :=
  if a ∈ m then m else m.insert a b

theorem lookup_emplace_self (m : AList fun _ : α => β) (a : α) (b : β) :
    (emplace m a b).lookup a = some ((m.lookup a).getD b) := by
  rw [emplace]
  split
  · next h =>
    obtain ⟨b', hb'⟩ := Option.isSome_iff_exists.mp (AList.lookup_isSome.mpr h)
    rw [hb']
    rfl
  · next h => rw [AList.lookup_insert, AList.lookup_eq_none.mpr h, Option.getD_none]

theorem lookup_emplace_of_ne {m : AList fun _ : α => β} {a k : α} (hk : k ≠ a) (b : β) :
    (emplace m a b).lookup k = m.lookup k := by
  rw [emplace]
  split
  · rfl
  · exact AList.lookup_insert_ne hk

/-- **The first item of a key wins**, after what the map held before. -/
theorem lookup_foldl_emplace (key : ι → α) (val : ι → β) (xs : List ι)
    (m : AList fun _ : α => β) (k : α) :
    (xs.foldl (fun m x => emplace m (key x) (val x)) m).lookup k =
      (m.lookup k).or ((xs.find? fun x => key x = k).map val) := by
  induction xs generalizing m with
  | nil => exact (Option.or_none).symm
  | cons x xs ih =>
    rw [List.foldl_cons, ih]
    rcases eq_or_ne k (key x) with rfl | hk
    · rw [lookup_emplace_self, List.find?_cons_of_pos (by simp)]
      cases m.lookup (key x) <;> rfl
    · rw [lookup_emplace_of_ne hk, List.find?_cons_of_neg (by simpa using hk.symm)]

/-- In a list without duplicate keys every item is the first of its key. -/
theorem find?_eq_of_nodup {key : ι → α} {xs : List ι} (hnd : (xs.map key).Nodup) {x : ι}
    (hx : x ∈ xs) : (xs.find? fun y => key y = key x) = some x := by
  obtain ⟨y, hy⟩ : ∃ y, (xs.find? fun y => key y = key x) = some y :=
    Option.isSome_iff_exists.mp (List.find?_isSome.mpr ⟨x, hx, by simp⟩)
  have hkey : key y = key x := by simpa using List.find?_some hy
  rw [hy, List.inj_on_of_nodup_map hnd (List.mem_of_find?_eq_some hy) hx hkey]

end Emplace
