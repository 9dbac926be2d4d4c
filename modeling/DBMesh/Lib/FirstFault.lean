import Mathlib.Data.List.Induction
import Mathlib.Data.List.Nodup

/-!
# The first fault of a list

A loop looks at the records of a list in turn. It ends with a complaint about the first one that has
a fault of its own, or whose key a record before it has.

## Main definitions

* `FirstFault.check` — the loop, with the keys of the records before
* `FirstFault.Clean` — no record has a fault and no two have one key
* `FirstFault.Faulty` — what can be wrong with a record behind others

## Main results

* `FirstFault.check_eq_none_iff` — the loop has nothing to complain about
* `FirstFault.check_eq_some_iff` — what it complains about
-/

namespace FirstFault

variable {α κ ε : Type*} {key : α → κ} {fault : α → Option ε} {dup : α → ε}

/-- Nothing is wrong with any record. -/
structure Clean (key : α → κ) (fault : α → Option ε) (xs : List α) : Prop where
  fault : ∀ x ∈ xs, fault x = none
  nodup : (xs.map key).Nodup

/-- `e` is wrong with the record `x` behind the records `done`. -/
def Faulty (key : α → κ) (fault : α → Option ε) (dup : α → ε) (done : List α) (x : α) (e : ε) :
    Prop :=
  fault x = some e ∨ fault x = none ∧ key x ∈ done.map key ∧ e = dup x

theorem clean_nil : Clean key fault [] := ⟨by simp, List.nodup_nil⟩

theorem clean_concat {xs : List α} {x : α} :
    Clean key fault (xs ++ [x]) ↔
      Clean key fault xs ∧ fault x = none ∧ key x ∉ xs.map key := by
  constructor
  · rintro ⟨hfault, hnodup⟩
    rw [List.map_append, List.nodup_append_comm] at hnodup
    obtain ⟨hkey, hnodup⟩ := List.nodup_cons.mp hnodup
    exact ⟨⟨fun y hy => hfault y (List.mem_append_left _ hy), hnodup⟩,
      hfault x (List.mem_append_right _ (List.mem_singleton_self x)), hkey⟩
  · rintro ⟨⟨hfault, hnodup⟩, hx, hkey⟩
    refine ⟨fun y hy => ?_, ?_⟩
    · rcases List.mem_append.mp hy with hy | hy
      · exact hfault y hy
      · rw [List.mem_singleton.mp hy]
        exact hx
    · rw [List.map_append, List.nodup_append_comm]
      exact List.nodup_cons.mpr ⟨hkey, hnodup⟩

variable [DecidableEq κ]

/-- The loop; `fault` looks at one record, and `dup` is the complaint about a key given twice. -/
def check (key : α → κ) (fault : α → Option ε) (dup : α → ε) : List κ → List α → Option ε
  | _, [] => none
  | seen, x :: xs =>
    match fault x with
    | some e => some e
    | none => if key x ∈ seen then some (dup x) else check key fault dup (key x :: seen) xs

/-- The loop passes over records with which nothing is wrong. -/
theorem check_append (dup : α → ε) {done xs : List α} {seen : List κ}
    (hseen : ∀ k, k ∈ seen ↔ k ∈ done.map key) (hxs : Clean key fault (done ++ xs))
    (ys : List α) :
    ∃ seen', (∀ k, k ∈ seen' ↔ k ∈ (done ++ xs).map key) ∧
      check key fault dup seen (xs ++ ys) = check key fault dup seen' ys := by
  induction xs generalizing done seen with
  | nil => exact ⟨seen, by simpa using hseen, rfl⟩
  | cons x xs ih =>
    rw [List.append_cons] at hxs ⊢
    have hx : Clean key fault (done ++ [x]) := by
      refine ⟨fun y hy => hxs.fault y (List.mem_append_left _ hy), ?_⟩
      have hnodup := hxs.nodup
      rw [List.map_append] at hnodup
      exact hnodup.of_append_left
    obtain ⟨-, hfault, hkey⟩ := clean_concat.mp hx
    have hnot : key x ∉ seen := fun hmem => hkey ((hseen _).mp hmem)
    have hcons : ∀ k, k ∈ key x :: seen ↔ k ∈ (done ++ [x]).map key := by
      simp [hseen, or_comm]
    obtain ⟨seen', hseen', hcheck⟩ := ih hcons hxs
    refine ⟨seen', hseen', ?_⟩
    rw [List.cons_append, check, hfault]
    simpa only [if_neg hnot] using hcheck

theorem check_nil_append (dup : α → ε) {xs : List α} (hxs : Clean key fault xs) (ys : List α) :
    ∃ seen, (∀ k, k ∈ seen ↔ k ∈ xs.map key) ∧
      check key fault dup [] (xs ++ ys) = check key fault dup seen ys := by
  have hnil : ∀ k, k ∈ [] ↔ k ∈ ([] : List α).map key := by simp
  exact check_append dup hnil hxs ys

theorem check_of_clean {xs : List α} (h : Clean key fault xs) :
    check key fault dup [] xs = none := by
  obtain ⟨seen, -, hcheck⟩ := check_nil_append dup h []
  rwa [List.append_nil] at hcheck

theorem check_of_faulty {done rest : List α} {x : α} {e : ε} (h : Clean key fault done)
    (hx : Faulty key fault dup done x e) :
    check key fault dup [] (done ++ x :: rest) = some e := by
  obtain ⟨seen, hseen, hcheck⟩ := check_nil_append dup h (x :: rest)
  rw [hcheck, check]
  obtain hfault | ⟨hfault, hkey, rfl⟩ := hx
  · rw [hfault]
  · rw [hfault]
    exact if_pos ((hseen _).mpr hkey)

/-- A list is clean, or it has a first record with which something is wrong. -/
theorem clean_or_faulty (key : α → κ) (fault : α → Option ε) (dup : α → ε) (xs : List α) :
    Clean key fault xs ∨ ∃ done x rest e, xs = done ++ x :: rest ∧ Clean key fault done ∧
      Faulty key fault dup done x e := by
  induction xs using List.reverseRecOn with
  | nil => exact .inl clean_nil
  | append_singleton xs x ih =>
    obtain h | ⟨done, y, rest, e, rfl, h, hy⟩ := ih
    · cases hfault : fault x with
      | some e => exact .inr ⟨xs, x, [], e, rfl, h, .inl hfault⟩
      | none =>
        by_cases hkey : key x ∈ xs.map key
        · exact .inr ⟨xs, x, [], dup x, rfl, h, .inr ⟨hfault, hkey, rfl⟩⟩
        · exact .inl (clean_concat.mpr ⟨h, hfault, hkey⟩)
    · exact .inr ⟨done, y, rest ++ [x], e, by simp, h, hy⟩

/-- **The loop has nothing to complain about** exactly if the list is clean. -/
theorem check_eq_none_iff {xs : List α} :
    check key fault dup [] xs = none ↔ Clean key fault xs := by
  refine ⟨fun hnone => ?_, check_of_clean⟩
  obtain h | ⟨done, x, rest, e, rfl, h, hx⟩ := clean_or_faulty key fault dup xs
  · exact h
  · exact absurd ((check_of_faulty h hx).symm.trans hnone) (Option.some_ne_none e)

/-- **The loop complains about the first record with which something is wrong.** -/
theorem check_eq_some_iff {xs : List α} {e : ε} :
    check key fault dup [] xs = some e ↔ ∃ done x rest, xs = done ++ x :: rest ∧
      Clean key fault done ∧ Faulty key fault dup done x e := by
  constructor
  · intro hsome
    obtain h | ⟨done, x, rest, e', rfl, h, hx⟩ := clean_or_faulty key fault dup xs
    · exact absurd ((check_of_clean h).symm.trans hsome).symm (Option.some_ne_none e)
    · obtain rfl := Option.some.inj ((check_of_faulty h hx).symm.trans hsome)
      exact ⟨done, x, rest, rfl, h, hx⟩
  · rintro ⟨done, x, rest, rfl, h, hx⟩
    exact check_of_faulty h hx

end FirstFault
