import DBMesh.Pool.ConnectionPool
import Mathlib.Data.List.Nodup

/-!
# The checkout ledger

What a pool is for, apart from coroutines, timers and counters: it tracks connections, each of
which is either free or active, and it lends an active connection to at most one borrower at a
time. `Ledger` states when the three containers and the borrowers' handles fit together, and there
is one lemma for each move the pool makes on them. The strand segments of `ConnectionPool` are then
compositions of these moves, and `Pool.Invariant` only has to say which.

## After a shutdown

Draining destroys tracked connections while borrowers still hold handles to them, so a borrower's
handle need not be tracked once the ledger is `down`. What survives is that handles of different
borrowers mean different objects, and that a handle whose object *is* tracked is active.
-/

namespace DBMesh

namespace Pool

/-- The containers and the borrowers fit together.

`fresh` bounds the serial numbers used so far; `owns k h` says that borrower `k` has handle `h`. -/
structure Ledger {K : Type*} (tracked : List Handle) (free : List Ptr) (active : Finset Ptr)
    (fresh : ℕ) (owns : K → Handle → Prop) (down : Bool) : Prop where
  ptr_nodup : (tracked.map Handle.ptr).Nodup
  obj_nodup : (tracked.map Handle.obj).Nodup
  obj_lt : ∀ h ∈ tracked, h.obj < fresh
  free_nodup : free.Nodup
  free_not_active : ∀ c ∈ free, c ∉ active
  mem_iff : ∀ c, c ∈ tracked.map Handle.ptr ↔ c ∈ free ∨ c ∈ active
  owner_lt : ∀ {k h}, owns k h → h.obj < fresh
  exclusive : ∀ {k k' h h'}, owns k h → owns k' h' → h.obj = h'.obj → k = k'
  owner_active : ∀ {k h t}, owns k h → t ∈ tracked → t.obj = h.obj → t = h ∧ h.ptr ∈ active
  owner_tracked : down = false → ∀ {k h}, owns k h → h ∈ tracked

namespace Ledger

variable {K : Type*} {tracked : List Handle} {free : List Ptr} {active : Finset Ptr} {fresh : ℕ}
  {owns owns' : K → Handle → Prop} {down : Bool} {c : Ptr} {h : Handle} {k : K}

theorem eq_of_ptr_eq (L : Ledger tracked free active fresh owns down) {t u : Handle}
    (ht : t ∈ tracked) (hu : u ∈ tracked) (htu : t.ptr = u.ptr) : t = u :=
  List.inj_on_of_nodup_map L.ptr_nodup ht hu htu

theorem ptr_mem (ht : h ∈ tracked) : h.ptr ∈ tracked.map Handle.ptr := List.mem_map_of_mem ht

/-- Nobody owns a connection that is in the free list. -/
theorem not_owned_of_free (L : Ledger tracked free active fresh owns down) {t u : Handle}
    (ht : t ∈ tracked) (hfree : t.ptr ∈ free) (hu : owns k u) : t.obj ≠ u.obj := by
  intro htu
  obtain ⟨rfl, hact⟩ := L.owner_active hu ht htu
  exact L.free_not_active _ hfree hact

/-! ### Borrowers -/

/-- Borrowers may give up their handles. -/
theorem mono (L : Ledger tracked free active fresh owns down)
    (h : ∀ {k h}, owns' k h → owns k h) : Ledger tracked free active fresh owns' down where
  ptr_nodup := L.ptr_nodup
  obj_nodup := L.obj_nodup
  obj_lt := L.obj_lt
  free_nodup := L.free_nodup
  free_not_active := L.free_not_active
  mem_iff := L.mem_iff
  owner_lt ho := L.owner_lt (h ho)
  exclusive ho ho' := L.exclusive (h ho) (h ho')
  owner_active ho := L.owner_active (h ho)
  owner_tracked hd _ _ ho := L.owner_tracked hd (h ho)

/-- **Lending.** An active connection nobody owns gets the owner `k`. -/
theorem lend (L : Ledger tracked free active fresh owns down) (ht : h ∈ tracked)
    (hact : h.ptr ∈ active) (hnew : ∀ {k' h'}, owns k' h' → h.obj ≠ h'.obj)
    (hsub : ∀ {k' h'}, owns' k' h' → owns k' h' ∨ k' = k ∧ h' = h) :
    Ledger tracked free active fresh owns' down where
  ptr_nodup := L.ptr_nodup
  obj_nodup := L.obj_nodup
  obj_lt := L.obj_lt
  free_nodup := L.free_nodup
  free_not_active := L.free_not_active
  mem_iff := L.mem_iff
  owner_lt ho := by
    rcases hsub ho with ho | ⟨-, rfl⟩
    · exact L.owner_lt ho
    · exact L.obj_lt _ ht
  exclusive ho ho' heq := by
    rcases hsub ho with ho | ⟨rfl, rfl⟩ <;> rcases hsub ho' with ho' | ⟨rfl, rfl⟩
    · exact L.exclusive ho ho' heq
    · exact absurd heq.symm (hnew ho)
    · exact absurd heq (hnew ho')
    · rfl
  owner_active ho hu heq := by
    rcases hsub ho with ho | ⟨-, rfl⟩
    · exact L.owner_active ho hu heq
    · exact ⟨List.inj_on_of_nodup_map L.obj_nodup hu ht heq, hact⟩
  owner_tracked hd _ _ ho := by
    rcases hsub ho with ho | ⟨-, rfl⟩
    · exact L.owner_tracked hd ho
    · exact ht

/-- **Passing on.** The handle of borrower `j` becomes the handle of borrower `k`. -/
theorem passOn {j : K} (L : Ledger tracked free active fresh owns down) (hj : owns j h)
    (hsub : ∀ {k' h'}, owns' k' h' → k' ≠ j ∧ owns k' h' ∨ k' = k ∧ h' = h) :
    Ledger tracked free active fresh owns' down where
  ptr_nodup := L.ptr_nodup
  obj_nodup := L.obj_nodup
  obj_lt := L.obj_lt
  free_nodup := L.free_nodup
  free_not_active := L.free_not_active
  mem_iff := L.mem_iff
  owner_lt ho := by
    rcases hsub ho with ⟨-, ho⟩ | ⟨-, rfl⟩
    · exact L.owner_lt ho
    · exact L.owner_lt hj
  exclusive ho ho' heq := by
    rcases hsub ho with ⟨hne, ho⟩ | ⟨rfl, rfl⟩ <;> rcases hsub ho' with ⟨hne', ho'⟩ | ⟨rfl, rfl⟩
    · exact L.exclusive ho ho' heq
    · exact absurd (L.exclusive ho hj heq) hne
    · exact absurd (L.exclusive ho' hj heq.symm) hne'
    · rfl
  owner_active ho ht heq := by
    rcases hsub ho with ⟨-, ho⟩ | ⟨-, rfl⟩
    · exact L.owner_active ho ht heq
    · exact L.owner_active hj ht heq
  owner_tracked hd _ _ ho := by
    rcases hsub ho with ⟨-, ho⟩ | ⟨-, rfl⟩
    · exact L.owner_tracked hd ho
    · exact L.owner_tracked hd hj

/-! ### Moves between the free list and the active set -/

/-- The front of the free list becomes active. -/
theorem activate {rest : List Ptr} (L : Ledger tracked (c :: rest) active fresh owns down) :
    Ledger tracked rest (insert c active) fresh owns down where
  ptr_nodup := L.ptr_nodup
  obj_nodup := L.obj_nodup
  obj_lt := L.obj_lt
  free_nodup := (List.nodup_cons.mp L.free_nodup).2
  free_not_active d hd := by
    have hne : d ≠ c := by
      rintro rfl
      exact (List.nodup_cons.mp L.free_nodup).1 hd
    simp [hne, L.free_not_active d (List.mem_cons_of_mem _ hd)]
  mem_iff d := by
    rw [L.mem_iff, List.mem_cons, Finset.mem_insert]
    tauto
  owner_lt := L.owner_lt
  exclusive := L.exclusive
  owner_active ho ht heq := by
    obtain ⟨rfl, hact⟩ := L.owner_active ho ht heq
    exact ⟨rfl, Finset.mem_insert_of_mem hact⟩
  owner_tracked := L.owner_tracked

/-- An active connection nobody owns goes to the back of the free list. -/
theorem giveBack (L : Ledger tracked free active fresh owns down) (hc : c ∈ active)
    (hnew : ∀ {k h}, owns k h → h.ptr ≠ c) :
    Ledger tracked (free ++ [c]) (active.erase c) fresh owns down where
  ptr_nodup := L.ptr_nodup
  obj_nodup := L.obj_nodup
  obj_lt := L.obj_lt
  free_nodup := by
    have hcf : c ∉ free := fun hf => L.free_not_active c hf hc
    simpa [List.nodup_append, hcf] using ⟨L.free_nodup, fun d hd hdc => hcf (hdc ▸ hd)⟩
  free_not_active d hd := by
    rcases List.mem_append.mp hd with hd | hd
    · simp [L.free_not_active d hd]
    · simp [List.mem_singleton.mp hd]
  mem_iff d := by
    rw [L.mem_iff, List.mem_append, List.mem_singleton, Finset.mem_erase]
    rcases eq_or_ne d c with rfl | hdc
    · simp [hc]
    · simp [hdc]
  owner_lt := L.owner_lt
  exclusive := L.exclusive
  owner_active ho ht heq := by
    obtain ⟨rfl, hact⟩ := L.owner_active ho ht heq
    exact ⟨rfl, Finset.mem_erase.mpr ⟨hnew ho, hact⟩⟩
  owner_tracked := L.owner_tracked

/-! ### Admitting a new connection -/

section NewConnection

variable {addr : Ptr}

private theorem append_ptr_nodup (L : Ledger tracked free active fresh owns down)
    (ha : addr ∉ tracked.map Handle.ptr) :
    ((tracked ++ [(⟨addr, fresh⟩ : Handle)]).map Handle.ptr).Nodup := by
  rw [List.map_append, List.map_singleton, List.nodup_append]
  refine ⟨L.ptr_nodup, List.nodup_singleton _, fun a ha' b hb => ?_⟩
  rw [List.mem_singleton.mp hb]
  rintro rfl
  exact ha ha'

private theorem append_obj_nodup (L : Ledger tracked free active fresh owns down) :
    ((tracked ++ [(⟨addr, fresh⟩ : Handle)]).map Handle.obj).Nodup := by
  rw [List.map_append, List.map_singleton, List.nodup_append]
  refine ⟨L.obj_nodup, List.nodup_singleton _, fun a ha b hb => ?_⟩
  obtain ⟨t, ht, rfl⟩ := List.mem_map.mp ha
  rw [List.mem_singleton.mp hb]
  exact (L.obj_lt t ht).ne

private theorem append_obj_lt (L : Ledger tracked free active fresh owns down) :
    ∀ t ∈ tracked ++ [(⟨addr, fresh⟩ : Handle)], t.obj < fresh + 1 := by
  intro t ht
  rcases List.mem_append.mp ht with ht | ht
  · exact Nat.lt_succ_of_lt (L.obj_lt t ht)
  · rw [List.mem_singleton.mp ht]
    exact Nat.lt_succ_self _

/-- The new object is no borrower's. -/
private theorem append_owner (L : Ledger tracked free active fresh owns down) {t : Handle}
    (ho : owns k h) (ht : t ∈ tracked ++ [⟨addr, fresh⟩]) (heq : t.obj = h.obj) : t ∈ tracked := by
  rcases List.mem_append.mp ht with ht | ht
  · exact ht
  · rw [List.mem_singleton.mp ht] at heq
    exact absurd heq (L.owner_lt ho).ne'

/-- A new connection enters the active set. -/
theorem admitActive (L : Ledger tracked free active fresh owns down) (addr : Ptr)
    (ha : addr ∉ tracked.map Handle.ptr) :
    Ledger (tracked ++ [⟨addr, fresh⟩]) free (insert addr active) (fresh + 1) owns down where
  ptr_nodup := L.append_ptr_nodup ha
  obj_nodup := L.append_obj_nodup
  obj_lt := L.append_obj_lt
  free_nodup := L.free_nodup
  free_not_active d hd := by
    have hne : d ≠ addr := by
      rintro rfl
      exact ha ((L.mem_iff d).mpr (Or.inl hd))
    simp [hne, L.free_not_active d hd]
  mem_iff d := by
    rw [List.map_append, List.mem_append, L.mem_iff, Finset.mem_insert]
    simp only [List.map_cons, List.map_nil, List.mem_singleton]
    tauto
  owner_lt ho := Nat.lt_succ_of_lt (L.owner_lt ho)
  exclusive := L.exclusive
  owner_active ho ht heq := by
    obtain ⟨rfl, hact⟩ := L.owner_active ho (L.append_owner ho ht heq) heq
    exact ⟨rfl, Finset.mem_insert_of_mem hact⟩
  owner_tracked hd _ _ ho := List.mem_append_left _ (L.owner_tracked hd ho)

/-- A new connection enters the free list. -/
theorem admitFree (L : Ledger tracked free active fresh owns down) (addr : Ptr)
    (ha : addr ∉ tracked.map Handle.ptr) :
    Ledger (tracked ++ [⟨addr, fresh⟩]) (free ++ [addr]) active (fresh + 1) owns down where
  ptr_nodup := L.append_ptr_nodup ha
  obj_nodup := L.append_obj_nodup
  obj_lt := L.append_obj_lt
  free_nodup := by
    have haf : addr ∉ free := fun hf => ha ((L.mem_iff addr).mpr (Or.inl hf))
    simpa [List.nodup_append, haf] using ⟨L.free_nodup, fun d hd hda => haf (hda ▸ hd)⟩
  free_not_active d hd := by
    rcases List.mem_append.mp hd with hd | hd
    · exact L.free_not_active d hd
    · rw [List.mem_singleton.mp hd]
      exact fun hact => ha ((L.mem_iff addr).mpr (Or.inr hact))
  mem_iff d := by
    rw [List.map_append, List.mem_append, L.mem_iff, List.mem_append]
    simp only [List.map_cons, List.map_nil, List.mem_singleton]
    tauto
  owner_lt ho := Nat.lt_succ_of_lt (L.owner_lt ho)
  exclusive := L.exclusive
  owner_active ho ht heq := L.owner_active ho (L.append_owner ho ht heq) heq
  owner_tracked hd _ _ ho := List.mem_append_left _ (L.owner_tracked hd ho)

end NewConnection

/-! ### Retiring a connection -/

/-- Erasing the entry for a pointer leaves exactly the entries for other pointers. -/
theorem mem_eraseP (hnd : (tracked.map Handle.ptr).Nodup) {t : Handle} :
    t ∈ tracked.eraseP (·.ptr = c) ↔ t ∈ tracked ∧ t.ptr ≠ c := by
  induction tracked with
  | nil => simp
  | cons u l ih =>
    rw [List.map_cons, List.nodup_cons] at hnd
    rcases eq_or_ne u.ptr c with hu | hu
    · rw [List.eraseP_cons_of_pos (by simpa using hu), List.mem_cons]
      have hl : ∀ v ∈ l, v.ptr ≠ c := fun v hv hvc => hnd.1 (by rw [hu, ← hvc]; exact ptr_mem hv)
      refine ⟨fun ht => ⟨Or.inr ht, hl t ht⟩, ?_⟩
      rintro ⟨rfl | ht, htc⟩
      · exact absurd hu htc
      · exact ht
    · rw [List.eraseP_cons_of_neg (by simpa using hu), List.mem_cons, List.mem_cons, ih hnd.2]
      refine ⟨?_, ?_⟩
      · rintro (rfl | ⟨ht, htc⟩)
        · exact ⟨Or.inl rfl, hu⟩
        · exact ⟨Or.inr ht, htc⟩
      · rintro ⟨rfl | ht, htc⟩
        · exact Or.inl rfl
        · exact Or.inr ⟨ht, htc⟩

theorem ptr_mem_eraseP (hnd : (tracked.map Handle.ptr).Nodup) {d : Ptr} :
    d ∈ (tracked.eraseP (·.ptr = c)).map Handle.ptr ↔ d ∈ tracked.map Handle.ptr ∧ d ≠ c := by
  simp only [List.mem_map, mem_eraseP hnd]
  constructor
  · rintro ⟨t, ⟨ht, htc⟩, rfl⟩
    exact ⟨⟨t, ht, rfl⟩, htc⟩
  · rintro ⟨⟨t, ht, rfl⟩, htc⟩
    exact ⟨t, ⟨ht, htc⟩, rfl⟩

/-- An active connection is destroyed. While the ledger is up, nobody may own it. -/
theorem retireActive (L : Ledger tracked free active fresh owns down) (hc : c ∈ active)
    (hnew : down = false → ∀ {k h}, owns k h → h.ptr ≠ c) :
    Ledger (tracked.eraseP (·.ptr = c)) free (active.erase c) fresh owns down where
  ptr_nodup := L.ptr_nodup.sublist (List.eraseP_sublist.map _)
  obj_nodup := L.obj_nodup.sublist (List.eraseP_sublist.map _)
  obj_lt t ht := L.obj_lt t (List.mem_of_mem_eraseP ht)
  free_nodup := L.free_nodup
  free_not_active d hd := by simp [L.free_not_active d hd]
  mem_iff d := by
    rw [ptr_mem_eraseP L.ptr_nodup, L.mem_iff, Finset.mem_erase]
    rcases eq_or_ne d c with rfl | hdc
    · simpa using fun hf => L.free_not_active d hf hc
    · simp [hdc]
  owner_lt := L.owner_lt
  exclusive := L.exclusive
  owner_active ho ht heq := by
    obtain ⟨ht, htc⟩ := (mem_eraseP L.ptr_nodup).mp ht
    obtain ⟨rfl, hact⟩ := L.owner_active ho ht heq
    exact ⟨rfl, Finset.mem_erase.mpr ⟨htc, hact⟩⟩
  owner_tracked hd _ _ ho :=
    (mem_eraseP L.ptr_nodup).mpr ⟨L.owner_tracked hd ho, hnew hd ho⟩

/-- A free connection is destroyed. -/
theorem retireFree {l₁ l₂ : List Ptr} (L : Ledger tracked (l₁ ++ c :: l₂) active fresh owns down) :
    Ledger (tracked.eraseP (·.ptr = c)) (l₁ ++ l₂) active fresh owns down where
  ptr_nodup := L.ptr_nodup.sublist (List.eraseP_sublist.map _)
  obj_nodup := L.obj_nodup.sublist (List.eraseP_sublist.map _)
  obj_lt t ht := L.obj_lt t (List.mem_of_mem_eraseP ht)
  free_nodup := L.free_nodup.sublist (List.Sublist.append_left (List.sublist_cons_self ..) _)
  free_not_active d hd := by
    refine L.free_not_active d ?_
    rw [List.mem_append, List.mem_cons]
    rcases List.mem_append.mp hd with hd | hd
    · exact Or.inl hd
    · exact Or.inr (Or.inr hd)
  mem_iff d := by
    have hc : c ∉ l₁ ++ l₂ := (List.nodup_middle.mp L.free_nodup |> List.nodup_cons.mp).1
    rw [ptr_mem_eraseP L.ptr_nodup, L.mem_iff]
    rcases eq_or_ne d c with rfl | hdc
    · simpa using ⟨by simpa using hc, L.free_not_active d (by simp)⟩
    · simp [hdc]
  owner_lt := L.owner_lt
  exclusive := L.exclusive
  owner_active ho ht heq := L.owner_active ho (List.mem_of_mem_eraseP ht) heq
  owner_tracked hd _ _ ho := by
    refine (mem_eraseP L.ptr_nodup).mpr ⟨L.owner_tracked hd ho, fun hptr => ?_⟩
    have ht := L.owner_tracked hd ho
    exact L.not_owned_of_free ht (by rw [hptr]; simp) ho rfl

/-- Everything is destroyed and the ledger goes down; borrowers keep their handles. -/
theorem clear (L : Ledger tracked free active fresh owns down) :
    Ledger [] [] ∅ fresh owns true where
  ptr_nodup := List.nodup_nil
  obj_nodup := List.nodup_nil
  obj_lt := by simp
  free_nodup := List.nodup_nil
  free_not_active := by simp
  mem_iff := by simp
  owner_lt := L.owner_lt
  exclusive := L.exclusive
  owner_active _ ht := by simp at ht
  owner_tracked hd := by simp at hd

/-- The tracked connections are as many as the free and the active ones together. -/
theorem length_tracked (L : Ledger tracked free active fresh owns down) :
    free.length + active.card = tracked.length := by
  classical
  have hunion : (tracked.map Handle.ptr).toFinset = free.toFinset ∪ active := by
    ext d
    simp only [List.mem_toFinset, Finset.mem_union]
    exact L.mem_iff d
  have hdisj : Disjoint free.toFinset active :=
    Finset.disjoint_left.mpr fun d hd => L.free_not_active d (List.mem_toFinset.mp hd)
  calc free.length + active.card
      = free.toFinset.card + active.card := by rw [List.toFinset_card_of_nodup L.free_nodup]
    _ = (tracked.map Handle.ptr).toFinset.card := by
        rw [hunion, Finset.card_union_of_disjoint hdisj]
    _ = tracked.length := by
        rw [List.toFinset_card_of_nodup L.ptr_nodup, List.length_map]

end Ledger

end Pool

end DBMesh
