import Mathlib.Data.List.Perm.Subperm
import Mathlib.Data.List.Nodup
import Mathlib.Order.Nat
import Mathlib.Tactic.Common

/-!
# Even draws

Draws from a list of choices are even when no choice is ahead of another by more than one. They stay
even from the first draw on exactly when every round, which is as many draws as there are choices,
draws nothing twice.

## Main definitions

* `Rounds.Even` — no choice is ahead of another by more than one
* `Rounds.Distinct` — nothing is drawn twice in a round

## Main results

* `Rounds.forall_even_iff` — the draws are even all along exactly when each round is distinct
-/

namespace Rounds

variable {α β : Type*} {n : ℕ}

/-- Nothing is drawn twice in a round of `n` draws. -/
def Distinct (n : ℕ) (xs : List α) : Prop :=
  ∀ i j, i < j → i / n = j / n → ∀ a, xs[i]? = some a → xs[j]? ≠ some a

theorem distinct_iff_nodup {xs : List α} (h : xs.length ≤ n) : Distinct n xs ↔ xs.Nodup := by
  rw [List.nodup_iff_getElem?_ne_getElem?]
  constructor
  · intro hd i j hij hj heq
    have hround : i / n = j / n := by
      rw [Nat.div_eq_of_lt (by omega), Nat.div_eq_of_lt (by omega)]
    obtain ⟨a, ha⟩ : ∃ a, xs[i]? = some a := ⟨_, List.getElem?_eq_getElem (hij.trans hj)⟩
    exact hd i j hij hround a ha (heq.symm.trans ha)
  · intro hn i j hij _ a ha hb
    exact hn i j hij (List.getElem?_eq_some_iff.mp hb).1 (ha.trans hb.symm)

/-- A first round and the rounds after it. -/
theorem distinct_append {ys zs : List α} (hn : 0 < n) (hy : ys.length = n) :
    Distinct n (ys ++ zs) ↔ ys.Nodup ∧ Distinct n zs := by
  rw [← distinct_iff_nodup hy.le]
  constructor
  · refine fun hd => ⟨fun i j hij hround a ha hb => ?_, fun i j hij hround a ha hb => ?_⟩
    · have hj := (List.getElem?_eq_some_iff.mp hb).1
      refine hd i j hij hround a ?_ ?_
      · rwa [List.getElem?_append_left (hij.trans hj)]
      · rwa [List.getElem?_append_left hj]
    · refine hd (i + n) (j + n) (by omega) ?_ a ?_ ?_
      · rw [Nat.add_div_right _ hn, Nat.add_div_right _ hn, hround]
      · rwa [← hy, List.getElem?_append_right (Nat.le_add_left _ _), Nat.add_sub_cancel]
      · rwa [← hy, List.getElem?_append_right (Nat.le_add_left _ _), Nat.add_sub_cancel]
  · rintro ⟨hys, hzs⟩ i j hij hround a ha hb
    by_cases hj : j < n
    · rw [List.getElem?_append_left (by omega)] at ha hb
      exact hys i j hij hround a ha hb
    · -- the round of `j` is not the first, so `i` is behind the first round too
      have hi : n ≤ i := by
        by_contra hi
        rw [Nat.div_eq_of_lt (by omega)] at hround
        have := Nat.div_pos (Nat.le_of_not_lt hj) hn
        omega
      rw [List.getElem?_append_right (by omega), hy] at ha hb
      refine hzs (i - n) (j - n) (by omega) ?_ a ha hb
      rw [← Nat.sub_add_cancel hi, ← Nat.sub_add_cancel (Nat.le_of_not_lt hj),
        Nat.add_div_right _ hn, Nat.add_div_right _ hn] at hround
      exact Nat.succ.inj hround

theorem distinct_map {f : α → β} {xs : List α} (hf : ∀ x ∈ xs, ∀ y ∈ xs, f x = f y → x = y) :
    Distinct n (xs.map f) ↔ Distinct n xs := by
  constructor
  · intro hd i j hij hround a ha hb
    refine hd i j hij hround (f a) ?_ ?_
    · rw [List.getElem?_map, ha, Option.map_some]
    · rw [List.getElem?_map, hb, Option.map_some]
  · intro hd i j hij hround b ha hb
    rw [List.getElem?_map] at ha hb
    obtain ⟨x, hx, rfl⟩ := Option.map_eq_some_iff.mp ha
    obtain ⟨y, hy, hxy⟩ := Option.map_eq_some_iff.mp hb
    obtain rfl := hf y (List.mem_of_getElem? hy) x (List.mem_of_getElem? hx) hxy
    exact hd i j hij hround y hx hy

variable [DecidableEq α] {c xs ys : List α}

/-- No choice is ahead of another by more than one. -/
def Even (c xs : List α) : Prop := ∀ a ∈ c, ∀ b ∈ c, xs.count a ≤ xs.count b + 1

instance (c xs : List α) : Decidable (Even c xs) :=
  inferInstanceAs (Decidable (∀ a ∈ c, ∀ b ∈ c, xs.count a ≤ xs.count b + 1))

theorem even_of_nodup (h : xs.Nodup) : Even c xs := by
  intro a _ b _
  have := List.nodup_iff_count_le_one.mp h a
  omega

/-- Even draws that are not more than the choices are distinct. -/
theorem nodup_of_even (hc : c.Nodup) (hxs : xs ⊆ c) (hlen : xs.length ≤ c.length)
    (h : Even c xs) : xs.Nodup := by
  rw [List.nodup_iff_count_le_one]
  intro a
  by_cases ha : a ∈ xs
  · by_cases hall : c ⊆ xs
    · -- every choice was drawn, so the draws are the choices in some order
      have hperm : c.Perm xs := (hc.subperm hall).perm_of_length_le hlen
      rw [← hperm.count_eq]
      exact List.nodup_iff_count_le_one.mp hc a
    · obtain ⟨b, hb, hnot⟩ : ∃ b, b ∈ c ∧ b ∉ xs := by simpa [List.subset_def] using hall
      have := h a (hxs ha) b hb
      rwa [List.count_eq_zero_of_not_mem hnot] at this
  · rw [List.count_eq_zero_of_not_mem ha]
    exact Nat.zero_le _

/-- A round that draws everything once changes nothing. -/
theorem even_append (hc : c.Nodup) (hy : ys.Perm c) (zs : List α) :
    Even c (ys ++ zs) ↔ Even c zs := by
  have hcount : ∀ a ∈ c, (ys ++ zs).count a = 1 + zs.count a := by
    intro a ha
    rw [List.count_append, hy.count_eq, List.count_eq_one_of_mem hc ha]
  refine forall₂_congr fun a ha => forall₂_congr fun b hb => ?_
  rw [hcount a ha, hcount b hb]
  omega

/-- **Even all along.** Draws from `c` are even after every one of them exactly when nothing is
drawn twice in a round. -/
theorem forall_even_iff (hc : c.Nodup) (hxs : xs ⊆ c) :
    (∀ p, p <+: xs → Even c p) ↔ Distinct c.length xs := by
  induction hk : xs.length using Nat.strongRecOn generalizing xs with
  | ind k ih =>
    obtain hlen | hlen := Nat.lt_or_ge c.length xs.length
    · -- the first round, and what is drawn after it
      obtain ⟨a, ha⟩ := List.exists_mem_of_length_pos (Nat.zero_lt_of_lt hlen)
      have hpos : 0 < c.length := List.length_pos_of_mem (hxs ha)
      have hsplit := List.take_append_drop c.length xs
      have htake : (xs.take c.length).length = c.length := List.length_take_of_le hlen.le
      have hsub : xs.take c.length ⊆ c := fun x hx => hxs (List.mem_of_mem_take hx)
      have hrest : (∀ p, p <+: xs.drop c.length → Even c p) ↔
          Distinct c.length (xs.drop c.length) :=
        ih _ (by rw [List.length_drop]; omega) (fun x hx => hxs (List.mem_of_mem_drop hx)) rfl
      have hperm : (xs.take c.length).Nodup → (xs.take c.length).Perm c :=
        fun hn => (hn.subperm hsub).perm_of_length_le htake.ge
      rw [← hsplit, distinct_append hpos htake, ← hrest]
      constructor
      · intro h
        have hn := nodup_of_even hc hsub htake.le (h _ (List.prefix_append _ _))
        refine ⟨hn, fun p hp => ?_⟩
        rw [← even_append hc (hperm hn)]
        exact h _ ((List.prefix_append_right_inj _).mpr hp)
      · rintro ⟨hn, h⟩ p hp
        obtain hp | ⟨q, rfl⟩ := List.prefix_or_prefix_of_prefix hp (List.prefix_append _ _)
        · exact even_of_nodup (hn.sublist hp.sublist)
        · rw [even_append hc (hperm hn)]
          exact h q ((List.prefix_append_right_inj _).mp hp)
    · rw [distinct_iff_nodup hlen]
      refine ⟨fun h => nodup_of_even hc hxs hlen (h xs (List.prefix_refl xs)), fun h p hp => ?_⟩
      exact even_of_nodup (h.sublist hp.sublist)

end Rounds
