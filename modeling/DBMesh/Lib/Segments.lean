import Mathlib.Data.List.Basic

/-!
# A log in segments

A log is written record by record. Before a record is written the segment at hand may be closed
and a new one begun; a reader for whom only the segments closed last are kept sees the end of the
log. How many bytes of it the reader sees depends on how full a segment was when it was closed.

Records are of any type, and a function `out` gives the bytes of each.

## Main definitions

* `Segments` — the closed segments, the newest first, and the one at hand
* `Segments.push` — one more record, in the segment at hand or in a new one
* `Segments.kept` — the records in the segment at hand and the `n` closed last
* `Segments.Full`, `Segments.Bounded` — bounds on the bytes of each segment

## Main results

* `Segments.kept_eq_drop` — what is kept is the end of what was written
* `Segments.Full.le_length_kept` — nothing was dropped, or at least `n` full segments are left
-/

/-- The closed segments of a log, the newest first, and the segment at hand. -/
structure Segments (α : Type*) where
  closed : List (List α)
  current : List α

namespace Segments

variable {α β : Type*}

/-- One more record: in a new segment if the one at hand is closed before it. -/
def push (s : Segments α) (cut : Bool) (x : α) : Segments α :=
  if cut then ⟨s.current :: s.closed, [x]⟩ else ⟨s.closed, s.current ++ [x]⟩

/-- Everything that was written. -/
def records (s : Segments α) : List α := s.closed.reverse.flatten ++ s.current

/-- The records in the segment at hand and in the `n` segments closed last. -/
def kept (s : Segments α) (n : ℕ) : List α := (s.closed.take n).reverse.flatten ++ s.current

theorem records_push (s : Segments α) (cut : Bool) (x : α) :
    (s.push cut x).records = s.records ++ [x] := by
  cases cut <;> simp [push, records]

theorem records_eq_append_kept (s : Segments α) (n : ℕ) :
    s.records = (s.closed.drop n).reverse.flatten ++ s.kept n := by
  rw [records, kept, ← List.append_assoc, ← List.flatten_append, ← List.reverse_append,
    List.take_append_drop]

/-- What is kept is the end of what was written. -/
theorem kept_eq_drop (s : Segments α) (n : ℕ) :
    s.kept n = s.records.drop (s.closed.drop n).reverse.flatten.length := by
  rw [s.records_eq_append_kept n, List.drop_left]

theorem kept_of_length_le {s : Segments α} {n : ℕ} (h : s.closed.length ≤ n) :
    s.kept n = s.records := by
  rw [kept, records, List.take_of_length_le h]

variable {out : α → List β} {b m n : ℕ}

/-- Every closed segment has at least `m` bytes. -/
def Full (out : α → List β) (m : ℕ) (s : Segments α) : Prop :=
  ∀ seg ∈ s.closed, m ≤ (seg.flatMap out).length

/-- Every segment has at most `b` bytes. -/
def Bounded (out : α → List β) (b : ℕ) (s : Segments α) : Prop :=
  ∀ seg ∈ s.current :: s.closed, (seg.flatMap out).length ≤ b

theorem Full.push {s : Segments α} (hs : Full out m s) {cut : Bool}
    (hcut : cut = true → m ≤ (s.current.flatMap out).length) (x : α) :
    Full out m (s.push cut x) := by
  cases cut with
  | false => exact hs
  | true =>
    intro seg hseg
    rcases List.mem_cons.mp hseg with rfl | hseg
    · exact hcut rfl
    · exact hs seg hseg

theorem Bounded.push {s : Segments α} (hs : Bounded out b s) {cut : Bool} {x : α}
    (hx : (out x).length ≤ b)
    (hcut : cut = false → (s.current.flatMap out).length + (out x).length ≤ b) :
    Bounded out b (s.push cut x) := by
  intro seg hseg
  cases cut with
  | false =>
    rcases List.mem_cons.mp hseg with rfl | hseg
    · show ((s.current ++ [x]).flatMap out).length ≤ b
      rw [List.flatMap_append, List.length_append, List.flatMap_singleton]
      exact hcut rfl
    · exact hs seg (List.mem_cons_of_mem _ hseg)
  | true =>
    rcases List.mem_cons.mp hseg with rfl | hseg
    · show ([x].flatMap out).length ≤ b
      rwa [List.flatMap_singleton]
    · exact hs seg hseg

theorem le_length_of_full {segs : List (List α)} (h : ∀ seg ∈ segs, m ≤ (seg.flatMap out).length) :
    segs.length * m ≤ (segs.flatten.flatMap out).length := by
  induction segs with
  | nil => simp
  | cons seg segs ih =>
    have hseg := h seg (List.mem_cons_self ..)
    have hsegs := ih fun t ht => h t (List.mem_cons_of_mem _ ht)
    rw [List.flatten_cons, List.flatMap_append, List.length_append, List.length_cons,
      Nat.succ_mul]
    omega

/-- **What is kept.** Nothing of the log is missing, or `n` full segments are left. -/
theorem Full.le_length_kept {s : Segments α} (hs : Full out m s) (n : ℕ) :
    s.kept n = s.records ∨ n * m ≤ ((s.kept n).flatMap out).length := by
  rcases Nat.le_total s.closed.length n with h | h
  · exact .inl (kept_of_length_le h)
  · right
    have hfull : ∀ seg ∈ (s.closed.take n).reverse, m ≤ (seg.flatMap out).length := by
      intro seg hseg
      exact hs seg (List.mem_of_mem_take (List.mem_reverse.mp hseg))
    have hle := le_length_of_full hfull
    rw [List.length_reverse, List.length_take_of_le h] at hle
    rw [kept, List.flatMap_append, List.length_append]
    omega

end Segments
