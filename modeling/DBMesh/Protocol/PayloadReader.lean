import DBMesh.Protocol.Codec
import Mathlib.Data.Nat.Digits.Lemmas

/-!
# Reading a payload

The `read` helpers of `protocol/mysql/include/dbmesh/protocol/mysql/codec.h`, which read at a
position of a buffer and move the position on. Positions and lengths are of type `std::size_t`, so
their sums are taken modulo `2 ^ 64`.

A byte or a range that is not inside the buffer has no defined value: a reader that touches one is
`none`. The bound checks are there to prevent that, and they are made on the sums.

## Main definitions

* `DBMesh.Protocol.readLenencInt`, `readNullStr`, `readLenencStr` — the helpers
* `DBMesh.Protocol.InBounds` — a reader stays inside the buffer and moves forward
* `DBMesh.Protocol.PrefixFits`, `LengthFits` — the sums that the checks are made on do not wrap
* `DBMesh.Protocol.lenencSize` — how many bytes a length-encoded number takes

## Main results

* `DBMesh.Protocol.inBounds_readLenencInt_iff`, `inBounds_readNullStr`, `inBounds_readLenencStr_iff`
* `DBMesh.Protocol.lenenc_round_trip` — length-encoded values are read back wherever they stand
-/

namespace DBMesh.Protocol

/-- A sum of type `std::size_t`. -/
def sizeT (n : ℕ) : ℕ := n % 2 ^ 64

theorem sizeT_of_lt {n : ℕ} (h : n < 2 ^ 64) : sizeT n = n := Nat.mod_eq_of_lt h

/-- The bytes from `first` up to `last`. -/
def slice (data : Bytes) (first last : ℕ) : Option Bytes :=
  if first ≤ last ∧ last ≤ data.length then some ((data.drop first).take (last - first)) else none

/-- `read_u16_le`, `read_u24_le`, `read_u32_le` and the loop over eight bytes, for `k` bytes. -/
def readLe (data : Bytes) (pos : ℕ) : ℕ → Option ℕ
  | 0 => some 0
  | k + 1 => do
    let v ← readLe data pos k
    let b ← data[pos + k]?
    some (v ||| b.toNat <<< (8 * k))

/-- How many bytes follow a first byte that is not the number itself. -/
def lenencWidth (first : UInt8) : ℕ := if first = 0xFC then 2 else if first = 0xFD then 3 else 8

/-- The number and the position after it. A number that is cut off is zero. -/
def readLenencInt (data : Bytes) (pos : ℕ) : Option (ℕ × ℕ) :=
  if data.length ≤ pos then some (0, pos)
  else do
    let first ← data[pos]?
    let pos := sizeT (pos + 1)
    if first < 0xFB then some (first.toNat, pos)
    else if data.length < sizeT (pos + lenencWidth first) then some (0, pos)
    else do
      let v ← readLe data pos (lenencWidth first)
      some (v, sizeT (pos + lenencWidth first))

/-- The loop of `read_null_str`. -/
def readNullLoop (data s : Bytes) (pos : ℕ) : Option (Bytes × ℕ) :=
  if pos < data.length then do
    let b ← data[pos]?
    if b = 0x00 then some (s, pos) else readNullLoop data (s ++ [b]) (pos + 1)
  else some (s, pos)
termination_by data.length - pos

def readNullStr (data : Bytes) (pos : ℕ) : Option (Bytes × ℕ) := do
  let r ← readNullLoop data [] pos
  some (r.1, if r.2 < data.length then sizeT (r.2 + 1) else r.2)

def readLenencStr (data : Bytes) (pos : ℕ) : Option (Bytes × ℕ) := do
  let r ← readLenencInt data pos
  if data.length < sizeT (r.2 + r.1) then some ([], r.2)
  else do
    let s ← slice data r.2 (r.2 + r.1)
    some (s, sizeT (r.2 + r.1))

/-! ### What stands in the buffer -/

/-- The number in some bytes, the lowest first. -/
def leValue (bs : Bytes) : ℕ := Nat.ofDigits 256 (bs.map UInt8.toNat)

/-- The length-encoded number at a position, and where it ends. -/
def lenencAt (data : Bytes) (pos : ℕ) : ℕ × ℕ :=
  match data[pos]? with
  | none => (0, pos)
  | some first =>
    if first < 0xFB then (first.toNat, pos + 1)
    else if pos + 1 + lenencWidth first ≤ data.length then
      (leValue ((data.drop (pos + 1)).take (lenencWidth first)), pos + 1 + lenencWidth first)
    else (0, pos + 1)

/-- The bytes up to the next zero. -/
def nullStrAt (data : Bytes) (pos : ℕ) : Bytes := (data.drop pos).takeWhile (· ≠ 0x00)

/-- Where the text after that zero begins. -/
def afterNull (data : Bytes) (pos : ℕ) : ℕ :=
  min (pos + (nullStrAt data pos).length + 1) data.length

/-- The reader touches only bytes of the buffer and leaves the position between where it was and the
end. -/
def InBounds {α : Type} (data : Bytes) (pos : ℕ) (r : Option (α × ℕ)) : Prop :=
  ∃ v pos', r = some (v, pos') ∧ pos ≤ pos' ∧ pos' ≤ data.length

/-- The end of a length-encoded number is a position. -/
def PrefixFits (data : Bytes) (pos : ℕ) : Prop :=
  ∀ first, data[pos]? = some first → 0xFB ≤ first → pos + 1 + lenencWidth first < 2 ^ 64

/-- The end of what a length-encoded number at the position is the length of is a position. -/
def LengthFits (data : Bytes) (pos : ℕ) : Prop :=
  (lenencAt data pos).2 + (lenencAt data pos).1 < 2 ^ 64

instance (data : Bytes) (pos : ℕ) : Decidable (LengthFits data pos) :=
  inferInstanceAs (Decidable (_ < _))

/-! ### Numbers -/

variable {data : Bytes} {pos : ℕ}

/-- A number that is cut off is read past the end. -/
theorem readLe_eq_none {k : ℕ} (hpos : pos ≤ data.length) (h : data.length < pos + k) :
    readLe data pos k = none := by
  cases k with
  | zero => omega
  | succ k =>
    rw [readLe, List.getElem?_eq_none (by omega)]
    cases readLe data pos k with
    | none => rfl
    | some v => rfl

theorem leValue_lt (bs : Bytes) : leValue bs < 256 ^ bs.length := by
  have hlt : ∀ x ∈ bs.map UInt8.toNat, x < 256 := by
    intro x hx
    obtain ⟨b, -, rfl⟩ := List.mem_map.mp hx
    exact b.toNat_lt
  have := Nat.ofDigits_lt_base_pow_length (by decide) hlt
  rwa [List.length_map] at this

theorem leValue_concat (bs : Bytes) (b : UInt8) :
    leValue (bs ++ [b]) = leValue bs ||| b.toNat <<< (8 * bs.length) := by
  have hlt : leValue bs < 2 ^ (8 * bs.length) := by
    rw [Nat.pow_mul]
    exact leValue_lt bs
  rw [Nat.or_comm, ← Nat.shiftLeft_add_eq_or_of_lt hlt, Nat.shiftLeft_eq, leValue, List.map_append,
    Nat.ofDigits_append, List.length_map, List.map_singleton, Nat.ofDigits_singleton,
    Nat.pow_mul, leValue, Nat.add_comm, Nat.mul_comm b.toNat]

/-- The lowest `k` bytes of a number. -/
theorem leValue_byteAt (v k : ℕ) : leValue ((List.range k).map (byteAt v)) = v % 256 ^ k := by
  induction k with
  | zero => rw [Nat.pow_zero, Nat.mod_one, List.range_zero, List.map_nil, leValue, List.map_nil,
      Nat.ofDigits_nil]
  | succ k ih =>
    rw [List.range_succ, List.map_append, List.map_singleton, leValue, List.map_append,
      Nat.ofDigits_append, List.length_map, List.length_map, List.length_range,
      List.map_singleton, Nat.ofDigits_singleton, toNat_byteAt, Nat.mod_pow_succ, Nat.pow_mul]
    exact congrArg (· + 256 ^ k * (v / 256 ^ k % 256)) ih

theorem readLe_eq {k : ℕ} (h : pos + k ≤ data.length) :
    readLe data pos k = some (leValue ((data.drop pos).take k)) := by
  induction k with
  | zero => rfl
  | succ k ih =>
    have hlt : pos + k < data.length := by omega
    have hlen : ((data.drop pos).take k).length = k := by
      rw [List.length_take_of_le]
      rw [List.length_drop]
      omega
    have hk : (data.drop pos)[k]? = some data[pos + k] := by
      rw [List.getElem?_drop, List.getElem?_eq_getElem hlt]
    rw [readLe, ih (by omega), List.getElem?_eq_getElem hlt, List.take_add_one, hk,
      Option.toList_some, leValue_concat, hlen]
    rfl

/-! ### The helpers -/

/-- A sum that wraps passes the check. -/
theorem sizeT_lt_of_le {n : ℕ} (hn : n < 2 ^ 64) (hpos : pos < 2 ^ 64) (h : 2 ^ 64 ≤ pos + n) :
    sizeT (pos + n) < pos := by
  rw [sizeT]
  omega

theorem lenencWidth_le (first : UInt8) : lenencWidth first ≤ 8 := by
  rw [lenencWidth]
  split_ifs <;> decide

theorem lenencAt_le (hpos : pos ≤ data.length) :
    pos ≤ (lenencAt data pos).2 ∧ (lenencAt data pos).2 ≤ data.length := by
  rw [lenencAt]
  split
  · exact ⟨Nat.le_refl _, hpos⟩
  · next first hfirst =>
    have hlt := (List.getElem?_eq_some_iff.mp hfirst).1
    split_ifs
    · exact ⟨Nat.le_succ _, hlt⟩
    · exact ⟨by omega, by omega⟩
    · exact ⟨Nat.le_succ _, hlt⟩

theorem lenencAt_lt (data : Bytes) (pos : ℕ) : (lenencAt data pos).1 < 2 ^ 64 := by
  rw [lenencAt]
  split
  · exact Nat.two_pow_pos 64
  · next first _ =>
    split_ifs
    · exact Nat.lt_trans first.toNat_lt (by decide)
    · refine Nat.lt_of_lt_of_le (leValue_lt _) ?_
      refine (Nat.pow_le_pow_right (by decide) ((List.length_take_le _ _).trans
        (lenencWidth_le first))).trans (by decide)
    · exact Nat.two_pow_pos 64

theorem readLenencInt_eq (hsize : data.length < 2 ^ 64) (h : PrefixFits data pos) :
    readLenencInt data pos = some (lenencAt data pos) := by
  rw [readLenencInt, lenencAt]
  by_cases hend : data.length ≤ pos
  · rw [if_pos hend, List.getElem?_eq_none hend]
  · have hlt : pos < data.length := Nat.lt_of_not_le hend
    have hnext : sizeT (pos + 1) = pos + 1 := sizeT_of_lt (by omega)
    have hfirst := List.getElem?_eq_getElem hlt
    rw [if_neg hend, hfirst, hnext]
    simp only [Option.bind_eq_bind, Option.bind_some]
    by_cases hsmall : data[pos] < 0xFB
    · rw [if_pos hsmall, if_pos hsmall]
    · have hfits := h _ hfirst (UInt8.not_lt.mp hsmall)
      rw [if_neg hsmall, if_neg hsmall, sizeT_of_lt hfits]
      by_cases hcut : data.length < pos + 1 + lenencWidth data[pos]
      · rw [if_pos hcut, if_neg (by omega)]
      · rw [if_neg hcut, if_pos (by omega), readLe_eq (by omega)]
        rfl

theorem readLenencInt_eq_none (hsize : data.length < 2 ^ 64) (h : ¬ PrefixFits data pos) :
    readLenencInt data pos = none := by
  obtain ⟨first, hfirst, hlarge, hwrap⟩ : ∃ first, data[pos]? = some first ∧ 0xFB ≤ first ∧
      2 ^ 64 ≤ pos + 1 + lenencWidth first := by
    simpa [PrefixFits, not_lt] using h
  have hlt := (List.getElem?_eq_some_iff.mp hfirst).1
  have hwidth := lenencWidth_le first
  have hnext : sizeT (pos + 1) = pos + 1 := sizeT_of_lt (by omega)
  -- the check sees a sum below the position, and the bytes are read past the end
  have hcheck := sizeT_lt_of_le (Nat.lt_of_le_of_lt hwidth (by decide)) (by omega) hwrap
  rw [readLenencInt, if_neg (by omega), hfirst, hnext]
  simp only [Option.bind_eq_bind, Option.bind_some]
  rw [if_neg (UInt8.not_lt.mpr hlarge), if_neg (by omega), readLe_eq_none hlt (by omega)]
  rfl

theorem inBounds_readLenencInt_iff (hsize : data.length < 2 ^ 64) (hpos : pos ≤ data.length) :
    InBounds data pos (readLenencInt data pos) ↔ PrefixFits data pos := by
  constructor
  · rintro ⟨v, pos', hread, -, -⟩
    by_contra h
    rw [readLenencInt_eq_none hsize h] at hread
    exact absurd hread (by simp)
  · intro h
    obtain ⟨hle, hle'⟩ := lenencAt_le hpos
    exact ⟨_, _, readLenencInt_eq hsize h, hle, hle'⟩

/-! ### Strings -/

theorem nullStrAt_of_lt (h : pos < data.length) :
    nullStrAt data pos =
      if data[pos] = 0x00 then [] else data[pos] :: nullStrAt data (pos + 1) := by
  rw [nullStrAt, List.drop_eq_getElem_cons h, List.takeWhile_cons]
  split_ifs with hne hzero hzero
  · exact absurd hzero (of_decide_eq_true hne)
  · rfl
  · rfl
  · exact absurd (decide_eq_true hzero) hne

theorem readNullLoop_eq (hpos : pos ≤ data.length) (s : Bytes) :
    readNullLoop data s pos =
      some (s ++ nullStrAt data pos, pos + (nullStrAt data pos).length) := by
  induction hn : data.length - pos generalizing pos s with
  | zero =>
    have hnil : nullStrAt data pos = [] := by
      rw [nullStrAt, List.drop_eq_nil_of_le (by omega)]
      rfl
    rw [readNullLoop, if_neg (by omega), hnil, List.append_nil]
    rfl
  | succ n ih =>
    have hlt : pos < data.length := by omega
    rw [readNullLoop, if_pos hlt, List.getElem?_eq_getElem hlt, nullStrAt_of_lt hlt]
    simp only [Option.bind_eq_bind, Option.bind_some]
    split_ifs with hzero
    · rw [List.append_nil]
      rfl
    · rw [ih (by omega) _ (by omega), List.append_assoc, List.length_cons]
      exact congrArg some (congrArg₂ Prod.mk rfl (by omega))

theorem length_nullStrAt_le (hpos : pos ≤ data.length) :
    pos + (nullStrAt data pos).length ≤ data.length := by
  have : (nullStrAt data pos).length ≤ (data.drop pos).length :=
    (List.takeWhile_prefix _).length_le
  rw [List.length_drop] at this
  omega

theorem readNullStr_eq (hsize : data.length < 2 ^ 64) (hpos : pos ≤ data.length) :
    readNullStr data pos = some (nullStrAt data pos, afterNull data pos) := by
  have hle := length_nullStrAt_le hpos
  rw [readNullStr, readNullLoop_eq hpos, List.nil_append]
  simp only [Option.bind_eq_bind, Option.bind_some]
  refine congrArg some (congrArg₂ Prod.mk rfl ?_)
  rw [afterNull]
  split_ifs with hlt
  · rw [sizeT_of_lt (by omega), min_eq_left (by omega)]
  · rw [min_eq_right (by omega)]
    omega

theorem afterNull_le (hpos : pos ≤ data.length) :
    pos + (nullStrAt data pos).length ≤ afterNull data pos ∧ afterNull data pos ≤ data.length :=
  ⟨le_min (Nat.le_succ _) (length_nullStrAt_le hpos), min_le_right _ _⟩

theorem inBounds_readNullStr (hsize : data.length < 2 ^ 64) (hpos : pos ≤ data.length) :
    InBounds data pos (readNullStr data pos) := by
  obtain ⟨hle, hle'⟩ := afterNull_le hpos
  exact ⟨_, _, readNullStr_eq hsize hpos, by omega, hle'⟩

theorem slice_eq {first last : ℕ} (h : first ≤ last ∧ last ≤ data.length) :
    slice data first last = some ((data.drop first).take (last - first)) := if_pos h

theorem inBounds_readLenencStr_iff (hsize : data.length < 2 ^ 64) (hpos : pos ≤ data.length) :
    InBounds data pos (readLenencStr data pos) ↔ PrefixFits data pos ∧ LengthFits data pos := by
  obtain ⟨hle, hle'⟩ := lenencAt_le hpos
  by_cases hlead : PrefixFits data pos
  · rw [readLenencStr, readLenencInt_eq hsize hlead, LengthFits, and_iff_right hlead]
    simp only [Option.bind_eq_bind, Option.bind_some]
    by_cases hfits : (lenencAt data pos).2 + (lenencAt data pos).1 < 2 ^ 64
    · rw [sizeT_of_lt hfits, iff_true_right hfits]
      split_ifs with hcut
      · exact ⟨_, _, rfl, hle, hle'⟩
      · rw [slice_eq ⟨Nat.le_add_right _ _, by omega⟩]
        exact ⟨_, _, rfl, by omega, by omega⟩
    · -- the sum wraps: it passes the check, and the string is not inside the buffer
      have hcheck := sizeT_lt_of_le (lenencAt_lt data pos) (by omega) (Nat.le_of_not_lt hfits)
      rw [if_neg (by omega), slice, if_neg (by omega), iff_false_right hfits]
      rintro ⟨v, pos', hread, -, -⟩
      exact absurd hread (by simp)
  · rw [readLenencStr, readLenencInt_eq_none hsize hlead, iff_false_right fun h => hlead h.1]
    rintro ⟨v, pos', hread, -, -⟩
    exact absurd hread (by simp)

/-! ### Readers, from what is left of the buffer -/

variable {bs rest : Bytes}

theorem drop_add_length (h : data.drop pos = bs ++ rest) :
    data.drop (pos + bs.length) = rest := by
  rw [← List.drop_drop, h, List.drop_left]

theorem drop_add_one {b : UInt8} (h : data.drop pos = b :: rest) :
    data.drop (pos + 1) = rest := by
  have hsplit : data.drop pos = [b] ++ rest := h
  exact drop_add_length hsplit

theorem add_length_le (h : data.drop pos = bs ++ rest) (hbs : bs ≠ []) :
    pos + bs.length ≤ data.length := by
  have hlen := congrArg List.length h
  have hpos := List.length_pos_iff.mpr hbs
  rw [List.length_drop, List.length_append] at hlen
  omega

theorem add_succ_le {b : UInt8} (h : data.drop pos = bs ++ b :: rest) :
    pos + bs.length + 1 ≤ data.length := by
  have hlen := congrArg List.length h
  rw [List.length_drop, List.length_append, List.length_cons] at hlen
  omega

theorem getElem?_of_drop {b : UInt8} (h : data.drop pos = b :: rest) :
    data[pos]? = some b := by
  rw [← Nat.add_zero pos, ← List.getElem?_drop, h]
  rfl

theorem readLe_of_drop (h : data.drop pos = bs ++ rest) (hbs : bs ≠ []) :
    readLe data pos bs.length = some (leValue bs) := by
  rw [readLe_eq (add_length_le h hbs), h, List.take_left]

theorem readNullStr_of_drop {s : Bytes} (hsize : data.length < 2 ^ 64)
    (h : data.drop pos = s ++ 0x00 :: rest) (hs : 0x00 ∉ s) :
    readNullStr data pos = some (s, pos + s.length + 1) := by
  have hend := add_succ_le h
  have hstr : nullStrAt data pos = s := by
    rw [nullStrAt, h, List.takeWhile_append_of_pos fun b hb => ?_]
    · rw [List.takeWhile_cons_of_neg (by decide), List.append_nil]
    · exact decide_eq_true fun hzero => hs (hzero ▸ hb)
  rw [readNullStr_eq hsize (by omega), afterNull, hstr, min_eq_left (by omega)]

/-! ### Length-encoded values, written and read back -/

/-- The bytes a length-encoded number takes. -/
def lenencSize (v : ℕ) : ℕ :=
  if v < 251 then 1 else if v < 65536 then 3 else if v < 16777216 then 4 else 9

theorem writeLenencInt_append (buf : Bytes) (v : ℕ) :
    writeLenencInt buf v = buf ++ writeLenencInt [] v := by
  simp only [writeLenencInt, writeU16Le, writeU24Le]
  split_ifs
  all_goals simp only [List.nil_append, List.append_assoc]

theorem writeLenencStr_append (buf s : Bytes) :
    writeLenencStr buf s = buf ++ writeLenencStr [] s := by
  rw [writeLenencStr, writeLenencStr, writeLenencInt_append, List.append_assoc]

/-- A number below 251 is its own encoding; any other has a first byte that says in how many bytes
the number follows. -/
theorem writeLenencInt_cases {v : ℕ} (hv : v < 2 ^ 64) :
    (v < 251 ∧ writeLenencInt [] v = [UInt8.ofNat v] ∧ lenencSize v = 1) ∨
    ∃ first, 0xFB ≤ first ∧ v < 256 ^ lenencWidth first ∧
      writeLenencInt [] v = first :: (List.range (lenencWidth first)).map (byteAt v) ∧
      lenencSize v = 1 + lenencWidth first := by
  rw [writeLenencInt, lenencSize]
  split_ifs with h₁ h₂ h₃
  · exact .inl ⟨h₁, rfl, rfl⟩
  · exact .inr ⟨0xFC, by decide, h₂, rfl, rfl⟩
  · exact .inr ⟨0xFD, by decide, h₃, rfl, rfl⟩
  · exact .inr ⟨0xFE, by decide, hv, rfl, rfl⟩

theorem length_writeLenencInt (v : ℕ) : (writeLenencInt [] v).length = lenencSize v := by
  rw [writeLenencInt, lenencSize]
  split_ifs <;> rfl

theorem readLenencInt_of_drop {v : ℕ} (hv : v < 2 ^ 64) (hsize : data.length < 2 ^ 64)
    (h : data.drop pos = writeLenencInt [] v ++ rest) :
    readLenencInt data pos = some (v, pos + lenencSize v) := by
  have hlen := length_writeLenencInt v
  obtain ⟨hsmall, hbytes, hone⟩ | ⟨first, hfirst, hlt, hbytes, hwidth⟩ := writeLenencInt_cases hv
  · rw [hbytes] at h
    have hget := getElem?_of_drop h
    have htoNat : (UInt8.ofNat v).toNat = v := by
      rw [UInt8.toNat_ofNat']
      exact Nat.mod_eq_of_lt (by omega)
    have hbelow : UInt8.ofNat v < 0xFB := by
      rw [UInt8.lt_iff_toNat_lt, htoNat]
      exact hsmall
    have hfits : PrefixFits data pos := by
      intro b hb hle
      obtain rfl := Option.some.inj (hget.symm.trans hb)
      exact absurd hbelow (UInt8.not_lt.mpr hle)
    rw [readLenencInt_eq hsize hfits, lenencAt, hget, hone]
    simp only [if_pos hbelow, htoNat]
  · have hend := add_length_le h (List.ne_nil_of_length_pos (by omega))
    rw [hlen, hwidth] at hend
    rw [hbytes] at h
    have hget := getElem?_of_drop h
    have hfits : PrefixFits data pos := by
      intro b hb _
      obtain rfl := Option.some.inj (hget.symm.trans hb)
      omega
    have hbytesLen : ((List.range (lenencWidth first)).map (byteAt v)).length =
        lenencWidth first := by
      rw [List.length_map, List.length_range]
    have htake : (data.drop (pos + 1)).take (lenencWidth first) =
        (List.range (lenencWidth first)).map (byteAt v) := by
      rw [drop_add_one h]
      exact List.take_left' hbytesLen
    rw [readLenencInt_eq hsize hfits, lenencAt, hget]
    simp only [if_neg (UInt8.not_lt.mpr hfirst)]
    rw [if_pos (by omega), htake, leValue_byteAt, Nat.mod_eq_of_lt hlt, hwidth, Nat.add_assoc]

theorem readLenencStr_of_drop {s : Bytes} (hsize : data.length < 2 ^ 64)
    (h : data.drop pos = writeLenencStr [] s ++ rest) :
    readLenencStr data pos = some (s, pos + lenencSize s.length + s.length) := by
  rw [writeLenencStr, List.append_assoc] at h
  have hlen := congrArg List.length h
  rw [List.length_drop, List.length_append, List.length_append, length_writeLenencInt] at hlen
  have hpos : 0 < lenencSize s.length := by
    rw [lenencSize]
    split_ifs <;> decide
  have hend : pos + lenencSize s.length + s.length ≤ data.length := by omega
  have hs : data.drop (pos + lenencSize s.length) = s ++ rest := by
    rw [← length_writeLenencInt]
    exact drop_add_length h
  rw [readLenencStr, readLenencInt_of_drop (by omega) hsize h]
  simp only [Option.bind_eq_bind, Option.bind_some]
  rw [sizeT_of_lt (by omega), if_neg (by omega), slice_eq ⟨Nat.le_add_right _ _, hend⟩, hs,
    Nat.add_sub_cancel_left, List.take_left]
  rfl

/-- **Length-encoded values round trip in context.** Whatever stands before and after it, what was
written is read back, the position moves over the bytes written, and no value begins like a null
value or an error packet. -/
theorem lenenc_round_trip (before after s : Bytes) (v : UInt64) :
    ((writeLenencInt before v.toNat ++ after).length < 2 ^ 64 →
      readLenencInt (writeLenencInt before v.toNat ++ after) before.length =
        some (v.toNat, (writeLenencInt before v.toNat).length)) ∧
    ((writeLenencStr before s ++ after).length < 2 ^ 64 →
      readLenencStr (writeLenencStr before s ++ after) before.length =
        some (s, (writeLenencStr before s).length)) ∧
    (writeLenencInt before v.toNat).length = before.length + lenencSize v.toNat ∧
    (∃ first bs, writeLenencInt before v.toNat = before ++ first :: bs ∧
      first ≠ 0xFB ∧ first ≠ 0xFF) ∧
    ∃ first bs, writeLenencStr before s = before ++ first :: bs ∧ first ≠ 0xFB ∧ first ≠ 0xFF := by
  have hlength : (writeLenencInt before v.toNat).length = before.length + lenencSize v.toNat := by
    rw [writeLenencInt_append, List.length_append, length_writeLenencInt]
  refine ⟨fun hsize => ?_, fun hsize => ?_, hlength, ?_, ?_⟩
  · have hdrop : (writeLenencInt before v.toNat ++ after).drop before.length =
        writeLenencInt [] v.toNat ++ after := by
      rw [writeLenencInt_append, List.append_assoc, List.drop_left]
    rw [readLenencInt_of_drop v.toNat_lt hsize hdrop, hlength]
  · have hdrop : (writeLenencStr before s ++ after).drop before.length =
        writeLenencStr [] s ++ after := by
      rw [writeLenencStr_append, List.append_assoc, List.drop_left]
    rw [readLenencStr_of_drop hsize hdrop, writeLenencStr_append, writeLenencStr,
      List.length_append, List.length_append, length_writeLenencInt, Nat.add_assoc]
  · obtain ⟨first, bs, hbytes, hnull, herr, -⟩ := head?_writeLenencInt v.toNat
    exact ⟨first, bs, by rw [writeLenencInt_append, hbytes], hnull, herr⟩
  · obtain ⟨first, bs, hbytes, hnull, herr, -⟩ := head?_writeLenencInt s.length
    refine ⟨first, bs ++ s, ?_, hnull, herr⟩
    rw [writeLenencStr_append, writeLenencStr, hbytes, List.cons_append]

/-- A number of nine bytes and a string of two, between other bytes. -/
theorem lenenc_round_trip_between :
    readLenencInt (writeLenencInt [9] 0x123456789A ++ [7]) 1 =
      some (0x123456789A, (writeLenencInt [9] 0x123456789A).length) ∧
    readLenencStr (writeLenencStr [9] [0x61, 0x62] ++ [7]) 1 =
      some ([0x61, 0x62], (writeLenencStr [9] [0x61, 0x62]).length) := by
  obtain ⟨hint, hstr, -⟩ := lenenc_round_trip [9] [7] [0x61, 0x62] 0x123456789A
  exact ⟨hint (by decide), hstr (by decide)⟩

end DBMesh.Protocol
