import DBMesh.Protocol.HandshakeV10

/-!
# Reading a handshake of any shape

`HandshakeV10::decode` moves its position past the filler, the reserved bytes and the rest of the
challenge without a look at the size of the payload, and may stand beyond the end. The decoder is
written down here once more with each access on its own: a byte of the payload is asked for by its
index, and a byte of the challenge is stored by its index, and either has no result outside the
array. The loop over part 1 has no test of its own, the one over part 2 has one in every round.

A vector of bytes has fewer than `2 ^ 63` of them, so a position beyond the end does not wrap.

## Main definitions

* `DBMesh.Protocol.storeAuth` — a write to the challenge
* `DBMesh.Protocol.decodeChecked` — the decoder; `none` where an access is outside an array

## Main results

* `DBMesh.Protocol.decodeChecked_eq` — no access is outside
-/

namespace DBMesh.Protocol

/-- `auth_data[i] = b` -/
def storeAuth (authData : Digest) (i : ℕ) (b : UInt8) : Option Digest :=
  if h : i < 20 then some (authData.set i b h) else none

/-- `for (i = 0; i < n; ++i) auth_data[first + i] = payload[pos++];` -/
def copyPart1 (payload : Bytes) : (n first pos : ℕ) → Digest → Option (Digest × ℕ)
  | 0, _, pos, authData => some (authData, pos)
  | n + 1, first, pos, authData => do
    let b ← payload[pos]?
    let authData ← storeAuth authData first b
    copyPart1 payload n (first + 1) (sizeT (pos + 1)) authData

/-- `for (i = 0; i < n && pos < payload.size(); ++i) auth_data[first + i] = payload[pos++];` -/
def copyPart2 (payload : Bytes) : (n first pos : ℕ) → Digest → Option (Digest × ℕ)
  | 0, _, pos, authData => some (authData, pos)
  | n + 1, first, pos, authData =>
    if pos < payload.length then do
      let b ← payload[pos]?
      let authData ← storeAuth authData first b
      copyPart2 payload n (first + 1) (sizeT (pos + 1)) authData
    else some (authData, pos)

def readMiddleChecked (payload : Bytes) (pos : ℕ) : Option Middle :=
  if pos < payload.length then do
    let characterSet ← payload[pos]?
    let status ← readU16IfThere payload (sizeT (pos + 1)) 0x0002
    let capHigh ← readU16IfThere payload status.2 0
    if capHigh.2 < payload.length then do
      let authDataLen ← payload[capHigh.2]?
      some ⟨characterSet, status.1, capHigh.1, authDataLen.toNat,
        sizeT (sizeT (capHigh.2 + 1) + 10)⟩
    else some ⟨characterSet, status.1, capHigh.1, 0, sizeT (capHigh.2 + 10)⟩
  else some ⟨0x2D, 0x0002, 0, 0, pos⟩

def readPart2Checked (payload : Bytes) (flags authDataLen pos : ℕ) (authData : Digest) :
    Option (Digest × ℕ) :=
  if flags &&& secureConnection ≠ 0 ∧ pos < payload.length then do
    let part2 := max 13 (authDataLen - 8)
    let salt2 := min 12 (part2 - 1)
    let r ← copyPart2 payload salt2 8 pos authData
    some (r.1, sizeT (r.2 + (part2 - salt2)))
  else some (authData, pos)

def decodeChecked (payload : Bytes) : Option (Except String HandshakeV10) :=
  if payload.head? ≠ some 0x0A then some (.error "not a HandshakeV10 packet")
  else do
    let version ← readNullStr payload 1
    let pos := version.2
    if payload.length < sizeT (pos + 4) then some (.error "truncated handshake")
    else do
      let connectionId ← readLe payload pos 4
      let pos := sizeT (pos + 4)
      if payload.length < sizeT (pos + 8) then some (.error "truncated auth data 1")
      else do
        let part1 ← copyPart1 payload 8 0 pos (Vector.replicate 20 0)
        let pos := sizeT (part1.2 + 1)
        if payload.length < sizeT (pos + 2) then some (.error "truncated caps low")
        else do
          let capLow ← readLe payload pos 2
          let middle ← readMiddleChecked payload (sizeT (pos + 2))
          let flags := capLow ||| middle.capHigh <<< 16
          let part2 ← readPart2Checked payload flags middle.authDataLen middle.pos part1.1
          let plugin ←
            if flags &&& pluginAuth ≠ 0 ∧ part2.2 < payload.length then
              readNullStr payload part2.2
            else some (nativePassword, part2.2)
          some (.ok ⟨version.1, UInt32.ofNat connectionId, part2.1, UInt32.ofNat flags,
            middle.characterSet, UInt16.ofNat middle.statusFlags, plugin.1⟩)

/-! ### The loops -/

variable {payload : Bytes} {pos : ℕ}

theorem storeAuth_eq {i : ℕ} (h : i < 20) (authData : Digest) (b : UInt8) :
    storeAuth authData i b = some (authData.setIfInBounds i b) := by
  rw [storeAuth, dif_pos h]
  refine congrArg some (Vector.ext fun j hj => ?_)
  rw [Vector.getElem_set, Vector.getElem_setIfInBounds]

/-- The check before the loop covers all of its rounds. -/
theorem copyPart1_eq (hsize : payload.length < 2 ^ 64) {n first pos : ℕ} (authData : Digest)
    (hpos : pos + n ≤ payload.length) (hfirst : first + n ≤ 20) :
    copyPart1 payload n first pos authData = some (copyLoop payload n first pos authData) ∧
      (copyLoop payload n first pos authData).2 = pos + n := by
  induction n generalizing first pos authData with
  | zero => exact ⟨rfl, rfl⟩
  | succ n ih =>
    have hlt : pos < payload.length := by omega
    have hpos' : pos + 1 + n ≤ payload.length := by omega
    have hfirst' : first + 1 + n ≤ 20 := by omega
    obtain ⟨hcopy, hend⟩ := ih (authData.setIfInBounds first payload[pos]) hpos' hfirst'
    rw [copyPart1, copyLoop, List.getElem?_eq_getElem hlt, sizeT_of_lt (by omega)]
    simp only [Option.bind_eq_bind, Option.bind_some]
    rw [storeAuth_eq (by omega)]
    exact ⟨hcopy, by omega⟩

theorem copyPart2_eq (payload : Bytes) {n first pos : ℕ} (authData : Digest)
    (hfirst : first + n ≤ 20) :
    copyPart2 payload n first pos authData = some (copyLoop payload n first pos authData) := by
  induction n generalizing first pos authData with
  | zero => rfl
  | succ n ih =>
    rw [copyPart2, copyLoop]
    by_cases hlt : pos < payload.length
    · rw [if_pos hlt, List.getElem?_eq_getElem hlt]
      simp only [Option.bind_eq_bind, Option.bind_some]
      rw [storeAuth_eq (by omega)]
      exact ih _ (by omega)
    · rw [if_neg hlt, List.getElem?_eq_none (by omega)]

/-- Twelve bytes at most are stored, from index 8 on. -/
theorem readPart2Checked_eq (payload : Bytes) (flags authDataLen pos : ℕ) (authData : Digest) :
    readPart2Checked payload flags authDataLen pos authData =
      some (readPart2 payload flags authDataLen pos authData) := by
  rw [readPart2Checked, readPart2]
  split_ifs
  · dsimp only
    rw [copyPart2_eq payload authData (by omega)]
    rfl
  · rfl

/-! ### The fields in between -/

theorem readMiddleChecked_eq (payload : Bytes) (pos : ℕ) :
    readMiddleChecked payload pos = readMiddle payload pos := by
  rw [readMiddleChecked, readMiddle]
  refine ite_congr rfl (fun _ => ?_) fun _ => rfl
  refine congrArg _ (funext fun characterSet => congrArg _ (funext fun status => ?_))
  refine congrArg _ (funext fun capHigh => ?_)
  by_cases hlt : capHigh.2 < payload.length
  · rw [if_pos hlt, if_pos hlt, List.getElem?_eq_getElem hlt]
    rfl
  · rw [if_neg hlt, if_neg hlt, List.getElem?_eq_none (by omega)]
    rfl

theorem readU16IfThere_isSome (hsize : payload.length < 2 ^ 63) (hpos : pos ≤ payload.length)
    (absent : ℕ) : ∃ v pos', readU16IfThere payload pos absent = some (v, pos') ∧
      pos' ≤ payload.length := by
  rw [readU16IfThere, sizeT_of_lt (by omega)]
  split_ifs with hle
  · rw [readLe_eq hle]
    exact ⟨_, _, rfl, hle⟩
  · exact ⟨_, _, rfl, hpos⟩

theorem readMiddle_isSome (hsize : payload.length < 2 ^ 63) (pos : ℕ) :
    ∃ middle, readMiddle payload pos = some middle := by
  rw [readMiddle]
  split_ifs with hlt
  · obtain ⟨status, pos₁, hstatus, hpos₁⟩ :=
      readU16IfThere_isSome hsize (Nat.succ_le_of_lt hlt) 0x0002
    obtain ⟨capHigh, pos₂, hcapHigh, -⟩ := readU16IfThere_isSome hsize hpos₁ 0
    rw [List.getElem?_eq_getElem hlt, sizeT_of_lt (by omega)]
    simp only [Option.bind_eq_bind, Option.bind_some]
    rw [hstatus]
    simp only [Option.bind_some]
    rw [hcapHigh]
    exact ⟨_, rfl⟩
  · exact ⟨_, rfl⟩

/-! ### The decoder -/

/-- **Every access is inside.** Whatever the payload, each byte that the decoder asks for is there
and each byte of the challenge that it stores has a place, and it comes to an answer. -/
theorem decodeChecked_eq (hsize : payload.length < 2 ^ 63) :
    ∃ r, decodeChecked payload = some r ∧ HandshakeV10.decode payload = some r := by
  rw [decodeChecked, HandshakeV10.decode]
  by_cases hhead : payload.head? ≠ some 0x0A
  · rw [if_pos hhead, if_pos hhead]
    exact ⟨_, rfl, rfl⟩
  have hone : 1 ≤ payload.length := by
    rw [not_not] at hhead
    exact List.length_pos_iff.mpr fun hnil => absurd (hnil ▸ hhead) (by simp)
  have hle := (afterNull_le hone).2
  rw [if_neg hhead, if_neg hhead, readNullStr_eq (by omega) hone]
  simp only [Option.bind_eq_bind, Option.bind_some]
  generalize afterNull payload 1 = pos at hle
  rw [sizeT_of_lt (by omega : pos + 4 < 2 ^ 64)]
  by_cases hid : payload.length < pos + 4
  · rw [if_pos hid, if_pos hid]
    exact ⟨_, rfl, rfl⟩
  rw [if_neg hid, if_neg hid, readLe_eq (by omega), sizeT_of_lt (by omega : pos + 4 + 8 < 2 ^ 64)]
  simp only [Option.bind_some]
  by_cases hpart1 : payload.length < pos + 4 + 8
  · rw [if_pos hpart1, if_pos hpart1]
    exact ⟨_, rfl, rfl⟩
  obtain ⟨hcopy, hend⟩ := copyPart1_eq (by omega) (Vector.replicate 20 0)
    (Nat.le_of_not_lt hpart1) (Nat.le_add_left 8 12)
  rw [if_neg hpart1, if_neg hpart1, hcopy]
  simp only [Option.bind_some]
  rw [hend, sizeT_of_lt (by omega : pos + 4 + 8 + 1 < 2 ^ 64),
    sizeT_of_lt (by omega : pos + 4 + 8 + 1 + 2 < 2 ^ 64)]
  by_cases hlow : payload.length < pos + 4 + 8 + 1 + 2
  · rw [if_pos hlow, if_pos hlow]
    exact ⟨_, rfl, rfl⟩
  obtain ⟨middle, hmiddle⟩ := readMiddle_isSome hsize (pos + 4 + 8 + 1 + 2)
  rw [if_neg hlow, if_neg hlow, readLe_eq (by omega), readMiddleChecked_eq, hmiddle]
  simp only [Option.bind_some, readPart2Checked_eq]
  -- the position may be anywhere by now; the string is read only if it is in the payload
  split_ifs with hplugin
  · rw [readNullStr_eq (by omega) hplugin.2.le]
    exact ⟨_, rfl, rfl⟩
  · exact ⟨_, rfl, rfl⟩

/-- **Parsing a handshake is total and in bounds.** Every payload is decoded without an access
outside it or outside the challenge. A complete handshake gives part 1 followed by the first twelve
bytes of part 2 for the challenge, and the string behind part 2 for the plugin name, whatever length
it advertises. The bound is that of the size of a vector. -/
theorem handshakeV10_inBounds (payload : Bytes) (hsize : payload.length < 2 ^ 63) :
    (∃ r, decodeChecked payload = some r ∧ HandshakeV10.decode payload = some r) ∧
    ∀ g : Greeting, g.bytes = payload → ∃ hs, HandshakeV10.decode payload = some (.ok hs) ∧
      hs.authData.toList = g.part1 ++ g.part2.take 12 ∧
      hs.authPluginName = g.tail.takeWhile (· ≠ 0x00) := by
  refine ⟨decodeChecked_eq hsize, ?_⟩
  rintro g rfl
  exact ⟨g.handshake, g.decode_bytes (by omega), g.toList_salt, rfl⟩

/-- A handshake that advertises 255 bytes of challenge and has them. -/
def longGreeting : Greeting where
  serverVersion := [0x38]
  connectionId := 7
  part1 := List.replicate 8 0x01
  filler := 0x00
  capabilityFlags := serverFlags
  characterSet := 0x2D
  statusFlags := 2
  authDataLen := 0xFF
  reserved := List.replicate 10 0x00
  part2 := List.replicate 247 0x02
  tail := [0x78, 0x79]
  zero_notMem_serverVersion := by decide
  length_part1 := List.length_replicate
  length_reserved := length_reservedZeros
  length_part2 := by decide +kernel
  tail_ne_nil := List.cons_ne_nil _ _
  secure := by decide
  plugin := by decide

theorem handshakeV10_inBounds_longGreeting :
    (decodeChecked (longGreeting.bytes.take 40)).isSome ∧
    ∃ hs, HandshakeV10.decode longGreeting.bytes = some (.ok hs) ∧
      hs.authData.toList = List.replicate 8 0x01 ++ List.replicate 12 0x02 ∧
      hs.authPluginName = [0x78, 0x79] := by
  constructor
  · obtain ⟨⟨r, hr, -⟩, -⟩ :=
      handshakeV10_inBounds (longGreeting.bytes.take 40) (by decide +kernel)
    exact Option.isSome_iff_exists.mpr ⟨r, hr⟩
  · exact (handshakeV10_inBounds longGreeting.bytes (by decide +kernel)).2 longGreeting rfl

end DBMesh.Protocol
