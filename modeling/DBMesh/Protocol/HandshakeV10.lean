import DBMesh.Protocol.Handshake
import DBMesh.Protocol.NativePassword

/-!
# The initial handshake

`HandshakeV10::encode` and `HandshakeV10::decode` of `protocol/mysql/src/handshake.cpp`: the packet
a server greets its client with, and how a client takes it apart. The challenge of twenty bytes and
the capability flags of four are each written in two parts, with other fields in between, and the
decoder finds the end of the second part of the challenge from a length that the packet advertises.

A reader is told where it stands by what is left of the payload there, `payload.drop pos`; each one
takes its field off and leaves the rest.

## Main definitions

* `DBMesh.Protocol.HandshakeV10.encode`, `HandshakeV10.decode` — the two functions
* `DBMesh.Protocol.copyLoop` — the loops that fill in the challenge

## Main results

* `DBMesh.Protocol.decode_encode_handshakeV10` — the round trip
-/

namespace DBMesh.Protocol

/-- `caps::SERVER_FLAGS` -/
def serverFlags : UInt32 := 0x000FA20F

/-- `"mysql_native_password"` -/
def nativePassword : Bytes := "mysql_native_password".toUTF8.toList

structure HandshakeV10 where
  serverVersion : Bytes := "8.0.30-dbmesh".toUTF8.toList
  connectionId : UInt32 := 0
  authData : Digest := Vector.replicate 20 0
  capabilityFlags : UInt32 := serverFlags
  characterSet : UInt8 := 0x2D
  statusFlags : UInt16 := 0x0002
  authPluginName : Bytes := nativePassword
  deriving DecidableEq, Repr

namespace HandshakeV10

def encode (hs : HandshakeV10) : Bytes :=
  let buf := writeU8 [] 0x0A
  let buf := writeNullStr buf hs.serverVersion
  let buf := writeU32Le buf hs.connectionId.toNat
  let buf := writeBytes buf (hs.authData.toList.take 8)
  let buf := writeU8 buf 0x00
  let buf := writeU16Le buf (hs.capabilityFlags.toNat &&& 0xFFFF)
  let buf := writeU8 buf hs.characterSet
  let buf := writeU16Le buf hs.statusFlags.toNat
  let buf := writeU16Le buf ((hs.capabilityFlags.toNat >>> 16) &&& 0xFFFF)
  let buf := writeU8 buf 21
  let buf := writeBytes buf (List.replicate 10 0x00)
  let buf := writeBytes buf ((hs.authData.toList.drop 8).take 12)
  let buf := writeU8 buf 0x00
  writeNullStr buf hs.authPluginName

end HandshakeV10

/-- `for (i = 0; i < n && pos < payload.size(); ++i) auth_data[first + i] = payload[pos++];` -/
def copyLoop (payload : Bytes) : (n first pos : ℕ) → Digest → Digest × ℕ
  | 0, _, pos, authData => (authData, pos)
  | n + 1, first, pos, authData =>
    match payload[pos]? with
    | none => (authData, pos)
    | some b => copyLoop payload n (first + 1) (sizeT (pos + 1)) (authData.setIfInBounds first b)

/-- The fields between the two parts of the capability flags and after them, as far as the packet
has them, with the position after the reserved bytes. -/
structure Middle where
  characterSet : UInt8
  statusFlags : ℕ
  capHigh : ℕ
  authDataLen : ℕ
  pos : ℕ

/-- A field of two bytes that is read only if it is there. -/
def readU16IfThere (payload : Bytes) (pos absent : ℕ) : Option (ℕ × ℕ) :=
  if sizeT (pos + 2) ≤ payload.length then do
    let v ← readLe payload pos 2
    some (v, sizeT (pos + 2))
  else some (absent, pos)

def readMiddle (payload : Bytes) (pos : ℕ) : Option Middle :=
  if pos < payload.length then do
    let characterSet ← payload[pos]?
    let status ← readU16IfThere payload (sizeT (pos + 1)) 0x0002
    let capHigh ← readU16IfThere payload status.2 0
    let authDataLen := payload[capHigh.2]?
    let pos := if capHigh.2 < payload.length then sizeT (capHigh.2 + 1) else capHigh.2
    some ⟨characterSet, status.1, capHigh.1, (authDataLen.map (·.toNat)).getD 0, sizeT (pos + 10)⟩
  else some ⟨0x2D, 0x0002, 0, 0, pos⟩

/-- The second part of the challenge: at least thirteen bytes with the zero that ends them, of which
twelve are copied. -/
def readPart2 (payload : Bytes) (flags authDataLen pos : ℕ) (authData : Digest) : Digest × ℕ :=
  if flags &&& secureConnection ≠ 0 ∧ pos < payload.length then
    let part2 := max 13 (authDataLen - 8)
    let salt2 := min 12 (part2 - 1)
    let r := copyLoop payload salt2 8 pos authData
    (r.1, sizeT (r.2 + (part2 - salt2)))
  else (authData, pos)

def HandshakeV10.decode (payload : Bytes) : Option (Except String HandshakeV10) :=
  if payload.head? ≠ some 0x0A then some (.error "not a HandshakeV10 packet")
  else do
    let version ← readNullStr payload 1
    let pos := version.2
    if payload.length < sizeT (pos + 4) then some (.error "truncated handshake")
    else do
      let connectionId ← readLe payload pos 4
      let pos := sizeT (pos + 4)
      if payload.length < sizeT (pos + 8) then some (.error "truncated auth data 1")
      else
        let part1 := copyLoop payload 8 0 pos (Vector.replicate 20 0)
        let pos := sizeT (part1.2 + 1)
        if payload.length < sizeT (pos + 2) then some (.error "truncated caps low")
        else do
          let capLow ← readLe payload pos 2
          let middle ← readMiddle payload (sizeT (pos + 2))
          let flags := capLow ||| middle.capHigh <<< 16
          let part2 := readPart2 payload flags middle.authDataLen middle.pos part1.1
          let plugin ←
            if flags &&& pluginAuth ≠ 0 ∧ part2.2 < payload.length then
              readNullStr payload part2.2
            else some (nativePassword, part2.2)
          some (.ok ⟨version.1, UInt32.ofNat connectionId, part2.1, UInt32.ofNat flags,
            middle.characterSet, UInt16.ofNat middle.statusFlags, plugin.1⟩)

/-! ### Readers, from what is left of the payload -/

variable {payload bs rest : Bytes} {pos : ℕ}

theorem take_succ_set {l : Bytes} {i : ℕ} (hi : i < l.length) (b : UInt8) :
    (l.set i b).take (i + 1) = l.take i ++ [b] := by
  have hlen : (l.take i ++ [b]).length = i + 1 := by
    rw [List.length_append, List.length_take_of_le hi.le, List.length_singleton]
  rw [List.set_eq_take_append_cons_drop, if_pos hi, ← List.singleton_append, ← List.append_assoc,
    ← hlen, List.take_left]

/-- The loop copies the bytes that are left into the challenge, from index `first` on. -/
theorem copyLoop_of_drop : ∀ {bs : Bytes} {first pos : ℕ} (authData : Digest),
    payload.length < 2 ^ 64 → payload.drop pos = bs ++ rest → first + bs.length ≤ 20 →
      (copyLoop payload bs.length first pos authData).2 = pos + bs.length ∧
      (copyLoop payload bs.length first pos authData).1.toList =
        authData.toList.take first ++ bs ++ authData.toList.drop (first + bs.length)
  | [], first, pos, authData, _, _, _ => by
    refine ⟨rfl, ?_⟩
    rw [List.append_nil]
    exact (List.take_append_drop ..).symm
  | b :: bs, first, pos, authData, hsize, h, hfirst => by
    have hb : payload[pos]? = some b := getElem?_of_drop h
    have hlt : pos < payload.length := (List.getElem?_eq_some_iff.mp hb).1
    have hnext : payload.drop (pos + 1) = bs ++ rest := drop_add_one h
    rw [List.length_cons] at hfirst
    have hcopy := copyLoop_of_drop (authData.setIfInBounds first b) hsize hnext
      (by omega : first + 1 + bs.length ≤ 20)
    have hstep : copyLoop payload (b :: bs).length first pos authData =
        copyLoop payload bs.length (first + 1) (pos + 1) (authData.setIfInBounds first b) := by
      rw [List.length_cons, copyLoop, hb, sizeT_of_lt (by omega)]
    rw [hstep]
    obtain ⟨hpos, hlist⟩ := hcopy
    refine ⟨by rw [hpos, List.length_cons]; omega, ?_⟩
    have hlt20 : first < authData.toList.length := by
      rw [Vector.length_toList]
      omega
    rw [hlist, Vector.toList_setIfInBounds, take_succ_set hlt20, List.drop_set_of_lt (by omega),
      List.length_cons, List.append_assoc _ [b], List.singleton_append,
      Nat.add_right_comm first 1 bs.length, Nat.add_assoc]

theorem readU16IfThere_of_drop {absent : ℕ} (hsize : payload.length < 2 ^ 64)
    (h : payload.drop pos = bs ++ rest) (hbs : bs.length = 2) :
    readU16IfThere payload pos absent = some (leValue bs, pos + 2) := by
  have hne : bs ≠ [] := List.length_pos_iff.mp (by omega)
  have hle := add_length_le h hne
  have hread := readLe_of_drop h hne
  rw [hbs] at hle hread
  rw [readU16IfThere, sizeT_of_lt (by omega), if_pos hle, hread]
  rfl

theorem readMiddle_of_drop {characterSet authDataLen : UInt8} {status capHigh : Bytes}
    (hsize : payload.length < 2 ^ 64) (hpos : pos + 16 < 2 ^ 64)
    (h : payload.drop pos = characterSet :: (status ++ (capHigh ++ authDataLen :: rest)))
    (hs : status.length = 2) (hc : capHigh.length = 2) :
    readMiddle payload pos =
      some ⟨characterSet, leValue status, leValue capHigh, authDataLen.toNat, pos + 16⟩ := by
  have hset := getElem?_of_drop h
  have hlt : pos < payload.length := (List.getElem?_eq_some_iff.mp hset).1
  have h₁ : payload.drop (pos + 1) = status ++ (capHigh ++ authDataLen :: rest) :=
    drop_add_one h
  have h₂ := drop_add_length h₁
  have h₃ := drop_add_length h₂
  rw [hs] at h₂ h₃
  rw [hc] at h₃
  have hlen := getElem?_of_drop h₃
  have hlt' : pos + 1 + 2 + 2 < payload.length := (List.getElem?_eq_some_iff.mp hlen).1
  rw [readMiddle, if_pos hlt, hset, sizeT_of_lt (by omega)]
  simp only [Option.bind_eq_bind, Option.bind_some]
  rw [readU16IfThere_of_drop hsize h₁ hs]
  simp only [Option.bind_some]
  rw [readU16IfThere_of_drop hsize h₂ hc]
  simp only [Option.bind_some]
  have hnext : sizeT (pos + 1 + 2 + 2 + 1) = pos + 6 := sizeT_of_lt (by omega)
  rw [hlen, if_pos hlt', hnext, sizeT_of_lt (by omega)]
  rfl

theorem readPart2_of_drop {flags authDataLen : ℕ} {part2 : Bytes} (authData : Digest)
    (hsize : payload.length < 2 ^ 64) (hflags : flags &&& secureConnection ≠ 0)
    (h : payload.drop pos = part2 ++ rest) (hpart2 : part2.length = max 13 (authDataLen - 8)) :
    (readPart2 payload flags authDataLen pos authData).2 = pos + part2.length ∧
      (readPart2 payload flags authDataLen pos authData).1.toList =
        authData.toList.take 8 ++ part2.take 12 := by
  have hend := add_length_le h (List.length_pos_iff.mp (by omega))
  have hsalt : (part2.take 12).length = 12 := List.length_take_of_le (by omega)
  have hsplit : payload.drop pos = part2.take 12 ++ (part2.drop 12 ++ rest) := by
    rw [h, ← List.append_assoc, List.take_append_drop]
  obtain ⟨hpos, hlist⟩ := copyLoop_of_drop authData hsize hsplit
    (by omega : 8 + (part2.take 12).length ≤ 20)
  rw [hsalt] at hpos hlist
  have hsalt2 : min 12 (part2.length - 1) = 12 := by omega
  rw [readPart2, if_pos ⟨hflags, by omega⟩, ← hpart2]
  dsimp only
  rw [hsalt2]
  refine ⟨?_, hlist.trans ?_⟩
  · rw [hpos, sizeT_of_lt (by omega)]
    omega
  · rw [List.drop_eq_nil_of_le (by simp), List.append_nil]

/-! ### The round trip -/

def u16Le (v : ℕ) : Bytes := [byteAt v 0, byteAt v 1]

def u32Le (v : ℕ) : Bytes := [byteAt v 0, byteAt v 1, byteAt v 2, byteAt v 3]

theorem leValue_u16Le {v : ℕ} (hv : v < 2 ^ 16) : leValue (u16Le v) = v := by
  rw [show u16Le v = (List.range 2).map (byteAt v) from rfl, leValue_byteAt]
  exact Nat.mod_eq_of_lt hv

theorem leValue_u32Le {v : ℕ} (hv : v < 2 ^ 32) : leValue (u32Le v) = v := by
  rw [show u32Le v = (List.range 4).map (byteAt v) from rfl, leValue_byteAt]
  exact Nat.mod_eq_of_lt hv

/-- The two halves of the capability flags make up the flags. -/
theorem or_shiftLeft_halves {v : ℕ} (hv : v < 2 ^ 32) :
    (v &&& 0xFFFF) ||| ((v >>> 16) &&& 0xFFFF) <<< 16 = v := by
  have hlow : v &&& 0xFFFF = v % 2 ^ 16 := Nat.and_two_pow_sub_one_eq_mod v 16
  have hhigh : (v >>> 16) &&& 0xFFFF = v / 2 ^ 16 := by
    rw [show (0xFFFF : ℕ) = 2 ^ 16 - 1 from rfl, Nat.and_two_pow_sub_one_eq_mod,
      Nat.shiftRight_eq_div_pow]
    omega
  rw [hlow, hhigh, Nat.or_comm, ← Nat.shiftLeft_add_eq_or_of_lt (Nat.mod_lt _ (by decide)),
    Nat.shiftLeft_eq]
  omega

namespace HandshakeV10

variable (hs : HandshakeV10)

def capLow : ℕ := hs.capabilityFlags.toNat &&& 0xFFFF

def capHigh : ℕ := (hs.capabilityFlags.toNat >>> 16) &&& 0xFFFF

/-- What follows the reserved bytes. -/
def saltAndPlugin : Bytes :=
  (hs.authData.toList.drop 8).take 12 ++ (0x00 :: (hs.authPluginName ++ [0x00]))

/-- What follows the first half of the capability flags. -/
def afterCapLow : Bytes :=
  hs.characterSet :: (u16Le hs.statusFlags.toNat ++ (u16Le hs.capHigh ++ 21 ::
    (List.replicate 10 0x00 ++ hs.saltAndPlugin)))

theorem encode_eq : encode hs = 0x0A :: (hs.serverVersion ++ 0x00 :: (u32Le hs.connectionId.toNat ++
    (hs.authData.toList.take 8 ++ 0x00 :: (u16Le hs.capLow ++ hs.afterCapLow)))) := by
  simp [encode, afterCapLow, saltAndPlugin, capLow, capHigh, u16Le, u32Le, writeU8, writeNullStr,
    writeU32Le, writeBytes, writeU16Le]

end HandshakeV10

/-! ### A complete handshake -/

/-- A handshake in which every field is there, with any bytes in the places that the decoder skips
and a second part of the challenge as long as the packet advertises. -/
structure Greeting where
  serverVersion : Bytes
  connectionId : UInt32
  part1 : Bytes
  filler : UInt8
  capabilityFlags : UInt32
  characterSet : UInt8
  statusFlags : UInt16
  authDataLen : UInt8
  reserved : Bytes
  part2 : Bytes
  tail : Bytes
  zero_notMem_serverVersion : 0x00 ∉ serverVersion
  length_part1 : part1.length = 8
  length_reserved : reserved.length = 10
  length_part2 : part2.length = max 13 (authDataLen.toNat - 8)
  tail_ne_nil : tail ≠ []
  secure : capabilityFlags.toNat &&& secureConnection ≠ 0
  plugin : capabilityFlags.toNat &&& pluginAuth ≠ 0

namespace Greeting

variable (g : Greeting)

def capLow : ℕ := g.capabilityFlags.toNat &&& 0xFFFF

def capHigh : ℕ := (g.capabilityFlags.toNat >>> 16) &&& 0xFFFF

theorem capLow_lt : g.capLow < 2 ^ 16 := Nat.lt_succ_of_le Nat.and_le_right

theorem capHigh_lt : g.capHigh < 2 ^ 16 := Nat.lt_succ_of_le Nat.and_le_right

theorem capLow_or_capHigh : g.capLow ||| g.capHigh <<< 16 = g.capabilityFlags.toNat :=
  or_shiftLeft_halves g.capabilityFlags.toNat_lt

/-- What follows the first half of the capability flags. -/
def afterCapLow : Bytes :=
  g.characterSet :: (u16Le g.statusFlags.toNat ++ (u16Le g.capHigh ++ g.authDataLen ::
    (g.reserved ++ (g.part2 ++ g.tail))))

def bytes : Bytes :=
  0x0A :: (g.serverVersion ++ 0x00 :: (u32Le g.connectionId.toNat ++
    (g.part1 ++ g.filler :: (u16Le g.capLow ++ g.afterCapLow))))

/-- Part 1 followed by the first twelve bytes of part 2. -/
def salt : Digest :=
  ⟨(g.part1 ++ g.part2.take 12).toArray, by
    have := g.length_part1
    have := g.length_part2
    simp only [List.size_toArray, List.length_append, List.length_take]
    omega⟩

theorem toList_salt : g.salt.toList = g.part1 ++ g.part2.take 12 := rfl

/-- The handshake that is meant, with the string up to the next zero for the plugin name. -/
def handshake : HandshakeV10 :=
  ⟨g.serverVersion, g.connectionId, g.salt, g.capabilityFlags, g.characterSet, g.statusFlags,
    g.tail.takeWhile (· ≠ 0x00)⟩

/-- What the decoder reads up to the first half of the capability flags. -/
theorem readHead (hsize : g.bytes.length < 2 ^ 64) :
    ∃ pos authData, readNullStr g.bytes 1 = some (g.serverVersion, pos) ∧
      readLe g.bytes pos 4 = some g.connectionId.toNat ∧
      copyLoop g.bytes 8 0 (pos + 4) (Vector.replicate 20 0) = (authData, pos + 12) ∧
      authData.toList.take 8 = g.part1 ∧
      readLe g.bytes (pos + 13) 2 = some g.capLow ∧
      g.bytes.drop (pos + 15) = g.afterCapLow := by
  have h₁ : g.bytes.drop 1 = g.serverVersion ++ 0x00 :: (u32Le g.connectionId.toNat ++
      (g.part1 ++ g.filler :: (u16Le g.capLow ++ g.afterCapLow))) := rfl
  have hver := readNullStr_of_drop hsize h₁ g.zero_notMem_serverVersion
  have h₂ := drop_add_one (drop_add_length h₁)
  generalize 1 + g.serverVersion.length + 1 = pos at hver h₂
  have h₃ : g.bytes.drop (pos + 4) = _ := drop_add_length h₂
  have hlen := g.length_part1
  obtain ⟨hpart1, hauth⟩ := copyLoop_of_drop (Vector.replicate 20 0) hsize h₃
    (by omega : 0 + g.part1.length ≤ 20)
  have h₄ := drop_add_one (drop_add_length h₃)
  rw [hlen] at hpart1 hauth h₄
  refine ⟨pos, _, hver, ?_, Prod.ext rfl hpart1, ?_, ?_, drop_add_length h₄⟩
  · rw [← leValue_u32Le g.connectionId.toNat_lt]
    exact readLe_of_drop h₂ (List.cons_ne_nil _ _)
  · rw [hauth, List.take_zero, List.nil_append, List.take_append_of_le_length hlen.ge,
      List.take_of_length_le hlen.le]
  · rw [← leValue_u16Le g.capLow_lt]
    exact readLe_of_drop h₄ (List.cons_ne_nil _ _)

/-- What the decoder reads from the charset on. -/
theorem readTail {pos : ℕ} (authData : Digest) (hsize : g.bytes.length < 2 ^ 64)
    (h : g.bytes.drop pos = g.afterCapLow) (hauth : authData.toList.take 8 = g.part1) :
    readMiddle g.bytes pos =
        some ⟨g.characterSet, g.statusFlags.toNat, g.capHigh, g.authDataLen.toNat, pos + 16⟩ ∧
      ∃ next, next < g.bytes.length ∧
        readPart2 g.bytes g.capabilityFlags.toNat g.authDataLen.toNat (pos + 16) authData =
          (g.salt, next) ∧
        ∃ last, readNullStr g.bytes next = some (g.tail.takeWhile (· ≠ 0x00), last) := by
  have hsplit : g.bytes.drop pos = (g.characterSet :: (u16Le g.statusFlags.toNat ++
      (u16Le g.capHigh ++ g.authDataLen :: g.reserved))) ++ (g.part2 ++ g.tail) := by
    rw [h, afterCapLow]
    simp
  have hhead : (g.characterSet :: (u16Le g.statusFlags.toNat ++
      (u16Le g.capHigh ++ g.authDataLen :: g.reserved))).length = 16 := by
    simp [u16Le, g.length_reserved]
  have hend := add_length_le hsplit (List.cons_ne_nil _ _)
  have hpart2 := drop_add_length hsplit
  rw [hhead] at hend hpart2
  have htail := drop_add_length hpart2
  have hlt : pos + 16 + g.part2.length < g.bytes.length := by
    have hpos := List.length_pos_iff.mpr g.tail_ne_nil
    rw [← htail, List.length_drop] at hpos
    omega
  refine ⟨?_, pos + 16 + g.part2.length, hlt, ?_, ?_⟩
  · rw [readMiddle_of_drop hsize (by omega) h rfl rfl, leValue_u16Le g.statusFlags.toNat_lt,
      leValue_u16Le g.capHigh_lt]
  · obtain ⟨hpos, hlist⟩ := readPart2_of_drop authData hsize g.secure hpart2 g.length_part2
    refine Prod.ext (Vector.toList_inj.mp ?_) hpos
    rw [hlist, hauth, toList_salt]
  · rw [readNullStr_eq hsize hlt.le, nullStrAt, htail]
    exact ⟨_, rfl⟩

/-- **A complete handshake is decoded to what it means.** -/
theorem decode_bytes (hsize : g.bytes.length < 2 ^ 64) :
    HandshakeV10.decode g.bytes = some (.ok g.handshake) := by
  obtain ⟨pos, authData, hver, hid, hpart1, hauth, hlow, hdrop⟩ := g.readHead hsize
  obtain ⟨hmid, next, hnext, hpart2, last, hplug⟩ := g.readTail authData hsize hdrop hauth
  have hend : pos + 15 < g.bytes.length := by
    have hlt := congrArg List.length hdrop
    rw [List.length_drop, afterCapLow, List.length_cons] at hlt
    omega
  have hhead : g.bytes.head? = some 0x0A := rfl
  rw [HandshakeV10.decode, if_neg (not_not.mpr hhead), hver]
  simp only [Option.bind_eq_bind, Option.bind_some]
  rw [sizeT_of_lt (by omega : pos + 4 < 2 ^ 64), if_neg (by omega), hid]
  simp only [Option.bind_some]
  rw [sizeT_of_lt (by omega : pos + 4 + 8 < 2 ^ 64), if_neg (by omega), hpart1]
  dsimp only
  rw [sizeT_of_lt (by omega : pos + 12 + 1 < 2 ^ 64),
    sizeT_of_lt (by omega : pos + 12 + 1 + 2 < 2 ^ 64), if_neg (by omega), hlow]
  simp only [Option.bind_some]
  rw [hmid]
  simp only [Option.bind_some]
  rw [g.capLow_or_capHigh, hpart2, if_pos ⟨g.plugin, hnext⟩, hplug]
  simp only [Option.bind_some, UInt32.ofNat_toNat, UInt16.ofNat_toNat]
  rfl

end Greeting

open HandshakeV10

theorem length_reservedZeros : (List.replicate 10 (0x00 : UInt8)).length = 10 :=
  List.length_replicate

/-- What the encoder writes is complete, if the flags say so. -/
def HandshakeV10.greeting (hs : HandshakeV10) (hversion : 0x00 ∉ hs.serverVersion)
    (hsecure : hs.capabilityFlags.toNat &&& secureConnection ≠ 0)
    (hplugin : hs.capabilityFlags.toNat &&& pluginAuth ≠ 0) : Greeting where
  serverVersion := hs.serverVersion
  connectionId := hs.connectionId
  part1 := hs.authData.toList.take 8
  filler := 0x00
  capabilityFlags := hs.capabilityFlags
  characterSet := hs.characterSet
  statusFlags := hs.statusFlags
  authDataLen := 21
  reserved := List.replicate 10 0x00
  part2 := (hs.authData.toList.drop 8).take 12 ++ [0x00]
  tail := hs.authPluginName ++ [0x00]
  zero_notMem_serverVersion := hversion
  length_part1 := by simp
  length_reserved := length_reservedZeros
  length_part2 := by simp
  tail_ne_nil := by simp
  secure := hsecure
  plugin := hplugin

/-- **Round trip.** A handshake whose strings hold no zero byte and whose flags announce the second
part of the challenge and the plugin name is decoded to itself, whatever its other fields are. The
bound is that of the size of a payload. -/
theorem decode_encode_handshakeV10 (hs : HandshakeV10) (hsize : (encode hs).length < 2 ^ 64)
    (hversion : 0x00 ∉ hs.serverVersion) (hname : 0x00 ∉ hs.authPluginName)
    (hsecure : hs.capabilityFlags.toNat &&& secureConnection ≠ 0)
    (hplugin : hs.capabilityFlags.toNat &&& pluginAuth ≠ 0) :
    decode (encode hs) = some (.ok hs) := by
  have hpay : (hs.greeting hversion hsecure hplugin).bytes = encode hs := by
    rw [hs.encode_eq, HandshakeV10.afterCapLow, saltAndPlugin]
    simp only [Greeting.bytes, Greeting.afterCapLow, greeting, List.append_assoc,
      List.singleton_append]
    rfl
  have hsalt : (hs.greeting hversion hsecure hplugin).salt = hs.authData := by
    refine Vector.toList_inj.mp ?_
    have hrest : (hs.authData.toList.drop 8).take 12 = hs.authData.toList.drop 8 :=
      List.take_of_length_le (by simp)
    rw [Greeting.toList_salt]
    simp [greeting, hrest]
  have hplug : (hs.authPluginName ++ [0x00]).takeWhile (· ≠ 0x00) = hs.authPluginName := by
    rw [List.takeWhile_append_of_pos fun b hb => ?_]
    · rw [List.takeWhile_cons_of_neg (by decide), List.append_nil]
    · exact decide_eq_true fun hzero => hname (hzero ▸ hb)
  rw [← hpay] at hsize ⊢
  rw [Greeting.decode_bytes _ hsize, Greeting.handshake, hsalt]
  exact congrArg (fun name => some (Except.ok { hs with authPluginName := name })) hplug

/-- The handshake a server sends by default, with a challenge of zeros. -/
theorem decode_encode_handshakeV10_default :
    decode (encode {}) = some (.ok {}) :=
  decode_encode_handshakeV10 {} (by decide +kernel) (by decide +kernel) (by decide +kernel)
    (by decide) (by decide)

end DBMesh.Protocol
