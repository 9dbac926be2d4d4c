import DBMesh.Protocol.HandshakeV10

/-!
# The handshake response, written and read back

`HandshakeResponse41::encode` of `protocol/mysql/src/handshake.cpp`, with which the proxy answers a
backend, against the decoder it uses for its own clients. The encoder always writes the length of
the auth response as one byte. The decoder reads a length-encoded number or one byte, as the flags
say, and up to 250 the two are the same. The database and the plugin name are there only with their
flags, and an empty plugin name is written as `mysql_native_password`.

## Main definitions

* `DBMesh.Protocol.HandshakeResponse41.encode` — the encoder
* `DBMesh.Protocol.HandshakeResponse41.received` — what the other side is told

## Main results

* `DBMesh.Protocol.decode_encode_handshakeResponse` — the round trip
-/

namespace DBMesh.Protocol

namespace HandshakeResponse41

def encode (r : HandshakeResponse41) : Bytes :=
  let buf := writeU32Le [] r.capabilityFlags
  let buf := writeU32Le buf r.maxPacketSize
  let buf := writeU8 buf r.characterSet
  let buf := writeBytes buf (List.replicate 23 0x00)
  let buf := writeNullStr buf r.username
  -- the size is cut to one byte
  let buf := writeU8 buf (UInt8.ofNat r.authResponse.length)
  let buf := writeBytes buf r.authResponse
  let buf := if r.capabilityFlags &&& connectWithDb ≠ 0 then writeNullStr buf r.database else buf
  if r.capabilityFlags &&& pluginAuth ≠ 0 then
    writeNullStr buf (if r.authPlugin = [] then nativePassword else r.authPlugin)
  else buf

/-- The plugin name that is written. -/
def namedPlugin (r : HandshakeResponse41) : Bytes :=
  if r.authPlugin = [] then nativePassword else r.authPlugin

/-- The response without what its flags leave out, and with the plugin name filled in. -/
def received (r : HandshakeResponse41) : HandshakeResponse41 :=
  { r with
    database := if r.capabilityFlags &&& connectWithDb ≠ 0 then r.database else []
    authPlugin := if r.capabilityFlags &&& pluginAuth ≠ 0 then r.namedPlugin else [] }

/-- A string that is written only with its flag. -/
def optionalStr (flags flag : ℕ) (s : Bytes) : Bytes :=
  if flags &&& flag ≠ 0 then s ++ [0x00] else []

/-- What follows the auth response. -/
def databaseAndPlugin (r : HandshakeResponse41) : Bytes :=
  optionalStr r.capabilityFlags connectWithDb r.database ++
    optionalStr r.capabilityFlags pluginAuth r.namedPlugin

/-- What follows the reserved bytes. -/
def afterReserved (r : HandshakeResponse41) : Bytes :=
  r.username ++ 0x00 :: (UInt8.ofNat r.authResponse.length :: (r.authResponse ++
    r.databaseAndPlugin))

theorem encode_eq (r : HandshakeResponse41) : encode r = u32Le r.capabilityFlags ++
    (u32Le r.maxPacketSize ++ r.characterSet :: (List.replicate 23 0x00 ++ r.afterReserved)) := by
  simp only [encode, afterReserved, databaseAndPlugin, optionalStr, namedPlugin, u32Le, writeU8,
    writeNullStr, writeU32Le, writeBytes]
  by_cases hdb : r.capabilityFlags &&& connectWithDb ≠ 0 <;>
    by_cases hplugin : r.capabilityFlags &&& pluginAuth ≠ 0 <;>
      simp [hdb, hplugin]

end HandshakeResponse41

open HandshakeResponse41

/-! ### Readers, from what is left of the payload -/

variable {payload rest : Bytes} {flags pos : ℕ}

theorem toNat_ofNat_length {auth : Bytes} (h : auth.length ≤ 250) :
    (UInt8.ofNat auth.length).toNat = auth.length := by
  rw [UInt8.toNat_ofNat']
  exact Nat.mod_eq_of_lt (by omega)

theorem takeAuth_of_drop {auth : Bytes} (hsize : payload.length < 2 ^ 64)
    (hpos : pos ≤ payload.length) (h : payload.drop pos = auth ++ rest) :
    takeAuth payload pos auth.length = some (.ok (auth, pos + auth.length)) := by
  have hlen := congrArg List.length h
  rw [List.length_drop, List.length_append] at hlen
  rw [takeAuth, sizeT_of_lt (by omega), if_neg (by omega), slice_eq ⟨by omega, by omega⟩, h,
    Nat.add_sub_cancel_left, List.take_left]
  rfl

/-- Both ways of reading the length see the byte that was written. -/
theorem readAuth_of_drop {auth : Bytes} (hsize : payload.length < 2 ^ 64)
    (h : payload.drop pos = UInt8.ofNat auth.length :: (auth ++ rest)) (hauth : auth.length ≤ 250)
    (hway : flags &&& secureConnection ≠ 0 ∨ flags &&& pluginAuthLenenc ≠ 0) :
    readAuth payload flags pos = some (.ok (auth, pos + 1 + auth.length)) := by
  have hget := getElem?_of_drop h
  have hlt : pos < payload.length := (List.getElem?_eq_some_iff.mp hget).1
  have hlen := toNat_ofNat_length hauth
  have htake : takeAuth payload (pos + 1) auth.length =
      some (.ok (auth, pos + 1 + auth.length)) := takeAuth_of_drop hsize hlt (drop_add_one h)
  rw [readAuth]
  by_cases hlenenc : flags &&& pluginAuthLenenc ≠ 0
  · -- a number up to 250 is its own encoding
    have hsmall : auth.length < 251 := Nat.lt_succ_of_le hauth
    have hbyte : writeLenencInt [] auth.length = [UInt8.ofNat auth.length] := if_pos hsmall
    have hone : lenencSize auth.length = 1 := if_pos hsmall
    have hread : readLenencInt payload pos = some (auth.length, pos + 1) := by
      rw [← hone]
      exact readLenencInt_of_drop (by omega) hsize (h.trans (by rw [hbyte, List.singleton_append]))
    rw [if_pos hlenenc, hread]
    exact htake
  · rw [if_neg hlenenc, if_pos (hway.resolve_right hlenenc), if_neg (by omega), hget,
      sizeT_of_lt (by omega)]
    simp only [Option.bind_eq_bind, Option.bind_some]
    rw [hlen]
    exact htake

theorem readOptional_of_drop {flag : ℕ} {s : Bytes} (hsize : payload.length < 2 ^ 64)
    (h : payload.drop pos = optionalStr flags flag s ++ rest) (hs : 0x00 ∉ s) :
    readOptional payload flags flag pos =
      some (if flags &&& flag ≠ 0 then s else [], pos + (optionalStr flags flag s).length) := by
  rw [readOptional, optionalStr] at *
  by_cases hflag : flags &&& flag ≠ 0
  · simp only [if_pos hflag] at h ⊢
    rw [List.append_assoc, List.singleton_append] at h
    have hend := add_succ_le h
    rw [if_pos ⟨hflag, by omega⟩, readNullStr_of_drop hsize h hs, List.length_append]
    rfl
  · rw [if_neg hflag, if_neg fun hc => hflag hc.1, if_neg hflag]
    rfl

/-! ### The round trip -/

/-- What the decoder reads from the username on. -/
theorem readAfterReserved (r : HandshakeResponse41) (hsize : payload.length < 2 ^ 64)
    (h : payload.drop 32 = r.afterReserved) (husername : 0x00 ∉ r.username)
    (hdatabase : 0x00 ∉ r.database) (hplugin : 0x00 ∉ r.namedPlugin)
    (hauth : r.authResponse.length ≤ 250)
    (hway : r.capabilityFlags &&& secureConnection ≠ 0 ∨
      r.capabilityFlags &&& pluginAuthLenenc ≠ 0) :
    ∃ pos₁ pos₂ pos₃ pos₄, readNullStr payload 32 = some (r.username, pos₁) ∧
      readAuth payload r.capabilityFlags pos₁ = some (.ok (r.authResponse, pos₂)) ∧
      readOptional payload r.capabilityFlags connectWithDb pos₂ =
        some (r.received.database, pos₃) ∧
      readOptional payload r.capabilityFlags pluginAuth pos₃ =
        some (r.received.authPlugin, pos₄) := by
  have h₁ := drop_add_one (drop_add_length h)
  have h₂ := drop_add_length (drop_add_one h₁)
  have h₃ := drop_add_length h₂
  rw [← List.append_nil (optionalStr r.capabilityFlags pluginAuth r.namedPlugin)] at h₃
  exact ⟨_, _, _, _, readNullStr_of_drop hsize h husername, readAuth_of_drop hsize h₁ hauth hway,
    readOptional_of_drop hsize h₂ hdatabase, readOptional_of_drop hsize h₃ hplugin⟩

/-- What the decoder reads up to the reserved bytes. -/
theorem readFixed (r : HandshakeResponse41) (hpay : encode r = payload)
    (hflags : r.capabilityFlags < 2 ^ 32) (hmax : r.maxPacketSize < 2 ^ 32) :
    readLe payload 0 4 = some r.capabilityFlags ∧ readLe payload 4 4 = some r.maxPacketSize ∧
      payload[8]? = some r.characterSet ∧ payload.drop 32 = r.afterReserved := by
  have h₀ : payload.drop 0 = _ := hpay.symm.trans r.encode_eq
  have h₁ : payload.drop 4 = _ := drop_add_length h₀
  have h₂ : payload.drop 8 = _ := drop_add_length h₁
  have h₃ : payload.drop 9 = _ := drop_add_one h₂
  refine ⟨?_, ?_, getElem?_of_drop h₂, ?_⟩
  · rw [← leValue_u32Le hflags]
    exact readLe_of_drop h₀ (List.cons_ne_nil _ _)
  · rw [← leValue_u32Le hmax]
    exact readLe_of_drop h₁ (List.cons_ne_nil _ _)
  · exact drop_add_length h₃

theorem not_mem_namedPlugin {r : HandshakeResponse41} (h : 0x00 ∉ r.authPlugin) :
    0x00 ∉ r.namedPlugin := by
  rw [namedPlugin]
  split_ifs
  · decide +kernel
  · exact h

/-- **Round trip.** A response whose strings hold no zero byte and whose auth response has at most
250 bytes is decoded, with either flag that announces the length of the auth response, to itself
without what its flags leave out. The first two bounds are those of the fields' type, the third is
that of the size of a payload. -/
theorem decode_encode_handshakeResponse (r : HandshakeResponse41)
    (hflags : r.capabilityFlags < 2 ^ 32) (hmax : r.maxPacketSize < 2 ^ 32)
    (hsize : (encode r).length < 2 ^ 64) (husername : 0x00 ∉ r.username)
    (hdatabase : 0x00 ∉ r.database) (hplugin : 0x00 ∉ r.authPlugin)
    (hauth : r.authResponse.length ≤ 250)
    (hway : r.capabilityFlags &&& secureConnection ≠ 0 ∨
      r.capabilityFlags &&& pluginAuthLenenc ≠ 0) :
    decode (encode r) = some (.ok
      { r with
        database := if r.capabilityFlags &&& connectWithDb ≠ 0 then r.database else []
        authPlugin := if r.capabilityFlags &&& pluginAuth ≠ 0 then
          (if r.authPlugin = [] then nativePassword else r.authPlugin) else [] }) := by
  generalize hpay : encode r = payload at hsize
  obtain ⟨hf, hm, hset, hdrop⟩ := readFixed r hpay hflags hmax
  have hlen : 32 < payload.length := by
    have := congrArg List.length hdrop
    rw [List.length_drop, afterReserved, List.length_append, List.length_cons] at this
    omega
  obtain ⟨pos₁, pos₂, pos₃, pos₄, huser, hresp, hdb, hplug⟩ :=
    readAfterReserved r hsize hdrop husername hdatabase (not_mem_namedPlugin hplugin) hauth hway
  rw [decode, if_neg (by omega), hf, hm, hset]
  simp only [Option.bind_eq_bind, Option.bind_some]
  rw [if_neg (by omega), huser]
  simp only [Option.bind_some]
  rw [hresp]
  simp only [Option.bind_some]
  rw [hdb]
  simp only [Option.bind_some]
  rw [hplug]
  rfl

/-- A response without a database and without a plugin name. -/
def helloBackend : HandshakeResponse41 :=
  ⟨secureConnection ||| pluginAuth, 0x01000000, 0x2D, "root".toUTF8.toList,
    List.replicate 20 0x07, [], []⟩

theorem decode_encode_helloBackend : decode (encode helloBackend) = some (.ok
    { helloBackend with authPlugin := nativePassword }) :=
  decode_encode_handshakeResponse helloBackend (by decide) (by decide) (by decide +kernel)
    (by decide +kernel) (by decide) (by decide) (by decide) (by decide)

end DBMesh.Protocol
