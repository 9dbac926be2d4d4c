import DBMesh.Protocol.PayloadReader

/-!
# The handshake response

`HandshakeResponse41::decode` of `protocol/mysql/src/handshake.cpp`, which takes apart the first
packet of a client that has not been authenticated. The length of the auth response is a number that
the client sends. It is added to the position before it is checked against the size of the packet,
and a sum that wraps passes the check: the bytes from the position up to the wrapped sum are then no
range of the packet at all.

## Main definitions

* `DBMesh.Protocol.HandshakeResponse41.decode` — the decoder; `none` where it leaves the packet
* `DBMesh.Protocol.AuthFits` — no sum of a position and a length wraps

## Main results

* `DBMesh.Protocol.handshake_inBounds_iff` — when the decoder and the readers stay inside the packet
-/

namespace DBMesh.Protocol

structure HandshakeResponse41 where
  capabilityFlags : ℕ
  maxPacketSize : ℕ
  characterSet : UInt8
  username : Bytes
  authResponse : Bytes
  database : Bytes
  authPlugin : Bytes
  deriving DecidableEq, Repr

def connectWithDb : ℕ := 0x00000008

def secureConnection : ℕ := 0x00008000

def pluginAuth : ℕ := 0x00080000

def pluginAuthLenenc : ℕ := 0x00200000

namespace HandshakeResponse41

/-- `auth_response.assign(begin + pos, begin + pos + len)`, after the check. -/
def takeAuth (payload : Bytes) (pos len : ℕ) : Option (Except String (Bytes × ℕ)) :=
  if payload.length < sizeT (pos + len) then some (.error "auth response overflows packet")
  else do
    let auth ← slice payload pos (sizeT (pos + len))
    some (.ok (auth, sizeT (pos + len)))

/-- The auth response and the position after it, as the flags say how its length is written. -/
def readAuth (payload : Bytes) (flags pos : ℕ) : Option (Except String (Bytes × ℕ)) :=
  if flags &&& pluginAuthLenenc ≠ 0 then do
    let len ← readLenencInt payload pos
    takeAuth payload len.2 len.1
  else if flags &&& secureConnection ≠ 0 then
    if payload.length ≤ pos then some (.error "missing auth len byte")
    else do
      let authLen ← payload[pos]?
      takeAuth payload (sizeT (pos + 1)) authLen.toNat
  else some (.ok ([], pos))

/-- A string that is there only with its flag and while the packet lasts. -/
def readOptional (payload : Bytes) (flags flag pos : ℕ) : Option (Bytes × ℕ) :=
  if flags &&& flag ≠ 0 ∧ pos < payload.length then readNullStr payload pos else some ([], pos)

def decode (payload : Bytes) : Option (Except String HandshakeResponse41) :=
  if payload.length < 32 then some (.error "handshake response too short")
  else do
    let flags ← readLe payload 0 4
    let maxPacketSize ← readLe payload 4 4
    let characterSet ← payload[8]?
    if payload.length ≤ 32 then some (.error "truncated response")
    else do
      let username ← readNullStr payload 32
      match ← readAuth payload flags username.2 with
      | .error e => some (.error e)
      | .ok auth => do
        let database ← readOptional payload flags connectWithDb auth.2
        let authPlugin ← readOptional payload flags pluginAuth database.2
        some (.ok ⟨flags, maxPacketSize, characterSet, username.1, auth.1, database.1,
          authPlugin.1⟩)

end HandshakeResponse41

open HandshakeResponse41

/-! ### Staying inside the packet -/

/-- The parts are slices of the payload, one after the other from `pos` on. -/
def Slices (payload : Bytes) : ℕ → List Bytes → Prop
  | _, [] => True
  | pos, s :: rest => ∃ first last, pos ≤ first ∧ first ≤ last ∧ last ≤ payload.length ∧
      s = (payload.drop first).take (last - first) ∧ Slices payload last rest

/-- The decoder leaves the payload nowhere, and the parts of its answer are slices of it. -/
def DecodesInBounds (payload : Bytes) : Prop :=
  ∃ r, decode payload = some r ∧ ∀ resp, r = .ok resp →
    Slices payload 32 [resp.username, resp.authResponse, resp.database, resp.authPlugin]

/-- The capability flags of a payload. -/
def flagsOf (payload : Bytes) : ℕ := leValue (payload.take 4)

/-- Where the length of the auth response stands. -/
def authStart (payload : Bytes) : ℕ := afterNull payload 32

/-- The sums of a position and a length that are formed for an auth response at `pos` do not
wrap. -/
def AuthFitsAt (payload : Bytes) (flags pos : ℕ) : Prop :=
  if flags &&& pluginAuthLenenc ≠ 0 then PrefixFits payload pos ∧ LengthFits payload pos
  else if flags &&& secureConnection ≠ 0 then
    ∀ n, payload[pos]? = some n → pos + 1 + n.toNat < 2 ^ 64
  else True

/-- A payload that is long enough has an auth response whose length can be added to its position. -/
def AuthFits (payload : Bytes) : Prop :=
  payload.length ≤ 32 ∨ AuthFitsAt payload (flagsOf payload) (authStart payload)

theorem Slices.mono {payload : Bytes} {pos pos' : ℕ} {parts : List Bytes} (hle : pos ≤ pos')
    (h : Slices payload pos' parts) : Slices payload pos parts := by
  cases parts with
  | nil => trivial
  | cons s rest =>
    obtain ⟨first, last, hfirst, hrest⟩ := h
    exact ⟨first, last, hle.trans hfirst, hrest⟩

variable {payload : Bytes} {flags pos : ℕ}

/-- The string up to the next zero is a slice that ends before that zero. -/
theorem slices_nullStrAt (hpos : pos ≤ payload.length) {parts : List Bytes}
    (h : Slices payload (afterNull payload pos) parts) :
    Slices payload pos (nullStrAt payload pos :: parts) := by
  refine ⟨pos, pos + (nullStrAt payload pos).length, Nat.le_refl _, Nat.le_add_right _ _,
    length_nullStrAt_le hpos, ?_, h.mono (afterNull_le hpos).1⟩
  rw [Nat.add_sub_cancel_left]
  exact List.prefix_iff_eq_take.mp (List.takeWhile_prefix _)

/-! ### The auth response -/

/-- The bytes of an auth response are a slice, and its position is where that ends. -/
def AuthSliced (payload : Bytes) (pos : ℕ) (r : Except String (Bytes × ℕ)) : Prop :=
  ∀ auth, r = .ok auth → auth.2 ≤ payload.length ∧
    ∀ parts, Slices payload auth.2 parts → Slices payload pos (auth.1 :: parts)

theorem AuthSliced.error (payload : Bytes) (pos : ℕ) (e : String) :
    AuthSliced payload pos (.error e) := fun _ h => absurd h (by simp)

theorem AuthSliced.mono {pos' : ℕ} {r : Except String (Bytes × ℕ)} (hle : pos ≤ pos')
    (h : AuthSliced payload pos' r) : AuthSliced payload pos r :=
  fun auth hr => ⟨(h auth hr).1, fun parts hparts => ((h auth hr).2 parts hparts).mono hle⟩

theorem takeAuth_sliced (payload : Bytes) {pos len : ℕ} (h : pos + len < 2 ^ 64) :
    ∃ r, takeAuth payload pos len = some r ∧ AuthSliced payload pos r := by
  rw [takeAuth, sizeT_of_lt h]
  split_ifs with hcut
  · exact ⟨_, rfl, .error payload pos _⟩
  · rw [slice_eq ⟨Nat.le_add_right _ _, by omega⟩]
    refine ⟨_, rfl, fun auth hauth => ?_⟩
    obtain rfl := Except.ok.inj hauth
    exact ⟨by omega, fun parts hparts => ⟨pos, pos + len, Nat.le_refl _, Nat.le_add_right _ _,
      by omega, rfl, hparts⟩⟩

/-- A sum that wraps passes the check and gives a range that ends before it begins. -/
theorem takeAuth_eq_none {len : ℕ} (hsize : payload.length < 2 ^ 64) (hpos : pos ≤ payload.length)
    (hlen : len < 2 ^ 64) (h : 2 ^ 64 ≤ pos + len) : takeAuth payload pos len = none := by
  have hcheck := sizeT_lt_of_le hlen (by omega) h
  rw [takeAuth, if_neg (by omega), slice, if_neg (by omega)]
  rfl

theorem readAuth_sliced (hsize : payload.length < 2 ^ 64) (hpos : pos ≤ payload.length)
    (h : AuthFitsAt payload flags pos) :
    ∃ r, readAuth payload flags pos = some r ∧ AuthSliced payload pos r := by
  rw [AuthFitsAt] at h
  rw [readAuth]
  by_cases hlenenc : flags &&& pluginAuthLenenc ≠ 0
  · rw [if_pos hlenenc] at h ⊢
    obtain ⟨r, hr, hsliced⟩ := takeAuth_sliced payload h.2
    refine ⟨r, ?_, hsliced.mono (lenencAt_le hpos).1⟩
    rw [readLenencInt_eq hsize h.1]
    exact hr
  · rw [if_neg hlenenc] at h ⊢
    by_cases hsecure : flags &&& secureConnection ≠ 0
    · rw [if_pos hsecure] at h ⊢
      split_ifs with hend
      · exact ⟨_, rfl, .error payload pos _⟩
      · have hlt : pos < payload.length := Nat.lt_of_not_le hend
        have hfirst := List.getElem?_eq_getElem hlt
        obtain ⟨r, hr, hsliced⟩ := takeAuth_sliced payload (h _ hfirst)
        refine ⟨r, ?_, hsliced.mono (Nat.le_succ _)⟩
        rw [hfirst, sizeT_of_lt (by omega)]
        exact hr
    · rw [if_neg hsecure]
      refine ⟨_, rfl, fun auth hauth => ?_⟩
      obtain rfl := Except.ok.inj hauth
      refine ⟨hpos, fun parts hparts => ⟨pos, pos, Nat.le_refl _, Nat.le_refl _, hpos, ?_, hparts⟩⟩
      rw [Nat.sub_self, List.take_zero]

theorem readAuth_eq_none (hsize : payload.length < 2 ^ 64) (hpos : pos ≤ payload.length)
    (h : ¬ AuthFitsAt payload flags pos) : readAuth payload flags pos = none := by
  rw [AuthFitsAt] at h
  rw [readAuth]
  by_cases hlenenc : flags &&& pluginAuthLenenc ≠ 0
  · rw [if_pos hlenenc] at h ⊢
    by_cases hlead : PrefixFits payload pos
    · have hwrap : 2 ^ 64 ≤ (lenencAt payload pos).2 + (lenencAt payload pos).1 :=
        Nat.le_of_not_lt fun hfits => h ⟨hlead, hfits⟩
      rw [readLenencInt_eq hsize hlead]
      exact takeAuth_eq_none hsize (lenencAt_le hpos).2 (lenencAt_lt payload pos) hwrap
    · rw [readLenencInt_eq_none hsize hlead]
      rfl
  · rw [if_neg hlenenc] at h ⊢
    by_cases hsecure : flags &&& secureConnection ≠ 0
    · rw [if_pos hsecure] at h ⊢
      obtain ⟨n, hn, hwrap⟩ : ∃ n, payload[pos]? = some n ∧ 2 ^ 64 ≤ pos + 1 + n.toNat := by
        simpa [not_lt] using h
      have hlt := (List.getElem?_eq_some_iff.mp hn).1
      rw [if_neg (by omega), hn, sizeT_of_lt (by omega)]
      exact takeAuth_eq_none hsize hlt (Nat.lt_trans n.toNat_lt (by decide)) hwrap
    · rw [if_neg hsecure] at h
      exact absurd trivial h

/-! ### The decoder -/

theorem readOptional_eq (hsize : payload.length < 2 ^ 64) (hpos : pos ≤ payload.length)
    (flags flag : ℕ) :
    ∃ s pos', readOptional payload flags flag pos = some (s, pos') ∧ pos' ≤ payload.length ∧
      ∀ parts, Slices payload pos' parts → Slices payload pos (s :: parts) := by
  rw [readOptional]
  split_ifs
  · exact ⟨_, _, readNullStr_eq hsize hpos, (afterNull_le hpos).2,
      fun parts hparts => slices_nullStrAt hpos hparts⟩
  · refine ⟨_, _, rfl, hpos, fun parts hparts => ⟨pos, pos, Nat.le_refl _, Nat.le_refl _, hpos, ?_,
      hparts⟩⟩
    rw [Nat.sub_self, List.take_zero]

/-- What is decoded after the auth response. -/
def afterAuth (payload : Bytes) (maxPacketSize : ℕ) (characterSet : UInt8) :
    Except String (Bytes × ℕ) → Option (Except String HandshakeResponse41)
  | .error e => some (.error e)
  | .ok auth => do
    let database ← readOptional payload (flagsOf payload) connectWithDb auth.2
    let authPlugin ← readOptional payload (flagsOf payload) pluginAuth database.2
    some (.ok ⟨flagsOf payload, maxPacketSize, characterSet, nullStrAt payload 32, auth.1,
      database.1, authPlugin.1⟩)

theorem decode_eq (hsize : payload.length < 2 ^ 64) (hlen : 32 < payload.length) :
    ∃ maxPacketSize characterSet, decode payload =
      (readAuth payload (flagsOf payload) (authStart payload)).bind
        (afterAuth payload maxPacketSize characterSet) := by
  refine ⟨leValue ((payload.drop 4).take 4), payload[8], ?_⟩
  rw [decode, if_neg (by omega), readLe_eq (by omega), readLe_eq (by omega),
    List.getElem?_eq_getElem (by omega)]
  simp only [Option.bind_eq_bind, Option.bind_some]
  rw [if_neg (by omega), readNullStr_eq hsize hlen.le]
  simp only [Option.bind_some]
  refine congrArg _ (funext fun r => ?_)
  cases r with
  | error e => rfl
  | ok auth => rfl

theorem afterAuth_slices (hsize : payload.length < 2 ^ 64) (hlen : 32 ≤ payload.length)
    (maxPacketSize : ℕ) (characterSet : UInt8) {r : Except String (Bytes × ℕ)}
    (hr : AuthSliced payload (authStart payload) r) :
    ∃ r', afterAuth payload maxPacketSize characterSet r = some r' ∧ ∀ resp, r' = .ok resp →
      Slices payload 32 [resp.username, resp.authResponse, resp.database, resp.authPlugin] := by
  cases r with
  | error e => exact ⟨_, rfl, fun resp h => absurd h (by simp)⟩
  | ok auth =>
    obtain ⟨hauth, hslices⟩ := hr auth rfl
    obtain ⟨database, pos, hdatabase, hpos, hdatabaseSlices⟩ :=
      readOptional_eq hsize hauth (flagsOf payload) connectWithDb
    obtain ⟨authPlugin, pos', hauthPlugin, -, hauthPluginSlices⟩ :=
      readOptional_eq hsize hpos (flagsOf payload) pluginAuth
    refine ⟨.ok ⟨flagsOf payload, maxPacketSize, characterSet, nullStrAt payload 32, auth.1,
      database, authPlugin⟩, ?_, fun resp h => ?_⟩
    · simp only [afterAuth, hdatabase, hauthPlugin, Option.bind_eq_bind, Option.bind_some]
    · obtain rfl := Except.ok.inj h
      exact slices_nullStrAt hlen (hslices _ (hdatabaseSlices _ (hauthPluginSlices _ trivial)))

theorem decodesInBounds_iff (hsize : payload.length < 2 ^ 64) :
    DecodesInBounds payload ↔ AuthFits payload := by
  by_cases hlen : payload.length ≤ 32
  · -- too short to hold anything
    refine iff_of_true ?_ (.inl hlen)
    by_cases hshort : payload.length < 32
    · exact ⟨_, if_pos hshort, fun resp h => absurd h (by simp)⟩
    · refine ⟨.error "truncated response", ?_, fun resp h => absurd h (by simp)⟩
      rw [decode, if_neg hshort, readLe_eq (by omega), readLe_eq (by omega),
        List.getElem?_eq_getElem (by omega)]
      simp only [Option.bind_eq_bind, Option.bind_some, if_pos hlen]
  · have hlt : 32 < payload.length := Nat.lt_of_not_le hlen
    have hstart : authStart payload ≤ payload.length := (afterNull_le hlt.le).2
    obtain ⟨maxPacketSize, characterSet, hdecode⟩ := decode_eq hsize hlt
    rw [DecodesInBounds, hdecode, AuthFits, or_iff_right hlen]
    by_cases hfits : AuthFitsAt payload (flagsOf payload) (authStart payload)
    · refine iff_of_true ?_ hfits
      obtain ⟨r, hr, hsliced⟩ := readAuth_sliced hsize hstart hfits
      rw [hr]
      exact afterAuth_slices hsize hlt.le maxPacketSize characterSet hsliced
    · refine iff_of_false ?_ hfits
      rw [readAuth_eq_none hsize hstart hfits]
      rintro ⟨r, hr, -⟩
      exact absurd hr (by simp)

/-- **When lengths stay in bounds.** The decoder stays inside every payload for which the length of
the auth response can be added to its position, and leaves every other one. Likewise the readers,
from every position of a buffer. -/
theorem handshake_inBounds_iff (payload data : Bytes) (pos : ℕ) :
    (payload.length < 2 ^ 64 → (DecodesInBounds payload ↔ AuthFits payload)) ∧
    (data.length < 2 ^ 64 → pos ≤ data.length →
      (InBounds data pos (readLenencInt data pos) ↔ PrefixFits data pos) ∧
      InBounds data pos (readNullStr data pos) ∧
      (InBounds data pos (readLenencStr data pos) ↔
        PrefixFits data pos ∧ LengthFits data pos)) := by
  refine ⟨fun hsize => decodesInBounds_iff hsize, fun hsize hpos => ?_⟩
  exact ⟨inBounds_readLenencInt_iff hsize hpos, inBounds_readNullStr hsize hpos,
    inBounds_readLenencStr_iff hsize hpos⟩

/-- A header with the flag for a length-encoded auth response, the user `u` and a first byte that
announces eight more. -/
def lenencHello (len : Bytes) : Bytes :=
  [0x00, 0x00, 0x20, 0x00] ++ List.replicate 28 0x00 ++ [0x75, 0x00, 0xFE] ++ len

/-- A length that is only too large for the payload is refused. -/
theorem handshake_inBounds_long : DecodesInBounds (lenencHello (List.replicate 8 0x01)) := by
  have hiff := (handshake_inBounds_iff (lenencHello (List.replicate 8 0x01)) [] 0).1 (by decide)
  refine hiff.mpr (.inr ?_)
  have hstart : authStart (lenencHello (List.replicate 8 0x01)) = 34 := by decide +kernel
  rw [AuthFitsAt, if_pos (by decide +kernel), hstart]
  refine ⟨fun first _ _ => ?_, by decide +kernel⟩
  have := lenencWidth_le first
  omega

/-- A length just below `2 ^ 64` takes the decoder out of the payload. -/
theorem handshake_wraps : decode (lenencHello (List.replicate 8 0xFF)) = none ∧
    ¬ DecodesInBounds (lenencHello (List.replicate 8 0xFF)) := by
  have hnone : decode (lenencHello (List.replicate 8 0xFF)) = none := by decide +kernel
  refine ⟨hnone, ?_⟩
  rintro ⟨r, hr, -⟩
  exact absurd (hnone.symm.trans hr) (by simp)

end DBMesh.Protocol
