import Mathlib.Data.List.Basic
import Mathlib.Data.Nat.Bitwise

/-!
# Integers and strings of the wire format

`protocol/mysql/include/dbmesh/protocol/mysql/codec.h`: the little-endian integers and the
length-encoded integers and strings the packets are made of. A buffer is the list of its bytes; the
`write` helpers append to it.

## Main results

* `DBMesh.Protocol.readU24Le_writeU24Le` — the three bytes of a number read back as that number,
  modulo `2 ^ 24`
* `DBMesh.Protocol.head?_writeLenencInt` — which first bytes a length-encoded integer can have
-/

namespace DBMesh.Protocol

abbrev Bytes := List UInt8

/-- `static_cast<uint8_t>((v >> (8 * i)) & 0xFF)` -/
def byteAt (v i : ℕ) : UInt8 := UInt8.ofNat ((v >>> (8 * i)) &&& 0xFF)

theorem toNat_byteAt (v i : ℕ) : (byteAt v i).toNat = v / 2 ^ (8 * i) % 256 := by
  have h : v >>> (8 * i) &&& 0xFF = v / 2 ^ (8 * i) % 2 ^ 8 := by
    rw [show (0xFF : ℕ) = 2 ^ 8 - 1 from rfl, Nat.and_two_pow_sub_one_eq_mod,
      Nat.shiftRight_eq_div_pow]
  rw [byteAt, UInt8.toNat_ofNat', h]
  exact Nat.mod_mod _ _

theorem byteAt_mod {v n i : ℕ} (h : 8 * (i + 1) ≤ n) : byteAt (v % 2 ^ n) i = byteAt v i := by
  apply UInt8.toNat_inj.mp
  have hsplit : 2 ^ n = 2 ^ (8 * i) * (256 * 2 ^ (n - 8 * (i + 1))) := by
    rw [show (256 : ℕ) = 2 ^ 8 from rfl, ← Nat.pow_add, ← Nat.pow_add]
    congr 1
    omega
  rw [toNat_byteAt, toNat_byteAt, hsplit, Nat.mod_mul_right_div_self, Nat.mod_mul_right_mod]

/-! ### Write helpers -/

def writeU8 (buf : Bytes) (v : UInt8) : Bytes := buf ++ [v]

def writeU16Le (buf : Bytes) (v : ℕ) : Bytes := buf ++ [byteAt v 0, byteAt v 1]

def writeU24Le (buf : Bytes) (v : ℕ) : Bytes := buf ++ [byteAt v 0, byteAt v 1, byteAt v 2]

def writeU32Le (buf : Bytes) (v : ℕ) : Bytes :=
  buf ++ [byteAt v 0, byteAt v 1, byteAt v 2, byteAt v 3]

def writeBytes (buf data : Bytes) : Bytes := buf ++ data

def writeNullStr (buf s : Bytes) : Bytes := buf ++ s ++ [0x00]

def writeLenencInt (buf : Bytes) (v : ℕ) : Bytes :=
  if v < 251 then buf ++ [UInt8.ofNat v]
  else if v < 65536 then writeU16Le (buf ++ [0xFC]) v
  else if v < 16777216 then writeU24Le (buf ++ [0xFD]) v
  else buf ++ [0xFE] ++ (List.range 8).map (byteAt v)

def writeLenencStr (buf : Bytes) (s : Bytes) : Bytes := writeLenencInt buf s.length ++ s

/-! ### Read helpers -/

def readU24Le (p₀ p₁ p₂ : UInt8) : ℕ := p₀.toNat ||| (p₁.toNat <<< 8) ||| (p₂.toNat <<< 16)

theorem readU24Le_eq (p₀ p₁ p₂ : UInt8) :
    readU24Le p₀ p₁ p₂ = p₀.toNat + 256 * p₁.toNat + 65536 * p₂.toNat := by
  have h₀ : p₀.toNat < 2 ^ 8 := p₀.toNat_lt
  have h₁ : p₁.toNat < 2 ^ 8 := p₁.toNat_lt
  have h₀₁ : p₀.toNat ||| (p₁.toNat <<< 8) = p₀.toNat + 256 * p₁.toNat := by
    rw [Nat.or_comm, ← Nat.shiftLeft_add_eq_or_of_lt h₀, Nat.shiftLeft_eq]
    omega
  have h₀₁' : p₀.toNat + 256 * p₁.toNat < 2 ^ 16 := by omega
  rw [readU24Le, h₀₁, Nat.or_comm, ← Nat.shiftLeft_add_eq_or_of_lt h₀₁', Nat.shiftLeft_eq]
  omega

theorem readU24Le_lt (p₀ p₁ p₂ : UInt8) : readU24Le p₀ p₁ p₂ < 2 ^ 24 := by
  have h₀ : p₀.toNat < 2 ^ 8 := p₀.toNat_lt
  have h₁ : p₁.toNat < 2 ^ 8 := p₁.toNat_lt
  have h₂ : p₂.toNat < 2 ^ 8 := p₂.toNat_lt
  rw [readU24Le_eq]
  omega

theorem readU24Le_writeU24Le (v : ℕ) :
    readU24Le (byteAt v 0) (byteAt v 1) (byteAt v 2) = v % 2 ^ 24 := by
  rw [readU24Le_eq, toNat_byteAt, toNat_byteAt, toNat_byteAt]
  omega

/-! ### First bytes -/

/-- `0xFB` and `0xFF` never begin a length-encoded integer, `0x00` begins only that of `0`, and
`0xFE` only one of nine bytes. -/
theorem head?_writeLenencInt (v : ℕ) :
    ∃ b bs, writeLenencInt [] v = b :: bs ∧ b ≠ 0xFB ∧ b ≠ 0xFF ∧ (b = 0x00 → v = 0) ∧
      (b = 0xFE → 16777216 ≤ v ∧ bs.length = 8) := by
  simp only [writeLenencInt]
  split_ifs with h₁ h₂ h₃
  · have hv : (UInt8.ofNat v).toNat = v := by
      rw [UInt8.toNat_ofNat']
      omega
    refine ⟨UInt8.ofNat v, [], rfl, ?_, ?_, ?_, ?_⟩ <;> intro h <;> rw [h] at hv
    · exact absurd hv (by simp; omega)
    · exact absurd hv (by simp; omega)
    · exact hv.symm
    · exact absurd hv (by simp; omega)
  · exact ⟨0xFC, _, rfl, by decide, by decide, fun h => absurd h (by decide),
      fun h => absurd h (by decide)⟩
  · exact ⟨0xFD, _, rfl, by decide, by decide, fun h => absurd h (by decide),
      fun h => absurd h (by decide)⟩
  · exact ⟨0xFE, _, rfl, by decide, by decide, fun h => absurd h (by decide),
      fun _ => ⟨by omega, by simp⟩⟩

end DBMesh.Protocol
