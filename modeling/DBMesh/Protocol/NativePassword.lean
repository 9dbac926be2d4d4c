import DBMesh.Protocol.Codec

/-!
# mysql_native_password

`scramble_native_password` and `verify_native_password` of `protocol/mysql/src/handshake.cpp`: the
token a client sends for its password and the server's check of it, both from the hashes that
`native_hashes` computes. `SHA1` is an arbitrary function from byte strings to twenty bytes, so
nothing here rests on what it computes.

The token is an exclusive or of two hashes, and the check undoes it. The two functions treat the
empty password apart, each in its own way: the token is empty then, but the check wants twenty zero
bytes, and it looks at the length of the response first.

## Main results

* `DBMesh.Protocol.verifyNativePassword_of_ne_nil` — for a password that is not empty, the check
  accepts exactly the token
* `DBMesh.Protocol.verifyNativePassword_iff_scramble_iff` — when check and token agree
-/

namespace DBMesh.Protocol

/-- `std::array<uint8_t, 20>` -/
abbrev Digest := Vector UInt8 20

section

variable (SHA1 : Bytes → Digest)

/-- `h1` and `h3`: the hash of the password, and that of the salt with the password hashed twice. -/
def nativeHashes (pwd : Bytes) (salt : Digest) : Digest × Digest :=
  let h1 := SHA1 pwd
  let h2 := SHA1 h1.toList
  let salted := salt.toList ++ h2.toList
  (h1, SHA1 salted)

def verifyNativePassword (passwordPlaintext : Bytes) (authData : Digest) (authResponse : Bytes) :
    Bool :=
  if authResponse.length ≠ 20 then false
  else if passwordPlaintext.isEmpty then authResponse.all (· == 0)
  else
    let h := nativeHashes SHA1 passwordPlaintext authData
    let expected := List.zipWith (· ^^^ ·) authResponse h.2.toList
    expected == h.1.toList

def scrambleNativePassword (passwordPlaintext : Bytes) (salt : Digest) : Bytes :=
  if passwordPlaintext.isEmpty then []
  else
    let h := nativeHashes SHA1 passwordPlaintext salt
    List.zipWith (· ^^^ ·) h.1.toList h.2.toList

end

/-! ### Exclusive or of byte strings -/

/-- Exclusive or with the same bytes twice gives back what it was taken of. -/
theorem zipWith_xor_cancel : ∀ {xs ks : Bytes}, xs.length = ks.length →
    List.zipWith (· ^^^ ·) (List.zipWith (· ^^^ ·) xs ks) ks = xs
  | [], [], _ => rfl
  | x :: xs, k :: ks, h => by
    have hlen : xs.length = ks.length := Nat.succ.inj h
    rw [List.zipWith_cons_cons, List.zipWith_cons_cons, zipWith_xor_cancel hlen, UInt8.xor_assoc,
      UInt8.xor_self, UInt8.xor_zero]

theorem zipWith_xor_eq_iff {xs ys ks : Bytes} (hx : xs.length = ks.length)
    (hy : ys.length = ks.length) :
    List.zipWith (· ^^^ ·) xs ks = ys ↔ xs = List.zipWith (· ^^^ ·) ys ks := by
  constructor
  · rintro rfl
    exact (zipWith_xor_cancel hx).symm
  · rintro rfl
    exact zipWith_xor_cancel hy

/-! ### The check and the token -/

variable {SHA1 : Bytes → Digest} {password response : Bytes} {challenge : Digest}

theorem length_scrambleNativePassword (hp : password ≠ []) :
    (scrambleNativePassword SHA1 password challenge).length = 20 := by
  rw [scrambleNativePassword, if_neg (by simpa using hp)]
  simp

/-- **The check accepts exactly the token** of a password that is not empty. -/
theorem verifyNativePassword_of_ne_nil (hp : password ≠ []) :
    verifyNativePassword SHA1 password challenge response = true ↔
      response = scrambleNativePassword SHA1 password challenge := by
  by_cases hlen : response.length = 20
  · rw [verifyNativePassword, if_neg (not_not.mpr hlen), if_neg (by simpa using hp),
      scrambleNativePassword, if_neg (by simpa using hp), beq_iff_eq]
    exact zipWith_xor_eq_iff (by simpa using hlen) (by simp)
  · rw [verifyNativePassword, if_pos hlen]
    refine iff_of_false Bool.false_ne_true fun heq => hlen ?_
    rw [heq]
    exact length_scrambleNativePassword hp

/-- With the empty password the check accepts twenty zero bytes only. -/
theorem verifyNativePassword_nil :
    verifyNativePassword SHA1 [] challenge response = true ↔ response = List.replicate 20 0 := by
  rw [List.eq_replicate_iff, verifyNativePassword]
  by_cases hlen : response.length = 20
  · rw [if_neg (not_not.mpr hlen), if_pos List.isEmpty_nil, List.all_eq_true, and_iff_right hlen]
    simp only [beq_iff_eq]
  · rw [if_pos hlen]
    exact iff_of_false Bool.false_ne_true fun h => hlen h.1

/-- **Check and token agree** unless the password is empty and the response is one of the two that
the functions answer differently: the empty one, or twenty zero bytes. -/
theorem verifyNativePassword_iff_scramble_iff (SHA1 : Bytes → Digest) (password : Bytes)
    (challenge : Digest) (response : Bytes) :
    (verifyNativePassword SHA1 password challenge response = true ↔
        response = scrambleNativePassword SHA1 password challenge) ↔
      (password = [] → response ≠ [] ∧ response ≠ List.replicate 20 0) := by
  by_cases hp : password = []
  · subst hp
    rw [verifyNativePassword_nil, show scrambleNativePassword SHA1 [] challenge = [] from rfl,
      imp_iff_right rfl]
    refine ⟨fun hiff => ?_, fun ⟨hnil, hzero⟩ => iff_of_false hzero hnil⟩
    have hne : response ≠ [] := by
      rintro rfl
      exact absurd (hiff.mpr rfl) (by decide)
    exact ⟨hne, fun hzero => hne (hiff.mp hzero)⟩
  · exact iff_of_true (verifyNativePassword_of_ne_nil hp) fun hnil => absurd hnil hp

/-- The token of the empty password is rejected, and twenty zero bytes are accepted in its place. -/
theorem verify_rejects_empty_token :
    scrambleNativePassword (fun _ => Vector.replicate 20 7) [] (Vector.replicate 20 1) = [] ∧
      verifyNativePassword (fun _ => Vector.replicate 20 7) [] (Vector.replicate 20 1) [] = false ∧
      verifyNativePassword (fun _ => Vector.replicate 20 7) [] (Vector.replicate 20 1)
        (List.replicate 20 0) = true :=
  ⟨rfl, by decide, by decide⟩

end DBMesh.Protocol
