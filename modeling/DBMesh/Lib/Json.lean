import Mathlib.Algebra.GroupWithZero.Nat
import Mathlib.Data.List.Basic
import Mathlib.Tactic.SplitIfs

/-!
# JSON texts

An executable reader of JSON texts, after the grammar of RFC 8259: a text is a list of characters,
and what a reader returns is the value it read with the characters that are left. A string is
returned decoded, its escapes replaced by the characters they stand for.

What the reader is used for is a size argument. `Value.weight` is a number of bytes which no text
of a value goes below: a character that cannot stand for itself in a string costs at least two
bytes, every other one its own. So a text which is as short as its value allows has no escape and
no blank in it.

## Main definitions

* `Json.encode` — the bytes of a text, in UTF-8
* `Json.read` — the value of a text
* `Json.Denotes` — the value of a text, for some amount of fuel
* `Json.Value.weight` — the bytes no text of the value goes below

## Main results

* `Json.bounds` — what a reader takes off a text has at least as many bytes as its value weighs
* `Json.isPlain_of_textCost_le` — a string that weighs no more than its bytes has no escapes
* `Json.readMembers_member_comma`, `Json.readMembers_member_close` — a member written without
  escapes is read back
* `Json.exists_eq_append_of_encode` — the ASCII characters a text begins with can be read off its
  bytes
-/

namespace Json

/-! ### The bytes of a text -/

/-- The bytes of a text, in UTF-8. -/
def encode (text : List Char) : List UInt8 := text.flatMap String.utf8EncodeChar

/-- The number of bytes of a text. -/
def size (text : List Char) : Nat := (text.map Char.utf8Size).sum

@[simp] theorem encode_nil : encode [] = [] := rfl

@[simp] theorem encode_cons (c : Char) (text : List Char) :
    encode (c :: text) = String.utf8EncodeChar c ++ encode text := rfl

@[simp] theorem encode_append (s t : List Char) : encode (s ++ t) = encode s ++ encode t :=
  List.flatMap_append

@[simp] theorem size_nil : size [] = 0 := rfl

@[simp] theorem size_cons (c : Char) (text : List Char) :
    size (c :: text) = c.utf8Size + size text := rfl

@[simp] theorem size_append (s t : List Char) : size (s ++ t) = size s + size t := by
  simp [size]

@[simp] theorem length_encode (text : List Char) : (encode text).length = size text := by
  induction text with
  | nil => rfl
  | cons c text ih => rw [encode_cons, List.length_append, ih, String.length_utf8EncodeChar,
      size_cons]

/-- The characters that take one byte. -/
def IsAscii (text : List Char) : Prop := ∀ c ∈ text, c.utf8Size = 1

instance (text : List Char) : Decidable (IsAscii text) :=
  List.decidableBAll (fun c : Char => c.utf8Size = 1) text

theorem isAscii_nil : IsAscii [] := fun _ hc => absurd hc List.not_mem_nil

theorem isAscii_cons {c : Char} {text : List Char} :
    IsAscii (c :: text) ↔ c.utf8Size = 1 ∧ IsAscii text := List.forall_mem_cons

theorem isAscii_append {s t : List Char} : IsAscii (s ++ t) ↔ IsAscii s ∧ IsAscii t :=
  List.forall_mem_append

theorem IsAscii.size_eq {text : List Char} (h : IsAscii text) : size text = text.length := by
  induction text with
  | nil => rfl
  | cons c text ih =>
    rw [size_cons, h c (List.mem_cons_self ..), ih fun d hd => h d (List.mem_cons_of_mem _ hd),
      List.length_cons, Nat.add_comm]

/-- Every byte of a character of several bytes is `0x80` or more. -/
theorem ascii_of_mem_utf8EncodeChar {c : Char} {b : UInt8} (hb : b ∈ String.utf8EncodeChar c)
    (hlt : b.toNat < 0x80) : c.toNat = b.toNat ∧ String.utf8EncodeChar c = [b] := by
  revert hb
  rw [String.utf8EncodeChar]
  split
  · rename_i h
    intro hb
    obtain rfl := List.mem_singleton.mp hb
    refine ⟨?_, rfl⟩
    rw [UInt8.toNat_ofNat', Nat.mod_eq_of_lt (by omega)]
    rfl
  · intro hb
    exfalso
    split at hb
    · rcases List.mem_pair.mp hb with rfl | rfl
      all_goals
        rw [UInt8.toNat_ofNat'] at hlt
        omega
    · split at hb
      all_goals
        simp only [List.mem_cons, List.not_mem_nil, or_false] at hb
        rcases hb with rfl | rfl | rfl | rfl
      all_goals
        rw [UInt8.toNat_ofNat'] at hlt
        omega

theorem toNat_toUInt8_of_ascii {c : Char} (h : c.utf8Size = 1) :
    c.val.toUInt8.toNat = c.toNat ∧ c.toNat < 0x80 := by
  have hle : c.toNat ≤ 127 := UInt32.le_iff_toNat_le.mp (Char.utf8Size_eq_one_iff.mp h)
  have hmod : c.val.toUInt8.toNat = c.toNat % 256 := UInt32.toNat_toUInt8 c.val
  omega

theorem mem_of_mem_encode {text : List Char} {b : UInt8} (hb : b ∈ encode text)
    (hlt : b.toNat < 0x80) : ∃ c ∈ text, c.toNat = b.toNat := by
  obtain ⟨c, hc, hbc⟩ := List.mem_flatMap.mp hb
  exact ⟨c, hc, (ascii_of_mem_utf8EncodeChar hbc hlt).1⟩

/-- The ASCII characters a text begins with can be read off its bytes. -/
theorem exists_eq_append_of_encode {s text : List Char} {bytes : List UInt8} (hs : IsAscii s)
    (h : encode text = encode s ++ bytes) : ∃ t, text = s ++ t ∧ encode t = bytes := by
  induction s generalizing text with
  | nil => exact ⟨text, rfl, h⟩
  | cons a s ih =>
    have ha := hs a (List.mem_cons_self ..)
    obtain ⟨hbyte, hlt⟩ := toNat_toUInt8_of_ascii ha
    rw [encode_cons, String.utf8EncodeChar_eq_singleton ha, List.cons_append] at h
    cases text with
    | nil => cases h
    | cons c text =>
      have hc : a.val.toUInt8 ∈ String.utf8EncodeChar c := by
        obtain ⟨b, bs, hbs⟩ := List.exists_cons_of_ne_nil (String.utf8EncodeChar_ne_nil (c := c))
        rw [encode_cons, hbs] at h
        rw [hbs, (List.cons.inj h).1]
        exact List.mem_cons_self ..
      obtain ⟨hval, henc⟩ := ascii_of_mem_utf8EncodeChar hc (hbyte ▸ hlt)
      rw [encode_cons, henc] at h
      obtain ⟨t, ht, hbytes⟩ := ih (fun d hd => hs d (List.mem_cons_of_mem _ hd))
        (List.cons.inj h).2
      have hca : c = a := Char.toNat_inj.mp (hval.trans hbyte)
      exact ⟨t, by rw [hca, ht, List.cons_append], hbytes⟩

/-! ### The reader -/

inductive Value
  | null
  | bool (b : Bool)
  /-- A number, as it is spelled. -/
  | number (text : List Char)
  /-- A string, decoded. -/
  | string (text : List Char)
  | array (items : List Value)
  | object (members : List (List Char × Value))

def isSpace (c : Char) : Bool := c == ' ' || c == '\t' || c == '\n' || c == '\r'

def skipSpace (text : List Char) : List Char := text.dropWhile isSpace

/-- The characters that may stand for themselves in a string. -/
def isPlain (c : Char) : Bool := c != '"' && c != '\\' && 0x20 ≤ c.toNat

def hexDigit (c : Char) : Option Nat :=
  if '0' ≤ c ∧ c ≤ '9' then some (c.toNat - '0'.toNat)
  else if 'a' ≤ c ∧ c ≤ 'f' then some (c.toNat - 'a'.toNat + 10)
  else if 'A' ≤ c ∧ c ≤ 'F' then some (c.toNat - 'A'.toNat + 10)
  else none

/-- The four hexadecimal digits of a code unit. -/
def readUnit : List Char → Option (Nat × List Char)
  | a :: b :: c :: d :: text => do
    let a ← hexDigit a
    let b ← hexDigit b
    let c ← hexDigit c
    let d ← hexDigit d
    some (((a * 16 + b) * 16 + c) * 16 + d, text)
  | _ => none

/-- The character of a code point. A surrogate is none. -/
def scalar (n : Nat) : Option Char := if n.isValidChar then some (Char.ofNat n) else none

/-- The rest of a `\u` escape: a code unit, or two of them that are a surrogate pair. -/
def readUnicode (text : List Char) : Option (Char × List Char) := do
  let (high, text) ← readUnit text
  if 0xd800 ≤ high ∧ high < 0xdc00 then
    match text with
    | '\\' :: 'u' :: text => do
      let (low, text) ← readUnit text
      if 0xdc00 ≤ low ∧ low < 0xe000 then
        (scalar (0x10000 + (high - 0xd800) * 0x400 + (low - 0xdc00))).map (·, text)
      else none
    | _ => none
  else (scalar high).map (·, text)

/-- The rest of an escape, after its backslash. -/
def readEscape : List Char → Option (Char × List Char)
  | [] => none
  | c :: text =>
    if c = '"' ∨ c = '\\' ∨ c = '/' then some (c, text)
    else if c = 'b' then some ('\x08', text)
    else if c = 'f' then some ('\x0c', text)
    else if c = 'n' then some ('\n', text)
    else if c = 'r' then some ('\r', text)
    else if c = 't' then some ('\t', text)
    else if c = 'u' then readUnicode text
    else none

/-- The rest of a string, after its opening quote, up to and with the closing one. -/
def readChars : Nat → List Char → Option (List Char × List Char)
  | 0, _ => none
  | _, [] => none
  | fuel + 1, c :: text =>
    if c = '"' then some ([], text)
    else if c = '\\' then do
      let (c, text) ← readEscape text
      let (s, text) ← readChars fuel text
      some (c :: s, text)
    else if isPlain c then do
      let (s, text) ← readChars fuel text
      some (c :: s, text)
    else none

/-- Each character of a string takes at least one, so their number is fuel enough. -/
def readString (text : List Char) : Option (List Char × List Char) := readChars text.length text

/-- One digit or more. -/
def readDigits : List Char → Option (List Char × List Char)
  | [] => none
  | c :: text =>
    if c.isDigit then some (c :: text.takeWhile Char.isDigit, text.dropWhile Char.isDigit) else none

/-- A number has no leading zeros. -/
def readInt : List Char → Option (List Char × List Char)
  | '0' :: text => some (['0'], text)
  | text => readDigits text

def readSign : List Char → List Char × List Char
  | '-' :: text => (['-'], text)
  | text => ([], text)

def readFraction : List Char → Option (List Char × List Char)
  | '.' :: text => (readDigits text).map fun (ds, text) => ('.' :: ds, text)
  | text => some ([], text)

def readExponentSign : List Char → List Char × List Char
  | '+' :: text => (['+'], text)
  | text => readSign text

def readExponent : List Char → Option (List Char × List Char)
  | [] => some ([], [])
  | c :: text =>
    if c = 'e' ∨ c = 'E' then
      let (sign, text) := readExponentSign text
      (readDigits text).map fun (ds, text) => (c :: (sign ++ ds), text)
    else some ([], c :: text)

def readNumber (text : List Char) : Option (List Char × List Char) := do
  let (sign, text) := readSign text
  let (int, text) ← readInt text
  let (fraction, text) ← readFraction text
  let (exponent, text) ← readExponent text
  some (sign ++ int ++ fraction ++ exponent, text)

def readAtom : List Char → Option (Value × List Char)
  | 'n' :: 'u' :: 'l' :: 'l' :: text => some (.null, text)
  | 't' :: 'r' :: 'u' :: 'e' :: text => some (.bool true, text)
  | 'f' :: 'a' :: 'l' :: 's' :: 'e' :: text => some (.bool false, text)
  | text => (readNumber text).map fun (t, text) => (.number t, text)

mutual

/-- A value, at its first character. -/
def readValue : Nat → List Char → Option (Value × List Char)
  | 0, _ => none
  | _ + 1, [] => none
  | fuel + 1, c :: text =>
    if c = '"' then (readString text).map fun (s, text) => (.string s, text)
    else if c = '[' then
      match skipSpace text with
      | ']' :: text => some (.array [], text)
      | text => (readItems fuel text).map fun (vs, text) => (.array vs, text)
    else if c = '\x7b' then
      match skipSpace text with
      | '\x7d' :: text => some (.object [], text)
      | text => (readMembers fuel text).map fun (ms, text) => (.object ms, text)
    else readAtom (c :: text)

/-- The items of an array, one or more, with the closing bracket. -/
def readItems : Nat → List Char → Option (List Value × List Char)
  | 0, _ => none
  | fuel + 1, text => do
    let (v, text) ← readValue fuel text
    match skipSpace text with
    | ',' :: text => do
      let (vs, text) ← readItems fuel (skipSpace text)
      some (v :: vs, text)
    | ']' :: text => some ([v], text)
    | _ => none

/-- The members of an object, one or more, with the closing brace. -/
def readMembers : Nat → List Char → Option (List (List Char × Value) × List Char)
  | fuel + 1, '"' :: text => do
    let (k, text) ← readString text
    match skipSpace text with
    | ':' :: text => do
      let (v, text) ← readValue fuel (skipSpace text)
      match skipSpace text with
      | ',' :: text => do
        let (ms, text) ← readMembers fuel (skipSpace text)
        some ((k, v) :: ms, text)
      | '\x7d' :: text => some ([(k, v)], text)
      | _ => none
    | _ => none
  | _, _ => none

end

/-- The value of a text: nothing but blanks may stand around it. -/
def read (fuel : Nat) (text : List Char) : Option Value := do
  let (v, text) ← readValue fuel (skipSpace text)
  if skipSpace text = [] then some v else none

/-- `v` is the value of the text. The fuel bounds how deep the reader goes, not what a text
means. -/
def Denotes (text : List Char) (v : Value) : Prop := ∃ fuel, read fuel text = some v

/-! ### The weight of a value -/

/-- The least a character takes in a string: an escape has two characters or more. -/
def cost (c : Char) : Nat := if isPlain c then c.utf8Size else 2

def textCost (s : List Char) : Nat := (s.map cost).sum

mutual

/-- A number of bytes which no text of the value goes below. -/
def Value.weight : Value → Nat
  | .null => 4
  | .bool b => if b then 4 else 5
  | .number t => size t
  | .string s => textCost s + 2
  | .array vs => 1 + itemsWeight vs
  | .object ms => 1 + membersWeight ms

/-- Each item with the comma or bracket after it. -/
def itemsWeight : List Value → Nat
  | [] => 0
  | v :: vs => v.weight + 1 + itemsWeight vs

/-- Each member with the comma or brace after it. -/
def membersWeight : List (List Char × Value) → Nat
  | [] => 0
  | (k, v) :: ms => textCost k + 3 + v.weight + 1 + membersWeight ms

end

@[simp] theorem textCost_cons (c : Char) (s : List Char) :
    textCost (c :: s) = cost c + textCost s := rfl

theorem cost_le_four (c : Char) : cost c ≤ 4 := by
  rw [cost]
  split
  · exact c.utf8Size_le_four
  · omega

/-- The characters that need an escape are ASCII characters. -/
theorem utf8Size_of_not_isPlain {c : Char} (h : ¬ isPlain c) : c.utf8Size = 1 := by
  rw [Char.utf8Size_eq_one_iff, UInt32.le_iff_toNat_le]
  show c.toNat ≤ 127
  simp only [isPlain, Bool.and_eq_true, bne_iff_ne, decide_eq_true_eq] at h
  by_cases hq : c = '"'
  · rw [hq]
    decide
  · by_cases hb : c = '\\'
    · rw [hb]
      decide
    · have hlt : ¬ 0x20 ≤ c.toNat := fun hle => h ⟨⟨hq, hb⟩, hle⟩
      omega

theorem utf8Size_le_cost (c : Char) : c.utf8Size ≤ cost c := by
  rw [cost]
  split
  · exact Nat.le_refl _
  · rename_i h
    rw [utf8Size_of_not_isPlain h]
    omega

theorem size_le_textCost (s : List Char) : size s ≤ textCost s := by
  induction s with
  | nil => exact Nat.le_refl _
  | cons c s ih => exact Nat.add_le_add (utf8Size_le_cost c) ih

/-- A string whose characters cost no more than their bytes needs no escape. -/
theorem isPlain_of_textCost_le {s : List Char} (h : textCost s ≤ size s) :
    ∀ c ∈ s, isPlain c := by
  induction s with
  | nil => exact fun c hc => absurd hc (List.not_mem_nil)
  | cons d s ih =>
    rw [textCost_cons, size_cons] at h
    have hd := utf8Size_le_cost d
    have hs := size_le_textCost s
    intro c hc
    rcases List.mem_cons.mp hc with rfl | hc
    · by_contra hplain
      have hcost : cost c = 2 := if_neg hplain
      rw [hcost, utf8Size_of_not_isPlain hplain] at h
      omega
    · exact ih (by omega) c hc

theorem size_skipSpace_le (text : List Char) : size (skipSpace text) ≤ size text := by
  have h := congrArg size (List.takeWhile_append_dropWhile (p := isSpace) (l := text))
  rw [size_append] at h
  show size (text.dropWhile isSpace) ≤ size text
  omega

theorem size_of_skipSpace_cons {text rest : List Char} {c : Char} (h : skipSpace text = c :: rest) :
    size rest + 1 ≤ size text := by
  have hskip := size_skipSpace_le text
  have hc := c.utf8Size_pos
  rw [h, size_cons] at hskip
  omega

theorem size_of_readUnit {text rest : List Char} {n : Nat} (h : readUnit text = some (n, rest)) :
    size rest + 4 ≤ size text := by
  rw [readUnit.eq_def] at h
  split at h
  · rename_i a b c d text
    simp only [Option.bind_eq_bind, Option.bind_eq_some_iff, Option.some.injEq, Prod.mk.injEq] at h
    obtain ⟨-, -, -, -, -, -, -, -, -, rfl⟩ := h
    have ha := a.utf8Size_pos
    have hb := b.utf8Size_pos
    have hc := c.utf8Size_pos
    have hd := d.utf8Size_pos
    simp only [size_cons]
    omega
  · cases h

theorem size_of_readUnicode {text rest : List Char} {c : Char}
    (h : readUnicode text = some (c, rest)) : size rest + 4 ≤ size text := by
  simp only [readUnicode, Option.bind_eq_bind, Option.bind_eq_some_iff, Prod.exists] at h
  obtain ⟨high, text', hhigh, h⟩ := h
  have hsize := size_of_readUnit hhigh
  split at h
  · split at h
    · rename_i text''
      simp only [Option.bind_eq_some_iff, Prod.exists] at h
      obtain ⟨low, text₃, hlow, h⟩ := h
      have hsize' := size_of_readUnit hlow
      split at h
      · obtain ⟨d, -, hd⟩ := Option.map_eq_some_iff.mp h
        obtain ⟨-, rfl⟩ := Prod.mk.inj hd
        simp only [size_cons] at hsize
        omega
      · cases h
    · cases h
  · obtain ⟨d, -, hd⟩ := Option.map_eq_some_iff.mp h
    obtain ⟨-, rfl⟩ := Prod.mk.inj hd
    exact hsize

/-- An escape, with its backslash, takes at least what its character costs. -/
theorem cost_le_of_readEscape {text rest : List Char} {c : Char}
    (h : readEscape text = some (c, rest)) : cost c + size rest ≤ 1 + size text := by
  cases text with
  | nil => cases h
  | cons d text =>
    have hd := d.utf8Size_pos
    have hshort : ∀ e : Char, cost e ≤ 2 → some (e, text) = some (c, rest) →
        cost c + size rest ≤ 1 + size (d :: text) := by
      rintro e he ⟨⟩
      rw [size_cons]
      omega
    rw [readEscape] at h
    split_ifs at h with hsame
    · refine hshort d ?_ h
      rcases hsame with rfl | rfl | rfl <;> decide
    · exact hshort _ (by decide) h
    · exact hshort _ (by decide) h
    · exact hshort _ (by decide) h
    · exact hshort _ (by decide) h
    · exact hshort _ (by decide) h
    · have hsize := size_of_readUnicode h
      have hcost := cost_le_four c
      rw [size_cons]
      omega

theorem textCost_le_of_readChars {fuel : Nat} {text s rest : List Char}
    (h : readChars fuel text = some (s, rest)) : textCost s + 1 + size rest ≤ size text := by
  induction fuel generalizing text s with
  | zero => cases h
  | succ fuel ih =>
    cases text with
    | nil => cases h
    | cons c text =>
      have hc := c.utf8Size_pos
      rw [readChars] at h
      rw [size_cons]
      split_ifs at h with hquote hback hplain
      · obtain ⟨rfl, rfl⟩ := Prod.mk.inj (Option.some.inj h)
        show 0 + 1 + size text ≤ _
        omega
      · simp only [Option.bind_eq_bind, Option.bind_eq_some_iff, Prod.exists, Option.some.injEq,
          Prod.mk.injEq] at h
        obtain ⟨d, text', hd, s', rest', hs', rfl, rfl⟩ := h
        have hstep := cost_le_of_readEscape hd
        have htail := ih hs'
        rw [textCost_cons]
        omega
      · simp only [Option.bind_eq_bind, Option.bind_eq_some_iff, Prod.exists, Option.some.injEq,
          Prod.mk.injEq] at h
        obtain ⟨s', rest', hs', rfl, rfl⟩ := h
        have htail := ih hs'
        have hcost : cost c = c.utf8Size := if_pos hplain
        rw [textCost_cons, hcost]
        omega

theorem exists_of_map_fst {α β γ : Type} {f : α → β} {o : Option (α × γ)} {b : β} {r : γ}
    (h : o.map (fun p => (f p.1, p.2)) = some (b, r)) : ∃ a, o = some (a, r) ∧ f a = b := by
  obtain ⟨⟨a, r'⟩, hp, hpb⟩ := Option.map_eq_some_iff.mp h
  obtain ⟨hb, rfl⟩ := Prod.mk.inj hpb
  exact ⟨a, hp, hb⟩

theorem append_of_readDigits {text t rest : List Char} (h : readDigits text = some (t, rest)) :
    t ++ rest = text := by
  cases text with
  | nil => cases h
  | cons c text =>
    rw [readDigits] at h
    split_ifs at h
    obtain ⟨rfl, rfl⟩ := Prod.mk.inj (Option.some.inj h)
    rw [List.cons_append, List.takeWhile_append_dropWhile]

theorem append_of_map_readDigits {text t rest s : List Char}
    (h : (readDigits text).map (fun p => (s ++ p.1, p.2)) = some (t, rest)) :
    t ++ rest = s ++ text := by
  obtain ⟨ds, hds, rfl⟩ := exists_of_map_fst (f := (s ++ ·)) h
  rw [List.append_assoc, append_of_readDigits hds]

theorem append_of_readInt {text t rest : List Char} (h : readInt text = some (t, rest)) :
    t ++ rest = text := by
  rw [readInt.eq_def] at h
  split at h
  · obtain ⟨rfl, rfl⟩ := Prod.mk.inj (Option.some.inj h)
    rfl
  · exact append_of_readDigits h

theorem append_of_readSign (text : List Char) : (readSign text).1 ++ (readSign text).2 = text := by
  rw [readSign.eq_def]
  split <;> rfl

theorem append_of_readFraction {text t rest : List Char}
    (h : readFraction text = some (t, rest)) : t ++ rest = text := by
  rw [readFraction.eq_def] at h
  split at h
  · exact append_of_map_readDigits (s := ['.']) h
  · obtain ⟨rfl, rfl⟩ := Prod.mk.inj (Option.some.inj h)
    rfl

theorem append_of_readExponentSign (text : List Char) :
    (readExponentSign text).1 ++ (readExponentSign text).2 = text := by
  rw [readExponentSign.eq_def]
  split
  · rfl
  · exact append_of_readSign _

theorem append_of_readExponent {text t rest : List Char}
    (h : readExponent text = some (t, rest)) : t ++ rest = text := by
  cases text with
  | nil =>
    obtain ⟨rfl, rfl⟩ := Prod.mk.inj (Option.some.inj h)
    rfl
  | cons c text =>
    rw [readExponent] at h
    split_ifs at h
    · have happ : t ++ rest = (c :: (readExponentSign text).1) ++ (readExponentSign text).2 :=
        append_of_map_readDigits h
      rw [happ, List.cons_append, append_of_readExponentSign]
    · obtain ⟨rfl, rfl⟩ := Prod.mk.inj (Option.some.inj h)
      rfl

/-- A number is read as it is spelled. -/
theorem append_of_readNumber {text t rest : List Char} (h : readNumber text = some (t, rest)) :
    t ++ rest = text := by
  simp only [readNumber, Option.bind_eq_bind, Option.bind_eq_some_iff, Prod.exists,
    Option.some.injEq, Prod.mk.injEq] at h
  obtain ⟨int, text₁, hint, fraction, text₂, hfraction, exponent, text₃, hexponent, rfl, rfl⟩ := h
  rw [List.append_assoc, append_of_readExponent hexponent, List.append_assoc,
    append_of_readFraction hfraction, List.append_assoc, append_of_readInt hint,
    append_of_readSign]

theorem weight_le_of_readAtom {text rest : List Char} {v : Value}
    (h : readAtom text = some (v, rest)) : v.weight + size rest ≤ size text := by
  rw [readAtom.eq_def] at h
  split at h
  · obtain ⟨rfl, rfl⟩ := Prod.mk.inj (Option.some.inj h)
    rw [Value.weight]
    exact Nat.le_of_eq (size_append ['n', 'u', 'l', 'l'] _).symm
  · obtain ⟨rfl, rfl⟩ := Prod.mk.inj (Option.some.inj h)
    rw [Value.weight]
    exact Nat.le_of_eq (size_append ['t', 'r', 'u', 'e'] _).symm
  · obtain ⟨rfl, rfl⟩ := Prod.mk.inj (Option.some.inj h)
    rw [Value.weight]
    exact Nat.le_of_eq (size_append ['f', 'a', 'l', 's', 'e'] _).symm
  · obtain ⟨t, ht, rfl⟩ := exists_of_map_fst (f := Value.number) h
    rw [Value.weight]
    exact Nat.le_of_eq ((size_append _ _).symm.trans (congrArg size (append_of_readNumber ht)))

section Steps

variable {fuel : Nat}

/-- The items that fuel `fuel` reads weigh no more than what is taken off the text. -/
def ItemsBound (fuel : Nat) : Prop :=
  ∀ {text vs rest}, readItems fuel text = some (vs, rest) → itemsWeight vs + size rest ≤ size text

def MembersBound (fuel : Nat) : Prop :=
  ∀ {text ms rest}, readMembers fuel text = some (ms, rest) →
    membersWeight ms + size rest ≤ size text

def ValueBound (fuel : Nat) : Prop :=
  ∀ {text v rest}, readValue fuel text = some (v, rest) → v.weight + size rest ≤ size text

theorem valueBound_succ (hitems : ItemsBound fuel) (hmembers : MembersBound fuel) :
    ValueBound (fuel + 1) := by
  intro text v rest h
  cases text with
  | nil =>
    rw [readValue] at h
    cases h
  | cons c text =>
    rw [readValue] at h
    have hc := c.utf8Size_pos
    have hskip := size_skipSpace_le text
    rw [size_cons]
    split_ifs at h with hquote hbracket hbrace
    · obtain ⟨s, hs, rfl⟩ := exists_of_map_fst (f := Value.string) h
      have hstring := textCost_le_of_readChars hs
      rw [Value.weight]
      omega
    · split at h
      · rename_i htext
        obtain ⟨rfl, rfl⟩ := Prod.mk.inj (Option.some.inj h)
        have hclose := size_of_skipSpace_cons htext
        rw [Value.weight, itemsWeight]
        omega
      · obtain ⟨vs, hvs, rfl⟩ := exists_of_map_fst (f := Value.array) h
        have hrest := hitems hvs
        rw [Value.weight]
        omega
    · split at h
      · rename_i htext
        obtain ⟨rfl, rfl⟩ := Prod.mk.inj (Option.some.inj h)
        have hclose := size_of_skipSpace_cons htext
        rw [Value.weight, membersWeight]
        omega
      · obtain ⟨ms, hms, rfl⟩ := exists_of_map_fst (f := Value.object) h
        have hrest := hmembers hms
        rw [Value.weight]
        omega
    · exact weight_le_of_readAtom h

theorem itemsBound_succ (hvalue : ValueBound fuel) (hitems : ItemsBound fuel) :
    ItemsBound (fuel + 1) := by
  intro text vs rest h
  rw [readItems] at h
  simp only [Option.bind_eq_bind, Option.bind_eq_some_iff, Prod.exists] at h
  obtain ⟨v, text₁, hv, h⟩ := h
  have hfirst := hvalue hv
  split at h
  · rename_i text₂ htext
    simp only [Option.bind_eq_some_iff, Prod.exists, Option.some.injEq, Prod.mk.injEq] at h
    obtain ⟨vs', rest', hvs, rfl, rfl⟩ := h
    have hcomma := size_of_skipSpace_cons htext
    have hskip := size_skipSpace_le text₂
    have hrest := hitems hvs
    rw [itemsWeight]
    omega
  · rename_i text₂ htext
    obtain ⟨rfl, rfl⟩ := Prod.mk.inj (Option.some.inj h)
    have hclose := size_of_skipSpace_cons htext
    rw [itemsWeight, itemsWeight]
    omega
  · cases h

theorem membersBound_succ (hvalue : ValueBound fuel) (hmembers : MembersBound fuel) :
    MembersBound (fuel + 1) := by
  intro text ms rest h
  rw [readMembers.eq_def] at h
  split at h
  · rename_i fuel' text' hfuel
    obtain rfl := Nat.succ.inj hfuel
    simp only [Option.bind_eq_bind, Option.bind_eq_some_iff, Prod.exists] at h
    obtain ⟨k, text₁, hk, h⟩ := h
    have hkey := textCost_le_of_readChars hk
    have hquote : size ('"' :: text') = 1 + size text' := rfl
    split at h
    · rename_i text₂ htext₂
      simp only [Option.bind_eq_some_iff, Prod.exists] at h
      obtain ⟨v, text₃, hv, h⟩ := h
      have hcolon := size_of_skipSpace_cons htext₂
      have hskip := size_skipSpace_le text₂
      have hfirst := hvalue hv
      split at h
      · rename_i text₄ htext₄
        simp only [Option.bind_eq_some_iff, Prod.exists, Option.some.injEq, Prod.mk.injEq] at h
        obtain ⟨ms', rest', hms, rfl, rfl⟩ := h
        have hcomma := size_of_skipSpace_cons htext₄
        have hskip' := size_skipSpace_le text₄
        have hrest := hmembers hms
        rw [membersWeight]
        omega
      · rename_i text₄ htext₄
        obtain ⟨rfl, rfl⟩ := Prod.mk.inj (Option.some.inj h)
        have hclose := size_of_skipSpace_cons htext₄
        rw [membersWeight, membersWeight]
        omega
      · cases h
    · cases h
  · cases h

/-- What each of the readers takes off the text is at least the weight of what it returns. -/
theorem bounds (fuel : Nat) : ValueBound fuel ∧ ItemsBound fuel ∧ MembersBound fuel := by
  induction fuel with
  | zero =>
    refine ⟨?_, ?_, ?_⟩
    · intro text v rest h
      rw [readValue] at h
      cases h
    · intro text vs rest h
      rw [readItems] at h
      cases h
    · intro text ms rest h
      rw [readMembers.eq_def] at h
      cases h
  | succ fuel ih =>
    obtain ⟨hvalue, hitems, hmembers⟩ := ih
    exact ⟨valueBound_succ hitems hmembers, itemsBound_succ hvalue hitems,
      membersBound_succ hvalue hmembers⟩

end Steps

theorem membersWeight_ge_of_mem {ms : List (List Char × Value)} {k : List Char} {v : Value}
    (h : (k, v) ∈ ms) : textCost k + v.weight + 4 ≤ membersWeight ms := by
  induction ms with
  | nil => cases h
  | cons m ms ih =>
    obtain ⟨k', v'⟩ := m
    rw [membersWeight]
    rcases List.mem_cons.mp h with heq | h
    · obtain ⟨rfl, rfl⟩ := Prod.mk.inj heq
      omega
    · have hrest := ih h
      omega

/-- Two members of different names weigh what they weigh together. -/
theorem membersWeight_ge_of_mem_of_mem {ms : List (List Char × Value)} {k k' : List Char}
    {v v' : Value} (hk : k ≠ k') (h : (k, v) ∈ ms) (h' : (k', v') ∈ ms) :
    textCost k + v.weight + 4 + (textCost k' + v'.weight + 4) ≤ membersWeight ms := by
  induction ms with
  | nil => cases h
  | cons m ms ih =>
    obtain ⟨l, w⟩ := m
    rw [membersWeight]
    rcases List.mem_cons.mp h with heq | hms
    · obtain ⟨rfl, rfl⟩ := Prod.mk.inj heq
      rcases List.mem_cons.mp h' with heq' | hms'
      · exact absurd (Prod.mk.inj heq').1.symm hk
      · have hrest := membersWeight_ge_of_mem hms'
        omega
    · rcases List.mem_cons.mp h' with heq' | hms'
      · obtain ⟨rfl, rfl⟩ := Prod.mk.inj heq'
        have hrest := membersWeight_ge_of_mem hms
        omega
      · have hrest := ih hms hms'
        omega

/-! ### Members without escapes -/

theorem readChars_plain {s : List Char} (hs : ∀ c ∈ s, isPlain c) (rest : List Char) {fuel : Nat}
    (hfuel : s.length < fuel) : readChars fuel (s ++ '"' :: rest) = some (s, rest) := by
  induction s generalizing fuel with
  | nil =>
    obtain ⟨n, rfl⟩ := Nat.exists_eq_succ_of_ne_zero (Nat.ne_of_gt hfuel)
    rfl
  | cons c s ih =>
    obtain ⟨n, rfl⟩ := Nat.exists_eq_succ_of_ne_zero (Nat.ne_of_gt (Nat.zero_lt_of_lt hfuel))
    have hc := hs c (List.mem_cons_self ..)
    have hne : c ≠ '"' ∧ c ≠ '\\' := by
      simp only [isPlain, Bool.and_eq_true, bne_iff_ne] at hc
      exact hc.1
    rw [List.cons_append, readChars, if_neg hne.1, if_neg hne.2, if_pos hc,
      ih (fun d hd => hs d (List.mem_cons_of_mem _ hd)) (Nat.lt_of_succ_lt_succ hfuel)]
    rfl

theorem readString_plain {s : List Char} (hs : ∀ c ∈ s, isPlain c) (rest : List Char) :
    readString (s ++ '"' :: rest) = some (s, rest) := by
  refine readChars_plain hs rest ?_
  rw [List.length_append, List.length_cons]
  omega

/-- A member whose value is a string, with both as they are. -/
def member (k v : List Char) : List Char := '"' :: (k ++ '"' :: ':' :: '"' :: (v ++ ['"']))

theorem size_member (k v : List Char) : size (member k v) = size k + size v + 5 := by
  simp only [member, size_cons, size_append, size_nil, show '"'.utf8Size = 1 from rfl,
    show ':'.utf8Size = 1 from rfl]
  omega

theorem isAscii_member {k v : List Char} (hk : IsAscii k) (hv : IsAscii v) :
    IsAscii (member k v) := by
  simp only [member, isAscii_cons, isAscii_append]
  exact ⟨rfl, hk, rfl, rfl, rfl, hv, rfl, isAscii_nil⟩

/-- No control character comes in with the quotes and the colon. -/
theorem le_toNat_of_mem_member {k v : List Char} (hk : ∀ c ∈ k, isPlain c)
    (hv : ∀ c ∈ v, isPlain c) : ∀ c ∈ member k v, 0x20 ≤ c.toNat := by
  have hplain : ∀ c, isPlain c → 0x20 ≤ c.toNat := by
    intro c hc
    rw [isPlain, Bool.and_eq_true, decide_eq_true_eq] at hc
    exact hc.2
  simp only [member, List.forall_mem_cons, List.forall_mem_append]
  exact ⟨by decide, fun c hc => hplain c (hk c hc), by decide, by decide, by decide,
    fun c hc => hplain c (hv c hc), by decide, fun _ hc => absurd hc List.not_mem_nil⟩

variable {k v : List Char}

/-- The name of a member is read as it is. -/
theorem readMembers_member (hk : ∀ c ∈ k, isPlain c) (rest : List Char) (fuel : Nat) :
    readMembers (fuel + 1) (member k v ++ rest) = (do
      let (v, text) ← readValue fuel ('"' :: (v ++ '"' :: rest))
      match skipSpace text with
      | ',' :: text => do
        let (ms, text) ← readMembers fuel (skipSpace text)
        some ((k, v) :: ms, text)
      | '\x7d' :: text => some ([(k, v)], text)
      | _ => none) := by
  rw [member, List.cons_append, List.append_assoc, readMembers, List.cons_append,
    List.cons_append, List.cons_append, List.append_assoc, readString_plain hk]
  rfl

theorem readValue_plain (hv : ∀ c ∈ v, isPlain c) (rest : List Char) (fuel : Nat) :
    readValue (fuel + 1) ('"' :: (v ++ '"' :: rest)) = some (.string v, rest) := by
  rw [readValue, if_pos rfl, readString_plain hv]
  rfl

/-- A member is no blank. -/
@[simp] theorem skipSpace_member (k v rest : List Char) :
    skipSpace (member k v ++ rest) = member k v ++ rest := rfl

theorem readMembers_member_comma (hk : ∀ c ∈ k, isPlain c) (hv : ∀ c ∈ v, isPlain c)
    {rest : List Char} (hrest : skipSpace rest = rest) (fuel : Nat) :
    readMembers (fuel + 2) (member k v ++ ',' :: rest) =
      (readMembers (fuel + 1) rest).map fun p => ((k, .string v) :: p.1, p.2) := by
  rw [readMembers_member hk, readValue_plain hv]
  show (readMembers (fuel + 1) (skipSpace rest) >>= _) = _
  rw [hrest]
  cases readMembers (fuel + 1) rest <;> rfl

theorem readMembers_member_close (hk : ∀ c ∈ k, isPlain c) (hv : ∀ c ∈ v, isPlain c)
    (rest : List Char) (fuel : Nat) :
    readMembers (fuel + 2) (member k v ++ '\x7d' :: rest) = some ([(k, .string v)], rest) := by
  rw [readMembers_member hk, readValue_plain hv]
  rfl

/-- What stands before the first comma is read as it is, whatever follows. -/
theorem exists_of_readMembers_member (hk : ∀ c ∈ k, isPlain c) (hv : ∀ c ∈ v, isPlain c)
    {rest out : List Char} (hrest : skipSpace rest = rest) {ms : List (List Char × Value)}
    {fuel : Nat} (h : readMembers fuel (member k v ++ ',' :: rest) = some (ms, out)) :
    ∃ fuel' ms', ms = (k, .string v) :: ms' ∧ readMembers fuel' rest = some (ms', out) := by
  match fuel with
  | 0 =>
    rw [readMembers.eq_def] at h
    cases h
  | 1 =>
    rw [readMembers_member hk, readValue] at h
    cases h
  | fuel + 2 =>
    rw [readMembers_member_comma hk hv hrest] at h
    obtain ⟨ms', hms, rfl⟩ := exists_of_map_fst (f := ((k, Value.string v) :: ·)) h
    exact ⟨fuel + 1, ms', rfl, hms⟩

/-- After an opening brace, a member is no closing one. -/
theorem readValue_object (rest : List Char) (fuel : Nat) :
    readValue (fuel + 1) ('\x7b' :: (member k v ++ rest)) =
      (readMembers fuel (member k v ++ rest)).map fun p => (.object p.1, p.2) := by
  rw [readValue]
  rfl

/-- The members of an object are those its text has after the opening brace. -/
theorem exists_of_denotes_object {rest : List Char} {ms : List (List Char × Value)}
    (h : Denotes ('\x7b' :: (member k v ++ rest)) (.object ms)) :
    ∃ fuel out, readMembers fuel (member k v ++ rest) = some (ms, out) := by
  obtain ⟨fuel, h⟩ := h
  simp only [read, Option.bind_eq_bind, Option.bind_eq_some_iff, Prod.exists] at h
  obtain ⟨w, out, hread, h⟩ := h
  split_ifs at h
  obtain rfl := Option.some.inj h
  change readValue fuel ('\x7b' :: (member k v ++ rest)) = _ at hread
  match fuel with
  | 0 =>
    rw [readValue] at hread
    cases hread
  | fuel + 1 =>
    rw [readValue_object] at hread
    obtain ⟨ms', hms, heq⟩ := exists_of_map_fst (f := Value.object) hread
    obtain rfl := Value.object.inj heq
    exact ⟨fuel, out, hms⟩

/-- An object whose members are read to the end of the text is the value of the text. -/
theorem denotes_object {rest : List Char} {ms : List (List Char × Value)} {fuel : Nat}
    (h : readMembers fuel (member k v ++ rest) = some (ms, [])) :
    Denotes ('\x7b' :: (member k v ++ rest)) (.object ms) := by
  refine ⟨fuel + 1, ?_⟩
  show (readValue (fuel + 1) ('\x7b' :: (member k v ++ rest)) >>= _) = _
  rw [readValue_object, h]
  rfl

end Json
