import EncryptedSpaces.Encoding.Tuple

/-!
# Base64

The standard alphabet with canonical padding: quads only, at most two padding
characters and only at the end, and no stray bits below the padding.
-/

namespace EncryptedSpaces.Encoding

def base64Alphabet : List Char :=
  "ABCDEFGHIJKLMNOPQRSTUVWXYZabcdefghijklmnopqrstuvwxyz0123456789+/".toList

def base64Char (digit : Nat) : Char := base64Alphabet.getD digit '='

def base64Digit (c : Char) : Option Nat := base64Alphabet.idxOf? c

/-- Three bytes make four digits. -/
def encodeBase64Chars : Bytes → List Char
  | [] => []
  | [a] => [base64Char (a.toNat / 4), base64Char (a.toNat % 4 * 16), '=', '=']
  | [a, b] =>
    [ base64Char (a.toNat / 4), base64Char (a.toNat % 4 * 16 + b.toNat / 16),
      base64Char (b.toNat % 16 * 4), '=' ]
  | a :: b :: c :: rest =>
    base64Char (a.toNat / 4) :: base64Char (a.toNat % 4 * 16 + b.toNat / 16) ::
      base64Char (b.toNat % 16 * 4 + c.toNat / 64) :: base64Char (c.toNat % 64) ::
      encodeBase64Chars rest

/-- Four characters make three bytes, or fewer where the last quad is padded. -/
def decodeBase64Quad (last : Bool) (c₀ c₁ c₂ c₃ : Char) : Option Bytes := do
  let d₀ ← base64Digit c₀
  let d₁ ← base64Digit c₁
  let first := UInt8.ofNat (d₀ * 4 + d₁ / 16)
  if last = true ∧ c₃ = '=' then
    if c₂ = '=' then
      if d₁ % 16 = 0 then some [first] else none
    else
      let d₂ ← base64Digit c₂
      if d₂ % 4 = 0 then some [first, UInt8.ofNat (d₁ % 16 * 16 + d₂ / 4)] else none
  else
    let d₂ ← base64Digit c₂
    let d₃ ← base64Digit c₃
    some [first, UInt8.ofNat (d₁ % 16 * 16 + d₂ / 4), UInt8.ofNat (d₂ % 4 * 64 + d₃)]

def decodeBase64Chars : List Char → Option Bytes
  | [] => some []
  | c₀ :: c₁ :: c₂ :: c₃ :: rest => do
      let bytes ← decodeBase64Quad rest.isEmpty c₀ c₁ c₂ c₃
      let tail ← decodeBase64Chars rest
      some (bytes ++ tail)
  | _ => none

/-- `STANDARD.encode`. -/
def encodeBase64 (bytes : Bytes) : String := String.ofList (encodeBase64Chars bytes)

/-- `STANDARD.decode`. -/
def decodeBase64 (s : String) : Option Bytes := decodeBase64Chars s.toList

theorem base64Digit_base64Char : ∀ digit < 64, base64Digit (base64Char digit) = some digit := by
  decide +kernel

theorem base64Char_ne_pad : ∀ digit < 64, base64Char digit ≠ '=' := by
  decide +kernel

theorem byte_eq {n : Nat} {b : UInt8} (h : n = b.toNat) : UInt8.ofNat n = b := by
  rw [h, UInt8.ofNat_toNat]

theorem decodeBase64Chars_encodeBase64Chars (bytes : Bytes) :
    decodeBase64Chars (encodeBase64Chars bytes) = some bytes := by
  induction bytes using encodeBase64Chars.induct with
  | case1 => rfl
  | case2 a =>
    have ha := a.toNat_lt
    simp (disch := omega) only [encodeBase64Chars, decodeBase64Chars, decodeBase64Quad,
      base64Digit_base64Char, Option.bind_eq_bind, Option.bind_some, List.isEmpty_nil, and_self,
      if_true, Nat.mul_mod_left, List.append_nil]
    rw [byte_eq (b := a) (by omega)]
  | case3 a b =>
    have ha := a.toNat_lt
    have hb := b.toNat_lt
    simp (disch := omega) only [encodeBase64Chars, decodeBase64Chars, decodeBase64Quad,
      base64Digit_base64Char, base64Char_ne_pad, Option.bind_eq_bind, Option.bind_some,
      List.isEmpty_nil, and_self, if_true, if_false, Nat.mul_mod_left, List.append_nil]
    rw [byte_eq (b := a) (by omega), byte_eq (b := b) (by omega)]
  | case4 a b c rest ih =>
    have ha := a.toNat_lt
    have hb := b.toNat_lt
    have hc := c.toNat_lt
    simp (disch := omega) only [encodeBase64Chars, decodeBase64Chars, decodeBase64Quad,
      base64Digit_base64Char, base64Char_ne_pad, ih, Option.bind_eq_bind, Option.bind_some,
      and_false, if_false, List.cons_append, List.nil_append]
    rw [byte_eq (b := a) (by omega), byte_eq (b := b) (by omega), byte_eq (b := c) (by omega)]

@[simp] theorem decodeBase64_encodeBase64 (bytes : Bytes) :
    decodeBase64 (encodeBase64 bytes) = some bytes := by
  unfold decodeBase64 encodeBase64
  rw [String.toList_ofList]
  exact decodeBase64Chars_encodeBase64Chars bytes

end EncryptedSpaces.Encoding
