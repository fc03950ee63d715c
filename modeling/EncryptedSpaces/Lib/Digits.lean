import Mathlib.Data.Nat.Digits.Defs
import Mathlib.Data.List.Basic

/-!
# Fixed-width positional encodings

`digitsLE b len n` is the little-endian expansion of `n` in base `b`, cut or
padded to `len` digits; `Nat.ofDigits` reads it back.  Byte strings and field
limbs are both instances, and the two compose: a limb vector is a number below
`p ^ len`, and that number is a byte string.
-/

namespace EncryptedSpaces.Lib.Digits

open List

/-- The first `len` digits of `n` in base `b`, least significant first. -/
def digitsLE (b : Nat) : Nat → Nat → List Nat
  | 0, _ => []
  | len + 1, n => n % b :: digitsLE b len (n / b)

@[simp] theorem length_digitsLE (b len n : Nat) : (digitsLE b len n).length = len := by
  induction len generalizing n with
  | zero => rfl
  | succ len ih => rw [digitsLE, length_cons, ih]

variable {b len n : Nat}

theorem lt_of_mem_digitsLE (hb : 0 < b) {d : Nat} (h : d ∈ digitsLE b len n) : d < b := by
  induction len generalizing n with
  | zero => cases h
  | succ len ih =>
    rw [digitsLE, mem_cons] at h
    rcases h with rfl | h
    · exact Nat.mod_lt n hb
    · exact ih h

/-- Reading the digits back gives the number modulo the capacity. -/
theorem ofDigits_digitsLE (b len n : Nat) :
    Nat.ofDigits b (digitsLE b len n) = n % b ^ len := by
  induction len generalizing n with
  | zero => simp [digitsLE, Nat.mod_one]
  | succ len ih =>
    rw [digitsLE, Nat.ofDigits_cons, ih, Nat.pow_succ', Nat.mod_mul]

theorem ofDigits_digitsLE_of_lt (h : n < b ^ len) :
    Nat.ofDigits b (digitsLE b len n) = n := by
  rw [ofDigits_digitsLE, Nat.mod_eq_of_lt h]

theorem take_digitsLE {k : Nat} (h : k ≤ len) : (digitsLE b len n).take k = digitsLE b k n := by
  induction k generalizing len n with
  | zero => rfl
  | succ k ih =>
    cases len with
    | zero => omega
    | succ len => rw [digitsLE, take_succ_cons, ih (by omega), digitsLE]

/-- A list of proper digits is the expansion of the number it stands for. -/
theorem digitsLE_ofDigits (hb : 0 < b) :
    ∀ {l : List Nat}, (∀ d ∈ l, d < b) → digitsLE b l.length (Nat.ofDigits b l) = l := by
  intro l
  induction l with
  | nil => intro _; rfl
  | cons d l ih =>
    intro hLt
    have hd : d < b := hLt d (by simp)
    have hTail := ih fun d' h' => hLt d' (by simp [h'])
    rw [length_cons, digitsLE, Nat.ofDigits_cons, Nat.add_mul_mod_self_left,
      Nat.mod_eq_of_lt hd, Nat.add_mul_div_left _ _ hb, Nat.div_eq_of_lt hd, Nat.zero_add,
      hTail]

theorem ofDigits_lt {l : List Nat} (hb : 0 < b) (h : ∀ d ∈ l, d < b) :
    Nat.ofDigits b l < b ^ l.length := by
  have hEq := ofDigits_digitsLE b l.length (Nat.ofDigits b l)
  rw [digitsLE_ofDigits hb h] at hEq
  rw [hEq]
  exact Nat.mod_lt _ (Nat.pow_pos hb)

/-! ## Bytes -/

/-- `len` little-endian bytes. -/
def bytesLE (len n : Nat) : List UInt8 := (digitsLE 256 len n).map UInt8.ofNat

/-- The number a little-endian byte string stands for. -/
def ofBytesLE (bytes : List UInt8) : Nat := Nat.ofDigits 256 (bytes.map UInt8.toNat)

@[simp] theorem length_bytesLE (len n : Nat) : (bytesLE len n).length = len := by
  simp [bytesLE]

private theorem map_toNat_map_ofNat {l : List Nat} (h : ∀ d ∈ l, d < 256) :
    (l.map UInt8.ofNat).map UInt8.toNat = l := by
  induction l with
  | nil => rfl
  | cons d l ih =>
    have hd : d < 256 := h d (by simp)
    rw [map_cons, map_cons, ih fun d' h' => h d' (by simp [h']),
      UInt8.toNat_ofNat_of_lt' hd]

private theorem toNat_lt_of_mem {bytes : List UInt8} {d : Nat}
    (h : d ∈ bytes.map UInt8.toNat) : d < 256 := by
  obtain ⟨byte, _, rfl⟩ := mem_map.mp h
  exact byte.toNat_lt

theorem ofBytesLE_bytesLE_of_lt (h : n < 256 ^ len) :
    ofBytesLE (bytesLE len n) = n := by
  rw [ofBytesLE, bytesLE, map_toNat_map_ofNat fun d hd => lt_of_mem_digitsLE (by decide) hd,
    ofDigits_digitsLE_of_lt h]

theorem ofBytesLE_lt (bytes : List UInt8) : ofBytesLE bytes < 256 ^ bytes.length := by
  have h := ofDigits_lt (b := 256) (l := bytes.map UInt8.toNat) (by decide)
    fun d hd => toNat_lt_of_mem hd
  rwa [length_map] at h

theorem bytesLE_ofBytesLE (bytes : List UInt8) :
    bytesLE bytes.length (ofBytesLE bytes) = bytes := by
  have h := digitsLE_ofDigits (b := 256) (l := bytes.map UInt8.toNat) (by decide)
    fun d hd => toNat_lt_of_mem hd
  rw [length_map] at h
  rw [bytesLE, ofBytesLE, h, map_map]
  simp [Function.comp_def]

/-! ## Big-endian bytes -/

/-- `len` big-endian bytes. -/
def bytesBE (len n : Nat) : List UInt8 := (bytesLE len n).reverse

/-- The number a big-endian byte string stands for. -/
def ofBytesBE (bytes : List UInt8) : Nat := ofBytesLE bytes.reverse

@[simp] theorem length_bytesBE (len n : Nat) : (bytesBE len n).length = len := by
  simp [bytesBE]

theorem ofBytesBE_bytesBE_of_lt (h : n < 256 ^ len) :
    ofBytesBE (bytesBE len n) = n := by
  rw [ofBytesBE, bytesBE, reverse_reverse, ofBytesLE_bytesLE_of_lt h]

theorem ofBytesBE_lt (bytes : List UInt8) : ofBytesBE bytes < 256 ^ bytes.length := by
  have h := ofBytesLE_lt bytes.reverse
  rwa [length_reverse] at h

theorem bytesBE_ofBytesBE (bytes : List UInt8) :
    bytesBE bytes.length (ofBytesBE bytes) = bytes := by
  have h := bytesLE_ofBytesLE bytes.reverse
  rw [length_reverse] at h
  rw [bytesBE, ofBytesBE, h, reverse_reverse]

/-- The last bytes of a word are those of the number. -/
theorem drop_bytesBE {k : Nat} (h : k ≤ len) : (bytesBE len n).drop (len - k) = bytesBE k n := by
  rw [bytesBE, bytesBE, drop_reverse, length_bytesLE, show len - (len - k) = k by omega, bytesLE,
    bytesLE, ← map_take, take_digitsLE h]

theorem ofBytesBE_append (a c : List UInt8) :
    ofBytesBE (a ++ c) = ofBytesBE a * 256 ^ c.length + ofBytesBE c := by
  rw [ofBytesBE, ofBytesBE, ofBytesBE, reverse_append, ofBytesLE, map_append,
    Nat.ofDigits_append, length_map, length_reverse, ofBytesLE, ofBytesLE]
  ring

theorem ofBytesBE_cons (b : UInt8) (l : List UInt8) :
    ofBytesBE (b :: l) = b.toNat * 256 ^ l.length + ofBytesBE l := by
  have h := ofBytesBE_append [b] l
  simpa [ofBytesBE, ofBytesLE] using h

/-- The leading zero bytes of a nonzero number bound it from both sides. -/
theorem findIdx?_ne_zero {l : List UInt8} (h : ofBytesBE l ≠ 0) :
    ∃ i, l.findIdx? (· != 0) = some i ∧ i < l.length ∧
      256 ^ (l.length - 1 - i) ≤ ofBytesBE l ∧ ofBytesBE l < 256 ^ (l.length - i) := by
  induction l with
  | nil => exact absurd rfl h
  | cons b l ih =>
    have hLt := ofBytesBE_lt (b :: l)
    rw [ofBytesBE_cons] at h hLt ⊢
    rw [length_cons] at hLt ⊢
    by_cases hb : b = 0
    · subst hb
      rw [UInt8.toNat_zero, Nat.zero_mul, Nat.zero_add] at h ⊢
      obtain ⟨i, hFind, hi, hBounds⟩ := ih h
      refine ⟨i + 1, by simp [findIdx?_cons, hFind], by omega, ?_⟩
      rwa [show l.length + 1 - 1 - (i + 1) = l.length - 1 - i by omega, Nat.add_sub_add_right]
    · refine ⟨0, by simp [findIdx?_cons, hb], by omega, ?_, hLt⟩
      have hPos : 0 < b.toNat := Nat.pos_of_ne_zero fun h0 => hb (UInt8.toNat_inj.mp h0)
      have hMul := Nat.le_mul_of_pos_left (256 ^ l.length) hPos
      exact hMul.trans (Nat.le_add_right _ _)

/-- Only the number modulo the capacity matters. -/
theorem bytesBE_mod (len n : Nat) : bytesBE len (n % 256 ^ len) = bytesBE len n := by
  have h := digitsLE_ofDigits (b := 256) (by decide) (l := digitsLE 256 len n)
    fun d hd => lt_of_mem_digitsLE (by decide) hd
  rw [length_digitsLE, ofDigits_digitsLE] at h
  rw [bytesBE, bytesBE, bytesLE, bytesLE, h]

end EncryptedSpaces.Lib.Digits
