import EncryptedSpaces.Lib.Digits
import EncryptedSpaces.Lib.Except
import Mathlib.Tactic.IntervalCases

/-!
# Tuple encoding of storage keys

The subset of the FoundationDB tuple layer that the storage backend uses.
Strings and byte strings share a type code, so a decoded tuple never holds a
`string` element: `decodeTuple_encodeTuple` returns the tuple with its strings
read as bytes.

Machine integers are `Int`; every integer the source can hold satisfies `InI64`,
and the round trip is stated for those.  Floats are kept as their IEEE bit
patterns, which is all the encoding looks at.
-/

namespace EncryptedSpaces.Encoding

open Lib.Digits Lib.Except List

abbrev Bytes := List UInt8

instance lawfulBEqBytes : LawfulBEq Bytes := inferInstance

/-! ## Strings and bytes -/

/-- `str::as_bytes`. -/
def utf8 (s : String) : Bytes := s.toUTF8.data.toList

/-- `String::from_utf8`. -/
def fromUtf8 (bytes : Bytes) : Option String := String.fromUTF8? ⟨bytes.toArray⟩

variable {bytes rest : Bytes} {n : Nat} {i : Int}

theorem fromUtf8_eq_some_iff {s : String} :
    fromUtf8 bytes = some s ↔ utf8 s = bytes := by
  unfold fromUtf8 String.fromUTF8? utf8 String.toUTF8
  constructor
  · intro h
    split at h
    · cases h
      rfl
    · cases h
  · rintro rfl
    have hValid : ByteArray.IsValidUTF8 ⟨s.toByteArray.data.toList.toArray⟩ := s.isValidUTF8
    rw [dif_pos hValid]
    exact congrArg some (String.toByteArray_inj.mp rfl)

@[simp] theorem fromUtf8_utf8 (s : String) : fromUtf8 (utf8 s) = some s :=
  fromUtf8_eq_some_iff.mpr rfl

theorem utf8_injective {s t : String} (h : utf8 s = utf8 t) : s = t :=
  Option.some.inj (by rw [← fromUtf8_utf8 s, h, fromUtf8_utf8])

/-! ## Machine integers -/

/-- The range of `i64`. -/
def InI64 (i : Int) : Prop := -2 ^ 63 ≤ i ∧ i < 2 ^ 63

instance (i : Int) : Decidable (InI64 i) := inferInstanceAs (Decidable (_ ∧ _))

/-- The `i64` with the bit pattern of `n < 2 ^ 64`. -/
def toI64 (n : Nat) : Int := if n < 2 ^ 63 then n else n - 2 ^ 64

/-- The bit pattern of an `i64`. -/
def ofI64 (i : Int) : Nat := (i % 2 ^ 64).toNat

/-- `i64::to_be_bytes`. -/
def i64ToBeBytes (i : Int) : Bytes := bytesBE 8 (ofI64 i)

/-- `i64::from_be_bytes`. -/
def i64FromBeBytes (bytes : Bytes) : Int := toI64 (ofBytesBE bytes)

/-- `i64::checked_add`. -/
def checkedAdd (a b : Int) : Option Int := if InI64 (a + b) then some (a + b) else none

theorem checkedAdd_eq_some_iff {a b c : Int} :
    checkedAdd a b = some c ↔ c = a + b ∧ InI64 c := by
  unfold checkedAdd
  split
  · constructor
    · intro h
      cases h
      exact ⟨rfl, by assumption⟩
    · rintro ⟨rfl, _⟩
      rfl
  · constructor
    · intro h
      cases h
    · rintro ⟨rfl, h⟩
      contradiction

theorem inI64_toI64 (h : n < 2 ^ 64) : InI64 (toI64 n) := by
  unfold toI64 InI64
  split <;> omega

theorem toI64_ofI64 (h : InI64 i) : toI64 (ofI64 i) = i := by
  obtain ⟨hLow, hHigh⟩ := h
  unfold toI64 ofI64
  split <;> omega

theorem ofI64_lt (i : Int) : ofI64 i < 2 ^ 64 := by
  unfold ofI64
  omega

theorem i64FromBeBytes_i64ToBeBytes (h : InI64 i) :
    i64FromBeBytes (i64ToBeBytes i) = i := by
  rw [i64FromBeBytes, i64ToBeBytes, ofBytesBE_bytesBE_of_lt (ofI64_lt i), toI64_ofI64 h]

theorem inI64_i64FromBeBytes (h : bytes.length ≤ 8) :
    InI64 (i64FromBeBytes bytes) := by
  apply inI64_toI64
  calc ofBytesBE bytes < 256 ^ bytes.length := ofBytesBE_lt bytes
    _ ≤ 256 ^ 8 := Nat.pow_le_pow_right (by decide) h
    _ = 2 ^ 64 := by decide

/-! ## Elements -/

/-- A tuple element; floats are their bit patterns. -/
inductive TupleElement where
  | null
  | bytes (b : Bytes)
  | string (s : String)
  | int (i : Int)
  | float (bits : UInt32)
  | double (bits : UInt64)
  | bool (b : Bool)
  deriving DecidableEq, Repr

def nullCode : UInt8 := 0x00
def bytesCode : UInt8 := 0x01
def intZeroCode : UInt8 := 0x14
def posIntEnd : UInt8 := 0x1c
def negIntStart : UInt8 := 0x0c
def floatCode : UInt8 := 0x20
def doubleCode : UInt8 := 0x21
def boolFalseCode : UInt8 := 0x26
def boolTrueCode : UInt8 := 0x27

/-- Bytes with every `0x00` written as `0x00 0xFF`. -/
def encodeBytesValue : Bytes → Bytes
  | [] => []
  | b :: rest => if b = 0x00 then b :: 0xFF :: encodeBytesValue rest else b :: encodeBytesValue rest

/-- Number of significant bytes of a big-endian 8-byte word. -/
def significantBytes (word : Bytes) : Nat := 8 - (word.findIdx? (· != 0)).getD 7

/-- Variable-length integers; the two signs use complementary bytes. -/
def encodeInt (value : Int) : Bytes :=
  if value = 0 then [intZeroCode]
  else
    let absBytes := bytesBE 8 value.natAbs
    let n := significantBytes absBytes
    if 0 < value then
      (intZeroCode + UInt8.ofNat n) :: absBytes.drop (8 - n)
    else
      (intZeroCode - UInt8.ofNat n) :: (bytesBE 8 (2 ^ 64 - 1 - value.natAbs)).drop (8 - n)

/-- Sort-preserving transformation of IEEE bytes, and its inverse. -/
def adjustFloatBytes (bytes : Bytes) (encode : Bool) : Bytes :=
  match bytes with
  | [] => []
  | first :: rest =>
    if (encode && first &&& 0x80 != 0) || (!encode && first &&& 0x80 == 0) then
      (first :: rest).map (· ^^^ 0xFF)
    else
      (first ^^^ 0x80) :: rest

def encodeElement : TupleElement → Bytes
  | .null => [nullCode]
  | .bytes b => bytesCode :: encodeBytesValue b ++ [0x00]
  | .string s => bytesCode :: encodeBytesValue (utf8 s) ++ [0x00]
  | .int i => encodeInt i
  | .float bits => floatCode :: adjustFloatBytes (bytesBE 4 bits.toNat) true
  | .double bits => doubleCode :: adjustFloatBytes (bytesBE 8 bits.toNat) true
  | .bool b => [if b then boolTrueCode else boolFalseCode]

/-- `encode_tuple`: the elements one after the other. -/
def encodeTuple (elements : List TupleElement) : Bytes := elements.flatMap encodeElement

@[simp] theorem encodeTuple_nil : encodeTuple [] = [] := rfl

@[simp] theorem encodeTuple_cons (e : TupleElement) (es : List TupleElement) :
    encodeTuple (e :: es) = encodeElement e ++ encodeTuple es := rfl

/-! ## Decoding -/

inductive DecodeError where
  | unexpectedEnd
  | unknownTypeCode (code : UInt8)
  | unterminatedString
  deriving DecidableEq, Repr

private def hexDigit (n : Nat) : Char := "0123456789abcdef".toList.getD n '?'

/-- The `Display` text of a decode error. -/
def DecodeError.text : DecodeError → String
  | .unexpectedEnd => "Unexpected end of input"
  | .unknownTypeCode code =>
    "Unknown type code: 0x" ++ String.ofList
      [hexDigit (code.toNat / 16), hexDigit (code.toNat % 16)]
  | .unterminatedString => "Unterminated string"

/-- The unescaped bytes up to the terminator, and what follows it. -/
def decodeBytesValue : Bytes → Except DecodeError (Bytes × Bytes)
  | [] => .error .unterminatedString
  | [b] => if b = 0x00 then .ok ([], []) else .error .unterminatedString
  | b :: c :: rest =>
    if b = 0x00 then
      if c = 0xFF then
        (decodeBytesValue rest).map fun (data, tail) => (0x00 :: data, tail)
      else
        .ok ([], c :: rest)
    else
      (decodeBytesValue (c :: rest)).map fun (data, tail) => (b :: data, tail)

/-- The `n` bytes of an integer payload, left-padded to a word. -/
def paddedWord (pad : UInt8) (payload : Bytes) : Bytes :=
  List.replicate (8 - payload.length) pad ++ payload

/-- One element and the bytes after it. -/
def decodeElement : Bytes → Except DecodeError (TupleElement × Bytes)
  | [] => .error .unexpectedEnd
  | code :: rest =>
    if code = nullCode then .ok (.null, rest)
    else if code = bytesCode then
      (decodeBytesValue rest).map fun (data, tail) => (.bytes data, tail)
    else if code = intZeroCode then .ok (.int 0, rest)
    else if intZeroCode < code ∧ code ≤ posIntEnd then
      let n := (code - intZeroCode).toNat
      if rest.length < n then .error .unexpectedEnd
      else .ok (.int (i64FromBeBytes (paddedWord 0x00 (rest.take n))), rest.drop n)
    else if negIntStart ≤ code ∧ code < intZeroCode then
      let n := (intZeroCode - code).toNat
      if rest.length < n then .error .unexpectedEnd
      else
        let absVal := 2 ^ 64 - 1 - ofBytesBE (paddedWord 0xFF (rest.take n))
        let value := if absVal = 2 ^ 63 then -2 ^ 63 else -(toI64 absVal)
        .ok (.int value, rest.drop n)
    else if code = floatCode then
      if rest.length < 4 then .error .unexpectedEnd
      else
        let bits := ofBytesBE (adjustFloatBytes (rest.take 4) false)
        .ok (.float (UInt32.ofNat bits), rest.drop 4)
    else if code = doubleCode then
      if rest.length < 8 then .error .unexpectedEnd
      else
        let bits := ofBytesBE (adjustFloatBytes (rest.take 8) false)
        .ok (.double (UInt64.ofNat bits), rest.drop 8)
    else if code = boolFalseCode then .ok (.bool false, rest)
    else if code = boolTrueCode then .ok (.bool true, rest)
    else .error (.unknownTypeCode code)

/-- The element loop; every element consumes a byte, so the input's length is
enough fuel. -/
def decodeElements : Nat → Bytes → Except DecodeError (List TupleElement)
  | 0, [] => .ok []
  | 0, _ :: _ => .error .unexpectedEnd
  | _ + 1, [] => .ok []
  | fuel + 1, b :: bytes => do
      let (element, rest) ← decodeElement (b :: bytes)
      let elements ← decodeElements fuel rest
      return element :: elements

/-- `decode_tuple`. -/
def decodeTuple (bytes : Bytes) : Except DecodeError (List TupleElement) :=
  decodeElements bytes.length bytes

/-! ## What the decoder accepts -/

/-- What decoding returns for an element: strings come back as bytes. -/
def TupleElement.decoded : TupleElement → TupleElement
  | .string s => .bytes (utf8 s)
  | e => e

@[simp] theorem decoded_string (s : String) :
    (TupleElement.string s).decoded = .bytes (utf8 s) := rfl

@[simp] theorem decoded_int (i : Int) : (TupleElement.int i).decoded = .int i := rfl

/-- Elements a source value can hold: integers are `i64`. -/
def TupleElement.Encodable : TupleElement → Prop
  | .int i => InI64 i
  | _ => True

/-- Statements about one byte are checked on all 256 of them. -/
theorem forall_byte {P : UInt8 → Prop} (h : ∀ v : BitVec 8, P ⟨v⟩) (b : UInt8) : P b :=
  h b.toBitVec

/-- The `i64` of a sign and a magnitude. -/
def signed (neg : Bool) (magnitude : Nat) : Int :=
  if neg then if magnitude = 2 ^ 63 then -2 ^ 63 else -(toI64 magnitude) else toI64 magnitude

/-- The type code of an integer with `n` bytes. -/
def intCode (neg : Bool) (n : Nat) : UInt8 :=
  if neg then intZeroCode - UInt8.ofNat n else intZeroCode + UInt8.ofNat n

/-- The digits of a negative integer are complemented. -/
def flipped (neg : Bool) (n magnitude : Nat) : Nat :=
  if neg then 256 ^ n - 1 - magnitude else magnitude

section Signs

variable {neg : Bool} {m : Nat}

theorem inI64_signed (h : m < 2 ^ 64) : InI64 (signed neg m) := by
  unfold signed toI64 InI64
  split_ifs <;> omega

theorem signed_natAbs (h : InI64 i) : signed (i < 0) i.natAbs = i := by
  obtain ⟨hLow, hHigh⟩ := h
  unfold signed toI64
  by_cases hNeg : i < 0 <;> simp only [hNeg, decide_true, decide_false, if_true, Bool.false_eq_true,
    if_false] <;> split_ifs <;> omega

theorem flipped_lt (h : m < 256 ^ n) : flipped neg n m < 256 ^ n := by
  unfold flipped
  split <;> omega

theorem flipped_flipped (h : m < 256 ^ n) : flipped neg n (flipped neg n m) = m := by
  unfold flipped
  split <;> omega

end Signs

/-- The value decoder accepts the escaped bytes with their terminator, and
nothing else. -/
theorem decodeBytesValue_eq_ok_iff {data : Bytes} : decodeBytesValue bytes = .ok (data, rest) ↔
    bytes = encodeBytesValue data ++ 0x00 :: rest ∧ rest.head? ≠ some 0xFF := by
  constructor
  · intro h
    fun_induction decodeBytesValue bytes generalizing data rest with
    | case1 => cases h
    | case2 =>
      cases h
      exact ⟨rfl, by simp⟩
    | case3 => cases h
    | case4 bytes ih =>
      obtain ⟨⟨data', rest'⟩, hRest, hEq⟩ := map_eq_ok.mp h
      cases hEq
      rw [(ih hRest).1]
      exact ⟨rfl, (ih hRest).2⟩
    | case5 c bytes hc =>
      cases h
      exact ⟨rfl, by simpa using hc⟩
    | case6 b c bytes hb ih =>
      obtain ⟨⟨data', rest'⟩, hRest, hEq⟩ := map_eq_ok.mp h
      cases hEq
      rw [(ih hRest).1, encodeBytesValue, if_neg hb]
      exact ⟨rfl, (ih hRest).2⟩
  · rintro ⟨rfl, hRest⟩
    induction data with
    | nil =>
      cases rest with
      | nil => rfl
      | cons c rest =>
        have hc : c ≠ 0xFF := by simpa using hRest
        simp [encodeBytesValue, decodeBytesValue, hc]
    | cons b data ih =>
      by_cases hb : b = 0x00
      · subst hb
        simp [encodeBytesValue, decodeBytesValue, ih, Except.map]
      · -- the byte after `b` exists, since the terminator is still to come
        obtain ⟨c, tail, hTail⟩ : ∃ c tail, encodeBytesValue data ++ 0x00 :: rest = c :: tail := by
          cases encodeBytesValue data <;> simp
        rw [encodeBytesValue, if_neg hb, cons_append, hTail, decodeBytesValue, if_neg hb,
          ← hTail, ih]
        rfl

/-- The two directions of the transformation undo each other. -/
theorem adjustFloatBytes_adjustFloatBytes (bytes : Bytes) (encode : Bool) :
    adjustFloatBytes (adjustFloatBytes bytes encode) (!encode) = bytes := by
  cases bytes with
  | nil => rfl
  | cons first rest =>
    have hAll : ∀ b : UInt8, b ^^^ 0xFF ^^^ 0xFF = b := forall_byte (by decide)
    have hSign : ∀ b : UInt8, b ^^^ 0x80 ^^^ 0x80 = b := forall_byte (by decide)
    have hFlip : ∀ b : UInt8, ((b ^^^ 0xFF) &&& 0x80 = 0 ↔ b &&& 0x80 ≠ 0) ∧
        ((b ^^^ 0x80) &&& 0x80 = 0 ↔ b &&& 0x80 ≠ 0) := forall_byte (by decide)
    cases encode <;> by_cases h : first &&& 0x80 = 0 <;>
      simp [adjustFloatBytes, h, hFlip, hSign, hAll, Function.comp_def]

theorem length_adjustFloatBytes (bytes : Bytes) (encode : Bool) :
    (adjustFloatBytes bytes encode).length = bytes.length := by
  cases bytes with
  | nil => rfl
  | cons first rest =>
    simp only [adjustFloatBytes]
    split <;> simp

variable {e : TupleElement} {payload : Bytes}

/-- One element at the front of some bytes, and the bytes after it.  Only the
integers have other forms than the one the encoder writes. -/
inductive Decodes : Bytes → TupleElement → Bytes → Prop where
  | null {rest : Bytes} : Decodes (encodeElement .null ++ rest) .null rest
  | bytes {rest : Bytes} (data : Bytes) (h : rest.head? ≠ some 0xFF) :
      Decodes (encodeElement (.bytes data) ++ rest) (.bytes data) rest
  | zero {rest : Bytes} : Decodes (encodeElement (.int 0) ++ rest) (.int 0) rest
  | int {neg : Bool} {n : Nat} {payload rest : Bytes} (hn : 1 ≤ n ∧ n ≤ 8)
      (hLen : payload.length = n) : Decodes (intCode neg n :: payload ++ rest)
        (.int (signed neg (flipped neg n (ofBytesBE payload)))) rest
  | float {rest : Bytes} (bits : UInt32) :
      Decodes (encodeElement (.float bits) ++ rest) (.float bits) rest
  | double {rest : Bytes} (bits : UInt64) :
      Decodes (encodeElement (.double bits) ++ rest) (.double bits) rest
  | bool {rest : Bytes} (b : Bool) : Decodes (encodeElement (.bool b) ++ rest) (.bool b) rest

/-- The type codes of integers, and what the decoder makes of them. -/
theorem intCode_spec : ∀ (neg : Bool) (n : Nat), n < 9 → 1 ≤ n →
    let code := intCode neg n
    code ≠ nullCode ∧ code ≠ bytesCode ∧ code ≠ intZeroCode ∧
      (intZeroCode < code ∧ code ≤ posIntEnd ↔ neg = false) ∧
      (negIntStart ≤ code ∧ code < intZeroCode ↔ neg = true) ∧
      (if neg then intZeroCode - code else code - intZeroCode).toNat = n := by
  decide

theorem intCode_cases : ∀ code : UInt8,
    (intZeroCode < code ∧ code ≤ posIntEnd →
      let n := (code - intZeroCode).toNat
      (1 ≤ n ∧ n ≤ 8) ∧ code = intCode false n) ∧
    (negIntStart ≤ code ∧ code < intZeroCode →
      let n := (intZeroCode - code).toNat
      (1 ≤ n ∧ n ≤ 8) ∧ code = intCode true n) :=
  forall_byte (by decide)

theorem ofBytesBE_paddedWord (pad : UInt8) (payload : Bytes) :
    ofBytesBE (paddedWord pad payload) =
      ofBytesBE (List.replicate (8 - payload.length) pad) * 256 ^ payload.length +
        ofBytesBE payload := ofBytesBE_append _ _

theorem i64FromBeBytes_paddedWord (hn : n ≤ 8) (hLen : payload.length = n) :
    i64FromBeBytes (paddedWord 0x00 payload) = toI64 (ofBytesBE payload) := by
  have hZero : ofBytesBE (replicate (8 - n) 0x00) = 0 := by
    interval_cases n <;> decide
  rw [i64FromBeBytes, ofBytesBE_paddedWord, hLen, hZero, Nat.zero_mul, Nat.zero_add]

theorem complement_paddedWord (hn : n ≤ 8) (hLen : payload.length = n) :
    2 ^ 64 - 1 - ofBytesBE (paddedWord 0xFF payload) = 256 ^ n - 1 - ofBytesBE payload := by
  have hOnes : ofBytesBE (replicate (8 - n) 0xFF) = 256 ^ (8 - n) - 1 := by
    interval_cases n <;> decide
  rw [ofBytesBE_paddedWord, hLen, hOnes]
  interval_cases n <;> omega

/-- Any bytes of the right number are those of a float. -/
theorem exists_floatBits (payload : Bytes) : ∃ m < 256 ^ payload.length,
    adjustFloatBytes (bytesBE payload.length m) true = payload := by
  have hLen := length_adjustFloatBytes payload false
  refine ⟨_, hLen ▸ ofBytesBE_lt (adjustFloatBytes payload false), ?_⟩
  have hBytes := bytesBE_ofBytesBE (adjustFloatBytes payload false)
  rw [hLen] at hBytes
  rw [hBytes]
  exact adjustFloatBytes_adjustFloatBytes payload false

theorem Decodes.decodeElement_eq (h : Decodes bytes e rest) :
    decodeElement bytes = .ok (e, rest) := by
  cases h with
  | null | zero => rfl
  | bytes data h =>
    have hData :=
      decodeBytesValue_eq_ok_iff.mpr ⟨Eq.refl (encodeBytesValue data ++ 0x00 :: rest), h⟩
    simp [encodeElement, decodeElement, bytesCode, nullCode, hData, Except.map]
  | @int neg n payload _ hn hLen =>
    obtain ⟨h1, h2, h3, h4, h5, h6⟩ := intCode_spec neg n (by omega) hn.1
    have hShort : ¬ n + rest.length < n := by omega
    cases neg
    · rw [if_neg (by decide)] at h6
      simp [decodeElement, h1, h2, h3, h4, h6, hLen, hShort, take_left' hLen,
        drop_left' hLen, i64FromBeBytes_paddedWord hn.2 hLen, signed, flipped]
    · rw [if_pos rfl] at h6
      rw [signed, flipped, if_pos rfl, if_pos rfl, ← complement_paddedWord hn.2 hLen]
      simp [decodeElement, h1, h2, h3, h4, h5, h6, hLen, hShort, take_left' hLen,
        drop_left' hLen]
  | float bits =>
    have hLen : (adjustFloatBytes (bytesBE 4 bits.toNat) true).length = 4 := by
      rw [length_adjustFloatBytes, length_bytesBE]
    have hBack : adjustFloatBytes (adjustFloatBytes (bytesBE 4 bits.toNat) true) false = _ :=
      adjustFloatBytes_adjustFloatBytes _ true
    have hBits : bits.toNat < 256 ^ 4 := bits.toNat_lt
    simp only [encodeElement, cons_append, decodeElement]
    simp [floatCode, nullCode, bytesCode, intZeroCode, posIntEnd, negIntStart, hLen,
      take_left' hLen, drop_left' hLen, hBack,
      ofBytesBE_bytesBE_of_lt hBits]
  | double bits =>
    have hLen : (adjustFloatBytes (bytesBE 8 bits.toNat) true).length = 8 := by
      rw [length_adjustFloatBytes, length_bytesBE]
    have hBack : adjustFloatBytes (adjustFloatBytes (bytesBE 8 bits.toNat) true) false = _ :=
      adjustFloatBytes_adjustFloatBytes _ true
    have hBits : bits.toNat < 256 ^ 8 := bits.toNat_lt
    simp only [encodeElement, cons_append, decodeElement]
    simp [doubleCode, floatCode, nullCode, bytesCode, intZeroCode, posIntEnd, negIntStart, hLen,
      take_left' hLen, drop_left' hLen, hBack,
      ofBytesBE_bytesBE_of_lt hBits]
  | bool b => cases b <;> rfl

/-- The decoder accepts these, and nothing else. -/
theorem decodeElement_eq_ok_iff : decodeElement bytes = .ok (e, rest) ↔ Decodes bytes e rest := by
  refine ⟨fun h => ?_, Decodes.decodeElement_eq⟩
  suffices hSome : ∃ e' rest', Decodes bytes e' rest' by
    obtain ⟨e', rest', hDec⟩ := hSome
    cases hDec.decodeElement_eq.symm.trans h
    exact hDec
  cases bytes with
  | nil => cases h
  | cons code tail =>
    have hTake : ∀ {n : Nat}, ¬ tail.length < n → (tail.take n).length = n := by
      intro n hLen
      rw [length_take]
      omega
    have hSplit (n : Nat) := take_append_drop n tail
    rw [decodeElement] at h
    by_cases hNull : code = nullCode
    · subst hNull
      exact ⟨_, _, .null⟩
    by_cases hBytes : code = bytesCode
    · subst hBytes
      obtain ⟨⟨data, tail'⟩, hData, _⟩ := map_eq_ok.mp h
      obtain ⟨rfl, hRest⟩ := decodeBytesValue_eq_ok_iff.mp hData
      have hDec := Decodes.bytes data hRest
      rw [encodeElement, append_assoc] at hDec
      exact ⟨_, _, hDec⟩
    by_cases hZero : code = intZeroCode
    · subst hZero
      exact ⟨_, _, .zero⟩
    rw [if_neg hNull, if_neg hBytes, if_neg hZero] at h
    split at h
    · obtain ⟨hn, hCode⟩ := (intCode_cases code).1 ‹_›
      dsimp only at h
      split at h
      · cases h
      rw [hCode, ← hSplit]
      exact ⟨_, _, .int hn (hTake ‹_›)⟩
    split at h
    · obtain ⟨hn, hCode⟩ := (intCode_cases code).2 ‹_›
      dsimp only at h
      split at h
      · cases h
      rw [hCode, ← hSplit]
      exact ⟨_, _, .int hn (hTake ‹_›)⟩
    split_ifs at h with hFloat hShort hDouble hShort hFalse hTrue
    · obtain ⟨m, hm, hBits⟩ := exists_floatBits (tail.take 4)
      have hDec := @Decodes.float (tail.drop 4) (.ofNat m)
      rw [hTake hShort] at hBits hm
      rw [encodeElement, UInt32.toNat_ofNat_of_lt' hm, hBits, cons_append, hSplit] at hDec
      exact ⟨_, _, hFloat ▸ hDec⟩
    · obtain ⟨m, hm, hBits⟩ := exists_floatBits (tail.take 8)
      have hDec := @Decodes.double (tail.drop 8) (.ofNat m)
      rw [hTake hShort] at hBits hm
      rw [encodeElement, UInt64.toNat_ofNat_of_lt' hm, hBits, cons_append, hSplit] at hDec
      exact ⟨_, _, hDouble ▸ hDec⟩
    · subst hFalse
      exact ⟨_, _, .bool false⟩
    · subst hTrue
      exact ⟨_, _, .bool true⟩

theorem Decodes.unique {e' : TupleElement} {rest' : Bytes} (h : Decodes bytes e rest)
    (h' : Decodes bytes e' rest') : e = e' ∧ rest = rest' := by
  have hEq := h.decodeElement_eq.symm.trans h'.decodeElement_eq
  rwa [Except.ok.injEq, Prod.mk.injEq] at hEq

/-- Every element takes at least one byte. -/
theorem Decodes.length_lt (h : Decodes bytes e rest) : rest.length < bytes.length := by
  cases h <;> simp +arith [encodeElement, encodeInt]

/-- Decoding never yields a `string` element. -/
theorem Decodes.decoded_eq (h : Decodes bytes e rest) : e.decoded = e := by
  cases h <;> rfl

/-- Decoded integers are `i64`. -/
theorem Decodes.encodable (h : Decodes bytes e rest) : e.Encodable := by
  cases h with
  | zero => exact (by decide : InI64 0)
  | int hn hLen =>
    have hPow := Nat.pow_le_pow_right (show 0 < 256 by decide) hn.2
    exact inI64_signed ((flipped_lt (hLen ▸ ofBytesBE_lt _)).trans_le hPow)
  | null | bytes | float | double | bool => trivial

variable {es : List TupleElement}

/-- Enough fuel is as good as any. -/
theorem decodeElements_fuel {fuel fuel' : Nat} (h : bytes.length ≤ fuel)
    (h' : bytes.length ≤ fuel') : decodeElements fuel bytes = decodeElements fuel' bytes := by
  induction fuel generalizing bytes fuel' with
  | zero =>
    obtain rfl := length_eq_zero_iff.mp (Nat.le_zero.mp h)
    cases fuel' <;> rfl
  | succ fuel ih =>
    cases bytes with
    | nil => cases fuel' <;> rfl
    | cons b bytes =>
      cases fuel' with
      | zero => simp at h'
      | succ fuel' =>
        rw [decodeElements, decodeElements]
        cases hDec : decodeElement (b :: bytes) with
        | error err => rfl
        | ok r =>
          have hLt := (decodeElement_eq_ok_iff.mp hDec).length_lt
          show (do let elements ← decodeElements fuel r.2; return r.1 :: elements) = _
          rw [ih (by omega) (show r.2.length ≤ fuel' by omega)]
          rfl

theorem decodeTuple_eq_nil : decodeTuple bytes = .ok [] ↔ bytes = [] := by
  constructor
  · intro h
    cases bytes with
    | nil => rfl
    | cons b bytes =>
      iterate 2 obtain ⟨_, _, h⟩ := bind_eq_ok.mp h
      cases h
  · rintro rfl
    rfl

/-- The first element of a decoded tuple is the one at the front of the bytes. -/
theorem decodeTuple_eq_cons : decodeTuple bytes = .ok (e :: es) ↔
    ∃ rest, Decodes bytes e rest ∧ decodeTuple rest = .ok es := by
  cases bytes with
  | nil =>
    constructor
    · intro h
      cases h
    · rintro ⟨_, hDec, _⟩
      cases hDec.length_lt
  | cons b bytes =>
    have hFuel : ∀ {e' rest}, Decodes (b :: bytes) e' rest →
        decodeElements bytes.length rest = decodeTuple rest :=
      fun hDec => decodeElements_fuel (Nat.le_of_lt_succ hDec.length_lt) le_rfl
    constructor
    · intro h
      obtain ⟨⟨e', rest⟩, hFirst, h⟩ := bind_eq_ok.mp h
      obtain ⟨es', hTail, hEq⟩ := bind_eq_ok.mp h
      cases hEq
      have hDec := decodeElement_eq_ok_iff.mp hFirst
      exact ⟨rest, hDec, hFuel hDec ▸ hTail⟩
    · rintro ⟨rest, hDec, hTail⟩
      exact bind_eq_ok.mpr ⟨_, hDec.decodeElement_eq,
        bind_eq_ok.mpr ⟨es, (hFuel hDec).trans hTail, rfl⟩⟩

/-- Decoded elements are values the source can hold, none of them a string. -/
theorem encodable_of_decodeTuple (h : decodeTuple bytes = .ok es) :
    ∀ e ∈ es, e.Encodable ∧ e.decoded = e := by
  induction es generalizing bytes with
  | nil => simp
  | cons e es ih =>
    obtain ⟨rest, hDec, hTail⟩ := decodeTuple_eq_cons.mp h
    exact forall_mem_cons.mpr ⟨⟨hDec.encodable, hDec.decoded_eq⟩, ih hTail⟩

/-! ## Round trip -/

/-- The word of a nonzero number has as many significant bytes as the number has
base-256 digits. -/
theorem significantBytes_spec {v : Nat} (h0 : v ≠ 0) (h : v < 2 ^ 64) :
    ∃ n, significantBytes (bytesBE 8 v) = n ∧ (1 ≤ n ∧ n ≤ 8) ∧
      256 ^ (n - 1) ≤ v ∧ v < 256 ^ n := by
  have hBack : ofBytesBE (bytesBE 8 v) = v := ofBytesBE_bytesBE_of_lt h
  obtain ⟨i, hFind, hi, hGe, hLt⟩ := findIdx?_ne_zero (hBack.trans_ne h0)
  rw [hBack, length_bytesBE] at hGe hLt
  rw [length_bytesBE] at hi
  refine ⟨8 - i, by rw [significantBytes, hFind, Option.getD_some], by omega, ?_, hLt⟩
  rwa [show 8 - i - 1 = 8 - 1 - i by omega]

theorem encodeInt_of_ne (h0 : i ≠ 0) (h : InI64 i) : ∃ n, (1 ≤ n ∧ n ≤ 8) ∧
    256 ^ (n - 1) ≤ i.natAbs ∧ i.natAbs < 256 ^ n ∧
      encodeInt i = intCode (i < 0) n :: bytesBE n (flipped (i < 0) n i.natAbs) := by
  obtain ⟨hLow, hHigh⟩ := h
  obtain ⟨n, hSig, hn, hGe, hLt⟩ := significantBytes_spec (v := i.natAbs) (by omega) (by omega)
  refine ⟨n, hn, hGe, hLt, ?_⟩
  rw [encodeInt, if_neg h0]
  dsimp only
  rw [hSig]
  by_cases hPos : 0 < i
  · simp [hPos, lt_asymm hPos, intCode, flipped, drop_bytesBE hn.2]
  · have hMod : (2 ^ 64 - 1 - i.natAbs) % 256 ^ n = 256 ^ n - 1 - i.natAbs := by
      obtain ⟨hOne, hEight⟩ := hn
      interval_cases n <;> omega
    have hNeg : i < 0 := by omega
    rw [if_neg hPos, drop_bytesBE hn.2, ← bytesBE_mod n, hMod]
    simp [hNeg, intCode, flipped]

theorem decodes_encodeInt (h : InI64 i) (rest : Bytes) :
    Decodes (encodeInt i ++ rest) (.int i) rest := by
  by_cases h0 : i = 0
  · subst h0
    exact .zero
  · obtain ⟨n, hn, _, hLt, hEnc⟩ := encodeInt_of_ne h0 h
    have hDec := @Decodes.int (i < 0) n _ rest hn (length_bytesBE n (flipped (i < 0) n i.natAbs))
    rw [ofBytesBE_bytesBE_of_lt (flipped_lt hLt), flipped_flipped hLt, signed_natAbs h] at hDec
    rwa [hEnc]

theorem encodeElement_decoded (e : TupleElement) : encodeElement e.decoded = encodeElement e := by
  cases e <;> rfl

/-- One encoded element is read back; only a string looks at what follows it. -/
theorem decodes_encodeElement (he : e.Encodable)
    (hRest : ∀ data, e.decoded = .bytes data → rest.head? ≠ some 0xFF) :
    Decodes (encodeElement e ++ rest) e.decoded rest := by
  cases e with
  | null => exact .null
  | bytes b => exact .bytes b (hRest b rfl)
  | string s => exact .bytes (utf8 s) (hRest (utf8 s) rfl)
  | int i => exact decodes_encodeInt he rest
  | float bits => exact .float bits
  | double bits => exact .double bits
  | bool b => exact .bool b

/-- No type code is `0xFF`, so an encoded tuple never extends the terminator of
the string before it. -/
theorem head?_encodeElement (e : TupleElement) :
    ∃ code, (encodeElement e).head? = some code ∧ code ≠ 0xFF := by
  have hCodes : ∀ n : Nat, n < 9 →
      intZeroCode + UInt8.ofNat n ≠ 0xFF ∧ intZeroCode - UInt8.ofNat n ≠ 0xFF := by decide
  cases e with
  | int i =>
    have hSig : significantBytes (bytesBE 8 i.natAbs) < 9 := by
      unfold significantBytes
      omega
    simp only [encodeElement, encodeInt]
    split
    · exact ⟨_, rfl, by decide⟩
    · split
      · exact ⟨_, rfl, (hCodes _ hSig).1⟩
      · exact ⟨_, rfl, (hCodes _ hSig).2⟩
  | bool b => cases b <;> exact ⟨_, rfl, by decide⟩
  | null | bytes b | string s | float bits | double bits => exact ⟨_, rfl, by decide⟩

theorem head?_encodeElement_append (e : TupleElement) (rest : Bytes) :
    (encodeElement e ++ rest).head? ≠ some 0xFF := by
  obtain ⟨code, hCode, hNe⟩ := head?_encodeElement e
  rw [head?_append, hCode]
  simpa using hNe

theorem head?_encodeTuple (es : List TupleElement) : (encodeTuple es).head? ≠ some 0xFF := by
  cases es with
  | nil => simp
  | cons e es => exact head?_encodeElement_append e _

/-- **Round trip.**  A tuple of `i64`-range integers decodes to itself, up to
strings coming back as bytes. -/
theorem decodeTuple_encodeTuple (h : ∀ e ∈ es, e.Encodable) :
    decodeTuple (encodeTuple es) = .ok (es.map TupleElement.decoded) := by
  induction es with
  | nil => rfl
  | cons e es ih =>
    have hTail := ih fun e' he' => h e' (mem_cons_of_mem e he')
    exact decodeTuple_eq_cons.mpr ⟨_, decodes_encodeElement (h e mem_cons_self)
      fun _ _ => head?_encodeTuple es, hTail⟩

theorem encodeTuple_map_decoded (es : List TupleElement) :
    encodeTuple (es.map TupleElement.decoded) = encodeTuple es := by
  rw [encodeTuple, encodeTuple, flatMap_map]
  exact flatMap_congr fun e _ => encodeElement_decoded e

/-- The encoding determines the elements, up to strings read as bytes. -/
theorem encodeTuple_inj {es' : List TupleElement} (h : ∀ e ∈ es, e.Encodable)
    (h' : ∀ e ∈ es', e.Encodable) : encodeTuple es = encodeTuple es' ↔
      es.map TupleElement.decoded = es'.map TupleElement.decoded := by
  constructor
  · intro hEq
    have hDecode := decodeTuple_encodeTuple h
    rw [hEq, decodeTuple_encodeTuple h'] at hDecode
    exact (Except.ok.inj hDecode).symm
  · intro hEq
    rw [← encodeTuple_map_decoded es, hEq, encodeTuple_map_decoded]

end EncryptedSpaces.Encoding
