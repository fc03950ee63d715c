import EncryptedSpaces.Encoding.KeyParsing
import Mathlib.Data.List.Sort
import Mathlib.Data.List.Dedup
import Mathlib.Data.String.Basic

/-!
# Column values

A stored cell is the postcard encoding of a `StoredValue`; the verifiers read it
as a JSON value.  Floats are IEEE bit patterns, and the two integer variants
become one integer, since a JSON number only remembers its value.

`postcard` varints may be padded with continuation bytes up to the width's
limit, and bytes after the value are ignored: two different cells can hold the
same value.
-/

namespace EncryptedSpaces.Encoding

open Lib.Digits

/-! ## JSON values -/

/-- `serde_json::Value`; numbers are integers or finite doubles. -/
inductive Value where
  | null
  | bool (b : Bool)
  | int (i : Int)
  | float (bits : UInt64)
  | string (s : String)
  | array (items : List Value)
  | object (fields : List (String × Value))

namespace Value

def asI64 : Value → Option Int
  | .int i => if InI64 i then some i else none
  | _ => none

def asU64 : Value → Option Nat
  | .int i => if 0 ≤ i ∧ i < 2 ^ 64 then some i.toNat else none
  | _ => none

def asStr : Value → Option String
  | .string s => some s
  | _ => none

def isNull : Value → Bool
  | .null => true
  | _ => false

end Value

/-- Bits of the double nearest to an integer outside the `i64` range; only index
keys of `u64` values above `i64::MAX` need it. -/
def u64ToDoubleBits (n : Nat) : UInt64 :=
  -- `2 ^ 63 ≤ n < 2 ^ 64`: 53 significant bits, ties to even
  let q := n / 2 ^ 11
  let r := n % 2 ^ 11
  let q := if 2 ^ 10 < r ∨ (r = 2 ^ 10 ∧ q % 2 = 1) then q + 1 else q
  if q = 2 ^ 53 then UInt64.ofNat (1087 * 2 ^ 52)
  else UInt64.ofNat (1086 * 2 ^ 52 + (q - 2 ^ 52))

/-- `TupleElement::try_from(&Value)`. -/
def Value.toTupleElement : Value → Except String TupleElement
  | .null => .ok .null
  | .string s => .ok (.string s)
  | .int i => if InI64 i then .ok (.int i) else .ok (.double (u64ToDoubleBits i.toNat))
  | .float bits => .ok (.double bits)
  | .bool b => .ok (.bool b)
  | .array _ => .error "Arrays cannot be used as index values"
  | .object _ => .error "Objects cannot be used as index values"

/-- The index key of a value is an integer exactly when the value reads as an `i64`. -/
theorem Value.toTupleElement_eq_int_iff {value : Value} {i : Int} :
    value.toTupleElement = .ok (.int i) ↔ value.asI64 = some i := by
  cases value with
  | int n =>
    unfold Value.asI64 Value.toTupleElement
    by_cases hRange : InI64 n
    · simp [hRange]
    · simp [hRange]
  | null | bool b | float bits | string s | array items | object fields =>
    simp [Value.asI64, Value.toTupleElement]

/-! ## The postcard form -/

/-- `StoredValue`. -/
inductive StoredValue where
  | null
  | bool (b : Bool)
  | i64 (i : Int)
  | u64 (n : Nat)
  | f64 (bits : UInt64)
  | string (s : String)
  | array (items : List StoredValue)
  | object (fields : List (String × StoredValue))

/-- A varint of at most `max` bytes whose last byte is at most `lastMax`. -/
def takeVarint (lastMax : Nat) : Nat → Bytes → Option (Nat × Bytes)
  | 0, _ => none
  | _ + 1, [] => none
  | max + 1, b :: rest =>
    if b < 0x80 then
      if max = 0 ∧ lastMax < b.toNat then none else some (b.toNat, rest)
    else do
      let (high, rest) ← takeVarint lastMax max rest
      return (b.toNat - 0x80 + 0x80 * high, rest)

def takeVarintU32 : Bytes → Option (Nat × Bytes) := takeVarint 15 5
def takeVarintU64 : Bytes → Option (Nat × Bytes) := takeVarint 1 10

/-- Zigzag, the signed varint of postcard. -/
def zigzagDecode (n : Nat) : Int := if n % 2 = 0 then (n / 2 : Nat) else -((n / 2 : Nat) : Int) - 1
def zigzagEncode (i : Int) : Nat := if 0 ≤ i then 2 * i.toNat else 2 * (-i - 1).toNat + 1

def takeBytes (n : Nat) (bytes : Bytes) : Option (Bytes × Bytes) :=
  if n ≤ bytes.length then some (bytes.take n, bytes.drop n) else none

def takeString (bytes : Bytes) : Option (String × Bytes) := do
  let (len, rest) ← takeVarintU64 bytes
  let (data, rest) ← takeBytes len rest
  let s ← fromUtf8 data
  return (s, rest)

/-- `n` items in a row. -/
def takeMany {α : Type} (item : Bytes → Option (α × Bytes)) :
    Nat → Bytes → Option (List α × Bytes)
  | 0, bytes => some ([], bytes)
  | n + 1, bytes => do
      let (a, rest) ← item bytes
      let (as, rest) ← takeMany item n rest
      return (a :: as, rest)

/-- Decoding of one value; nesting is bounded by the number of bytes. -/
def takeStoredValue : Nat → Bytes → Option (StoredValue × Bytes)
  | 0, _ => none
  | fuel + 1, bytes => do
      let (variant, rest) ← takeVarintU32 bytes
      match variant with
      | 0 => return (.null, rest)
      | 1 =>
        match rest with
        | 0 :: rest => return (.bool false, rest)
        | 1 :: rest => return (.bool true, rest)
        | _ => none
      | 2 =>
        let (n, rest) ← takeVarintU64 rest
        return (.i64 (zigzagDecode n), rest)
      | 3 =>
        let (n, rest) ← takeVarintU64 rest
        return (.u64 n, rest)
      | 4 =>
        let (data, rest) ← takeBytes 8 rest
        return (.f64 (UInt64.ofNat (ofBytesLE data)), rest)
      | 5 =>
        let (s, rest) ← takeString rest
        return (.string s, rest)
      | 6 =>
        let (len, rest) ← takeVarintU64 rest
        let (items, rest) ← takeMany (takeStoredValue fuel) len rest
        return (.array items, rest)
      | 7 =>
        let (len, rest) ← takeVarintU64 rest
        let field := fun bytes => do
          let (name, rest) ← takeString bytes
          let (value, rest) ← takeStoredValue fuel rest
          return ((name, value), rest)
        let (fields, rest) ← takeMany field len rest
        return (.object fields, rest)
      | _ => none

/-- `Number::from_f64` refuses infinities and NaNs. -/
def isFiniteBits (bits : UInt64) : Bool := bits.toNat / 2 ^ 52 % 2 ^ 11 != 2 ^ 11 - 1

mutual

/-- `Value::from(StoredValue)`. -/
def StoredValue.toValue : StoredValue → Value
  | .null => .null
  | .bool b => .bool b
  | .i64 i => .int i
  | .u64 n => .int n
  | .f64 bits => if isFiniteBits bits then .float bits else .null
  | .string s => .string s
  | .array items => .array (StoredValue.toValues items)
  | .object fields => .object (StoredValue.toFields fields)

def StoredValue.toValues : List StoredValue → List Value
  | [] => []
  | item :: items => item.toValue :: StoredValue.toValues items

def StoredValue.toFields : List (String × StoredValue) → List (String × Value)
  | [] => []
  | (name, value) :: fields => (name, value.toValue) :: StoredValue.toFields fields

end

/-- `bytes_to_value`. -/
def bytesToValue (bytes : Bytes) : Except String Value :=
  match takeStoredValue bytes.length bytes with
  | some (stored, _) => .ok stored.toValue
  | none => .error "postcard column-value decode failed"

/-- A varint without padding. -/
def putVarint : Nat → Nat → Bytes
  | 0, _ => []
  | max + 1, n =>
    if n < 0x80 then [UInt8.ofNat n] else UInt8.ofNat (n % 0x80 + 0x80) :: putVarint max (n / 0x80)

/-- `value_to_bytes` of an `i64`. -/
def i64ToValueBytes (i : Int) : Bytes := 2 :: putVarint 10 (zigzagEncode i)

/-- `value_to_bytes` of a string. -/
def stringToValueBytes (s : String) : Bytes := 5 :: putVarint 10 (utf8 s).length ++ utf8 s

/-- The last byte of a varint. -/
theorem lastByte_spec {n : Nat} (h : n < 0x80) :
    (UInt8.ofNat n).toNat = n ∧ UInt8.ofNat n < 0x80 := by
  have hByte : (UInt8.ofNat n).toNat = n := by
    rw [UInt8.toNat_ofNat']
    omega
  rw [UInt8.lt_iff_toNat_lt, hByte]
  exact ⟨rfl, h⟩

/-- The other bytes of a varint. -/
theorem moreByte_spec (n : Nat) : (UInt8.ofNat (n % 0x80 + 0x80)).toNat = n % 0x80 + 0x80 ∧
    ¬ UInt8.ofNat (n % 0x80 + 0x80) < 0x80 := by
  have hByte : (UInt8.ofNat (n % 0x80 + 0x80)).toNat = n % 0x80 + 0x80 := by
    rw [UInt8.toNat_ofNat']
    omega
  rw [UInt8.lt_iff_toNat_lt, hByte]
  exact ⟨rfl, Nat.not_lt.mpr (Nat.le_add_left _ _)⟩

/-- A varint is read back if the number fits the width. -/
theorem takeVarint_putVarint {lastMax max n : Nat} (hLast : lastMax < 0x80)
    (hn : n < 0x80 ^ max * (lastMax + 1)) (rest : Bytes) :
    takeVarint lastMax (max + 1) (putVarint (max + 1) n ++ rest) = some (n, rest) := by
  have hOne : ∀ {max n : Nat}, n < 0x80 → (max = 0 → n ≤ lastMax) →
      takeVarint lastMax (max + 1) (putVarint (max + 1) n ++ rest) = some (n, rest) := by
    intro max n hSmall hFits
    obtain ⟨hByte, hLt⟩ := lastByte_spec hSmall
    rw [putVarint, if_pos hSmall, List.singleton_append, takeVarint, if_pos hLt, hByte,
      if_neg (by omega)]
  induction max generalizing n with
  | zero => exact hOne (by omega) (by omega)
  | succ max ih =>
    by_cases hSmall : n < 0x80
    · exact hOne hSmall (by omega)
    · obtain ⟨hByte, hMore⟩ := moreByte_spec n
      have hDiv : n / 0x80 < 0x80 ^ max * (lastMax + 1) := by
        rw [Nat.div_lt_iff_lt_mul (by decide)]
        calc n < 0x80 ^ max * 0x80 * (lastMax + 1) := hn
          _ = 0x80 ^ max * (lastMax + 1) * 0x80 := by ring
      rw [putVarint, if_neg hSmall, List.cons_append, takeVarint, if_neg hMore, ih hDiv, hByte]
      simp only [Option.bind_eq_bind, Option.bind_some, Option.pure_def, Option.some.injEq,
        Prod.mk.injEq, and_true]
      omega

/-- A string cell is read back. -/
theorem bytesToValue_stringToValueBytes {s : String} (h : (utf8 s).length < 2 ^ 64) :
    bytesToValue (stringToValueBytes s) = .ok (.string s) := by
  have hString : takeString (putVarint 10 (utf8 s).length ++ utf8 s) = some (s, []) := by
    unfold takeString takeVarintU64
    rw [takeVarint_putVarint (by decide) (by norm_num; omega)]
    simp [takeBytes, fromUtf8_utf8]
  unfold bytesToValue stringToValueBytes
  rw [List.cons_append, List.length_cons, takeStoredValue]
  have hVariant : ∀ rest : Bytes, takeVarintU32 (5 :: rest) = some (5, rest) := fun _ => rfl
  simp [hVariant, hString, StoredValue.toValue]

theorem zigzagDecode_zigzagEncode (i : Int) : zigzagDecode (zigzagEncode i) = i := by
  unfold zigzagDecode zigzagEncode
  split <;> split <;> omega

/-- An integer cell is read back. -/
theorem bytesToValue_i64ToValueBytes {i : Int} (h : InI64 i) :
    bytesToValue (i64ToValueBytes i) = .ok (.int i) := by
  have hLt : zigzagEncode i < 0x80 ^ 9 * (1 + 1) := by
    obtain ⟨hLow, hHigh⟩ := h
    unfold zigzagEncode
    split <;> omega
  have hVarint : takeVarintU64 (putVarint 10 (zigzagEncode i)) = some (zigzagEncode i, []) := by
    have hTake := takeVarint_putVarint (by decide) hLt []
    rwa [List.append_nil] at hTake
  have hVariant : ∀ rest : Bytes, takeVarintU32 (2 :: rest) = some (2, rest) := fun _ => rfl
  unfold bytesToValue i64ToValueBytes
  rw [List.length_cons, takeStoredValue]
  simp [hVariant, hVarint, StoredValue.toValue, zigzagDecode_zigzagEncode]

/-! ## Column-name lists -/

/-- A `BTreeSet<String>`, as its elements in order. -/
def btreeSet (names : List String) : List String := names.dedup.insertionSort (· ≤ ·)

@[simp] theorem mem_btreeSet {names : List String} {name : String} :
    name ∈ btreeSet names ↔ name ∈ names := by
  simp [btreeSet, (List.perm_insertionSort _ _).mem_iff]

theorem nodup_btreeSet (names : List String) : (btreeSet names).Nodup :=
  (List.perm_insertionSort _ _).nodup_iff.mpr (List.nodup_dedup names)

/-- `decode_column_names`. -/
def decodeColumnNames (bytes : Bytes) : Option (List String) := do
  let s ← fromUtf8 bytes
  if s.isEmpty then return []
  return btreeSet ((s.toList.splitOn '\x00').map String.ofList)

/-! ## Insert ids -/

inductive InsertId where
  | autoAssign
  | explicit (id : Int)
  deriving DecidableEq, Repr

inductive IdValidationError where
  | explicitOnAutoTable (id : Int)
  | missingIdOnExplicitTable
  | negativeId (id : Int)
  deriving DecidableEq, Repr

/-- `IdValidationError::describe`. -/
def IdValidationError.describe (table : String) : IdValidationError → String
  | .explicitOnAutoTable id => s!"table '{table}' is auto-increment; remove the explicit id={id}"
  | .missingIdOnExplicitTable => s!"table '{table}' requires an explicit id"
  | .negativeId id => s!"table '{table}' insert id={id} must be non-negative"

/-- `classify_insert_id`; an id of `0` means that none was given. -/
def classifyInsertId (rawId : Option Int) (autoIncrement : Bool) :
    Except IdValidationError InsertId :=
  match rawId.filter (· < 0) with
  | some id => .error (.negativeId id)
  | none =>
    match autoIncrement, rawId.filter (· ≠ 0) with
    | true, none => .ok .autoAssign
    | false, some id => .ok (.explicit id)
    | true, some id => .error (.explicitOnAutoTable id)
    | false, none => .error .missingIdOnExplicitTable

end EncryptedSpaces.Encoding
