import EncryptedSpaces.Client.StoredRows
import Mathlib.Data.List.Induction

/-!
# Encryption of query fields

Before an Insert or Update leaves the client, `encrypt_query_fields` turns its fields
into a JSON row, encrypts the columns that are not plaintext and writes the
ciphertexts back.  A value that does not fit the type of its column is passed over in
silence, and goes out as it was given.
-/

namespace EncryptedSpaces.Client

open Encoding Server Lib Lib.Digits Lib.Except List

/-! ## Model -/

inductive QueryParam where
  | null
  | integer (i : Int)
  | real (bits : UInt64)
  | text (s : String)
  | blob (bytes : Bytes)
  | boolean (b : Bool)
  deriving DecidableEq, Repr

inductive QueryOperation where
  | select (columns : List String)
  | insert (fields : List (String × QueryParam))
  | update (fields : List (String × QueryParam))
  | delete
  deriving DecidableEq, Repr

/-- The errors of `SdkError` that the encryption of a query returns. -/
inductive QueryError where
  | invalidQuery (msg : String)
  | decryptionError (msg : String)
  deriving DecidableEq, Repr

/-- A key with its serialized id. -/
structure EncryptionKey where
  key : Bytes
  keyIdBytes : Bytes
  deriving DecidableEq, Repr

/-- `NONCE_LEN`. -/
def nonceLen : Nat := 16

structure Nonce where
  bytes : Bytes
  length_eq : bytes.length = nonceLen

/-- The keystream of AES-256-CTR, and `i as f64`. -/
structure FieldEncryption where
  keystream : (key : Bytes) → Nonce → Nat → UInt8
  i64ToF64 : Int → UInt64

/-- A double that is not finite has no JSON number. -/
def queryParamToValue : QueryParam → Value
  | .null => .null
  | .integer i => .int i
  | .real bits => if isFiniteBits bits then .float bits else .null
  | .text s => .string s
  | .blob bytes => .string (encodeBase64 bytes)
  | .boolean b => .bool b

/-- Version, length of the key id, key id, nonce, ciphertext. -/
def encryptField (P : FieldEncryption) (key : EncryptionKey) (nonce : Nonce)
    (plaintext : Bytes) : Bytes :=
  [0x02] ++ bytesLE 2 (key.keyIdBytes.length % 2 ^ 16) ++ key.keyIdBytes ++ nonce.bytes ++
    plaintext.mapIdx fun i b => b ^^^ P.keystream key.key nonce i

/-- The bytes of a value that are encrypted; there are none if the type does not fit. -/
def fieldBytes (P : FieldEncryption) : ColumnType → Value → Option Bytes
  | .integer, .int i => (Value.asI64 (.int i)).map i64ToBeBytes
  | .integer, .bool b => some [if b then 1 else 0]
  | .real, .int i => some (bytesBE 8 (P.i64ToF64 i).toNat)
  | .real, .float bits => some (bytesBE 8 bits.toNat)
  | .string, .string s | .text, .string s | .fileRef, .string s | .list, .string s => some (utf8 s)
  | .blob, .string s => decodeBase64 s
  | _, _ => none

/-- `nonces n` is the nonce of the `n`-th column. -/
def encryptRow (P : FieldEncryption) (key : EncryptionKey) (nonces : Nat → Nonce) :
    Nat → List ColumnSpec → RowObject → RowObject
  | _, [], row => row
  | n, col :: columns, row =>
    let row := match (row[col.name]?).bind (fieldBytes P col.columnType) with
      | some bytes =>
          row.insert col.name (.string (encodeBase64 (encryptField P key (nonces n) bytes)))
      | none => row
    encryptRow P key nonces (n + 1) columns row

/-- The fields as a JSON object; the last value of a name counts. -/
def rowOfFields (fields : List (String × QueryParam)) : RowObject :=
  fields.foldl (fun row field => row.insert field.1 (queryParamToValue field.2)) ∅

/-- Strings of encrypted columns go back into the fields. -/
def writeBack (columns : List ColumnSpec) (row : RowObject) (field : String × QueryParam) :
    String × QueryParam :=
  match row[field.1]? with
  | some (.string s) => if columns.any (·.name = field.1) then (field.1, .text s) else field
  | _ => field

/-- Fields are columns of the schema; an Insert has all encrypted columns. -/
def checkFields (table : String) (spec : TableSpec) (isInsert : Bool)
    (fields : List (String × QueryParam)) : Except QueryError Unit := do
  if let some (name, _) := fields.find? fun field => ¬ spec.columns.any (·.name = field.1) then
    throw (.invalidQuery s!"Query field '{name}' not found in schema for table '{table}'")
  if isInsert then
    if let some col := spec.encryptedColumns.find? fun col => ¬ fields.any (·.1 = col.name) then
      throw (.invalidQuery s!"Encrypted column '{col.name}' missing from query for table '{table}'")

def encryptFields (P : FieldEncryption) (table : String) (spec : TableSpec) (key : EncryptionKey)
    (nonces : Nat → Nonce) (isInsert : Bool) (fields : List (String × QueryParam)) :
    Except QueryError (List (String × QueryParam)) := do
  let columns := spec.encryptedColumns
  checkFields table spec isInsert fields
  return fields.map (writeBack columns (encryptRow P key nonces 0 columns (rowOfFields fields)))

/-- `encrypt_query_fields`; the current key comes from the space. -/
def encryptQueryFields (P : FieldEncryption) (schemas : Schemas)
    (currentKey : Except QueryError EncryptionKey) (nonces : Nat → Nonce) (table : String)
    (query : QueryOperation) : Except QueryError QueryOperation :=
  match schemas table with
  | none => .ok query
  | some spec =>
    if spec.encryptedColumns = [] then .ok query
    else do
      let key ← currentKey
      match query with
      | .insert fields => return .insert (← encryptFields P table spec key nonces true fields)
      | .update fields => return .update (← encryptFields P table spec key nonces false fields)
      | query => return query

/-! ## What is left in the clear -/

def QueryOperation.fields : QueryOperation → List (String × QueryParam)
  | .insert fields | .update fields => fields
  | _ => []

/-- The value given for a column. -/
def givenParam (fields : List (String × QueryParam)) (name : String) : Option QueryParam :=
  (fields.reverse.find? (·.1 = name)).map Prod.snd

/-- The variants that are encrypted in a column of the type. -/
def Fits : ColumnType → QueryParam → Prop
  | .integer, .integer i => InI64 i
  | .integer, .boolean _ | .real, .integer _ => True
  | .real, .real bits => isFiniteBits bits
  | .string, .text _ | .text, .text _ | .fileRef, .text _ | .list, .text _ => True
  | .string, .blob _ | .text, .blob _ | .fileRef, .blob _ | .list, .blob _ | .blob, .blob _ => True
  | .blob, .text s => (decodeBase64 s).isSome
  | _, _ => False

/-- Null, or a ciphertext under the current key. -/
def Confidential (P : FieldEncryption) (currentKey : Except QueryError EncryptionKey)
    (param : QueryParam) : Prop :=
  param = .null ∨ ∃ key nonce bytes, currentKey = .ok key ∧
    param = .text (encodeBase64 (encryptField P key nonce bytes))

/-- How a field goes out whose value is passed over: texts and bytes as text. -/
def passedOver (given param : QueryParam) : QueryParam :=
  match queryParamToValue given with
  | .string s => .text s
  | _ => param

section Results

variable {P : FieldEncryption} {key : EncryptionKey} {nonces : Nat → Nonce}

theorem isSome_fieldBytes_iff (columnType : ColumnType) (param : QueryParam) :
    (fieldBytes P columnType (queryParamToValue param)).isSome ↔ Fits columnType param := by
  cases param with
  | real bits =>
    by_cases hFinite : isFiniteBits bits
    · cases columnType <;> simp [queryParamToValue, fieldBytes, Fits, hFinite]
    · cases columnType <;> simp [queryParamToValue, fieldBytes, Fits, hFinite]
  | integer i =>
    by_cases hIn : InI64 i
    · cases columnType <;> simp [queryParamToValue, fieldBytes, Fits, Value.asI64, hIn]
    · cases columnType <;> simp [queryParamToValue, fieldBytes, Fits, Value.asI64, hIn]
  | null | text s | blob bytes | boolean b =>
    cases columnType <;> simp [queryParamToValue, fieldBytes, Fits]

theorem getElem?_rowOfFields (fields : List (String × QueryParam)) (name : String) :
    (rowOfFields fields)[name]? = (givenParam fields name).map queryParamToValue := by
  unfold rowOfFields givenParam
  induction fields using reverseRecOn with
  | nil => simp
  | append_singleton fields field ih =>
    rw [foldl_append, foldl_cons, foldl_nil, Std.ExtTreeMap.getElem?_insert, ih,
      reverse_append, reverse_singleton, singleton_append, find?_cons]
    by_cases hName : field.1 = name
    · simp [hName]
    · simp [hName]

/-- A column is encrypted if one of the columns of its name fits the value, and keeps the
value otherwise. -/
theorem getElem?_encryptRow (n : Nat) (columns : List ColumnSpec) (row : RowObject)
    (name : String) :
    ((∃ nonce bytes, (encryptRow P key nonces n columns row)[name]? =
        some (.string (encodeBase64 (encryptField P key nonce bytes)))) ∧
      ∃ col ∈ columns, col.name = name ∧ ((row[name]?).bind (fieldBytes P col.columnType)).isSome) ∨
    ((encryptRow P key nonces n columns row)[name]? = row[name]? ∧
      ∀ col ∈ columns, col.name = name →
        (row[name]?).bind (fieldBytes P col.columnType) = none) := by
  induction columns generalizing n row with
  | nil => exact .inr ⟨rfl, by simp⟩
  | cons col columns ih =>
    unfold encryptRow
    cases hBytes : (row[col.name]?).bind (fieldBytes P col.columnType) with
    | none =>
      -- the column is passed over
      rcases ih (n + 1) row with ⟨hOut, c, hc, hFits⟩ | ⟨hOut, hNone⟩
      · exact .inl ⟨hOut, c, mem_cons_of_mem _ hc, hFits⟩
      · refine .inr ⟨hOut, fun c hc hName => ?_⟩
        rcases mem_cons.mp hc with rfl | hc
        · rw [← hName]
          exact hBytes
        · exact hNone c hc hName
    | some bytes =>
      dsimp only
      generalize hCipher : encodeBase64 (encryptField P key (nonces n) bytes) = text
      have hRow : (row.insert col.name (Value.string text))[name]? =
          if col.name = name then some (.string text) else row[name]? :=
        TreeMaps.getElem?_insert_eq _ _ _ _
      have hRest := ih (n + 1) (row.insert col.name (.string text))
      rw [hRow] at hRest
      by_cases hName : col.name = name
      · -- whatever later columns do, the value stays a ciphertext
        have hFits : ((row[name]?).bind (fieldBytes P col.columnType)).isSome := by
          rw [← hName, hBytes]
          rfl
        refine .inl ⟨?_, col, mem_cons_self, hName, hFits⟩
        rw [if_pos hName] at hRest
        rcases hRest with ⟨hOut, _⟩ | ⟨hOut, _⟩
        · exact hOut
        · exact ⟨nonces n, bytes, by rw [hOut, hCipher]⟩
      · rw [if_neg hName] at hRest
        rcases hRest with ⟨hOut, c, hc, hFits⟩ | ⟨hOut, hNone⟩
        · exact .inl ⟨hOut, c, mem_cons_of_mem _ hc, hFits⟩
        · refine .inr ⟨hOut, fun c hc hEq => ?_⟩
          rcases mem_cons.mp hc with rfl | hc
          · exact absurd hEq hName
          · exact hNone c hc hEq

/-- The name is that of an encrypted column. -/
def IsEncrypted (spec : TableSpec) (name : String) : Prop :=
    ∃ col ∈ spec.encryptedColumns, col.name = name

/-- The given value fits an encrypted column of its name, or what is passed over may be
seen. -/
def Guarded (P : FieldEncryption) (currentKey : Except QueryError EncryptionKey) (spec : TableSpec)
    (fields : List (String × QueryParam)) (field : String × QueryParam) : Prop :=
  ∀ given, givenParam fields field.1 = some given →
    (∃ col ∈ spec.encryptedColumns, col.name = field.1 ∧ Fits col.columnType given) ∨
      Confidential P currentKey (passedOver given field.2)

theorem exists_givenParam {fields : List (String × QueryParam)} {field : String × QueryParam}
    (h : field ∈ fields) : ∃ given, givenParam fields field.1 = some given := by
  unfold givenParam
  cases hFind : fields.reverse.find? (·.1 = field.1) with
  | none =>
    have hNone := find?_eq_none.mp hFind field (mem_reverse.mpr h)
    exact absurd (decide_eq_true rfl) hNone
  | some found => exact ⟨found.2, rfl⟩

theorem confidential_writeBack_iff {spec : TableSpec} {fields : List (String × QueryParam)}
    {field : String × QueryParam} (hField : field ∈ fields) (hName : IsEncrypted spec field.1) :
    Confidential P (.ok key) (writeBack spec.encryptedColumns
        (encryptRow P key nonces 0 spec.encryptedColumns (rowOfFields fields)) field).2 ↔
      Guarded P (.ok key) spec fields field := by
  obtain ⟨given, hGiven⟩ := exists_givenParam hField
  have hRow : (rowOfFields fields)[field.1]? = some (queryParamToValue given) := by
    rw [getElem?_rowOfFields, hGiven]
    rfl
  have hAny : spec.encryptedColumns.any (·.name = field.1) = true := by
    obtain ⟨col, hCol, hEq⟩ := hName
    exact any_eq_true.mpr ⟨col, hCol, decide_eq_true hEq⟩
  have hGuarded : Guarded P (.ok key) spec fields field ↔
      (∃ col ∈ spec.encryptedColumns, col.name = field.1 ∧ Fits col.columnType given) ∨
        Confidential P (.ok key) (passedOver given field.2) := by
    unfold Guarded
    simp [hGiven]
  rw [hGuarded]
  unfold writeBack
  rcases getElem?_encryptRow (P := P) 0 spec.encryptedColumns (rowOfFields fields) field.1 with
    ⟨⟨nonce, bytes, hOut⟩, col, hCol, hEq, hFits⟩ | ⟨hOut, hNone⟩
  · rw [hOut]
    dsimp only
    rw [if_pos hAny]
    rw [hRow, Option.bind_some, isSome_fieldBytes_iff] at hFits
    exact iff_of_true (.inr ⟨key, nonce, bytes, rfl, rfl⟩) (.inl ⟨col, hCol, hEq, hFits⟩)
  · have hNot : ¬ ∃ col ∈ spec.encryptedColumns, col.name = field.1 ∧
      Fits col.columnType given := by
      rintro ⟨col, hCol, hEq, hFits⟩
      have hBytes := hNone col hCol hEq
      rw [hRow, Option.bind_some] at hBytes
      rw [← isSome_fieldBytes_iff (P := P), hBytes] at hFits
      cases hFits
    rw [hOut, hRow, or_iff_right hNot]
    unfold passedOver
    cases queryParamToValue given with
    | string s =>
      dsimp only
      rw [if_pos hAny]
    | null | bool _ | int _ | float _ | array _ | object _ => rfl

theorem fields_of_encryptFields {table : String} {spec : TableSpec} {isInsert : Bool}
    {fields out : List (String × QueryParam)}
    (h : encryptFields P table spec key nonces isInsert fields = .ok out) :
    out = fields.map (writeBack spec.encryptedColumns
      (encryptRow P key nonces 0 spec.encryptedColumns (rowOfFields fields))) := by
  obtain ⟨_, _, h⟩ := bind_eq_ok.mp h
  exact (Except.ok.inj h).symm

end Results

/-! ## Samples -/

def sampleCipher : FieldEncryption where
  keystream _ _ i := UInt8.ofNat (i + 85)
  i64ToF64 _ := 0

def sampleNonce : Nonce := ⟨List.replicate nonceLen 9, rfl⟩

def titleKey : EncryptionKey := { key := [7], keyIdBytes := [1] }

/-- Notes with an encrypted title and a year in the clear. -/
def sampleNotes : Schemas := fun table =>
  if table = "notes" then
    some { columns := [ { name := "title", columnType := .text, plaintext := false },
      { name := "year", columnType := .integer, plaintext := true } ] }
  else none

end EncryptedSpaces.Client
