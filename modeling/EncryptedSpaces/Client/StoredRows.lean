import EncryptedSpaces.Client.Cache
import EncryptedSpaces.Ops.BatchEffect
import EncryptedSpaces.Ops.RetentionRows
import EncryptedSpaces.Server.State
import EncryptedSpaces.Lib.TreeMaps

/-!
# Stored rows and what a client reads in them

The verified database as rows of cells, and the two steps between a cell and a
field of a row object: a cell is decoded, after a hash has been replaced by the
value behind it, and an encrypted column is decrypted under the key its header
names.  A row whose keys cannot be resolved is dropped from a result; this is
the only effect of a missing key.

Ciphers are a parameter.  A client may learn keys later, but it never resolves a
key id to two different keys: `Resolver.Extends` relates what it can resolve to
all keys there are.  Under all keys every row has a plaintext, `plainRow`; where
a cell does not decode or a field does not decrypt it is a default, which nothing
relies on.
-/

namespace EncryptedSpaces.Client

open Encoding Changelog Ops Server Lib Lib.Digits List Option

/-! ## Schemas -/

/-- A column as the client knows it. -/
structure ColumnSpec extends ColumnDef where
  plaintext : Bool
  deriving DecidableEq, Repr

structure TableSpec where
  columns : List ColumnSpec
  deriving DecidableEq, Repr

/-- `table_schemas`. -/
abbrev Schemas := String → Option TableSpec

/-- `encrypted_columns_from_schema`. -/
def TableSpec.encryptedColumns (spec : TableSpec) : List ColumnSpec :=
  spec.columns.filter fun column => !column.plaintext

def TableSpec.nonIdColumns (spec : TableSpec) : List String :=
  (spec.columns.filter fun column => column.name ≠ "id").map (·.name)

/-- `indexed_columns_for_schema`. -/
def TableSpec.indexedColumns (spec : TableSpec) : List String :=
  (spec.columns.filter fun column =>
    column.plaintext ∧ column.columnType = .integer ∧ column.name ≠ "id").map (·.name)

/-- `get_indexed_columns`. -/
def Schemas.indexedColumns (schemas : Schemas) (table : String) : List String :=
  ((schemas table).map TableSpec.indexedColumns).getD []

def Schemas.encryptedColumns (schemas : Schemas) (table : String) : List ColumnSpec :=
  ((schemas table).map TableSpec.encryptedColumns).getD []

def Schemas.isHashBacked (schemas : Schemas) (table column : String) : Bool :=
  (((schemas table).bind fun spec => spec.columns.find? (·.name = column)).map
    (·.columnType.isHashBacked)).getD false

/-! ## Cells -/

/-- The cells of a row, by column. -/
abbrev RawRow := Std.ExtTreeMap String Bytes compare

/-- The rows of every table, by id.  A row without cells is no row.  A cell has one key
here; in the database that is so as long as keys are canonical, see `HoldsRows`. -/
abbrev Tables := String → Std.ExtTreeMap Int RawRow compare

def Tables.rowAt (db : Tables) (table : String) (id : Int) : RawRow := ((db table)[id]?).getD ∅

/-- A write to a column cell; a deletion has no value. -/
structure CellWrite where
  table : String
  rowId : Int
  column : String
  value : Option Bytes
  deriving DecidableEq, Repr

/-- The column cells a batch writes; other keys say nothing about rows. -/
def cellWrites (batch : Batch) : List CellWrite :=
  batch.filterMap fun op =>
    (parsedColumn? op.key).map fun (table, rowId, column) =>
      { table, rowId, column
        value := match op with
          | .put _ value => some value
          | .delete _ => none }

def RawRow.write (raw : RawRow) (write : CellWrite) : RawRow :=
  match write.value with
  | some value => raw.insert write.column value
  | none => raw.erase write.column

def Tables.write (db : Tables) (write : CellWrite) : Tables :=
  Function.update db write.table
    ((db write.table).insert write.rowId ((db.rowAt write.table write.rowId).write write))

def Tables.applyWrites (db : Tables) (writes : List CellWrite) : Tables :=
  writes.foldl Tables.write db

/-- The writes to one row, in order. -/
def writesTo (writes : List CellWrite) (table : String) (id : Int) : List CellWrite :=
  writes.filter fun write => write.table = table ∧ write.rowId = id

theorem Tables.rowAt_write (db : Tables) (write : CellWrite) (table : String) (id : Int) :
    (db.write write).rowAt table id =
      if write.table = table ∧ write.rowId = id then (db.rowAt table id).write write
      else db.rowAt table id := by
  unfold Tables.write Tables.rowAt
  by_cases hTable : write.table = table
  · subst hTable
    rw [Function.update_self, TreeMaps.getElem?_insert_eq]
    by_cases hId : write.rowId = id
    · subst hId
      rw [if_pos rfl, if_pos ⟨rfl, rfl⟩, getD_some]
    · rw [if_neg hId, if_neg fun h => hId h.2]
  · rw [Function.update_of_ne (Ne.symm hTable), if_neg fun h => hTable h.1]

theorem Tables.rowAt_applyWrites (db : Tables) (writes : List CellWrite) (table : String)
    (id : Int) :
    (db.applyWrites writes).rowAt table id =
      (writesTo writes table id).foldl RawRow.write (db.rowAt table id) := by
  induction writes generalizing db with
  | nil => rfl
  | cons write writes ih =>
    show ((db.write write).applyWrites writes).rowAt table id = _
    rw [ih, Tables.rowAt_write]
    unfold writesTo
    by_cases hRow : write.table = table ∧ write.rowId = id
    · rw [if_pos hRow, filter_cons_of_pos (by simpa using hRow), foldl_cons]
    · rw [if_neg hRow, filter_cons_of_neg (by simpa using hRow)]

/-- Rows that no write names stay. -/
theorem Tables.rowAt_applyWrites_of_untouched {db : Tables} {writes : List CellWrite}
    {table : String} {id : Int}
    (h : ∀ write ∈ writes, ¬ (write.table = table ∧ write.rowId = id)) :
    (db.applyWrites writes).rowAt table id = db.rowAt table id := by
  rw [Tables.rowAt_applyWrites]
  have hNone : writesTo writes table id = [] :=
    filter_eq_nil_iff.mpr fun write hWrite => by simpa using h write hWrite
  rw [hNone, foldl_nil]

/-! ## Keys -/

/-- The key is the one `column_key` gives, if it is a column key at all.  `parse_key` also
accepts padded row ids and trailing elements. -/
def CanonicalKey (key : Bytes) : Prop :=
  ∀ table rowId column, parsedColumn? key = some (table, rowId, column) →
    key = columnKey table rowId column

def CanonicalBatch (batch : Batch) : Prop := ∀ op ∈ batch, CanonicalKey op.key

/-- The column cells of the database are the cells of the tables. -/
structure HoldsRows (raw : Db) (db : Tables) : Prop where
  canonical : ∀ key ∈ raw, CanonicalKey key
  cell : ∀ table id column, InI64 id →
    raw[columnKey table id column]? = (db.rowAt table id)[column]?

theorem columnKey_eq_iff {table table' column column' : String} {id id' : Int} (h : InI64 id)
    (h' : InI64 id') : columnKey table id column = columnKey table' id' column' ↔
      (table = table' ∧ id = id') ∧ column = column' := by
  constructor
  · intro hKey
    have hParsed := parsedColumn?_columnKey table column h
    rw [hKey, parsedColumn?_columnKey table' column' h'] at hParsed
    simp only [Option.some.injEq, Prod.mk.injEq] at hParsed
    exact ⟨⟨hParsed.1.symm, hParsed.2.1.symm⟩, hParsed.2.2.symm⟩
  · rintro ⟨⟨rfl, rfl⟩, rfl⟩
    rfl

/-- A write to a canonical key is the write to its cell. -/
theorem HoldsRows.applyOp {raw : Db} {db : Tables} {op : BatchOp} (h : HoldsRows raw db)
    (hOp : CanonicalKey op.key) :
    HoldsRows (raw.applyOp op) (db.applyWrites (cellWrites [op])) := by
  have hRaw : ∀ key, (raw.applyOp op)[key]? =
      if op.key = key then (BatchOp.write op).2 else raw[key]? := by
    intro key
    cases op with
    | put key' value => exact TreeMaps.getElem?_insert_eq _ _ _ _
    | delete key' => exact TreeMaps.getElem?_erase_eq _ _ _
  constructor
  · intro key hKey
    by_cases hEq : op.key = key
    · exact hEq ▸ hOp
    · refine h.canonical key ?_
      rw [← Std.ExtTreeMap.isSome_getElem?_iff_mem] at hKey ⊢
      rw [hRaw, if_neg hEq] at hKey
      exact hKey
  · intro table id column hId
    rw [hRaw]
    cases hParsed : parsedColumn? op.key with
    | none =>
      have hNe : op.key ≠ columnKey table id column := by
        intro hEq
        rw [hEq, parsedColumn?_columnKey table column hId] at hParsed
        cases hParsed
      have hNone : cellWrites [op] = [] := by simp [cellWrites, hParsed]
      rw [if_neg hNe, hNone]
      exact h.cell table id column hId
    | some cell =>
      have hCell : InI64 cell.2.1 := inI64_of_parseKey (parsedColumn?_eq_some_iff.mp hParsed)
      have hWrites : db.applyWrites (cellWrites [op]) =
          db.write ⟨cell.1, cell.2.1, cell.2.2, (BatchOp.write op).2⟩ := by
        simp only [cellWrites, filterMap_cons, hParsed, Option.map_some, filterMap_nil]
        cases op <;> rfl
      rw [hWrites, Tables.rowAt_write, hOp _ _ _ hParsed]
      simp only [columnKey_eq_iff hCell hId]
      by_cases hRow : cell.1 = table ∧ cell.2.1 = id
      · rw [if_pos hRow]
        cases (BatchOp.write op).2 with
        | none => simp [RawRow.write, hRow, TreeMaps.getElem?_erase_eq, h.cell table id column hId]
        | some value =>
          simp [RawRow.write, hRow, TreeMaps.getElem?_insert_eq, h.cell table id column hId]
      · rw [if_neg hRow, if_neg fun hBoth => hRow hBoth.1]
        exact h.cell table id column hId

theorem HoldsRows.applyBatch {raw : Db} {db : Tables} {batch : Batch} (h : HoldsRows raw db)
    (hBatch : CanonicalBatch batch) :
    HoldsRows (raw.applyBatch batch) (db.applyWrites (cellWrites batch)) := by
  induction batch generalizing raw db with
  | nil => exact h
  | cons op batch ih =>
    have hWrites : db.applyWrites (cellWrites (op :: batch)) =
        (db.applyWrites (cellWrites [op])).applyWrites (cellWrites batch) := by
      unfold Tables.applyWrites
      rw [← foldl_append]
      congr 1
      exact filterMap_append (l := [op])
    rw [Db.applyBatch_cons, hWrites]
    exact ih (h.applyOp (hBatch op mem_cons_self)) fun op' hMem =>
      hBatch op' (mem_cons_of_mem _ hMem)

/-! ## Decoding -/

/-- The values behind hashes. -/
abbrev Material := Digest → Option Bytes

section Decoding

variable (schemas : Schemas)

/-- The value of a cell; a hash is resolved first. -/
def decodeCell (material : Material) (table column : String) (bytes : Bytes) : Option Value := do
  let resolved ←
    if schemas.isHashBacked table column then
      if bytes.length = 32 then material bytes else none
    else some bytes
  (bytesToValue resolved).toOption

/-- `reassemble_row_resolving_hashes`: the id first, then the cells in order. -/
def reassembleCells (material : Material) (table : String) (rowId : Int)
    (cells : List (String × Bytes)) : Option RowObject :=
  cells.foldlM
    (fun row (column, bytes) =>
      (decodeCell schemas material table column bytes).map fun value => row.insert column value)
    ((∅ : RowObject).insert "id" (.int rowId))

/-- A row with a default for every cell that does not decode. -/
def decodedRow (material : Material) (table : String) (rowId : Int) (raw : RawRow) : RowObject :=
  (raw.map fun column bytes =>
    (decodeCell schemas material table column bytes).getD .null).insertIfNew
    "id" (.int rowId)

/-- The cells of a list, the last one of a column winning. -/
def rawOfCells (cells : List (String × Bytes)) : RawRow :=
  cells.foldl (fun raw (column, bytes) => raw.insert column bytes) ∅

theorem getElem?_rawOfCells (cells : List (String × Bytes)) (column : String) :
    (rawOfCells cells)[column]? = WriteLog.lookup cells column :=
  (TreeMaps.getElem?_insertAll ∅ cells column).trans
    (by rw [Std.ExtTreeMap.getElem?_empty, or_none])

variable {schemas} {material known : Material} {table : String} {rowId : Int}

theorem decodeCell_mono
    (hKnown : ∀ hash value, known hash = some value → material hash = some value)
    {column : String} {bytes : Bytes} {value : Value}
    (h : decodeCell schemas known table column bytes = some value) :
    decodeCell schemas material table column bytes = some value := by
  unfold decodeCell at h ⊢
  by_cases hHash : schemas.isHashBacked table column = true
  · simp only [hHash, if_true] at h ⊢
    by_cases hLength : bytes.length = 32
    · simp only [hLength, if_true, bind_eq_some] at h ⊢
      obtain ⟨resolved, hResolved, hValue⟩ := h
      exact ⟨resolved, hKnown bytes resolved hResolved, hValue⟩
    · simp [hLength] at h
  · simp only [hHash, Bool.false_eq_true, if_false] at h ⊢
    exact h

theorem getElem?_decodedRow (raw : RawRow) (column : String) :
    (decodedRow schemas material table rowId raw)[column]? =
      match raw[column]? with
      | some bytes => some ((decodeCell schemas material table column bytes).getD .null)
      | none => if column = "id" then some (.int rowId) else none := by
  unfold decodedRow
  rw [Std.ExtTreeMap.getElem?_insertIfNew, Std.ExtTreeMap.getElem?_map]
  simp only [compare_eq_iff_eq, Std.ExtTreeMap.mem_map]
  cases hRaw : raw[column]? with
  | some bytes =>
    have hMem : column ∈ raw := by
      rw [Std.ExtTreeMap.mem_iff_isSome_getElem?, hRaw]
      rfl
    rw [if_neg]
    · rfl
    · rintro ⟨rfl, hNotMem⟩
      exact hNotMem hMem
  | none =>
    have hNotMem : column ∉ raw := by
      rw [Std.ExtTreeMap.mem_iff_isSome_getElem?, hRaw]
      decide
    by_cases hId : column = "id"
    · subst hId
      rw [if_pos ⟨rfl, hNotMem⟩, if_pos rfl]
    · rw [if_neg fun h => hId h.1.symm, if_neg hId]
      rfl

/-- Cells that reassemble give the decoded row. -/
theorem reassembleCells_eq_some
    (hKnown : ∀ hash value, known hash = some value → material hash = some value)
    {cells : List (String × Bytes)} {row : RowObject}
    (h : reassembleCells schemas known table rowId cells = some row) :
    row = decodedRow schemas material table rowId (rawOfCells cells) := by
  -- the accumulators of the two folds agree after every cell
  have hFold : ∀ (cells : List (String × Bytes)) (acc : RowObject) (raw : RawRow),
      acc = decodedRow schemas material table rowId raw →
      cells.foldlM (fun row (column, bytes) =>
        (decodeCell schemas known table column bytes).map fun value => row.insert column value)
        acc = some row →
      row = decodedRow schemas material table rowId
        (cells.foldl (fun raw (column, bytes) => raw.insert column bytes) raw) := by
    intro cells
    induction cells with
    | nil =>
      intro acc raw hAcc hRow
      rw [foldl_nil, ← hAcc]
      exact (some.inj hRow).symm
    | cons cell cells ih =>
      intro acc raw hAcc hRow
      obtain ⟨column, bytes⟩ := cell
      rw [foldlM_cons, bind_eq_some] at hRow
      obtain ⟨acc', hAcc', hRow⟩ := hRow
      rw [map_eq_some_iff] at hAcc'
      obtain ⟨value, hValue, rfl⟩ := hAcc'
      refine ih _ (raw.insert column bytes) ?_ hRow
      apply Std.ExtTreeMap.ext_getElem?
      intro column'
      rw [getElem?_decodedRow, TreeMaps.getElem?_insert_eq, TreeMaps.getElem?_insert_eq]
      by_cases hColumn : column = column'
      · subst hColumn
        rw [if_pos rfl, if_pos rfl]
        dsimp only
        rw [decodeCell_mono hKnown hValue, getD_some]
      · rw [if_neg hColumn, if_neg hColumn, hAcc, getElem?_decodedRow]
  refine hFold cells _ ∅ ?_ h
  apply Std.ExtTreeMap.ext_getElem?
  intro column
  rw [getElem?_decodedRow, Std.ExtTreeMap.getElem?_insert]
  simp only [compare_eq_iff_eq, Std.ExtTreeMap.getElem?_empty]
  by_cases hId : column = "id"
  · rw [if_pos hId, if_pos hId.symm]
  · rw [if_neg hId, if_neg (Ne.symm hId)]

end Decoding

/-! ## Decryption -/

/-- The cipher of single fields. -/
structure FieldCipher (KeyId Key : Type) where
  ciphertextKeyId : Bytes → Option KeyId
  decryptField : Bytes → Key → Option Bytes

/-- The keys a client can resolve. -/
abbrev Resolver (KeyId Key : Type) := KeyId → Option Key

/-- More keys, and no other key for an id. -/
def Resolver.Extends {KeyId Key : Type} (all resolver : Resolver KeyId Key) : Prop :=
  ∀ keyId key, resolver keyId = some key → all keyId = some key

/-- A decrypted field by the type of its column. -/
def typedValue (columnType : ColumnType) (bytes : Bytes) : Option Value :=
  match columnType with
  | .integer =>
    match bytes with
    | [b] => some (.int b.toNat)
    | bytes => if bytes.length = 8 then some (.int (i64FromBeBytes bytes)) else none
  | .real =>
    -- a double that is not finite is no JSON number
    let bits := ofBytesBE bytes
    if bytes.length = 8 ∧ bits / 2 ^ 52 % 2 ^ 11 ≠ 2 ^ 11 - 1 then some (.float (UInt64.ofNat bits))
    else none
  | .string | .text | .fileRef | .list => (fromUtf8 bytes).map .string
  | .blob => some (.string (encodeBase64 bytes))

section Decryption

variable {KeyId Key : Type} (cipher : FieldCipher KeyId Key)

/-- One field: what is no base64 string is left alone, and so is a plaintext that
does not fit the column. -/
def decryptValue (resolver : Resolver KeyId Key) (columnType : ColumnType) (value : Value) :
    Option Value :=
  match value.asStr.bind decodeBase64 with
  | none => some value
  | some encrypted => do
      let keyId ← cipher.ciphertextKeyId encrypted
      let key ← resolver keyId
      let decrypted ← cipher.decryptField encrypted key
      return (typedValue columnType decrypted).getD value

/-- `decrypt_row`; `none` if a key or a field fails. -/
def decryptRow (resolver : Resolver KeyId Key) (columns : List ColumnSpec) (row : RowObject) :
    Option RowObject :=
  columns.foldlM
    (fun row column =>
      match row[column.name]? with
      | some value =>
        (decryptValue cipher resolver column.columnType value).map fun value =>
          row.insert column.name value
      | none => some row)
    row

/-- `decrypt_table_rows`: rows that do not decrypt are removed. -/
def decryptTableRows (resolver : Resolver KeyId Key) (columns : List ColumnSpec)
    (rows : List RowObject) : List RowObject :=
  rows.filterMap (decryptRow cipher resolver columns)

/-- The plaintext of one column, which may be declared more than once. -/
def plainField (all : Resolver KeyId Key) (columns : List ColumnSpec) (name : String)
    (value : Value) : Value :=
  (columns.filter fun column => column.name = name).foldl
    (fun value column => (decryptValue cipher all column.columnType value).getD value) value

/-- The row under all keys. -/
def plainRow (all : Resolver KeyId Key) (columns : List ColumnSpec) (row : RowObject) : RowObject :=
  row.map (plainField cipher all columns)

variable {cipher} {all resolver : Resolver KeyId Key}

theorem decryptValue_mono (hAll : all.Extends resolver) {columnType : ColumnType}
    {value plain : Value} (h : decryptValue cipher resolver columnType value = some plain) :
    decryptValue cipher all columnType value = some plain := by
  unfold decryptValue at h ⊢
  cases hString : value.asStr.bind decodeBase64 with
  | none =>
    rw [hString] at h
    exact h
  | some encrypted =>
    rw [hString] at h
    simp only [bind, bind_eq_some_iff] at h ⊢
    obtain ⟨keyId, hKeyId, key, hKey, hRest⟩ := h
    exact ⟨keyId, hKeyId, key, hAll keyId key hKey, hRest⟩

theorem getElem?_plainRow (columns : List ColumnSpec) (row : RowObject) (name : String) :
    (plainRow cipher all columns row)[name]? =
      row[name]?.map (plainField cipher all columns name) := by
  unfold plainRow
  rw [Std.ExtTreeMap.getElem?_map]

/-- A row that decrypts gives its plaintext. -/
theorem decryptRow_eq_some (hAll : all.Extends resolver) {columns : List ColumnSpec}
    {row plain : RowObject} (h : decryptRow cipher resolver columns row = some plain) :
    plain = plainRow cipher all columns row := by
  unfold decryptRow at h
  induction columns generalizing row with
  | nil =>
    obtain rfl := some.inj h
    apply Std.ExtTreeMap.ext_getElem?
    intro name
    rw [getElem?_plainRow]
    show row[name]? = row[name]?.map fun value => value
    rw [Option.map_id']
  | cons column columns ih =>
    rw [foldlM_cons, bind_eq_some] at h
    obtain ⟨first, hFirst, hRest⟩ := h
    rw [ih hRest]
    apply Std.ExtTreeMap.ext_getElem?
    intro name
    rw [getElem?_plainRow, getElem?_plainRow]
    unfold plainField
    cases hValue : row[column.name]? with
    | none =>
      rw [hValue] at hFirst
      obtain rfl := some.inj hFirst
      by_cases hName : column.name = name
      · subst hName
        rw [hValue]
        rfl
      · rw [filter_cons_of_neg (by simpa using hName)]
    | some value =>
      rw [hValue] at hFirst
      obtain ⟨plainValue, hPlain, rfl⟩ := map_eq_some_iff.mp hFirst
      rw [TreeMaps.getElem?_insert_eq]
      by_cases hName : column.name = name
      · subst hName
        rw [if_pos rfl, hValue, filter_cons_of_pos (by simp), map_some,
          map_some, foldl_cons, decryptValue_mono hAll hPlain, getD_some]
      · rw [if_neg hName, filter_cons_of_neg (by simpa using hName)]

/-- Rows that all decrypt are replaced by their plaintexts. -/
theorem decryptTableRows_eq_map (hAll : all.Extends resolver) {columns : List ColumnSpec}
    {rows : List RowObject}
    (h : ∀ row ∈ rows, (decryptRow cipher resolver columns row).isSome = true) :
    decryptTableRows cipher resolver columns rows =
      rows.map (plainRow cipher all columns) := by
  unfold decryptTableRows
  induction rows with
  | nil => rfl
  | cons row rows ih =>
    obtain ⟨plain, hPlain⟩ := isSome_iff_exists.mp (h row mem_cons_self)
    rw [filterMap_cons_some hPlain, map_cons, decryptRow_eq_some hAll hPlain,
      ih fun row hRow => h row (mem_cons_of_mem _ hRow)]

/-- Numbers are never decrypted. -/
theorem plainField_int (columns : List ColumnSpec) (name : String) (i : Int) :
    plainField cipher all columns name (.int i) = .int i := by
  unfold plainField
  induction columns.filter fun column => column.name = name with
  | nil => rfl
  | cons column columns ih => exact ih

theorem plainField_of_plaintext {columns : List ColumnSpec} {name : String}
    (h : ∀ column ∈ columns, column.name ≠ name) (value : Value) :
    plainField cipher all columns name value = value := by
  unfold plainField
  have hNone : (columns.filter fun column => column.name = name) = [] :=
    filter_eq_nil_iff.mpr fun column hColumn => by simpa using h column hColumn
  rw [hNone, foldl_nil]

end Decryption

end EncryptedSpaces.Client
