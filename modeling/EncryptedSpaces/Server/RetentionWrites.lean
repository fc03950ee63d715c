import EncryptedSpaces.Crypto.KoalaBear
import EncryptedSpaces.Ops.BatchEffect
import EncryptedSpaces.Ops.RefreshKeys
import EncryptedSpaces.Retention.Verify
import EncryptedSpaces.Server.Query

/-!
# The retention writes of a change

Two decoders regroup the flat list of `_retention` cells of an entry into rows.
The server pairs decoded cells in order and hands the pairs to the proof
verifier; the operation verifier counts the occurrences of each column and
stores the raw cells under consecutive row ids.

The operation verifier also checks that the cells come row by row, so both
decoders see the same rows.  They differ in what they do with a cell that does
not decode: the first one drops it, which can pair the key of one row with the
value of another, and the second one stores it.
-/

namespace EncryptedSpaces.Server

open Encoding Changelog Ops Lib Lib.Except List

/-! ## Cells -/

/-- The string of a cell, if it holds one. -/
def cellString (bytes : Bytes) : Option String :=
  match bytesToValue bytes with
  | .ok value => value.asStr
  | .error _ => none

/-- The bytes of a cell that holds a base64 string. -/
def cellBlob (bytes : Bytes) : Option Bytes := (cellString bytes).bind decodeBase64

/-- The pair of a row, from its key cell and its value cell. -/
def decodeCells (cells : Bytes × Bytes) : Option (String × Bytes) := do
  let key ← cellString cells.1
  let value ← cellBlob cells.2
  return (key, value)

/-! ## The server's decoder -/

/-- The local variables of `extract_retention_writes_from_change`. -/
structure Extraction where
  placeholderPairs : List (String × Bytes)
  placeholderState : Option (Option String × Option Bytes)
  perRow : CellMap Bytes

def Extraction.empty : Extraction :=
  { placeholderPairs := [], placeholderState := none, perRow := [] }

/-- A cell of a placeholder row: key and value are paired as they come. -/
def Extraction.placeholder (st : Extraction) (column : String) (value : Bytes) : Extraction :=
  let entry := st.placeholderState.getD (none, none)
  let entry :=
    if column = "key" then (cellString value, entry.2) else (entry.1, cellBlob value)
  match entry with
  | (some k, some v) =>
    { st with placeholderPairs := st.placeholderPairs ++ [(k, v)], placeholderState := none }
  | _ => { st with placeholderState := some entry }

def Extraction.step (st : Extraction) (kv : KvData) : Extraction :=
  match parsedColumn? kv.key with
  | some (table, rowId, column) =>
    if table = retentionTable then
      if column ≠ "key" ∧ column ≠ "value" then st
      else if rowId = 0 then st.placeholder column kv.value
      else { st with perRow := st.perRow.insert (rowId, column) kv.value }
    else st
  | none => st

/-- The pairs of the rows that carried an id of their own, by row id. -/
def Extraction.rowPairs (st : Extraction) : List (String × Bytes) :=
  (st.perRow.map (·.1.1)).dedup.filterMap fun rowId => do
    let key ← st.perRow.get (rowId, "key")
    let value ← st.perRow.get (rowId, "value")
    decodeCells (key, value)

def extractRetentionWritesFromChange (entries : List KvData) : List (String × Bytes) :=
  let st := entries.foldl Extraction.step .empty
  st.placeholderPairs ++ st.rowPairs

/-! ## What is stored -/

/-- The `_retention` rows a batch writes, in the order of their ids. -/
def writtenRowIds (batch : Batch) : List Int :=
  btreeSetInt (batch.filterMap fun op =>
    match parsedColumn? op.key with
    | some (table, rowId, _) => if table = retentionTable then some rowId else none
    | none => none)

/-- The pair a stored `_retention` row holds. -/
def storedRow (db : Db) (rowId : Int) : Option (String × Bytes) := do
  let key ← db[columnKey retentionTable rowId "key"]?
  let value ← db[columnKey retentionTable rowId "value"]?
  decodeCells (key, value)

/-- The rows that a batch stores, as a reader of the table sees them. -/
def storedRetentionRows (db : Db) (batch : Batch) : List (Option (String × Bytes)) :=
  (writtenRowIds batch).map (storedRow (db.applyBatch batch))

/-- A `_retention` cell decodes: a key to a string, a value to a base64 string. -/
def DecodableCell (kv : KvData) : Prop :=
  ∀ rowId column, parseKey kv.key = .ok (.column retentionTable rowId column) →
    (column = "key" → (cellString kv.value).isSome) ∧
      (column = "value" → (cellBlob kv.value).isSome)

/-- Every `_retention` cell of the entry decodes. -/
def DecodableRetention (entries : List KvData) : Prop := ∀ kv ∈ entries, DecodableCell kv

/-! ## The rows of the operation verifier -/

section Stored

variable {row : Int} {kvs : List KvData} {keys : List Bytes} {cells : List (Bytes × Bytes)}
  {batch : Batch}

theorem lt_length_of_cellAt {i : Nat} {column : String} {value : Bytes}
    (h : cellAt cells i column = some value) : i < cells.length := by
  obtain ⟨cell, hCell, _⟩ := Option.bind_eq_some_iff.mp h
  exact (List.getElem?_eq_some_iff.mp hCell).1

/-- The `_retention` cells of the batch are those of the rows. -/
theorem mem_batch_iff (hPairs : RowPairs row kvs keys cells)
    (hBatch : WritesRows (rowPuts keys kvs) batch) (op : BatchOp) {rowId : Int} {column : String}
    (hKey : parsedColumn? op.key = some (retentionTable, rowId, column)) :
    op ∈ batch ↔ ∃ i value, cellAt cells i column = some value ∧ rowId = row + (i : Nat) ∧
      op = .put (columnKey retentionTable rowId column) value := by
  rw [hBatch op (hasFront_of_cell hKey), hPairs.mem_rowPuts]
  constructor
  · rintro ⟨i, column', value, hCell, rfl⟩
    have hParsed := parsedColumn?_columnKey retentionTable column'
      (hPairs.inI64 (lt_length_of_cellAt hCell))
    simp only [BatchOp.key, hParsed, Option.some.injEq, Prod.mk.injEq, true_and] at hKey
    obtain ⟨rfl, rfl⟩ := hKey
    exact ⟨i, value, hCell, rfl, rfl⟩
  · rintro ⟨i, value, hCell, rfl, rfl⟩
    exact ⟨i, column, value, hCell, rfl⟩

theorem getElem?_cell (hPairs : RowPairs row kvs keys cells)
    (hBatch : WritesRows (rowPuts keys kvs) batch) (db : Db) {i : Nat}
    {column : String} {value : Bytes}
    (hCell : cellAt cells i column = some value) :
    (db.applyBatch batch)[columnKey retentionTable (row + (i : Nat)) column]? = some value := by
  have hKey : parsedColumn? (columnKey retentionTable (row + (i : Nat)) column) =
      some (retentionTable, row + (i : Nat), column) :=
    parsedColumn?_columnKey _ _ (hPairs.inI64 (lt_length_of_cellAt hCell))
  apply Db.getElem?_applyBatch_put
  · exact (mem_batch_iff hPairs hBatch (.put _ value) hKey).mpr ⟨i, value, hCell, rfl, rfl⟩
  · intro op hOp hOpKey
    obtain ⟨i', value', hCell', hRow, rfl⟩ :=
      (mem_batch_iff hPairs hBatch op (hOpKey.symm ▸ hKey)).mp hOp
    obtain rfl : i = i' := by omega
    rw [hCell, Option.some.injEq] at hCell'
    rw [hCell']

theorem writtenRowIds_eq (hPairs : RowPairs row kvs keys cells)
    (hBatch : WritesRows (rowPuts keys kvs) batch) :
    writtenRowIds batch = (List.range cells.length).map fun i : Nat => row + (i : Int) := by
  apply btreeSetInt_eq
  · rw [pairwise_map]
    exact pairwise_lt_range.imp fun h => by omega
  · intro id
    rw [mem_filterMap, mem_map]
    constructor
    · rintro ⟨op, hOp, hId⟩
      split at hId
      · next table rowId column hKey =>
          split at hId
          · next hTable =>
              cases hId
              subst hTable
              obtain ⟨i, value, hCell, hRow, _⟩ := (mem_batch_iff hPairs hBatch _ hKey).mp hOp
              exact ⟨i, mem_range.mpr (lt_length_of_cellAt hCell), hRow.symm⟩
          · cases hId
      · cases hId
    · rintro ⟨i, hi, rfl⟩
      rw [mem_range] at hi
      have hKey := parsedColumn?_columnKey retentionTable "key" (hPairs.inI64 hi)
      refine ⟨.put (columnKey retentionTable (row + i) "key") cells[i].1, ?_, ?_⟩
      · exact (mem_batch_iff hPairs hBatch (.put _ _) hKey).mpr
          ⟨i, _, by simp [cellAt, hi], rfl, rfl⟩
      · simp [BatchOp.key, hKey]

/-- A reader of the table sees the cells, row by row. -/
theorem storedRetentionRows_eq (hPairs : RowPairs row kvs keys cells)
    (hBatch : WritesRows (rowPuts keys kvs) batch)
    (db : Db) : storedRetentionRows db batch = cells.map decodeCells := by
  unfold storedRetentionRows
  rw [writtenRowIds_eq hPairs hBatch, map_map]
  apply ext_getElem
  · simp
  · intro i hi _
    simp only [length_map, length_range] at hi
    have hKey := getElem?_cell hPairs hBatch db (show cellAt cells i "key" = some cells[i].1 by
      simp [cellAt, hi])
    have hValue := getElem?_cell hPairs hBatch db
      (show cellAt cells i "value" = some cells[i].2 by simp [cellAt, hi])
    simp [storedRow, hKey, hValue]

end Stored

/-! ## The rows of the server's decoder -/

/-- Cells of other tables do not matter. -/
theorem Extraction.step_of_not_retention {st : Extraction} {kv : KvData}
    (h : ¬ IsColumnOf retentionTable kv.key) : st.step kv = st := by
  unfold Extraction.step
  split
  · next table rowId column hKey =>
      have hTable : table ≠ retentionTable := by
        rintro rfl
        exact h ⟨rowId, column, hKey⟩
      rw [if_neg hTable]
  · rfl

theorem foldl_step_tableKvs (entries : List KvData) (st : Extraction) :
    (tableKvs entries retentionTable).foldl Extraction.step st =
      entries.foldl Extraction.step st := by
  induction entries generalizing st with
  | nil => rfl
  | cons kv entries ih =>
    by_cases hColumn : IsColumnOf retentionTable kv.key
    · rw [tableKvs_cons_of_column hColumn, foldl_cons, foldl_cons, ih]
    · rw [tableKvs_cons_of_not hColumn, foldl_cons,
        Extraction.step_of_not_retention hColumn, ih]

section Extracted

variable {row : Int} {kvs : List KvData} {keys : List Bytes} {cells : List (Bytes × Bytes)}

theorem decodeCells_isSome {cell : Bytes × Bytes} :
    (decodeCells cell).isSome ↔ (cellString cell.1).isSome ∧ (cellBlob cell.2).isSome := by
  unfold decodeCells
  cases cellString cell.1 <;> cases cellBlob cell.2 <;> simp

/-- With no half pair pending, the two cells of a row that decodes add its pair,
in either order. -/
theorem Extraction.step_step_eq {st : Extraction} (hState : st.placeholderState = none)
    {cell : Bytes × Bytes} {pair : String × Bytes} (hPair : decodeCells cell = some pair)
    {key value : KvData} (hKey : parsedColumn? key.key = some (retentionTable, 0, "key"))
    (hValue : parsedColumn? value.key = some (retentionTable, 0, "value"))
    (hCell : cell = (key.value, value.value)) :
    (st.step key).step value = { st with placeholderPairs := st.placeholderPairs ++ [pair] } ∧
      (st.step value).step key =
        { st with placeholderPairs := st.placeholderPairs ++ [pair] } := by
  subst hCell
  have hSome : (decodeCells (key.value, value.value)).isSome := by simp [hPair]
  obtain ⟨hk, hv⟩ := decodeCells_isSome.mp hSome
  obtain ⟨k, hk⟩ := Option.isSome_iff_exists.mp hk
  obtain ⟨v, hv⟩ := Option.isSome_iff_exists.mp hv
  obtain rfl : (k, v) = pair := by simpa [decodeCells, hk, hv] using hPair
  constructor <;> simp [Extraction.step, Extraction.placeholder, hKey, hValue, hState, hk, hv]

/-- Rows that decode add their pairs. -/
theorem foldl_step_rowPairs (hPairs : RowPairs row kvs keys cells)
    (hDecode : ∀ cell ∈ cells, (decodeCells cell).isSome) (st : Extraction)
    (hState : st.placeholderState = none) :
    kvs.foldl Extraction.step st =
      { st with placeholderPairs := st.placeholderPairs ++ cells.filterMap decodeCells } := by
  induction hPairs generalizing st with
  | nil => simp
  | keyFirst _ hA hB _ ih =>
    rw [forall_mem_cons] at hDecode
    obtain ⟨pair, hPair⟩ := Option.isSome_iff_exists.mp hDecode.1
    have hStep := (Extraction.step_step_eq hState hPair hA hB rfl).1
    rw [foldl_cons, foldl_cons, hStep,
      ih hDecode.2 { st with placeholderPairs := st.placeholderPairs ++ [pair] } hState]
    simp [hPair]
  | valueFirst _ hA hB _ ih =>
    rw [forall_mem_cons] at hDecode
    obtain ⟨pair, hPair⟩ := Option.isSome_iff_exists.mp hDecode.1
    have hStep := (Extraction.step_step_eq hState hPair hB hA rfl).2
    rw [foldl_cons, foldl_cons, hStep,
      ih hDecode.2 { st with placeholderPairs := st.placeholderPairs ++ [pair] } hState]
    simp [hPair]

theorem extractRetentionWritesFromChange_eq {entries : List KvData}
    (hPairs : RowPairs row (tableKvs entries retentionTable) keys cells)
    (hDecode : ∀ cell ∈ cells, (decodeCells cell).isSome) :
    extractRetentionWritesFromChange entries = cells.filterMap decodeCells := by
  unfold extractRetentionWritesFromChange
  rw [← foldl_step_tableKvs, foldl_step_rowPairs hPairs hDecode _ rfl]
  simp [Extraction.empty, Extraction.rowPairs]

theorem decodableRetention_tableKvs {entries : List KvData} :
    DecodableRetention (tableKvs entries retentionTable) ↔ DecodableRetention entries := by
  constructor
  · intro h kv hkv rowId column hKey
    have hColumn : IsColumnOf retentionTable kv.key :=
      ⟨rowId, column, parsedColumn?_eq_some_iff.mpr hKey⟩
    exact h kv (mem_tableKvs.mpr ⟨hkv, hColumn⟩) rowId column hKey
  · intro h kv hkv
    exact h kv (mem_tableKvs.mp hkv).1

theorem decodableCell_of_key {kv : KvData}
    (h : parsedColumn? kv.key = some (retentionTable, 0, "key")) :
    DecodableCell kv ↔ (cellString kv.value).isSome := by
  unfold DecodableCell
  simp [parsedColumn?_eq_some_iff.mp h]

theorem decodableCell_of_value {kv : KvData}
    (h : parsedColumn? kv.key = some (retentionTable, 0, "value")) :
    DecodableCell kv ↔ (cellBlob kv.value).isSome := by
  unfold DecodableCell
  simp [parsedColumn?_eq_some_iff.mp h]

theorem decodable_iff_of_rowPairs (hPairs : RowPairs row kvs keys cells) :
    (∀ cell ∈ cells, (decodeCells cell).isSome) ↔ DecodableRetention kvs := by
  unfold DecodableRetention
  induction hPairs with
  | nil => simp
  | keyFirst _ hA hB _ ih =>
    rw [forall_mem_cons, forall_mem_cons, forall_mem_cons, ih,
      decodeCells_isSome, decodableCell_of_key hA, decodableCell_of_value hB, and_assoc]
  | valueFirst _ hA hB _ ih =>
    rw [forall_mem_cons, forall_mem_cons, forall_mem_cons, ih,
      decodeCells_isSome, decodableCell_of_value hA, decodableCell_of_key hB, and_assoc,
      and_left_comm]

end Extracted

/-- The pairs that the server verifies are those of the rows that the operation
stores, in the same order, if and only if every `_retention` cell of the entry
decodes. -/
theorem storedRetentionRows_eq_extracted_iff {codec : RuleCodec} {n : Nat} {db : Db}
    {entry : ChangelogEntry} {batch : Batch} (hDb : Reachable codec n db)
    (hOp : insertsRetention entry.message.opType)
    (hAccept : (dispatchExtractAndValidate (n + 1) entry).eval (plain codec db.reader) =
      .ok batch) :
    storedRetentionRows db batch =
        (extractRetentionWritesFromChange entry.message.entries).map some ↔
      DecodableRetention entry.message.entries := by
  obtain ⟨row, keys, cells, hPairs, hBatch⟩ :=
    (dispatch_storesCells hOp).of_eval (fun _ _ h => hDb.retentionSchema h) hAccept
  rw [storedRetentionRows_eq hPairs hBatch, ← decodableRetention_tableKvs,
    ← decodable_iff_of_rowPairs hPairs]
  constructor
  · intro hEq cell hCell
    have hMem : decodeCells cell ∈ cells.map decodeCells := mem_map_of_mem hCell
    rw [hEq] at hMem
    obtain ⟨pair, _, hPair⟩ := mem_map.mp hMem
    rw [← hPair]
    rfl
  · intro hDecode
    rw [extractRetentionWritesFromChange_eq hPairs hDecode,
      map_filterMap_some_eq_filter_map_isSome]
    exact (filter_eq_self.mpr (forall_mem_map.mpr hDecode)).symm

/-! ## What the client writes -/

/-- A cell of a `_retention` row whose id is not known yet. -/
def retentionCell (column : String) (value : Bytes) : KvData :=
  { key := columnKeyPlaceholder retentionTable column, value := value }

theorem parsedColumn?_retentionCell (column : String) (value : Bytes) :
    parsedColumn? (retentionCell column value).key = some (retentionTable, 0, column) :=
  parsedColumn?_columnKey _ _ (by decide)

/-- `append_retention_to_changelog`. -/
def appendRetentionToChangelog (writes : List (String × Bytes)) : List KvData :=
  writes.flatMap fun (key, value) =>
    [retentionCell "key" (stringToValueBytes key),
      retentionCell "value" (stringToValueBytes (encodeBase64 value))]

/-- Strings that fit into a cell. -/
def FitsCell (s : String) : Prop := (utf8 s).length < 2 ^ 64

theorem cellString_stringToValueBytes {s : String} (h : FitsCell s) :
    cellString (stringToValueBytes s) = some s := by
  simp [cellString, bytesToValue_stringToValueBytes h, Value.asStr]

/-- Cells that a client wrote decode. -/
theorem decodableRetention_append {writes : List (String × Bytes)}
    (h : ∀ write ∈ writes, FitsCell write.1 ∧ FitsCell (encodeBase64 write.2)) :
    DecodableRetention (appendRetentionToChangelog writes) := by
  intro kv hkv
  obtain ⟨write, hWrite, hkv⟩ := mem_flatMap.mp hkv
  obtain ⟨hKey, hValue⟩ := h write hWrite
  simp only [mem_cons, not_mem_nil, or_false] at hkv
  rcases hkv with rfl | rfl
  · rw [decodableCell_of_key (parsedColumn?_retentionCell _ _)]
    simp [retentionCell, cellString_stringToValueBytes hKey]
  · rw [decodableCell_of_value (parsedColumn?_retentionCell _ _)]
    simp [retentionCell, cellBlob, cellString_stringToValueBytes hValue]

/-! ## An extend whose rows are not the verified ones -/

section Sample

open Retention Crypto.KoalaBear

/-- User 1 creates a space with the retention rows of a fresh key chain. -/
def sampleCreateWithRetention : ChangelogEntry :=
  sampleEntry .createSpace 1 0 0 (sampleUser 1 1 ++ appendRetentionToChangelog
    (SpaceKey.new (P := Unit) (suite id (fun _ => 1) rawCodec) 1 2 Builder.noop).2.writes)

/-- The writes of an honest extend of that chain. -/
def rawExtend : List (String × Bytes) :=
  [((Cell.dCommitment 1).key, toBytes 2), (Cell.dNext.key, u64ToBytes 2)]

/-- An extend entry, honest or not. -/
def sampleExtendEntry (entries : List KvData) : ChangelogEntry :=
  sampleEntry .extend 1 1 1 entries

/-- Each pair is spread over two rows: one with its value and a number for a key,
one with its key and a number for a value. -/
def splitRows (writes : List (String × Bytes)) : List KvData :=
  writes.flatMap fun (key, value) =>
    [retentionCell "key" (i64ToValueBytes 0),
      retentionCell "value" (stringToValueBytes (encodeBase64 value)),
      retentionCell "key" (stringToValueBytes key),
      retentionCell "value" (i64ToValueBytes 0)]

/-- The retention proof of an entry is accepted on the stored state. -/
def proofAccepted (db : Db) (proofs : List (List Limbs)) (entry : ChangelogEntry) : Bool :=
  (verifyRetentionProofs (suite id (fun _ => 1) rawCodec)
    (revealingProver (suite id (fun _ => 1) rawCodec)) entry.message.opType proofs
    (retentionReader db)
    (pendingWritesView (extractRetentionWritesFromChange entry.message.entries))).isSome

/-- An honest extend stores what is verified. -/
theorem sampleExtend_stored_eq_verified : ∃ db batch, Reachable noRules 1 db ∧
    (dispatchExtractAndValidate 2 (sampleExtendEntry
      (appendRetentionToChangelog rawExtend))).eval (plain noRules db.reader) = .ok batch ∧
    storedRetentionRows db batch = (extractRetentionWritesFromChange
      (appendRetentionToChangelog rawExtend)).map some := by
  obtain ⟨db, hCreate, batch, hAccept⟩ : ∃ db,
      runEntry noRules 1 sampleCreateWithRetention internalDb = .ok db ∧ ∃ batch,
      Accepts noRules 2 db (sampleExtendEntry (appendRetentionToChangelog rawExtend)) batch := by
    decide +kernel
  have hReach := (Reachable.init .internal).runEntry hCreate
  refine ⟨db, batch, hReach, hAccept, ?_⟩
  refine (storedRetentionRows_eq_extracted_iff hReach rfl hAccept).mpr ?_
  refine decodableRetention_append ?_
  unfold FitsCell
  decide +kernel

/-- The split rows pass the same proof, and none of the four rows stored is
one of the two pairs verified. -/
theorem extend_stores_unverified_rows : ∃ db batch, Reachable noRules 1 db ∧
    proofAccepted db [[2]] (sampleExtendEntry (splitRows rawExtend)) = true ∧
    (dispatchExtractAndValidate 2 (sampleExtendEntry (splitRows rawExtend))).eval
      (plain noRules db.reader) = .ok batch ∧
    extractRetentionWritesFromChange (splitRows rawExtend) = rawExtend ∧
    storedRetentionRows db batch = [none, none, none, none] := by
  obtain ⟨db, hCreate, hProof, hExtract, batch, hAccept, hStored⟩ : ∃ db,
      runEntry noRules 1 sampleCreateWithRetention internalDb = .ok db ∧
      proofAccepted db [[2]] (sampleExtendEntry (splitRows rawExtend)) = true ∧
      extractRetentionWritesFromChange (splitRows rawExtend) = rawExtend ∧ ∃ batch,
      Accepts noRules 2 db (sampleExtendEntry (splitRows rawExtend)) batch ∧
      storedRetentionRows db batch = [none, none, none, none] := by
    decide +kernel
  exact ⟨db, batch, (Reachable.init .internal).runEntry hCreate, hProof, hAccept, hExtract, hStored⟩

end Sample

end EncryptedSpaces.Server
