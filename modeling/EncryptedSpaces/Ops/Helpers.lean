import EncryptedSpaces.Ops.Context

/-!
# Shared validation helpers

The helpers of `ops/mod.rs`.  Those that do not read are `Except` values; the
others are programs over the reader.
-/

namespace EncryptedSpaces.Ops

open Encoding Changelog Acl Lib

/-- Rust's debug rendering of a list of plain strings. -/
def debugNames (names : List String) : String :=
  "[" ++ ", ".intercalate (names.map fun name => "\"" ++ name ++ "\"") ++ "]"

/-- Turn an error text of the key layer into a changelog error. -/
def mapError {α : Type} (x : Except String α) (f : String → ChangelogError) :
    Except ChangelogError α :=
  match x with
  | .ok a => .ok a
  | .error e => .error (f e)

/-- A pure check. -/
def check (c : Prop) [Decidable c] (e : ChangelogError) : Except ChangelogError Unit :=
  if c then .ok () else .error e

/-! ## Entry shape -/

def validateMaxEntries (entry : ChangelogEntry) (opName : String) : Except ChangelogError Unit :=
  let numEntries := entry.message.entries.length
  check (numEntries ≤ maxLogmsgEntries)
    (generic (s!"{opName}: entry count {numEntries} exceeds " ++
      s!"MAX_LOGMSG_ENTRIES={maxLogmsgEntries}"))

def validateSortedEntries (entry : ChangelogEntry) (opName : String) :
    Except ChangelogError Unit :=
  check ((entry.message.entries.map KvData.key).IsChain (· < ·))
    (generic s!"{opName}: entries must be sorted by key")

def validateNotInternalTable (table opName : String) : Except ChangelogError Unit :=
  check (¬ table.toList.head? = some '_')
    (generic (s!"{opName}: table '{table}' is reserved and cannot " ++
      s!"be modified by {opName} — use the dedicated op instead"))

def columnKeysFromEntry (entry : ChangelogEntry) : List Bytes :=
    entry.message.entries.map KvData.key

/-- A kv whose key has the exact column shape. -/
structure ParsedColumnEntry where
  kv : KvData
  table : String
  rowId : Int
  column : String
  deriving DecidableEq, Repr

def parseColumnEntry (opName : String) (i : Nat) (kv : KvData) :
    Except ChangelogError ParsedColumnEntry := do
  let parsed ← mapError (parseColumnKeyRef kv.key) fun e =>
    keyMismatch s!"{opName}: entry[{i}] is not a column key: {e}"
  return { kv, table := parsed.table, rowId := parsed.rowId, column := parsed.column }

/-- Apply `f` to every element together with its index, from `i` on. -/
def mapIdxExcept {α β : Type} (f : Nat → α → Except ChangelogError β) :
    Nat → List α → Except ChangelogError (List β)
  | _, [] => .ok []
  | i, a :: l => do
      let b ← f i a
      let bs ← mapIdxExcept f (i + 1) l
      return b :: bs

def parseColumnEntries (entry : ChangelogEntry) (opName : String) :
    Except ChangelogError (List ParsedColumnEntry) :=
  mapIdxExcept (parseColumnEntry opName) 0 entry.message.entries

def validateSameTable (entries : List ParsedColumnEntry) (opName : String) :
    Except ChangelogError String :=
  match entries with
  | [] => .error (keyMismatch s!"{opName}: no column keys provided")
  | first :: rest => do
      let _ ← mapIdxExcept
        (fun i (e : ParsedColumnEntry) => check (e.table = first.table)
          (keyMismatch (s!"{opName}: column_key[{i}] has table '{e.table}' " ++
            s!"but expected '{first.table}' — all column_keys must refer to the same table")))
        1 rest
      return first.table

/-- The text shared by the two single-row checks. -/
def splitRowMessage (opName label : String) (i : Nat) (t : String) (r : Int) (table : String)
    (rowId : Int) : String :=
  s!"{opName}: {label} proof key[{i}] targets ({t}, {r}) " ++
    s!"but key[0] targets ({table}, {rowId}) — " ++
    "one insert must bind all columns to a single (table, row_id)"

def validateSameTableRow (entries : List ParsedColumnEntry) (opName label : String) :
    Except ChangelogError (String × Int) :=
  match entries with
  | [] => .error (generic s!"{opName}: {label} proof has no column keys")
  | first :: rest => do
      let _ ← mapIdxExcept
        (fun i (e : ParsedColumnEntry) => check (e.table = first.table ∧ e.rowId = first.rowId)
          (generic (splitRowMessage opName label i e.table e.rowId first.table first.rowId)))
        1 rest
      return (first.table, first.rowId)

def columnNameSet (entries : List ParsedColumnEntry) : List String :=
  btreeSet (entries.map ParsedColumnEntry.column)

/-- A `BTreeSet<i64>`, as its elements in order. -/
def btreeSetInt (ids : List Int) : List Int := ids.dedup.insertionSort (· ≤ ·)

@[simp] theorem mem_btreeSetInt {ids : List Int} {id : Int} : id ∈ btreeSetInt ids ↔ id ∈ ids := by
  simp [btreeSetInt, (List.perm_insertionSort _ _).mem_iff]

/-- A strictly increasing list with the same elements is the set. -/
theorem btreeSetInt_eq {ids sorted : List Int} (hSorted : sorted.Pairwise (· < ·))
    (hMem : ∀ id, id ∈ ids ↔ id ∈ sorted) : btreeSetInt ids = sorted := by
  have hPerm : (btreeSetInt ids).Perm sorted := by
    refine (List.perm_insertionSort _ _).trans ?_
    refine (List.perm_ext_iff_of_nodup (List.nodup_dedup ids) ?_).mpr fun id => ?_
    · exact hSorted.imp fun h => ne_of_lt h
    · rw [List.mem_dedup, hMem]
  refine hPerm.eq_of_pairwise (fun a b _ _ hab hba => le_antisymm hab hba) ?_ ?_
  · exact List.pairwise_insertionSort (· ≤ ·) _
  · exact hSorted.imp fun h => le_of_lt h

def uniqueRowIds (entries : List ParsedColumnEntry) : List Int :=
  btreeSetInt (entries.map ParsedColumnEntry.rowId)

/-- The column a key names, if `parse_key` reads it as a column key. -/
def parsedColumn? (key : Bytes) : Option (String × Int × String) :=
  match parseKey key with
  | .ok (.column table rowId column) => some (table, rowId, column)
  | _ => none

theorem parsedColumn?_eq_some_iff {key : Bytes} {table column : String} {rowId : Int} :
    parsedColumn? key = some (table, rowId, column) ↔
      parseKey key = .ok (.column table rowId column) := by
  unfold parsedColumn?
  split <;> simp_all

/-- A key is of one cell. -/
theorem cell_unique {key : Bytes} {table table' column column' : String} {rowId rowId' : Int}
    (h : parsedColumn? key = some (table, rowId, column))
    (h' : parsedColumn? key = some (table', rowId', column')) :
    table = table' ∧ rowId = rowId' ∧ column = column' := by
  simpa [h] using h'

/-- The kvs whose keys are columns of a table. -/
def tableKvs (kvs : List KvData) (table : String) : List KvData :=
  kvs.filter fun kv => ((parsedColumn? kv.key).map (·.1)) = some table

/-! ## Placeholder keys -/

def rebuildColumnKeyWithRowId (entryKey : Bytes) (newRowId : Int) (opName : String) :
    Except ChangelogError Bytes :=
  match parsedColumn? entryKey with
  | some (table, rowId, column) =>
    if rowId ≠ 0 then
      .error (keyMismatch (s!"{opName}: entry key for column '{column}' on table '{table}' " ++
        s!"has row_id={rowId} but expected the placeholder row_id=0"))
    else .ok (columnKey table newRowId column)
  | none => .error (keyMismatch s!"{opName}: entry key is not a column key")

def deriveColumnKeysWithRowId (entries : List KvData) (newRowId : Int) (opName : String) :
    Except ChangelogError (List Bytes) :=
  entries.mapM fun kv => rebuildColumnKeyWithRowId kv.key newRowId opName

/-- The loop of `derive_column_keys_for_chain`.  `seen` lists the columns met so
far, so that `column_counts[column]` is `seen.count column`. -/
def chainKeys (numRows : Nat) (counter : Int) (opName : String) :
    List KvData → List String → Except ChangelogError (List Bytes × List String)
  | [], seen => .ok ([], seen)
  | kv :: entries, seen =>
    match parsedColumn? kv.key with
    | none => .error (keyMismatch s!"{opName}: entry key is not a column key")
    | some (_, _, column) =>
      let occurrenceIdx := seen.count column
      if numRows ≤ occurrenceIdx then
        .error (generic s!"{opName}: column appears more than {numRows} times")
      else
        match checkedAdd counter occurrenceIdx with
        | none =>
          .error (generic (s!"{opName}: row_id chain overflowed at " ++
            s!"counter={counter}+{occurrenceIdx}"))
        | some rowId => do
            let key ← rebuildColumnKeyWithRowId kv.key rowId opName
            let (keys, seen) ← chainKeys numRows counter opName entries (column :: seen)
            return (key :: keys, seen)

def deriveColumnKeysForChain (entries : List KvData) (counter : Int) (colCount : Nat)
    (opName : String) : Except ChangelogError (List Bytes) := do
  check (colCount ≠ 0) (generic s!"{opName}: col_count must be non-zero")
  check (entries.length % colCount = 0)
    (generic (s!"{opName}: entry count {entries.length} is not a multiple of " ++
      s!"col_count={colCount}"))
  let numRows := entries.length / colCount
  let (keys, seen) ← chainKeys numRows counter opName entries []
  check (seen.dedup.length = colCount ∧ ∀ column ∈ seen, seen.count column = numRows)
    (generic (s!"{opName}: entries do not contain {numRows} values for each of " ++
      s!"{colCount} columns"))
  return keys

/-! ## Composite entries -/

structure PartitionedCompositeEntry where
  keyHistory : List KvData
  retention : List KvData
  users : List KvData

/-- The loop of `partition_composite_entry`, from index `i` on. -/
def partitionFrom (opName : String) :
    Nat → List KvData → Except ChangelogError PartitionedCompositeEntry
  | _, [] => .ok { keyHistory := [], retention := [], users := [] }
  | i, kv :: entries =>
    match parsedColumn? kv.key with
    | none => .error (keyMismatch s!"{opName}: entry[{i}] is not a column key")
    | some (table, _, _) =>
      if table = usersTable then do
        let parts ← partitionFrom opName (i + 1) entries
        return { parts with users := kv :: parts.users }
      else if table = retentionTable then do
        let parts ← partitionFrom opName (i + 1) entries
        return { parts with retention := kv :: parts.retention }
      else if table = keyHistoryTable then do
        let parts ← partitionFrom opName (i + 1) entries
        return { parts with keyHistory := kv :: parts.keyHistory }
      else .error (keyMismatch s!"{opName}: entry[{i}] targets unexpected table '{table}'")

def partitionCompositeEntry (entry : ChangelogEntry) (opName : String) :
    Except ChangelogError PartitionedCompositeEntry :=
  partitionFrom opName 0 entry.message.entries

/-! ## Users -/

def isProvisionalStatus (status : Int) : Bool := status == 0

def parseI64ColumnValue (value : Bytes) : Option Int :=
  match bytesToValue value with
  | .ok v => v.asI64
  | .error _ => none

def decodeI64ColumnValue (value : Bytes) (opName label : String) : Except ChangelogError Int :=
  match parseI64ColumnValue value with
  | some i => .ok i
  | none =>
    .error (generic s!"{opName}: failed to decode {label}: value is not a valid integer")

def readUserStatus (uid : Nat) (opName : String) : OpM (Option Int) := do
  let status ← readKey (columnKey usersTable uid "status")
  let value ← orFail status (generic s!"{opName}: user {uid} not found in users table")
  return parseI64ColumnValue value

def extractI64ColumnFromEntry (entry : ChangelogEntry) (table columnName opName : String) :
    Except ChangelogError Int :=
  let value := entry.message.entries.findSome? fun kv =>
    match parsedColumn? kv.key with
    | some (keyTable, _, column) =>
      if keyTable = table ∧ column = columnName then some kv.value else none
    | none => none
  match value with
  | none => .error (generic s!"{opName}: {table} insert is missing {columnName} column")
  | some value => decodeI64ColumnValue value opName s!"{table}.{columnName}"

def validateUserAccess (entry : ChangelogEntry) (opType : OpType) (opName : String) :
    OpM Unit := do
  let status ← readUserStatus entry.uid opName
  let isProvisional := (status.map isProvisionalStatus).getD false
  require (¬ (isProvisional = true ∧ opType ≠ .refreshKeys))
    (generic s!"{opName}: provisional user {entry.uid} may only perform RefreshKeys")

/-! ## Tables and counters -/

/-- The loop of `table_from_column_keys` after the first key. -/
def sameTableFrom (opName table : String) : Nat → List Bytes → Except ChangelogError String
  | _, [] => .ok table
  | i, key :: keys =>
    match parsedColumn? key with
    | none => .error (keyMismatch s!"{opName}: column_key[{i}] is not a column key")
    | some (t, _, _) =>
      if t ≠ table then
        .error (keyMismatch (s!"{opName}: column_key[{i}] has table '{t}' but expected " ++
          s!"'{table}' — all column_keys must refer to the same table"))
      else sameTableFrom opName table (i + 1) keys

def tableFromColumnKeys (columnKeys : List Bytes) (opName : String) :
    Except ChangelogError String :=
  match columnKeys with
  | [] => .error (keyMismatch s!"{opName}: no column keys provided")
  | key :: keys =>
    match parsedColumn? key with
    | none => .error (keyMismatch s!"{opName}: column_key[0] is not a column key")
    | some (table, _, _) => sameTableFrom opName table 1 keys

def columnNamesFromKeys (columnKeys : List Bytes) : List String :=
  btreeSet (columnKeys.filterMap fun key => (parsedColumn? key).map (·.2.2))

/-- `read_next_id`: an absent counter stands at `1`. -/
def readNextId (table opName : String) : OpM Int := do
  match ← readKey (schemaNextIdKey table) with
  | none => return 1
  | some bytes =>
    require (bytes.length = 8)
      (generic (s!"{opName}: next_id for table '{table}' has {bytes.length} bytes, " ++
        "expected 8 (big-endian i64)"))
    return i64FromBeBytes bytes

def verifyColumnAbsent (key : Bytes) (table : String) (rowId : Int) (column opName : String) :
    OpM Unit := do
  let results ← read (.key key)
  require (results = [])
    (generic (s!"{opName}: {table} row_id={rowId} already exists; representative column " ++
      s!"'{column}' is present"))

def nextIdAfter (rowId : Int) (table opName : String) : Except ChangelogError Int :=
  match checkedAdd rowId 1 with
  | some next => .ok next
  | none => .error (generic s!"{opName}: {table} next_id counter exhausted at row_id={rowId}")

def nextIdPut (table : String) (nextId : Int) : BatchOp :=
  .put (schemaNextIdKey table) (i64ToBeBytes nextId)

/-- The counter write after a chain insert; none for an empty chain. -/
def bumpNextIdAfterChain (table : String) (counter numRows : Int) (opName : String) :
    Except ChangelogError Batch :=
  if numRows = 0 then .ok []
  else
    match checkedAdd counter (numRows - 1) with
    | none =>
      .error (generic (s!"{opName}: {table} next_id chain overflowed at " ++
        s!"counter={counter}+{numRows}"))
    | some lastRowId => do
        let next ← nextIdAfter lastRowId table opName
        return [nextIdPut table next]

/-! ## Index entries -/

/-- `row_id_to_bytes`, whose assertion aborts on a negative id. -/
def rowIdToBytes (rowId : Int) : Except ChangelogError Bytes :=
  if 0 ≤ rowId then .ok (i64ToBeBytes rowId)
  else .error (.aborted "Row IDs must never be negative")

def buildIndexKey (table column : String) (valueBytes : Bytes) (rowId : Int) (opName : String) :
    Except ChangelogError Bytes := do
  let value ← mapError (bytesToValue valueBytes) fun e =>
    generic s!"{opName}: failed to decode indexed column '{column}': {e}"
  let element ← mapError value.toTupleElement fun e =>
    generic s!"{opName}: failed to convert indexed column '{column}' to TupleElement: {e}"
  return indexKey table column element rowId

def makeIndexPut (table column : String) (valueBytes : Bytes) (rowId : Int) (opName : String) :
    Except ChangelogError BatchOp := do
  let key ← buildIndexKey table column valueBytes rowId opName
  let rowIdBytes ← rowIdToBytes rowId
  return .put key rowIdBytes

def makeIndexDelete (table column : String) (valueBytes : Bytes) (rowId : Int) (opName : String) :
    Except ChangelogError BatchOp := do
  let key ← buildIndexKey table column valueBytes rowId opName
  return .delete key

def validateConsistentColumnKeyRowId (columnKeys : List Bytes) (opName label : String) :
    Except ChangelogError (String × Int) :=
  match columnKeys with
  | [] => .error (generic s!"{opName}: {label} proof has no column keys")
  | first :: rest =>
    match parsedColumn? first with
    | none => .error (generic s!"{opName}: {label} proof key[0] is not a column key")
    | some (table, rowId, _) => do
        let _ ← mapIdxExcept
          (fun i key =>
            match parsedColumn? key with
            | none => .error (generic s!"{opName}: {label} proof key[{i}] is not a column key")
            | some (t, r, _) => check (t = table ∧ r = rowId)
                (generic (splitRowMessage opName label i t r table rowId)))
          1 rest
        return (table, rowId)

/-- The last value an entry list gives for a column. -/
def inlineValue (entries : List KvData) (column : String) : Option Bytes :=
  entries.reverse.findSome? fun kv =>
    match parsedColumn? kv.key with
    | some (_, _, c) => if c = column then some kv.value else none
    | none => none

/-- Index puts of a single-row insert, for the values `valueOf` finds. -/
def indexPutsFor (table : String) (rowId : Int) (valueOf : String → Option Bytes) (opName : String)
    (columns : List String) : Except ChangelogError Batch :=
  columns.mapM fun column =>
    match valueOf column with
    | none => .error (generic s!"{opName}: missing indexed {table} column '{column}'")
    | some valueBytes => makeIndexPut table column valueBytes rowId opName

def appendInsertIndexPuts (table : String) (rowId : Int) (entries : List KvData)
    (opName : String) : OpM Batch := do
  let indexedColumns ← readSchemaIndexes table
  pureStep (indexPutsFor table rowId (inlineValue entries) opName indexedColumns)

/-- Index puts of a chain insert: the keys are cut into rows of `colCount`, and
every piece has to target one row of the table.  `start` is the index of the
first key of the piece. -/
def indexPutsByChunk (table : String) (colCount : Nat) (opName : String) :
    Nat → Nat → List Bytes → List KvData → OpM Batch
  | 0, _, _, _ => return []
  | chunks + 1, start, columnKeys, entries => do
      let (chunkTable, rowId) ← pureStep
        (validateConsistentColumnKeyRowId (columnKeys.take colCount) opName table)
      require (chunkTable = table)
        (generic s!"{opName}: {table} chunk starting at key[{start}] targets table '{chunkTable}'")
      let puts ← appendInsertIndexPuts table rowId (entries.take colCount) opName
      let rest ← indexPutsByChunk table colCount opName chunks (start + colCount)
        (columnKeys.drop colCount) (entries.drop colCount)
      return puts ++ rest

/-- `append_multi_row_insert_index_puts`; the number of pieces is the length
divided by the column count, rounded up. -/
def appendMultiRowInsertIndexPuts (table : String) (columnKeys : List Bytes)
    (entries : List KvData) (opName : String) : OpM Batch := do
  let columns ← readSchemaColumns table opName
  let colCount := columns.length
  if colCount = 0 then return []
  else
    indexPutsByChunk table colCount opName ((columnKeys.length + colCount - 1) / colCount) 0
      columnKeys entries

end EncryptedSpaces.Ops
