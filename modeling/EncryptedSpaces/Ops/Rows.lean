import EncryptedSpaces.Ops.Access

/-!
# Insert, Update and Delete

The three operations on application tables.  Each derives its table from the
entry's own keys, refuses reserved tables, and emits the column writes together
with the index entries they imply.
-/

namespace EncryptedSpaces.Ops

open Encoding Changelog Acl Lib

/-! ## Insert -/

/-- The row id of an insert: the counter for auto-increment tables, the entry's
own id otherwise. -/
def resolveInsertId (table : String) (entryRowId : Int) (autoIncrement : Bool) : OpM Int :=
  match classifyInsertId (some entryRowId) autoIncrement with
  | .error e => .fail (keyMismatch s!"insert: {e.describe table}")
  | .ok .autoAssign => readNextId table "insert"
  | .ok (.explicit signedId) => return signedId

/-- List columns are signed with the placeholder `0`. -/
def validateListPlaceholders (listCols : List String) (entries : List ParsedColumnEntry) :
    Except ChangelogError Unit := do
  let _ ← entries.mapM fun parsed =>
    check (¬ (parsed.column ∈ listCols ∧ parsed.kv.value ≠ i64ToValueBytes 0))
      (generic s!"insert: List column '{parsed.column}' must carry placeholder value 0")
  return ()

/-- The first list number an insert may allocate. -/
def readListNumberBase (listCols : List String) : OpM Int :=
  if listCols = [] then return 0
  else do
    match ← readKey schemaNextListNumberKey with
    | none => return 1
    | some bytes =>
      require (bytes.length = 8)
        (generic s!"insert: schema_next_list_number_key has invalid length {bytes.length}")
      return i64FromBeBytes bytes

/-- `InsertOp`'s access check: every column the rule names must be in the
entry. -/
def checkInsertAcl (entry : ChangelogEntry) (table : String) (rowId : Int) : OpM Unit := do
  match ← readAclRule table "write" with
  | none => return ()
  | some rule =>
    let acl := aclCheckOf table rule
    let values := extractAclColumnsFromEntry entry table none (some rowId) acl.neededColumns
    pureStep (requireAllAclColumnsPresent values acl.neededColumns)
    pureStep (evaluateAcl acl entry.uid values "insert")

/-- Column puts of an insert.  A list column stores the next list number instead
of its placeholder; `allocated` lists the allocations, latest last. -/
def insertColumnPuts (listCols : List String) (base : Int) :
    List (ParsedColumnEntry × Bytes) → List (String × Int) →
      Except ChangelogError (Batch × List (String × Int))
  | [], allocated => .ok ([], allocated)
  | (parsed, key) :: rest, allocated =>
    if parsed.column ∈ listCols then
      match checkedAdd base allocated.length with
      | none =>
        .error (generic (s!"insert: list_number overflow at base={base}+" ++
          s!"offset={allocated.length}"))
      | some listNumber => do
          let (puts, allocated) ← insertColumnPuts listCols base rest
            (allocated ++ [(parsed.column, listNumber)])
          return (.put key (i64ToValueBytes listNumber) :: puts, allocated)
    else do
      let (puts, allocated) ← insertColumnPuts listCols base rest allocated
      return (parsed.kv.toBatchOp key :: puts, allocated)

/-- The last value the entries give for a column. -/
def parsedValue (entries : List ParsedColumnEntry) (column : String) : Option Bytes :=
  (entries.reverse.find? (·.column = column)).map (·.kv.value)

/-- Head, tail and parent of the lists an insert allocates, and their counter. -/
def newListPuts (table : String) (rowId base : Int) (allocated : List (String × Int)) :
    Except ChangelogError Batch :=
  if allocated = [] then .ok []
  else
    match checkedAdd base allocated.length with
    | none =>
      .error (generic (s!"insert: list_number counter overflow at base={base}+" ++
        s!"{allocated.length}"))
    | some newCounter =>
      .ok (.put schemaNextListNumberKey (i64ToBeBytes newCounter) ::
        allocated.flatMap fun (column, listNumber) =>
          [ .put (listHeadKey listNumber) (i64ToBeBytes 0),
            .put (listTailKey listNumber) (i64ToBeBytes 0),
            .put (listParentKey listNumber) (encodeListParent table rowId column) ])

/-- The counter of an auto-increment table, or the absence check of an explicit
id on the first inserted column. -/
def insertRowIdStep (table : String) (rowId : Int) (autoIncrement : Bool)
    (parsedEntries : List ParsedColumnEntry) (columnKeys : List Bytes) : OpM Batch :=
  if autoIncrement then do
    let next ← pureStep (nextIdAfter rowId table "insert")
    return [nextIdPut table next]
  else
    match columnKeys, parsedEntries with
    | key :: _, parsed :: _ => do
        verifyColumnAbsent key table rowId parsed.column "insert"
        return []
    | _, _ => .fail (generic "insert: no column keys")

def insertOp (entry : ChangelogEntry) : OpM Batch := do
  pureStep (validateSortedEntries entry "insert")
  let parsedEntries ← pureStep (parseColumnEntries entry "insert")
  let (table, entryRowId) ← pureStep (validateSameTableRow parsedEntries "insert" "insert")
  pureStep (validateNotInternalTable table "insert")
  let autoIncrement ← readAutoIncrement table "insert"
  let rowId ← resolveInsertId table entryRowId autoIncrement
  let columnKeys := parsedEntries.map fun parsed =>
    if autoIncrement then columnKey table rowId parsed.column else parsed.kv.key
  pureStep (validateMaxEntries entry "insert")
  validateUserAccess entry .insert "insert"
  let expected ← readSchemaColumns table "insert"
  let actual := columnNameSet parsedEntries
  require (actual.length = expected.length ∧ ∀ col ∈ actual, col ∈ expected)
    (generic (s!"insert: missing columns {debugNames (expected.filter (· ∉ actual))} — " ++
      "inserts must cover all columns"))
  let listCols ← readSchemaListColumns table
  pureStep (validateListPlaceholders listCols parsedEntries)
  let listNumberBase ← readListNumberBase listCols
  checkInsertAcl entry table rowId
  let (columnPuts, allocated) ← pureStep
    (insertColumnPuts listCols listNumberBase (parsedEntries.zip columnKeys) [])
  let indexedColumns ← readSchemaIndexes table
  let indexPuts ← pureStep (indexPutsFor table rowId (parsedValue parsedEntries) "insert"
    (indexedColumns.filter (· ∉ listCols)))
  let counterPuts ← insertRowIdStep table rowId autoIncrement parsedEntries columnKeys
  let listPuts ← pureStep (newListPuts table rowId listNumberBase allocated)
  return columnPuts ++ indexPuts ++ counterPuts ++ listPuts

/-! ## Update -/

/-- A `BTreeMap` with keys `(row_id, column)`, as its entries in key order. -/
abbrev CellMap (α : Type) := List ((Int × String) × α)

def CellMap.get {α : Type} (m : CellMap α) (key : Int × String) : Option α :=
  (m.find? (·.1 = key)).map (·.2)

/-- Insert or overwrite a cell. -/
def CellMap.insert {α : Type} (m : CellMap α) (key : Int × String) (a : α) : CellMap α :=
  match m with
  | [] => [(key, a)]
  | (key', a') :: rest =>
    if key = key' then (key, a) :: rest
    else if key.1 < key'.1 ∨ (key.1 = key'.1 ∧ key.2 < key'.2) then (key, a) :: (key', a') :: rest
    else (key', a') :: CellMap.insert rest key a

/-- Insert a cell unless it is there. -/
def CellMap.insertNew {α : Type} (m : CellMap α) (key : Int × String) (a : α) : CellMap α :=
  match m.get key with
  | some _ => m
  | none => m.insert key a

/-- The old cells an update reads: what the access rule needs of each row, the
old values of updated indexed columns, and one updated column for rows without
either. -/
def plannedReads (table : String) (parsedEntries : List ParsedColumnEntry) (rowIds : List Int)
    (neededColumns indexedColumns : List String) : CellMap Bytes :=
  let forAcl := rowIds.flatMap fun rowId =>
    (neededColumns.filter (· ≠ "id")).map fun column => (rowId, column)
  let forIndex := (parsedEntries.filter (·.column ∈ indexedColumns)).map fun parsed =>
    (parsed.rowId, parsed.column)
  let planned := (forAcl ++ forIndex).foldl
    (fun m cell => CellMap.insertNew m cell (columnKey table cell.1 cell.2)) []
  rowIds.foldl
    (fun m rowId =>
      if m.any (·.1.1 = rowId) then m
      else
        match parsedEntries.find? (·.rowId = rowId) with
        | some parsed => CellMap.insert m (rowId, parsed.column) parsed.kv.key
        | none => m)
    planned

/-- Read the planned cells in key order. -/
def readPlanned : CellMap Bytes → OpM (CellMap (Option Bytes))
  | [] => return []
  | (cell, key) :: rest => do
      let value ← readKey key
      let values ← readPlanned rest
      return (cell, value) :: values

/-- The existing columns of a row that the access rule needs. -/
def existingAclValues (rowId : Int) (neededColumns : List String)
    (oldValues : CellMap (Option Bytes)) : List (String × Bytes) :=
  neededColumns.filterMap fun column =>
    if column = "id" then some (column, i64ToValueBytes rowId)
    else
      match oldValues.get (rowId, column) with
      | some (some bytes) => some (column, bytes)
      | _ => none

/-- The access checks of an update, if there is a rule: on every existing row,
and on the new values of every row whose updated columns the rule names. -/
def checkUpdateAcl (entry : ChangelogEntry) (table : String) (acl : Option AclCheck)
    (parsedEntries : List ParsedColumnEntry) (rowIds : List Int)
    (oldValues : CellMap (Option Bytes)) : Except ChangelogError Unit :=
  match acl with
  | none => .ok ()
  | some acl => do
      let _ ← rowIds.mapM fun rowId =>
        evaluateAcl acl entry.uid (existingAclValues rowId acl.neededColumns oldValues)
          "update existing"
      let touched := rowIds.filter fun rowId => parsedEntries.any fun parsed =>
        parsed.rowId = rowId ∧ parsed.column ≠ "id" ∧ parsed.column ∈ acl.neededColumns
      let _ ← touched.mapM fun rowId =>
        evaluateAcl acl entry.uid
          (extractAclColumnsFromEntry entry table (some rowId) (some rowId) acl.neededColumns)
          "update new"
      return ()

/-- The cells an update writes, in key order, with their kv; a later kv for the
same cell replaces an earlier one. -/
def updatedCells (parsedEntries : List ParsedColumnEntry) : CellMap KvData :=
  parsedEntries.foldl (fun m parsed => CellMap.insert m (parsed.rowId, parsed.column) parsed.kv) []

/-- The index entry of an old value, if there is one. -/
def oldIndexDelete (table column : String) (rowId : Int) (opName : String) :
    Option Bytes → Except ChangelogError Batch
  | none => .ok []
  | some old => do
      let op ← makeIndexDelete table column old rowId opName
      return [op]

/-- Index writes of an update: the old entry goes, the new one comes. -/
def updateIndexOps (table : String) (indexedColumns : List String)
    (oldValues : CellMap (Option Bytes)) : CellMap KvData → Except ChangelogError Batch
  | [] => .ok []
  | ((rowId, column), kv) :: rest =>
    if column ∈ indexedColumns then do
      let deletes ← oldIndexDelete table column rowId "update"
        (oldValues.get (rowId, column)).join
      let put ← makeIndexPut table column kv.value rowId "update"
      let ops ← updateIndexOps table indexedColumns oldValues rest
      return deletes ++ put :: ops
    else updateIndexOps table indexedColumns oldValues rest

def updateOp (entry : ChangelogEntry) : OpM Batch := do
  pureStep (validateMaxEntries entry "update")
  pureStep (validateSortedEntries entry "update")
  validateUserAccess entry .update "update"
  let parsedEntries ← pureStep (parseColumnEntries entry "update")
  let table ← pureStep (validateSameTable parsedEntries "update")
  pureStep (validateNotInternalTable table "update")
  let valid ← readSchemaColumns table "update"
  let actual := columnNameSet parsedEntries
  Prog.forEach actual fun column =>
    require (column ∈ valid) (generic s!"update: column '{column}' does not exist in schema")
  let listCols ← readSchemaListColumns table
  Prog.forEach actual fun column =>
    require (column ∉ listCols)
      (generic (s!"update: column '{column}' is a List column and cannot be modified by UPDATE " ++
        "— use list operations instead"))
  let rowIds := uniqueRowIds parsedEntries
  let rule ← readAclRule table "write"
  let acl := rule.map (aclCheckOf table)
  let indexedColumns ← readSchemaIndexes table
  let neededColumns := (acl.map AclCheck.neededColumns).getD []
  let oldValues ← readPlanned (plannedReads table parsedEntries rowIds neededColumns indexedColumns)
  Prog.forEach rowIds fun rowId =>
    require (oldValues.any fun (cell, value) => cell.1 = rowId ∧ value.isSome)
      (generic (s!"update: {table} row_id={rowId} does not exist; all planned old column reads " ++
        "were absent"))
  pureStep (checkUpdateAcl entry table acl parsedEntries rowIds oldValues)
  let columnPuts := parsedEntries.map fun parsed => parsed.kv.toBatchOp parsed.kv.key
  let indexOps ← pureStep
    (updateIndexOps table indexedColumns oldValues (updatedCells parsedEntries))
  return columnPuts ++ indexOps

/-! ## Delete -/

/-- The rows a delete names, with the columns it lists for each. -/
def columnsByRow (entries : List KvData) : List (Int × List String) :=
  let cells := entries.filterMap fun kv => (parsedColumn? kv.key).map (·.2)
  (btreeSetInt (cells.map (·.1))).map fun rowId =>
    (rowId, btreeSet ((cells.filter (·.1 = rowId)).map (·.2)))

/-- The index entries of one row, from the stored values of its indexed
columns. -/
def rowIndexDeletes (table : String) (rowId : Int) (opName : String) : List String → OpM Batch
  | [] => return []
  | column :: columns => do
      let value ← readKey (columnKey table rowId column)
      let deletes ← pureStep (oldIndexDelete table column rowId opName value)
      let ops ← rowIndexDeletes table rowId opName columns
      return deletes ++ ops

def checkDeleteAcl (entry : ChangelogEntry) (table : String) (rowIds : List Int) : OpM Unit := do
  match ← readAclRule table "delete" with
  | none => return ()
  | some rule =>
    let acl := aclCheckOf table rule
    Prog.forEach rowIds fun rowId => do
      let values ← readColumnsFromTree table rowId acl.neededColumns
      pureStep (evaluateAcl acl entry.uid values "delete")

def deleteOp (entry : ChangelogEntry) : OpM Batch := do
  let columnKeys := columnKeysFromEntry entry
  pureStep (validateMaxEntries entry "delete")
  pureStep (validateSortedEntries entry "delete")
  validateUserAccess entry .delete "delete"
  let table ← pureStep (tableFromColumnKeys columnKeys "delete")
  pureStep (validateNotInternalTable table "delete")
  let expectedColumns ← readSchemaColumns table "delete"
  let rows := columnsByRow entry.message.entries
  Prog.forEach rows fun (rowId, actualColumns) =>
    require (actualColumns = expectedColumns)
      (generic (s!"delete: row {rowId} is missing columns " ++
        debugNames (expectedColumns.filter (· ∉ actualColumns)) ++
        " — deletes must cover all columns"))
  let rowIds := rows.map (·.1)
  checkDeleteAcl entry table rowIds
  let indexedColumns ← readSchemaIndexes table
  let indexDeletes ← Prog.collect rowIds fun rowId =>
    rowIndexDeletes table rowId "delete" indexedColumns
  return columnKeys.map .delete ++ indexDeletes.flatten

end EncryptedSpaces.Ops
