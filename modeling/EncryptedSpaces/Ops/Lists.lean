import EncryptedSpaces.Ops.Access

/-!
# List operations

Lists are doubly linked rows of the `_lists` table.  Head, tail and parent of a
list number live under schema keys; the parent is a cell of an application row
and has to exist for every operation.
-/

namespace EncryptedSpaces.Ops

open Encoding Changelog Acl Lib

def readI64Key (key : Bytes) (opName desc : String) : OpM Int := do
  let bytes ← orFail (← readKey key) (generic s!"{opName}: {desc} is missing")
  require (bytes.length = 8) (generic s!"{opName}: {desc} has {bytes.length} bytes, expected 8")
  return i64FromBeBytes bytes

def readI64Column (rowId : Int) (column opName : String) : OpM Int := do
  let bytes ← orFail (← readKey (columnKey listsTable rowId column))
    (generic s!"{opName}: _lists row {rowId} column '{column}' is missing")
  pureStep (decodeI64ColumnValue bytes opName s!"_lists.{column} (row {rowId})")

def i64Put (key : Bytes) (value : Int) : BatchOp := .put key (i64ToBeBytes value)

def storedI64Put (key : Bytes) (value : Int) : BatchOp := .put key (i64ToValueBytes value)

def readListNumber (targetId : Int) (opName : String) : OpM Int := do
  let listNumber ← readI64Column targetId "list_number" opName
  require (0 < listNumber)
    (generic s!"{opName}: target row {targetId} has invalid list_number {listNumber}")
  return listNumber

/-- The parent cell of a list, which has to exist in an application table. -/
def resolveListParent (listNumber : Int) (opName : String) : OpM (String × Int × String) := do
  let bytes ← orFail (← readKey (listParentKey listNumber))
    (generic s!"{opName}: list_parent_key({listNumber}) is missing")
  let (table, rowId, column) ← pureStep (mapError (decodeListParent bytes) fun e =>
    generic s!"{opName}: failed to decode list_parent_key({listNumber}): {e}")
  pureStep (validateNotInternalTable table opName)
  let cell ← readKey (columnKey table rowId column)
  require (cell ≠ none)
    (generic (s!"{opName}: parent row {table}/{rowId} does not exist; " ++
      s!"parent column '{column}' is absent"))
  return (table, rowId, column)

def listAclCheck (parentTable : String) (parentRowId : Int) (uid : Nat) (accessOp opName : String) :
    OpM Unit := do
  match ← readAclRule parentTable accessOp with
  | none => return ()
  | some rule =>
    let acl := aclCheckOf parentTable rule
    let values ← readColumnsFromTree parentTable parentRowId acl.neededColumns
    pureStep (evaluateAcl acl uid values opName)

def newRowPuts (newId listNumber prevId nextId : Int) (value : Bytes) : Batch :=
  [ storedI64Put (columnKey listsTable newId "list_number") listNumber,
    storedI64Put (columnKey listsTable newId "next_id") nextId,
    storedI64Put (columnKey listsTable newId "prev_id") prevId,
    .put (columnKey listsTable newId "value") value ]

/-- The list-number index is part of the `_lists` schema. -/
def requireListNumberIndex (opName : String) : OpM Unit := do
  let indexed ← readSchemaIndexes listsTable
  require ("list_number" ∈ indexed)
    (generic s!"{opName}: _lists schema is missing required list_number index")

def listNumberIndexPut (listNumber rowId : Int) (opName : String) : OpM BatchOp := do
  requireListNumberIndex opName
  pureStep (makeIndexPut listsTable "list_number" (i64ToValueBytes listNumber) rowId opName)

def placeholderValue (entry : ChangelogEntry) (opName : String) : Except ChangelogError Bytes :=
  match entry.message.entries.find? (·.key = columnKeyPlaceholder listsTable "value") with
  | some kv => .ok kv.value
  | none =>
    .error (generic s!"{opName}: missing placeholder column entry for `_lists.value`")

/-- The kv loop of `validate_placeholder_columns`; `seen` is what it has met. -/
def placeholderColumns (expected : List String) (opName : String) :
    List KvData → List String → Except ChangelogError (List String)
  | [], seen => .ok seen
  | kv :: entries, seen =>
    match parsedColumn? kv.key with
    | some (table, rowId, column) =>
      if table = listsTable ∧ rowId = 0 then
        if column ∉ expected then
          .error (generic s!"{opName}: unexpected placeholder column `_lists.{column}`")
        else if column ∈ seen then
          .error (generic s!"{opName}: duplicate placeholder column `_lists.{column}`")
        else placeholderColumns expected opName entries (column :: seen)
      else .error (generic s!"{opName}: entry must be a `_lists` placeholder column key")
    | none => .error (generic s!"{opName}: entry must be a `_lists` placeholder column key")

def validatePlaceholderColumns (entry : ChangelogEntry) (expected : List String)
    (opName : String) : Except ChangelogError Unit := do
  let seen ← placeholderColumns expected opName entry.message.entries []
  let _ ← expected.mapM fun column => check (column ∈ seen)
    (generic s!"{opName}: missing required placeholder column `_lists.{column}`")
  return ()

/-- The checks of a new list item, up to the new row id: its list number and the
id it takes. -/
def newItem (entry : ChangelogEntry) (opName : String) : OpM Int := do
  let listNumber ← pureStep (extractI64ColumnFromEntry entry listsTable "list_number" opName)
  require (0 < listNumber)
    (generic s!"{opName}: list_number {listNumber} must be positive")
  return listNumber

/-- Index entry and counter of a new list item. -/
def newItemTail (listNumber newId : Int) (opName : String) : OpM Batch := do
  let indexPut ← listNumberIndexPut listNumber newId opName
  let next ← pureStep (nextIdAfter newId listsTable opName)
  return [indexPut, nextIdPut listsTable next]

def listAppendOp (entry : ChangelogEntry) : OpM Batch := do
  let opName := "list_append"
  validateUserAccess entry .listAppend opName
  pureStep (validatePlaceholderColumns entry ["value", "list_number"] opName)
  let listNumber ← newItem entry opName
  let (parentTable, parentRowId, _) ← resolveListParent listNumber opName
  listAclCheck parentTable parentRowId entry.uid "write" opName
  let newId ← readNextId listsTable opName
  let tail ← readI64Key (listTailKey listNumber) opName s!"list_tail_key({listNumber})"
  let value ← pureStep (placeholderValue entry opName)
  let links :=
    if tail = 0 then
      newRowPuts newId listNumber 0 0 value ++
        [i64Put (listHeadKey listNumber) newId, i64Put (listTailKey listNumber) newId]
    else
      newRowPuts newId listNumber tail 0 value ++
        [storedI64Put (columnKey listsTable tail "next_id") newId,
          i64Put (listTailKey listNumber) newId]
  let rest ← newItemTail listNumber newId opName
  return links ++ rest

/-- Links of an item put before the head. -/
def prependLinks (listNumber newId : Int) (value : Bytes) (opName : String) : OpM Batch := do
  let head ← readI64Key (listHeadKey listNumber) opName s!"list_head_key({listNumber})"
  if head = 0 then
    return newRowPuts newId listNumber 0 0 value ++
      [i64Put (listHeadKey listNumber) newId, i64Put (listTailKey listNumber) newId]
  else
    return newRowPuts newId listNumber 0 head value ++
      [storedI64Put (columnKey listsTable head "prev_id") newId,
        i64Put (listHeadKey listNumber) newId]

/-- Links of an item put after `predecessorId`. -/
def insertAfterLinks (listNumber newId predecessorId : Int) (value : Bytes) (opName : String) :
    OpM Batch := do
  let predListNumber ← readI64Column predecessorId "list_number" opName
  require (predListNumber = listNumber)
    (generic (s!"{opName}: predecessor row {predecessorId} belongs to list {predListNumber}, " ++
      s!"expected {listNumber}"))
  let successor ← readI64Column predecessorId "next_id" opName
  return newRowPuts newId listNumber predecessorId successor value ++
    [storedI64Put (columnKey listsTable predecessorId "next_id") newId,
      if successor ≠ 0 then storedI64Put (columnKey listsTable successor "prev_id") newId
      else i64Put (listTailKey listNumber) newId]

/-- Links of a new item; predecessor `0` stands for the front. -/
def newItemLinks (listNumber newId predecessorId : Int) (value : Bytes) (opName : String) :
    OpM Batch :=
  if predecessorId = 0 then prependLinks listNumber newId value opName
  else insertAfterLinks listNumber newId predecessorId value opName

def listInsertOp (entry : ChangelogEntry) : OpM Batch := do
  let opName := "list_insert"
  validateUserAccess entry .listInsert opName
  pureStep (validatePlaceholderColumns entry ["value", "list_number", "prev_id"] opName)
  let listNumber ← newItem entry opName
  let predecessorId ← pureStep (extractI64ColumnFromEntry entry listsTable "prev_id" opName)
  require (0 ≤ predecessorId)
    (generic s!"{opName}: predecessor id {predecessorId} is negative")
  let (parentTable, parentRowId, _) ← resolveListParent listNumber opName
  listAclCheck parentTable parentRowId entry.uid "write" opName
  let value ← pureStep (placeholderValue entry opName)
  let newId ← readNextId listsTable opName
  let links ← newItemLinks listNumber newId predecessorId value opName
  let rest ← newItemTail listNumber newId opName
  return links ++ rest

/-- The row a list update addresses. -/
def listUpdateTarget (entry : ChangelogEntry) : Except ChangelogError (Int × KvData) :=
  match entry.message.entries with
  | [kv] =>
    match parsedColumn? kv.key with
    | some (table, rowId, column) =>
      if table = listsTable ∧ column = "value" then .ok (rowId, kv)
      else .error (generic "list_update: entry must address `_lists.<id>.value`")
    | none => .error (generic "list_update: entry must address `_lists.<id>.value`")
  | entries => .error (generic s!"list_update: expected exactly 1 entry, got {entries.length}")

def listUpdateOp (entry : ChangelogEntry) : OpM Batch := do
  let opName := "list_update"
  validateUserAccess entry .listUpdate opName
  let (targetId, kv) ← pureStep (listUpdateTarget entry)
  require (0 < targetId) (generic s!"{opName}: target id {targetId} must be positive")
  let listNumber ← readListNumber targetId opName
  let (parentTable, parentRowId, _) ← resolveListParent listNumber opName
  listAclCheck parentTable parentRowId entry.uid "write" opName
  return [.put (columnKey listsTable targetId "value") kv.value]

/-- The columns of a list item. -/
def listColumns : List String := ["list_number", "next_id", "prev_id", "value"]

/-- The tombstone loop of a list delete: the row it addresses and the columns it
has met. -/
def tombstones : List KvData → Option Int → List String →
    Except ChangelogError (Option Int × List String)
  | [], target, seen => .ok (target, seen)
  | kv :: entries, target, seen =>
    match parsedColumn? kv.key with
    | none => .error (generic "list_delete: entry must be a `_lists` column key")
    | some (table, rowId, column) => do
        check (table = listsTable) (generic "list_delete: entry must be a `_lists` column key")
        check (0 < rowId) (generic s!"list_delete: target id {rowId} must be positive")
        check (∀ existing ∈ target, existing = rowId)
          (generic s!"list_delete: all entries must address the same row id (vs {rowId})")
        check (column ∈ listColumns)
          (generic s!"list_delete: unexpected column `_lists.{column}`")
        check (column ∉ seen) (generic s!"list_delete: duplicate column `_lists.{column}`")
        check (kv.value = [])
          (generic (s!"list_delete: column `_lists.{column}` must carry an empty value " ++
            "payload (tombstone)"))
        tombstones entries (some rowId) (column :: seen)

def listDeleteTarget (entry : ChangelogEntry) : Except ChangelogError Int := do
  let (target, seen) ← tombstones entry.message.entries none []
  let _ ← listColumns.mapM fun column => check (column ∈ seen)
    (generic s!"list_delete: missing tombstone for `_lists.{column}`")
  match target with
  | some rowId => return rowId
  | none => .error (generic "list_delete: at least one tombstone entry required")

/-- Relink the neighbours of a deleted item. -/
def unlinkOps (listNumber prev next : Int) : Batch :=
  (if prev ≠ 0 then [storedI64Put (columnKey listsTable prev "next_id") next] else []) ++
    (if next ≠ 0 then [storedI64Put (columnKey listsTable next "prev_id") prev] else []) ++
    (if prev = 0 then [i64Put (listHeadKey listNumber) next] else []) ++
    (if next = 0 then [i64Put (listTailKey listNumber) prev] else [])

def listDeleteOp (entry : ChangelogEntry) : OpM Batch := do
  let opName := "list_delete"
  validateUserAccess entry .listDelete opName
  let targetId ← pureStep (listDeleteTarget entry)
  let listNumber ← readListNumber targetId opName
  let (parentTable, parentRowId, _) ← resolveListParent listNumber opName
  listAclCheck parentTable parentRowId entry.uid "delete" opName
  let prev ← readI64Column targetId "prev_id" opName
  let next ← readI64Column targetId "next_id" opName
  requireListNumberIndex opName
  let indexDelete ← pureStep
    (makeIndexDelete listsTable "list_number" (i64ToValueBytes listNumber) targetId opName)
  return listColumns.map (fun column => .delete (columnKey listsTable targetId column)) ++
    unlinkOps listNumber prev next ++ [indexDelete]

end EncryptedSpaces.Ops
