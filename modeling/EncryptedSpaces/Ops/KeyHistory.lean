import EncryptedSpaces.Ops.Helpers

/-!
# Key-history helpers

The checks that RefreshKeys and RemoveUser share on the `_key_history` part of
their entries, and the index reads behind them.
-/

namespace EncryptedSpaces.Ops

open Encoding Changelog Lib

/-- `KEY_HISTORY_REQUIRED_COLUMNS`. -/
def keyHistoryRequiredColumns : List String :=
  ["old_auth_key", "uid", "valid_from_change_id", "valid_to_change_id"]

/-- One position of the key comparison: the row id of the derived key must be
the one seen before, and both keys must name the same table and column. -/
def validateKeyHistoryColumn (opName : String) (i : Nat) (khRowId : Option Int) (colKey : Bytes)
    (kv : KvData) : Except ChangelogError Int :=
  match parsedColumn? colKey with
  | none => .error (keyMismatch s!"{opName}: kh proof key[{i}] is not a column key")
  | some (table, rowId, column) => do
      check (∀ prev ∈ khRowId, prev = rowId)
        (generic (s!"{opName}: _key_history proof must contain exactly one row id, " ++
          "got multiple"))
      match parsedColumn? kv.key with
      | none => .error (keyMismatch s!"{opName}: kh entry key[{i}] is not a column key")
      | some (entryTable, _, entryColumn) =>
        check (table = entryTable ∧ column = entryColumn)
          (keyMismatch (s!"{opName}: key_history column mismatch at [{i}]: " ++
            s!"proof=({table}, {column}), entry=({entryTable}, {entryColumn})"))
        return rowId

/-- The key comparison loop; it returns the common row id. -/
def validateKeyHistoryColumns (opName : String) :
    Nat → Option Int → List (Bytes × KvData) → Except ChangelogError (Option Int)
  | _, khRowId, [] => .ok khRowId
  | i, khRowId, (colKey, kv) :: rest => do
      let rowId ← validateKeyHistoryColumn opName i khRowId colKey kv
      validateKeyHistoryColumns opName (i + 1) (some rowId) rest

/-- The `uid` cell as the source reads it: `as_u64`, or the bits of `as_i64`. -/
def uidCell (value : Bytes) : Option Nat :=
  match bytesToValue value with
  | .error _ => none
  | .ok v =>
    match v.asU64 with
    | some n => some n
    | none => v.asI64.map ofI64

/-- A `uid` column of the history row must hold the expected user. -/
def validateKeyHistoryUid (opName : String) (expectedUid : Nat) (colKey : Bytes) (kv : KvData) :
    Except ChangelogError Unit :=
  match parsedColumn? colKey with
  | none => .ok ()
  | some (_, _, column) =>
    if column = "uid" then
      match uidCell kv.value with
      | none => .error (generic s!"{opName}: _key_history uid value is not a valid integer")
      | some uid => check (uid = expectedUid)
          (generic (s!"{opName}: _key_history uid={uid} does not match " ++
            s!"expected uid={expectedUid}"))
    else .ok ()

def validateKeyHistoryEntries (khColumnKeys : List Bytes) (khEntries : List KvData)
    (expectedUid : Nat) (opName : String) : Except ChangelogError Int := do
  let khRowId ← validateKeyHistoryColumns opName 0 none (khColumnKeys.zip khEntries)
  match khRowId with
  | none => .error (generic s!"{opName}: _key_history proof has no column keys")
  | some rowId =>
    let khTable ← tableFromColumnKeys khColumnKeys s!"{opName}/_key_history"
    check (khTable = keyHistoryTable)
      (generic (s!"{opName}: key_history columns target table '{khTable}', " ++
        s!"expected '{keyHistoryTable}'"))
    let khActual := columnNamesFromKeys khColumnKeys
    let _ ← keyHistoryRequiredColumns.mapM fun required => check (required ∈ khActual)
      (generic s!"{opName}: _key_history insert is missing required column '{required}'")
    let _ ← (khColumnKeys.zip khEntries).mapM fun (colKey, kv) =>
      validateKeyHistoryUid opName expectedUid colKey kv
    return rowId

/-- `extract_value_from_kh_entries`: the first cell of a column. -/
def extractValueFromKhEntries (khEntries : List KvData) (columnName opName : String) :
    Except ChangelogError Bytes :=
  let value := khEntries.findSome? fun kv =>
    match parsedColumn? kv.key with
    | some (_, _, column) => if column = columnName then some kv.value else none
    | none => none
  match value with
  | some value => .ok value
  | none => .error (generic s!"{opName}: _key_history.{columnName} not found in entries")

def extractI64FromKhEntries (khEntries : List KvData) (columnName opName : String) :
    Except ChangelogError Int := do
  let value ← extractValueFromKhEntries khEntries columnName opName
  decodeI64ColumnValue value opName s!"_key_history.{columnName}"

/-- The row id of one index entry, with the checks of `read_indexed_row_ids`. -/
def indexedRowId (table column opName : String) (pair : Bytes × Bytes) :
    Except ChangelogError Int := do
  let parsed ← mapError (parseKey pair.1) fun e =>
    generic s!"{opName}: failed to parse {table}.{column} index key: {e}"
  match parsed with
  | .index keyTable keyColumn _ rowId =>
    check (keyTable = table ∧ keyColumn = column)
      (generic s!"{opName}: unexpected key in {table}.{column} index scan")
    let encodedRowId ← rowIdToBytes rowId
    check (pair.2 = encodedRowId)
      (generic s!"{opName}: {table}.{column} index value for row_id={rowId} is malformed")
    return rowId
  | _ => .error (generic s!"{opName}: unexpected key in {table}.{column} index scan")

def readIndexedRowIds (table column : String) (value : Int) (opName : String) :
    OpM (List Int) := do
  let results ← read (.keyPrefix (indexValuePrefix table column (.int value)))
  let rowIds ← pureStep (results.mapM (indexedRowId table column opName))
  return btreeSetInt rowIds

/-- The `(valid_from, valid_to)` pair of one history row. -/
def readKhRange (opName : String) (rowId : Int) : OpM (Int × Int) := do
  let validFrom ← readKey (columnKey keyHistoryTable rowId "valid_from_change_id")
  let validTo ← readKey (columnKey keyHistoryTable rowId "valid_to_change_id")
  let validFrom ← orFail validFrom
    (generic s!"{opName}: _key_history.valid_from_change_id not found for row_id={rowId}")
  let validTo ← orFail validTo
    (generic s!"{opName}: _key_history.valid_to_change_id not found for row_id={rowId}")
  let validFrom ← pureStep
    (decodeI64ColumnValue validFrom opName "_key_history.valid_from_change_id")
  let validTo ← pureStep (decodeI64ColumnValue validTo opName "_key_history.valid_to_change_id")
  return (validFrom, validTo)

def readKhRangesIndexed (uid : Nat) (opName : String) : OpM (List (Int × Int)) := do
  let rowIds ← readIndexedRowIds keyHistoryTable "uid" uid opName
  Prog.collect rowIds (readKhRange opName)

/-- The range checks after the existing ranges of the user are known: no
overlap, and no gap to the latest one.  `who` and `first` complete the texts. -/
def validateKhRange (opName who first : String) (validFrom validTo : Int)
    (existing : List (Int × Int)) : Except ChangelogError Unit := do
  let _ ← existing.mapM fun (prevFrom, prevTo) =>
    check (¬ (validFrom ≤ prevTo ∧ prevFrom ≤ validTo))
      (generic (s!"{opName}: new _key_history range [{validFrom}, {validTo}] overlaps " ++
        s!"existing range [{prevFrom}, {prevTo}] for {who}"))
  match (existing.map (·.2)).max? with
  | some maxPrevTo =>
    -- `max_prev_to + 1` overflows, and aborts, only at the top of the range
    match checkedAdd maxPrevTo 1 with
    | none => .error (.aborted "attempt to add with overflow")
    | some expectedFrom =>
      check (validFrom = expectedFrom)
        (generic (s!"{opName}: _key_history.valid_from_change_id={validFrom} must be " ++
          s!"{expectedFrom} (previous valid_to + 1) for {who}"))
  | none =>
    check (validFrom = 0)
      (generic (s!"{opName}: _key_history.valid_from_change_id={validFrom} must be 0 for " ++
        s!"the first {first}"))

end EncryptedSpaces.Ops
