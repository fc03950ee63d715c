import EncryptedSpaces.Ops.KeyHistory

/-!
# Operations on the internal tables

CreateSpace, InviteUser, RemoveUser and RefreshKeys write `_users`,
`_key_history` and `_retention` rows; Extend, Reduce and Rekey write `_retention`
rows only.  All of them insert their `_retention` rows the same way, up to the
texts of their errors: the rows take consecutive ids from the table's counter.
-/

namespace EncryptedSpaces.Ops

open Encoding Changelog Lib

/-- What differs between the `_retention` inserts of the operations. -/
structure RetentionTexts where
  opName : String
  /-- How the error for missing columns names the write. -/
  missing : String
  /-- The error for an entry count that is no multiple of the column count. -/
  notMultiple : Nat → Nat → String

/-- The `_retention` insert of an operation: key and value cells under derived
row ids, the index entries, and the counter. -/
def retentionPuts (texts : RetentionTexts) (entries : List KvData) : OpM Batch := do
  let opName := texts.opName
  let expectedCols ← readSchemaColumns retentionTable opName
  let actualCols := columnNamesFromKeys (entries.map KvData.key)
  require (actualCols = expectedCols)
    (generic (s!"{opName}: {texts.missing} " ++
      debugNames (expectedCols.filter (· ∉ actualCols))))
  let colCount := expectedCols.length
  require (colCount ≠ 0) (generic s!"{opName}: _retention has no schema columns")
  require (entries.length % colCount = 0) (generic (texts.notMultiple entries.length colCount))
  let counter ← readNextId retentionTable opName
  let keys ← pureStep (deriveColumnKeysForChain entries counter colCount opName)
  let indexPuts ← appendMultiRowInsertIndexPuts retentionTable keys entries opName
  let bump ← pureStep
    (bumpNextIdAfterChain retentionTable counter (entries.length / colCount : Nat) opName)
  return (keys.zip entries).map (fun (key, kv) => kv.toBatchOp key) ++ indexPuts ++ bump

/-- Texts of the operations whose entry mixes `_retention` with other tables. -/
def compositeTexts (opName missing : String) : RetentionTexts where
  opName := opName
  missing := missing
  notMultiple count colCount :=
    s!"{opName}: _retention entry count {count} is not a multiple of col_count={colCount}"

/-! ## Extend, Reduce and Rekey -/

/-- The common body of the three operations that only write `_retention`. -/
def retentionChainOp (opType : OpType) (opName missing : String) (entry : ChangelogEntry) :
    OpM Batch := do
  let entries := entry.message.entries
  require (entries ≠ []) (generic s!"{opName}: no retention columns")
  let table ← pureStep (tableFromColumnKeys (entries.map KvData.key) opName)
  require (table = retentionTable)
    (generic (s!"{opName}: retention columns target table '{table}', " ++
      s!"expected '{retentionTable}'"))
  validateUserAccess entry opType opName
  let batch ← retentionPuts
    { opName := opName
      missing := missing
      notMultiple := fun count colCount =>
        s!"{opName}: entry count {count} is not a multiple of _retention col_count={colCount}" }
    entries
  return sortBatch batch

def extendOp : ChangelogEntry → OpM Batch :=
  retentionChainOp .extend "extend" "_retention insert missing columns"

def reduceOp : ChangelogEntry → OpM Batch :=
  retentionChainOp .reduce "reduce" "_retention operations missing columns"

def rekeyOp : ChangelogEntry → OpM Batch :=
  retentionChainOp .rekey "rekey" "_retention insert missing columns"

/-! ## CreateSpace and InviteUser -/

/-- The `_users` part of an entry has to write every schema column. -/
def requireUserColumns (opName : String) (userEntries : List KvData) : OpM Unit := do
  let expected ← readSchemaColumns usersTable opName
  let actual := columnNamesFromKeys (userEntries.map KvData.key)
  require (actual = expected)
    (generic (s!"{opName}: _users insert missing columns " ++
      debugNames (expected.filter (· ∉ actual))))

/-- The `_users` row under the next user id, and the counter. -/
def userInsertPuts (opName : String) (userEntries : List KvData) : OpM Batch := do
  let userRowId ← readNextId usersTable opName
  let keys ← pureStep (deriveColumnKeysWithRowId userEntries userRowId opName)
  let nextUserId ← pureStep (nextIdAfter userRowId usersTable opName)
  return (keys.zip userEntries).map (fun (key, kv) => kv.toBatchOp key) ++
    [nextIdPut usersTable nextUserId]

/-- The `_retention` part of a composite entry, which may be absent. -/
def optionalRetentionPuts (texts : RetentionTexts) (entries : List KvData) : OpM Batch :=
  if entries = [] then .ret [] else retentionPuts texts entries

def createSpaceOp (entry : ChangelogEntry) : OpM Batch := do
  let opName := "create_space"
  let parts ← pureStep (partitionCompositeEntry entry opName)
  require (parts.keyHistory = []) (generic s!"{opName}: unexpected _key_history entries")
  require (parts.users ≠ []) (generic s!"{opName}: _users entries must not be empty")
  let usersRead ← read (.keyPrefix (rowPrefix usersTable))
  require (usersRead = [])
    (generic (s!"{opName}: users table is not empty — " ++
      "CreateSpace can only be called on an empty space"))
  requireUserColumns opName parts.users
  let userPuts ← userInsertPuts opName parts.users
  let retentionPuts ← optionalRetentionPuts
    (compositeTexts opName "_retention missing columns") parts.retention
  return sortBatch (userPuts ++ retentionPuts)

def inviteUserOp (entry : ChangelogEntry) : OpM Batch := do
  let opName := "invite_user"
  let parts ← pureStep (partitionCompositeEntry entry opName)
  require (parts.keyHistory = []) (generic s!"{opName}: unexpected _key_history entries")
  require (parts.users ≠ []) (generic s!"{opName}: _users entries must not be empty")
  validateUserAccess entry .inviteUser opName
  requireUserColumns opName parts.users
  let insertedStatus ← pureStep (extractI64ColumnFromEntry entry usersTable "status" opName)
  require (isProvisionalStatus insertedStatus)
    (generic (s!"{opName}: inserted _users.status must be provisional (0), " ++
      s!"got {insertedStatus}"))
  let userPuts ← userInsertPuts opName parts.users
  -- retention rows are accepted here, although the operation needs no proof
  let retentionPuts ← optionalRetentionPuts
    (compositeTexts opName "_retention insert missing columns") parts.retention
  return sortBatch (userPuts ++ retentionPuts)

/-! ## RefreshKeys -/

/-- `REFRESH_KEYS_ALLOWED_COLUMNS`. -/
def refreshKeysAllowedColumns : List String := ["update_key", "auth_key", "status"]

/-- The index entries of a new `_key_history` row, and the counter. -/
def keyHistoryIndexPuts (opName : String) (khRowId : Int) (khEntries : List KvData) :
    OpM Batch := do
  let indexPuts ← appendInsertIndexPuts keyHistoryTable khRowId khEntries opName
  let bump ← pureStep (bumpNextIdAfterChain keyHistoryTable khRowId 1 opName)
  return indexPuts ++ bump

/-- The stored auth key of the user must be the one the entry retires. -/
def requireOldAuthKey (opName who : String) (uid : Nat) (khEntries : List KvData) :
    OpM Unit := do
  let oldAuthKey ← pureStep (extractValueFromKhEntries khEntries "old_auth_key" opName)
  let current ← readKey (columnKey usersTable uid "auth_key")
  let current ← orFail current (generic s!"{opName}: _users.auth_key not found for {who}")
  require (oldAuthKey = current)
    (generic (s!"{opName}: _key_history.old_auth_key does not match current " ++
      s!"_users.auth_key for {who}"))

def refreshKeysOp (entry : ChangelogEntry) : OpM Batch := do
  let opName := "refresh_keys"
  pureStep (validateSortedEntries entry opName)
  let parts ← pureStep (partitionCompositeEntry entry opName)
  require (parts.retention = []) (generic s!"{opName}: unexpected _retention entries")
  let khEntries := parts.keyHistory
  let usersEntries := parts.users
  require (khEntries ≠ []) (generic s!"{opName}: _key_history entries must not be empty")
  require (usersEntries ≠ []) (generic s!"{opName}: _users entries must not be empty")
  validateUserAccess entry .refreshKeys opName
  let khRowId ← readNextId keyHistoryTable opName
  let khColumnKeys ← pureStep (deriveColumnKeysWithRowId khEntries khRowId opName)
  let _ ← pureStep (validateKeyHistoryEntries khColumnKeys khEntries entry.uid opName)
  -- the `_users` keys are the entry's own, row id included
  let usersColumnKeys := usersEntries.map KvData.key
  let table ← pureStep (tableFromColumnKeys usersColumnKeys opName)
  require (table = usersTable) (generic s!"{opName}: must target _users table, got '{table}'")
  Prog.forEach (columnNamesFromKeys usersColumnKeys) fun column =>
    require (column ∈ refreshKeysAllowedColumns)
      (generic (s!"{opName}: column '{column}' is not allowed (only " ++
        debugNames refreshKeysAllowedColumns ++ ")"))
  let validTo ← pureStep (extractI64FromKhEntries khEntries "valid_to_change_id" opName)
  require (validTo = entry.sigRef)
    (generic (s!"{opName}: _key_history.valid_to_change_id={validTo} does not match " ++
      s!"entry.sig_ref={entry.sigRef}"))
  let validFrom ← pureStep (extractI64FromKhEntries khEntries "valid_from_change_id" opName)
  require (validFrom ≤ validTo)
    (generic (s!"{opName}: _key_history.valid_from_change_id={validFrom} must be <= " ++
      s!"valid_to_change_id={validTo}"))
  requireOldAuthKey opName s!"uid={entry.uid}" entry.uid khEntries
  let existing ← readKhRangesIndexed entry.uid opName
  pureStep (validateKhRange opName s!"uid={entry.uid}" s!"rotation of uid={entry.uid}"
    validFrom validTo existing)
  let indexPuts ← keyHistoryIndexPuts opName khRowId khEntries
  let khPuts := (khColumnKeys.zip khEntries).map fun (key, kv) => kv.toBatchOp key
  let usersPuts := usersEntries.map fun kv => kv.toBatchOp kv.key
  return sortBatch (khPuts ++ usersPuts ++ indexPuts)

/-! ## RemoveUser -/

/-- Cells of the removed user's history row: the end of its range is the
server's, not the entry's. -/
def removeUserCell (validTo : Int) (key : Bytes) (kv : KvData) : BatchOp :=
  match parsedColumn? key with
  | some (_, _, column) =>
    if column = "valid_to_change_id" then .put key (i64ToValueBytes validTo) else kv.toBatchOp key
  | none => kv.toBatchOp key

/-- `deleted_uid_i64 as u32`. -/
def truncateU32 (i : Int) : Nat := (i % 2 ^ 32).toNat

def removeUserOp (currentChangeId : Nat) (entry : ChangelogEntry) : OpM Batch := do
  let opName := "remove_user"
  let parts ← pureStep (partitionCompositeEntry entry opName)
  let khEntries := parts.keyHistory
  let userEntries := parts.users
  require (khEntries ≠ []) (generic s!"{opName}: _key_history entries must not be empty")
  require (userEntries ≠ []) (generic s!"{opName}: _users entries must not be empty")
  require (0 < currentChangeId)
    (generic s!"{opName}: cannot derive valid_to_change_id from current_change_id=0")
  let validTo : Int := (currentChangeId - 1 : Nat)
  let userColumnKeys := userEntries.map KvData.key
  let (userTable, deletedRowId) ← pureStep
    (validateConsistentColumnKeyRowId userColumnKeys opName "user")
  require (userTable = usersTable)
    (generic s!"{opName}: user columns target table '{userTable}', expected '{usersTable}'")
  let deletedUid := truncateU32 deletedRowId
  validateUserAccess entry .removeUser opName
  let expectedUserCols ← readSchemaColumns userTable opName
  -- the keys name one row, so `columns_by_row` has one entry
  let actualCols := columnNamesFromKeys userColumnKeys
  require (actualCols = expectedUserCols)
    (generic (s!"{opName}: row {deletedRowId} is missing columns " ++
      debugNames (expectedUserCols.filter (· ∉ actualCols)) ++
      " — deletes must cover all columns"))
  let khRowId ← readNextId keyHistoryTable opName
  let khColumnKeys ← pureStep (deriveColumnKeysWithRowId khEntries khRowId opName)
  let _ ← pureStep (validateKeyHistoryEntries khColumnKeys khEntries deletedUid opName)
  let validFrom ← pureStep (extractI64FromKhEntries khEntries "valid_from_change_id" opName)
  require (validFrom ≤ validTo)
    (generic (s!"{opName}: _key_history.valid_from_change_id={validFrom} must be <= " ++
      s!"valid_to_change_id={validTo}"))
  requireOldAuthKey opName s!"deleted uid={deletedUid}" deletedUid khEntries
  let existing ← readKhRangesIndexed deletedUid opName
  pureStep (validateKhRange opName s!"uid={deletedUid}" s!"history entry of uid={deletedUid}"
    validFrom validTo existing)
  let khPuts := (khColumnKeys.zip khEntries).map fun (key, kv) => removeUserCell validTo key kv
  let indexPuts ← keyHistoryIndexPuts opName khRowId khEntries
  let retentionPuts ← optionalRetentionPuts
    (compositeTexts opName "_retention insert missing columns") parts.retention
  return sortBatch (userColumnKeys.map .delete ++ khPuts ++ indexPuts ++ retentionPuts)

end EncryptedSpaces.Ops
