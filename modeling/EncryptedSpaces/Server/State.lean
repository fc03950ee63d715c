import EncryptedSpaces.Changelog.EntryBytes
import EncryptedSpaces.Changelog.Mmr
import EncryptedSpaces.FastForward.Witness
import EncryptedSpaces.Server.Query

/-!
# The state of a space and the checks of a submitted change

The server keeps the Merk tree, the changelog, the bytes behind hash-backed
columns, the last change of each user and the key-delivery slots.  This module
has the checks a change passes before it is applied; none of them writes.

Signature keys and their JSON form, the schema documents in the tree and the
hash functions belong to libraries and are parameters.
-/

namespace EncryptedSpaces.Server

open Encoding Changelog Ops Lib Acl FastForward

inductive ServerError where
  | generic (msg : String)
  | accessDenied (msg : String)
  | staleParent (msg : String)
  /-- No error of the source: the call unwinds and returns nothing. -/
  | panicked (msg : String)
  deriving DecidableEq, Repr

inductive ColumnType where
  | integer
  | string
  | real
  | fileRef
  | list
  | text
  | blob
  deriving DecidableEq, Repr

/-- The tree holds the hash of the value only. -/
def ColumnType.isHashBacked : ColumnType → Bool
  | .text | .blob => true
  | _ => false

structure ColumnDef where
  name : String
  columnType : ColumnType
  deriving DecidableEq, Repr

structure Schema where
  columns : List ColumnDef
  deriving DecidableEq, Repr

/-- The sidecar of a change: values by their hash. -/
abbrev HashedValues := Std.ExtTreeMap Digest Bytes compare

/-- A signed change as it is decoded from the wire.  A message is at most 64 MiB,
so every length in it fits in 32 bits. -/
structure Change where
  entry : ChangelogEntry
  hashedValues : HashedValues
  fits : entry.FitsWidths

structure AuthContext where
  uid : Option Int

structure ChangeResponse (T : Type) where
  oldRoot : Digest
  newRoot : Digest
  prunedMerkleTree : Witness T
  changeId : Nat
  rowsAffected : Nat
  acceptedAtServerTime : Nat
  hashedValues : HashedValues

/-- `ChangeLog`: `rootsByChangeId` starts with the root of the initial leaf. -/
structure ChangeLog where
  tree : MmrTree
  rootsByChangeId : List Digest
  initialDc : Digest
  changes : List ChangelogEntry
  ffProof : Bytes
  provenUpTo : Nat

def ChangeLog.numChanges (log : ChangeLog) : Nat := log.changes.length

def ChangeLog.rootAt (log : ChangeLog) (changeId : Nat) : Option Digest :=
  log.rootsByChangeId[changeId]?

structure SpaceState (T : Type) where
  tree : T
  changelog : ChangeLog
  changeResponses : List (ChangeResponse T)
  treeSnapshot : Option T
  ffBatchSize : Nat
  /-- The serialized envelope of each recipient. -/
  keyDeliverySlots : Std.ExtTreeMap Int Bytes compare
  sigrefMap : Std.ExtTreeMap Nat Nat compare
  hashStore : HashedValues

/-- What the server takes from libraries. -/
structure ServerParams (T V : Type) where
  H : Bytes → Digest
  merk : MerkOps T
  contents : T → Db
  codec : RuleCodec
  /-- The JSON schema document of a table. -/
  getSchema : Db → String → Option Schema
  /-- `serde_json::from_slice` at the key type. -/
  parseAuthKey : Bytes → Option V
  verifySignature : V → ChangelogEntry → Bool

def maxSidecarEntries : Nat := 128
def maxHashedValueBytes : Nat := 50 * 1024 * 1024
def maxStringColumnBytes : Nat := 128

/-- Fail with a generic message unless `c` holds. -/
def ensure (c : Prop) [Decidable c] (msg : String) : Except ServerError Unit :=
  if c then .ok () else .error (.generic msg)

def orGeneric {α : Type} (x : Option α) (msg : String) : Except ServerError α :=
  match x with
  | some a => .ok a
  | none => .error (.generic msg)

section Checks

variable {T V : Type} (P : ServerParams T V) (st : SpaceState T)

def SpaceState.db : Db := P.contents st.tree

/-! ## Sidecar -/

def validateHashedValues (hashedValues : HashedValues) : Except ServerError Unit := do
  ensure (hashedValues.size ≤ maxSidecarEntries)
    s!"hashed-values sidecar has {hashedValues.size} entries, maximum is {maxSidecarEntries}"
  let _ ← hashedValues.toList.foldlM
    (fun (total : Nat) (hash, value) => do
      ensure (value.length ≤ maxHashedValueBytes)
        s!"hashed value is {value.length} bytes, maximum is {maxHashedValueBytes}"
      ensure (total + value.length ≤ maxHashedValueBytes)
        (s!"hashed-values total size is {total + value.length} bytes, " ++
          s!"maximum is {maxHashedValueBytes}")
      ensure (∀ existing ∈ st.hashStore[hash]?, existing = value)
        "hashed value conflict: hash already exists with different value"
      return total + value.length)
    0
  return ()

/-- `resolve_from_hashed_values`: a 32-byte value that is a known hash stands for
the value behind it. -/
def resolveFromHashedValues (value : Bytes) (hashedValues : HashedValues) : Bytes :=
  if value.length = 32 then hashedValues[value]?.getD value else value

/-- `column_value_for_table`. -/
def columnValueForTable (change : Change) (table column : String) : Option Bytes :=
  change.entry.message.entries.findSome? fun kv =>
    match parsedColumn? kv.key with
    | some (t, _, c) =>
      if t = table ∧ c = column then
        some (resolveFromHashedValues kv.value change.hashedValues)
      else none
    | none => none

/-! ## Signature -/

def decodeAuthVerifyingKey (authKeyB64 : String) : Except ServerError V := do
  let jsonBytes ← orGeneric (decodeBase64 authKeyB64) "Failed to decode auth_key base64"
  orGeneric (P.parseAuthKey jsonBytes) "Failed to deserialize auth_key"

/-- A stored key: the JSON string of a base64 text. -/
def verifyingKeyOfBytes (resolved : Bytes) (label : String) : Except ServerError V := do
  let json ← orGeneric (bytesToValue resolved).toOption s!"Failed to decode {label} bytes"
  let b64 ← orGeneric json.asStr s!"{label} is not a base64 string"
  decodeAuthVerifyingKey P b64

/-- The value behind a cell that holds the hash of its content. -/
def resolveFromStore (raw : Bytes) (missing : String) : Except ServerError Bytes :=
  if raw.length = 32 then orGeneric st.hashStore[raw]? missing else .ok raw

def userTableVerifyingKey (uid : Nat) : Except ServerError V := do
  let raw ← orGeneric (st.db P)[columnKey usersTable uid "auth_key"]?
    s!"auth_key not found for uid {uid}"
  let resolved ← resolveFromStore st raw
    s!"missing hash store material for auth_key of uid {uid}"
  verifyingKeyOfBytes P resolved s!"auth_key for uid {uid}"

def createSpaceVerifyingKey (change : Change) : Except ServerError V := do
  let resolved ← orGeneric (columnValueForTable change usersTable "auth_key")
    "CreateSpace change is missing the _users.auth_key entry"
  verifyingKeyOfBytes P resolved "CreateSpace auth_key"

def signingKey (change : Change) : Except ServerError V :=
  match change.entry.message.opType with
  | .createSpace => createSpaceVerifyingKey P change
  | _ => userTableVerifyingKey P st change.entry.uid

def verifyChangeSignature (change : Change) : Except ServerError Unit := do
  ensure (change.entry.signature ≠ []) "Change is missing a signature"
  let vk ← signingKey P st change
  ensure (P.verifySignature vk change.entry) "Signature verification failed"

/-! ## Shape -/

/-- `tree_path == b"/"`. -/
def rootPath : Bytes := [0x2F]

/-- `validate_change_entries_against_schema`: the text limit of one cell. -/
def stringCellFits (schema : Schema) (kv : KvData) : Except ServerError Unit :=
  match parsedColumn? kv.key with
  | none => .ok ()
  | some (table, _, column) =>
    if (schema.columns.find? (·.name = column)).map (·.columnType) = some .string ∧
        ¬ isInternalTable table then
      match bytesToValue kv.value with
      | .error _ => .ok ()
      | .ok json =>
        let rawLen := (json.asStr.map fun s => (utf8 s).length).getD kv.value.length
        ensure (rawLen ≤ maxStringColumnBytes)
          (s!"String column '{table}.{column}' value is {rawLen} bytes, " ++
            s!"max is {maxStringColumnBytes}")
    else .ok ()

def validateChangeEntriesAgainstSchema (entry : ChangelogEntry) (schema : Schema) :
    Except ServerError Unit := do
  let expected := btreeSet ((schema.columns.map (·.name)).filter (· ≠ "id"))
  let actual := btreeSet (entry.message.entries.filterMap fun kv =>
    (parsedColumn? kv.key).map fun (_, _, column) => column)
  entry.message.entries.forM (stringCellFits schema)
  match entry.message.opType with
  | .insert | .delete =>
    ensure (actual = expected)
      s!"must cover all columns. Missing: {expected.diff actual}, Extra: {actual.diff expected}"
  | .update =>
    actual.forM (fun column => ensure (column ∈ expected) s!"references unknown column '{column}'")
  | _ => return ()

/-- The table of a row, row-prefix or column key. -/
def dataTable? (key : Bytes) : Option String :=
  match parseKey key with
  | .ok (.row table _) | .ok (.rowPrefix table) | .ok (.column table _ _) => some table
  | _ => none

def isListsColumn (kv : KvData) : Except ServerError Unit :=
  ensure ((parsedColumn? kv.key).map (·.1) = some listsTable)
    "List op entry must be a `_lists` column key"

def isActionMarker (key : Bytes) : Bool :=
  match parseKey key with
  | .ok (.actionMarker _) => true
  | _ => false

def ensureListOp (entry : ChangelogEntry) : Except ServerError Unit := do
  ensure (entry.message.treePath = rootPath) "List op requires tree_path \"/\""
  entry.message.entries.forM isListsColumn

def ensureActionOp (entry : ChangelogEntry) : Except ServerError Unit := do
  ensure (entry.message.treePath = rootPath) "Action op requires tree_path \"/\""
  let first ← orGeneric entry.message.entries.head? "Action op has no kvs"
  ensure (isActionMarker first.key) "Action op's first kv must be the action marker"

def ensureTableOp (entry : ChangelogEntry) : Except ServerError Unit := do
  ensure (entry.message.treePath = rootPath) "Unsupported tree_path"
  let first ← orGeneric entry.message.entries.head? "LogMessage has no entries"
  let table ← orGeneric (dataTable? first.key) "Unsupported key type"
  let schema ← orGeneric (P.getSchema (st.db P) table) s!"Table not found: {table}"
  validateChangeEntriesAgainstSchema entry schema

def ensureShape (entry : ChangelogEntry) : Except ServerError Unit :=
  match entry.message.opType with
  | .listAppend | .listInsert | .listUpdate | .listDelete => ensureListOp entry
  | .action => ensureActionOp entry
  | _ => ensureTableOp P st entry

def ensureChangeApplies (entry : ChangelogEntry) : Except ServerError Unit := do
  ensure (entry.message.entries ≠ []) "LogMessage has no entries"
  ensure (entry.message.entries.length ≤ maxLogmsgEntries)
    s!"LogMessage has {entry.message.entries.length} entries, maximum is {maxLogmsgEntries}"
  ensureShape P st entry

/-! ## Position in the log -/

/-- `get_row_by_id`: no cells, no row. -/
def getRowById (db : Db) (table : String) (rowId : Int) : Except String (Option Row) :=
  let cells := iterPrefix db (rowKey table rowId)
  if cells = [] then .ok none else (reassembleRow rowId cells).map some

/-- `is_provisional_user`.  All cells of the row are decoded, the hashes in
hash-backed columns as well; a row that fails to decode is not provisional. -/
def isProvisionalUser (uid : Int) : Bool :=
  ((getRowById (st.db P) usersTable uid).toOption.join.bind fun row =>
    (row.get "status").bind Value.asI64) = some 0

def enforceProvisionalRestrictions (entry : ChangelogEntry) : Except ServerError Unit :=
  ensure (isProvisionalUser P st entry.uid → entry.message.opType = .refreshKeys)
    "provisional_user_restricted: only RefreshKeys is allowed until key rotation completes"

/-- `validate_parent_change` against the id the change would get. -/
def validateParentWindow (entry : ChangelogEntry) : Except ServerError Unit :=
  if validateParentChange entry.parentChange (st.changelog.numChanges + 1) then .ok ()
  else .error (.staleParent (s!"parent_change {entry.parentChange} is invalid for prospective " ++
    s!"change {st.changelog.numChanges + 1} (MAX_PARENT_DISTANCE={maxParentDistance})"))

/-- `SpaceState::validate_parent_clc`. -/
def validateParentRoot (entry : ChangelogEntry) : Except ServerError Unit :=
  match st.changelog.rootAt entry.parentChange with
  | none => .error (.staleParent (s!"parent_change {entry.parentChange} refers to a " ++
      s!"non-existent changelog entry (chain has {st.changelog.numChanges} changes)"))
  | some expected =>
    if entry.parentClc = expected then .ok ()
    else .error (.staleParent s!"parent_clc mismatch at parent_change {entry.parentChange}")

/-- An error of the shared checks. -/
def ofChangelog {α : Type} (x : Except ChangelogError α) : Except ServerError α :=
  match x with
  | .ok a => .ok a
  | .error (.generic msg) | .error (.keyMismatch msg) | .error (.aclDenied msg)
  | .error (.aborted msg) => .error (.generic msg)

/-! ## Hash-backed columns -/

/-- The tables whose first leg in the stored action is a delete. -/
def deleteFirstTables (legs : List ActionLeg) : List String :=
  ((legs.map ActionLeg.table).dedup).filter fun table =>
    match legs.find? (·.table = table) with
    | some (.delete _) => true
    | _ => false

/-- A stored action body; `none` if nothing is stored. -/
def storedActionBody (primaryTable name : String) : Except ServerError (Option ActionBody) :=
  match (st.db P)[actionStorageKey primaryTable name]? with
  | none => .ok none
  | some bytes =>
    match decodeActionValue bytes with
    | .error e => .error (.generic s!"action '{name}': {e}")
    | .ok body =>
      match P.codec.decodeActionBody body with
      | .error e => .error (.generic s!"action '{name}' deser: {e}")
      | .ok body => .ok (some body)

/-- The primary table of an action marker. -/
def markerTable? (key : Bytes) : Option String :=
  match parseKey key with
  | .ok (.actionMarker primaryTable) => some primaryTable
  | _ => none

def actionDeleteTables (entry : ChangelogEntry) : Except ServerError (List String) := do
  let marker ← orGeneric entry.message.entries.head? "action change has no entries"
  match markerTable? marker.key with
  | none => return []
  | some primaryTable =>
    let name ← orGeneric (fromUtf8 marker.value) "action marker value is not UTF-8"
    let body ← storedActionBody P st primaryTable name
    return (body.map fun b => deleteFirstTables b.legs).getD []

/-- The hash-backed column a key names. -/
def hashBackedColumn? (key : Bytes) : Option (String × String) := do
  let (table, _, column) ← parsedColumn? key
  let schema ← P.getSchema (st.db P) table
  let columnDef ← schema.columns.find? (·.name = column)
  if columnDef.columnType.isHashBacked then some (table, column) else none

def isDeleteOnly : OpType → Bool
  | .delete | .removeUser | .listDelete => true
  | _ => false

/-- What a cell of a change refers to: nothing, or a hash that is known. -/
def referencedHash (change : Change) (deleteTables : List String) (kv : KvData) :
    Except ServerError (Option Digest) :=
  match hashBackedColumn? P st kv.key with
  | none => .ok none
  | some (table, column) =>
    if kv.value = [] then
      if isDeleteOnly change.entry.message.opType ∨
          (change.entry.message.opType = .action ∧ table ∈ deleteTables) then .ok none
      else .error (.generic s!"hash-backed column {table}.{column} has empty value")
    else if kv.value.length ≠ 32 then
      .error (.generic (s!"hash-backed column {table}.{column} value must be 32 bytes, " ++
        s!"got {kv.value.length}"))
    else if kv.value ∉ change.hashedValues ∧ kv.value ∉ st.hashStore then
      .error (.generic s!"missing hashed value for hash-backed column {table}.{column}")
    else .ok (some kv.value)

def deleteTablesOf (entry : ChangelogEntry) : Except ServerError (List String) :=
  if entry.message.opType = .action then actionDeleteTables P st entry else .ok []

def requireHashedValuesForChange (change : Change) : Except ServerError (List Digest) := do
  let deleteTables ← deleteTablesOf P st change.entry
  let hashes ← change.entry.message.entries.mapM (referencedHash P st change deleteTables)
  return hashes.filterMap id

def validateHashedValuesReferences (hashedValues : HashedValues) (referenced : List Digest) :
    Except ServerError Unit :=
  ensure (∀ hash ∈ hashedValues.keys, hash ∈ referenced)
    "unreferenced hashed value: hash is not used by this change"

/-- `insert_referenced_hashed_values`: values already stored stay. -/
def insertReferencedHashedValues (hashStore hashedValues : HashedValues)
    (referenced : List Digest) : HashedValues :=
  hashedValues.toList.foldl
    (fun store (hash, value) => if hash ∈ referenced then store.insertIfNew hash value else store)
    hashStore

/-- `collect_hashed_values_for_change`. -/
def collectHashedValuesForChange (hashStore : HashedValues) (entry : ChangelogEntry) :
    HashedValues :=
  entry.message.entries.foldl
    (fun values kv =>
      if (hashBackedColumn? P st kv.key).isSome ∧ kv.value.length = 32 then
        match hashStore[kv.value]? with
        | some value => values.insertIfNew kv.value value
        | none => values
      else values)
    ∅

end Checks

end EncryptedSpaces.Server
