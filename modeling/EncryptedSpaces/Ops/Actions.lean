import EncryptedSpaces.Ops.Rows

/-!
# Action operations

An action entry names a declared action in its first kv and carries the column
kvs of the action's legs.  The legs run as the primitive operations on their own
part of the entry; cascade legs carry nothing and delete what the foreign-key
index names.
-/

namespace EncryptedSpaces.Ops

open Encoding Changelog Acl Lib

/-- The primary table and the action name, and the kvs after the marker. -/
def extractActionMarker (entry : ChangelogEntry) :
    Except ChangelogError (String × String × List KvData) :=
  match entry.message.entries with
  | [] => .error (generic "action: entry has no kvs")
  | marker :: rest => do
      let parsed ← mapError (parseKey marker.key) fun e =>
        generic s!"action: first kv key failed to parse: {e}"
      match parsed with
      | .actionMarker primaryTable =>
        match fromUtf8 marker.value with
        | some name => return (primaryTable, name, rest)
        | none => .error (generic "action: action marker value is not UTF-8")
      | _ => .error (generic "action: first kv is not an action marker")

/-- Whether a key is an action marker. -/
def isMarker (key : Bytes) : Bool :=
  match parseKey key with
  | .ok (.actionMarker _) => true
  | _ => false

def rejectStrayMarkers (actionName : String) (kvs : List KvData) : Except ChangelogError Unit := do
  let _ ← mapIdxExcept
    (fun i (kv : KvData) => check (isMarker kv.key = false)
      (generic s!"action '{actionName}': duplicate action marker at position {i}"))
    1 kvs
  return ()

/-- The legs on a table, by their indices. -/
def legIndices (legs : List ActionLeg) (table : String) : List Nat :=
  (legs.zipIdx.filter (·.1.table = table)).map (·.2)

/-- The tables of an action, in the order of a `BTreeMap`. -/
def legTables (legs : List ActionLeg) : List String := btreeSet (legs.map ActionLeg.table)

/-- A table with several legs has a primary one first and cascades after. -/
def validateLegShape (actionName : String) (legs : List ActionLeg) (table : String) :
    Except ChangelogError Unit :=
  match legIndices legs table with
  | [] | [_] => .ok ()
  | first :: rest => do
      check ((legs[first]?.map ActionLeg.isCascade).getD false = false)
        (generic (s!"action '{actionName}': table '{table}' is referenced by multiple legs but " ++
          "the first one is a cascade_delete; the first leg must be a primary " ++
          "insert/update/delete"))
      let _ ← rest.mapM fun i => check ((legs[i]?.map ActionLeg.isCascade).getD false = true)
        (generic (s!"action '{actionName}': table '{table}' is referenced by multiple legs but " ++
          s!"leg {i} is not a cascade_delete; same-table multi-leg actions only support a " ++
          "primary leg followed by cascade_delete legs"))
      return ()

/-- Every kv after the marker is a column of a table some leg names. -/
def validateLegKv (actionName : String) (legs : List ActionLeg) (kv : KvData) :
    Except ChangelogError Unit :=
  match parsedColumn? kv.key with
  | none =>
    .error (generic (s!"action '{actionName}': non-column kv found beyond the action marker"))
  | some (table, _, _) => check (table ∈ legs.map ActionLeg.table)
      (generic (s!"action '{actionName}': kv targets table '{table}' but no leg of the action " ++
        "writes there"))

/-- `partition_same_table_kvs`: with cascades on the same table, only one row may
be bundled, and cascades refer to `self.id`. -/
def partitionSameTableKvs (actionName table : String) (cascades : List ActionLeg)
    (kvs : List KvData) : Except ChangelogError Unit := do
  let _ ← cascades.mapM fun leg =>
    match leg with
    | .cascadeDelete _ _ whereSelfColumn =>
      check (whereSelfColumn = "id")
        (generic (s!"action.partition for action '{actionName}': cascade_delete on '{table}' " ++
          s!"references `self.{whereSelfColumn}`, but same-table cascade currently only " ++
          "supports `self.id`"))
    | _ => .ok ()
  let bucketIds := btreeSetInt (kvs.filterMap fun kv => (parsedColumn? kv.key).map (·.2.1))
  check (bucketIds.length ≤ 1)
    (generic (s!"action.partition for action '{actionName}': '{table}' bucket has " ++
      s!"{bucketIds.length} rows, but same-table multi-leg actions (primary + cascade_delete) " ++
      "accept only the primary row's kvs — cascade rows are derived server-side from the FK index"))

/-- The kvs of one leg: the first leg on a table takes all of them. -/
def legKvs (legs : List ActionLeg) (kvs : List KvData) (i : Nat) (leg : ActionLeg) :
    List KvData :=
  if (legIndices legs leg.table).head? = some i then tableKvs kvs leg.table else []

/-- The checks on how kvs are spread over the legs of one table. -/
def validateLegSplit (actionName : String) (legs : List ActionLeg) (kvs : List KvData)
    (table : String) : Except ChangelogError Unit :=
  match legIndices legs table with
  | [] | [_] => .ok ()
  | _ :: rest =>
    partitionSameTableKvs actionName table (rest.filterMap (legs[·]?)) (tableKvs kvs table)

/-- `self_row_from_leg_kvs`: integer cells by column, latest first, and `id` if
all kvs agree on the row. -/
def selfRowFromLegKvs (kvs : List KvData) : SelfRow :=
  let cells := kvs.filterMap fun kv => (parsedColumn? kv.key).map fun c => (c, kv.value)
  let ints := cells.filterMap fun ((_, _, column), value) =>
    (parseI64ColumnValue value).map fun i => (column, i)
  let rowIds := cells.map (·.1.2.1)
  match rowIds with
  | [] => ints.reverse
  | id :: rest => if ∀ r ∈ rest, r = id then ("id", id) :: ints.reverse else ints.reverse

/-- `resolve_self_value`. -/
def resolveSelfValue (selfUid : Nat) (selfRow : SelfRow) (opName : String) :
    RuleValue → Except ChangelogError Int
  | .int n => .ok n
  | .authUserId => .ok selfUid
  | .column .selfRow name =>
    match selfRow.lookup name with
    | some i => .ok i
    | none =>
      .error (generic (s!"{opName}: assertion references `self.{name}` but the self row has " ++
        "no integer value for that column"))
  | .column .resource name =>
    .error (generic (s!"{opName}: assertion references `row.{name}` outside an exists() body; " ++
      s!"use `self.{name}` for the action's outer row"))

/-- `evaluate_access_rule` of the action interpreter. -/
def evaluateAccessRule (selfUid : Nat) (selfRow : SelfRow) (opName : String) :
    AccessRule → Except ChangelogError Bool
  | .comparison left op right => do
      let l ← resolveSelfValue selfUid selfRow opName left
      let r ← resolveSelfValue selfUid selfRow opName right
      return op.holds l r
  | .and left right => do
      if ← evaluateAccessRule selfUid selfRow opName left then
        evaluateAccessRule selfUid selfRow opName right
      else return false
  | .or left right => do
      if ← evaluateAccessRule selfUid selfRow opName left then return true
      else evaluateAccessRule selfUid selfRow opName right
  | .not inner => do return !(← evaluateAccessRule selfUid selfRow opName inner)

def evaluateAssertion (selfUid : Nat) (selfRow : SelfRow) (opName : String) :
    Assertion → OpM Bool
  | .rule rule => pureStep (evaluateAccessRule selfUid selfRow opName rule)
  | .exists_ table predicate => resolveExistsInOp table predicate selfUid selfRow opName
  | .and left right => do
      let l ← evaluateAssertion selfUid selfRow opName left
      if l then evaluateAssertion selfUid selfRow opName right else return false
  | .or left right => do
      let l ← evaluateAssertion selfUid selfRow opName left
      if l then return true else evaluateAssertion selfUid selfRow opName right
  | .not inner => do
      let b ← evaluateAssertion selfUid selfRow opName inner
      return !b

def evaluateActionAsserts (actionName : String) (asserts : List Assertion) (selfRow : SelfRow)
    (selfUid : Nat) : OpM Unit :=
  Prog.forEach asserts.zipIdx fun (assertion, i) => do
    let ok ← evaluateAssertion selfUid selfRow actionName assertion
    require (ok = true) (generic s!"action '{actionName}': assertion #{i} evaluated to false")

/-- The columns an update leg may touch, if the leg lists them. -/
def enforceUpdateColsAllowlist (actionName table : String) (cols : Option (List String))
    (kvs : List KvData) : Except ChangelogError Unit :=
  match cols with
  | none => .ok ()
  | some allow => do
      let _ ← kvs.mapM fun kv =>
        match parsedColumn? kv.key with
        | none => .ok ()
        | some (_, _, column) => check (column ∈ allow)
            (generic (s!"action '{actionName}': update leg on '{table}' touches column " ++
              s!"'{column}', which is not in the action's cols allowlist {debugNames allow}"))
      return ()

/-- Delete one cascaded row: every schema column, and its index entries. -/
def cascadeRow (table opName : String) (schemaColumns indexedColumns : List String) (rowId : Int) :
    OpM Batch := do
  let indexDeletes ← rowIndexDeletes table rowId opName indexedColumns
  return schemaColumns.map (fun column => .delete (columnKey table rowId column)) ++ indexDeletes

def dispatchCascadeDelete (actionName table whereColumn whereSelfColumn : String)
    (selfRow : SelfRow) : OpM Batch := do
  let opName := "action.cascade_delete"
  let fkValue ← orFail (selfRow.lookup whereSelfColumn)
    (generic (s!"action '{actionName}': cascade_delete on '{table}' needs " ++
      s!"`self.{whereSelfColumn}` but the primary leg's self row has no integer value for that " ++
      "column"))
  let rowIds ← readIndexedRowIds table whereColumn fkValue opName
  if rowIds = [] then return []
  else
    let schemaColumns ← readSchemaColumns table opName
    let indexedColumns ← readSchemaIndexes table
    let rows ← Prog.collect rowIds (cascadeRow table opName schemaColumns indexedColumns)
    return rows.flatten

/-- The entry a leg's primitive operation sees. -/
def subsetEntry (entry : ChangelogEntry) (kvs : List KvData) : ChangelogEntry :=
  { entry with message := { entry.message with entries := kvs } }

/-- Run one leg. -/
def dispatchLeg (entry : ChangelogEntry) (actionName : String) (selfRow : SelfRow)
    (leg : ActionLeg) (kvs : List KvData) : OpM Batch :=
  match leg with
  | .insert table => do
      enforceOnlyViaActions table "write" "action" (some actionName)
      insertOp (subsetEntry entry kvs)
  | .update table cols => do
      enforceOnlyViaActions table "write" "action" (some actionName)
      pureStep (enforceUpdateColsAllowlist actionName table cols kvs)
      updateOp (subsetEntry entry kvs)
  | .delete table => do
      enforceOnlyViaActions table "delete" "action" (some actionName)
      deleteOp (subsetEntry entry kvs)
  | .cascadeDelete table whereColumn whereSelfColumn => do
      require (kvs = [])
        (generic (s!"action '{actionName}': cascade_delete leg on '{table}' carries " ++
          s!"{kvs.length} kvs in the signed entry, but cascade rows are enumerated server-side " ++
          "from the FK index — the entry must not pre-bundle them"))
      dispatchCascadeDelete actionName table whereColumn whereSelfColumn selfRow

def actionOp (entry : ChangelogEntry) : OpM Batch := do
  let (primaryTable, actionName, kvs) ← pureStep (extractActionMarker entry)
  pureStep (rejectStrayMarkers actionName kvs)
  let action ← orFail (← readAction primaryTable actionName)
    (generic s!"action '{actionName}' is not declared on table '{primaryTable}'")
  let legs := action.legs
  require (legs ≠ []) (generic s!"action '{actionName}': declares no legs")
  Prog.forEach (legTables legs) fun table => pureStep (validateLegShape actionName legs table)
  Prog.forEach kvs fun kv => pureStep (validateLegKv actionName legs kv)
  Prog.forEach (legTables legs) fun table =>
    pureStep (validateLegSplit actionName legs kvs table)
  let numbered := legs.zipIdx
  -- the first leg is the primary one
  let selfRow := selfRowFromLegKvs
    ((numbered.head?.map fun (leg, i) => legKvs legs kvs i leg).getD [])
  evaluateActionAsserts actionName action.asserts selfRow entry.uid
  let batches ← Prog.collect numbered fun (leg, i) =>
    dispatchLeg entry actionName selfRow leg (legKvs legs kvs i leg)
  return batches.flatten

end EncryptedSpaces.Ops
