import EncryptedSpaces.Ops.KeyHistory

/-!
# Access control of the row operations

Rules are evaluated on the columns they name, taken from the entry or from the
tree; tables may restrict a kind of write to named actions.
-/

namespace EncryptedSpaces.Ops

open Encoding Changelog Acl Lib

structure AclCheck where
  rule : AccessRule
  resourceName : String
  neededColumns : List String

/-- The rule of a table as the row operations use it. -/
def aclCheckOf (table : String) (rule : AccessRule) : AclCheck :=
  { rule, resourceName := table, neededColumns := rule.resourceColumns }

/-- The resource row of `evaluate_acl`: needed columns only, decoded. -/
def aclResource (acl : AclCheck) (checkLabel : String) :
    List (String × Bytes) → Except ChangelogError (List (String × Value))
  | [] => .ok []
  | (name, bytes) :: rest =>
    if name ∈ acl.neededColumns then do
      let value ← mapError (bytesToValue bytes) fun e =>
        .aclDenied (s!"fail-closed: column '{name}' for {checkLabel} could not be decoded: " ++ e)
      let row ← aclResource acl checkLabel rest
      return (name, value) :: row
    else aclResource acl checkLabel rest

def evaluateAcl (acl : AclCheck) (uid : Nat) (columnValues : List (String × Bytes))
    (checkLabel : String) : Except ChangelogError Unit := do
  let resource ← aclResource acl checkLabel columnValues
  match acl.rule.evaluate (some (uid : Int)) resource with
  | .ok true => return ()
  | .ok false => .error (.aclDenied s!"{checkLabel}: uid={uid} resource={acl.resourceName}")
  | .error e => .error (.aclDenied s!"{checkLabel} evaluation error: {e}")

/-- `read_columns_from_tree`; the `id` column is the row id itself. -/
def readColumnsFromTree (table : String) (rowId : Int) :
    List String → OpM (List (String × Bytes))
  | [] => return []
  | column :: columns =>
    if column = "id" then do
      let rest ← readColumnsFromTree table rowId columns
      return ("id", i64ToValueBytes rowId) :: rest
    else do
      let value ← readKey (columnKey table rowId column)
      let rest ← readColumnsFromTree table rowId columns
      match value with
      | some bytes => return (column, bytes) :: rest
      | none => return rest

/-- `extract_acl_columns_from_entry`. -/
def extractAclColumnsFromEntry (entry : ChangelogEntry) (table : String) (rowIdFilter : Option Int)
    (idValue : Option Int) (neededColumns : List String) : List (String × Bytes) :=
  let wanted := fun (rowId : Int) => ∀ want ∈ rowIdFilter, want = rowId
  let synthesized := idValue.or (entry.message.entries.findSome? fun kv =>
    match parsedColumn? kv.key with
    | some (keyTable, rowId, _) => if keyTable = table ∧ wanted rowId then some rowId else none
    | none => none)
  let idCells :=
    if "id" ∈ neededColumns then (synthesized.map fun id => ("id", i64ToValueBytes id)).toList
    else []
  idCells ++ entry.message.entries.filterMap fun kv =>
    match parsedColumn? kv.key with
    | some (keyTable, rowId, column) =>
      if keyTable = table ∧ wanted rowId ∧ column ≠ "id" ∧ column ∈ neededColumns then
        some (column, kv.value)
      else none
    | none => none

def requireAllAclColumnsPresent (extracted : List (String × Bytes)) (neededColumns : List String) :
    Except ChangelogError Unit := do
  let _ ← neededColumns.mapM fun needed => check (needed ∈ extracted.map (·.1))
    (.aclDenied (s!"fail-closed: column '{needed}' is required for ACL evaluation but is not " ++
      "present in the changelog entry"))
  return ()

/-! ## Action gating -/

/-- `enforce_only_via_actions`; `actionName` is the action being dispatched, if
any. -/
def enforceOnlyViaActions (table opStr opName : String) (actionName : Option String) :
    OpM Unit := do
  match ← readOnlyViaActions table opStr with
  | none => return ()
  | some allowed =>
    match actionName with
    | none =>
      .fail (generic (s!"{opName}: table '{table}' is action-gated for {opStr}; direct ops " ++
        s!"are not allowed (entry must be an Action op via one of {debugNames allowed})"))
    | some name =>
      require (name ∈ allowed)
        (generic (s!"{opName}: table '{table}' is action-gated for {opStr}; action " ++
          s!"'{name}' is not in the allowed list {debugNames allowed}"))

def isInternalTable (name : String) : Bool :=
  name ∈ [usersTable, retentionTable, keyHistoryTable, "_access_control", "_lists"]

/-- The gating kind of a primitive operation. -/
def gatedKind : OpType → Option (String × String)
  | .insert => some ("write", "insert")
  | .update => some ("write", "update")
  | .delete => some ("delete", "delete")
  | _ => none

def enforceDispatchGating (entry : ChangelogEntry) (actionName : Option String) : OpM Unit :=
  match gatedKind entry.message.opType with
  | none => return ()
  | some (opStr, opName) =>
    let columnKeys := columnKeysFromEntry entry
    if columnKeys = [] then return ()
    else do
      let table ← pureStep (tableFromColumnKeys columnKeys opName)
      if isInternalTable table then return ()
      else enforceOnlyViaActions table opStr opName actionName

/-! ## Existence assertions -/

/-- The integer columns of an action's primary row; earlier bindings win. -/
abbrev SelfRow := List (String × Int)

def conjuncts : AccessRule → List AccessRule
  | .and left right => conjuncts left ++ conjuncts right
  | rule => [rule]

/-- The value side of an `exists` conjunct. -/
def existsValue (table opName : String) (selfUid : Nat) (selfRow : SelfRow) :
    RuleValue → Except ChangelogError Int
  | .int n => .ok n
  | .authUserId => .ok selfUid
  | .column .selfRow name =>
    match selfRow.lookup name with
    | some i => .ok i
    | none =>
      .error (generic (s!"{opName}: exists({table}, ...) references `self.{name}` but the " ++
        "self row has no integer value for that column"))
  -- the caller has already picked the other side as the row column
  | .column .resource _ => .error (.aborted "ruled out by the side-selection above")

/-- One conjunct `row.<col> == <value>` as a column and a value. -/
def existsConstraint (table opName : String) (selfUid : Nat) (selfRow : SelfRow) :
    AccessRule → Except ChangelogError (String × Int)
  | .comparison left .equal right =>
    match left, right with
    | .column .resource _, .column .resource _ =>
      .error (generic (s!"{opName}: exists({table}, ...) conjunct must have `row.<col>` on " ++
        "exactly one side"))
    | .column .resource col, value | value, .column .resource col => do
        return (col, ← existsValue table opName selfUid selfRow value)
    | _, _ =>
      .error (generic (s!"{opName}: exists({table}, ...) conjunct must have `row.<col>` on " ++
        "exactly one side"))
  | _ =>
    .error (generic (s!"{opName}: exists({table}, ...) inner predicate must be " ++
      "`row.<col> == <value>`"))

/-- Check the remaining constraints on the row that `id` pins. -/
def rowSatisfies (table opName : String) (rowId : Int) : List (String × Int) → OpM Bool
  | [] => return true
  | (col, expected) :: rest => do
      match ← readKey (columnKey table rowId col) with
      | none => return false
      | some bytes =>
        let actual ← pureStep (decodeI64ColumnValue bytes opName s!"{table}.{col} (row {rowId})")
        if actual ≠ expected then return false else rowSatisfies table opName rowId rest

/-- The rows matching every constraint, by intersecting index reads. -/
def intersectIndexed (table opName : String) : Option (List Int) → List (String × Int) →
    OpM (Option (List Int))
  | matching, [] => return matching
  | matching, (col, value) :: rest => do
      let rowIds ← readIndexedRowIds table col value opName
      let next := match matching with
        | none => rowIds
        | some prev => prev.filter (· ∈ rowIds)
      intersectIndexed table opName (some next) rest

def resolveExistsInOp (table : String) (inner : AccessRule) (selfUid : Nat) (selfRow : SelfRow)
    (opName : String) : OpM Bool := do
  let constraints ← pureStep
    ((conjuncts inner).mapM (existsConstraint table opName selfUid selfRow))
  require (constraints ≠ [])
    (generic s!"{opName}: exists({table}, ...) needs at least one constraint")
  let idValues := (constraints.filter (·.1 = "id")).map (·.2)
  let others := constraints.filter (·.1 ≠ "id")
  match idValues with
  | [] =>
    let matching ← intersectIndexed table opName none others
    return match matching with
      | none => false
      | some rowIds => !rowIds.isEmpty
  | rowId :: more =>
    -- two different ids cannot both hold
    if ∃ other ∈ more, other ≠ rowId then return false
    else if rowId = 0 then return false
    else if others = [] then do
      let results ← read (.keyPrefix (rowKey table rowId))
      return !results.isEmpty
    else rowSatisfies table opName rowId others

end EncryptedSpaces.Ops
