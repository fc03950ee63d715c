import EncryptedSpaces.Encoding.Base64
import EncryptedSpaces.Ops.Database
import EncryptedSpaces.Retention.Store

/-!
# Reads of the server

The server reads rows through an index and reassembles them from their column
cells.  The retention reader looks a key up in the index of `_retention.key` and
takes the row with the highest id, which is the latest write.

Two properties of the scan matter to its callers.  It matches index keys by
their bytes: a NUL in a key is escaped by a byte pair that begins like the end
of a shorter key, so the scan for `k` also returns the rows of `k` followed by
NUL and more.  And one cell that does not decode, in any row found, makes the
whole read fail.

The order that `process_query_results` sorts rows into is left out: rows with
the same id are read from the same cells, so it cannot change which row is
the latest.
-/

namespace EncryptedSpaces.Server

open Encoding Changelog Ops Lib

/-! ## Scans -/

/-- `iter_prefix`: the entries whose keys start with the given bytes. -/
def iterPrefix (db : Db) (start : Bytes) : ReadResult :=
  db.toList.filter fun (key, _) => start.isPrefixOf key

/-- `index_row_keys_for_predicate` for equality, as row ids. -/
def indexRowIds (db : Db) (table column : String) (value : TupleElement) : List Int :=
  (iterPrefix db (indexValuePrefix table column value)).filterMap fun (key, _) =>
    match parseKey key with
    | .ok (.index _ _ _ rowId) => some rowId
    | _ => none

/-! ## Rows -/

/-- A row as a JSON object, the latest field first. -/
abbrev Row := List (String × Value)

def Row.get (row : Row) (column : String) : Option Value := row.lookup column

/-- `row.get("id").and_then(as_i64).unwrap_or(0)`. -/
def Row.id (row : Row) : Int := ((row.get "id").bind Value.asI64).getD 0

def reassembleRow (rowId : Int) (cells : ReadResult) : Except String Row :=
  cells.foldlM
    (fun row (key, bytes) =>
      match parsedColumn? key with
      | some (_, _, column) =>
        match bytesToValue bytes with
        | .ok value => .ok ((column, value) :: row)
        | .error e => .error s!"Failed to deserialize column '{column}': {e}"
      | none => .ok row)
    [("id", .int rowId)]

/-- Consecutive cells of one row; keys that are no column keys are skipped. -/
def groupCells : ReadResult → List (Int × ReadResult)
  | [] => []
  | (key, bytes) :: rest =>
    match parsedColumn? key with
    | some (_, rowId, _) =>
      match groupCells rest with
      | (rowId', cells) :: groups =>
        if rowId' = rowId then (rowId, (key, bytes) :: cells) :: groups
        else (rowId, [(key, bytes)]) :: (rowId', cells) :: groups
      | [] => [(rowId, [(key, bytes)])]
    | none => groupCells rest

def groupColumnsIntoRows (cells : ReadResult) : Except String (List Row) :=
  (groupCells cells).mapM fun (rowId, cells) => reassembleRow rowId cells

/-- `query_rows` for an equality on an indexed column.  The scan is not filtered
again by the value of the column.  The check that the column is indexed is left out:
the built-in schema of `_retention` indexes `key`. -/
def queryRowsByIndex (db : Db) (table column : String) (value : TupleElement) :
    Except String (List Row) :=
  groupColumnsIntoRows
    ((indexRowIds db table column value).flatMap fun rowId => iterPrefix db (rowKey table rowId))

/-! ## The retention reader -/

/-- `max_by_key` on the id: of several maxima the last. -/
def latestRow : List Row → Option Row
  | [] => none
  | row :: rows =>
    match latestRow rows with
    | none => some row
    | some best => if best.id < row.id then some row else some best

/-- The reader of `retention_reader`; the outer `none` is an error. -/
def retentionRead (db : Db) (key : String) : Option (Option Bytes) := do
  let rows ← (queryRowsByIndex db retentionTable "key" (.string key)).toOption
  match latestRow rows with
  | none => return none
  | some row =>
    let valueB64 ← (row.get "value").bind Value.asStr
    let value ← decodeBase64 valueB64
    return some value

/-- The state before a change, as the proof verifier reads it: it requires every
row it asks for, so a failed read and a missing row are the same to it. -/
def retentionReader (db : Db) : Retention.Reader Bytes := fun key => (retentionRead db key).join

/-! ## Frame -/

/-- A scan depends on the scanned keys only. -/
theorem iterPrefix_congr {db db' : Db} {start : Bytes}
    (h : ∀ key, start <+: key → db[key]? = db'[key]?) :
    iterPrefix db start = iterPrefix db' start := by
  have hMem : ∀ db : Db, ∀ kv, kv ∈ iterPrefix db start ↔ start <+: kv.1 ∧
      db[kv.1]? = some kv.2 := by
    intro db kv
    unfold iterPrefix
    rw [List.mem_filter, Std.ExtTreeMap.mem_toList_iff_getElem?_eq_some, List.isPrefixOf_iff_prefix,
      and_comm]
  have hSorted : ∀ db : Db, (iterPrefix db start).Pairwise fun a b => compare a.1 b.1 = .lt :=
    fun db => db.ordered_keys_toList.filter _
  have hNodup : ∀ db : Db, (iterPrefix db start).Nodup := by
    intro db
    refine (hSorted db).imp ?_
    rintro a _ hLt rfl
    simp at hLt
  refine List.Perm.eq_of_pairwise ?_ (hSorted db) (hSorted db') ?_
  · intro a b _ _ hab hba
    rw [Std.OrientedCmp.gt_of_lt hba] at hab
    cases hab
  · refine (List.perm_ext_iff_of_nodup (hNodup db) (hNodup db')).mpr fun kv => ?_
    rw [hMem, hMem]
    constructor
    · rintro ⟨hPrefix, hGet⟩
      exact ⟨hPrefix, h kv.1 hPrefix ▸ hGet⟩
    · rintro ⟨hPrefix, hGet⟩
      exact ⟨hPrefix, h kv.1 hPrefix ▸ hGet⟩

/-- A read of `_retention` depends on the row and index keys of the table only. -/
theorem retentionRead_congr {db db' : Db}
    (h : ∀ tag key, tag ≠ tagSchema → HasFront key tag retentionTable → db[key]? = db'[key]?) :
    retentionRead db = retentionRead db' := by
  funext key
  have hScan : iterPrefix db (indexValuePrefix retentionTable "key" (.string key)) =
      iterPrefix db' (indexValuePrefix retentionTable "key" (.string key)) :=
    iterPrefix_congr fun k hk => h tagIndex k (by decide) ( hasFront_of_prefix hk)
  have hRows : ∀ rowId, iterPrefix db (rowKey retentionTable rowId) =
      iterPrefix db' (rowKey retentionTable rowId) :=
    fun rowId => iterPrefix_congr fun k hk => h tagRow k (by decide) ( hasFront_of_prefix hk)
  unfold retentionRead queryRowsByIndex indexRowIds
  simp only [hScan, hRows]

end EncryptedSpaces.Server
