import EncryptedSpaces.Client.StoredRows

/-!
# Proven writes and the cache

`Cache.updateFromProvenWrites` brings the cache up to date with the writes of a
verified change.  Rows with a deleted cell leave the cache; written cells are
reassembled into rows and decrypted, and a row with every column of the schema is
inserted while a narrower one patches the cached row.  If a cell cannot be
decoded, every touched table is dropped from the cache.  A row that does not
decrypt is dropped from the update, and nothing else is.
-/

namespace EncryptedSpaces.Client

open Encoding Changelog Ops Server Lib

/-! ## The update -/

/-- The written cells of one row, in order. -/
def writtenCells (writes : List CellWrite) (table : String) (id : Int) : List (String × Bytes) :=
  (writesTo writes table id).filterMap fun write => write.value.map fun value =>
    (write.column, value)

/-- Rows with a written cell. -/
def putRows (writes : List CellWrite) : List (String × Int) :=
  ((writes.filter fun write => write.value.isSome).map fun write =>
    (write.table, write.rowId)).dedup

/-- Rows with a deleted cell. -/
def deletedRows (writes : List CellWrite) : List (String × Int) :=
  ((writes.filter fun write => write.value.isNone).map fun write =>
    (write.table, write.rowId)).dedup

def touchedTables (writes : List CellWrite) : List String := (writes.map (·.table)).dedup

/-- The row has every column of the schema. -/
def isFresh (spec : TableSpec) (row : RowObject) : Bool :=
  spec.nonIdColumns ≠ [] ∧ ∀ column ∈ spec.nonIdColumns, column ∈ row

/-- The columns of a row, without its id. -/
def rowPairs (row : RowObject) : List (String × Value) :=
  row.toList.filter fun (column, _) => column ≠ "id"

/-- `update_row`, then `invalidate_destination_buckets` if the row is not cached. -/
def TableCache.patchRow (cache : TableCache) (id : Int) (pairs : List (String × Value)) :
    TableCache :=
  (cache.updateRow id pairs).getD (cache.invalidateDestinationBuckets pairs)

/-- One decrypted row. -/
def Cache.applyRow (cache : Cache) (table : String) (spec : TableSpec) (row : RowObject) : Cache :=
  match row.intField "id" with
  | none => cache
  | some id =>
    if isFresh spec row then cache.insertRow table row
    else cache.modify table fun t => t.patchRow id (rowPairs row)

section Update

variable {KeyId Key : Type} (cipher : FieldCipher KeyId Key) (schemas : Schemas)

/-- `group_columns_into_rows_by_table_resolving_hashes`. -/
def groupWrites (known : Material) (writes : List CellWrite) :
    Option (List (String × RowObject)) :=
  (putRows writes).mapM fun (table, id) =>
    (reassembleCells schemas known table id (writtenCells writes table id)).map (table, ·)

instance lawfulBEqRowId : LawfulBEq (String × Int) := inferInstance

/-- Rows with a deleted cell are not written. -/
def stripDeleted (deleted : List (String × Int)) (rows : List (String × RowObject)) :
    List (String × RowObject) :=
  rows.filter fun (table, row) =>
    match row.intField "id" with
    | some id => (table, id) ∉ deleted
    | none => true

def rowsOfTable (rows : List (String × RowObject)) (table : String) : List RowObject :=
  sortById ((rows.filter fun row => row.1 = table).map Prod.snd)

/-- The rows of one table; a table without a schema is skipped. -/
def Cache.applyTable (resolver : Resolver KeyId Key) (cache : Cache) (table : String)
    (rows : List RowObject) : Cache :=
  match schemas table with
  | none => cache
  | some spec =>
    (decryptTableRows cipher resolver spec.encryptedColumns rows).foldl
      (fun cache row => cache.applyRow table spec row) cache

def Cache.removeRows (cache : Cache) (deleted : List (String × Int)) : Cache :=
  deleted.foldl (fun cache (table, id) => cache.removeRow table id) cache

def Cache.invalidateTables (cache : Cache) (tables : List String) : Cache :=
  tables.foldl Cache.invalidateTable cache

/-- `update_cache_from_proven_writes`. -/
def Cache.updateFromProvenWrites (resolver : Resolver KeyId Key) (known : Material)
    (cache : Cache) (writes : List CellWrite) : Cache :=
  match groupWrites schemas known writes with
  | none => cache.invalidateTables (touchedTables writes)
  | some rows =>
    let deleted := deletedRows writes
    let rows := stripDeleted deleted rows
    (rows.map Prod.fst).dedup.foldl
      (fun cache table =>
        cache.applyTable cipher schemas resolver table (rowsOfTable rows table))
      (cache.removeRows deleted)

end Update

/-! ## The update in blocks -/

/-- The parts of an update between two awaits; each runs under the state lock. -/
inductive UpdateBlock where
  | invalidate (tables : List String)
  | remove (deleted : List (String × Int))
  | apply (table : String) (rows : List RowObject)
  | clear

section Blocks

variable {KeyId Key : Type} (cipher : FieldCipher KeyId Key) (schemas : Schemas)

def Cache.runBlock (resolver : Resolver KeyId Key) (cache : Cache) : UpdateBlock → Cache
  | .invalidate tables => cache.invalidateTables tables
  | .remove deleted => cache.removeRows deleted
  | .apply table rows => cache.applyTable cipher schemas resolver table rows
  | .clear => cache.clearAll

/-- The blocks of `update_cache_from_proven_writes`. -/
def updateBlocks (known : Material) (writes : List CellWrite) : List UpdateBlock :=
  match groupWrites schemas known writes with
  | none => [.invalidate (touchedTables writes)]
  | some rows =>
    let deleted := deletedRows writes
    let rows := stripDeleted deleted rows
    .remove deleted :: (rows.map Prod.fst).dedup.map fun table =>
      .apply table (rowsOfTable rows table)

theorem foldl_runBlock_updateBlocks (resolver : Resolver KeyId Key) (known : Material)
    (cache : Cache) (writes : List CellWrite) :
    (updateBlocks schemas known writes).foldl (Cache.runBlock cipher schemas resolver) cache =
      cache.updateFromProvenWrites cipher schemas resolver known writes := by
  unfold updateBlocks Cache.updateFromProvenWrites
  cases groupWrites schemas known writes with
  | none => rfl
  | some rows =>
    rw [List.foldl_cons, List.foldl_map]
    rfl

end Blocks

end EncryptedSpaces.Client
