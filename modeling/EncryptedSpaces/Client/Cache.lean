import EncryptedSpaces.Encoding.Values
import Std.Data.ExtTreeMap

/-!
# The row cache

Decrypted rows by table and id, with an index over every plaintext integer
column.  A table may be marked complete, and so may a value of an indexed column;
only then are rows served without asking the server, apart from rows asked for by
their ids.

The maps of the source are hash maps, and rows are sorted by id before they are
served; here the maps are sorted.  The sets of an index are lists.
-/

namespace EncryptedSpaces.Client

open Encoding

/-- A row as a JSON object. -/
abbrev RowObject := Std.ExtTreeMap String Value compare

/-- `row.get(column).and_then(as_i64)`. -/
def RowObject.intField (row : RowObject) (column : String) : Option Int :=
  row[column]?.bind Value.asI64

/-- The columns of an update written over a row. -/
def RowObject.overlay (row : RowObject) (updates : List (String × Value)) : RowObject :=
  updates.foldl (fun row (column, value) => row.insert column value) row

/-- The order of `sort_by_key` on the id, which is `0` if it is missing. -/
def sortById (rows : List RowObject) : List RowObject :=
  rows.insertionSort fun a b => (a.intField "id").getD 0 ≤ (b.intField "id").getD 0

/-- The pairs `(column_value, row_id)`, and the values with all their rows. -/
structure ColumnIndex where
  entries : List (Int × Int)
  completeValues : List Int

def ColumnIndex.new : ColumnIndex := { entries := [], completeValues := [] }

abbrev Indexes := Std.ExtTreeMap String ColumnIndex compare

structure TableCache where
  rows : Std.ExtTreeMap Int RowObject compare
  indexes : Indexes
  isComplete : Bool
  lastAccessed : Nat

structure Cache where
  tables : Std.ExtTreeMap String TableCache compare
  maxTables : Nat
  enabled : Bool

/-! ## Indexes -/

/-- Index entries of a row. -/
def Indexes.addRow (indexes : Indexes) (id : Int) (row : RowObject) : Indexes :=
  indexes.map fun column index =>
    match row.intField column with
    | some value => { index with entries := index.entries.insert (value, id) }
    | none => index

/-- The entries of a row go. -/
def Indexes.removeRow (indexes : Indexes) (id : Int) (row : RowObject) : Indexes :=
  indexes.map fun column index =>
    match row.intField column with
    | some value => { index with entries := index.entries.filter (· ≠ (value, id)) }
    | none => index

/-- The entries of a row go, and its values are no longer complete. -/
def Indexes.dropStale (indexes : Indexes) (id : Int) (row : RowObject) : Indexes :=
  indexes.map fun column index =>
    match row.intField column with
    | some value =>
      { entries := index.entries.filter (· ≠ (value, id))
        completeValues := index.completeValues.filter (· ≠ value) }
    | none => index

/-- An index for every column, the existing ones kept. -/
def Indexes.ensure (indexes : Indexes) (columns : List String) : Indexes :=
  columns.foldl (fun indexes column => indexes.insertIfNew column ColumnIndex.new) indexes

def TableCache.new (now : Nat) (indexedColumns : List String) : TableCache where
  rows := ∅
  indexes := Indexes.ensure ∅ indexedColumns
  isComplete := false
  lastAccessed := now

/-! ## Queries -/

/-- The rows of one value of a column. -/
def TableCache.bucket (cache : TableCache) (index : ColumnIndex) (value : Int) : List RowObject :=
  sortById ((index.entries.filter (·.1 = value)).filterMap fun (_, rowId) => cache.rows[rowId]?)

/-- The second way to hit: one indexed predicate with a complete value. -/
def TableCache.indexedAnswer (cache : TableCache) (whereClauses : List (String × Int)) :
    Option (List RowObject) :=
  match whereClauses with
  | [(column, value)] => do
      let index ← cache.indexes[column]?
      if value ∈ index.completeValues then some (cache.bucket index value) else none
  | _ => none

/-- A complete table answers with all its rows; rows asked for by id have to be
there. -/
def TableCache.answer (cache : TableCache) (whereClauses : List (String × Int))
    (idLookups : List Int) : Option (List RowObject) :=
  if cache.isComplete then some (sortById (cache.rows.toList.map Prod.snd))
  else
    match cache.indexedAnswer whereClauses with
    | some rows => some rows
    | none =>
      if idLookups ≠ [] ∧ whereClauses = [] then idLookups.mapM fun id => cache.rows[id]?
      else none

def Cache.tryQuery (cache : Cache) (now : Nat) (table : String)
    (whereClauses : List (String × Int)) (idLookups : List Int) :
    Option (List RowObject) × Cache :=
  if cache.enabled then
    match cache.tables[table]? with
    | none => (none, cache)
    | some t =>
      (t.answer whereClauses idLookups,
        { cache with tables := cache.tables.insert table { t with lastAccessed := now } })
  else (none, cache)

/-! ## Eviction -/

/-- Tables that are exempt from eviction. -/
def internalTables : List String := ["_key_history", "_users"]

/-- The least recently used table that may go. -/
def Cache.victim (cache : Cache) : Option String :=
  let candidates := cache.tables.toList.filter fun (name, _) => name ∉ internalTables
  (candidates.foldl
    (fun best (name, t) =>
      match best with
      | none => some (name, t.lastAccessed)
      | some (_, oldest) => if t.lastAccessed < oldest then some (name, t.lastAccessed) else best)
    (none : Option (String × Nat))).map Prod.fst

/-- Every round removes a table, so the number of tables bounds the rounds. -/
def Cache.evictLoop : Nat → Cache → Cache
  | 0, cache => cache
  | rounds + 1, cache =>
    if cache.maxTables ≤ cache.tables.size then
      match cache.victim with
      | some name => Cache.evictLoop rounds { cache with tables := cache.tables.erase name }
      | none => cache
    else cache

def Cache.evictIfNeeded (cache : Cache) : Cache := cache.evictLoop cache.tables.size

/-! ## Population -/

/-- A fetched row; the index entries of a row it replaces stay. -/
def TableCache.addFetched (cache : TableCache) (row : RowObject) : TableCache :=
  match row.intField "id" with
  | some id =>
      { cache with rows := cache.rows.insert id row, indexes := cache.indexes.addRow id row }
  | none => cache

def TableCache.populateFull (cache : TableCache) (now : Nat) (rows : List RowObject)
    (indexedColumns : List String) : TableCache :=
  let cleared : TableCache :=
    { cache with
      rows := ∅
      indexes := (Indexes.ensure cache.indexes indexedColumns).map fun _ _ => ColumnIndex.new }
  { rows.foldl TableCache.addFetched cleared with isComplete := true, lastAccessed := now }

/-- A row that left the region that is being refreshed. -/
def TableCache.removeStale (cache : TableCache) (rowId : Int) : TableCache :=
  match cache.rows[rowId]? with
  | some row =>
    { cache with rows := cache.rows.erase rowId, indexes := cache.indexes.dropStale rowId row }
  | none => cache

/-- Mark a value of a column as complete, if the column is indexed. -/
def TableCache.markComplete (cache : TableCache) (column : String) (value : Int) : TableCache :=
  match cache.indexes[column]? with
  | some index =>
    { cache with
      indexes := cache.indexes.insert column
        { index with completeValues := index.completeValues.insert value } }
  | none => cache

/-- The cached rows of the region that the refresh does not return. -/
def TableCache.staleIds (cache : TableCache) (column : String) (value : Int)
    (rows : List RowObject) : List Int :=
  match cache.indexes[column]? with
  | some index =>
    ((index.entries.filter (·.1 = value)).map Prod.snd).filter fun id =>
      id ∉ rows.filterMap fun row => row.intField "id"
  | none => []

def TableCache.populateForValue (cache : TableCache) (now : Nat) (column : String) (value : Int)
    (rows : List RowObject) (indexedColumns : List String) : TableCache :=
  let cache := { cache with indexes := Indexes.ensure cache.indexes indexedColumns }
  let cleaned := (cache.staleIds column value rows).foldl TableCache.removeStale cache
  let filled := (rows.foldl TableCache.addFetched cleaned).markComplete column value
  { filled with lastAccessed := now }

/-- The table, created with the given indexes if it is not cached. -/
def Cache.tableOrNew (cache : Cache) (now : Nat) (table : String) (indexedColumns : List String) :
    TableCache :=
  (cache.tables[table]?).getD (TableCache.new now indexedColumns)

def Cache.populateFull (cache : Cache) (now : Nat) (table : String) (rows : List RowObject)
    (indexedColumns : List String) : Cache :=
  if cache.enabled then
    let cache := cache.evictIfNeeded
    let t := cache.tableOrNew now table indexedColumns
    { cache with tables := cache.tables.insert table (t.populateFull now rows indexedColumns) }
  else cache

def Cache.populateForValue (cache : Cache) (now : Nat) (table column : String) (value : Int)
    (rows : List RowObject) (indexedColumns : List String) : Cache :=
  if cache.enabled then
    let cache := cache.evictIfNeeded
    let t := cache.tableOrNew now table indexedColumns
    { cache with
      tables :=
        cache.tables.insert table (t.populateForValue now column value rows indexedColumns) }
  else cache

/-! ## Single rows -/

def TableCache.insertRow (cache : TableCache) (row : RowObject) : TableCache :=
  match row.intField "id" with
  | some id =>
    let indexes : Indexes :=
      match cache.rows[id]? with
      | some old => cache.indexes.removeRow id old
      | none => cache.indexes
    { cache with rows := cache.rows.insert id row, indexes := indexes.addRow id row }
  | none => cache

/-- A changed value moves the entry of a row and ends the completeness of both
values. -/
def ColumnIndex.move (index : ColumnIndex) (rowId : Int) (oldVal newInt : Option Int) :
    ColumnIndex :=
  if oldVal = newInt then index
  else
    let index :=
      match oldVal with
      | some ov =>
        { entries := index.entries.filter (· ≠ (ov, rowId))
          completeValues := index.completeValues.filter (· ≠ ov) }
      | none => index
    match newInt with
    | some nv =>
      { entries := index.entries.insert (nv, rowId)
        completeValues := index.completeValues.filter (· ≠ nv) }
    | none => index

/-- One column of an update of a cached row. -/
def TableCache.updateColumn (rowId : Int) (state : Indexes × RowObject) (update : String × Value) :
    Indexes × RowObject :=
  let (indexes, row) := state
  let (column, newVal) := update
  let indexes :=
    match indexes[column]? with
    | none => indexes
    | some index => indexes.insert column (index.move rowId (row.intField column) newVal.asI64)
  (indexes, row.insert column newVal)

/-- `none` if the row is not cached. -/
def TableCache.updateRow (cache : TableCache) (rowId : Int) (updates : List (String × Value)) :
    Option TableCache :=
  match cache.rows[rowId]? with
  | none => none
  | some row =>
    let (indexes, row) := updates.foldl (TableCache.updateColumn rowId) (cache.indexes, row)
    some { cache with rows := cache.rows.insert rowId row, indexes }

def TableCache.removeRow (cache : TableCache) (rowId : Int) : TableCache :=
  match cache.rows[rowId]? with
  | some row =>
    { cache with rows := cache.rows.erase rowId, indexes := cache.indexes.removeRow rowId row }
  | none => cache

/-- The value an update moves an unknown row to is no longer complete. -/
def TableCache.invalidateBucket (cache : TableCache) (update : String × Value) : TableCache :=
  match cache.indexes[update.1]?, update.2.asI64 with
  | some index, some nv =>
    { cache with
      indexes := cache.indexes.insert update.1
        { index with completeValues := index.completeValues.filter (· ≠ nv) } }
  | _, _ => cache

def TableCache.invalidateDestinationBuckets (cache : TableCache)
    (updates : List (String × Value)) : TableCache :=
  updates.foldl TableCache.invalidateBucket cache

/-- An operation on a cached table; nothing happens if it is not cached. -/
def Cache.modify (cache : Cache) (table : String) (f : TableCache → TableCache) : Cache :=
  match cache.tables[table]? with
  | some t => { cache with tables := cache.tables.insert table (f t) }
  | none => cache

def Cache.insertRow (cache : Cache) (table : String) (row : RowObject) : Cache :=
  cache.modify table fun t => t.insertRow row

def Cache.removeRow (cache : Cache) (table : String) (rowId : Int) : Cache :=
  cache.modify table fun t => t.removeRow rowId

def Cache.invalidateTable (cache : Cache) (table : String) : Cache :=
  { cache with tables := cache.tables.erase table }

def Cache.clearAll (cache : Cache) : Cache := { cache with tables := ∅ }

/-- Rows of a join: a subset of the table; each value of `pkCol` that occurs in it
is complete. -/
def Cache.populatePartial (cache : Cache) (now : Nat) (table : String) (rows : List RowObject)
    (indexedColumns : List String) (pkCol : Option String) : Cache :=
  if cache.enabled then
    let t := cache.tableOrNew now table indexedColumns
    let t := rows.foldl TableCache.insertRow t
    let t :=
      match pkCol with
      | some column =>
        if column ≠ "id" then
          (rows.filterMap fun row => row.intField column).foldl
            (fun t value => t.markComplete column value) t
        else t
      | none => t
    { cache with tables := cache.tables.insert table t }
  else cache

end EncryptedSpaces.Client
