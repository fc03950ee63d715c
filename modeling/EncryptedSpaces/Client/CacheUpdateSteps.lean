import EncryptedSpaces.Client.CacheHits
import EncryptedSpaces.Client.CacheUpdates

/-!
# An update keeps the cache coherent

Between the first and the last row of an update the cache agrees with neither
database: the rows already applied are those of the new one, the others those of
the old one.  `midway` is that mixture, and every step of the update moves one row
from one side to the other.  `CleanWrites` is what the steps need: rows stay whole,
a row with a deleted cell is gone, and every written row decrypts.
-/

namespace EncryptedSpaces.Client

open Encoding Changelog Ops Server Lib List

/-! ## The database behind the cache -/

section Truths

variable {KeyId Key : Type} (cipher : FieldCipher KeyId Key) (all : Resolver KeyId Key)
  (schemas : Schemas) (material : Material)

/-- The plaintext of a stored row. -/
def plainOf (table : String) (id : Int) (raw : RawRow) : RowObject :=
  plainRow cipher all (schemas.encryptedColumns table) (decodedRow schemas material table id raw)

/-- The rows of the database under all keys. -/
def plainTruth (db : Tables) (table : String) : Truth := fun id =>
  if (db.rowAt table id).isEmpty then none
  else some (plainOf cipher all schemas material table id (db.rowAt table id))

/-- The rows in `done` are those of the database after the change. -/
def midway (before after : String → Truth) (done : List (String × Int)) (table : String) : Truth :=
  fun id => if (table, id) ∈ done then after table id else before table id

/-- The database while a list of writes is being applied to the cache. -/
abbrev during (db : Tables) (writes : List CellWrite) (done : List (String × Int)) :
    String → Truth :=
  midway (plainTruth cipher all schemas material db)
    (plainTruth cipher all schemas material (db.applyWrites writes)) done

end Truths

/-- Every row of a registered table has the columns of its schema, and row ids are
`i64`. -/
structure Tables.Whole (schemas : Schemas) (db : Tables) : Prop where
  columns : ∀ table spec, schemas table = some spec → ∀ id, (db.rowAt table id).isEmpty = false →
    ∀ column, column ∈ db.rowAt table id ↔ column ∈ spec.nonIdColumns
  inI64 : ∀ table id, (db.rowAt table id).isEmpty = false → InI64 id

theorem TableSpec.id_notMem_nonIdColumns (spec : TableSpec) : "id" ∉ spec.nonIdColumns := by
  intro hMem
  obtain ⟨column, hColumn, hName⟩ := mem_map.mp hMem
  have hNe := (mem_filter.mp hColumn).2
  rw [decide_eq_true_eq] at hNe
  exact hNe hName

theorem midway_cons (before after : String → Truth) (done : List (String × Int)) (table : String)
    (id : Int) :
    midway before after ((table, id) :: done) table =
      Function.update (midway before after done table) id (after table id) := by
  funext id'
  unfold midway
  by_cases hId : id' = id
  · subst hId
    rw [Function.update_self, if_pos mem_cons_self]
  · rw [Function.update_of_ne hId]
    have hIff : (table, id') ∈ (table, id) :: done ↔ (table, id') ∈ done := by
      simp [hId]
    simp only [hIff]

variable {table : String} {writes : List CellWrite} {id : Int}

theorem midway_cons_of_ne (before after : String → Truth) (done : List (String × Int))
    {table' : String} (id : Int) (h : table' ≠ table) :
    midway before after ((table, id) :: done) table' = midway before after done table' := by
  funext id'
  unfold midway
  have hIff : (table', id') ∈ (table, id) :: done ↔ (table', id') ∈ done := by
    simp [h]
  simp only [hIff]

/-! ## Rows and their parts -/

theorem getElem?_foldl_insert (cells : List (String × Bytes)) (raw : RawRow) (column : String) :
    (cells.foldl (fun raw (column, bytes) => raw.insert column bytes) raw)[column]? =
      ((rawOfCells cells)[column]?).or raw[column]? := by
  rw [getElem?_rawOfCells]
  exact TreeMaps.getElem?_insertAll raw cells column

theorem mem_rowsWith {p : CellWrite → Bool} :
    (table, id) ∈ ((writes.filter p).map fun write => (write.table, write.rowId)).dedup ↔
      ∃ write ∈ writes, (write.table = table ∧ write.rowId = id) ∧ p write = true := by
  rw [mem_dedup, mem_map]
  constructor
  · rintro ⟨write, hWrite, hRow⟩
    have hMem := mem_filter.mp hWrite
    exact ⟨write, hMem.1, Prod.mk.inj hRow, hMem.2⟩
  · rintro ⟨write, hMem, ⟨hTable, hId⟩, hValue⟩
    exact ⟨write, mem_filter.mpr ⟨hMem, hValue⟩, by rw [hTable, hId]⟩

theorem mem_putRows :
    (table, id) ∈ putRows writes ↔
      ∃ write ∈ writes, (write.table = table ∧ write.rowId = id) ∧ write.value.isSome = true :=
  mem_rowsWith

theorem mem_deletedRows :
    (table, id) ∈ deletedRows writes ↔
      ∃ write ∈ writes, (write.table = table ∧ write.rowId = id) ∧ write.value = none := by
  simp only [← Option.isNone_iff_eq_none]
  exact mem_rowsWith

/-- A row without a deleted cell: the written cells over the old ones. -/
theorem getElem?_rowAt_applyWrites (hKept : (table, id) ∉ deletedRows writes) (db : Tables)
    (column : String) :
    ((db.applyWrites writes).rowAt table id)[column]? =
      ((rawOfCells (writtenCells writes table id))[column]?).or (db.rowAt table id)[column]? := by
  rw [Tables.rowAt_applyWrites, ← getElem?_foldl_insert]
  unfold writtenCells
  have hPut : ∀ write ∈ writesTo writes table id, write.value.isSome = true := by
    intro write hWrite
    have hMem := mem_filter.mp hWrite
    have hRow : write.table = table ∧ write.rowId = id := of_decide_eq_true hMem.2
    by_contra hValue
    exact hKept (mem_deletedRows.mpr ⟨write, hMem.1, hRow, by simpa using hValue⟩)
  generalize writesTo writes table id = writes at hPut
  generalize db.rowAt table id = raw
  induction writes generalizing raw with
  | nil => rfl
  | cons write writes ih =>
    have hSome := hPut write mem_cons_self
    rw [Option.isSome_iff_exists] at hSome
    obtain ⟨value, hValue⟩ := hSome
    have hFirst : raw.write write = raw.insert write.column value := by
      unfold RawRow.write
      rw [hValue]
    rw [foldl_cons, hFirst,
      filterMap_cons_some (b := (write.column, value)) (by rw [hValue]; rfl), foldl_cons]
    exact ih (fun write hWrite => hPut write (mem_cons_of_mem _ hWrite)) _

/-- The part of a written row has a cell. -/
theorem exists_writtenCell (hPut : (table, id) ∈ putRows writes) :
    ∃ (column : String) (bytes : Bytes),
      (rawOfCells (writtenCells writes table id))[column]? = some bytes := by
  obtain ⟨write, hWrite, hRow, hValue⟩ := mem_putRows.mp hPut
  obtain ⟨value, hValue⟩ := Option.isSome_iff_exists.mp hValue
  have hCell : (write.column, value) ∈ writtenCells writes table id := by
    refine mem_filterMap.mpr ⟨write, ?_, by rw [hValue]; rfl⟩
    exact mem_filter.mpr ⟨hWrite, by simpa using hRow⟩
  cases hLast : WriteLog.lookup (writtenCells writes table id) write.column with
  | none => exact absurd rfl ((WriteLog.lookup_eq_none_iff _ _).mp hLast _ hCell)
  | some bytes => exact ⟨write.column, bytes, (getElem?_rawOfCells _ _).trans hLast⟩

theorem isEmpty_eq_false_of_getElem? {raw : RawRow} {column : String} {bytes : Bytes}
    (h : raw[column]? = some bytes) : raw.isEmpty = false := by
  rw [Std.ExtTreeMap.isEmpty_eq_false_iff, Std.ExtTreeMap.eq_empty_iff_forall_not_mem]
  exact fun hNone => hNone column (TreeMaps.mem_iff_exists.mpr ⟨bytes, h⟩)

/-! ## Overlays -/

/-- The columns of a part over a row. -/
theorem getElem?_overlay_rowPairs (row part : RowObject) (column : String) :
    (row.overlay (rowPairs part))[column]? =
      if column = "id" then row[column]? else (part[column]?).or row[column]? := by
  show (TreeMaps.insertAll row (rowPairs part))[column]? = _
  rw [TreeMaps.getElem?_insertAll, ← TreeMaps.lookup_toList part]
  unfold rowPairs
  by_cases hId : column = "id"
  · have hNone : WriteLog.lookup (part.toList.filter fun pair => pair.1 ≠ "id") column = none := by
      rw [WriteLog.lookup_eq_none_iff]
      intro pair hPair hColumn
      exact of_decide_eq_true (mem_filter.mp hPair).2 (hColumn.trans hId)
    rw [if_pos hId, hNone, Option.none_or]
  · rw [if_neg hId, WriteLog.lookup_congr]
    rw [filter_filter]
    refine filter_congr fun pair _ => ?_
    by_cases hColumn : pair.1 = column <;> simp [hColumn, hId]

/-! ## One row of an update -/

theorem TableCache.Coherent.patchRow {truth : Truth} {cache : TableCache} {old : RowObject}
    (h : cache.Coherent truth) (hOld : truth id = some old) (pairs : List (String × Value)) :
    (cache.patchRow id pairs).Coherent (Function.update truth id (some (old.overlay pairs))) := by
  unfold TableCache.patchRow
  cases hUpdate : cache.updateRow id pairs with
  | none =>
    have hMissing : cache.rows[id]? = none := by
      unfold TableCache.updateRow at hUpdate
      split at hUpdate
      · rename_i hMissing
        exact hMissing
      · cases hUpdate
    exact h.invalidateDestinationBuckets hMissing hOld pairs
  | some after =>
    cases hCached : cache.rows[id]? with
    | none =>
      unfold TableCache.updateRow at hUpdate
      rw [hCached] at hUpdate
      cases hUpdate
    | some cached =>
      have hCurrent := h.current id cached hCached
      rw [hOld, Option.some.injEq] at hCurrent
      rw [hCurrent]
      exact h.updateRow hCached hUpdate

theorem TableCache.IndexedBy.patchRow {columns : List String} {cache : TableCache}
    (h : cache.IndexedBy columns) (id : Int) (pairs : List (String × Value)) :
    (cache.patchRow id pairs).IndexedBy columns := by
  unfold TableCache.patchRow
  cases hUpdate : cache.updateRow id pairs with
  | none => exact h.invalidateDestinationBuckets pairs
  | some after => exact h.updateRow hUpdate

section Rows

variable {KeyId Key : Type} {cipher : FieldCipher KeyId Key} {all : Resolver KeyId Key}
  {schemas : Schemas} {material : Material} {table : String} {id : Int}

theorem getElem?_plainOf (raw : RawRow) (column : String) :
    (plainOf cipher all schemas material table id raw)[column]? =
      match raw[column]? with
      | some bytes => some (plainField cipher all (schemas.encryptedColumns table) column
          ((decodeCell schemas material table column bytes).getD .null))
      | none => if column = "id" then some (.int id) else none := by
  unfold plainOf
  rw [getElem?_plainRow, getElem?_decodedRow]
  cases raw[column]? with
  | some bytes => rfl
  | none =>
    by_cases hId : column = "id"
    · simp only [if_pos hId, Option.map_some, plainField_int]
    · simp only [if_neg hId, Option.map_none]

theorem intField_plainOf {raw : RawRow} (hId : raw["id"]? = none) (hRange : InI64 id) :
    (plainOf cipher all schemas material table id raw).intField "id" = some id := by
  unfold RowObject.intField
  rw [getElem?_plainOf, hId]
  exact if_pos hRange

/-- A part written over a row, in plaintext. -/
theorem overlay_plainOf {raw part after : RawRow}
    (hAfter : ∀ column : String, after[column]? = (part[column]?).or raw[column]?)
    (hId : after["id"]? = none) :
    (plainOf cipher all schemas material table id raw).overlay
        (rowPairs (plainOf cipher all schemas material table id part)) =
      plainOf cipher all schemas material table id after := by
  apply Std.ExtTreeMap.ext_getElem?
  intro column
  rw [getElem?_overlay_rowPairs, getElem?_plainOf, getElem?_plainOf, getElem?_plainOf,
    hAfter column]
  by_cases hColumn : column = "id"
  · subst hColumn
    have hBoth := hAfter "id"
    rw [hId] at hBoth
    have hParts := Option.or_eq_none_iff.mp hBoth.symm
    rw [hParts.1, hParts.2]
    rfl
  · rw [if_neg hColumn]
    cases part[column]? with
    | some bytes => rfl
    | none => simp only [if_neg hColumn, Option.none_or]

theorem plainTruth_eq_some_iff {db : Tables} {row : RowObject} :
    plainTruth cipher all schemas material db table id = some row ↔
      (db.rowAt table id).isEmpty = false ∧
        row = plainOf cipher all schemas material table id (db.rowAt table id) := by
  unfold plainTruth
  cases (db.rowAt table id).isEmpty <;> simp [eq_comm]

theorem plainTruth_of_cell {db : Tables} {column : String} {bytes : Bytes}
    (h : (db.rowAt table id)[column]? = some bytes) :
    plainTruth cipher all schemas material db table id =
      some (plainOf cipher all schemas material table id (db.rowAt table id)) :=
  plainTruth_eq_some_iff.mpr ⟨isEmpty_eq_false_of_getElem? h, rfl⟩

theorem Tables.Whole.getElem?_id {db : Tables} (h : db.Whole schemas) {spec : TableSpec}
    (hSpec : schemas table = some spec) (id : Int) : (db.rowAt table id)["id"]? = none := by
  cases hCell : (db.rowAt table id)["id"]? with
  | none => rfl
  | some bytes =>
    have hMem : "id" ∈ db.rowAt table id := TreeMaps.mem_iff_exists.mpr ⟨bytes, hCell⟩
    have hColumn :=
      (h.columns table spec hSpec id (isEmpty_eq_false_of_getElem? hCell) "id").mp hMem
    exact absurd hColumn spec.id_notMem_nonIdColumns

/-! ## The steps of an update -/

section Steps

variable {db : Tables} {writes : List CellWrite} {spec : TableSpec}

/-- The part of a row that a list of writes writes. -/
abbrev partOf (writes : List CellWrite) (table : String) (id : Int) : RawRow :=
  rawOfCells (writtenCells writes table id)

theorem mem_plainOf {raw : RawRow} {column : String} (hColumn : column ≠ "id") :
    column ∈ plainOf cipher all schemas material table id raw ↔ column ∈ raw := by
  rw [TreeMaps.mem_iff_exists, TreeMaps.mem_iff_exists, getElem?_plainOf]
  cases raw[column]? with
  | some bytes => simp
  | none => simp [hColumn]

theorem ne_id_of_mem_nonIdColumns {column : String} (h : column ∈ spec.nonIdColumns) :
    column ≠ "id" := by
  rintro rfl
  exact spec.id_notMem_nonIdColumns h

/-- A fresh row has all cells of the row in the new database. -/
theorem partOf_eq_of_isFresh (hSpec : schemas table = some spec)
    (hWhole : (db.applyWrites writes).Whole schemas) (hKept : (table, id) ∉ deletedRows writes)
    (hFresh : isFresh spec (plainOf cipher all schemas material table id (partOf writes table id)) =
      true) :
    partOf writes table id = (db.applyWrites writes).rowAt table id := by
  have hAll : ∀ column ∈ spec.nonIdColumns, column ∈ partOf writes table id := by
    intro column hColumn
    have hRow := (of_decide_eq_true hFresh).2 column hColumn
    exact (mem_plainOf (ne_id_of_mem_nonIdColumns hColumn)).mp hRow
  apply Std.ExtTreeMap.ext_getElem?
  intro column
  have hCells := getElem?_rowAt_applyWrites hKept db column
  cases hPart : (partOf writes table id)[column]? with
  | some bytes => rw [hCells, hPart, Option.some_or]
  | none =>
    by_contra hNe
    -- the column is in the new row, so it is one of the schema's
    obtain ⟨bytes, hBytes⟩ := Option.ne_none_iff_exists'.mp (Ne.symm hNe)
    have hColumn := (hWhole.columns table spec hSpec id (isEmpty_eq_false_of_getElem? hBytes)
      column).mp (TreeMaps.mem_iff_exists.mpr ⟨bytes, hBytes⟩)
    obtain ⟨_, hSome⟩ := TreeMaps.mem_iff_exists.mp (hAll column hColumn)
    cases hPart.symm.trans hSome

/-- A narrower part is written over a row that is there. -/
theorem exists_cell_of_not_isFresh (hSpec : schemas table = some spec)
    (hWhole : (db.applyWrites writes).Whole schemas) (hKept : (table, id) ∉ deletedRows writes)
    (hPut : (table, id) ∈ putRows writes)
    (hNarrow : ¬ isFresh spec
      (plainOf cipher all schemas material table id (partOf writes table id)) = true) :
    ∃ (column : String) (bytes : Bytes), (db.rowAt table id)[column]? = some bytes := by
  have hCells := getElem?_rowAt_applyWrites hKept db
  obtain ⟨written, value, hWritten⟩ := exists_writtenCell hPut
  have hNew : ((db.applyWrites writes).rowAt table id)[written]? = some value := by
    rw [hCells, hWritten, Option.some_or]
  have hColumns := hWhole.columns table spec hSpec id (isEmpty_eq_false_of_getElem? hNew)
  have hNonempty : spec.nonIdColumns ≠ [] := by
    intro hNil
    have hMem : written ∈ (db.applyWrites writes).rowAt table id :=
      TreeMaps.mem_iff_exists.mpr ⟨value, hNew⟩
    rw [hColumns, hNil] at hMem
    cases hMem
  have hMissing : ∃ column ∈ spec.nonIdColumns,
      column ∉ plainOf cipher all schemas material table id (partOf writes table id) := by
    by_contra hNone
    push Not at hNone
    exact hNarrow (decide_eq_true ⟨hNonempty, hNone⟩)
  obtain ⟨column, hColumn, hNotMem⟩ := hMissing
  rw [mem_plainOf (ne_id_of_mem_nonIdColumns hColumn)] at hNotMem
  obtain ⟨bytes, hBytes⟩ := TreeMaps.mem_iff_exists.mp ((hColumns column).mpr hColumn)
  have hPart : (partOf writes table id)[column]? = none := Std.ExtTreeMap.getElem?_eq_none hNotMem
  rw [hCells, hPart, Option.none_or] at hBytes
  exact ⟨column, bytes, hBytes⟩

variable {cache : Cache} {done : List (String × Int)} {rows : List (String × RowObject)}

/-- One row of the update moves to the new database. -/
theorem Cache.Coherent.applyRow
    (h : cache.Coherent (during cipher all schemas material db writes done) schemas.indexedColumns)
    (hSpec : schemas table = some spec) (hWhole : (db.applyWrites writes).Whole schemas)
    (hKept : (table, id) ∉ deletedRows writes) (hPut : (table, id) ∈ putRows writes) :
    (cache.applyRow table spec
      (plainOf cipher all schemas material table id (partOf writes table id))).Coherent
      (during cipher all schemas material db writes ((table, id) :: done))
      schemas.indexedColumns := by
  have hCells := getElem?_rowAt_applyWrites hKept db
  obtain ⟨column, bytes, hCell⟩ := exists_writtenCell hPut
  have hNew : ((db.applyWrites writes).rowAt table id)[column]? = some bytes := by
    rw [hCells, hCell, Option.some_or]
  have hAfter : plainTruth cipher all schemas material (db.applyWrites writes) table id =
      some
        (plainOf cipher all schemas material table id ((db.applyWrites writes).rowAt table id)) :=
    plainTruth_of_cell hNew
  have hIdNew := hWhole.getElem?_id hSpec id
  have hIdPart : (partOf writes table id)["id"]? = none := by
    have hBoth := hCells "id"
    rw [hIdNew] at hBoth
    exact (Option.or_eq_none_iff.mp hBoth.symm).1
  have hRange := hWhole.inI64 table id (isEmpty_eq_false_of_getElem? hNew)
  unfold Cache.applyRow
  rw [intField_plainOf hIdPart hRange]
  split_ifs with hFresh
  · refine h.modify (fun t hCoherent hIndexed => ⟨?_, hIndexed.insertRow _⟩)
      fun table' hNe => midway_cons_of_ne _ _ done _ hNe
    rw [during, midway_cons, hAfter, ← partOf_eq_of_isFresh hSpec hWhole hKept hFresh]
    exact hCoherent.insertRow (intField_plainOf hIdPart hRange)
  · -- the row is in the database, old or new, and the part is written over it
    have hOld : ∃ raw : RawRow, during cipher all schemas material db writes done table id =
          some (plainOf cipher all schemas material table id raw) ∧
        ∀ column : String, ((db.applyWrites writes).rowAt table id)[column]? =
          ((partOf writes table id)[column]?).or raw[column]? := by
      unfold during midway
      by_cases hDone : (table, id) ∈ done
      · refine ⟨(db.applyWrites writes).rowAt table id, by rw [if_pos hDone, hAfter], ?_⟩
        intro column
        cases hPart : (partOf writes table id)[column]? with
        | some bytes => rw [hCells, hPart, Option.some_or, Option.some_or]
        | none => rw [Option.none_or]
      · obtain ⟨column, bytes, hBytes⟩ := exists_cell_of_not_isFresh hSpec hWhole hKept hPut hFresh
        exact ⟨db.rowAt table id, by rw [if_neg hDone, plainTruth_of_cell hBytes], hCells⟩
    obtain ⟨raw, hRow, hOver⟩ := hOld
    refine h.modify (fun t hCoherent hIndexed => ⟨?_, hIndexed.patchRow _ _⟩)
      fun table' hNe => midway_cons_of_ne _ _ done _ hNe
    rw [during, midway_cons, hAfter, ← overlay_plainOf hOver hIdNew]
    exact hCoherent.patchRow hRow _

/-! ## The whole update -/

/-- A table in the cache has a schema. -/
def Cache.Registered (schemas : Schemas) (cache : Cache) : Prop :=
  ∀ table : String, (cache.tables[table]?).isSome = true → (schemas table).isSome = true

theorem Cache.registered_of_empty {schemas : Schemas} {cache : Cache} (h : cache.tables = ∅) :
    cache.Registered schemas := by
  intro table hSome
  simp [h] at hSome

theorem Cache.Registered.modify (h : cache.Registered schemas) (table : String)
    (f : TableCache → TableCache) : (cache.modify table f).Registered schemas := by
  intro table' hSome
  rw [Cache.modify_tables, TableCache.isSome_modify] at hSome
  exact h table' hSome

theorem Cache.Registered.applyRow (h : cache.Registered schemas) (table : String)
    (spec : TableSpec) (row : RowObject) : (cache.applyRow table spec row).Registered schemas := by
  unfold Cache.applyRow
  split
  · exact h
  · split
    · exact h.modify _ _
    · exact h.modify _ _

theorem Cache.Coherent.congr {truths truths' : String → Truth} {columns : String → List String}
    (h : cache.Coherent truths columns)
    (hSame : ∀ table : String, (cache.tables[table]?).isSome = true →
      truths' table = truths table) :
    cache.Coherent truths' columns := by
  intro table t hTable
  rw [hSame table (by rw [hTable]; rfl)]
  exact h table t hTable

/-- The deleted rows. -/
theorem Cache.Coherent.removeRows {deleted : List (String × Int)}
    (h : cache.Coherent (during cipher all schemas material db writes done) schemas.indexedColumns)
    (hRegistered : cache.Registered schemas) (hGone : ∀ row ∈ deleted,
      plainTruth cipher all schemas material (db.applyWrites writes) row.1 row.2 = none) :
    ∃ done', done ⊆ done' ∧ deleted ⊆ done' ∧ (cache.removeRows deleted).Registered schemas ∧
      (cache.removeRows deleted).Coherent (during cipher all schemas material db writes done')
        schemas.indexedColumns := by
  induction deleted generalizing cache done with
  | nil => exact ⟨done, fun _ h => h, nil_subset _, hRegistered, h⟩
  | cons row deleted ih =>
    have hFirst : (cache.removeRow row.1 row.2).Coherent
        (during cipher all schemas material db writes (row :: done)) schemas.indexedColumns := by
      refine h.modify (fun t hCoherent hIndexed => ⟨?_, hIndexed.removeRow _⟩)
        fun table' hNe => midway_cons_of_ne _ _ done _ hNe
      rw [during, midway_cons, hGone row mem_cons_self]
      exact hCoherent.removeRow row.2
    obtain ⟨done', hDone, hDeleted, hRest⟩ := ih hFirst (hRegistered.modify _ _)
      fun row hRow => hGone row (mem_cons_of_mem _ hRow)
    have hIn : row ∈ done' := hDone mem_cons_self
    exact ⟨done', fun x hx => hDone (mem_cons_of_mem _ hx),
      cons_subset.mpr ⟨hIn, hDeleted⟩, hRest⟩

/-- A row as the update reads it from the writes. -/
def WrittenRow (schemas : Schemas) (material : Material) (writes : List CellWrite) (table : String)
    (id : Int) (row : RowObject) : Prop :=
  row = decodedRow schemas material table id (partOf writes table id) ∧
    (table, id) ∉ deletedRows writes ∧ (table, id) ∈ putRows writes

/-- The rows of one table. -/
theorem Cache.Coherent.applyRows {rows : List RowObject}
    (h : cache.Coherent (during cipher all schemas material db writes done) schemas.indexedColumns)
    (hRegistered : cache.Registered schemas) (hSpec : schemas table = some spec)
    (hWhole : (db.applyWrites writes).Whole schemas)
    (hRows : ∀ row ∈ rows, ∃ id, WrittenRow schemas material writes table id row) :
    let after := (rows.map (plainRow cipher all spec.encryptedColumns)).foldl
      (fun cache row => cache.applyRow table spec row) cache
    ∃ done', done ⊆ done' ∧
      (∀ row ∈ rows, ∃ id, WrittenRow schemas material writes table id row ∧ (table, id) ∈ done') ∧
      after.Registered schemas ∧
      after.Coherent (during cipher all schemas material db writes done')
        schemas.indexedColumns := by
  induction rows generalizing cache done with
  | nil => exact ⟨done, fun _ h => h, by simp, hRegistered, h⟩
  | cons row rows ih =>
    obtain ⟨id, hWritten⟩ := hRows row mem_cons_self
    have hPlain : plainRow cipher all spec.encryptedColumns row =
        plainOf cipher all schemas material table id (partOf writes table id) := by
      unfold plainOf Schemas.encryptedColumns
      rw [hSpec, hWritten.1]
      rfl
    have hFirst := h.applyRow hSpec hWhole hWritten.2.1 hWritten.2.2
    obtain ⟨done', hDone, hCovered, hRest⟩ := ih hFirst (hRegistered.applyRow _ _ _)
      fun row hRow => hRows row (mem_cons_of_mem _ hRow)
    refine ⟨done', fun x hx => hDone (mem_cons_of_mem _ hx), ?_, ?_⟩
    · intro row' hRow'
      rcases mem_cons.mp hRow' with rfl | hRow'
      · exact ⟨id, hWritten, hDone mem_cons_self⟩
      · exact hCovered row' hRow'
    · rw [map_cons, foldl_cons, hPlain]
      exact hRest

/-- What an update needs of the writes and of the keys: rows stay whole, a row with
a deleted cell is gone, and every written row decrypts. -/
structure CleanWrites (cipher : FieldCipher KeyId Key) (schemas : Schemas) (material : Material)
    (resolver : Resolver KeyId Key) (db : Tables) (writes : List CellWrite) : Prop where
  whole : (db.applyWrites writes).Whole schemas
  columns : ∀ write ∈ writes, write.column ≠ "id"
  gone : ∀ row ∈ deletedRows writes, ((db.applyWrites writes).rowAt row.1 row.2).isEmpty = true
  readable : ∀ table spec id, schemas table = some spec → (table, id) ∉ deletedRows writes →
    (table, id) ∈ putRows writes →
    (decryptRow cipher resolver spec.encryptedColumns
      (decodedRow schemas material table id (partOf writes table id))).isSome = true

theorem getElem?_id_partOf (hColumns : ∀ write ∈ writes, write.column ≠ "id") (table : String)
    (id : Int) : (partOf writes table id)["id"]? = none := by
  refine TreeMaps.getElem?_insertAll_of_notMem fun value hCell => ?_
  obtain ⟨write, hWrite, hValue⟩ := mem_filterMap.mp hCell
  obtain ⟨_, -, hPair⟩ := Option.map_eq_some_iff.mp hValue
  exact hColumns write (mem_filter.mp hWrite).1 (Prod.mk.inj hPair).1

theorem intField_decodedRow {raw : RawRow} (hId : raw["id"]? = none) (hRange : InI64 id) :
    (decodedRow schemas material table id raw).intField "id" = some id := by
  unfold RowObject.intField
  rw [getElem?_decodedRow, hId]
  exact if_pos hRange

/-- The rows the update reads are those written and not deleted. -/
theorem mem_strippedRows {known : Material}
    (hKnown : ∀ hash value, known hash = some value → material hash = some value)
    (hGroup : groupWrites schemas known writes = some rows)
    (hColumns : ∀ write ∈ writes, write.column ≠ "id")
    (hRange : ∀ write ∈ writes, InI64 write.rowId) (row : RowObject) :
    (table, row) ∈ stripDeleted (deletedRows writes) rows ↔
      ∃ id, WrittenRow schemas material writes table id row := by
  have hMem : (table, row) ∈ rows ↔ ∃ id, (table, id) ∈ putRows writes ∧
      row = decodedRow schemas material table id (partOf writes table id) := by
    rw [Lists.mem_of_mapM_eq_some hGroup]
    constructor
    · rintro ⟨⟨table', id⟩, hPut, hRow⟩
      obtain ⟨row', hCells, hPair⟩ := Option.map_eq_some_iff.mp hRow
      obtain ⟨rfl, rfl⟩ := Prod.mk.inj hPair
      exact ⟨id, hPut, reassembleCells_eq_some hKnown hCells⟩
    · rintro ⟨id, hPut, hRow⟩
      -- the row was reassembled, since the whole traversal succeeded
      obtain ⟨found, hFound⟩ := Lists.exists_of_mapM_eq_some hGroup hPut
      obtain ⟨row', hCells, -⟩ := Option.map_eq_some_iff.mp hFound
      refine ⟨(table, id), hPut, Option.map_eq_some_iff.mpr ⟨row', hCells, ?_⟩⟩
      rw [hRow, reassembleCells_eq_some hKnown hCells]
  have hIntField : ∀ id, (table, id) ∈ putRows writes →
      (decodedRow schemas material table id (partOf writes table id)).intField "id" = some id := by
    intro id hPut
    obtain ⟨write, hWrite, ⟨-, hRowId⟩, -⟩ := mem_putRows.mp hPut
    have hIn := hRange write hWrite
    rw [hRowId] at hIn
    exact intField_decodedRow (getElem?_id_partOf hColumns table id) hIn
  unfold stripDeleted
  rw [mem_filter, hMem]
  constructor
  · rintro ⟨⟨id, hPut, hRow⟩, hKept⟩
    subst hRow
    simp only [hIntField id hPut, decide_eq_true_eq] at hKept
    exact ⟨id, rfl, hKept, hPut⟩
  · rintro ⟨id, hRow, hKept, hPut⟩
    subst hRow
    refine ⟨⟨id, hPut, rfl⟩, ?_⟩
    simp only [hIntField id hPut, decide_eq_true_eq]
    exact hKept

theorem mem_rowsOfTable {row : RowObject} :
    row ∈ rowsOfTable rows table ↔ (table, row) ∈ rows := by
  unfold rowsOfTable
  rw [mem_sortById, mem_map]
  constructor
  · rintro ⟨⟨table', row'⟩, hMem, rfl⟩
    have hFilter := mem_filter.mp hMem
    have hTable : table' = table := of_decide_eq_true hFilter.2
    rw [← hTable]
    exact hFilter.1
  · intro hMem
    exact ⟨(table, row), mem_filter.mpr ⟨hMem, by simp⟩, rfl⟩

/-- One table after the other. -/
theorem Cache.Coherent.applyTables {resolver : Resolver KeyId Key} (tables : List String)
    (h : cache.Coherent (during cipher all schemas material db writes done) schemas.indexedColumns)
    (hRegistered : cache.Registered schemas) (hAll : all.Extends resolver)
    (hClean : CleanWrites cipher schemas material resolver db writes)
    (hRows : ∀ table row, (table, row) ∈ rows ↔
      ∃ id, WrittenRow schemas material writes table id row) :
    let after := tables.foldl (fun cache table =>
      cache.applyTable cipher schemas resolver table (rowsOfTable rows table)) cache
    ∃ done', done ⊆ done' ∧
      (∀ table ∈ tables, (schemas table).isSome = true → ∀ row, (table, row) ∈ rows →
        ∃ id, WrittenRow schemas material writes table id row ∧ (table, id) ∈ done') ∧
      after.Registered schemas ∧
      after.Coherent (during cipher all schemas material db writes done')
        schemas.indexedColumns := by
  induction tables generalizing cache done with
  | nil => exact ⟨done, fun _ h => h, by simp, hRegistered, h⟩
  | cons table tables ih =>
    -- the first table, then the others
    have hFirst : ∃ done', done ⊆ done' ∧
        ((schemas table).isSome = true → ∀ row, (table, row) ∈ rows →
          ∃ id, WrittenRow schemas material writes table id row ∧ (table, id) ∈ done') ∧
        (cache.applyTable cipher schemas resolver table (rowsOfTable rows table)).Registered
          schemas ∧
        (cache.applyTable cipher schemas resolver table (rowsOfTable rows table)).Coherent
          (during cipher all schemas material db writes done') schemas.indexedColumns := by
      unfold Cache.applyTable
      cases hSpec : schemas table with
      | none => exact ⟨done, fun _ h => h, by simp, hRegistered, h⟩
      | some spec =>
        have hWritten : ∀ row ∈ rowsOfTable rows table,
            ∃ id, WrittenRow schemas material writes table id row :=
          fun row hRow => (hRows table row).mp (mem_rowsOfTable.mp hRow)
        have hReadable : ∀ row ∈ rowsOfTable rows table,
            (decryptRow cipher resolver spec.encryptedColumns row).isSome = true := by
          intro row hRow
          obtain ⟨id, hEq, hKept, hPut⟩ := hWritten row hRow
          rw [hEq]
          exact hClean.readable table spec id hSpec hKept hPut
        dsimp only
        rw [decryptTableRows_eq_map hAll hReadable]
        obtain ⟨done', hDone, hCovered, hRest⟩ :=
          h.applyRows hRegistered hSpec hClean.whole hWritten
        exact ⟨done', hDone, fun _ row hRow => hCovered row (mem_rowsOfTable.mpr hRow), hRest⟩
    obtain ⟨mid, hMid, hCovered, hRegistered', hCoherent'⟩ := hFirst
    obtain ⟨done', hDone, hOthers, hRest⟩ := ih hCoherent' hRegistered'
    refine ⟨done', fun x hx => hDone (hMid hx), ?_, hRest⟩
    intro table' hTable' hSome row hRow
    rcases mem_cons.mp hTable' with rfl | hTable'
    · obtain ⟨id, hWritten, hIn⟩ := hCovered hSome row hRow
      exact ⟨id, hWritten, hDone hIn⟩
    · exact hOthers table' hTable' hSome row hRow

/-- Tables that are dropped. -/
theorem Cache.invalidateTables_spec {truths : String → Truth} {columns : String → List String}
    (h : cache.Coherent truths columns) (hRegistered : cache.Registered schemas)
    (tables : List String) :
    (cache.invalidateTables tables).Coherent truths columns ∧
      (cache.invalidateTables tables).Registered schemas ∧
      ∀ table ∈ tables, (cache.invalidateTables tables).tables[table]? = none := by
  have hErase : ∀ (cache : Cache) (table table' : String),
      (cache.invalidateTable table).tables[table']? =
        if table = table' then none else cache.tables[table']? := by
    intro cache table table'
    exact TreeMaps.getElem?_erase_eq cache.tables table table'
  have hKeeps : ∀ (tables : List String) (cache : Cache) (table : String),
      cache.tables[table]? = none → (cache.invalidateTables tables).tables[table]? = none := by
    intro tables
    induction tables with
    | nil => exact fun _ _ hNone => hNone
    | cons first tables ih =>
      intro cache table hNone
      apply ih
      rw [hErase, hNone]
      split <;> rfl
  induction tables generalizing cache with
  | nil => exact ⟨h, hRegistered, by simp⟩
  | cons first tables ih =>
    have hRegistered' : (cache.invalidateTable first).Registered schemas := by
      intro table hSome
      rw [hErase] at hSome
      split at hSome
      · cases hSome
      · exact hRegistered table hSome
    obtain ⟨hCoherent, hRest, hGone⟩ := ih (h.erase first) hRegistered'
    refine ⟨hCoherent, hRest, fun table hTable => ?_⟩
    rcases mem_cons.mp hTable with rfl | hTable
    · exact hKeeps tables _ table (by rw [hErase, if_pos rfl])
    · exact hGone table hTable

theorem plainTruth_applyWrites_of_untouched
    (h : ∀ write ∈ writes, ¬ (write.table = table ∧ write.rowId = id)) :
    plainTruth cipher all schemas material (db.applyWrites writes) table id =
      plainTruth cipher all schemas material db table id := by
  unfold plainTruth
  rw [Tables.rowAt_applyWrites_of_untouched h]

/-- **An update of clean writes brings a coherent cache to the new database.** -/
theorem Cache.Coherent.updateFromProvenWrites {resolver : Resolver KeyId Key} {known : Material}
    (h : cache.Coherent (plainTruth cipher all schemas material db) schemas.indexedColumns)
    (hRegistered : cache.Registered schemas) (hAll : all.Extends resolver)
    (hKnown : ∀ hash value, known hash = some value → material hash = some value)
    (hRange : ∀ write ∈ writes, InI64 write.rowId)
    (hClean : CleanWrites cipher schemas material resolver db writes) :
    let after := cache.updateFromProvenWrites cipher schemas resolver known writes
    after.Registered schemas ∧
      after.Coherent (plainTruth cipher all schemas material (db.applyWrites writes))
        schemas.indexedColumns := by
  unfold Cache.updateFromProvenWrites
  cases hGroup : groupWrites schemas known writes with
  | none =>
    obtain ⟨hCoherent, hKept, hGone⟩ :=
      Cache.invalidateTables_spec h hRegistered (touchedTables writes)
    refine ⟨hKept, hCoherent.congr fun table hSome => ?_⟩
    -- a table that is still cached is not touched
    funext id
    apply plainTruth_applyWrites_of_untouched
    rintro write hWrite ⟨hTable, -⟩
    have hTouched : table ∈ touchedTables writes :=
      mem_dedup.mpr (mem_map.mpr ⟨write, hWrite, hTable⟩)
    rw [hGone table hTouched] at hSome
    cases hSome
  | some grouped =>
    dsimp only
    have hRows : ∀ table row, (table, row) ∈ stripDeleted (deletedRows writes) grouped ↔
        ∃ id, WrittenRow schemas material writes table id row :=
      fun table row => mem_strippedRows hKnown hGroup hClean.columns hRange row
    generalize stripDeleted (deletedRows writes) grouped = rows at hRows
    have hStart : cache.Coherent (during cipher all schemas material db writes [])
        schemas.indexedColumns := h
    have hGone : ∀ row ∈ deletedRows writes,
        plainTruth cipher all schemas material (db.applyWrites writes) row.1 row.2 = none := by
      intro row hRow
      unfold plainTruth
      rw [if_pos (hClean.gone row hRow)]
    obtain ⟨removed, -, hDeleted, hRegistered', hCoherent'⟩ :=
      hStart.removeRows hRegistered hGone
    obtain ⟨done, hDone, hCovered, hRegistered'', hCoherent''⟩ :=
      hCoherent'.applyTables (rows.map Prod.fst).dedup hRegistered' hAll hClean hRows
    refine ⟨hRegistered'', hCoherent''.congr fun table hSome => ?_⟩
    have hSpec := hRegistered'' table hSome
    funext id
    unfold during midway
    by_cases hIn : (table, id) ∈ done
    · rw [if_pos hIn]
    · rw [if_neg hIn]
      apply plainTruth_applyWrites_of_untouched
      rintro write hWrite ⟨hTable, hId⟩
      apply hIn
      by_cases hRemoved : (table, id) ∈ deletedRows writes
      · exact hDone (hDeleted hRemoved)
      · -- the row is written, so the update went through it
        have hValue : write.value.isSome = true := by
          by_contra hNone
          exact hRemoved (mem_deletedRows.mpr ⟨write, hWrite, ⟨hTable, hId⟩, by simpa using hNone⟩)
        have hPut := mem_putRows.mpr ⟨write, hWrite, ⟨hTable, hId⟩, hValue⟩
        have hRow := (hRows table _).mpr ⟨id, rfl, hRemoved, hPut⟩
        have hListed : table ∈ (rows.map Prod.fst).dedup :=
          mem_dedup.mpr (mem_map.mpr ⟨_, hRow, rfl⟩)
        obtain ⟨id', ⟨hEq, -, hPut'⟩, hIn'⟩ := hCovered table hListed hSpec _ hRow
        obtain ⟨write', hWrite', ⟨-, hId'⟩, -⟩ := mem_putRows.mp hPut'
        have hSame := congrArg (fun row => RowObject.intField row "id") hEq
        rw [intField_decodedRow (getElem?_id_partOf hClean.columns _ _)
            (by rw [← hId]; exact hRange write hWrite),
          intField_decodedRow (getElem?_id_partOf hClean.columns _ _)
            (by rw [← hId']; exact hRange write' hWrite'), Option.some.injEq] at hSame
        rw [hSame]
        exact hIn'

end Steps

end Rows

end EncryptedSpaces.Client
