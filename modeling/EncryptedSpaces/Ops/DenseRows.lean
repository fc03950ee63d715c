import EncryptedSpaces.Ops.RowWrites

/-!
# Rows that are complete or absent

A table is dense if each of its rows has a cell for every column, under the key
that `column_key` builds and no other, or no key at all.  Steps on the table keep
this as long as the entry names the table's cells by canonical keys.
-/

namespace EncryptedSpaces.Ops

open Encoding Changelog Acl Lib List

/-- Every row of the table is complete or absent. -/
def Dense (db : Db) (table : String) (columns : List String) : Prop :=
  ∀ rowId, ExactRow db table rowId columns ∨ NoRow db table rowId

section Rows

variable {db db' : Db} {table : String} {rowId : Int} {columns : List String}

theorem tableKey_of_parsedColumn? {key : Bytes} {column : String}
    (h : parsedColumn? key = some (table, rowId, column)) : TableKey table key :=
  IsColumnOf.tableKey ⟨rowId, column, h⟩

/-- Rows with the same cells are complete or absent together. -/
theorem ExactRow.or_noRow_congr (hIn : InI64 rowId)
    (hSame : ∀ key column, parsedColumn? key = some (table, rowId, column) → db'[key]? = db[key]?)
    (h : ExactRow db table rowId columns ∨ NoRow db table rowId) :
    ExactRow db' table rowId columns ∨ NoRow db' table rowId := by
  rcases h with hExact | hNone
  · refine .inl ⟨fun column hColumn => ?_, fun key value hValue column hKey => ?_⟩
    · rw [hSame _ column (parsedColumn?_columnKey table column hIn)]
      exact hExact.complete column hColumn
    · rw [hSame key column hKey] at hValue
      exact hExact.only key value hValue column hKey
  · refine .inr fun key value hValue column hKey => ?_
    rw [hSame key column hKey] at hValue
    exact hNone key value hValue column hKey

/-- A row id outside the range of keys has no row. -/
theorem noRow_of_not_inI64 (h : ¬ InI64 rowId) : NoRow db table rowId := by
  intro key value _ column hKey
  exact h (inI64_of_parseKey (parsedColumn?_eq_some_iff.mp hKey))

theorem Dense.of_same (h : Dense db table columns)
    (hSame : ∀ key, TableKey table key → db'[key]? = db[key]?) : Dense db' table columns := by
  intro rowId
  by_cases hIn : InI64 rowId
  · exact ExactRow.or_noRow_congr hIn (fun key _ hKey => hSame key (tableKey_of_parsedColumn? hKey))
      (h rowId)
  · exact .inr (noRow_of_not_inI64 hIn)

/-- A row of a dense table with a cell is complete. -/
theorem Dense.exactRow (h : Dense db table columns) {key value : Bytes} {column : String}
    (hValue : db[key]? = some value) (hKey : parsedColumn? key = some (table, rowId, column)) :
    ExactRow db table rowId columns := by
  rcases h rowId with hExact | hNone
  · exact hExact
  · exact (hNone key value hValue column hKey).elim

/-- Deleting all cells of a complete or absent row leaves nothing. -/
theorem noRow_of_deleted {batch : Batch}
    (h : ExactRow db table rowId columns ∨ NoRow db table rowId)
    (hDeleted : ∀ column ∈ columns, written batch (columnKey table rowId column) = some none)
    (hOther : ∀ key column, parsedColumn? key = some (table, rowId, column) →
      written batch key = none ∨ written batch key = some none) :
    NoRow (db.applyBatch batch) table rowId := by
  intro key value hValue column hKey
  rw [Db.getElem?_applyBatch] at hValue
  rcases hOther key column hKey with hKept | hGone
  · rw [hKept] at hValue
    rcases h with hExact | hNone
    · obtain ⟨hColumn, rfl⟩ := hExact.only key value hValue column hKey
      rw [hDeleted column hColumn] at hKept
      cases hKept
    · exact hNone key value hValue column hKey
  · rw [hGone] at hValue
    cases hValue

end Rows

section Steps

variable {codec : RuleCodec} {db : Db} {entry : ChangelogEntry} {columns : List String}

/-! ## One step -/

theorem InsertParts.Accepted.dense {x : InsertParts} (hx : x.Accepted codec db entry)
    (hKeys : x.autoIncrement = true ∨ CanonicalKeys entry.message.entries)
    (h : Dense db x.table x.columns) : Dense (db.applyBatch x.batch) x.table x.columns := by
  intro rowId
  by_cases hIn : InI64 rowId
  · by_cases hRow : rowId = x.rowId
    · rw [hRow]
      refine .inl ⟨fun column hColumn => ?_, fun key value hValue column hKey => ?_⟩
      · obtain ⟨value, hValue, _⟩ := hx.written_cell hKeys hColumn
        rw [Db.getElem?_applyBatch, hValue]
        rfl
      · by_cases hOwn : ∃ c ∈ x.columns, key = columnKey x.table x.rowId c
        · obtain ⟨c, hc, rfl⟩ := hOwn
          rw [parsedColumn?_columnKey x.table c hx.inI64] at hKey
          cases hKey
          exact ⟨hc, rfl⟩
        · push Not at hOwn
          rw [Db.getElem?_applyBatch, hx.written_other hKeys hKey hOwn] at hValue
          exact (h.exactRow hValue hKey).only key value hValue column hKey
    · refine ExactRow.or_noRow_congr hIn (fun key column hKey => ?_) (h rowId)
      rw [Db.getElem?_applyBatch, hx.written_other hKeys hKey]
      · rfl
      · rintro c _ rfl
        rw [parsedColumn?_columnKey x.table c hx.inI64] at hKey
        cases hKey
        exact hRow rfl
  · exact .inr (noRow_of_not_inI64 hIn)

theorem mem_cellMap_insert {α : Type} {m : CellMap α} {key : Int × String} {a : α}
    {p : (Int × String) × α} (h : p ∈ m.insert key a) : p = (key, a) ∨ p ∈ m := by
  induction m with
  | nil => exact .inl (mem_singleton.mp h)
  | cons q m ih =>
    unfold CellMap.insert at h
    split_ifs at h
    · rcases mem_cons.mp h with rfl | h
      · exact .inl rfl
      · exact .inr (mem_cons_of_mem q h)
    · rcases mem_cons.mp h with rfl | h
      · exact .inl rfl
      · exact .inr h
    · rcases mem_cons.mp h with rfl | h
      · exact .inr mem_cons_self
      · rcases ih h with rfl | h
        · exact .inl rfl
        · exact .inr (mem_cons_of_mem q h)

theorem mem_cellMap_insertNew {α : Type} {m : CellMap α} {key : Int × String} {a : α}
    {p : (Int × String) × α} (h : p ∈ m.insertNew key a) : p = (key, a) ∨ p ∈ m := by
  unfold CellMap.insertNew at h
  split at h
  · exact .inr h
  · exact mem_cellMap_insert h

/-- The planned reads go to cells of the updated rows. -/
theorem UpdateParts.Accepted.parsedColumn?_planned {x : UpdateParts}
    (hx : x.Accepted codec db entry) : ∀ p ∈ x.planned entry.message.entries,
      parsedColumn? p.2 = some (x.table, p.1.1, p.1.2) := by
  have hCell : ∀ p ∈ columnEntries entry.message.entries,
      parsedColumn? p.kv.key = some (x.table, p.rowId, p.column) := by
    intro p hp
    rw [(mem_columnEntries.mp hp).2, hx.sameTable p hp]
  have hIn : ∀ rowId ∈ UpdateParts.rowIds entry.message.entries, InI64 rowId := by
    intro rowId hRow
    obtain ⟨p, hp, rfl⟩ := mem_map.mp (mem_btreeSetInt.mp hRow)
    exact inI64_of_parseKey (parsedColumn?_eq_some_iff.mp (hCell p hp))
  -- both loops add cells with this property
  let Planned (m : CellMap Bytes) : Prop :=
    ∀ p ∈ m, parsedColumn? p.2 = some (x.table, p.1.1, p.1.2)
  have hNone : Planned [] := fun p hp => absurd hp not_mem_nil
  refine foldlRecOn (motive := Planned) _ _ (foldlRecOn (motive := Planned) _ _ hNone ?_) ?_
  · intro m hm cell hMem p hp
    have hRow : InI64 cell.1 := by
      rcases mem_append.mp hMem with hMem | hMem
      · obtain ⟨rowId, hRow, hMem⟩ := mem_flatMap.mp hMem
        obtain ⟨column, _, rfl⟩ := mem_map.mp hMem
        exact hIn rowId hRow
      · obtain ⟨parsed, hParsed, rfl⟩ := mem_map.mp hMem
        exact inI64_of_parseKey (parsedColumn?_eq_some_iff.mp
          (hCell parsed (mem_filter.mp hParsed).1))
    rcases mem_cellMap_insertNew hp with rfl | hp
    · exact parsedColumn?_columnKey x.table cell.2 hRow
    · exact hm p hp
  · intro m hm rowId _ p hp
    split at hp
    · exact hm p hp
    · split at hp
      next parsed hFind =>
        rcases mem_cellMap_insert hp with rfl | hp
        · have hRow : parsed.rowId = rowId := by simpa using find?_some hFind
          rw [← hRow]
          exact hCell parsed (mem_of_find?_eq_some hFind)
        · exact hm p hp
      · exact hm p hp

/-- Every updated row has a cell before. -/
theorem UpdateParts.Accepted.exists_cell {x : UpdateParts} (hx : x.Accepted codec db entry)
    {p : ParsedColumnEntry} (hp : p ∈ columnEntries entry.message.entries) :
    ∃ key value column, db[key]? = some value ∧
      parsedColumn? key = some (x.table, p.rowId, column) := by
  have hRow : p.rowId ∈ UpdateParts.rowIds entry.message.entries :=
    mem_btreeSetInt.mpr (mem_map_of_mem hp)
  obtain ⟨q, hq, hRowId, hStored⟩ := hx.rowsExist p.rowId hRow
  obtain ⟨value, hValue⟩ := Option.isSome_iff_exists.mp hStored
  refine ⟨q.2, value, q.1.2, hValue, ?_⟩
  rw [← hRowId]
  exact hx.parsedColumn?_planned q hq

theorem UpdateParts.Accepted.dense {x : UpdateParts} (hx : x.Accepted codec db entry)
    (hKeys : CanonicalKeys entry.message.entries) (h : Dense db x.table x.columns) :
    Dense (db.applyBatch (x.batch entry.message.entries)) x.table x.columns := by
  intro rowId
  by_cases hIn : InI64 rowId
  · by_cases hRow : ∃ p ∈ columnEntries entry.message.entries, p.rowId = rowId
    · obtain ⟨p, hp, rfl⟩ := hRow
      obtain ⟨key₀, value₀, column₀, hValue₀, hKey₀⟩ := hx.exists_cell hp
      have hExact := h.exactRow hValue₀ hKey₀
      refine .inl ⟨fun column hColumn => ?_, fun key value hValue column hKey => ?_⟩
      · have hKey := parsedColumn?_columnKey x.table column hIn
        rw [Db.getElem?_applyBatch]
        by_cases hOwn : ∃ kv ∈ entry.message.entries, kv.key = columnKey x.table p.rowId column
        · obtain ⟨kv, hkv, hEq⟩ := hOwn
          rw [← hEq] at hKey ⊢
          rw [hx.written_kv hkv hKey]
          rfl
        · push Not at hOwn
          rw [hx.written_other hKey hOwn]
          exact hExact.complete column hColumn
      · by_cases hOwn : ∃ kv ∈ entry.message.entries, kv.key = key
        · obtain ⟨kv, hkv, rfl⟩ := hOwn
          have hEntry : (⟨kv, x.table, p.rowId, column⟩ : ParsedColumnEntry) ∈
              columnEntries entry.message.entries := mem_columnEntries.mpr ⟨hkv, hKey⟩
          exact ⟨hx.inSchema _ hEntry, hKeys kv hkv _ hKey⟩
        · push Not at hOwn
          rw [Db.getElem?_applyBatch, hx.written_other hKey hOwn] at hValue
          exact hExact.only key value hValue column hKey
    · refine ExactRow.or_noRow_congr hIn (fun key column hKey => ?_) (h rowId)
      rw [Db.getElem?_applyBatch, hx.written_other hKey]
      · rfl
      · rintro kv hkv rfl
        exact hRow ⟨⟨kv, x.table, rowId, column⟩, mem_columnEntries.mpr ⟨hkv, hKey⟩, rfl⟩
  · exact .inr (noRow_of_not_inI64 hIn)

theorem DeleteParts.Accepted.dense {x : DeleteParts} (hx : x.Accepted codec db entry)
    (hKeys : CanonicalKeys entry.message.entries) (h : Dense db x.table x.columns) :
    Dense (db.applyBatch (x.batch entry.message.entries)) x.table x.columns := by
  intro rowId
  by_cases hIn : InI64 rowId
  · by_cases hRow : ∃ kv ∈ entry.message.entries, ∃ table column,
        parsedColumn? kv.key = some (table, rowId, column)
    · have hNamed := mem_columnsByRow_iff.mpr ⟨hRow, rfl⟩
      refine .inr (noRow_of_deleted (h rowId) (fun column hColumn => ?_) fun key column hKey => ?_)
      · have hComplete := hx.complete _ hNamed
        rw [← hComplete] at hColumn
        obtain ⟨kv, hkv, table, hCell⟩ := (mem_columns_of_mem_columnsByRow hNamed).mp hColumn
        have hTable : table = x.table :=
          table_eq_of_isColumnOf ⟨rowId, column, hCell⟩ (hx.sameTable kv hkv)
        have hKey : kv.key = columnKey table rowId column := hKeys kv hkv _ hCell
        rw [← hTable, hx.written_batch (parsedColumn?_columnKey table column hIn)]
        exact if_pos (hKey ▸ mem_map_of_mem hkv)
      · rw [hx.written_batch hKey]
        split
        · exact .inr rfl
        · exact .inl rfl
    · refine ExactRow.or_noRow_congr hIn (fun key column hKey => ?_) (h rowId)
      rw [Db.getElem?_applyBatch, hx.written_batch hKey, if_neg]
      · rfl
      · intro hMem
        obtain ⟨kv, hkv, rfl⟩ := mem_map.mp hMem
        exact hRow ⟨kv, hkv, x.table, column, hKey⟩
  · exact .inr (noRow_of_not_inI64 hIn)

/-- Cascades delete whole rows of any state of the table. -/
theorem CascadeParts.Accepted.dense {x : CascadeParts} (hx : x.Accepted codec db)
    (hSchema : db.Static codec (.schemaColumns x.table) columns) {s : Db}
    (h : Dense s x.table columns) : Dense (s.applyBatch x.rows.flatten) x.table columns := by
  intro rowId
  by_cases hIn : InI64 rowId
  · by_cases hRow : rowId ∈ x.rowIds
    · have hColumns : x.columns = columns :=
        (hx.schema (ne_nil_of_mem hRow)).unique hSchema
      refine .inr (noRow_of_deleted (h rowId) (fun column hColumn => ?_) fun key column hKey => ?_)
      · rw [hx.written_rows (parsedColumn?_columnKey x.table column hIn)]
        exact if_pos ⟨rowId, hRow, column, hColumns ▸ hColumn, rfl⟩
      · rw [hx.written_rows hKey]
        split
        · exact .inr rfl
        · exact .inl rfl
    · refine ExactRow.or_noRow_congr hIn (fun key column hKey => ?_) (h rowId)
      rw [Db.getElem?_applyBatch, hx.written_rows hKey, if_neg]
      · rfl
      · rintro ⟨rowId', hRow', column', _, rfl⟩
        rw [parsedColumn?_columnKey x.table column' (hx.inI64 rowId' hRow')] at hKey
        cases hKey
        exact hRow hRow'
  · exact .inr (noRow_of_not_inI64 hIn)

/-! ## Entries and runs -/

/-- Accepted entries with canonical keys in an application table keep it dense. -/
theorem Dense.applyBatch {n : Nat} {batch : Batch} {table : String}
    (hStep : Accepts codec n db entry batch)
    (hApp : Application table) (hSchema : db.Static codec (.schemaColumns table) columns)
    (hKeys : CanonicalKeys (tableKvs entry.message.entries table)) (h : Dense db table columns) :
    Dense (db.applyBatch batch) table columns := by
  have hLists : table ≠ listsTable := ne_of_application hApp (by decide)
  rcases stepsOf_of_dispatch hStep with ⟨steps, hSteps⟩ | hSpares
  · refine StepsOf.invariant (P := fun s => Dense s table columns) hSteps hLists
      (fun s s' hSame hs => hs.of_same hSame) ?_ ?_ h
    · intro kvs b hValid hKvs
      -- the kvs of a step are the entry's kvs of its table
      have hCanonical : (∀ kv ∈ kvs, IsColumnOf table kv.key) → CanonicalKeys kvs := by
        intro hColumns kv hkv
        exact hKeys kv (mem_tableKvs.mpr ⟨hKvs kv hkv, hColumns kv hkv⟩)
      cases hValid with
      | insert x hx =>
        obtain rfl := hx.schema.unique hSchema
        have hColumns := isColumnOf_of_parses hx.parses fun p hp => (hx.row p hp).1
        exact hx.dense (.inr (hCanonical hColumns)) h
      | update x hx =>
        obtain rfl := hx.schema.unique hSchema
        have hColumns := isColumnOf_of_parses hx.parses hx.sameTable
        exact hx.dense (hCanonical hColumns) h
      | delete x hx =>
        obtain rfl := hx.schema.unique hSchema
        exact hx.dense (hCanonical hx.sameTable) h
    · intro kvs b hValid s hs
      cases hValid with
      | cascade x hx => exact hx.dense hSchema hs
  · exact h.of_same ((hSpares table hApp).sameTable db)

end Steps

end EncryptedSpaces.Ops
