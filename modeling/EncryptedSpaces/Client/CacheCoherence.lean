import EncryptedSpaces.Client.Cache
import EncryptedSpaces.Lib.TreeMaps

/-!
# When a cached table tells the truth

`TableCache.Coherent` relates a table to the rows of a database: what is cached is
current, the indexes list what is cached, and nothing is missing from what is
marked complete.  An operation on one row keeps it when the database changes at
that row in the same way; a population keeps it if the fetched rows are all rows
of the region.
-/

namespace EncryptedSpaces.Client

open Encoding Lib List Option

/-- The rows of one table, by id. -/
abbrev Truth := Int → Option RowObject

/-- Every row carries its id. -/
def Truth.Identified (truth : Truth) : Prop :=
  ∀ id row, truth id = some row → row.intField "id" = some id

namespace TableCache

/-- Cached rows are current, and the indexes list exactly the cached rows. -/
structure Sound (truth : Truth) (cache : TableCache) : Prop where
  current : ∀ id row, cache.rows[id]? = some row → truth id = some row
  indexed : ∀ column index, cache.indexes[column]? = some index → ∀ value id,
    (value, id) ∈ index.entries ↔
      ∃ row, cache.rows[id]? = some row ∧ RowObject.intField row column = some value

/-- Nothing is missing from what is marked complete. -/
structure Coherent (truth : Truth) (cache : TableCache) : Prop extends Sound truth cache where
  whole : cache.isComplete = true → ∀ id row, truth id = some row → cache.rows[id]? = some row
  buckets : ∀ column index, cache.indexes[column]? = some index →
    ∀ value ∈ index.completeValues, ∀ id row, truth id = some row →
      RowObject.intField row column = some value → cache.rows[id]? = some row

end TableCache

/-! ## Indexes -/

section Indexes

variable {indexes : Indexes} {column : String} {index : ColumnIndex} {id : Int} {row : RowObject}

theorem Indexes.getElem?_addRow (h : (indexes.addRow id row)[column]? = some index) :
    ∃ index₀, indexes[column]? = some index₀ ∧ index.completeValues = index₀.completeValues ∧
      ∀ value id', (value, id') ∈ index.entries ↔
        (id' = id ∧ row.intField column = some value) ∨ (value, id') ∈ index₀.entries := by
  unfold Indexes.addRow at h
  rw [Std.ExtTreeMap.getElem?_map, map_eq_some_iff] at h
  obtain ⟨index₀, hLookup, h⟩ := h
  refine ⟨index₀, hLookup, ?_⟩
  cases hField : row.intField column with
  | none =>
    rw [hField] at h
    subst h
    exact ⟨rfl, fun value id' => by simp⟩
  | some v =>
    rw [hField] at h
    subst h
    refine ⟨rfl, fun value id' => ?_⟩
    simp [and_comm, eq_comm]

theorem Indexes.getElem?_removeRow (h : (indexes.removeRow id row)[column]? = some index) :
    ∃ index₀, indexes[column]? = some index₀ ∧ index.completeValues = index₀.completeValues ∧
      ∀ value id', (value, id') ∈ index.entries ↔
        (value, id') ∈ index₀.entries ∧ ¬ (id' = id ∧ row.intField column = some value) := by
  unfold Indexes.removeRow at h
  rw [Std.ExtTreeMap.getElem?_map, map_eq_some_iff] at h
  obtain ⟨index₀, hLookup, h⟩ := h
  refine ⟨index₀, hLookup, ?_⟩
  cases hField : row.intField column with
  | none =>
    rw [hField] at h
    subst h
    exact ⟨rfl, fun value id' => by simp⟩
  | some v =>
    rw [hField] at h
    subst h
    refine ⟨rfl, fun value id' => ?_⟩
    simp only [mem_filter, decide_eq_true_eq, ne_eq, Prod.mk.injEq, some.injEq]
    rw [and_comm (a := id' = id), eq_comm (a := v)]

end Indexes

/-! ## Operations on one row -/

namespace TableCache

variable {truth : Truth} {cache : TableCache} {id : Int} {row old : RowObject}

/-- The indexes have changed at one row, which is cached as `cached` now.  No value has
become complete. -/
def Replaces (id : Int) (cached : Option RowObject) (before after : Indexes) : Prop :=
  ∀ (column : String) (index : ColumnIndex), after[column]? = some index →
    ∃ index₀, before[column]? = some index₀ ∧
      (∀ value ∈ index.completeValues, value ∈ index₀.completeValues) ∧
      ∀ value id', (value, id') ∈ index.entries ↔
        if id' = id then ∃ row, cached = some row ∧ RowObject.intField row column = some value
        else (value, id') ∈ index₀.entries

variable {after : TableCache} {index : ColumnIndex} {value : Int}
  {updates : List (String × Value)} {column : String} {rows : List RowObject}

/-- One row changes, in the database and in the cache.  If it is in the database and not
in the cache, then nothing that it belongs to is marked complete. -/
theorem Coherent.replace {cached new : Option RowObject} (h : cache.Coherent truth)
    (hRows : ∀ id', after.rows[id']? = if id = id' then cached else cache.rows[id']?)
    (hIndexes : Replaces id cached cache.indexes after.indexes)
    (hComplete : after.isComplete = cache.isComplete)
    (hCached : ∀ row, cached = some row → new = some row)
    (hNew : ∀ row, new = some row → cached = none → cache.isComplete = false ∧
      ∀ (column : String) (index : ColumnIndex), after.indexes[column]? = some index →
        ∀ value ∈ index.completeValues, RowObject.intField row column ≠ some value) :
    after.Coherent (Function.update truth id new) := by
  have hSelf : after.rows[id]? = cached := by rw [hRows, if_pos rfl]
  have hOther : ∀ id', id' ≠ id → after.rows[id']? = cache.rows[id']? := by
    intro id' hId
    rw [hRows, if_neg (Ne.symm hId)]
  -- a marked row is cached: another one as before, and this one unless it is missing
  have hMarked : ∀ id' row, Function.update truth id new id' = some row →
      (truth id' = some row → cache.rows[id']? = some row) →
      (cached = none → new = some row → False) → after.rows[id']? = some row := by
    intro id' row hRow hBefore hMissing
    by_cases hId : id' = id
    · rw [hId, Function.update_self] at hRow
      rw [hId, hSelf]
      cases hCache : cached with
      | none => exact absurd hRow (hMissing hCache)
      | some row' => rw [← hRow, hCached row' hCache]
    · rw [Function.update_of_ne hId] at hRow
      rw [hOther id' hId]
      exact hBefore hRow
  refine ⟨⟨fun id' row hRow => ?_, fun column index hIndex value id' => ?_⟩, ?_, ?_⟩
  · by_cases hId : id' = id
    · rw [hId, hSelf] at hRow
      rw [hId, Function.update_self, hCached row hRow]
    · rw [hOther id' hId] at hRow
      rw [Function.update_of_ne hId]
      exact h.current id' row hRow
  · obtain ⟨index₀, hLookup, -, hEntries⟩ := hIndexes column index hIndex
    rw [hEntries]
    by_cases hId : id' = id
    · rw [if_pos hId, hId, hSelf]
    · rw [if_neg hId, h.indexed column index₀ hLookup, hOther id' hId]
  · intro hWhole id' row hRow
    rw [hComplete] at hWhole
    refine hMarked id' row hRow (h.whole hWhole id' row) fun hMissing hNew' => ?_
    rw [(hNew row hNew' hMissing).1] at hWhole
    cases hWhole
  · intro column index hIndex value hValue id' row hRow hField
    obtain ⟨index₀, hLookup, hValues, -⟩ := hIndexes column index hIndex
    refine hMarked id' row hRow (fun hTruth => ?_) fun hMissing hNew' => ?_
    · exact h.buckets column index₀ hLookup value (hValues value hValue) id' row hTruth hField
    · exact (hNew row hNew' hMissing).2 column index hIndex value hValue hField

theorem removeRow_rows (cache : TableCache) (id id' : Int) :
    (cache.removeRow id).rows[id']? = if id = id' then none else cache.rows[id']? := by
  unfold removeRow
  cases hOld : cache.rows[id]? with
  | some old => exact TreeMaps.getElem?_erase_eq _ _ _
  | none =>
    by_cases hId : id = id'
    · rw [if_pos hId, ← hId, hOld]
    · rw [if_neg hId]

theorem removeRow_isComplete (cache : TableCache) (id : Int) :
    (cache.removeRow id).isComplete = cache.isComplete := by
  unfold removeRow
  split <;> rfl

/-- The row is gone from the database and from the cache. -/
theorem Coherent.removeRow (h : cache.Coherent truth) (id : Int) :
    (cache.removeRow id).Coherent (Function.update truth id none) := by
  refine h.replace (removeRow_rows cache id) (fun column index hIndex => ?_)
    (removeRow_isComplete cache id) (fun _ h => h) fun _ h => by cases h
  unfold TableCache.removeRow at hIndex
  cases hOld : cache.rows[id]? with
  | some old =>
    rw [hOld] at hIndex
    obtain ⟨index₀, hLookup, hValues, hEntries⟩ := Indexes.getElem?_removeRow hIndex
    refine ⟨index₀, hLookup, fun value hValue => hValues ▸ hValue, fun value id' => ?_⟩
    rw [hEntries]
    by_cases hId : id' = id
    · subst hId
      simp [h.indexed column index₀ hLookup, hOld]
    · simp [hId]
  | none =>
    rw [hOld] at hIndex
    refine ⟨index, hIndex, fun _ hValue => hValue, fun value id' => ?_⟩
    by_cases hId : id' = id
    · subst hId
      simp [h.indexed column index hIndex, hOld]
    · simp [hId]

/-- Inserting a row is removing what was there and adding the row. -/
theorem insertRow_eq (hId : row.intField "id" = some id) :
    cache.insertRow row = { cache.removeRow id with
      rows := (cache.removeRow id).rows.insert id row,
      indexes := (cache.removeRow id).indexes.addRow id row } := by
  unfold insertRow TableCache.removeRow
  rw [hId]
  dsimp only
  cases hOld : cache.rows[id]? with
  | none => rfl
  | some old =>
    have hRows : cache.rows.insert id row = (cache.rows.erase id).insert id row := by
      apply Std.ExtTreeMap.ext_getElem?
      intro id'
      rw [TreeMaps.getElem?_insert_eq, TreeMaps.getElem?_insert_eq, TreeMaps.getElem?_erase_eq]
      split <;> rfl
    rw [hRows]

/-- A row that is not cached is added, as the database has it. -/
theorem Coherent.add (h : cache.Coherent truth) (hOld : cache.rows[id]? = none)
    (row : RowObject) :
    ({ cache with rows := cache.rows.insert id row, indexes := cache.indexes.addRow id row } :
      TableCache).Coherent (Function.update truth id (some row)) := by
  refine h.replace (fun _ => TreeMaps.getElem?_insert_eq _ _ _ _)
    (fun column index hIndex => ?_) rfl
    (fun _ h => h) fun _ _ hMissing => by cases hMissing
  obtain ⟨index₀, hLookup, hValues, hEntries⟩ := Indexes.getElem?_addRow hIndex
  refine ⟨index₀, hLookup, fun value hValue => hValues ▸ hValue, fun value id' => ?_⟩
  rw [hEntries]
  by_cases hId : id' = id
  · subst hId
    simp [h.indexed column index₀ hLookup, hOld]
  · simp [hId]

/-- A fresh row, in the database and in the cache. -/
theorem Coherent.insertRow (h : cache.Coherent truth) (hId : row.intField "id" = some id) :
    (cache.insertRow row).Coherent (Function.update truth id (some row)) := by
  have hRemoved := h.removeRow id
  have hGone : (cache.removeRow id).rows[id]? = none := by rw [removeRow_rows, if_pos rfl]
  have hAdded := hRemoved.add hGone row
  rw [Function.update_idem] at hAdded
  rw [insertRow_eq hId]
  exact hAdded

/-! ## Updates -/

theorem ColumnIndex.mem_entries_move {oldVal newInt : Option Int}
    (hOld : ∀ value, (value, id) ∈ index.entries ↔ oldVal = some value) (value id' : Int) :
    (value, id') ∈ (index.move id oldVal newInt).entries ↔
      if id' = id then newInt = some value else (value, id') ∈ index.entries := by
  unfold ColumnIndex.move
  by_cases hSame : oldVal = newInt
  · rw [if_pos hSame]
    by_cases hId : id' = id
    · rw [if_pos hId, hId, hOld, hSame]
    · rw [if_neg hId]
  · rw [if_neg hSame]
    by_cases hId : id' = id
    · subst hId
      cases oldVal with
      | none =>
        cases newInt with
        | none => exact absurd rfl hSame
        | some nv => simp [hOld, eq_comm]
      | some ov =>
        have hGone : (value, id') ∈ index.entries.filter (· ≠ (ov, id')) ↔ False := by
          rw [mem_filter, hOld, iff_false]
          rintro ⟨hValue, hNe⟩
          rw [some.inj hValue] at hNe
          simp at hNe
        cases newInt with
        | none =>
          rw [hGone]
          simp
        | some nv =>
          rw [mem_insert_iff, hGone]
          simp [eq_comm]
    · rw [if_neg hId]
      cases oldVal <;> cases newInt <;> simp [hId]

theorem ColumnIndex.completeValues_move {oldVal newInt : Option Int}
    (h : value ∈ (index.move id oldVal newInt).completeValues) :
    value ∈ index.completeValues := by
  unfold ColumnIndex.move at h
  split at h
  · exact h
  · cases oldVal with
    | none =>
      cases newInt with
      | none => exact h
      | some nv => exact (mem_filter.mp h).1
    | some ov =>
      cases newInt with
      | none => exact (mem_filter.mp h).1
      | some nv => exact (mem_filter.mp (mem_filter.mp h).1).1

theorem intField_insert (row : RowObject) (column : String)
    (value : Value) (column' : String) :
    RowObject.intField (row.insert column value) column' =
      if column = column' then value.asI64 else row.intField column' := by
  unfold RowObject.intField
  rw [TreeMaps.getElem?_insert_eq]
  split <;> rfl

/-- The entry of the row moves in the index of the column. -/
theorem updateColumn_fst (id : Int) (indexes : Indexes) (row : RowObject) (column : String)
    (value : Value) : (TableCache.updateColumn id (indexes, row) (column, value)).1 =
      indexes.modify column fun index => index.move id (row.intField column) value.asI64 := by
  rw [TreeMaps.modify_eq_match]
  unfold TableCache.updateColumn
  dsimp only
  cases indexes[column]? <;> rfl

/-- One column more of an update of a cached row. -/
theorem Coherent.updateColumn {indexes : Indexes}
    (h : ({ cache with rows := cache.rows.insert id row, indexes } : TableCache).Coherent
      (Function.update truth id (some row))) (column : String) (value : Value) :
    ({ cache with
        rows := cache.rows.insert id (row.insert column value),
        indexes := (TableCache.updateColumn id (indexes, row) (column, value)).1 } :
      TableCache).Coherent (Function.update truth id (some (row.insert column value))) := by
  have hRows : ∀ id', (cache.rows.insert id (row.insert column value))[id']? =
      if id = id' then some (row.insert column value) else (cache.rows.insert id row)[id']? := by
    intro id'
    rw [TreeMaps.getElem?_insert_eq, TreeMaps.getElem?_insert_eq]
    split <;> rfl
  have hIdem := Function.update_idem (a := id) (some row) (some (row.insert column value)) truth
  rw [← hIdem]
  refine h.replace hRows (fun column' index hLookup => ?_) rfl (fun _ h => h)
    fun _ _ hMissing => by cases hMissing
  rw [updateColumn_fst, TreeMaps.getElem?_modify_eq, map_eq_some_iff] at hLookup
  obtain ⟨index₀, hLookup₀, rfl⟩ := hLookup
  have hOld : ∀ v, (v, id) ∈ index₀.entries ↔ row.intField column' = some v := by
    intro v
    rw [h.indexed column' index₀ hLookup₀ v id]
    simp
  refine ⟨index₀, hLookup₀, fun v hValue => ?_, fun v id' => ?_⟩
  · split at hValue
    · exact ColumnIndex.completeValues_move hValue
    · exact hValue
  · have hField := intField_insert row column value column'
    by_cases hEq : column = column'
    · subst hEq
      rw [if_pos rfl, ColumnIndex.mem_entries_move hOld]
      simp [hField]
    · rw [if_neg hEq] at hField ⊢
      by_cases hId : id' = id
      · subst hId
        simp [hField, hOld]
      · rw [if_neg hId]

/-- An update of a cached row, in the database and in the cache. -/
theorem Coherent.updateRow (h : cache.Coherent truth) (hOld : cache.rows[id]? = some old)
    {cache' : TableCache} (hUpdate : cache.updateRow id updates = some cache') :
    cache'.Coherent (Function.update truth id (some (old.overlay updates))) := by
  -- the invariant is about the cache with the row as updated so far
  have hFold : ∀ (updates : List (String × Value)) (indexes : Indexes) (row : RowObject),
      ({ cache with rows := cache.rows.insert id row, indexes } : TableCache).Coherent
        (Function.update truth id (some row)) →
      ({ cache with
          rows :=
            cache.rows.insert id (updates.foldl (TableCache.updateColumn id) (indexes, row)).2,
          indexes := (updates.foldl (TableCache.updateColumn id) (indexes, row)).1 } :
            TableCache).Coherent
        (Function.update truth id (some (row.overlay updates))) ∧
      (updates.foldl (TableCache.updateColumn id) (indexes, row)).2 = row.overlay updates := by
    intro updates
    induction updates with
    | nil => exact fun indexes row hRow => ⟨hRow, rfl⟩
    | cons update updates ih =>
      intro indexes row hRow
      exact ih _ _ (hRow.updateColumn update.1 update.2)
  have hSame : cache.rows.insert id old = cache.rows := by
    apply Std.ExtTreeMap.ext_getElem?
    intro id'
    rw [TreeMaps.getElem?_insert_eq]
    split
    · rename_i hId
      rw [← hId, hOld]
    · rfl
  have hTruth : Function.update truth id (some old) = truth := by
    rw [← h.current id old hOld]
    exact Function.update_eq_self id truth
  have hStart : ({ cache with rows := cache.rows.insert id old, indexes := cache.indexes } :
      TableCache).Coherent (Function.update truth id (some old)) := by
    rw [hSame, hTruth]
    exact h
  unfold TableCache.updateRow at hUpdate
  rw [hOld] at hUpdate
  obtain rfl := some.inj hUpdate
  exact (hFold updates cache.indexes old hStart).1

/-- Only the value an update moves the row to loses its mark. -/
theorem getElem?_invalidateBucket {update : String × Value}
    (hIndex : (cache.invalidateBucket update).indexes[column]? = some index) :
    ∃ index₀, cache.indexes[column]? = some index₀ ∧ index.entries = index₀.entries ∧
      ∀ value ∈ index.completeValues, value ∈ index₀.completeValues ∧
        ¬ (update.1 = column ∧ update.2.asI64 = some value) := by
  unfold invalidateBucket at hIndex
  cases hInt : update.2.asI64 with
  | none =>
    have hSame : cache.indexes[column]? = some index := by
      rw [hInt] at hIndex
      cases hColumn : cache.indexes[update.1]? <;> simpa only [hColumn] using hIndex
    exact ⟨index, hSame, rfl, fun value hValue => ⟨hValue, fun h => by cases h.2⟩⟩
  | some nv =>
    have hModify : (cache.indexes.modify update.1 fun index =>
        { index with completeValues := index.completeValues.filter (· ≠ nv) })[column]? =
          some index := by
      rw [hInt] at hIndex
      rw [TreeMaps.modify_eq_match]
      cases hColumn : cache.indexes[update.1]? <;> simpa only [hColumn] using hIndex
    rw [TreeMaps.getElem?_modify_eq, map_eq_some_iff] at hModify
    obtain ⟨index₀, hLookup, rfl⟩ := hModify
    split_ifs with hEq
    · refine ⟨index₀, hLookup, rfl, fun value hValue => ?_⟩
      obtain ⟨hMem, hNe⟩ := mem_filter.mp hValue
      exact ⟨hMem, fun h => of_decide_eq_true hNe (some.inj h.2).symm⟩
    · exact ⟨index₀, hLookup, rfl, fun value hValue => ⟨hValue, fun h => hEq h.1⟩⟩

theorem getElem?_invalidateDestinationBuckets
    (hIndex : (cache.invalidateDestinationBuckets updates).indexes[column]? = some index) :
    ∃ index₀, cache.indexes[column]? = some index₀ ∧ index.entries = index₀.entries ∧
      ∀ value ∈ index.completeValues, value ∈ index₀.completeValues ∧
        ∀ update ∈ updates, ¬ (update.1 = column ∧ update.2.asI64 = some value) := by
  induction updates generalizing cache with
  | nil => exact ⟨index, hIndex, rfl, fun value hValue => ⟨hValue, fun _ h => by cases h⟩⟩
  | cons first updates ih =>
    obtain ⟨index₁, hLookup₁, hEntries₁, hValues₁⟩ := ih hIndex
    obtain ⟨index₀, hLookup₀, hEntries₀, hValues₀⟩ := getElem?_invalidateBucket hLookup₁
    refine ⟨index₀, hLookup₀, hEntries₁.trans hEntries₀, fun value hValue => ?_⟩
    obtain ⟨hMem₁, hLater⟩ := hValues₁ value hValue
    obtain ⟨hMem₀, hFirst⟩ := hValues₀ value hMem₁
    exact ⟨hMem₀, forall_mem_cons.mpr ⟨hFirst, hLater⟩⟩

theorem invalidateDestinationBuckets_rows (cache : TableCache) (updates : List (String × Value)) :
    (cache.invalidateDestinationBuckets updates).rows = cache.rows ∧
      (cache.invalidateDestinationBuckets updates).isComplete = cache.isComplete := by
  induction updates generalizing cache with
  | nil => exact ⟨rfl, rfl⟩
  | cons first updates ih =>
    have hFirst : (cache.invalidateBucket first).rows = cache.rows ∧
        (cache.invalidateBucket first).isComplete = cache.isComplete := by
      unfold invalidateBucket
      split <;> exact ⟨rfl, rfl⟩
    exact ⟨(ih _).1.trans hFirst.1, (ih _).2.trans hFirst.2⟩

/-- The value of a column after an update: the last one given for it, or the old. -/
theorem intField_overlay {row : RowObject}
    (h : RowObject.intField (row.overlay updates) column = some value) :
    row.intField column = some value ∨
      ∃ update ∈ updates, update.1 = column ∧ update.2.asI64 = some value := by
  induction updates generalizing row with
  | nil => exact .inl h
  | cons first updates ih =>
    rcases ih h with hRow | ⟨update, hMem, hUpdate⟩
    · rw [intField_insert] at hRow
      split_ifs at hRow with hEq
      · exact .inr ⟨first, mem_cons_self, hEq, hRow⟩
      · exact .inl hRow
    · exact .inr ⟨update, mem_cons_of_mem _ hMem, hUpdate⟩

/-- An update of a row that is not cached. -/
theorem Coherent.invalidateDestinationBuckets (h : cache.Coherent truth)
    (hMissing : cache.rows[id]? = none) (hOld : truth id = some old)
    (updates : List (String × Value)) :
    (cache.invalidateDestinationBuckets updates).Coherent
      (Function.update truth id (some (old.overlay updates))) := by
  obtain ⟨hRows, hComplete⟩ := invalidateDestinationBuckets_rows cache updates
  have hSame : ∀ id', (cache.invalidateDestinationBuckets updates).rows[id']? =
      if id = id' then none else cache.rows[id']? := by
    intro id'
    rw [hRows]
    by_cases hId : id = id'
    · rw [if_pos hId, ← hId, hMissing]
    · rw [if_neg hId]
  refine h.replace hSame (fun column index hIndex => ?_) hComplete
    (fun _ h => by cases h) fun row hRow _ =>
    ⟨?_, fun column index hIndex value hValue hField => ?_⟩
  · obtain ⟨index₀, hLookup, hEntries, hValues⟩ := getElem?_invalidateDestinationBuckets hIndex
    refine ⟨index₀, hLookup, fun value hValue => (hValues value hValue).1, fun value id' => ?_⟩
    rw [hEntries]
    by_cases hId : id' = id
    · subst hId
      simp [h.indexed column index₀ hLookup, hMissing]
    · rw [if_neg hId]
  · -- a complete table would have the row
    refine eq_false_of_ne_true fun hWhole => ?_
    have hCached := h.whole hWhole id old hOld
    rw [hMissing] at hCached
    cases hCached
  · obtain ⟨index₀, hLookup, -, hValues⟩ := getElem?_invalidateDestinationBuckets hIndex
    obtain ⟨hValue₀, hNotMoved⟩ := hValues value hValue
    rw [← some.inj hRow] at hField
    rcases intField_overlay hField with hBefore | ⟨update, hMem, hUpdate⟩
    · have hCached := h.buckets column index₀ hLookup value hValue₀ id old hOld hBefore
      rw [hMissing] at hCached
      cases hCached
    · exact hNotMoved update hMem hUpdate

/-! ## Populations -/

/-- `after` has more of the current rows than `cache`, and the same marks. -/
structure Grows (truth : Truth) (cache after : TableCache) : Prop where
  sound : after.Sound truth
  rows : ∀ (id : Int) (row : RowObject), cache.rows[id]? = some row → after.rows[id]? = some row
  isComplete : after.isComplete = cache.isComplete
  completeValues : ∀ (column : String) (index : ColumnIndex), after.indexes[column]? = some index →
    ∃ index₀, cache.indexes[column]? = some index₀ ∧ index.completeValues = index₀.completeValues

theorem Grows.refl (h : cache.Sound truth) : Grows truth cache cache :=
  ⟨h, fun _ _ h => h, rfl, fun _ index hIndex => ⟨index, hIndex, rfl⟩⟩

theorem Grows.trans {mid : TableCache} (h : Grows truth cache mid) (h' : Grows truth mid after) :
    Grows truth cache after where
  sound := h'.sound
  rows id row hRow := h'.rows id row (h.rows id row hRow)
  isComplete := h'.isComplete.trans h.isComplete
  completeValues column index hIndex := by
    obtain ⟨index₁, hLookup₁, hValues₁⟩ := h'.completeValues column index hIndex
    obtain ⟨index₀, hLookup₀, hValues₀⟩ := h.completeValues column index₁ hLookup₁
    exact ⟨index₀, hLookup₀, hValues₁.trans hValues₀⟩

theorem Grows.coherent (hGrows : Grows truth cache after) (h : cache.Coherent truth) :
    after.Coherent truth where
  toSound := hGrows.sound
  whole hComplete id row hRow := by
    rw [hGrows.isComplete] at hComplete
    exact hGrows.rows id row (h.whole hComplete id row hRow)
  buckets column index hIndex value hValue id row hRow hField := by
    obtain ⟨index₀, hLookup, hValues⟩ := hGrows.completeValues column index hIndex
    rw [hValues] at hValue
    exact hGrows.rows id row (h.buckets column index₀ hLookup value hValue id row hRow hField)

/-- Rows of the database that carry their ids. -/
def Current (truth : Truth) (rows : List RowObject) : Prop :=
  ∀ row ∈ rows, ∃ id, RowObject.intField row "id" = some id ∧ truth id = some row

theorem addFetched_grows (h : cache.Sound truth) (hId : row.intField "id" = some id)
    (hRow : truth id = some row) :
    Grows truth cache (cache.addFetched row) ∧ (cache.addFetched row).rows[id]? = some row := by
  have hKept : ∀ (id' : Int) (row' : RowObject), cache.rows[id']? = some row' →
      (cache.rows.insert id row)[id']? = some row' := by
    intro id' row' hRow'
    rw [TreeMaps.getElem?_insert_eq]
    by_cases hEq : id = id'
    · have hTruth := h.current id' row' hRow'
      rw [← hEq, hRow] at hTruth
      rw [if_pos hEq, hTruth]
    · rw [if_neg hEq]
      exact hRow'
  unfold addFetched
  rw [hId]
  refine ⟨⟨⟨?_, ?_⟩, hKept, rfl, ?_⟩, ?_⟩
  · intro id' row' hRow'
    rw [TreeMaps.getElem?_insert_eq] at hRow'
    by_cases hEq : id = id'
    · rw [if_pos hEq] at hRow'
      rw [← hEq, hRow, hRow']
    · rw [if_neg hEq] at hRow'
      exact h.current id' row' hRow'
  · intro column index hIndex value id'
    obtain ⟨index₀, hLookup, -, hEntries⟩ := Indexes.getElem?_addRow hIndex
    rw [hEntries, h.indexed column index₀ hLookup]
    constructor
    · rintro (⟨rfl, hField⟩ | ⟨row', hRow', hField⟩)
      · exact ⟨row, Std.ExtTreeMap.getElem?_insert_self, hField⟩
      · exact ⟨row', hKept id' row' hRow', hField⟩
    · rintro ⟨row', hRow', hField⟩
      rw [TreeMaps.getElem?_insert_eq] at hRow'
      by_cases hEq : id = id'
      · rw [if_pos hEq, some.injEq] at hRow'
        exact .inl ⟨hEq.symm, hRow' ▸ hField⟩
      · rw [if_neg hEq] at hRow'
        exact .inr ⟨row', hRow', hField⟩
  · intro column index hIndex
    obtain ⟨index₀, hLookup, hValues, -⟩ := Indexes.getElem?_addRow hIndex
    exact ⟨index₀, hLookup, hValues⟩
  · exact Std.ExtTreeMap.getElem?_insert_self

theorem foldl_addFetched_grows (h : cache.Sound truth) (hRows : Current truth rows) :
    Grows truth cache (rows.foldl addFetched cache) ∧
      ∀ row ∈ rows, ∀ id, RowObject.intField row "id" = some id →
        (rows.foldl addFetched cache).rows[id]? = some row := by
  induction rows generalizing cache with
  | nil => exact ⟨Grows.refl h, fun _ h => by cases h⟩
  | cons first rows ih =>
    obtain ⟨id, hId, hFirst⟩ := hRows first mem_cons_self
    obtain ⟨hGrows, hCached⟩ := addFetched_grows h hId hFirst
    have hLater : Current truth rows := fun row hRow => hRows row (mem_cons_of_mem _ hRow)
    obtain ⟨hGrows', hCached'⟩ := ih hGrows.sound hLater
    refine ⟨hGrows.trans hGrows', ?_⟩
    intro row hRow id' hId'
    rcases mem_cons.mp hRow with rfl | hRow
    · rw [hId, some.injEq] at hId'
      subst hId'
      exact hGrows'.rows id row hCached
    · exact hCached' row hRow id' hId'

theorem markComplete_eq (cache : TableCache) (column : String) (value : Int) :
    cache.markComplete column value = { cache with
      indexes := cache.indexes.modify column fun index =>
        { index with completeValues := index.completeValues.insert value } } := by
  rw [TreeMaps.modify_eq_match]
  unfold TableCache.markComplete
  cases cache.indexes[column]? <;> rfl

theorem Coherent.markComplete (h : cache.Coherent truth)
    (hAll : ∀ id row, truth id = some row → RowObject.intField row column = some value →
      cache.rows[id]? = some row) : (cache.markComplete column value).Coherent truth := by
  rw [markComplete_eq]
  refine ⟨⟨h.current, fun column' index hLookup v id' => ?_⟩, h.whole,
    fun column' index hLookup v hv id' row' hRow' hField => ?_⟩
  all_goals
    rw [TreeMaps.getElem?_modify_eq, map_eq_some_iff] at hLookup
    obtain ⟨index₀, hLookup₀, rfl⟩ := hLookup
  · rw [← h.indexed column' index₀ hLookup₀]
    split <;> rfl
  · split_ifs at hv with hEq
    · rcases mem_insert_iff.mp hv with rfl | hv
      · exact hAll id' row' hRow' (hEq ▸ hField)
      · exact h.buckets column' index₀ hLookup₀ v hv id' row' hRow' hField
    · exact h.buckets column' index₀ hLookup₀ v hv id' row' hRow' hField

/-- All rows of the table were fetched. -/
theorem coherent_populateFull (hRows : Current truth rows)
    (hAll : ∀ id row, truth id = some row → row ∈ rows) (hTruth : truth.Identified) (now : Nat)
    (indexedColumns : List String) :
    (cache.populateFull now rows indexedColumns).Coherent truth := by
  -- nothing is cached and nothing is marked after the clearing
  have hCleared : ({ cache with
      rows := ∅
      indexes := (Indexes.ensure cache.indexes indexedColumns).map fun _ _ => ColumnIndex.new } :
        TableCache).Sound truth := by
    refine ⟨fun id row hRow => ?_, fun column index hIndex value id => ?_⟩
    · simp at hRow
    · rw [Std.ExtTreeMap.getElem?_map, map_eq_some_iff] at hIndex
      obtain ⟨index₀, -, rfl⟩ := hIndex
      simp [ColumnIndex.new]
  obtain ⟨hGrows, hCached⟩ := foldl_addFetched_grows hCleared hRows
  have hEvery : ∀ id row, truth id = some row → _ := fun id row hRow =>
    hCached row (hAll id row hRow) id (hTruth id row hRow)
  refine ⟨⟨hGrows.sound.current, hGrows.sound.indexed⟩, fun _ => hEvery, ?_⟩
  intro column index hIndex value hValue id row hRow hField
  exact hEvery id row hRow

/-- The table has an index for each of these columns. -/
def IndexedBy (columns : List String) (cache : TableCache) : Prop :=
  ∀ column ∈ columns, (cache.indexes[column]?).isSome = true

/-- A column keeps its index, or has a new one. -/
theorem getElem?_ensure (indexes : Indexes) (columns : List String) (column : String) :
    (indexes.ensure columns)[column]? =
      indexes[column]?.or (if column ∈ columns then some ColumnIndex.new else none) := by
  unfold Indexes.ensure
  induction columns generalizing indexes with
  | nil => simp
  | cons first columns ih =>
    rw [foldl_cons, ih, Std.ExtTreeMap.getElem?_insertIfNew]
    simp only [compare_eq_iff_eq, mem_cons, Std.ExtTreeMap.mem_iff_isSome_getElem?]
    by_cases hEq : first = column
    · subst hEq
      cases indexes[first]? <;> simp
    · simp [hEq, Ne.symm hEq]

theorem isSome_ensure (indexes : Indexes) (columns : List String) (column : String) :
    ((indexes.ensure columns)[column]?).isSome = true ↔
      (indexes[column]?).isSome = true ∨ column ∈ columns := by
  rw [getElem?_ensure]
  by_cases hMem : column ∈ columns <;> simp [hMem]

/-- Nothing is added if every column has its index. -/
theorem IndexedBy.ensure {columns : List String} (h : cache.IndexedBy columns) :
    Indexes.ensure cache.indexes columns = cache.indexes := by
  apply Std.ExtTreeMap.ext_getElem?
  intro column
  rw [getElem?_ensure]
  split_ifs with hMem
  · obtain ⟨index, hIndex⟩ := isSome_iff_exists.mp (h column hMem)
    rw [hIndex, some_or]
  · exact or_none

theorem coherent_new (truth : Truth) (now : Nat) (columns : List String) :
    (TableCache.new now columns).Coherent truth := by
  have hEmpty : ∀ (column : String) (index : ColumnIndex),
      (Indexes.ensure ∅ columns)[column]? = some index → index = ColumnIndex.new := by
    intro column index hIndex
    rw [getElem?_ensure, Std.ExtTreeMap.getElem?_empty, none_or] at hIndex
    split_ifs at hIndex
    exact (some.inj hIndex).symm
  refine ⟨⟨fun id row hRow => ?_, fun column index hIndex value id => ?_⟩, fun h => ?_,
    fun column index hIndex value hValue => ?_⟩
  · simp [TableCache.new] at hRow
  · rw [hEmpty column index hIndex]
    simp [ColumnIndex.new, TableCache.new]
  · cases h
  · rw [hEmpty column index hIndex] at hValue
    cases hValue

theorem indexedBy_new (now : Nat) (columns : List String) :
    (TableCache.new now columns).IndexedBy columns :=
  fun column hColumn => (isSome_ensure ∅ columns column).mpr (.inr hColumn)

/-- All rows of one value were fetched. -/
theorem Coherent.populateForValue (h : cache.Coherent truth) {columns : List String}
    (hIndexed : cache.IndexedBy columns) (hRows : Current truth rows) (hTruth : truth.Identified)
    (hAll : ∀ id row, truth id = some row → RowObject.intField row column = some value →
      row ∈ rows) (now : Nat) :
    (cache.populateForValue now column value rows columns).Coherent truth := by
  unfold TableCache.populateForValue
  rw [hIndexed.ensure]
  -- the cached rows of the region are current, so none of them is stale
  have hStale : cache.staleIds column value rows = [] := by
    unfold TableCache.staleIds
    cases hColumn : cache.indexes[column]? with
    | none => rfl
    | some index =>
      rw [filter_eq_nil_iff]
      intro id hId
      obtain ⟨⟨value', id'⟩, hEntry, rfl⟩ := mem_map.mp hId
      obtain ⟨hEntry, hValue⟩ := mem_filter.mp hEntry
      have hValue : value' = value := of_decide_eq_true hValue
      obtain ⟨row, hRow, hField⟩ := (h.indexed column index hColumn value' id').mp hEntry
      have hCurrent := h.current id' row hRow
      have hMem := hAll id' row hCurrent (hValue ▸ hField)
      have hFound : id' ∈ rows.filterMap fun row => RowObject.intField row "id" :=
        mem_filterMap.mpr ⟨row, hMem, hTruth id' row hCurrent⟩
      simp only [decide_eq_true_eq, not_not]
      exact hFound
  dsimp only
  rw [hStale, foldl_nil]
  obtain ⟨hGrows, hCached⟩ := foldl_addFetched_grows h.toSound hRows
  have hMarked := (hGrows.coherent h).markComplete
    fun id row (hRow : truth id = some row)
      (hField : RowObject.intField row column = some value) =>
        hCached row (hAll id row hRow hField) id (hTruth id row hRow)
  exact ⟨⟨hMarked.current, hMarked.indexed⟩, hMarked.whole, hMarked.buckets⟩

/-- A row as the database has it may be inserted again. -/
theorem Coherent.insertCurrent (h : cache.Coherent truth) (hId : row.intField "id" = some id)
    (hRow : truth id = some row) : (cache.insertRow row).Coherent truth := by
  have hInserted := h.insertRow hId
  rw [← hRow, Function.update_eq_self] at hInserted
  exact hInserted

end TableCache

end EncryptedSpaces.Client
