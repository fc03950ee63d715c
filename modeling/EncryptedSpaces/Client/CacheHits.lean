import EncryptedSpaces.Client.CacheCoherence
import EncryptedSpaces.Lib.Lists

/-!
# What a cache hit returns

A hit on a coherent table returns the rows of the region that was asked for: all
rows of a complete table, the rows of a complete value, or the rows with the given
ids.  A complete table answers every query with all its rows, and the caller
filters them; `Serves` is about the rows after that filter.

The second half lifts the facts about one table to the cache.
-/

namespace EncryptedSpaces.Client

open Encoding Lib Option

/-- The region a lookup asks for. -/
def inRegion (whereClauses : List (String × Int)) (idLookups : List Int) (row : RowObject) : Bool :=
  (∀ clause ∈ whereClauses, row.intField clause.1 = some clause.2) ∧
    (idLookups ≠ [] → ∃ id ∈ idLookups, row.intField "id" = some id)

/-- The rows in the region are exactly those of the database. -/
def Serves (truth : Truth) (whereClauses : List (String × Int)) (idLookups : List Int)
    (rows : List RowObject) : Prop :=
  ∀ row, row ∈ rows.filter (inRegion whereClauses idLookups) ↔
    (∃ id, truth id = some row) ∧ inRegion whereClauses idLookups row = true

theorem mem_sortById {rows : List RowObject} {row : RowObject} :
    row ∈ sortById rows ↔ row ∈ rows := (List.perm_insertionSort _ _).mem_iff

namespace TableCache

variable {truth : Truth} {cache : TableCache} {whereClauses : List (String × Int)}
  {idLookups : List Int} {rows : List RowObject}

/-- Rows that are all current serve a region if they have all of it. -/
theorem serves_of_current (hCurrent : ∀ row ∈ rows, ∃ id, truth id = some row)
    (hAll : ∀ id row, truth id = some row → inRegion whereClauses idLookups row = true →
      row ∈ rows) : Serves truth whereClauses idLookups rows := by
  intro row
  rw [List.mem_filter]
  constructor
  · rintro ⟨hRow, hRegion⟩
    exact ⟨hCurrent row hRow, hRegion⟩
  · rintro ⟨⟨id, hRow⟩, hRegion⟩
    exact ⟨hAll id row hRow hRegion, hRegion⟩

theorem Coherent.serves_whole (h : cache.Coherent truth) (hComplete : cache.isComplete = true) :
    Serves truth whereClauses idLookups (sortById (cache.rows.toList.map Prod.snd)) := by
  have hValues : ∀ row, row ∈ sortById (cache.rows.toList.map Prod.snd) ↔
      ∃ id : Int, cache.rows[id]? = some row := by
    intro row
    rw [mem_sortById, List.mem_map]
    constructor
    · rintro ⟨⟨id, row⟩, hMem, rfl⟩
      exact ⟨id, Std.ExtTreeMap.mem_toList_iff_getElem?_eq_some.mp hMem⟩
    · rintro ⟨id, hRow⟩
      exact ⟨(id, row), Std.ExtTreeMap.mem_toList_iff_getElem?_eq_some.mpr hRow, rfl⟩
  apply serves_of_current
  · intro row hRow
    obtain ⟨id, hRow⟩ := (hValues row).mp hRow
    exact ⟨id, h.current id row hRow⟩
  · intro id row hRow _
    exact (hValues row).mpr ⟨id, h.whole hComplete id row hRow⟩

theorem Coherent.serves_bucket (h : cache.Coherent truth) {column : String} {value : Int}
    {index : ColumnIndex} (hIndex : cache.indexes[column]? = some index)
    (hValue : value ∈ index.completeValues) :
    Serves truth [(column, value)] idLookups (cache.bucket index value) := by
  unfold TableCache.bucket
  apply serves_of_current
  · intro row hRow
    rw [mem_sortById, List.mem_filterMap] at hRow
    obtain ⟨⟨_, id⟩, -, hRow⟩ := hRow
    exact ⟨id, h.current id row hRow⟩
  · intro id row hRow hRegion
    have hField : row.intField column = some value :=
      (of_decide_eq_true hRegion).1 (column, value) List.mem_cons_self
    have hCached := h.buckets column index hIndex value hValue id row hRow hField
    have hEntry := (h.indexed column index hIndex value id).mpr ⟨row, hCached, hField⟩
    rw [mem_sortById, List.mem_filterMap]
    exact ⟨(value, id), List.mem_filter.mpr ⟨hEntry, by simp⟩, hCached⟩

theorem Coherent.serves_ids (h : cache.Coherent truth) (hTruth : truth.Identified)
    (hIds : idLookups ≠ []) (hRows : idLookups.mapM (fun id => cache.rows[id]?) = some rows) :
    Serves truth [] idLookups rows := by
  apply serves_of_current
  · intro row hRow
    obtain ⟨id, -, hCached⟩ := (Lists.mem_of_mapM_eq_some hRows).mp hRow
    exact ⟨id, h.current id row hCached⟩
  · intro id row hRow hRegion
    obtain ⟨id', hId', hField⟩ := (of_decide_eq_true hRegion).2 hIds
    rw [hTruth id row hRow, some.injEq] at hField
    subst hField
    obtain ⟨row', hCached⟩ := Lists.exists_of_mapM_eq_some hRows hId'
    have hTruth' := h.current id row' hCached
    rw [hRow] at hTruth'
    exact (Lists.mem_of_mapM_eq_some hRows).mpr ⟨id, hId', hCached.trans hTruth'.symm⟩

/-- **A hit tells the truth.** -/
theorem Coherent.serves (h : cache.Coherent truth) (hTruth : truth.Identified)
    (hAnswer : cache.answer whereClauses idLookups = some rows) :
    Serves truth whereClauses idLookups rows := by
  unfold TableCache.answer at hAnswer
  by_cases hComplete : cache.isComplete = true
  · rw [if_pos hComplete, some.injEq] at hAnswer
    subst hAnswer
    exact h.serves_whole hComplete
  · rw [if_neg hComplete] at hAnswer
    cases hIndexed : cache.indexedAnswer whereClauses with
    | some found =>
      rw [hIndexed] at hAnswer
      obtain rfl := some.inj hAnswer
      unfold TableCache.indexedAnswer at hIndexed
      split at hIndexed
      · rename_i column value
        obtain ⟨index, hIndex, hIndexed⟩ := bind_eq_some_iff.mp hIndexed
        split at hIndexed
        · rename_i hValue
          obtain rfl := some.inj hIndexed
          exact h.serves_bucket hIndex hValue
        · cases hIndexed
      · cases hIndexed
    | none =>
      rw [hIndexed] at hAnswer
      dsimp only at hAnswer
      split at hAnswer
      · rename_i hIds
        rw [hIds.2]
        exact h.serves_ids hTruth hIds.1 hAnswer
      · cases hAnswer

/-! ## Indexes stay -/

section Columns

variable {columns : List String}

theorem IndexedBy.congr {after : TableCache} (h : cache.IndexedBy columns)
    (hSame : ∀ column : String,
      (after.indexes[column]?).isSome = (cache.indexes[column]?).isSome) :
    after.IndexedBy columns := by
  intro column hColumn
  rw [hSame]
  exact h column hColumn

theorem isSome_modify {β : Type} (m : Std.ExtTreeMap String β compare) (key : String) (f : β → β)
    (key' : String) : ((m.modify key f)[key']?).isSome = (m[key']?).isSome := by
  rw [TreeMaps.getElem?_modify_eq, isSome_map]

theorem isSome_addRow (indexes : Indexes) (id : Int) (row : RowObject) (column : String) :
    ((indexes.addRow id row)[column]?).isSome = (indexes[column]?).isSome := by
  unfold Indexes.addRow
  rw [Std.ExtTreeMap.getElem?_map, isSome_map]

theorem isSome_removeRow (cache : TableCache) (id : Int) (column : String) :
    ((cache.removeRow id).indexes[column]?).isSome = (cache.indexes[column]?).isSome := by
  unfold TableCache.removeRow
  split
  · unfold Indexes.removeRow
    rw [Std.ExtTreeMap.getElem?_map, isSome_map]
  · rfl

theorem IndexedBy.removeRow (h : cache.IndexedBy columns) (id : Int) :
    (cache.removeRow id).IndexedBy columns := h.congr (isSome_removeRow cache id)

theorem IndexedBy.insertRow (h : cache.IndexedBy columns) (row : RowObject) :
    (cache.insertRow row).IndexedBy columns := by
  cases hId : row.intField "id" with
  | none =>
    unfold TableCache.insertRow
    rw [hId]
    exact h
  | some id =>
    rw [insertRow_eq hId]
    exact h.congr fun column =>
      (isSome_addRow _ id row column).trans (isSome_removeRow cache id column)

theorem IndexedBy.updateRow (h : cache.IndexedBy columns) {id : Int}
    {updates : List (String × Value)} {after : TableCache}
    (hUpdate : cache.updateRow id updates = some after) : after.IndexedBy columns := by
  have hFold : ∀ (updates : List (String × Value)) (state : Indexes × RowObject) (column : String),
      ((updates.foldl (TableCache.updateColumn id) state).1[column]?).isSome =
        (state.1[column]?).isSome := by
    intro updates
    induction updates with
    | nil => exact fun state column => rfl
    | cons first updates ih =>
      intro state column
      rw [List.foldl_cons, ih, updateColumn_fst, isSome_modify]
  unfold TableCache.updateRow at hUpdate
  split at hUpdate
  · cases hUpdate
  · obtain rfl := some.inj hUpdate
    exact h.congr fun column => hFold updates _ column

theorem IndexedBy.invalidateDestinationBuckets (h : cache.IndexedBy columns)
    (updates : List (String × Value)) :
    (cache.invalidateDestinationBuckets updates).IndexedBy columns := by
  refine List.foldlRecOn updates _ h fun t ht update _ => ht.congr fun column => ?_
  unfold TableCache.invalidateBucket
  split
  · rename_i index nv hColumn _
    have hModify := isSome_modify t.indexes update.1
      (fun index => { index with completeValues := index.completeValues.filter (· ≠ nv) }) column
    rwa [TreeMaps.modify_eq_match, hColumn] at hModify
  · rfl

theorem IndexedBy.foldl_addFetched (h : cache.IndexedBy columns) (rows : List RowObject) :
    (rows.foldl TableCache.addFetched cache).IndexedBy columns := by
  refine List.foldlRecOn rows _ h fun t ht row _ => ht.congr fun column => ?_
  unfold TableCache.addFetched
  split
  · exact isSome_addRow _ _ _ column
  · rfl

theorem IndexedBy.markComplete (h : cache.IndexedBy columns) (column : String) (value : Int) :
    (cache.markComplete column value).IndexedBy columns := by
  rw [markComplete_eq]
  exact h.congr (isSome_modify cache.indexes column _)

theorem indexedBy_populateFull (cache : TableCache) (now : Nat) (rows : List RowObject)
    (columns : List String) : (cache.populateFull now rows columns).IndexedBy columns := by
  apply IndexedBy.foldl_addFetched
  intro column hColumn
  rw [Std.ExtTreeMap.getElem?_map, isSome_map]
  exact (isSome_ensure _ columns column).mpr (.inr hColumn)

theorem IndexedBy.populateForValue (h : cache.IndexedBy columns) (now : Nat) (column : String)
    (value : Int) (rows : List RowObject) :
    (cache.populateForValue now column value rows columns).IndexedBy columns := by
  have hStale : ∀ ids : List Int, (ids.foldl TableCache.removeStale cache).IndexedBy columns := by
    intro ids
    refine List.foldlRecOn ids _ h fun t ht id _ => ht.congr fun column => ?_
    unfold TableCache.removeStale
    split
    · unfold Indexes.dropStale
      rw [Std.ExtTreeMap.getElem?_map, isSome_map]
    · rfl
  unfold TableCache.populateForValue
  rw [h.ensure]
  exact ((hStale _).foldl_addFetched rows).markComplete column value

end Columns

end TableCache

/-! ## The whole cache -/

/-- Every cached table tells the truth and has the indexes of its schema. -/
def Cache.Coherent (truths : String → Truth) (columns : String → List String) (cache : Cache) :
    Prop :=
  ∀ (table : String) (t : TableCache), cache.tables[table]? = some t →
    t.Coherent (truths table) ∧ t.IndexedBy (columns table)

section Cache

variable {truths : String → Truth} {columns : String → List String} {cache : Cache}

theorem Cache.coherent_of_empty (h : cache.tables = ∅) : cache.Coherent truths columns := by
  intro table t hTable
  simp [h] at hTable

theorem Cache.Coherent.erase (h : cache.Coherent truths columns) (table : String) :
    (cache.invalidateTable table).Coherent truths columns := by
  intro table' t hTable
  unfold Cache.invalidateTable at hTable
  rw [Std.ExtTreeMap.getElem?_erase] at hTable
  split at hTable
  · cases hTable
  · exact h table' t hTable

/-- Eviction only drops tables. -/
theorem Cache.evictIfNeeded_tables {table : String} {t : TableCache}
    (h : cache.evictIfNeeded.tables[table]? = some t) : cache.tables[table]? = some t := by
  unfold Cache.evictIfNeeded at h
  generalize cache.tables.size = rounds at h
  induction rounds generalizing cache with
  | zero => exact h
  | succ rounds ih =>
    unfold Cache.evictLoop at h
    split at h
    · split at h
      · have hKept := ih h
        rw [TreeMaps.getElem?_erase_eq] at hKept
        split at hKept
        · cases hKept
        · exact hKept
      · exact h
    · exact h

theorem Cache.Coherent.evictIfNeeded (h : cache.Coherent truths columns) :
    cache.evictIfNeeded.Coherent truths columns :=
  fun table t hTable => h table t (Cache.evictIfNeeded_tables hTable)

/-- A table is replaced; the truth about the others is as before. -/
theorem Cache.Coherent.insert {truths' : String → Truth} (h : cache.Coherent truths columns)
    {table : String} {t : TableCache} (hTable : t.Coherent (truths' table))
    (hIndexed : t.IndexedBy (columns table))
    (hOther : ∀ table', table' ≠ table → truths' table' = truths table') :
    ({ cache with tables := cache.tables.insert table t } : Cache).Coherent truths' columns := by
  intro table' t' hTable'
  rw [TreeMaps.getElem?_insert_eq] at hTable'
  by_cases hEq : table = table'
  · rw [if_pos hEq, some.injEq] at hTable'
    subst hEq hTable'
    exact ⟨hTable, hIndexed⟩
  · rw [if_neg hEq] at hTable'
    rw [hOther table' (Ne.symm hEq)]
    exact h table' t' hTable'

/-- The table in the cache, or a new one. -/
theorem Cache.Coherent.tableOrNew (h : cache.Coherent truths columns) (now : Nat)
    (table : String) :
    (cache.tableOrNew now table (columns table)).Coherent (truths table) ∧
      (cache.tableOrNew now table (columns table)).IndexedBy (columns table) := by
  unfold Cache.tableOrNew
  cases hTable : cache.tables[table]? with
  | none =>
    exact ⟨TableCache.coherent_new _ now _, TableCache.indexedBy_new now _⟩
  | some t => exact h table t hTable

theorem Cache.modify_tables (cache : Cache) (table : String) (f : TableCache → TableCache) :
    (cache.modify table f).tables = cache.tables.modify table f := by
  rw [TreeMaps.modify_eq_match]
  unfold Cache.modify
  cases cache.tables[table]? <;> rfl

theorem Cache.Coherent.modify {truths' : String → Truth} (h : cache.Coherent truths columns)
    {table : String} {f : TableCache → TableCache}
    (hStep : ∀ t : TableCache, t.Coherent (truths table) → t.IndexedBy (columns table) →
      (f t).Coherent (truths' table) ∧ (f t).IndexedBy (columns table))
    (hOther : ∀ table', table' ≠ table → truths' table' = truths table') :
    (cache.modify table f).Coherent truths' columns := by
  intro table' t' hTable'
  rw [Cache.modify_tables, TreeMaps.getElem?_modify_eq, map_eq_some_iff] at hTable'
  obtain ⟨t, hTable, rfl⟩ := hTable'
  obtain ⟨hCoherent, hIndexed⟩ := h table' t hTable
  by_cases hEq : table = table'
  · subst hEq
    rw [if_pos rfl]
    exact hStep t hCoherent hIndexed
  · rw [if_neg hEq, hOther table' (Ne.symm hEq)]
    exact ⟨hCoherent, hIndexed⟩

end Cache

end EncryptedSpaces.Client
