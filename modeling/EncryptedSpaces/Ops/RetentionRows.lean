import EncryptedSpaces.Ops.Footprint

/-!
# Rows of a chain insert into `_retention`

The `_retention` part of an entry is a flat list of placeholder cells.  The row
of a cell is the counter plus the number of earlier cells of its column, and
the index step cuts the cells into pieces of one row each.  With the two columns
of the built-in schema this leaves only one shape: rows of a key cell and a value
cell, in either order, under consecutive ids.
-/

namespace EncryptedSpaces.Ops

open Encoding Changelog Lib Prog List

/-- The columns of the built-in `_retention` schema, as every read of them must
answer. -/
def RetentionSchema : (q : Query) → Answer q → Prop
  | .static (.schemaColumns table) _, columns => table = retentionTable → columns = ["key", "value"]
  | _, _ => True

/-- The `_retention` cells of an entry come as rows of two placeholder cells; the
keys are those of consecutive row ids from `row` on, and `cells` lists the key
and value cells of the rows. -/
inductive RowPairs : Int → List KvData → List Bytes → List (Bytes × Bytes) → Prop where
  | nil {row : Int} : RowPairs row [] [] []
  | keyFirst {row : Int} {a b : KvData} {entries : List KvData} {keys : List Bytes}
      {cells : List (Bytes × Bytes)} (hRow : InI64 row)
      (hA : parsedColumn? a.key = some (retentionTable, 0, "key"))
      (hB : parsedColumn? b.key = some (retentionTable, 0, "value"))
      (hRest : RowPairs (row + 1) entries keys cells) :
      RowPairs row (a :: b :: entries)
        (columnKey retentionTable row "key" :: columnKey retentionTable row "value" :: keys)
        ((a.value, b.value) :: cells)
  | valueFirst {row : Int} {a b : KvData} {entries : List KvData} {keys : List Bytes}
      {cells : List (Bytes × Bytes)} (hRow : InI64 row)
      (hA : parsedColumn? a.key = some (retentionTable, 0, "value"))
      (hB : parsedColumn? b.key = some (retentionTable, 0, "key"))
      (hRest : RowPairs (row + 1) entries keys cells) :
      RowPairs row (a :: b :: entries)
        (columnKey retentionTable row "value" :: columnKey retentionTable row "key" :: keys)
        ((b.value, a.value) :: cells)

/-! ## One row per piece -/

/-- Consecutive keys name the same row. -/
def PairedRows (table : String) : List Bytes → Prop
  | k₀ :: k₁ :: keys =>
    (∃ row c₀ c₁, parsedColumn? k₀ = some (table, row, c₀) ∧
      parsedColumn? k₁ = some (table, row, c₁)) ∧ PairedRows table keys
  | _ => True

variable {keys : List Bytes} {opName : String} {entries : List KvData}
  {cells : List (Bytes × Bytes)}

theorem validateConsistentColumnKeyRowId_eq_ok {label : String} {r : String × Int}
    (h : validateConsistentColumnKeyRowId keys opName label = .ok r) :
    ∀ key ∈ keys, ∃ column, parsedColumn? key = some (r.1, r.2, column) := by
  cases keys with
  | nil => cases h
  | cons first rest =>
    unfold validateConsistentColumnKeyRowId at h
    cases hFirst : parsedColumn? first with
    | none => simp [hFirst] at h
    | some cell =>
      obtain ⟨table, rowId, column⟩ := cell
      simp only [hFirst] at h
      obtain ⟨_, hRest, h⟩ := Except.bind_eq_ok.mp h
      cases h
      intro key hKey
      rcases mem_cons.mp hKey with rfl | hKey
      · exact ⟨column, hFirst⟩
      · obtain ⟨_, _, hCheck⟩ := forall_of_mapIdxExcept hRest hKey
        cases hParsed : parsedColumn? key with
        | none => simp [hParsed] at hCheck
        | some cell' =>
          obtain ⟨t, r, c⟩ := cell'
          simp only [hParsed, check_eq_ok] at hCheck
          obtain ⟨rfl, rfl⟩ := hCheck
          exact ⟨c, rfl⟩

/-- The index step accepts only pieces of one row. -/
theorem indexPutsByChunk_pairedRows {R : (q : Query) → Answer q → Prop} {table : String}
    {chunks start : Nat} (hLen : keys.length ≤ 2 * chunks) :
    (indexPutsByChunk table 2 opName chunks start keys entries).Returns R
      fun _ => PairedRows table keys := by
  induction chunks generalizing start keys entries with
  | zero =>
    have hNil : keys = [] := length_eq_zero_iff.mp (by omega)
    subst hNil
    exact returns_ret trivial
  | succ chunks ih =>
    refine (returns_lift validateConsistentColumnKeyRowId_eq_ok).bind
      fun ⟨chunkTable, row⟩ hChunk => ?_
    refine returns_ensure.bind fun _ hTable => ?_
    subst hTable
    refine returns_skip fun puts => ?_
    have hDrop : (keys.drop 2).length ≤ 2 * chunks := by
      rw [length_drop]
      omega
    refine (ih hDrop).bind fun rest hRest => ?_
    refine returns_ret ?_
    rcases keys with _ | ⟨k₀, _ | ⟨k₁, keys⟩⟩
    · trivial
    · trivial
    · obtain ⟨c₀, hk₀⟩ := hChunk k₀ (by simp)
      obtain ⟨c₁, hk₁⟩ := hChunk k₁ (by simp)
      exact ⟨⟨row, c₀, c₁, hk₀, hk₁⟩, hRest⟩

theorem appendMultiRowInsertIndexPuts_pairedRows :
    (appendMultiRowInsertIndexPuts retentionTable keys entries opName).Returns RetentionSchema
      fun _ => PairedRows retentionTable keys := by
  refine returns_query.bind fun columns hColumns => ?_
  have hTwo : columns = ["key", "value"] := hColumns rfl
  subst hTwo
  refine returns_ite (fun hZero => absurd hZero (by decide)) fun _ => ?_
  exact indexPutsByChunk_pairedRows (by simp only [length_cons, length_nil]; omega)

theorem parsedColumn?_columnKey (table column : String) {rowId : Int} (h : InI64 rowId) :
    parsedColumn? (columnKey table rowId column) = some (table, rowId, column) :=
  parsedColumn?_eq_some_iff.mpr (parseKey_columnKey h)

theorem columnKey_cell {table table' column column' : String} {rowId rowId' : Int} (h : InI64 rowId)
    (hKey : parsedColumn? (columnKey table rowId column) = some (table', rowId', column')) :
    table = table' ∧ rowId = rowId' ∧ column = column' :=
  cell_unique (parsedColumn?_columnKey _ _ h) hKey

/-- The column of a `_retention` cell is one of the two. -/
def IsRetentionCell (kv : KvData) : Prop :=
  ∀ table rowId column, parsedColumn? kv.key = some (table, rowId, column) →
    table = retentionTable ∧ (column = "key" ∨ column = "value")

/-- Counting and pairing together: after `j` whole rows, the next two cells are
the two columns of row `counter + j`. -/
theorem rowPairs_of_chainKeys {counter : Int} {seen : List String} {j : Nat}
    (hChain : ChainKeys counter seen entries keys) (hCells : ∀ kv ∈ entries, IsRetentionCell kv)
    (hPaired : PairedRows retentionTable keys) (hEven : entries.length % 2 = 0)
    (hKey : seen.count "key" = j) (hValue : seen.count "value" = j) :
    ∃ cells, RowPairs (counter + j) entries keys cells := by
  induction hLen : entries.length using Nat.strong_induction_on
    generalizing seen entries keys j with
  | h n ih =>
    cases hChain with
    | nil => exact ⟨[], .nil⟩
    | @cons _ a tableA columnA entries' keys' hA hRowA hChain =>
      cases hChain with
      | nil => simp at hEven
      | @cons _ b tableB columnB entries keys hB hRowB hChain =>
        obtain ⟨rfl, hColumnA⟩ := hCells a (by simp) _ _ _ hA
        obtain ⟨rfl, hColumnB⟩ := hCells b (by simp) _ _ _ hB
        obtain ⟨⟨row, c₀, c₁, hk₀, hk₁⟩, hPaired⟩ := hPaired
        replace hk₀ := columnKey_cell hRowA hk₀
        replace hk₁ := columnKey_cell hRowB hk₁
        have hSame : seen.count columnA = (columnA :: seen).count columnB := by omega
        have hNe : columnA ≠ columnB := by
          rintro rfl
          rw [count_cons_self] at hSame
          omega
        rw [count_cons_of_ne hNe] at hRowB hSame ⊢
        have hEven' : entries.length % 2 = 0 := by
          simp only [length_cons] at hEven
          omega
        have hCells' : ∀ kv ∈ entries, IsRetentionCell kv :=
          fun kv hkv => hCells kv (by simp [hkv])
        simp only [length_cons] at hLen
        rcases hColumnA with rfl | rfl <;> rcases hColumnB with rfl | rfl
        · exact absurd rfl hNe
        · obtain ⟨cells, hRest⟩ := ih entries.length (by omega) hChain hCells' hPaired hEven'
            (j := j + 1) (by simp [hKey]) (by simp [hValue]) rfl
          rw [hKey] at hRowA ⊢
          rw [hValue]
          rw [Nat.cast_add, Nat.cast_one, ← add_assoc] at hRest
          exact ⟨_, .keyFirst hRowA hA hB hRest⟩
        · obtain ⟨cells, hRest⟩ := ih entries.length (by omega) hChain hCells' hPaired hEven'
            (j := j + 1) (by simp [hKey]) (by simp [hValue]) rfl
          rw [hValue] at hRowA ⊢
          rw [hKey]
          rw [Nat.cast_add, Nat.cast_one, ← add_assoc] at hRest
          exact ⟨_, .valueFirst hRowA hA hB hRest⟩
        · exact absurd rfl hNe

/-! ## The puts of the rows -/

/-- The cell of a column in the `i`-th row. -/
def cellAt (cells : List (Bytes × Bytes)) (i : Nat) (column : String) : Option Bytes :=
  cells[i]?.bind fun cell =>
    if column = "key" then some cell.1 else if column = "value" then some cell.2 else none

/-- The column puts of a chain insert. -/
def rowPuts (keys : List Bytes) (entries : List KvData) : Batch :=
  (keys.zip entries).map fun (key, kv) => kv.toBatchOp key

theorem RowPairs.inI64 {row : Int} (h : RowPairs row entries keys cells) {i : Nat}
    (hi : i < cells.length) : InI64 (row + i) := by
  induction h generalizing i with
  | nil => simp at hi
  | keyFirst hRow _ _ _ ih | valueFirst hRow _ _ _ ih =>
    cases i with
    | zero => simpa using hRow
    | succ i =>
      have := ih (Nat.lt_of_succ_lt_succ hi)
      rwa [add_assoc, add_comm (1 : Int), ← Nat.cast_succ] at this

theorem exists_cellAt_cons {cell : Bytes × Bytes} {P : Nat → String → Bytes → Prop} :
    (∃ i column value, cellAt (cell :: cells) i column = some value ∧ P i column value) ↔
      P 0 "key" cell.1 ∨ P 0 "value" cell.2 ∨
        ∃ i column value, cellAt cells i column = some value ∧ P (i + 1) column value := by
  constructor
  · rintro ⟨i, column, value, hCell, hP⟩
    cases i with
    | zero =>
      simp only [cellAt, getElem?_cons_zero, Option.bind_some] at hCell
      split_ifs at hCell with hKey hValue
      · cases hCell
        exact .inl (hKey ▸ hP)
      · cases hCell
        exact .inr (.inl (hValue ▸ hP))
    | succ i => exact .inr (.inr ⟨i, column, value, hCell, hP⟩)
  · rintro (hP | hP | ⟨i, column, value, hCell, hP⟩)
    · exact ⟨0, "key", cell.1, rfl, hP⟩
    · exact ⟨0, "value", cell.2, rfl, hP⟩
    · exact ⟨i + 1, column, value, hCell, hP⟩

/-- The puts are one per row and column, with the cells as values. -/
theorem RowPairs.mem_rowPuts {row : Int} (h : RowPairs row entries keys cells) {op : BatchOp} :
    op ∈ rowPuts keys entries ↔ ∃ i column value, cellAt cells i column = some value ∧
      op = .put (columnKey retentionTable (row + (i : Nat)) column) value := by
  induction h with
  | nil => simp [rowPuts, cellAt]
  | @keyFirst row a b entries keys cells hRow hA hB _ ih =>
    rw [exists_cellAt_cons]
    simp only [rowPuts, zip_cons_cons, map_cons, mem_cons, KvData.toBatchOp,
      Nat.cast_zero, add_zero, Nat.cast_add, Nat.cast_one, add_comm (_ : Int) 1, ← add_assoc]
      at ih ⊢
    rw [ih]
  | @valueFirst row a b entries keys cells hRow hA hB _ ih =>
    rw [exists_cellAt_cons]
    simp only [rowPuts, zip_cons_cons, map_cons, mem_cons, KvData.toBatchOp,
      Nat.cast_zero, add_zero, Nat.cast_add, Nat.cast_one, add_comm (_ : Int) 1, ← add_assoc]
      at ih ⊢
    rw [ih, or_left_comm]

/-! ## The operations -/

/-- What a batch writes to rows of `_retention` are the given puts. -/
def WritesRows (puts batch : Batch) : Prop :=
  ∀ op, HasFront op.key tagRow retentionTable → (op ∈ batch ↔ op ∈ puts)

/-- The batch stores the `_retention` cells of the entry as consecutive rows, and
writes no other row of the table. -/
def StoresCells (entries : List KvData) (batch : Batch) : Prop :=
  ∃ row keys cells, RowPairs row entries keys cells ∧ WritesRows (rowPuts keys entries) batch

/-- Sorting, and writes elsewhere, do not matter. -/
theorem StoresCells.sortBatch_append {batch : Batch} (h : StoresCells entries batch)
    (other : Batch) (hOther : ∀ op ∈ other, ¬ HasFront op.key tagRow retentionTable) :
    StoresCells entries (sortBatch (other ++ batch)) := by
  obtain ⟨row, keys, cells, hPairs, hBatch⟩ := h
  refine ⟨row, keys, cells, hPairs, fun op hFront => ?_⟩
  rw [mem_sortBatch, mem_append, ← hBatch op hFront]
  constructor
  · rintro (hOp | hOp)
    · exact absurd hFront (hOther op hOp)
    · exact hOp
  · exact .inr

theorem retentionPuts_storesCells {texts : RetentionTexts}
    (hEntries : ∀ kv ∈ entries, IsColumnOf retentionTable kv.key) :
    (retentionPuts texts entries).Returns RetentionSchema (StoresCells entries) := by
  refine returns_query.bind fun columns hColumns => ?_
  have hTwo : columns = ["key", "value"] := hColumns rfl
  subst hTwo
  refine returns_ensure.bind fun _ hNames => ?_
  refine returns_skip fun _ => ?_
  refine returns_ensure.bind fun _ hEven => ?_
  refine returns_skip fun counter => ?_
  refine (returns_lift deriveColumnKeysForChain_eq_ok).bind
    fun keys hKeys => ?_
  refine (appendMultiRowInsertIndexPuts_indexes.and
    appendMultiRowInsertIndexPuts_pairedRows).bind fun indexPuts ⟨hIndex, hPaired⟩ => ?_
  refine (returns_lift key_of_bumpNextIdAfterChain).bind
    fun bump hBump => ?_
  have hCells : ∀ kv ∈ entries, IsRetentionCell kv := by
    intro kv hkv table rowId column hKey
    obtain ⟨_, _, hTable⟩ := hEntries kv hkv
    replace hTable := cell_unique hKey hTable
    have hMem : column ∈ columnNamesFromKeys (entries.map KvData.key) :=
      mem_btreeSet.mpr (mem_filterMap.mpr ⟨kv.key, mem_map_of_mem hkv, by simp [hKey]⟩)
    rw [hNames] at hMem
    exact ⟨hTable.1, by simpa using hMem⟩
  obtain ⟨cells, hPairs⟩ := rowPairs_of_chainKeys hKeys hCells hPaired hEven rfl rfl
  refine returns_ret ⟨_, keys, cells, hPairs, fun op hFront => ?_⟩
  rw [mem_append, mem_append]
  constructor
  · rintro ((hOp | hOp) | hOp)
    · exact hOp
    · exact absurd ((hIndex op hOp).unique hFront).1 (by decide)
    · rw [hBump op hOp] at hFront
      exact absurd (hFront.unique (hasFront_encodeTuple tagSchema retentionTable _)).1 (by decide)
  · exact fun hOp => .inl (.inl hOp)

/-- The operations that insert `_retention` rows under a proof of the chain. -/
def insertsRetention : OpType → Bool
  | .extend | .reduce | .rekey | .removeUser => true
  | _ => false

section Operations

variable {entry : ChangelogEntry}

theorem retentionChainOp_storesCells {opType : OpType} {opName missing : String} :
    (retentionChainOp opType opName missing entry).Returns RetentionSchema
      (StoresCells (tableKvs entry.message.entries retentionTable)) := by
  refine returns_skip fun _ => ?_
  refine (returns_lift isColumnOf_of_tableFromColumnKeys).bind
    fun table hTable => ?_
  refine returns_ensure.bind fun _ hRetention => ?_
  refine returns_skip fun _ => ?_
  subst hRetention
  have hEntries : ∀ kv ∈ entry.message.entries, IsColumnOf retentionTable kv.key :=
    fun kv hkv => hTable kv.key (mem_map_of_mem hkv)
  rw [tableKvs_eq_self hEntries]
  refine (retentionPuts_storesCells hEntries).bind fun batch hBatch => ?_
  exact returns_ret (hBatch.sortBatch_append [] (by simp))

theorem optionalRetentionPuts_storesCells {texts : RetentionTexts} {entries : List KvData}
    (hEntries : ∀ kv ∈ entries, IsColumnOf retentionTable kv.key) :
    (optionalRetentionPuts texts entries).Returns RetentionSchema (StoresCells entries) := by
  refine returns_ite (fun hNil => returns_ret ?_) fun _ => ?_
  · rw [hNil]
    exact ⟨0, [], [], .nil, fun op _ => Iff.rfl⟩
  · exact retentionPuts_storesCells hEntries

theorem removeUserOp_storesCells {currentChangeId : Nat} :
    (removeUserOp currentChangeId entry).Returns RetentionSchema
      (StoresCells (tableKvs entry.message.entries retentionTable)) := by
  have hEntries : ∀ kv ∈ tableKvs entry.message.entries retentionTable,
      IsColumnOf retentionTable kv.key := fun kv hkv => (mem_tableKvs.mp hkv).2
  refine (removeUserOp_writes (L := ListKey) fun _ =>
    optionalRetentionPuts_storesCells hEntries).mono ?_
  rintro _ ⟨other, puts, hOther, hPuts, rfl⟩
  refine hPuts.sortBatch_append other fun op hOp hFront => ?_
  exact absurd (hOther.owner hOp hFront (by decide)) (by decide)

/-- What the four operations store in `_retention` are the entry's cells, as
consecutive rows. -/
theorem dispatch_storesCells {currentChangeId : Nat}
    (hOp : insertsRetention entry.message.opType) :
    (dispatchExtractAndValidate currentChangeId entry).Returns RetentionSchema
      (StoresCells (tableKvs entry.message.entries retentionTable)) := by
  refine returns_skip fun _ => ?_
  cases hType : entry.message.opType <;> rw [hType] at hOp
  case extend => exact retentionChainOp_storesCells
  case reduce => exact retentionChainOp_storesCells
  case rekey => exact retentionChainOp_storesCells
  case removeUser => exact removeUserOp_storesCells
  all_goals cases hOp

end Operations

end EncryptedSpaces.Ops
