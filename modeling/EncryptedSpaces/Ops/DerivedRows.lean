import EncryptedSpaces.Lib.Lists
import EncryptedSpaces.Ops.BatchEffect

/-!
# Rows written under derived keys

InviteUser, RemoveUser and RefreshKeys insert one row whose keys are rebuilt from
placeholders.  Several kvs may name one column; their keys are then the same, so
the last of them is stored (`written_rebuilt`).  The lookups that the verifiers
make on an entry find the first one instead.
-/

namespace EncryptedSpaces.Ops

open Encoding Changelog Lib List

/-! ## Keys -/

variable {table table' column : String} {rowId : Int} {key : Bytes} {batch : Batch}

theorem columnKey_inj {column' : String} {rowId' : Int} (hIn : InI64 rowId) (hIn' : InI64 rowId')
    (h : columnKey table rowId column = columnKey table' rowId' column') :
    table = table' ∧ rowId = rowId' ∧ column = column' := by
  have hParse := parsedColumn?_columnKey table' column' hIn'
  rw [← h] at hParse
  exact columnKey_cell hIn hParse

/-- A counter key is no column key. -/
theorem schemaNextIdKey_ne (hKey : parsedColumn? key = some (table, rowId, column)) :
    schemaNextIdKey table' ≠ key := by
  rintro rfl
  have hFront := hasFront_of_cell hKey
  exact absurd (hFront.unique (hasFront_encodeTuple tagSchema table' _)).1 (by decide)

/-- A batch on other tables writes no cell of a table. -/
theorem TouchesOr.written_eq_none {tables : String → Prop} (h : Touches tables batch)
    (hKey : parsedColumn? key = some (table, rowId, column)) (hNot : ¬ tables table) :
    written batch key = none := by
  refine written_eq_none_iff.mpr fun op hOp hEq => hNot ?_
  have hFront := hasFront_of_cell hKey
  exact h.owner hOp (hEq ▸ hFront) (by decide)

/-- A batch on other tables writes no key of a table. -/
theorem TouchesOr.written_tableKey {tables : String → Prop} (h : Touches tables batch)
    (hKey : TableKey table key) (hNot : ¬ tables table) (hLists : table ≠ listsTable) :
    written batch key = none := by
  refine written_eq_none_iff.mpr fun op hOp hEq => ?_
  rcases h op hOp with ⟨table', hTable, hOpKey⟩ | hList
  · rw [hEq] at hOpKey
    exact hNot (hKey.unique hOpKey ▸ hTable)
  · obtain ⟨_, hFront⟩ := hKey.hasFront
    rw [hEq] at hList
    exact hLists (hFront.unique hList.hasFront).2

/-- Index entries are no cells. -/
theorem IndexesOf.written_eq_none (h : IndexesOf table' batch)
    (hKey : parsedColumn? key = some (table, rowId, column)) : written batch key = none := by
  refine written_eq_none_iff.mpr fun op hOp hEq => ?_
  have hFront := hasFront_of_cell hKey
  exact absurd (hFront.unique (hEq ▸ h op hOp)).1 (by decide)

theorem mem_columnNamesFromKeys {keys : List Bytes} :
    column ∈ columnNamesFromKeys keys ↔
      ∃ key ∈ keys, ∃ table rowId, parsedColumn? key = some (table, rowId, column) := by
  unfold columnNamesFromKeys
  simp only [mem_btreeSet, mem_filterMap, Option.map_eq_some_iff]
  constructor
  · rintro ⟨key, hKey, ⟨table, rowId, column'⟩, hParse, rfl⟩
    exact ⟨key, hKey, table, rowId, hParse⟩
  · rintro ⟨key, hKey, table, rowId, hParse⟩
    exact ⟨key, hKey, (table, rowId, column), hParse, rfl⟩

/-! ## The last kv of a column -/

theorem inlineValue_nil (column : String) : inlineValue [] column = none := rfl

theorem inlineValue_cons (kv : KvData) (kvs : List KvData) (column : String) :
    inlineValue (kv :: kvs) column = (inlineValue kvs column).or
      (if (parsedColumn? kv.key).map (·.2.2) = some column then some kv.value else none) := by
  unfold inlineValue
  rw [reverse_cons, findSome?_append, findSome?_singleton]
  congr 1
  cases hKey : parsedColumn? kv.key with
  | none => rfl
  | some cell =>
    obtain ⟨table, rowId, c⟩ := cell
    simp only [Option.map_some, Option.some.injEq]

theorem inlineValue_isSome_iff {kvs : List KvData} :
    (inlineValue kvs column).isSome ↔ column ∈ columnNamesFromKeys (kvs.map KvData.key) := by
  rw [mem_columnNamesFromKeys]
  simp only [mem_map, exists_exists_and_eq_and]
  induction kvs with
  | nil => simp [inlineValue_nil]
  | cons kv kvs ih =>
    rw [inlineValue_cons, Option.isSome_or, Bool.or_eq_true, ih, exists_mem_cons_iff, or_comm]
    refine or_congr_left ?_
    cases hKey : parsedColumn? kv.key with
    | none => simp
    | some cell =>
      obtain ⟨table, rowId, c⟩ := cell
      by_cases hColumn : c = column <;> simp [hColumn]

/-! ## Derived rows -/

section Rebuilt

variable {table : String} {rowId : Int} {kvs : List KvData} {keys : List Bytes}

/-- Every derived key is the key of a column that the kvs name. -/
theorem mem_rebuilt {put : Bytes × KvData → BatchOp} (hPut : ∀ p, (put p).key = p.1)
    (hKeys : List.Forall₂ (Rebuilt rowId) kvs keys)
    (hTable : ∀ kv ∈ kvs, IsColumnOf table kv.key) {op : BatchOp}
    (hOp : op ∈ (keys.zip kvs).map put) :
    ∃ column ∈ columnNamesFromKeys (kvs.map KvData.key),
      op.key = columnKey table rowId column := by
  obtain ⟨⟨key, _⟩, hMem, rfl⟩ := mem_map.mp hOp
  obtain ⟨kv, hkv, table', column, hParse, rfl⟩ :=
    Lists.exists_left_of_forall₂ hKeys (of_mem_zip hMem).1
  obtain ⟨_, _, hParse'⟩ := hTable kv hkv
  obtain rfl := (cell_unique hParse hParse').1
  exact ⟨column, mem_columnNamesFromKeys.mpr ⟨_, mem_map_of_mem hkv, table', 0, hParse⟩,
    hPut _⟩

/-- A cell of the row holds what the last kv of its column gives; `value` is what
is stored for a kv. -/
theorem written_rebuilt {put : Bytes × KvData → BatchOp} (value : String → Bytes → Bytes)
    (hPut : ∀ kv column, put (columnKey table rowId column, kv) =
      .put (columnKey table rowId column) (value column kv.value))
    (hIn : InI64 rowId) (hKeys : List.Forall₂ (Rebuilt rowId) kvs keys)
    (hTable : ∀ kv ∈ kvs, IsColumnOf table kv.key) (column : String) :
    written ((keys.zip kvs).map put) (columnKey table rowId column) =
      (inlineValue kvs column).map fun bytes => some (value column bytes) := by
  induction hKeys with
  | nil => rfl
  | @cons kv key kvs keys hKey hKeys ih =>
    rw [forall_mem_cons] at hTable
    obtain ⟨table', column', hParse, rfl⟩ := hKey
    obtain ⟨_, _, hParse'⟩ := hTable.1
    obtain rfl := (cell_unique hParse hParse').1
    rw [zip_cons_cons, map_cons, written_cons, ih hTable.2, inlineValue_cons, hPut,
      hParse]
    cases inlineValue kvs column with
    | some bytes => rfl
    | none =>
      by_cases hColumn : column' = column
      · simp [hColumn, BatchOp.key, BatchOp.write]
      · have hNe : columnKey table' rowId column' ≠ columnKey table' rowId column :=
          fun hEq => hColumn (columnKey_inj hIn hIn hEq).2.2
        simp [hColumn, hNe, BatchOp.key]

end Rebuilt

/-! ## Stored rows -/

/-- What holds of every stored pair, as a test on the list of pairs. -/
theorem Db.forall_stored_iff {db : Db} {P : Bytes → Bytes → Prop} :
    (∀ key value, db[key]? = some value → P key value) ↔ ∀ p ∈ db.toList, P p.1 p.2 := by
  constructor
  · intro h p hp
    exact h p.1 p.2 (Std.ExtTreeMap.mem_toList_iff_getElem?_eq_some.mp hp)
  · intro h key value hGet
    exact h (key, value) (Std.ExtTreeMap.mem_toList_iff_getElem?_eq_some.mpr hGet)

/-- Every stored key that names a column of the row satisfies `P`. -/
def RowKeys (db : Db) (table : String) (rowId : Int) (P : Bytes → String → Prop) : Prop :=
  ∀ key value, db[key]? = some value → ∀ column,
    parsedColumn? key = some (table, rowId, column) → P key column

instance (db : Db) (table : String) (rowId : Int) (P : Bytes → String → Prop)
    [∀ key column, Decidable (P key column)] : Decidable (RowKeys db table rowId P) :=
  decidable_of_iff
    (∀ p ∈ db.toList, ∀ cell ∈ parsedColumn? p.1, cell.1 = table → cell.2.1 = rowId →
      P p.1 cell.2.2) <| by
    unfold RowKeys
    rw [Db.forall_stored_iff]
    refine forall₂_congr fun p _ => ?_
    constructor
    · intro h column hKey
      exact h _ hKey rfl rfl
    · rintro h ⟨t, r, column⟩ hKey rfl rfl
      exact h column hKey

/-- Every stored key that names the row is the key of one of the columns. -/
def OnlyColumns (db : Db) (table : String) (rowId : Int) (columns : List String) : Prop :=
  RowKeys db table rowId fun key column => column ∈ columns ∧ key = columnKey table rowId column

instance (db : Db) (table : String) (rowId : Int) (columns : List String) :
    Decidable (OnlyColumns db table rowId columns) :=
  inferInstanceAs (Decidable (RowKeys db table rowId _))

/-- The row has a cell for each of the columns and no other key. -/
structure ExactRow (db : Db) (table : String) (rowId : Int) (columns : List String) : Prop where
  complete : ∀ column ∈ columns, (db[columnKey table rowId column]?).isSome
  only : OnlyColumns db table rowId columns

/-- No stored key names the row. -/
def NoRow (db : Db) (table : String) (rowId : Int) : Prop := RowKeys db table rowId fun _ _ => False

instance (db : Db) (table : String) (rowId : Int) : Decidable (NoRow db table rowId) :=
  inferInstanceAs (Decidable (RowKeys db table rowId _))

end EncryptedSpaces.Ops
