import EncryptedSpaces.Ops.DenseRows

/-!
# Indexes as mirrors of stored cells

The index of a column is consistent if its keys are those that `index_key` builds
from the stored cells of the column, no more and no less.
-/

namespace EncryptedSpaces.Ops

open Encoding Changelog Acl Lib

/-- The tuple element under which a stored cell is indexed. -/
def cellElement (bytes : Bytes) : Option TupleElement :=
  match bytesToValue bytes with
  | .ok value => value.toTupleElement.toOption
  | .error _ => none

/-- The index of a column has the keys of the stored cells, and no other key. -/
structure IndexMirror (db : Db) (table column : String) : Prop where
  listed : ∀ rowId bytes, InI64 rowId → db[columnKey table rowId column]? = some bytes →
    ∃ element, cellElement bytes = some element ∧
      (db[indexKey table column element rowId]?).isSome
  stored : ∀ key value, db[key]? = some value → ∀ element rowId,
    parseKey key = .ok (.index table column element rowId) →
      ∃ bytes element', db[columnKey table rowId column]? = some bytes ∧
        cellElement bytes = some element' ∧ key = indexKey table column element' rowId

/-- A table whose rows are complete and whose indexes mirror them. -/
structure IndexConsistent (codec : RuleCodec) (db : Db) (table : String)
    (columns indexed : List String) : Prop where
  schema : db.Static codec (.schemaColumns table) columns
  indexes : db.Static codec (.schemaIndexes table) indexed
  dense : Dense db table columns
  mirror : ∀ column ∈ indexed, IndexMirror db table column
  only : ∀ key value, db[key]? = some value → ∀ column element rowId,
    parseKey key = .ok (.index table column element rowId) → column ∈ indexed

/-- The row stores the integer in the column. -/
def HasInt (db : Db) (table : String) (rowId : Int) (column : String) (value : Int) : Prop :=
  ∃ key bytes, db[key]? = some bytes ∧ parsedColumn? key = some (table, rowId, column) ∧
    parseI64ColumnValue bytes = some value

/-- No index key of the table names the row. -/
def NoIndexKey (db : Db) (table : String) (rowId : Int) : Prop :=
  ∀ key value, db[key]? = some value → ∀ column element,
    parseKey key ≠ .ok (.index table column element rowId)

/-! ## Elements of cells -/

theorem cellElement_eq_some_iff {bytes : Bytes} {element : TupleElement} :
    cellElement bytes = some element ↔
      ∃ value, bytesToValue bytes = .ok value ∧ value.toTupleElement = .ok element := by
  unfold cellElement
  cases bytesToValue bytes with
  | error e => simp
  | ok value =>
    cases hTuple : value.toTupleElement with
    | error e => simp [hTuple, Except.toOption]
    | ok element' => simp [hTuple, Except.toOption]

theorem encodable_of_cellElement {bytes : Bytes} {element : TupleElement}
    (h : cellElement bytes = some element) : element.Encodable := by
  obtain ⟨value, _, hElement⟩ := cellElement_eq_some_iff.mp h
  cases element with
  | int i =>
    have hInt := Value.toTupleElement_eq_int_iff.mp hElement
    cases value with
    | int n =>
      by_cases hRange : InI64 n
      · rw [Value.asI64, if_pos hRange, Option.some.injEq] at hInt
        exact hInt ▸ hRange
      · rw [Value.asI64, if_neg hRange] at hInt
        cases hInt
    | null | bool b | float bits | string s | array items | object fields => cases hInt
  | null | bytes b | string s | float b | double b | bool b => trivial

/-- Integers are indexed as integers. -/
theorem cellElement_eq_int_iff {bytes : Bytes} {i : Int} :
    cellElement bytes = some (.int i) ↔ parseI64ColumnValue bytes = some i := by
  rw [cellElement_eq_some_iff]
  unfold parseI64ColumnValue
  cases bytesToValue bytes with
  | error e => simp
  | ok value => simp [Value.toTupleElement_eq_int_iff]

theorem buildIndexKey_eq_ok_iff {table column opName : String} {bytes key : Bytes} {rowId : Int} :
    buildIndexKey table column bytes rowId opName = .ok key ↔
      ∃ element, cellElement bytes = some element ∧ key = indexKey table column element rowId := by
  rw [buildIndexKey_eq_ok]
  constructor
  · rintro ⟨value, element, hValue, hElement, rfl⟩
    exact ⟨element, cellElement_eq_some_iff.mpr ⟨value, hValue, hElement⟩, rfl⟩
  · rintro ⟨element, hElement, rfl⟩
    obtain ⟨value, hValue, hTuple⟩ := cellElement_eq_some_iff.mp hElement
    exact ⟨value, element, hValue, hTuple, rfl⟩

/-! ## Index deletes -/

section Deletes

variable {db : Db} {table column opName : String} {rowId : Int} {indexed : List String}
  {batch : Batch}

theorem mem_oldIndexDelete {old : Option Bytes}
    (h : oldIndexDelete table column rowId opName old = .ok batch) (op : BatchOp) :
    op ∈ batch ↔ ∃ bytes element, old = some bytes ∧ cellElement bytes = some element ∧
      op = .delete (indexKey table column element rowId) := by
  cases old with
  | none =>
    cases h
    simp
  | some bytes =>
    obtain ⟨op', hOp', h⟩ := Except.bind_eq_ok.mp h
    obtain ⟨key, hKey, hOp'⟩ := Except.bind_eq_ok.mp hOp'
    cases h
    cases hOp'
    obtain ⟨element, hElement, rfl⟩ := buildIndexKey_eq_ok_iff.mp hKey
    rw [List.mem_singleton]
    constructor
    · rintro rfl
      exact ⟨bytes, element, rfl, hElement, rfl⟩
    · rintro ⟨bytes', element', hBytes, hElement', rfl⟩
      cases hBytes
      rw [hElement, Option.some.injEq] at hElement'
      rw [hElement']

/-- The index deletes of a row: one for each indexed cell that is stored. -/
theorem IndexDeletesOf.mem_iff (h : IndexDeletesOf db table indexed opName rowId batch)
    (op : BatchOp) : op ∈ batch ↔ ∃ column ∈ indexed, ∃ bytes element,
      db[columnKey table rowId column]? = some bytes ∧ cellElement bytes = some element ∧
        op = .delete (indexKey table column element rowId) := by
  obtain ⟨pieces, hPieces, rfl⟩ := h
  induction hPieces with
  | nil => simp
  | cons hPiece _ ih =>
    rw [List.flatten_cons, List.mem_append, ih, mem_oldIndexDelete hPiece,
      List.exists_mem_cons_iff]

end Deletes

/-! ## Scans -/

/-- On a consistent table the scan of an index finds the rows that store the value. -/
theorem IndexConsistent.indexLists_iff {codec : RuleCodec} {db : Db} {table column : String}
    {columns indexed : List String} {value rowId : Int}
    (h : IndexConsistent codec db table columns indexed) (hColumn : column ∈ indexed)
    (hValue : InI64 value) :
    IndexLists db table column value rowId ↔ HasInt db table rowId column value := by
  constructor
  · rintro ⟨key, stored, element, hStored, hFront, hParse⟩
    have hRow : InI64 rowId := inI64_of_parseIndex hParse
    obtain ⟨bytes, element', hCell, hElement, rfl⟩ :=
      (h.mirror column hColumn).stored key stored hStored element rowId hParse
    have hEq := ( eq_of_indexValuePrefix_prefix hValue (encodable_of_cellElement hElement)
      hFront).2
    rw [hEq] at hElement
    exact ⟨_, bytes, hCell, parsedColumn?_columnKey table column hRow,
      cellElement_eq_int_iff.mp hElement⟩
  · rintro ⟨key, bytes, hCell, hKey, hInt⟩
    have hRow : InI64 rowId := inI64_of_parseKey (parsedColumn?_eq_some_iff.mp hKey)
    obtain ⟨_, rfl⟩ := (h.dense.exactRow hCell hKey).only key bytes hCell column hKey
    obtain ⟨element, hElement, hIndex⟩ := (h.mirror column hColumn).listed rowId bytes hRow hCell
    rw [cellElement_eq_int_iff.mpr hInt, Option.some.injEq] at hElement
    subst hElement
    obtain ⟨stored, hStored⟩ := Option.isSome_iff_exists.mp hIndex
    exact ⟨_, stored, _, hStored, indexValuePrefix_prefix table column _ rowId,
      parseKey_indexKey hValue hRow⟩

/-! ## Evaluation -/

section Check

variable {codec : RuleCodec} {db : Db} {table : String} {columns indexed : List String}

def parsedIndex? (key : Bytes) : Option (String × String × Int) :=
  match parseKey key with
  | .ok (.index table column _ rowId) => some (table, column, rowId)
  | _ => none

/-- A stored pair that is a cell of the table has its row and its index entries around it. -/
def CheckedCell (db : Db) (table : String) (columns indexed : List String)
    (p : Bytes × Bytes) : Prop :=
  ∀ cell ∈ parsedColumn? p.1, cell.1 = table →
    cell.2.2 ∈ columns ∧ p.1 = columnKey table cell.2.1 cell.2.2 ∧
    (∀ column ∈ columns, (db[columnKey table cell.2.1 column]?).isSome) ∧
    (cell.2.2 ∈ indexed → (cellElement p.2).any fun element =>
      (db[indexKey table cell.2.2 element cell.2.1]?).isSome)

/-- A stored pair that is an index key of the table comes from a cell. -/
def CheckedIndexKey (db : Db) (table : String) (indexed : List String) (p : Bytes × Bytes) : Prop :=
  ∀ i ∈ parsedIndex? p.1, i.1 = table → i.2.1 ∈ indexed ∧
    (db[columnKey table i.2.2 i.2.1]?).any fun bytes => (cellElement bytes).any fun element =>
      p.1 = indexKey table i.2.1 element i.2.2

/-- The pairs of a consistent table, as a check. -/
def CheckedPairs (db : Db) (table : String) (columns indexed : List String) : Prop :=
  ∀ p ∈ db.toList, CheckedCell db table columns indexed p ∧ CheckedIndexKey db table indexed p

instance (p : Bytes × Bytes) : Decidable (CheckedCell db table columns indexed p) :=
  inferInstanceAs (Decidable (∀ cell ∈ parsedColumn? p.1, _))

instance (p : Bytes × Bytes) : Decidable (CheckedIndexKey db table indexed p) :=
  inferInstanceAs (Decidable (∀ i ∈ parsedIndex? p.1, _))

instance : Decidable (CheckedPairs db table columns indexed) :=
  inferInstanceAs (Decidable (∀ p ∈ db.toList, _))

theorem IndexConsistent.of_checkedPairs (hSchema : db.Static codec (.schemaColumns table) columns)
    (hIndexes : db.Static codec (.schemaIndexes table) indexed)
    (h : CheckedPairs db table columns indexed) :
    IndexConsistent codec db table columns indexed := by
  have hCell : ∀ key bytes, db[key]? = some bytes →
      CheckedCell db table columns indexed (key, bytes) :=
    fun key bytes hStored => (h _ (Std.ExtTreeMap.mem_toList_iff_getElem?_eq_some.mpr hStored)).1
  have hKey : ∀ key bytes, db[key]? = some bytes → ∀ column element rowId,
      parseKey key = .ok (.index table column element rowId) → column ∈ indexed ∧
        (db[columnKey table rowId column]?).any fun bytes => (cellElement bytes).any fun element =>
          key = indexKey table column element rowId := by
    intro key bytes hStored column element rowId hParse
    have hChecked := (h _ (Std.ExtTreeMap.mem_toList_iff_getElem?_eq_some.mpr hStored)).2
    have hIndex : parsedIndex? key = some (table, column, rowId) := by
      unfold parsedIndex?
      rw [hParse]
    exact hChecked (table, column, rowId) hIndex rfl
  refine ⟨hSchema, hIndexes, fun rowId => ?_, fun column hColumn => ⟨?_, ?_⟩, ?_⟩
  · by_cases hRow : NoRow db table rowId
    · exact .inr hRow
    · refine .inl ⟨?_, fun key value hStored column hParse => ?_⟩
      · unfold NoRow RowKeys at hRow
        push Not at hRow
        obtain ⟨key, value, hStored, column, hParse, _⟩ := hRow
        exact (hCell key value hStored _ hParse rfl).2.2.1
      · exact ⟨(hCell key value hStored _ hParse rfl).1, (hCell key value hStored _ hParse rfl).2.1⟩
  · intro rowId bytes hRow hStored
    have hEntry :=
      (hCell _ bytes hStored _ (parsedColumn?_columnKey table column hRow) rfl).2.2.2 hColumn
    exact (Option.any_eq_true _ _).mp hEntry
  · intro key value hStored element rowId hParse
    obtain ⟨bytes, hBytes, hElement⟩ :=
      (Option.any_eq_true _ _).mp (hKey key value hStored column element rowId hParse).2
    obtain ⟨element', hElement', hEq⟩ := (Option.any_eq_true _ _).mp hElement
    exact ⟨bytes, element', hBytes, hElement', of_decide_eq_true hEq⟩
  · intro key value hStored column element rowId hParse
    exact (hKey key value hStored column element rowId hParse).1

end Check

end EncryptedSpaces.Ops
