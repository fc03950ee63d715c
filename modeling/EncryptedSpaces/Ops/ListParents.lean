import EncryptedSpaces.Ops.ListEffects

/-!
# Owners of lists

A list belongs to the cell that was inserted with its number.  The invariant says
that numbers are counted, that parents are cells of list columns, and that no two
stored cells hold one number.  A list whose parent cell is gone stays without it as
long as no Insert brings the row back.
-/

namespace EncryptedSpaces.Ops

open Encoding Changelog Acl Lib Lib.Except List

/-- The stored cell is of a list column and holds the number. -/
def OwnsList (codec : RuleCodec) (db : Db) (key : Bytes) (number : Int) : Prop :=
  ∃ value table rowId column, db[key]? = some value ∧
    parsedColumn? key = some (table, rowId, column) ∧ Application table ∧
    ListColumn codec db table column ∧ parseI64ColumnValue value = some number

/-- The list has a parent on record whose cell is not stored. -/
def Orphaned (db : Db) (number : Int) : Prop :=
  ∃ table rowId column, db.listParent? number = some (table, rowId, column) ∧
    db[columnKey table rowId column]? = none

/-- No list has been allocated. -/
structure NoLists (codec : RuleCodec) (db : Db) : Prop where
  keys : ∀ key, ListKey key → db[key]? = none
  cells : ∀ key value, db[key]? = some value → ∀ table rowId column,
    parsedColumn? key = some (table, rowId, column) → Application table →
      ¬ ListColumn codec db table column

/-- At most one Insert of the entry allocates, and none takes the explicit id of a row
that has been the parent of a list. -/
structure FreshParents (codec : RuleCodec) (db : Db) (entry : ChangelogEntry) : Prop where
  once : (listInserts codec db entry).length ≤ 1
  fresh : ∀ table rowId, (table, rowId) ∈ insertedRows codec db entry →
    db.Static codec (.autoIncrement table) false → ∀ number column, InI64 number →
      db.listParent? number ≠ some (table, rowId, column)

/-- A cell that may be the parent of a list. -/
structure ParentCell (codec : RuleCodec) (db : Db) (table : String) (rowId : Int)
    (column : String) : Prop where
  inI64 : InI64 rowId
  application : Application table
  list : ListColumn codec db table column
  below : db.Static codec (.autoIncrement table) true → rowId < db.nextId table

structure ListOwners (codec : RuleCodec) (db : Db) : Prop where
  parents : ∀ number bytes, InI64 number → db[listParentKey number]? = some bytes →
    number < db.nextListNumber ∧ ∃ table rowId column,
      bytes = encodeListParent table rowId column ∧ ParentCell codec db table rowId column
  cells : ∀ key number, OwnsList codec db key number → number < db.nextListNumber
  distinct : ∀ key key' number, OwnsList codec db key number → OwnsList codec db key' number →
    key = key'

section Start

variable {codec : RuleCodec} {db : Db}

theorem NoLists.not_ownsList (h : NoLists codec db) {key : Bytes} {number : Int} :
    ¬ OwnsList codec db key number := by
  rintro ⟨value, table, rowId, column, hValue, hKey, hApp, hList, _⟩
  exact h.cells key value hValue table rowId column hKey hApp hList

theorem NoLists.listOwners (h : NoLists codec db) : ListOwners codec db := by
  refine ⟨fun number bytes _ hBytes => ?_, fun key number hOwns => absurd hOwns h.not_ownsList,
    fun key key' number hOwns => absurd hOwns h.not_ownsList⟩
  rw [h.keys _ (.inr ⟨number, .inr (.inr rfl)⟩)] at hBytes
  cases hBytes

theorem ListOwners.listParent?_eq (h : ListOwners codec db) {number : Int}
    {cell : String × Int × String} (hIn : InI64 number)
    (hParent : db.listParent? number = some cell) :
    number < db.nextListNumber ∧ ParentCell codec db cell.1 cell.2.1 cell.2.2 ∧
      db[listParentKey number]? = some (encodeListParent cell.1 cell.2.1 cell.2.2) := by
  obtain ⟨bytes, hBytes, hDecode⟩ := Option.bind_eq_some_iff.mp hParent
  obtain ⟨hLt, table, rowId, column, rfl, hCell⟩ := h.parents number bytes hIn hBytes
  rw [decodeListParent_encodeListParent table column hCell.inI64] at hDecode
  cases hDecode
  exact ⟨hLt, hCell, hBytes⟩

end Start

/-! ## Steps -/

section Steps

variable {codec : RuleCodec} {db : Db} {n : Nat} {entry : ChangelogEntry} {batch : Batch}

variable {table column : String} {number : Int} {x : InsertParts} {lists : List NewList}

section

variable (hStep : Accepts codec n db entry batch)
include hStep

theorem listColumn_applyBatch_iff :
    ListColumn codec (db.applyBatch batch) table column ↔ ListColumn codec db table column := by
  unfold ListColumn
  simp only [Db.Static.applyBatch_iff hStep]

theorem ParentCell.applyBatch {rowId : Int} (h : ParentCell codec db table rowId column) :
    ParentCell codec (db.applyBatch batch) table rowId column := by
  refine ⟨h.inI64, h.application, (listColumn_applyBatch_iff hStep).mpr h.list, fun hMode => ?_⟩
  have hBelow := h.below ((Db.Static.applyBatch_iff hStep).mp hMode)
  have hGrows := nextId_le_of_dispatch hStep h.application
  omega

/-- A cell that owns a list has owned it before, or the batch has put its number. -/
theorem OwnsList.cases {key : Bytes} (h : OwnsList codec (db.applyBatch batch) key number) :
    OwnsList codec db key number ∨ ∃ value, .put key value ∈ batch ∧
      PutsListCell codec db (.put key value) ∧ parseI64ColumnValue value = some number := by
  obtain ⟨value, table, rowId, column, hValue, hKey, hApp, hList, hNumber⟩ := h
  have hList' := (listColumn_applyBatch_iff hStep).mp hList
  rcases Db.stored_or_put hValue with hOld | hPut
  · exact .inl ⟨value, table, rowId, column, hOld, hKey, hApp, hList', hNumber⟩
  · exact .inr ⟨value, hPut, ⟨key, value, table, rowId, column, rfl, hKey, hApp, hList'⟩, hNumber⟩

end

theorem listParentKey_not_linkKey (number : Int) : ¬ LinkKey (listParentKey number) := by
  rintro ⟨n, hHead | hTail⟩
  · exact absurd (schemaSubkey_inj hHead).2 (by decide)
  · exact absurd (schemaSubkey_inj hTail).2 (by decide)

theorem nextListNumber_congr {db' : Db}
    (h : db'[schemaNextListNumberKey]? = db[schemaNextListNumberKey]?) :
    db'.nextListNumber = db.nextListNumber := by
  unfold Db.nextListNumber
  rw [h]

theorem nextListNumberKey_ne_int (s : String) (number : Int) :
    s ≠ "next_list_number" →
      schemaSubkey listsTable [.string s, .int number] ≠ schemaNextListNumberKey := by
  intro hNe hKey
  exact hNe (schemaSubkey_inj hKey).2

/-- An Insert moves the counter by the lists it allocates. -/
theorem InsertParts.Accepted.nextListNumber (hx : x.Accepted codec db entry)
    (hLists : x.Allocates db lists) (hBatch : ∀ op ∈ x.batch, op ∈ batch)
    (hKeys : ∀ op ∈ batch, ListKey op.key → op ∈ x.listPuts) :
    (db.applyBatch batch).nextListNumber = db.nextListNumber + lists.length := by
  by_cases hNil : lists = []
  · have hSpared : ∀ op ∈ batch, op.key ≠ schemaNextListNumberKey := by
      intro op hOp hKey
      have hMem := hKeys op hOp (.inl hKey)
      rw [hx.listPuts_eq hLists, if_pos hNil] at hMem
      cases hMem
    rw [nextListNumber_congr (Db.getElem?_applyBatch_of_ne hSpared), hNil]
    simp
  · have hMem : .put schemaNextListNumberKey (i64ToBeBytes (db.nextListNumber + lists.length)) ∈
        x.batch := by
      unfold InsertParts.batch
      rw [hx.listPuts_eq hLists, if_neg hNil]
      simp
    have hOnly : ∀ op ∈ batch, op.key = schemaNextListNumberKey →
        op = .put schemaNextListNumberKey (i64ToBeBytes (db.nextListNumber + lists.length)) := by
      intro op hOp hKey
      rcases hx.listPut_cases hLists (hKeys op hOp (.inl hKey)) with hPut | ⟨l, _, rfl | rfl | rfl⟩
      · exact hPut
      · exact absurd hKey (nextListNumberKey_ne_int "head" l.number (by decide))
      · exact absurd hKey (nextListNumberKey_ne_int "tail" l.number (by decide))
      · exact absurd hKey (nextListNumberKey_ne_int "parent" l.number (by decide))
    unfold Db.nextListNumber
    rw [Db.getElem?_applyBatch_put (hBatch _ hMem) hOnly]
    exact i64FromBeBytes_i64ToBeBytes (hx.inI64_counter hLists hNil)

/-- A parent that an Insert writes is that of a new list. -/
theorem InsertParts.Accepted.parent_eq (hx : x.Accepted codec db entry)
    (hLists : x.Allocates db lists) (hIn : InI64 number) {op : BatchOp} (hOp : op ∈ x.listPuts)
    (hKey : op.key = listParentKey number) :
    ∃ l ∈ lists, l.number = number ∧
      op = .put (listParentKey number) (encodeListParent x.table x.rowId l.column) := by
  rcases hx.listPut_cases hLists hOp with rfl | ⟨l, hl, rfl | rfl | rfl⟩
  · exact absurd (schemaSubkey_inj hKey).2 (by decide)
  · exact absurd (schemaSubkey_inj hKey).2 (by decide)
  · exact absurd (schemaSubkey_inj hKey).2 (by decide)
  · have hNumber : l.number = number := schemaSubkey_int_inj (hLists.range l hl).2.2 hIn hKey
    exact ⟨l, hl, hNumber, by rw [hNumber]⟩

/-- Two new lists with one number are one list. -/
theorem InsertParts.Allocates.eq_of_number_eq (h : x.Allocates db lists) {l l' : NewList}
    (hl : l ∈ lists) (hl' : l' ∈ lists) (hNumber : l.number = l'.number) : l = l' := by
  have hNodup : (lists.map NewList.number).Nodup :=
    (pairwise_map.mpr h.increasing).imp fun hLt => hLt.ne
  exact inj_on_of_nodup_map hNodup hl hl' hNumber

/-- The step from one database to another adds some lists, all with parents in one row. -/
structure ListsAdded (codec : RuleCodec) (db db' : Db) (table : String) (rowId : Int)
    (lists : List NewList) : Prop where
  counter : db'.nextListNumber = db.nextListNumber + lists.length
  range : ∀ l ∈ lists, db.nextListNumber ≤ l.number ∧ l.number < db.nextListNumber + lists.length
  unique : ∀ l ∈ lists, ∀ l' ∈ lists, l.number = l'.number → l = l'
  parents : ∀ number bytes, InI64 number → db'[listParentKey number]? = some bytes →
    db[listParentKey number]? = some bytes ∨
      ∃ l ∈ lists, l.number = number ∧ bytes = encodeListParent table rowId l.column
  kept : ∀ number, InI64 number → number < db.nextListNumber →
    db'[listParentKey number]? = db[listParentKey number]?
  cell : ∀ l ∈ lists, ParentCell codec db' table rowId l.column
  cells : ∀ key number, OwnsList codec db' key number →
    OwnsList codec db key number ∨ ∃ l ∈ lists, l.key = key ∧ l.number = number

section

variable (hStep : Accepts codec n db entry batch)
include hStep

/-- The cell of a new list may be its parent. -/
theorem InsertParts.Accepted.parentCell {kvs : List KvData}
    (hx : x.Accepted codec db (subsetEntry entry kvs)) (hLists : x.Allocates db lists)
    (hRow : (x.table, x.rowId) ∈ insertedRows codec db entry) {l : NewList} (hl : l ∈ lists) :
    ParentCell codec (db.applyBatch batch) x.table x.rowId l.column := by
  have hList : ListColumn codec db x.table l.column := ⟨_, hx.lists, (hLists.cell l hl).1⟩
  refine ⟨hx.inI64, hx.application, (listColumn_applyBatch_iff hStep).mpr hList, fun hMode => ?_⟩
  exact (lt_nextId_of_inserted hStep ((Db.Static.applyBatch_iff hStep).mp hMode) hRow).2

theorem listsAdded_of_keep (hLinks : ∀ op ∈ batch, ListKey op.key → LinkKey op.key)
    (hCells : ∀ op ∈ batch, ¬ PutsListCell codec db op) :
    ListsAdded codec db (db.applyBatch batch) "" 0 [] := by
  have hParent : ∀ number,
      (db.applyBatch batch)[listParentKey number]? = db[listParentKey number]? := by
    intro number
    refine Db.getElem?_applyBatch_of_ne fun op hOp hKey => ?_
    have hLink := hLinks op hOp (.inr ⟨number, .inr (.inr hKey)⟩)
    exact listParentKey_not_linkKey number (hKey ▸ hLink)
  refine ⟨?_, by simp, by simp, fun number bytes _ hBytes => .inl (hParent number ▸ hBytes),
    fun number _ _ => hParent number, by simp, fun key number hOwns => ?_⟩
  · rw [length_nil, Nat.cast_zero, add_zero]
    refine nextListNumber_congr (Db.getElem?_applyBatch_of_ne fun op hOp hKey => ?_)
    obtain ⟨number, hHead | hTail⟩ := hLinks op hOp (.inl hKey)
    · exact nextListNumberKey_ne_int "head" number (by decide) (hHead.symm.trans hKey)
    · exact nextListNumberKey_ne_int "tail" number (by decide) (hTail.symm.trans hKey)
  · rcases hOwns.cases hStep with hOld | ⟨value, hPut, hCell, _⟩
    · exact .inl hOld
    · exact absurd hCell (hCells _ hPut)

theorem listsAdded_of_allocate {kvs : List KvData}
    (hx : x.Accepted codec db (subsetEntry entry kvs)) (hLists : x.Allocates db lists)
    (hRow : (x.table, x.rowId) ∈ insertedRows codec db entry)
    (hBatch : ∀ op ∈ x.batch, op ∈ batch) (hKeys : ∀ op ∈ batch, ListKey op.key → op ∈ x.listPuts)
    (hCells : ∀ op ∈ batch, PutsListCell codec db op → op ∈ x.columnPuts) :
    ListsAdded codec db (db.applyBatch batch) x.table x.rowId lists := by
  have hParentOp : ∀ {number op}, InI64 number → op ∈ batch → op.key = listParentKey number →
      ∃ l ∈ lists, l.number = number ∧
        op = .put (listParentKey number) (encodeListParent x.table x.rowId l.column) := by
    intro number op hIn hOp hKey
    exact hx.parent_eq hLists hIn (hKeys op hOp (.inr ⟨number, .inr (.inr hKey)⟩)) hKey
  refine ⟨hx.nextListNumber hLists hBatch hKeys, fun l hl => ?_, fun l hl l' hl' => ?_,
    fun number bytes hIn hBytes => ?_, fun number hIn hLt => ?_,
    fun l hl => hx.parentCell hStep hLists hRow hl, fun key number hOwns => ?_⟩
  · exact ⟨(hLists.range l hl).1, (hLists.range l hl).2.1⟩
  · exact hLists.eq_of_number_eq hl hl'
  · rcases Db.stored_or_put hBytes with hOld | hPut
    · exact .inl hOld
    · obtain ⟨l, hl, hNumber, hOp⟩ := hParentOp hIn hPut rfl
      cases hOp
      exact .inr ⟨l, hl, hNumber, rfl⟩
  · refine Db.getElem?_applyBatch_of_ne fun op hOp hKey => ?_
    obtain ⟨l, hl, hNumber, _⟩ := hParentOp hIn hOp hKey
    have hLower := (hLists.range l hl).1
    omega
  · rcases hOwns.cases hStep with hOld | ⟨value, hPut, hCell, hNumber⟩
    · exact .inl hOld
    · obtain ⟨l, hl, hOp⟩ := hx.listCell_eq hLists (hCells _ hPut hCell) hCell
      cases hOp
      rw [parseI64ColumnValue_i64ToValueBytes (hLists.range l hl).2.2, Option.some.injEq] at hNumber
      exact .inr ⟨l, hl, rfl, hNumber⟩

/-- Accepted entries that allocate at most once add lists. -/
theorem exists_listsAdded (hOne : (listInserts codec db entry).length ≤ 1) :
    ∃ table rowId lists, ListsAdded codec db (db.applyBatch batch) table rowId lists := by
  cases listStep_of_dispatch hStep hOne with
  | keep hLinks hCells =>
    exact ⟨_, _, _, listsAdded_of_keep hStep (fun op hOp hKey => (hLinks op hOp hKey).2) hCells⟩
  | allocate kvs x lists hx hLists hRow hBatch hKeys hCells =>
    exact ⟨_, _, _, listsAdded_of_allocate hStep hx hLists hRow hBatch hKeys hCells⟩

/-- Old numbers are below the counter, new ones are not: the invariant stays. -/
theorem ListOwners.applyBatch (h : ListOwners codec db)
    (hOne : (listInserts codec db entry).length ≤ 1) : ListOwners codec (db.applyBatch batch) := by
  obtain ⟨table, rowId, lists, hAdded⟩ := exists_listsAdded hStep hOne
  have hCounter := hAdded.counter
  refine ⟨fun number bytes hIn hBytes => ?_, fun key number hOwns => ?_,
    fun key key' number hOwns hOwns' => ?_⟩
  · rcases hAdded.parents number bytes hIn hBytes with hOld | ⟨l, hl, rfl, rfl⟩
    · obtain ⟨hLt, table', rowId', column', hEq, hCell⟩ := h.parents number bytes hIn hOld
      exact ⟨by omega, table', rowId', column', hEq, hCell.applyBatch hStep⟩
    · have hRange := hAdded.range l hl
      exact ⟨by omega, table, rowId, l.column, rfl, hAdded.cell l hl⟩
  · rcases hAdded.cells key number hOwns with hOld | ⟨l, hl, _, rfl⟩
    · have hLt := h.cells key number hOld
      omega
    · have hRange := hAdded.range l hl
      omega
  · rcases hAdded.cells key number hOwns with hOld | ⟨l, hl, rfl, rfl⟩
    · rcases hAdded.cells key' number hOwns' with hOld' | ⟨l', hl', rfl, rfl⟩
      · exact h.distinct key key' number hOld hOld'
      · have hLt := h.cells key l'.number hOld
        have hRange := hAdded.range l' hl'
        omega
    · rcases hAdded.cells key' l.number hOwns' with hOld' | ⟨l', hl', rfl, hNumber⟩
      · have hLt := h.cells key' l.number hOld'
        have hRange := hAdded.range l hl
        omega
      · rw [hAdded.unique l hl l' hl' hNumber.symm]

/-- A list cell appears only with its row. -/
theorem inserted_of_new_cell {key value : Bytes} {rowId : Int}
    (hOne : (listInserts codec db entry).length ≤ 1)
    (hKey : parsedColumn? key = some (table, rowId, column)) (hApp : Application table)
    (hList : ListColumn codec db table column) (hOld : db[key]? = none)
    (hNew : (db.applyBatch batch)[key]? = some value) :
    (table, rowId) ∈ insertedRows codec db entry := by
  have hPut : .put key value ∈ batch := by
    rcases Db.stored_or_put hNew with hStored | hPut
    · rw [hOld] at hStored
      cases hStored
    · exact hPut
  have hCell : PutsListCell codec db (.put key value) :=
    ⟨key, value, table, rowId, column, rfl, hKey, hApp, hList⟩
  cases listStep_of_dispatch hStep hOne with
  | keep hLinks hCells => exact absurd hCell (hCells _ hPut)
  | allocate kvs x lists hx hLists hRow hBatch hKeys hCells =>
    obtain ⟨l, hl, hOp⟩ := hx.listCell_eq hLists (hCells _ hPut hCell) hCell
    cases hOp
    rw [(hLists.cell l hl).2] at hKey
    cases hKey
    exact hRow

/-- A list without its parent cell stays without it. -/
theorem Orphaned.applyBatch (h : Orphaned db number) (hIn : InI64 number)
    (hOwners : ListOwners codec db)
    (hFresh : FreshParents codec db entry) : Orphaned (db.applyBatch batch) number := by
  obtain ⟨table, rowId, column, hParent, hNone⟩ := h
  obtain ⟨hLt, hCell, _⟩ := hOwners.listParent?_eq hIn hParent
  dsimp only at hCell
  obtain ⟨_, _, lists, hAdded⟩ := exists_listsAdded hStep hFresh.once
  refine ⟨table, rowId, column, ?_, ?_⟩
  · unfold Db.listParent?
    rw [hAdded.kept number hIn hLt]
    exact hParent
  · by_contra hSome
    obtain ⟨value, hValue⟩ := Option.ne_none_iff_exists'.mp hSome
    have hRow :=
      inserted_of_new_cell hStep hFresh.once (parsedColumn?_columnKey table column hCell.inI64)
      hCell.application hCell.list hNone hValue
    obtain ⟨_, x, hx, hTable, _⟩ := exists_insert_of_mem hStep hRow
    have hMode := hx.mode
    rw [hTable] at hMode
    cases hAuto : x.autoIncrement with
    | false => exact hFresh.fresh table rowId hRow (hAuto ▸ hMode) number column hIn hParent
    | true =>
      have hNext := (lt_nextId_of_inserted hStep (hAuto ▸ hMode) hRow).1
      have hBelow := hCell.below (hAuto ▸ hMode)
      omega

end

end Steps

/-! ## Runs -/

section Run

variable {codec : RuleCodec} {start db : Db} {entries : List ChangelogEntry}

/-- The list was without its parent cell at some point of the run. -/
def OrphanedSince (codec : RuleCodec) (start : Db) (entries : List ChangelogEntry) (number : Int) :
    Prop :=
  ∃ before after db, entries = before ++ after ∧ Run codec start before db ∧ Orphaned db number

theorem Run.listOwners (hRun : Run codec start entries db) (hStart : NoLists codec start)
    (hSteps : EachStep codec start entries (FreshParents codec)) :
    ListOwners codec db ∧
      ∀ number, InI64 number → OrphanedSince codec start entries number → Orphaned db number := by
  refine Run.invariant (P := fun entries db => ListOwners codec db ∧ ∀ number, InI64 number →
    OrphanedSince codec start entries number → Orphaned db number) hRun ?_ ?_
  · refine ⟨hStart.listOwners, fun number _ hSince => ?_⟩
    obtain ⟨before, after, db', hSplit, hBefore, hOrphaned⟩ := hSince
    obtain rfl := (append_eq_nil_iff.mp hSplit.symm).1
    have hNil : Run codec start [] start := .nil
    rwa [hNil.unique hBefore]
  · intro before entry rest db batch hPlace hBefore hStep ⟨hOwners, hKept⟩
    have hFresh := hSteps before entry rest db hPlace hBefore
    refine ⟨hOwners.applyBatch hStep hFresh.once, fun number hIn hSince => ?_⟩
    obtain ⟨before', after, db', hSplit, hBefore', hOrphaned⟩ := hSince
    rcases eq_nil_or_concat after with rfl | ⟨after', last, rfl⟩
    · rw [append_nil] at hSplit
      subst hSplit
      rwa [← (Run.snoc hBefore hStep).unique hBefore'] at hOrphaned
    · rw [concat_eq_append, ← append_assoc] at hSplit
      have hSince : OrphanedSince codec start before number :=
        ⟨before', after', db', (append_inj' hSplit rfl).1, hBefore', hOrphaned⟩
      exact (hKept number hIn hSince).applyBatch hStep hIn hOwners hFresh

/-- In a run that never inserts the row of a parent again, and allocates at most once
per entry, a list that has lost its parent cell takes no more list operations, and
no two cells own one list. -/
theorem orphaned_lists_frozen (hStart : NoLists codec start) (hRun : Run codec start entries db)
    (hSteps : EachStep codec start entries (FreshParents codec)) :
    (∀ number, OrphanedSince codec start entries number → ∀ entry command, IsListOp entry →
      listCommand? entry = some command → command.number? db = some number → ∀ batch,
        (dispatchExtractAndValidate (entries.length + 1) entry).eval (plain codec db.reader) ≠
          .ok batch) ∧
    ∀ key key' number, OwnsList codec db key number →
      OwnsList codec db key' number → key = key' := by
  obtain ⟨hOwners, hFrozen⟩ := hRun.listOwners hStart hSteps
  refine ⟨fun number hSince entry command hList hCommand hNumber batch hStep => ?_,
    hOwners.distinct⟩
  obtain ⟨command', hCommand', hEffect⟩ := listEffect_of_dispatch hStep hList
  rw [hCommand, Option.some.injEq] at hCommand'
  subst hCommand'
  obtain ⟨number', cell, hNumber', _, hIn, hParent⟩ := hEffect.liveParent
  rw [hNumber, Option.some.injEq] at hNumber'
  subst hNumber'
  -- the parent that the operation finds is the one whose cell is gone
  obtain ⟨table, rowId, column, hRecorded, hNone⟩ := hFrozen number hIn hSince
  have hCell := hParent.recorded
  rw [hRecorded, Option.some.injEq] at hCell
  subst hCell
  exact hParent.stored hNone

end Run

/-! ## Samples -/

/-- A table with explicit ids whose rows own a list. -/
def boards : Db :=
  (internalDb.createTable
    { name := "boards", columns := ["items"], indexed := [], autoIncrement := false }).insert
    (schemaListColumnsKey "boards") (encodeColumnNames ["items"])

def boardInsert (rowId : Int) : ChangelogEntry :=
  sampleEntry .insert 1 1 1
    [ { key := columnKey "boards" rowId "items", value := i64ToValueBytes 0 } ]

def boardDelete (rowId : Int) : ChangelogEntry :=
  sampleEntry .delete 1 1 1 [ { key := columnKey "boards" rowId "items", value := [] } ]

def boardAppend (number : Int) : ChangelogEntry :=
  sampleEntry .listAppend 1 1 1
    [ { key := columnKeyPlaceholder listsTable "list_number", value := i64ToValueBytes number },
      { key := columnKeyPlaceholder listsTable "value", value := i64ToValueBytes 7 } ]

/-- `FreshParents`, with every stored value taken for a parent. -/
def freshParentsCheck (codec : RuleCodec) (db : Db) (entry : ChangelogEntry) : Bool :=
  decide ((listInserts codec db entry).length ≤ 1) &&
    (insertedRows codec db entry).all fun row => db.toList.all fun p =>
      match (decodeListParent p.2).toOption with
      | some (table, rowId, _) => decide ((table, rowId) ≠ row)
      | none => true

theorem freshParents_of_check {codec : RuleCodec} {db : Db} {entry : ChangelogEntry}
    (h : freshParentsCheck codec db entry = true) : FreshParents codec db entry := by
  obtain ⟨hOnce, hRows⟩ := Bool.and_eq_true_iff.mp h
  refine ⟨of_decide_eq_true hOnce, fun table rowId hRow _ number column _ hParent => ?_⟩
  obtain ⟨bytes, hBytes, hDecode⟩ := Option.bind_eq_some_iff.mp hParent
  have hPair := all_eq_true.mp (all_eq_true.mp hRows _ hRow) (listParentKey number, bytes)
    (Std.ExtTreeMap.mem_toList_iff_getElem?_eq_some.mpr hBytes)
  rw [show (decodeListParent bytes).toOption = _ from hDecode] at hPair
  exact of_decide_eq_true hPair rfl

/-- The beginning of a key of the list bookkeeping. -/
def listKeyFront (name : String) : Bytes :=
  encodeTuple [.string tagSchema, .string listsTable, .string name]

theorem ListKey.exists_front {key : Bytes} (h : ListKey key) :
    ∃ name ∈ ["next_list_number", "head", "tail", "parent"], listKeyFront name <+: key := by
  have hInt : ∀ name n, listKeyFront name <+: schemaSubkey listsTable [.string name, .int n] :=
    fun name n => ⟨encodeTuple [.int n], by simp [listKeyFront, schemaSubkey, encodeTuple]⟩
  rcases h with rfl | ⟨n, rfl | rfl | rfl⟩
  · exact ⟨"next_list_number", by simp, prefix_rfl⟩
  · exact ⟨"head", by simp, hInt _ n⟩
  · exact ⟨"tail", by simp, hInt _ n⟩
  · exact ⟨"parent", by simp, hInt _ n⟩

theorem noLists_of_no_rows {codec : RuleCodec} {db : Db}
    (hKeys : ∀ p ∈ db.toList, ∀ name ∈ ["next_list_number", "head", "tail", "parent"],
      ¬ listKeyFront name <+: p.1)
    (hRows : ∀ p ∈ db.toList, parsedColumn? p.1 = none) : NoLists codec db := by
  constructor
  · intro key hList
    by_contra hSome
    obtain ⟨value, hValue⟩ := Option.ne_none_iff_exists'.mp hSome
    obtain ⟨name, hName, hFront⟩ := hList.exists_front
    exact hKeys (key, value) (Std.ExtTreeMap.mem_toList_iff_getElem?_eq_some.mpr hValue)
      name hName hFront
  · intro key value hValue table rowId column hKey
    rw [hRows (key, value) (Std.ExtTreeMap.mem_toList_iff_getElem?_eq_some.mpr hValue)] at hKey
    cases hKey

theorem boards_noLists : NoLists noRules boards :=
  noLists_of_no_rows (by decide +kernel) (by decide +kernel)

/-- Two boards, of which the first is deleted: its list takes no appends, and the list
of the other one does. -/
theorem deleted_board_list_frozen : ∃ db,
    Run noRules boards [sampleCreate, boardInsert 1, boardInsert 2, boardDelete 1] db ∧
    (∀ batch, (dispatchExtractAndValidate 5 (boardAppend 1)).eval (plain noRules db.reader) ≠
      .ok batch) ∧
    (∃ batch, (dispatchExtractAndValidate 5 (boardAppend 2)).eval (plain noRules db.reader) =
      .ok batch) ∧
    OwnsList noRules db (columnKey "boards" 2 "items") 2 ∧
    ∀ key, OwnsList noRules db key 2 → key = columnKey "boards" 2 "items" := by
  let entries := [sampleCreate, boardInsert 1, boardInsert 2, boardDelete 1]
  obtain ⟨db, hRun, hParent, hNone, hSecond, hAccepted⟩ : ∃ db, Run noRules boards entries db ∧
      db.listParent? 1 = some ("boards", 1, "items") ∧ db[columnKey "boards" 1 "items"]? = none ∧
      db[columnKey "boards" 2 "items"]? = some (i64ToValueBytes 2) ∧
      ∃ batch, Accepts noRules 5 db (boardAppend 2) batch :=
    exists_run (by decide +kernel)
  have hSteps : EachStep noRules boards entries (FreshParents noRules) :=
    eachStep_of_checkSteps (fun _ _ => freshParents_of_check) .nil (by decide +kernel)
  obtain ⟨hFrozen, hDistinct⟩ := orphaned_lists_frozen boards_noLists hRun hSteps
  have hOrphaned : OrphanedSince noRules boards entries 1 :=
    ⟨entries, [], db, by simp, hRun, "boards", 1, "items", hParent, hNone⟩
  have hList : ListColumn noRules db "boards" "items" := by
    refine ⟨["items"], hRun.static_iff.mpr ?_, by simp⟩
    unfold Db.Static StaticKey.treeKey
    decide +kernel
  have hOwns : OwnsList noRules db (columnKey "boards" 2 "items") 2 :=
    ⟨_, "boards", 2, "items", hSecond, by decide +kernel, by decide, hList, by decide +kernel⟩
  refine ⟨db, hRun, ?_, hAccepted, hOwns, fun key hKey => ?_⟩
  · exact hFrozen 1 hOrphaned (boardAppend 1) (.append 1 (i64ToValueBytes 7)) (by decide)
      (by decide +kernel) rfl
  · exact hDistinct key _ 2 hKey hOwns

/-- The first board is deleted and inserted again: its cell then holds list `2`, and
the orphaned list `1` takes an append. -/
theorem reinserted_board_revives_list : ∃ db db' batch,
    Run noRules boards [sampleCreate, boardInsert 1, boardDelete 1] db ∧ Orphaned db 1 ∧
    Run noRules boards [sampleCreate, boardInsert 1, boardDelete 1, boardInsert 1] db' ∧
    db'[columnKey "boards" 1 "items"]? = some (i64ToValueBytes 2) ∧
    listCommand? (boardAppend 1) = some (.append 1 (i64ToValueBytes 7)) ∧
    (dispatchExtractAndValidate 5 (boardAppend 1)).eval (plain noRules db'.reader) = .ok batch := by
  obtain ⟨db, hRun, hParent, hNone⟩ :
      ∃ db, Run noRules boards [sampleCreate, boardInsert 1, boardDelete 1] db ∧
        db.listParent? 1 = some ("boards", 1, "items") ∧ db[columnKey "boards" 1 "items"]? = none :=
    exists_run (by decide +kernel)
  obtain ⟨db', hRun', hCell, batch, hStep⟩ :
      ∃ db, Run noRules boards [sampleCreate, boardInsert 1, boardDelete 1, boardInsert 1] db ∧
        db[columnKey "boards" 1 "items"]? = some (i64ToValueBytes 2) ∧
        ∃ batch, Accepts noRules 5 db (boardAppend 1) batch :=
    exists_run (by decide +kernel)
  exact ⟨db, db', batch, hRun, ⟨"boards", 1, "items", hParent, hNone⟩, hRun', hCell,
    by decide +kernel, hStep⟩

end EncryptedSpaces.Ops
