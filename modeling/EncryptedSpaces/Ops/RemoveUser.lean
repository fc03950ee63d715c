import EncryptedSpaces.Ops.RetiredKeys

/-!
# What RemoveUser leaves behind

The verifier checks parsed keys and the first cell of each history column, and
truncates the removed row's id to 32 bits; the batch deletes the keys of the
entry byte for byte and stores the last cell of each column.  The operation does
what it is for exactly when these differences do not show.
-/

namespace EncryptedSpaces.Ops

open Encoding Changelog Lib Lib.Except

/-- A stored history row of a user ends at `last`. -/
def HistoryEnd (db : Db) (uid last : Int) : Prop :=
  ∃ rowId, InI64 rowId ∧ db.historyInt rowId "uid" = some uid ∧
    db.historyInt rowId "valid_to_change_id" = some last

/-- The `uid` index lists the stored history rows of the user. -/
def IndexesHistory (db : Db) (uid : Nat) : Prop :=
  ∀ rowId, InI64 rowId → (Listed db uid rowId ↔ db.historyInt rowId "uid" = some (uid : Int))

theorem IndexesHistory.listedEnd_iff {db : Db} {uid : Nat}
    (h : IndexesHistory db uid) (last : Int) :
    ListedEnd db uid last ↔ HistoryEnd db uid last := by
  refine exists_congr fun rowId => ?_
  rw [← and_assoc]
  refine and_congr_left fun _ => ?_
  constructor
  · intro hListed
    obtain ⟨key, value, element, _, _, hParse⟩ := id hListed
    have hIn := inI64_of_parseIndex hParse
    exact ⟨hIn, (h rowId hIn).mp hListed⟩
  · rintro ⟨hIn, hUid⟩
    exact (h rowId hIn).mpr hUid

/-- The user with row `rowId` is removed: no key of the row is left and no other
row of `_users` changed, and one row is added to the history, which retires the
user's stored key from the end of its previous range to the change before. -/
structure UserRemoved (db : Db) (batch : Batch) (changeId : Nat) (rowId : Int) : Prop where
  gone : NoRow (db.applyBatch batch) usersTable rowId
  others : ∀ key r column, parsedColumn? key = some (usersTable, r, column) → r ≠ rowId →
    (db.applyBatch batch)[key]? = db[key]?
  fresh : NoRow db keyHistoryTable (db.nextId keyHistoryTable)
  row : ExactRow (db.applyBatch batch) keyHistoryTable (db.nextId keyHistoryTable)
    keyHistoryRequiredColumns
  onlyRow : ∀ key r column, parsedColumn? key = some (keyHistoryTable, r, column) →
    r ≠ db.nextId keyHistoryTable → (db.applyBatch batch)[key]? = db[key]?
  uid : (db.applyBatch batch).historyInt (db.nextId keyHistoryTable) "uid" = some rowId
  authKey : (db.applyBatch batch)[columnKey keyHistoryTable (db.nextId keyHistoryTable)
    "old_auth_key"]? = db[columnKey usersTable rowId "auth_key"]?
  starts : ∃ start, (db.applyBatch batch).historyInt (db.nextId keyHistoryTable)
    "valid_from_change_id" = some start ∧ Follows (HistoryEnd db rowId) start
  ends : (db.applyBatch batch)[columnKey keyHistoryTable (db.nextId keyHistoryTable)
    "valid_to_change_id"]? = some (i64ToValueBytes ((changeId - 1 : Nat) : Int))

/-- The entry deletes every stored key of the row, the row id is a user id, the
cells that are checked are those that are stored, and the history row is new. -/
structure RemovesCleanly (db : Db) (entry : ChangelogEntry) (rowId : Int) : Prop where
  keys : RowKeys db usersTable rowId fun key _ => key ∈ (userKvs entry).map KvData.key
  userId : 0 ≤ rowId ∧ rowId < 2 ^ 32
  authKey : inlineValue (historyKvs entry) "old_auth_key" =
    firstValue (historyKvs entry) "old_auth_key"
  starts : (inlineValue (historyKvs entry) "valid_from_change_id").bind parseI64ColumnValue =
    (firstValue (historyKvs entry) "valid_from_change_id").bind parseI64ColumnValue
  columns : ∀ column ∈ columnNamesFromKeys ((historyKvs entry).map KvData.key),
    column ∈ keyHistoryRequiredColumns
  fresh : NoRow db keyHistoryTable (db.nextId keyHistoryTable)

section Removed

variable {db : Db} {changeId : Nat} {entry : ChangelogEntry} {rowId validFrom : Int}
  {batch : Batch}

variable {kvs : List KvData} {uid : Nat} {stored : String → Bytes → Bytes} {key : Bytes} {r : Int}
  {column : String}

/-- The cells of the new history row after the batch. -/
theorem HistoryWritten.getElem?_cell (h : HistoryWritten db kvs uid stored batch)
    (column : String) :
    (db.applyBatch batch)[columnKey keyHistoryTable (db.nextId keyHistoryTable) column]? =
      ((inlineValue kvs column).map (stored column)).or
        db[columnKey keyHistoryTable (db.nextId keyHistoryTable) column]? := by
  rw [Db.getElem?_applyBatch, h.cell]
  cases inlineValue kvs column <;> rfl

theorem HistoryWritten.getElem?_of_ne (h : HistoryWritten db kvs uid stored batch)
    (hKey : parsedColumn? key = some (keyHistoryTable, r, column))
    (hNe : key ≠ columnKey keyHistoryTable (db.nextId keyHistoryTable) column) :
    (db.applyBatch batch)[key]? = db[key]? := by
  rw [Db.getElem?_applyBatch, h.frame key r column hKey hNe]
  rfl

theorem inI64_nextId (h : HistoryWritten db kvs uid stored batch) :
    InI64 (db.nextId keyHistoryTable) := by
  have hNonneg := h.nonneg
  have hSucc := h.inI64
  unfold InI64 at hSucc ⊢
  omega

section

variable (h : RemoveAccepted db changeId entry rowId validFrom batch)
include h

/-- A required cell is stored as the last kv of its column gives it. -/
theorem RemoveAccepted.getElem?_cell (hColumn : column ∈ keyHistoryRequiredColumns) :
    ∃ value, inlineValue (historyKvs entry) column = some value ∧
      (db.applyBatch batch)[columnKey keyHistoryTable (db.nextId keyHistoryTable) column]? =
        some (storedRemoval ((changeId - 1 : Nat) : Int) column value) := by
  obtain ⟨value, hValue⟩ := h.checked.inlineValue_isSome hColumn
  refine ⟨value, hValue, ?_⟩
  rw [h.history.getElem?_cell, hValue]
  rfl

theorem RemoveAccepted.getElem?_users (hKey : parsedColumn? key = some (usersTable, r, column)) :
    (db.applyBatch batch)[key]? =
      if key ∈ (userKvs entry).map KvData.key then none else db[key]? := by
  rw [Db.getElem?_applyBatch, h.users key (IsColumnOf.tableKey ⟨r, column, hKey⟩)]
  split <;> rfl

/-- Only keys of the removed row are deleted. -/
theorem RemoveAccepted.others
    (hKey : parsedColumn? key = some (usersTable, r, column)) (hRow : r ≠ rowId) :
    (db.applyBatch batch)[key]? = db[key]? := by
  have hNot : key ∉ (userKvs entry).map KvData.key := by
    intro hMem
    obtain ⟨kv, hkv, rfl⟩ := List.mem_map.mp hMem
    obtain ⟨column', hKv⟩ := h.row kv hkv
    exact hRow (cell_unique hKey hKv).2.1
  rw [h.getElem?_users hKey, if_neg hNot]

theorem RemoveAccepted.gone_iff :
    NoRow (db.applyBatch batch) usersTable rowId ↔
      RowKeys db usersTable rowId fun key _ => key ∈ (userKvs entry).map KvData.key := by
  constructor
  · intro hGone key value hGet column hKey
    by_contra hNot
    refine hGone key value ?_ column hKey
    rw [h.getElem?_users hKey, if_neg hNot, hGet]
  · intro hKeys key value hGet column hKey
    rw [h.getElem?_users hKey] at hGet
    split at hGet
    · cases hGet
    · rename_i hNot
      exact hNot (hKeys key value hGet column hKey)

theorem RemoveAccepted.onlyRow (hKey : parsedColumn? key = some (keyHistoryTable, r, column))
    (hRow : r ≠ db.nextId keyHistoryTable) : (db.applyBatch batch)[key]? = db[key]? := by
  refine h.history.getElem?_of_ne hKey ?_
  rintro rfl
  exact hRow (columnKey_cell (inI64_nextId h.history) hKey).2.1.symm

theorem RemoveAccepted.row_iff (hFresh : NoRow db keyHistoryTable (db.nextId keyHistoryTable)) :
    ExactRow (db.applyBatch batch) keyHistoryTable (db.nextId keyHistoryTable)
        keyHistoryRequiredColumns ↔
      ∀ column ∈ columnNamesFromKeys ((historyKvs entry).map KvData.key),
        column ∈ keyHistoryRequiredColumns := by
  have hIn := inI64_nextId h.history
  constructor
  · intro hRow column hColumn
    obtain ⟨value, hValue⟩ := Option.isSome_iff_exists.mp (inlineValue_isSome_iff.mpr hColumn)
    have hCell := h.history.getElem?_cell column
    rw [hValue] at hCell
    exact (hRow.only _ _ hCell column (parsedColumn?_columnKey _ _ hIn)).1
  · intro hColumns
    refine ⟨fun column hColumn => ?_, fun key value hGet column hKey => ?_⟩
    · obtain ⟨value, _, hCell⟩ := h.getElem?_cell hColumn
      rw [hCell]
      rfl
    · by_cases hEq : key = columnKey keyHistoryTable (db.nextId keyHistoryTable) column
      · refine ⟨hColumns column (inlineValue_isSome_iff.mp ?_), hEq⟩
        rw [hEq, h.history.getElem?_cell] at hGet
        cases hInline : inlineValue (historyKvs entry) column with
        | some bytes => rfl
        | none =>
          rw [hInline] at hGet
          exact (hFresh _ value hGet column (parsedColumn?_columnKey _ _ hIn)).elim
      · rw [h.history.getElem?_of_ne hKey hEq] at hGet
        exact (hFresh key value hGet column hKey).elim

/-- The stored user id is the truncated row id. -/
theorem RemoveAccepted.uid_eq :
    (db.applyBatch batch).historyInt (db.nextId keyHistoryTable) "uid" =
      some ((truncateU32 rowId : Nat) : Int) := by
  have hRequired : "uid" ∈ keyHistoryRequiredColumns := by decide
  obtain ⟨value, hValue, hCell⟩ := h.getElem?_cell hRequired
  have hUid := h.checked.uid_stored (truncateU32_lt rowId)
  unfold Db.historyInt
  rw [hCell]
  rw [hValue] at hUid
  exact hUid

end

theorem truncateU32_eq_iff {i : Int} : ((truncateU32 i : Nat) : Int) = i ↔ 0 ≤ i ∧ i < 2 ^ 32 := by
  unfold truncateU32
  omega

section

variable (h : RemoveAccepted db changeId entry rowId validFrom batch)
include h

theorem RemoveAccepted.authKey_iff (hUser : ((truncateU32 rowId : Nat) : Int) = rowId) :
    (db.applyBatch batch)[columnKey keyHistoryTable (db.nextId keyHistoryTable)
        "old_auth_key"]? = db[columnKey usersTable rowId "auth_key"]? ↔
      inlineValue (historyKvs entry) "old_auth_key" =
        firstValue (historyKvs entry) "old_auth_key" := by
  have hRequired : "old_auth_key" ∈ keyHistoryRequiredColumns := by decide
  obtain ⟨value, hValue, hCell⟩ := h.getElem?_cell hRequired
  obtain ⟨old, hFirst, hStored⟩ := h.checked.authKey
  rw [hUser] at hStored
  rw [hCell, hStored, hValue, hFirst]
  rfl

theorem RemoveAccepted.starts_iff (hIndex : IndexesHistory db (truncateU32 rowId))
    (hUser : ((truncateU32 rowId : Nat) : Int) = rowId) :
    (∃ start, (db.applyBatch batch).historyInt (db.nextId keyHistoryTable)
        "valid_from_change_id" = some start ∧ Follows (HistoryEnd db rowId) start) ↔
      (inlineValue (historyKvs entry) "valid_from_change_id").bind parseI64ColumnValue =
        (firstValue (historyKvs entry) "valid_from_change_id").bind parseI64ColumnValue := by
  have hRequired : "valid_from_change_id" ∈ keyHistoryRequiredColumns := by decide
  obtain ⟨value, hValue, hCell⟩ := h.getElem?_cell hRequired
  have hStored : (db.applyBatch batch).historyInt (db.nextId keyHistoryTable)
      "valid_from_change_id" = parseI64ColumnValue value := by
    unfold Db.historyInt
    rw [hCell]
    rfl
  have hFollows : Follows (HistoryEnd db rowId) validFrom := by
    have hEnds := h.checked.follows.congr hIndex.listedEnd_iff
    rwa [hUser] at hEnds
  rw [hStored, hValue, h.checked.starts, Option.bind_some]
  constructor
  · rintro ⟨start, hStart, hFollows'⟩
    rw [hStart, hFollows'.unique hFollows]
  · intro hStart
    exact ⟨validFrom, hStart, hFollows⟩

theorem RemoveAccepted.ends :
    (db.applyBatch batch)[columnKey keyHistoryTable (db.nextId keyHistoryTable)
      "valid_to_change_id"]? = some (i64ToValueBytes ((changeId - 1 : Nat) : Int)) := by
  have hRequired : "valid_to_change_id" ∈ keyHistoryRequiredColumns := by decide
  obtain ⟨value, _, hCell⟩ := h.getElem?_cell hRequired
  exact hCell

/-- What the checks leave open decides whether the user is removed. -/
theorem RemoveAccepted.userRemoved_iff (hIndex : IndexesHistory db (truncateU32 rowId)) :
    UserRemoved db batch changeId rowId ↔ RemovesCleanly db entry rowId := by
  constructor
  · intro hRemoved
    have hUser : ((truncateU32 rowId : Nat) : Int) = rowId :=
      Option.some.inj (h.uid_eq.symm.trans hRemoved.uid)
    exact
      { keys := h.gone_iff.mp hRemoved.gone
        userId := truncateU32_eq_iff.mp hUser
        authKey := (h.authKey_iff hUser).mp hRemoved.authKey
        starts := (h.starts_iff hIndex hUser).mp hRemoved.starts
        columns := (h.row_iff hRemoved.fresh).mp hRemoved.row
        fresh := hRemoved.fresh }
  · intro hClean
    have hUser : ((truncateU32 rowId : Nat) : Int) = rowId := truncateU32_eq_iff.mpr hClean.userId
    exact
      { gone := h.gone_iff.mpr hClean.keys
        others := fun _ _ _ hKey hRow => h.others hKey hRow
        fresh := hClean.fresh
        row := (h.row_iff hClean.fresh).mpr hClean.columns
        onlyRow := fun _ _ _ hKey hRow => h.onlyRow hKey hRow
        uid := h.uid_eq.trans (congrArg some hUser)
        authKey := (h.authKey_iff hUser).mpr hClean.authKey
        starts := (h.starts_iff hIndex hUser).mpr hClean.starts
        ends := h.ends }

end

end Removed

/-- An accepted RemoveUser entry removes the user whose row its keys name if and
only if it does so cleanly, given that the `uid` index of the history is right
for that user. -/
theorem removeUser_removes_iff {codec : RuleCodec} {db : Db} {n : Nat} {entry : ChangelogEntry}
    {batch : Batch} {rowId : Int} (hDb : Reachable codec n db)
    (hType : entry.message.opType = .removeUser)
    (hStep : (dispatchExtractAndValidate (n + 1) entry).eval (plain codec db.reader) = .ok batch)
    (hRow : ∃ kv ∈ userKvs entry, ∃ column,
      parsedColumn? kv.key = some (usersTable, rowId, column))
    (hIndex : IndexesHistory db (truncateU32 rowId)) :
    UserRemoved db batch (n + 1) rowId ↔ RemovesCleanly db entry rowId := by
  obtain ⟨rowId', validFrom, hAccepted⟩ : ∃ rowId validFrom,
      RemoveAccepted db (n + 1) entry rowId validFrom batch := by
    refine holds_of_dispatch ?_ hStep
    rw [hType]
    exact removeUserOp_returns hDb
  obtain ⟨kv, hkv, column, hKey⟩ := hRow
  obtain ⟨column', hKey'⟩ := hAccepted.row kv hkv
  obtain rfl := (cell_unique hKey hKey').2.1
  exact hAccepted.userRemoved_iff hIndex

/-! ## Removals on a new space -/

/-- Whether a key is a cell or an index entry of the history. -/
def isHistoryKey (key : Bytes) : Bool :=
  match parseKey key with
  | .ok (.column table _ _) => table = keyHistoryTable
  | .ok (.index table _ _ _) => table = keyHistoryTable
  | _ => false

/-- Without history the index is right. -/
theorem indexesHistory_of_no_keys {db : Db} (h : ∀ p ∈ db.toList, isHistoryKey p.1 = false)
    (uid : Nat) : IndexesHistory db uid := by
  have hNone : ∀ key value, db[key]? = some value → isHistoryKey key = false :=
    Db.forall_stored_iff.mpr h
  intro rowId hIn
  constructor
  · rintro ⟨key, value, element, hGet, _, hParse⟩
    have hKey := hNone key value hGet
    simp [isHistoryKey, hParse] at hKey
  · intro hUid
    obtain ⟨value, hGet, _⟩ := Option.bind_eq_some_iff.mp hUid
    have hKey := hNone _ value hGet
    simp [isHistoryKey, parseKey_columnKey hIn] at hKey

/-- User 1 removes user 2, whose key is valid from a change on; `userKey` gives the keys
of the row. -/
def sampleRemoval (parent : Nat) (authKey : UInt8) (validFrom : Int) (userKey : String → Bytes) :
    ChangelogEntry :=
  sampleEntry .removeUser 1 parent 2
    ([ { key := columnKeyPlaceholder keyHistoryTable "old_auth_key", value := hashCell authKey },
       { key := columnKeyPlaceholder keyHistoryTable "uid", value := i64ToValueBytes 2 },
       { key := columnKeyPlaceholder keyHistoryTable "valid_from_change_id",
         value := i64ToValueBytes validFrom },
       { key := columnKeyPlaceholder keyHistoryTable "valid_to_change_id",
         value := i64ToValueBytes 0 } ] ++
      usersColumns.map fun column => { key := userKey column, value := [] })

def sampleRemove : (String → Bytes) → ChangelogEntry := sampleRemoval 2 2 0

/-- With the keys under which the row is stored, the user is removed. -/
theorem sampleRemove_removes : ∃ db batch, Reachable noRules 2 db ∧
    (dispatchExtractAndValidate 3 (sampleRemove (columnKey usersTable 2))).eval
      (plain noRules db.reader) = .ok batch ∧ UserRemoved db batch 3 2 := by
  obtain ⟨db, hRun, batch, hStep, hNoKeys, hKeys, hFresh⟩ : ∃ db, sampleRun = .ok db ∧ ∃ batch,
      Accepts noRules 3 db (sampleRemove (columnKey usersTable 2)) batch ∧
      (∀ p ∈ db.toList, isHistoryKey p.1 = false) ∧
      (RowKeys db usersTable 2 fun key _ =>
        key ∈ (userKvs (sampleRemove (columnKey usersTable 2))).map KvData.key) ∧
      NoRow db keyHistoryTable (db.nextId keyHistoryTable) := by
    decide +kernel
  have hReach := sampleRun_reachable hRun
  have hClean : RemovesCleanly db (sampleRemove (columnKey usersTable 2)) 2 :=
    { keys := hKeys
      userId := by decide
      authKey := by decide +kernel
      starts := by decide +kernel
      columns := by decide +kernel
      fresh := hFresh }
  refine ⟨db, batch, hReach, hStep, ?_⟩
  refine (removeUser_removes_iff hReach rfl hStep ?_ ?_).mpr hClean
  · exact ⟨⟨columnKey usersTable 2 "auth_key", []⟩, by decide +kernel, "auth_key",
      by decide +kernel⟩
  · exact indexesHistory_of_no_keys hNoKeys _

/-- A key of row 2 with a leading zero in the row id. -/
def paddedUserKey (column : String) : Bytes :=
  encodeTuple [.string tagRow, .string usersTable] ++ [0x16, 0x00, 0x02] ++
    encodeTuple [.string column]

/-- With padded keys the entry is accepted as well, and the row of user 2 stays. -/
theorem removeUser_keeps_row : ∃ db batch, Reachable noRules 2 db ∧
    (dispatchExtractAndValidate 3 (sampleRemove paddedUserKey)).eval (plain noRules db.reader) =
      .ok batch ∧
    (db.applyBatch batch)[columnKey usersTable 2 "auth_key"]? = some (hashCell 2) ∧
    ¬ UserRemoved db batch 3 2 := by
  obtain ⟨db, hRun, batch, hStep, hKept⟩ : ∃ db, sampleRun = .ok db ∧ ∃ batch,
      Accepts noRules 3 db (sampleRemove paddedUserKey) batch ∧
      (db.applyBatch batch)[columnKey usersTable 2 "auth_key"]? = some (hashCell 2) := by
    decide +kernel
  refine ⟨db, batch, sampleRun_reachable hRun, hStep, hKept, fun hRemoved => ?_⟩
  exact hRemoved.gone _ _ hKept "auth_key" (parsedColumn?_columnKey _ _ (by decide))

end EncryptedSpaces.Ops
