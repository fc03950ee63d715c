import EncryptedSpaces.Ops.DerivedRows
import EncryptedSpaces.Ops.RefreshKeys

/-!
# The row of an invited user

InviteUser requires the first `status` cell of its entry to be provisional, and
stores the last one.  The entry of an invitation is not required to be sorted, so
it may name the column twice.
-/

namespace EncryptedSpaces.Ops

open Encoding Changelog Lib Prog Lib.Except

/-- The columns of `_users` beside the id. -/
def usersColumns : List String := ["auth_key", "status", "update_key"]

/-- The schema entry of `_users`. -/
def usersSchema : TableSchema where
  name := usersTable
  columns := ["update_key", "auth_key", "status"]
  indexed := []
  autoIncrement := true

theorem usersSchema_mem : usersSchema ∈ internalSchemas := List.mem_cons_self

theorem btreeSet_usersColumns : btreeSet usersSchema.columns = usersColumns := by decide

/-- A complete `_users` row whose status is provisional. -/
structure ProvisionalRow (db : Db) (uid : Int) : Prop where
  row : ExactRow db usersTable uid usersColumns
  status : (db[columnKey usersTable uid "status"]?).bind parseI64ColumnValue = some 0

/-- The `_users` part of an entry. -/
def userKvs (entry : ChangelogEntry) : List KvData := tableKvs entry.message.entries usersTable

section Invite

variable {codec : RuleCodec} {db : Db} {n : Nat} {entry : ChangelogEntry}

/-- The batch of an accepted invitation: a row for the next user id with all
columns, and writes that are no cells of `_users`. -/
def InviteWrites (db : Db) (entry : ChangelogEntry) (batch : Batch) : Prop :=
  ∃ keys rest, InI64 (db.nextId usersTable) ∧
    columnNamesFromKeys ((userKvs entry).map KvData.key) = usersColumns ∧
    List.Forall₂ (Rebuilt (db.nextId usersTable)) (userKvs entry) keys ∧
    (∀ key rowId column, parsedColumn? key = some (usersTable, rowId, column) →
      written rest key = none) ∧
    batch = sortBatch (((keys.zip (userKvs entry)).map fun p => p.2.toBatchOp p.1) ++ rest)

theorem requireUserColumns_returns (hDb : Reachable codec n db) {opName : String}
    {kvs : List KvData} :
    (requireUserColumns opName kvs).Returns (FromDb codec db) fun _ =>
      columnNamesFromKeys (kvs.map KvData.key) = usersColumns := by
  refine (hDb.readSchemaColumns_returns usersSchema_mem).bind fun columns hColumns => ?_
  refine returns_ensure.mono fun _ hActual => ?_
  rw [hActual, hColumns, btreeSet_usersColumns]

theorem userInsertPuts_returns {opName : String} {kvs : List KvData} :
    (userInsertPuts opName kvs).Returns (FromDb codec db) fun batch => ∃ keys,
      InI64 (db.nextId usersTable) ∧ InI64 (db.nextId usersTable + 1) ∧
        List.Forall₂ (Rebuilt (db.nextId usersTable)) kvs keys ∧
        batch = ((keys.zip kvs).map fun p => p.2.toBatchOp p.1) ++
          [nextIdPut usersTable (db.nextId usersTable + 1)] := by
  refine readNextId_fromDb.bind fun uid hUid => ?_
  obtain ⟨rfl, hIn⟩ := hUid
  refine (returns_lift deriveColumnKeysWithRowId_eq_ok).bind
    fun keys hKeys => ?_
  refine (returns_lift nextIdAfter_eq_ok.mp).bind fun next hNext => ?_
  obtain ⟨rfl, hSucc⟩ := hNext
  exact returns_ret ⟨keys, hIn, hSucc, hKeys, rfl⟩

/-- The counter of `_users` moves on. -/
def CountsUser (db : Db) (batch : Batch) : Prop :=
  InI64 (db.nextId usersTable + 1) ∧ written batch (schemaNextIdKey usersTable) =
    some (some (i64ToBeBytes (db.nextId usersTable + 1)))

/-- The writes of the new row, its counter and the optional retention rows. -/
theorem userRowPuts_returns {opName : String} {texts : RetentionTexts}
    (hColumns : columnNamesFromKeys ((userKvs entry).map KvData.key) = usersColumns) :
    (userRowPuts opName texts (userKvs entry)
      (tableKvs entry.message.entries retentionTable)).Returns (FromDb codec db) fun batch =>
      InviteWrites db entry batch ∧ CountsUser db batch := by
  refine userInsertPuts_returns.bind fun userPuts hUsers => ?_
  refine (optionalRetentionPuts_touches (L := ListKey) (isColumnOf_of_eq_tableKvs rfl)).bind
    fun retention hRetention => ?_
  obtain ⟨keys, hIn, hSucc, hKeys, rfl⟩ := hUsers
  have hNot : ¬ (usersTable = retentionTable ∧
      tableKvs entry.message.entries retentionTable ≠ []) :=
        fun hTable => absurd hTable.1 (by decide)
  refine returns_ret ⟨⟨keys, nextIdPut usersTable (db.nextId usersTable + 1) :: retention, hIn,
    hColumns, hKeys, fun key rowId column hKey => ?_, ?_⟩, hSucc, ?_⟩
  · have hNext : (nextIdPut usersTable (db.nextId usersTable + 1)).key ≠ key :=
      schemaNextIdKey_ne hKey
    rw [written_cons, if_neg hNext, Option.or_none]
    exact hRetention.written_eq_none hKey hNot
  · rw [List.append_assoc]
    rfl
  · rw [written_sortBatch, written_append,
      hRetention.written_tableKey (tableKey_nextIdKey usersTable) hNot (by decide), Option.none_or,
      written_append, written_cons, written_nil]
    simp [nextIdPut, BatchOp.key, BatchOp.write]

theorem inviteUserOp_returns (hDb : Reachable codec n db) :
    (inviteUserOp entry).Returns (FromDb codec db) fun batch =>
      InviteWrites db entry batch ∧ CountsUser db batch := by
  refine (returns_lift partitionFrom_eq_ok).bind fun parts hParts => ?_
  iterate 3 refine returns_skip fun _ => ?_
  rw [hParts.users, hParts.retention]
  refine (requireUserColumns_returns hDb).bind fun _ hColumns => ?_
  iterate 2 refine returns_skip fun _ => ?_
  exact userRowPuts_returns hColumns

/-- The first user's row is written in the same way. -/
theorem createSpaceOp_returns (hDb : Reachable codec n db) :
    (createSpaceOp entry).Returns (FromDb codec db) fun batch =>
      InviteWrites db entry batch ∧ CountsUser db batch := by
  refine (returns_lift partitionFrom_eq_ok).bind fun parts hParts => ?_
  iterate 4 refine returns_skip fun _ => ?_
  rw [hParts.users, hParts.retention]
  refine (requireUserColumns_returns hDb).bind fun _ hColumns => ?_
  exact userRowPuts_returns hColumns

variable {batch : Batch}

/-- What the batch writes under a `_users` key. -/
theorem InviteWrites.written_eq (h : InviteWrites db entry batch) {key : Bytes} {rowId : Int}
    {column : String} (hKey : parsedColumn? key = some (usersTable, rowId, column)) :
    written batch key =
      if key = columnKey usersTable (db.nextId usersTable) column then
        (inlineValue (userKvs entry) column).map some
      else none := by
  obtain ⟨keys, rest, hIn, _, hKeys, hRest, rfl⟩ := h
  have hTable : ∀ kv ∈ userKvs entry, IsColumnOf usersTable kv.key := isColumnOf_of_eq_tableKvs rfl
  rw [written_sortBatch, written_append, hRest key rowId column hKey, Option.none_or]
  split
  · rename_i hEq
    rw [hEq]
    exact written_rebuilt (fun _ bytes => bytes) (fun _ _ => rfl) hIn hKeys hTable column
  · rename_i hNe
    refine written_eq_none_iff.mpr fun op hOp hEq => hNe ?_
    obtain ⟨column', _, hOpKey⟩ := mem_rebuilt (fun _ => rfl) hKeys hTable hOp
    rw [← hEq, hOpKey] at hKey ⊢
    rw [(columnKey_cell hIn hKey).2.2]

/-- The new row is complete and provisional exactly if the last `status` cell is,
and nothing but the columns of the schema was stored under the new id before. -/
theorem InviteWrites.provisionalRow_iff (h : InviteWrites db entry batch) :
    ProvisionalRow (db.applyBatch batch) (db.nextId usersTable) ↔
      (inlineValue (userKvs entry) "status").bind parseI64ColumnValue = some 0 ∧
        OnlyColumns db usersTable (db.nextId usersTable) usersColumns := by
  obtain ⟨_, _, hIn, hColumns, _⟩ := id h
  have hCell : ∀ column ∈ usersColumns, ∃ bytes, inlineValue (userKvs entry) column = some bytes ∧
      (db.applyBatch batch)[columnKey usersTable (db.nextId usersTable) column]? = some bytes := by
    intro column hColumn
    rw [← hColumns] at hColumn
    obtain ⟨bytes, hBytes⟩ := Option.isSome_iff_exists.mp (inlineValue_isSome_iff.mpr hColumn)
    refine ⟨bytes, hBytes, ?_⟩
    rw [Db.getElem?_applyBatch, h.written_eq (parsedColumn?_columnKey _ _ hIn), if_pos rfl, hBytes]
    rfl
  obtain ⟨status, hStatus, hStored⟩ := hCell "status" (by decide)
  constructor
  · rintro ⟨hRow, hZero⟩
    rw [hStored] at hZero
    refine ⟨hStatus ▸ hZero, fun key value hGet column hKey => ?_⟩
    by_cases hEq : key = columnKey usersTable (db.nextId usersTable) column
    · by_cases hColumn : column ∈ usersColumns
      · exact ⟨hColumn, hEq⟩
      · -- the batch leaves the cell of another column alone
        have hNone : inlineValue (userKvs entry) column = none := by
          rw [← Option.not_isSome_iff_eq_none, inlineValue_isSome_iff, hColumns]
          exact hColumn
        have hKept : (db.applyBatch batch)[key]? = some value := by
          rw [Db.getElem?_applyBatch, h.written_eq hKey, if_pos hEq, hNone]
          exact hGet
        exact hRow.only key value hKept column hKey
    · have hKept : (db.applyBatch batch)[key]? = some value := by
        rw [Db.getElem?_applyBatch, h.written_eq hKey, if_neg hEq]
        exact hGet
      exact hRow.only key value hKept column hKey
  · rintro ⟨hZero, hOnly⟩
    refine ⟨⟨fun column hColumn => ?_, fun key value hGet column hKey => ?_⟩, ?_⟩
    · obtain ⟨bytes, _, hGet⟩ := hCell column hColumn
      rw [hGet]
      rfl
    · rw [Db.getElem?_applyBatch, h.written_eq hKey] at hGet
      split_ifs at hGet with hEq
      · cases hInline : inlineValue (userKvs entry) column with
        | some bytes =>
          have hColumn := inlineValue_isSome_iff.mp (Option.isSome_of_eq_some hInline)
          exact ⟨hColumns ▸ hColumn, hEq⟩
        | none =>
          rw [hInline] at hGet
          exact hOnly key value hGet column hKey
      · exact hOnly key value hGet column hKey
    · rw [hStored]
      rw [hStatus] at hZero
      exact hZero

end Invite

/-- An accepted invitation leaves a complete provisional row under the new user id
if and only if the last `status` cell of the entry is provisional and nothing but
columns of the schema was stored under that id. -/
theorem inviteUser_provisional_iff {codec : RuleCodec} {db : Db} {n : Nat}
    {entry : ChangelogEntry} {batch : Batch} (hDb : Reachable codec n db)
    (hType : entry.message.opType = .inviteUser)
    (hStep : (dispatchExtractAndValidate (n + 1) entry).eval (plain codec db.reader) = .ok batch) :
    ProvisionalRow (db.applyBatch batch) (db.nextId usersTable) ↔
      (inlineValue (userKvs entry) "status").bind parseI64ColumnValue = some 0 ∧
        OnlyColumns db usersTable (db.nextId usersTable) usersColumns := by
  have hWrites : InviteWrites db entry batch ∧ CountsUser db batch := by
    refine holds_of_dispatch ?_ hStep
    rw [hType]
    exact inviteUserOp_returns hDb
  exact hWrites.1.provisionalRow_iff

/-! ## Invitations on a new space -/

/-- The invitation with one `status` cell. -/
theorem sampleInvite_provisional : ∃ db batch, Reachable noRules 1 db ∧
    (dispatchExtractAndValidate 2 sampleInvite).eval (plain noRules db.reader) = .ok batch ∧
    ProvisionalRow (db.applyBatch batch) (db.nextId usersTable) := by
  obtain ⟨db, hCreate, batch, hStep, hOnly⟩ :
    ∃ db, runEntry noRules 1 sampleCreate internalDb = .ok db ∧
      ∃ batch, Accepts noRules 2 db sampleInvite batch ∧
        OnlyColumns db usersTable (db.nextId usersTable) usersColumns := by
    decide +kernel
  have hReach := (Reachable.init .internal).runEntry hCreate
  have hRow := (inviteUser_provisional_iff hReach rfl hStep).mpr ⟨by decide +kernel, hOnly⟩
  exact ⟨db, batch, hReach, hStep, hRow⟩

/-- An invitation with a second `status` cell, for a full member. -/
def doubleStatusInvite : ChangelogEntry :=
  sampleEntry .inviteUser 1 1 1
    (sampleUser 2 0 ++ [{ key := columnKeyPlaceholder usersTable "status",
                          value := i64ToValueBytes 1 }])

/-- It is accepted, and the invited user is no longer provisional. -/
theorem inviteUser_stores_full_member : ∃ db batch, Reachable noRules 1 db ∧
    (dispatchExtractAndValidate 2 doubleStatusInvite).eval (plain noRules db.reader) = .ok batch ∧
    (db.applyBatch batch)[columnKey usersTable (db.nextId usersTable) "status"]? =
      some (i64ToValueBytes 1) ∧
    ¬ ProvisionalRow (db.applyBatch batch) (db.nextId usersTable) := by
  obtain ⟨db, hCreate, batch, hStep, hFull⟩ :
    ∃ db, runEntry noRules 1 sampleCreate internalDb = .ok db ∧
      ∃ batch, Accepts noRules 2 db doubleStatusInvite batch ∧
        (db.applyBatch batch)[columnKey usersTable (db.nextId usersTable) "status"]? =
          some (i64ToValueBytes 1) := by
    decide +kernel
  refine ⟨db, batch, (Reachable.init .internal).runEntry hCreate, hStep, hFull, fun hRow => ?_⟩
  have hStatus := hRow.status
  rw [hFull] at hStatus
  exact absurd hStatus (by decide +kernel)

end EncryptedSpaces.Ops
