import EncryptedSpaces.Ops.HistoryRows
import EncryptedSpaces.Ops.InviteUser

/-!
# Accepted RemoveUser and RefreshKeys entries

What an accepted entry of either type was checked for, and what its batch writes
to `_users` and `_key_history`, key by key.
-/

namespace EncryptedSpaces.Ops

open Encoding Changelog Lib Prog List

/-! ## Writes under the entry's own keys -/

theorem written_deletes (keys : List Bytes) (key : Bytes) :
    written (keys.map .delete) key = if key ∈ keys then some none else none := by
  induction keys with
  | nil => simp
  | cons k keys ih =>
    rw [map_cons, written_cons, ih]
    by_cases hRest : key ∈ keys
    · simp [hRest]
    · by_cases hKey : k = key
      · simp [hRest, hKey, BatchOp.key, BatchOp.write]
      · simp [hRest, hKey, Ne.symm hKey, BatchOp.key]

/-- The last kv under a key. -/
def rawValue (kvs : List KvData) (key : Bytes) : Option Bytes :=
  (kvs.reverse.find? fun kv => decide (kv.key = key)).map KvData.value

theorem written_rawPuts (kvs : List KvData) (key : Bytes) :
    written (kvs.map fun kv => kv.toBatchOp kv.key) key = (rawValue kvs key).map some := by
  unfold written rawValue WriteLog.lookup
  rw [map_map, ← map_reverse, find?_map, Option.map_map, Option.map_map]
  rfl

theorem HistoryWritten.sortBatch {db : Db} {kvs : List KvData} {uid : Nat}
    {stored : String → Bytes → Bytes} {batch : Batch} (h : HistoryWritten db kvs uid stored batch) :
    HistoryWritten db kvs uid stored (sortBatch batch) where
  nonneg := h.nonneg
  inI64 := h.inI64
  cell column := by rw [written_sortBatch, h.cell]
  frame key rowId column hKey hNe := by rw [written_sortBatch, h.frame key rowId column hKey hNe]
  index key hFront := by rw [written_sortBatch, h.index key hFront]
  counter := by rw [written_sortBatch, h.counter]

theorem touches_rebuilt {keys : List Bytes} {kvs : List KvData} {rowId : Int}
    {put : Bytes × KvData → BatchOp} (hPutKey : ∀ p, (put p).key = p.1)
    (hKeys : List.Forall₂ (Rebuilt rowId) kvs keys)
    (hTable : ∀ kv ∈ kvs, IsColumnOf keyHistoryTable kv.key) :
    Touches (· = keyHistoryTable) ((keys.zip kvs).map put) := by
  refine touches_of_forall keyHistoryTable (fun op hOp => ?_) rfl
  obtain ⟨column, _, hKey⟩ := mem_rebuilt hPutKey hKeys hTable hOp
  rw [hKey]
  exact tableKey_columnKey _ _ _

theorem touches_historyTail (uid : Nat) (rowId : Int) :
    Touches (· = keyHistoryTable) (historyTail uid rowId) := by
  refine touches_of_forall keyHistoryTable (fun op hOp => ?_) rfl
  rcases mem_pair.mp hOp with rfl | rfl
  · exact tableKey_indexKey _ _ _ _
  · exact tableKey_nextIdKey _

/-- Neither the entry's history cells nor what follows them are `_users` cells. -/
theorem written_rebuilt_users (entry : ChangelogEntry) {keys : List Bytes} {rowId : Int}
    (hKeys : List.Forall₂ (Rebuilt rowId) (historyKvs entry) keys)
    {put : Bytes × KvData → BatchOp} (hPutKey : ∀ p, (put p).key = p.1) {key : Bytes}
    (hKey : TableKey usersTable key) (uid : Nat) :
    written ((keys.zip (historyKvs entry)).map put) key = none ∧
      written (historyTail uid rowId) key = none :=
  ⟨(touches_rebuilt hPutKey hKeys (isColumnOf_of_eq_tableKvs rfl)).written_tableKey hKey
      (by decide) (by decide),
    (touches_historyTail _ _).written_tableKey hKey (by decide) (by decide)⟩

/-- Operations on the entry's own `_users` keys. -/
theorem touches_userKvs (entry : ChangelogEntry) {op : KvData → BatchOp}
    (hKey : ∀ kv, (op kv).key = kv.key) : Touches (· = usersTable) ((userKvs entry).map op) := by
  refine touches_of_forall usersTable (fun op' hOp => ?_) rfl
  obtain ⟨kv, hkv, rfl⟩ := mem_map.mp hOp
  rw [hKey]
  exact (isColumnOf_of_eq_tableKvs rfl kv hkv).tableKey

/-! ## RemoveUser -/

/-- What RemoveUser stores for a cell of the entry. -/
def storedRemoval (validTo : Int) (column : String) (bytes : Bytes) : Bytes :=
  if column = "valid_to_change_id" then i64ToValueBytes validTo else bytes

/-- An accepted RemoveUser entry, for the row that its `_users` keys name. -/
structure RemoveAccepted (db : Db) (changeId : Nat) (entry : ChangelogEntry)
    (rowId validFrom : Int) (batch : Batch) : Prop where
  positive : 0 < changeId
  nonempty : userKvs entry ≠ []
  row : ∀ kv ∈ userKvs entry, ∃ column, parsedColumn? kv.key = some (usersTable, rowId, column)
  columns : columnNamesFromKeys ((userKvs entry).map KvData.key) = usersColumns
  checked : HistoryChecked db (historyKvs entry) (truncateU32 rowId) validFrom
    ((changeId - 1 : Nat) : Int)
  history : HistoryWritten db (historyKvs entry) (truncateU32 rowId)
    (storedRemoval ((changeId - 1 : Nat) : Int)) batch
  users : ∀ key, TableKey usersTable key →
    written batch key = if key ∈ (userKvs entry).map KvData.key then some none else none

theorem truncateU32_lt (i : Int) : truncateU32 i < 2 ^ 63 := by
  unfold truncateU32
  omega

section Remove

variable {codec : RuleCodec} {db : Db} {n changeId : Nat} {entry : ChangelogEntry}

theorem removeUserCell_columnKey {validTo rowId : Int} {kv : KvData} {column : String}
    (hIn : InI64 rowId) :
    removeUserCell validTo (columnKey keyHistoryTable rowId column) kv =
      .put (columnKey keyHistoryTable rowId column) (storedRemoval validTo column kv.value) := by
  unfold removeUserCell storedRemoval
  rw [parsedColumn?_columnKey _ _ hIn]
  by_cases hColumn : column = "valid_to_change_id"
  · simp [hColumn]
  · simp [hColumn, KvData.toBatchOp]

theorem removeUserOp_returns (hDb : Reachable codec n db) :
    (removeUserOp changeId entry).Returns (FromDb codec db) fun batch =>
      ∃ rowId validFrom, RemoveAccepted db changeId entry rowId validFrom batch := by
  refine (returns_lift partitionFrom_eq_ok).bind fun parts hParts => ?_
  rw [hParts.keyHistory, hParts.users, hParts.retention]
  refine returns_skip fun _ => ?_
  refine returns_ensure.bind fun _ hNonempty => ?_
  refine returns_ensure.bind fun _ hPositive => ?_
  refine (returns_lift validateConsistentColumnKeyRowId_eq_ok).bind
    fun ⟨userTable, rowId⟩ hRow => ?_
  refine returns_ensure.bind fun _ hUsers => ?_
  subst hUsers
  refine returns_skip fun _ => ?_
  refine (hDb.readSchemaColumns_returns usersSchema_mem).bind fun columns hColumns => ?_
  refine returns_ensure.bind fun _ hActual => ?_
  rw [hColumns, btreeSet_usersColumns] at hActual
  refine readNextId_fromDb.bind fun hid hHid => ?_
  obtain ⟨rfl, hIn⟩ := hHid
  refine (returns_lift deriveColumnKeysWithRowId_eq_ok).bind
    fun keys hKeys => ?_
  refine (returns_lift (validateKeyHistoryEntries_eq_ok hIn hKeys)).bind
    fun _ hCells => ?_
  refine (returns_lift extractI64FromKhEntries_eq_ok.mp).bind
    fun validFrom hFrom => ?_
  refine returns_ensure.bind fun _ hLe => ?_
  refine requireOldAuthKey_fromDb.bind fun _ hAuth => ?_
  refine readKhRangesIndexed_fromDb.bind fun existing hExisting => ?_
  refine (returns_lift validateKhRange_eq_ok).bind fun _ hFollows => ?_
  have hChecked : HistoryChecked db (historyKvs entry) (truncateU32 rowId) validFrom
      ((changeId - 1 : Nat) : Int) :=
    ⟨hCells.1, hCells.2, hAuth, hFrom, hLe, hFollows.congr hExisting⟩
  refine (keyHistoryIndexPuts_fromDb hDb (hChecked.uid_stored (truncateU32_lt rowId))).bind
    fun indexPuts hIndex => ?_
  refine (optionalRetentionPuts_touches (L := ListKey) (isColumnOf_of_eq_tableKvs rfl)).bind
    fun retention hRetention => ?_
  obtain ⟨hNonneg, hSucc, rfl⟩ := hIndex
  have hTable : ∀ kv ∈ historyKvs entry, IsColumnOf keyHistoryTable kv.key :=
    isColumnOf_of_eq_tableKvs rfl
  have hDeletes : Touches (fun t => t = usersTable ∨ t = retentionTable)
      (((userKvs entry).map KvData.key).map .delete) := by
    rw [map_map]
    exact (touches_userKvs entry fun _ => rfl).mono fun t ht => .inl ht
  have hRetention' : Touches (fun t => t = usersTable ∨ t = retentionTable) retention :=
    hRetention.mono fun t ht => .inr ht.1
  refine returns_ret ⟨rowId, validFrom, hPositive, hNonempty, ?_, hActual, hChecked, ?_, ?_⟩
  · intro kv hkv
    exact hRow kv.key (mem_map_of_mem hkv)
  · refine HistoryWritten.sortBatch ?_
    have hWritten : HistoryWritten db (historyKvs entry) (truncateU32 rowId)
        (storedRemoval ((changeId - 1 : Nat) : Int))
          (((userKvs entry).map KvData.key).map .delete ++
          ((keys.zip (historyKvs entry)).map fun p => removeUserCell _ p.1 p.2) ++ [] ++ _ ++
          retention) :=
      historyWritten_of_parts (by decide) hDeletes touches_nil hRetention'
        (fun kv column => removeUserCell_columnKey hIn) (fun p => removeUserCell_key _ p.1 p.2)
        hTable hKeys hNonneg hSucc
    rw [append_nil] at hWritten
    exact hWritten
  · intro key hKey
    obtain ⟨hCellsNone, hTailNone⟩ := written_rebuilt_users entry hKeys
      (fun p => removeUserCell_key ((changeId - 1 : Nat) : Int) p.1 p.2) hKey (truncateU32 rowId)
    rw [written_sortBatch]
    change written (((userKvs entry).map KvData.key).map .delete ++
      ((keys.zip (historyKvs entry)).map fun p => removeUserCell _ p.1 p.2) ++ _ ++
        retention) key = _
    rw [written_append, written_append, written_append, hCellsNone, hTailNone,
      hRetention.written_tableKey hKey (fun h => absurd h.1 (by decide)) (by decide),
      written_deletes]
    simp only [Option.none_or]

end Remove

/-! ## RefreshKeys -/

/-- An accepted RefreshKeys entry. -/
structure RefreshAccepted (db : Db) (entry : ChangelogEntry) (validFrom : Int) (batch : Batch) :
    Prop where
  checked : HistoryChecked db (historyKvs entry) entry.uid validFrom entry.sigRef
  ends : (firstValue (historyKvs entry) "valid_to_change_id").bind parseI64ColumnValue =
    some (entry.sigRef : Int)
  history : HistoryWritten db (historyKvs entry) entry.uid (fun _ bytes => bytes) batch
  users : ∀ key, TableKey usersTable key →
    written batch key = (rawValue (userKvs entry) key).map some

section Refresh

variable {codec : RuleCodec} {db : Db} {n : Nat} {entry : ChangelogEntry}

theorem refreshKeysOp_returns (hDb : Reachable codec n db) (hUid : entry.uid < 2 ^ 63) :
    (refreshKeysOp entry).Returns (FromDb codec db) fun batch =>
      ∃ validFrom, RefreshAccepted db entry validFrom batch := by
  refine returns_skip fun _ => ?_
  refine (returns_lift partitionFrom_eq_ok).bind fun parts hParts => ?_
  rw [hParts.keyHistory, hParts.users]
  iterate 4 refine returns_skip fun _ => ?_
  refine readNextId_fromDb.bind fun hid hHid => ?_
  obtain ⟨rfl, hIn⟩ := hHid
  refine (returns_lift deriveColumnKeysWithRowId_eq_ok).bind
    fun keys hKeys => ?_
  refine (returns_lift (validateKeyHistoryEntries_eq_ok hIn hKeys)).bind
    fun _ hCells => ?_
  iterate 3 refine returns_skip fun _ => ?_
  refine (returns_lift extractI64FromKhEntries_eq_ok.mp).bind
    fun validTo hTo => ?_
  refine returns_ensure.bind fun _ hSigRef => ?_
  subst hSigRef
  refine (returns_lift extractI64FromKhEntries_eq_ok.mp).bind
    fun validFrom hFrom => ?_
  refine returns_ensure.bind fun _ hLe => ?_
  refine requireOldAuthKey_fromDb.bind fun _ hAuth => ?_
  refine readKhRangesIndexed_fromDb.bind fun existing hExisting => ?_
  refine (returns_lift validateKhRange_eq_ok).bind fun _ hFollows => ?_
  have hChecked : HistoryChecked db (historyKvs entry) entry.uid validFrom entry.sigRef :=
    ⟨hCells.1, hCells.2, hAuth, hFrom, hLe, hFollows.congr hExisting⟩
  refine (keyHistoryIndexPuts_fromDb hDb (hChecked.uid_stored hUid)).bind
    fun indexPuts hIndex => ?_
  obtain ⟨hNonneg, hSucc, rfl⟩ := hIndex
  have hTable : ∀ kv ∈ historyKvs entry, IsColumnOf keyHistoryTable kv.key :=
    isColumnOf_of_eq_tableKvs rfl
  refine returns_ret ⟨validFrom, hChecked, hTo, ?_, ?_⟩
  · refine HistoryWritten.sortBatch ?_
    have hWritten : HistoryWritten db (historyKvs entry) entry.uid (fun _ bytes => bytes)
        ([] ++ ((keys.zip (historyKvs entry)).map fun p => p.2.toBatchOp p.1) ++
          ((userKvs entry).map fun kv => kv.toBatchOp kv.key) ++ _ ++ []) :=
      historyWritten_of_parts (by decide) touches_nil (touches_userKvs entry fun _ => rfl) touches_nil (fun _ _ => rfl)
        (fun _ => rfl) hTable hKeys hNonneg hSucc
    rw [append_nil, nil_append] at hWritten
    exact hWritten
  · intro key hKey
    obtain ⟨hCellsNone, hTailNone⟩ := @written_rebuilt_users entry keys _ hKeys
      (fun p => p.2.toBatchOp p.1) (fun _ => rfl) key hKey entry.uid
    rw [written_sortBatch]
    change written (((keys.zip (historyKvs entry)).map fun p => p.2.toBatchOp p.1) ++
      ((userKvs entry).map fun kv => kv.toBatchOp kv.key) ++ _) key = _
    rw [written_append, written_append, hCellsNone, hTailNone, written_rawPuts]
    simp only [Option.none_or, Option.or_none]

end Refresh

end EncryptedSpaces.Ops
