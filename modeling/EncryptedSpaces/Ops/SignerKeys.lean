import EncryptedSpaces.Ops.HistoryRun

/-!
# The keys that signed the changes of a run

A change is signed with the auth key that `_users` holds for its signer just
before.  The signer's key changes only at the signer's own rotation or at the
removal of the user, and either files the old key in `_key_history`.  So after a
run the key of every change is found in the history or is still current
(`KeyFound`), as long as no user removes the own row.
-/

namespace EncryptedSpaces.Ops

open Encoding Changelog Lib List Option

/-- The stored auth key of a user. -/
def Db.authKey (db : Db) (uid : Nat) : Option Bytes := db[columnKey usersTable uid "auth_key"]?

/-- What entries must keep to; `good` is what is required of a cell of `_users`. -/
structure KeepsKeys (good : String → Bytes → Prop) (entry : ChangelogEntry) : Prop where
  retires : RetiresCleanly entry
  columns : ∀ column ∈ columnNamesFromKeys ((historyKvs entry).map KvData.key),
    column ∈ keyHistoryRequiredColumns
  cells : entry.message.opType ≠ .removeUser → ∀ kv ∈ userKvs entry, ∀ column,
    (parsedColumn? kv.key).map (·.2.2) = some column → good column kv.value
  ownRow : entry.message.opType = .refreshKeys → ∀ kv ∈ userKvs entry, ∃ column,
    kv.key = columnKey usersTable entry.uid column
  staysMember : entry.message.opType = .removeUser → ∀ kv ∈ userKvs entry, ∀ rowId column,
    parsedColumn? kv.key = some (usersTable, rowId, column) → rowId ≠ entry.uid

/-! ## Cells of users -/

/-- Cells of `_users` are canonical, below the counter and good. -/
def UsersInv (good : String → Bytes → Prop) (db : Db) : Prop :=
  ∀ key value, db[key]? = some value → ∀ rowId column,
    parsedColumn? key = some (usersTable, rowId, column) →
    key = columnKey usersTable rowId column ∧ rowId < db.nextId usersTable ∧ good column value

theorem rawValue_eq_some {kvs : List KvData} {key value : Bytes}
    (h : rawValue kvs key = some value) :
    ∃ kv ∈ kvs, kv.key = key ∧ kv.value = value := by
  obtain ⟨kv, hFind, rfl⟩ := map_eq_some_iff.mp h
  exact ⟨kv, mem_reverse.mp (mem_of_find?_eq_some hFind),
    of_decide_eq_true (find?_some (p := fun kv : KvData => decide (kv.key = key)) hFind), rfl⟩

theorem rawValue_eq_none {kvs : List KvData} {key : Bytes} (h : ∀ kv ∈ kvs, kv.key ≠ key) :
    rawValue kvs key = none := by
  simpa [rawValue] using h

theorem inI64_uid {uid : Nat} (h : uid < 2 ^ 32) : InI64 (uid : Int) := by
  unfold InI64
  omega

section Users

variable {good : String → Bytes → Prop} {db : Db} {n : Nat} {entry : ChangelogEntry}
  {batch : Batch} {uid : Nat} {cell : Bytes} {first rowId : Int}

theorem UsersInv.lt_nextId (h : UsersInv good db) (hUid : uid < 2 ^ 32)
    (hKey : db.authKey uid = some cell) : (uid : Int) < db.nextId usersTable :=
  (h _ cell hKey uid "auth_key" (parsedColumn?_columnKey _ _ (inI64_uid hUid))).2.1

theorem nextId_of_spares {table : String} (h : Spares table batch) :
    (db.applyBatch batch).nextId table = db.nextId table := by
  rw [Db.nextId, h.getElem?_applyBatch (tableKey_nextIdKey table)]
  rfl

theorem CountsUser.nextId (h : CountsUser db batch) :
    (db.applyBatch batch).nextId usersTable = db.nextId usersTable + 1 := by
  rw [Db.nextId, Db.getElem?_applyBatch, h.2]
  exact i64FromBeBytes_i64ToBeBytes h.1

/-- The counter is no column. -/
theorem nextIdKey_notMem_userKvs :
    schemaNextIdKey usersTable ∉ (userKvs entry).map KvData.key := by
  intro hMem
  obtain ⟨kv, hkv, hKey⟩ := mem_map.mp hMem
  obtain ⟨rowId, column, hParse⟩ := isColumnOf_of_eq_tableKvs rfl kv hkv
  exact schemaNextIdKey_ne hParse hKey.symm

theorem RefreshAccepted.nextId_users (h : RefreshAccepted db entry first batch) :
    (db.applyBatch batch).nextId usersTable = db.nextId usersTable := by
  have hNone : rawValue (userKvs entry) (schemaNextIdKey usersTable) = none :=
    rawValue_eq_none fun kv hkv hKey => nextIdKey_notMem_userKvs (mem_map.mpr ⟨kv, hkv, hKey⟩)
  rw [Db.nextId, Db.getElem?_applyBatch, h.users _ (tableKey_nextIdKey usersTable), hNone]
  rfl

theorem RemoveAccepted.nextId_users (h : RemoveAccepted db n entry rowId first batch) :
    (db.applyBatch batch).nextId usersTable = db.nextId usersTable := by
  rw [Db.nextId, Db.getElem?_applyBatch, h.users _ (tableKey_nextIdKey usersTable),
    if_neg nextIdKey_notMem_userKvs]
  rfl

/-- A new user's row is the only one that is written. -/
theorem InviteWrites.usersInv (h : InviteWrites db entry batch) (hCounts : CountsUser db batch)
    (hClean : KeepsKeys good entry) (hType : entry.message.opType ≠ .removeUser)
    (hInv : UsersInv good db) : UsersInv good (db.applyBatch batch) := by
  intro key value hGet rowId column hKey
  rw [hCounts.nextId]
  rw [Db.getElem?_applyBatch, h.written_eq hKey] at hGet
  obtain ⟨_, _, hIn, _⟩ := id h
  by_cases hNew : key = columnKey usersTable (db.nextId usersTable) column
  · have hRow : rowId = db.nextId usersTable := by
      rw [hNew] at hKey
      exact (columnKey_cell hIn hKey).2.1.symm
    rw [if_pos hNew] at hGet
    cases hInline : inlineValue (userKvs entry) column with
    | some bytes =>
      rw [hInline] at hGet
      obtain rfl : bytes = value := some.inj hGet
      obtain ⟨kv, hkv, hColumn, rfl⟩ := inlineValue_eq_some hInline
      exact ⟨hRow ▸ hNew, by omega, hClean.cells hType kv hkv column hColumn⟩
    | none =>
      rw [hInline] at hGet
      obtain ⟨hCanonical, hLt, hGood⟩ := hInv key value hGet rowId column hKey
      exact ⟨hCanonical, by omega, hGood⟩
  · rw [if_neg hNew] at hGet
    obtain ⟨hCanonical, hLt, hGood⟩ := hInv key value hGet rowId column hKey
    exact ⟨hCanonical, by omega, hGood⟩

theorem RefreshAccepted.usersInv (h : RefreshAccepted db entry first batch)
    (hType : entry.message.opType = .refreshKeys) (hClean : KeepsKeys good entry)
    (hUid : entry.uid < 2 ^ 32) (hInv : UsersInv good db) :
    UsersInv good (db.applyBatch batch) := by
  intro key value hGet rowId column hKey
  rw [h.nextId_users]
  rw [Db.getElem?_applyBatch, h.users key (IsColumnOf.tableKey ⟨rowId, column, hKey⟩)] at hGet
  cases hRaw : rawValue (userKvs entry) key with
  | none =>
    rw [hRaw] at hGet
    exact hInv key value hGet rowId column hKey
  | some bytes =>
    rw [hRaw] at hGet
    obtain rfl : bytes = value := some.inj hGet
    obtain ⟨kv, hkv, rfl, rfl⟩ := rawValue_eq_some hRaw
    obtain ⟨column', hOwn⟩ := hClean.ownRow hType kv hkv
    have hColumn : column' = column ∧ (entry.uid : Int) = rowId := by
      rw [hOwn] at hKey
      exact (columnKey_cell (inI64_uid hUid) hKey).2.symm
    obtain ⟨rfl, rfl⟩ := hColumn
    obtain ⟨old, _, hStored⟩ := h.checked.authKey
    have hNotRemove : entry.message.opType ≠ .removeUser := by
      rw [hType]
      decide
    exact ⟨hOwn, hInv.lt_nextId hUid hStored,
      hClean.cells hNotRemove kv hkv column' (by rw [hKey]; rfl)⟩

/-- Every step keeps the cells of `_users` in order. -/
theorem KeyStep.usersInv (h : KeyStep db n entry batch) (hClean : KeepsKeys good entry)
    (hUid : entry.uid < 2 ^ 32) (hInv : UsersInv good db) :
    UsersInv good (db.applyBatch batch) := by
  cases h with
  | rotation hType first hAccepted => exact hAccepted.usersInv hType hClean hUid hInv
  | removal hType rowId first hAccepted =>
    intro key value hGet r column hKey
    rw [hAccepted.nextId_users]
    rw [hAccepted.getElem?_users hKey] at hGet
    split at hGet
    · cases hGet
    · exact hInv key value hGet r column hKey
  | newUser hType hWrites hCounts _ =>
    refine hWrites.usersInv hCounts hClean ?_ hInv
    rcases hType with hType | hType <;> rw [hType] <;> decide
  | other _ hUsers _ =>
    intro key value hGet r column hKey
    rw [hUsers.getElem?_applyBatch (IsColumnOf.tableKey ⟨r, column, hKey⟩)] at hGet
    rw [nextId_of_spares hUsers]
    exact hInv key value hGet r column hKey

end Users

/-- The stored key of a user stays unless the user rotates it or is removed. -/
theorem KeyStep.authKey_eq {good : String → Bytes → Prop} {db : Db} {n uid : Nat}
    {entry : ChangelogEntry} {batch : Batch} {cell : Bytes} (h : KeyStep db n entry batch)
    (hInv : UsersInv good db) (hClean : KeepsKeys good entry) (hEntry : entry.uid < 2 ^ 32)
    (hUid : uid < 2 ^ 32) (hKey : db.authKey uid = some cell)
    (hRotation : entry.message.opType = .refreshKeys → entry.uid ≠ uid)
    (hRemoval : entry.message.opType = .removeUser → ∀ kv ∈ userKvs entry, ∀ rowId column,
      parsedColumn? kv.key = some (usersTable, rowId, column) → rowId ≠ uid) :
    (db.applyBatch batch).authKey uid = some cell := by
  have hParse := parsedColumn?_columnKey usersTable "auth_key" (inI64_uid hUid)
  rw [← hKey]
  unfold Db.authKey
  cases h with
  | rotation hType first hAccepted =>
    have hNone : rawValue (userKvs entry) (columnKey usersTable uid "auth_key") = none := by
      refine rawValue_eq_none fun kv hkv hOwn => ?_
      obtain ⟨column, hOwn'⟩ := hClean.ownRow hType kv hkv
      have hSame := (columnKey_inj (inI64_uid hEntry) (inI64_uid hUid) (hOwn'.symm.trans hOwn)).2.1
      exact hRotation hType (by omega)
    rw [Db.getElem?_applyBatch, hAccepted.users _ (tableKey_columnKey _ _ _), hNone]
    rfl
  | removal hType rowId first hAccepted =>
    refine hAccepted.others hParse ?_
    rintro rfl
    obtain ⟨kv, hkv⟩ := exists_mem_of_ne_nil _ hAccepted.nonempty
    obtain ⟨column, hRow⟩ := hAccepted.row kv hkv
    exact hRemoval hType kv hkv _ column hRow rfl
  | newUser hType hWrites hCounts hHistory =>
    obtain ⟨_, _, hIn, _⟩ := id hWrites
    have hOld : columnKey usersTable uid "auth_key" ≠
        columnKey usersTable (db.nextId usersTable) "auth_key" := by
      intro hEq
      have hLt := hInv.lt_nextId hUid hKey
      have hSame := (columnKey_inj (inI64_uid hUid) hIn hEq).2.1
      omega
    rw [Db.getElem?_applyBatch, hWrites.written_eq hParse, if_neg hOld]
    rfl
  | other hType hUsers hHistory => exact hUsers.getElem?_applyBatch (tableKey_columnKey _ _ _)

/-! ## Where a key is found -/

/-- A history row of the user covers a change. -/
structure Covers (db : Db) (uid : Nat) (rowId : Int) (k : Nat) : Prop where
  stored : StoredFor db uid rowId
  range : ∃ first last, db.historyInt rowId "valid_from_change_id" = some first ∧
    db.historyInt rowId "valid_to_change_id" = some last ∧ first ≤ k ∧ k ≤ last

/-- The key `cell` that signed change `k` of a user is in the history or is the stored
one. -/
inductive KeyFound (db : Db) (uid k : Nat) (opType : OpType) (sigRef : Nat) (cell : Bytes) :
    Prop where
  | rotated (hType : opType = .refreshKeys) (rowId : Int) (hStored : StoredFor db uid rowId)
      (hLast : db.historyInt rowId "valid_to_change_id" = some (sigRef : Int))
      (hKey : db[columnKey keyHistoryTable rowId "old_auth_key"]? = some cell)
  | covered (hType : opType ≠ .refreshKeys) (rowId : Int) (hCovers : Covers db uid rowId k)
      (hKey : db[columnKey keyHistoryTable rowId "old_auth_key"]? = some cell)
  | current (hType : opType ≠ .refreshKeys) (hNone : ∀ rowId, ¬ Covers db uid rowId k)
      (hKey : db.authKey uid = some cell)

/-- Stored rows of the history stay as they are. -/
def RowsKept (db db' : Db) : Prop :=
  ∀ uid rowId, StoredFor db uid rowId → StoredFor db' uid rowId ∧
    ∀ column, db'[columnKey keyHistoryTable rowId column]? =
      db[columnKey keyHistoryTable rowId column]?

section Found

variable {codec : RuleCodec} {start db db' : Db} {entries : List ChangelogEntry}
  {good : String → Bytes → Prop} {entry : ChangelogEntry} {batch : Batch} {uid uid' k n : Nat}
  {first last rowId : Int} {cell : Bytes} {opType : OpType} {sigRef : Nat}

theorem RowsKept.historyInt (h : RowsKept db db') (hStored : StoredFor db uid rowId)
    (column : String) : db'.historyInt rowId column = db.historyInt rowId column := by
  rw [Db.historyInt, (h uid rowId hStored).2]
  rfl

theorem RowsKept.covers_iff (h : RowsKept db db') (hStored : StoredFor db uid rowId) :
    Covers db' uid rowId k ↔ Covers db uid rowId k := by
  constructor
  · intro hCovers
    refine ⟨hStored, ?_⟩
    rw [← h.historyInt hStored, ← h.historyInt hStored]
    exact hCovers.range
  · intro hCovers
    refine ⟨(h uid rowId hStored).1, ?_⟩
    rw [h.historyInt hStored, h.historyInt hStored]
    exact hCovers.range

/-- A key that is in the history stays there. -/
theorem KeyFound.keep (h : KeyFound db uid k opType sigRef cell) (hKept : RowsKept db db')
    (hCurrent : opType ≠ .refreshKeys → (∀ rowId, ¬ Covers db uid rowId k) →
      db.authKey uid = some cell → KeyFound db' uid k opType sigRef cell) :
    KeyFound db' uid k opType sigRef cell := by
  cases h with
  | rotated hType rowId hStored hLast hKey =>
    obtain ⟨hStored', hCells⟩ := hKept uid rowId hStored
    refine .rotated hType rowId hStored' ?_ ((hCells _).trans hKey)
    rw [hKept.historyInt hStored, hLast]
  | covered hType rowId hCovers hKey =>
    have hCells := (hKept uid rowId hCovers.stored).2
    exact .covered hType rowId ((hKept.covers_iff hCovers.stored).mpr hCovers)
      ((hCells _).trans hKey)
  | current hType hNone hKey => exact hCurrent hType hNone hKey

theorem storedFor_iff_of_spares (h : Spares keyHistoryTable batch) :
    StoredFor (db.applyBatch batch) uid rowId ↔ StoredFor db uid rowId := by
  refine exists_congr fun key => exists_congr fun value => ?_
  refine and_congr_left fun ⟨hKey, _⟩ => ?_
  rw [h.getElem?_applyBatch (IsColumnOf.tableKey ⟨rowId, "uid", hKey⟩)]

theorem Spares.rowsKept (h : Spares keyHistoryTable batch) : RowsKept db (db.applyBatch batch) :=
  fun _ _ hStored => ⟨(storedFor_iff_of_spares h).mpr hStored,
    fun _ => h.getElem?_applyBatch (tableKey_columnKey _ _ _)⟩

/-- Without a new row, nothing more is covered. -/
theorem Spares.not_covers (h : Spares keyHistoryTable batch) (hNone : ¬ Covers db uid rowId k) :
    ¬ Covers (db.applyBatch batch) uid rowId k := by
  intro hCovers
  have hStored : StoredFor db uid rowId := (storedFor_iff_of_spares h).mp hCovers.stored
  exact hNone ((h.rowsKept.covers_iff hStored).mp hCovers)

section

variable (hInv : HistoryInv codec start entries db)
include hInv

theorem RowAdded.rowsKept (h : RowAdded db db' uid first last) :
    RowsKept db db' := by
  intro uid' rowId hStored
  obtain ⟨rows, hRows⟩ := hInv.rows uid'
  obtain ⟨row, hMem, rfl⟩ := (hRows.complete rowId).mp hStored
  exact ⟨(h.storedFor_iff hInv).mpr (.inl hStored), h.cells_eq hInv hRows hMem⟩

/-- A row that is added for another user covers nothing of this one. -/
theorem RowAdded.not_covers (h : RowAdded db db' uid' first last) (hUid : uid ≠ uid')
    (hNone : ¬ Covers db uid rowId k) : ¬ Covers db' uid rowId k := by
  intro hCovers
  rcases (h.storedFor_iff hInv).mp hCovers.stored with hStored | hNew
  · exact hNone (((h.rowsKept hInv).covers_iff hStored).mp hCovers)
  · exact hUid hNew.1

/-- The row that is added covers what no earlier row of the user did, up to its end. -/
theorem RowAdded.covers (h : RowAdded db db' uid first last) (hUid : uid < 2 ^ 63)
    (hNone : ∀ rowId, ¬ Covers db uid rowId k) (hLast : (k : Int) ≤ last) :
    Covers db' uid (db.nextId keyHistoryTable) k := by
  refine ⟨(h.storedFor_iff hInv).mpr (.inr ⟨rfl, rfl⟩), first, last, h.firstCell, h.lastCell, ?_,
    hLast⟩
  obtain ⟨rows, hRows⟩ := hInv.rows uid
  rw [h.first_eq hInv hUid hRows]
  -- the earlier rows leave no gap below their end
  by_contra hLt
  obtain ⟨range, hRange, hCover⟩ := hRows.tiles.covers (by omega : (0 : Int) ≤ k) (by omega)
  obtain ⟨row, hMem, rfl⟩ := mem_map.mp hRange
  have hStored := hRows.stored row hMem
  exact hNone row.rowId ⟨(hRows.complete row.rowId).mpr ⟨row, hMem, rfl⟩, row.first, row.last,
    hStored.first, hStored.last, hCover⟩

/-- So the stored key, which it retires, is found there. -/
theorem RowAdded.keyFound (h : RowAdded db db' uid first last)
    (hUid : uid < 2 ^ 63) (hOp : opType ≠ .refreshKeys)
    (hNone : ∀ rowId, ¬ Covers db uid rowId k) (hKey : db.authKey uid = some cell)
    (hLast : (k : Int) ≤ last) : KeyFound db' uid k opType sigRef cell := by
  obtain ⟨old, hOld, hStored⟩ := h.authKey
  have hSame : old = cell := some.inj (hStored.symm.trans hKey)
  exact .covered hOp _ (h.covers hInv hUid hNone hLast) (hSame ▸ hOld)

/-- Rows end before the next change. -/
theorem HistoryInv.not_covers (hLength : entries.length < k) : ¬ Covers db uid rowId k := by
  rintro ⟨hStored, first, last, _, hLast, _, hLe⟩
  obtain ⟨rows, hRows⟩ := hInv.rows uid
  obtain ⟨row, hMem, rfl⟩ := (hRows.complete rowId).mp hStored
  have hRow := hRows.stored row hMem
  have hBound := hRow.bound
  rw [hRow.last, some.injEq] at hLast
  omega

/-- A key that was found is found after the next step. -/
theorem KeyStep.keyFound (h : KeyStep db (entries.length + 1) entry batch)
    (hUsers : UsersInv good db)
    (hClean : KeepsKeys good entry) (hEntry : entry.uid < 2 ^ 32) (hUid : uid < 2 ^ 32)
    (hSigRef : entry.sigRef = expectedSigRef entries entry.uid) (hLength : entries.length < 2 ^ 63)
    (hPast : k ≤ expectedSigRef entries uid) (hFound : KeyFound db uid k opType sigRef cell) :
    KeyFound (db.applyBatch batch) uid k opType sigRef cell := by
  have hStays := fun hKey : db.authKey uid = some cell =>
    h.authKey_eq hUsers hClean hEntry hUid hKey
  cases h with
  | rotation hType first hAccepted =>
    have hAdded := hAccepted.rowAdded (by omega) hType hClean.retires
    refine hFound.keep (hAdded.rowsKept hInv) fun hOp hNone hKey => ?_
    by_cases hSame : uid = entry.uid
    · -- the old key goes to the history, up to the user's last change
      subst hSame
      exact hAdded.keyFound hInv (by omega) hOp hNone hKey (by omega)
    · refine .current hOp (fun _ => hAdded.not_covers hInv hSame (hNone _)) ?_
      refine hStays hKey (fun _ hEq => hSame hEq.symm) fun hRemove => ?_
      rw [hType] at hRemove
      cases hRemove
  | removal hType rowId first hAccepted =>
    have hAdded := hAccepted.rowAdded hType hClean.retires (by omega)
    refine hFound.keep (hAdded.rowsKept hInv) fun hOp hNone hKey => ?_
    by_cases hSame : uid = truncateU32 rowId
    · subst hSame
      have hLe := expectedSigRef_le entries (truncateU32 rowId)
      exact hAdded.keyFound hInv (by omega) hOp hNone hKey (by omega)
    · refine .current hOp (fun _ => hAdded.not_covers hInv hSame (hNone _)) ?_
      refine hStays hKey (fun hRefresh => ?_) fun _ kv hkv r column hKv hRow => ?_
      · rw [hType] at hRefresh
        cases hRefresh
      · obtain ⟨column', hKv'⟩ := hAccepted.row kv hkv
        replace hKv' := cell_unique hKv hKv'
        have hTruncate := truncateU32_eq_iff (i := rowId)
        omega
  | newUser hType hWrites hCounts hHistory =>
    refine hFound.keep hHistory.rowsKept fun hOp hNone hKey => ?_
    refine .current hOp (fun _ => hHistory.not_covers (hNone _)) (hStays hKey ?_ ?_)
    · intro hRefresh
      rcases hType with hType | hType <;> rw [hType] at hRefresh <;> cases hRefresh
    · intro hRemove
      rcases hType with hType | hType <;> rw [hType] at hRemove <;> cases hRemove
  | other hType hUsersSpared hHistory =>
    refine hFound.keep hHistory.rowsKept fun hOp hNone hKey => ?_
    refine .current hOp (fun _ => hHistory.not_covers (hNone _)) ?_
    exact (hUsersSpared.getElem?_applyBatch (tableKey_columnKey _ _ _)).trans hKey

/-- The key of the change itself is found right after it. -/
theorem KeyStep.keyFound_self (h : KeyStep db (entries.length + 1) entry batch)
    (hUsers : UsersInv good db)
    (hClean : KeepsKeys good entry) (hEntry : entry.uid < 2 ^ 32)
    (hLength : entries.length < 2 ^ 63)
    (hKey : db.authKey entry.uid = some cell) :
    KeyFound (db.applyBatch batch) entry.uid (entries.length + 1) entry.message.opType entry.sigRef
      cell := by
  have hStays := h.authKey_eq hUsers hClean hEntry hEntry hKey
  have hNone : ∀ rowId, ¬ Covers db entry.uid rowId (entries.length + 1) :=
    fun _ => hInv.not_covers (by omega)
  cases h with
  | rotation hType first hAccepted =>
    have hAdded := hAccepted.rowAdded (by omega) hType hClean.retires
    obtain ⟨old, hOld, hStored⟩ := hAdded.authKey
    have hSame : old = cell := some.inj (hStored.symm.trans hKey)
    have hRow := (hAdded.storedFor_iff hInv).mpr (.inr ⟨rfl, rfl⟩)
    exact .rotated hType _ hRow hAdded.lastCell (hSame ▸ hOld)
  | removal hType rowId first hAccepted =>
    have hAdded := hAccepted.rowAdded hType hClean.retires (by omega)
    have hOp : entry.message.opType ≠ .refreshKeys := by
      rw [hType]
      decide
    refine .current hOp (fun rowId' hCovers => ?_)
      (hStays (fun hRefresh => absurd hRefresh hOp) hClean.staysMember)
    rcases (hAdded.storedFor_iff hInv).mp hCovers.stored with hStored | hNew
    · exact hNone rowId' (((hAdded.rowsKept hInv).covers_iff hStored).mp hCovers)
    · -- the new row ends before the removal
      obtain ⟨first', last', _, hLast, _, hLe⟩ := hCovers.range
      rw [hNew.2, hAdded.lastCell, some.injEq] at hLast
      omega
  | newUser hType hWrites hCounts hHistory =>
    have hOp : entry.message.opType ≠ .refreshKeys := by
      rcases hType with hType | hType <;> rw [hType] <;> decide
    refine .current hOp (fun _ => hHistory.not_covers (hNone _))
      (hStays (fun hRefresh => absurd hRefresh hOp) hClean.staysMember)
  | other hType hUsersSpared hHistory =>
    refine .current hType (fun _ => hHistory.not_covers (hNone _)) ?_
    exact (hUsersSpared.getElem?_applyBatch (tableKey_columnKey _ _ _)).trans hKey

end

end Found

/-! ## Cells of the history -/

/-- Retired keys are good cells, and the other columns hold integers. -/
def HistoryCells (good : String → Bytes → Prop) (db : Db) : Prop :=
  ∀ key value, db[key]? = some value → ∀ rowId column,
    parsedColumn? key = some (keyHistoryTable, rowId, column) →
    if column = "old_auth_key" then good "auth_key" value
    else (parseI64ColumnValue value).isSome

section Cells

variable {codec : RuleCodec} {start db : Db} {entries : List ChangelogEntry}
  {good : String → Bytes → Prop} {entry : ChangelogEntry} {batch : Batch} {uid : Nat}
  {first last : Int}

/-- A new row has the columns that the entry names. -/
theorem HistoryWritten.named {kvs : List KvData} {stored : String → Bytes → Bytes}
    (h : HistoryWritten db kvs uid stored batch)
    (hFresh : NoRow db keyHistoryTable (db.nextId keyHistoryTable))
    {column : String} {value : Bytes}
    (hGet : (db.applyBatch batch)[columnKey keyHistoryTable (db.nextId keyHistoryTable) column]? =
      some value) : column ∈ columnNamesFromKeys (kvs.map KvData.key) := by
  rw [h.getElem?_cell] at hGet
  cases hInline : inlineValue kvs column with
  | some bytes => exact inlineValue_isSome_iff.mp (isSome_of_eq_some hInline)
  | none =>
    rw [hInline] at hGet
    exact (hFresh _ value hGet column (parsedColumn?_columnKey _ _ (inI64_nextId h))).elim

theorem RowAdded.historyCells {kvs : List KvData} {stored : String → Bytes → Bytes}
    (h : RowAdded db (db.applyBatch batch) uid first last)
    (hWritten : HistoryWritten db kvs uid stored batch)
    (hColumns : ∀ column ∈ columnNamesFromKeys (kvs.map KvData.key),
      column ∈ keyHistoryRequiredColumns)
    (hInv : HistoryInv codec start entries db) (hUsers : UsersInv good db) (hUid : uid < 2 ^ 32)
    (hCells : HistoryCells good db) : HistoryCells good (db.applyBatch batch) := by
  intro key value hGet rowId column hKey
  by_cases hNew : key = columnKey keyHistoryTable (db.nextId keyHistoryTable) column
  · rw [hNew] at hGet
    have hInt : ∀ {i : Int}, (db.applyBatch batch).historyInt (db.nextId keyHistoryTable) column =
        some i → (parseI64ColumnValue value).isSome := by
      intro i hi
      rw [Db.historyInt, hGet, bind_some] at hi
      rw [hi]
      rfl
    have hRequired := hColumns column (hWritten.named (hInv.noRow le_rfl) hGet)
    simp only [keyHistoryRequiredColumns, mem_cons, not_mem_nil, or_false] at hRequired
    rcases hRequired with rfl | rfl | rfl | rfl
    · obtain ⟨old, hOld, hStored⟩ := h.authKey
      have hSame : old = value := some.inj (hOld.symm.trans hGet)
      rw [if_pos rfl, ← hSame]
      exact (hUsers _ old hStored uid "auth_key" (parsedColumn?_columnKey _ _ (inI64_uid hUid))).2.2
    · exact hInt h.uidCell
    · exact hInt h.firstCell
    · exact hInt h.lastCell
  · rw [h.frame key rowId column hKey hNew] at hGet
    exact hCells key value hGet rowId column hKey

theorem KeyStep.historyCells (h : KeyStep db (entries.length + 1) entry batch)
    (hInv : HistoryInv codec start entries db) (hUsers : UsersInv good db)
    (hClean : KeepsKeys good entry) (hEntry : entry.uid < 2 ^ 32)
    (hLength : entries.length < 2 ^ 63)
    (hCells : HistoryCells good db) : HistoryCells good (db.applyBatch batch) := by
  have hSpared : Spares keyHistoryTable batch → HistoryCells good (db.applyBatch batch) := by
    intro hSpares key value hGet rowId column hKey
    rw [hSpares.getElem?_applyBatch (IsColumnOf.tableKey ⟨rowId, column, hKey⟩)] at hGet
    exact hCells key value hGet rowId column hKey
  cases h with
  | rotation hType first hAccepted =>
    exact (hAccepted.rowAdded (by omega) hType hClean.retires).historyCells hAccepted.history
      hClean.columns hInv hUsers hEntry hCells
  | removal hType rowId first hAccepted =>
    have hUid : truncateU32 rowId < 2 ^ 32 := by
      unfold truncateU32
      omega
    exact (hAccepted.rowAdded hType hClean.retires (by omega)).historyCells hAccepted.history
      hClean.columns hInv hUsers hUid hCells
  | newUser hType hWrites hCounts hHistory => exact hSpared hHistory
  | other hType hUsersSpared hHistory => exact hSpared hHistory

end Cells

/-! ## Runs -/

/-- Whether a key is a cell of `_users`. -/
def isUserKey (key : Bytes) : Bool := (parsedColumn? key).any fun cell => cell.1 = usersTable

/-- What a client that resolves keys can rely on after a run. -/
structure KeysInv (good : String → Bytes → Prop) (codec : RuleCodec) (start : Db)
    (entries : List ChangelogEntry) (db : Db) : Prop where
  history : HistoryInv codec start entries db
  users : UsersInv good db
  cells : HistoryCells good db
  found : ∀ before entry after db₁ cell, entries = before ++ entry :: after →
    Run codec start before db₁ → db₁.authKey entry.uid = some cell →
    KeyFound db entry.uid (before.length + 1) entry.message.opType entry.sigRef cell

section Runs

variable {codec : RuleCodec} {start db : Db} {entries : List ChangelogEntry}
  {good : String → Bytes → Prop} {entry : ChangelogEntry} {batch : Batch}

theorem KeysInv.snoc (h : KeysInv good codec start entries db) (hStart : Bootstrapped start)
    (hHistory : NoCascadeInto codec start keyHistoryTable)
    (hUsers : NoCascadeInto codec start usersTable) (hRun : Run codec start entries db)
    (hStep : Accepts codec (entries.length + 1) db entry batch)
    (hSigRef : checkSigrefContinuity entry (expectedSigRef entries entry.uid) = .ok ())
    (hUids : ∀ e ∈ entries ++ [entry], e.uid < 2 ^ 32) (hLength : entries.length < 2 ^ 63)
    (hClean : KeepsKeys good entry) :
    KeysInv good codec start (entries ++ [entry]) (db.applyBatch batch) := by
  have hUid : entry.uid < 2 ^ 32 := hUids entry (by simp)
  have hKeyStep := keyStep_of_dispatch (hRun.reachable hStart) (by omega)
    (hRun.noCascadeInto hUsers) (hRun.noCascadeInto hHistory) hStep
  have hHistoryStep := historyStep_of_dispatch (hRun.reachable hStart)
    (hRun.noCascadeInto hHistory) hStep hUid hLength hClean.retires
  refine ⟨h.history.snoc hRun (.snoc hRun hStep) hHistoryStep hSigRef hUid,
    hKeyStep.usersInv hClean hUid h.users,
    hKeyStep.historyCells h.history h.users hClean hUid hLength h.cells, ?_⟩
  intro before e after db₁ cell hSplit hRun₁ hKey
  rcases eq_nil_or_concat after with rfl | ⟨rest, newest, rfl⟩
  · -- the change is the new one
    obtain ⟨rfl, hLast⟩ := append_inj' hSplit rfl
    cases hLast
    obtain rfl := hRun₁.unique hRun
    exact hKeyStep.keyFound_self h.history h.users hClean hUid hLength hKey
  · rw [concat_eq_append, ← cons_append, ← append_assoc] at hSplit
    obtain ⟨rfl, _⟩ := append_inj' hSplit rfl
    have hFound := h.found before e rest db₁ cell rfl hRun₁ hKey
    have hPast := le_expectedSigRef before e rest
    exact hKeyStep.keyFound h.history h.users hClean hUid (hUids e (by simp))
      (sigRef_eq_of_continuity hSigRef) hLength hPast hFound

theorem keysInv_of_no_keys (hUsers : ∀ p ∈ start.toList, isUserKey p.1 = false)
    (hHistory : ∀ p ∈ start.toList, isHistoryKey p.1 = false) :
    KeysInv good codec start [] start := by
  refine ⟨historyInv_of_no_keys hHistory, fun key value hGet rowId column hKey => ?_,
    fun key value hGet rowId column hKey => ?_, fun before entry after _ _ hSplit _ _ => ?_⟩
  · have hNone := hUsers _ (Std.ExtTreeMap.mem_toList_iff_getElem?_eq_some.mpr hGet)
    simp [isUserKey, hKey] at hNone
  · have hNone := hHistory _ (Std.ExtTreeMap.mem_toList_iff_getElem?_eq_some.mpr hGet)
    simp [isHistoryKey, parsedColumn?_eq_some_iff.mp hKey] at hNone
  · exact absurd hSplit.symm (append_ne_nil_of_right_ne_nil before (cons_ne_nil _ _))

/-- After every run whose entries keep keys, the key of each change is found. -/
theorem keysInv_of_run (hStart : Bootstrapped start)
    (hNoUsers : ∀ p ∈ start.toList, isUserKey p.1 = false)
    (hNoHistory : ∀ p ∈ start.toList, isHistoryKey p.1 = false)
    (hHistory : NoCascadeInto codec start keyHistoryTable)
    (hUsers : NoCascadeInto codec start usersTable) (hRun : Run codec start entries db)
    (hChain : SigRefsChained entries) (hUids : ∀ entry ∈ entries, entry.uid < 2 ^ 32)
    (hLength : entries.length < 2 ^ 63) (hClean : ∀ entry ∈ entries, KeepsKeys good entry) :
    KeysInv good codec start entries db := by
  refine hRun.invariant (keysInv_of_no_keys hNoUsers hNoHistory) ?_
  intro before entry after db batch hSplit hRun hStep hInv
  have hMem : ∀ e ∈ before ++ [entry], e ∈ entries := by
    intro e he
    rw [hSplit, append_cons]
    exact mem_append_left after he
  have hShorter : before.length ≤ entries.length := by rw [hSplit, length_append]; omega
  exact hInv.snoc hStart hHistory hUsers hRun hStep (hChain before entry after hSplit)
    (fun e he => hUids e (hMem e he)) (by omega) (hClean entry (hMem entry (by simp)))

end Runs

end EncryptedSpaces.Ops
