import EncryptedSpaces.Ops.HistoryRun

/-!
# When RefreshKeys is accepted

A key rotation writes seven cells: the four of a new `_key_history` row, under
placeholder keys, and three of the signer's `_users` row.  On a database whose
history can be read back, the verifier accepts them exactly when the range starts
where the signer's history ends (`refreshKeysOp_succeeds` and
`RefreshAccepted.rowAdded`).
-/

namespace EncryptedSpaces.Ops

open Encoding Changelog Lib Prog Lib.Except List

/-! ## Readable histories -/

/-- The counter and the index of `_key_history` are well formed. -/
structure HistoryReadable (db : Db) (changes : Nat) : Prop where
  length : ∀ bytes, db[schemaNextIdKey keyHistoryTable]? = some bytes → bytes.length = 8
  positive : 1 ≤ db.nextId keyHistoryTable
  bound : db.nextId keyHistoryTable ≤ changes + 1
  index : ∀ key value, db[key]? = some value → HasFront key tagIndex keyHistoryTable →
    ∃ (uid : Nat) (rowId : Int), uid < 2 ^ 63 ∧ InI64 rowId ∧ 0 ≤ rowId ∧
      key = indexKey keyHistoryTable "uid" (.int uid) rowId ∧ value = i64ToBeBytes rowId

section Readable

variable {db db' : Db} {n uid : Nat} {first last : Int}

theorem historyReadable_of_no_keys (h : ∀ key value, db[key]? = some value →
    ¬ TableKey keyHistoryTable key) : HistoryReadable db 0 := by
  have hCounter : db[schemaNextIdKey keyHistoryTable]? = none := by
    cases hGet : db[schemaNextIdKey keyHistoryTable]? with
    | none => rfl
    | some value => exact absurd (tableKey_nextIdKey _) (h _ value hGet)
  have hNext : db.nextId keyHistoryTable = 1 := by
    rw [Db.nextId, hCounter]
  refine ⟨fun bytes hGet => ?_, by omega, by omega, fun key value hGet hFront => ?_⟩
  · rw [hCounter] at hGet
    cases hGet
  · exact absurd (.inr (.inl hFront)) (h key value hGet)

theorem HistoryReadable.snoc_of_same (h : HistoryReadable db n)
    (hSame : ∀ key, TableKey keyHistoryTable key → db'[key]? = db[key]?) :
    HistoryReadable db' (n + 1) := by
  have hCounter := hSame _ (tableKey_nextIdKey keyHistoryTable)
  have hNext : db'.nextId keyHistoryTable = db.nextId keyHistoryTable := by
    rw [Db.nextId, hCounter]
    rfl
  have hPositive := h.positive
  have hBound := h.bound
  refine ⟨fun bytes hGet => ?_, by omega, by omega, fun key value hGet hFront => ?_⟩
  · rw [hCounter] at hGet
    exact h.length bytes hGet
  · rw [hSame key (.inr (.inl hFront))] at hGet
    exact h.index key value hGet hFront

theorem HistoryReadable.snoc_of_added (h : HistoryReadable db n)
    (hAdded : RowAdded db db' uid first last) (hUid : uid < 2 ^ 63) :
    HistoryReadable db' (n + 1) := by
  have hNext := hAdded.next
  have hPositive := h.positive
  have hBound := h.bound
  refine ⟨fun bytes hGet => ?_, by omega, by omega, fun key value hGet hFront => ?_⟩
  · rw [hAdded.counter, Option.some.injEq] at hGet
    rw [← hGet]
    simp [i64ToBeBytes]
  · rw [hAdded.index key hFront] at hGet
    by_cases hNew : key = indexKey keyHistoryTable "uid" (.int uid) (db.nextId keyHistoryTable)
    · rw [if_pos hNew, Option.some.injEq] at hGet
      exact ⟨uid, db.nextId keyHistoryTable, hUid, hAdded.inI64, by omega, hNew, hGet.symm⟩
    · rw [if_neg hNew] at hGet
      exact h.index key value hGet hFront

end Readable

/-! ## Reads that succeed -/

section Reads

variable {codec : RuleCodec} {db : Db} {n uid : Nat} {opName : String}

theorem eval_readKey (key : Bytes) :
    (readKey key).eval (plain codec db.reader) = .ok db[key]? := by
  have hSucceeds : (readKey key).Succeeds (plain codec db.reader) :=
    succeeds_bind_of_eq (Prog.eval_query _) (succeeds_ret _)
  obtain ⟨value, hEval⟩ := hSucceeds
  rw [hEval, readKey_fromDb.of_ok hEval]

theorem HistoryReadable.readNextId (h : HistoryReadable db n) :
    (readNextId keyHistoryTable opName).eval (plain codec db.reader) =
      .ok (db.nextId keyHistoryTable) := by
  have hSucceeds : (Ops.readNextId keyHistoryTable opName).Succeeds (plain codec db.reader) := by
    refine succeeds_bind_of_eq (eval_readKey _) ?_
    cases hGet : db[schemaNextIdKey keyHistoryTable]? with
    | none => exact succeeds_ret _
    | some bytes =>
      exact succeeds_ensure_bind ((h.length bytes hGet))
        (succeeds_ret _)
  obtain ⟨id, hEval⟩ := hSucceeds
  rw [hEval, (readNextId_fromDb.of_ok hEval).1]

theorem indexedRowId_of_parse {table column : String} {element : TupleElement} {rowId : Int}
    {pair : Bytes × Bytes} (hParse : parseKey pair.1 = .ok (.index table column element rowId))
    (hNonneg : 0 ≤ rowId) (hValue : pair.2 = i64ToBeBytes rowId) :
    indexedRowId table column opName pair = .ok rowId := by
  refine bind_eq_ok.mpr ⟨_, mapError_eq_ok.mpr hParse, ?_⟩
  refine bind_eq_ok.mpr ⟨(), check_eq_ok.mpr ⟨rfl, rfl⟩, ?_⟩
  refine bind_eq_ok.mpr ⟨i64ToBeBytes rowId, if_pos hNonneg, ?_⟩
  exact bind_eq_ok.mpr ⟨(), check_eq_ok.mpr hValue, rfl⟩

theorem HistoryReadable.readKhRangesIndexed (h : HistoryReadable db n)
    (hRows : ∀ rowId, Listed db uid rowId →
      (db.historyInt rowId "valid_from_change_id").isSome ∧
        (db.historyInt rowId "valid_to_change_id").isSome) :
    (readKhRangesIndexed uid opName).Succeeds (plain codec db.reader) := by
  have hIds : (readIndexedRowIds keyHistoryTable "uid" uid opName).Succeeds
      (plain codec db.reader) := by
    refine succeeds_bind_of_eq (Prog.eval_query _) ?_
    have hPairs : ∀ pair ∈ db.read (.keyPrefix (indexValuePrefix keyHistoryTable "uid" (.int uid))),
        ∃ rowId, indexedRowId keyHistoryTable "uid" opName pair = .ok rowId := by
      intro pair hPair
      obtain ⟨hGet, hPrefix⟩ := mem_read_keyPrefix.mp hPair
      obtain ⟨uid', rowId, hUid, hIn, hNonneg, hKey, hValue⟩ :=
        h.index pair.1 pair.2 hGet ( hasFront_of_prefix hPrefix)
      have hInUid : InI64 (uid' : Int) := by unfold InI64; omega
      have hParse : parseKey pair.1 = .ok (.index keyHistoryTable "uid" (.int uid') rowId) := by
        rw [hKey]
        exact parseKey_indexKey hInUid hIn
      exact ⟨rowId, indexedRowId_of_parse hParse hNonneg hValue⟩
    obtain ⟨ids, hIds⟩ := mapM_isOk hPairs
    exact succeeds_lift_bind hIds (succeeds_ret _)
  refine hIds.bind (R := FromDb codec db) (fun _ _ h => h) readIndexedRowIds_fromDb
    fun ids hListed => ?_
  refine succeeds_collect fun rowId hMem => ?_
  obtain ⟨hFirst, hLast⟩ := hRows rowId ((hListed rowId).mp hMem)
  obtain ⟨first, hFirst⟩ := Option.isSome_iff_exists.mp hFirst
  obtain ⟨last, hLast⟩ := Option.isSome_iff_exists.mp hLast
  obtain ⟨firstBytes, hFirstGet, hFirstParse⟩ := Option.bind_eq_some_iff.mp hFirst
  obtain ⟨lastBytes, hLastGet, hLastParse⟩ := Option.bind_eq_some_iff.mp hLast
  refine succeeds_bind_of_eq (eval_readKey _) ?_
  refine succeeds_bind_of_eq (eval_readKey _) ?_
  rw [hFirstGet, hLastGet]
  refine succeeds_bind_of_eq (a := firstBytes) rfl ?_
  refine succeeds_bind_of_eq (a := lastBytes) rfl ?_
  refine succeeds_lift_bind (decodeI64ColumnValue_eq_ok.mpr hFirstParse) ?_
  exact succeeds_lift_bind (decodeI64ColumnValue_eq_ok.mpr hLastParse) (succeeds_ret _)

/-- A range right after the existing ones passes. -/
theorem validateKhRange_of_follows {who first : String} {validFrom validTo : Int}
    {existing : List (Int × Int)}
    (h : Follows (fun last => ∃ range ∈ existing, range.2 = last) validFrom)
    (hIn : InI64 validFrom) :
    validateKhRange opName who first validFrom validTo existing = .ok () := by
  have hBelow : ∀ range ∈ existing, range.2 < validFrom := by
    intro range hMem
    rcases h with ⟨hNone, _⟩ | ⟨last, _, hMax, rfl⟩
    · exact absurd ⟨range, hMem, rfl⟩ (hNone range.2)
    · have hLe := hMax range.2 ⟨range, hMem, rfl⟩
      omega
  obtain ⟨units, hUnits⟩ : ∃ units, (existing.mapM fun range =>
      check (¬ (validFrom ≤ range.2 ∧ range.1 ≤ validTo))
        (generic (s!"{opName}: new _key_history range [{validFrom}, {validTo}] overlaps " ++
          s!"existing range [{range.1}, {range.2}] for {who}"))) = .ok units := by
    refine mapM_isOk fun range hMem => ⟨(), check_eq_ok.mpr ?_⟩
    have hLt := hBelow range hMem
    omega
  refine bind_eq_ok.mpr ⟨units, hUnits, ?_⟩
  rcases h with ⟨hNone, rfl⟩ | ⟨last, ⟨range, hMem, rfl⟩, hMax, rfl⟩
  · have hNil : existing = [] := by
      refine eq_nil_iff_forall_not_mem.mpr fun range hMem => ?_
      exact hNone range.2 ⟨range, hMem, rfl⟩
    rw [hNil]
    exact check_eq_ok.mpr rfl
  · have hLast : (existing.map (·.2)).max? = some range.2 := by
      rw [max?_eq_some_iff, forall_mem_map]
      exact ⟨mem_map_of_mem hMem, fun other hOther => hMax other.2 ⟨other, hOther, rfl⟩⟩
    have hNext : checkedAdd range.2 1 = some (range.2 + 1) := checkedAdd_eq_some_iff.mpr ⟨rfl, hIn⟩
    simp only [hLast, hNext]
    exact check_eq_ok.mpr trivial

end Reads

/-! ## The cells of a rotation -/

/-- What a rotation writes: the range and the key that it retires, and the new keys. -/
structure Rotation where
  uid : Nat
  oldAuthKey : Bytes
  validFrom : Nat
  validTo : Nat
  authKey : Bytes
  updateKey : Bytes

/-- The new history row, by column. -/
def Rotation.historyCells (r : Rotation) : List KvData :=
  [ { key := columnKeyPlaceholder keyHistoryTable "old_auth_key", value := r.oldAuthKey },
    { key := columnKeyPlaceholder keyHistoryTable "uid", value := i64ToValueBytes r.uid },
    { key := columnKeyPlaceholder keyHistoryTable "valid_from_change_id",
      value := i64ToValueBytes r.validFrom },
    { key := columnKeyPlaceholder keyHistoryTable "valid_to_change_id",
      value := i64ToValueBytes r.validTo } ]

/-- `UserStatus::Full`. -/
def fullStatus : Int := 1

/-- The signer's row, by column. -/
def Rotation.userCells (r : Rotation) : List KvData :=
  [ { key := columnKey usersTable r.uid "auth_key", value := r.authKey },
    { key := columnKey usersTable r.uid "status", value := i64ToValueBytes fullStatus },
    { key := columnKey usersTable r.uid "update_key", value := r.updateKey } ]

/-- All cells in the order of their keys, as the builder sorts them. -/
def Rotation.cells (r : Rotation) : List KvData := r.historyCells ++ r.userCells

section Cells

variable (r : Rotation)

theorem columnKey_lt_of_column {table column column' : String} {rowId : Int}
    (h : encodeElement (.string column) < encodeElement (.string column')) :
    columnKey table rowId column < columnKey table rowId column' := by
  have hSplit : ∀ column, columnKey table rowId column =
      rowKey table rowId ++ encodeElement (.string column) := by
    intro column
    simp [columnKey, rowKey, encodeTuple]
  rw [hSplit, hSplit]
  exact append_left_lt h

/-- History keys come before user keys: the table names differ at their second byte. -/
theorem historyKey_lt_userKey (rowId rowId' : Int) (column column' : String) :
    columnKey keyHistoryTable rowId column < columnKey usersTable rowId' column' := by
  have hHistory : encodeElement (.string keyHistoryTable) =
      [0x01, 0x5f] ++ 0x6b :: (encodeElement (.string keyHistoryTable)).drop 3 := by decide
  have hUsers : encodeElement (.string usersTable) =
      [0x01, 0x5f] ++ 0x75 :: (encodeElement (.string usersTable)).drop 3 := by decide
  simp only [columnKey, encodeTuple, flatMap_cons]
  refine append_left_lt ?_
  rw [hHistory, hUsers, append_assoc, append_assoc]
  refine append_left_lt ?_
  exact List.Lex.rel (by decide)

theorem Rotation.sorted : (r.cells.map KvData.key).IsChain (· < ·) := by
  simp only [cells, historyCells, userCells, map_cons, map_nil, cons_append,
    nil_append, isChain_cons_cons]
  refine ⟨?_, ?_, ?_, ?_, ?_, ?_, .singleton _⟩
  · exact columnKey_lt_of_column (by decide)
  · exact columnKey_lt_of_column (by decide)
  · exact columnKey_lt_of_column (by decide)
  · exact historyKey_lt_userKey _ _ _ _
  · exact columnKey_lt_of_column (by decide)
  · exact columnKey_lt_of_column (by decide)

/-- History cells followed by user cells are told apart. -/
theorem partitionFrom_append {history users : List KvData}
    (hHistory : ∀ kv ∈ history, IsColumnOf keyHistoryTable kv.key)
    (hUsers : ∀ kv ∈ users, IsColumnOf usersTable kv.key) (opName : String) (i : Nat) :
    partitionFrom opName i (history ++ users) =
      .ok { keyHistory := history, retention := [], users := users } := by
  induction history generalizing i with
  | nil =>
    rw [nil_append]
    induction users generalizing i with
    | nil => rfl
    | cons kv users ih =>
      rw [forall_mem_cons] at hUsers
      obtain ⟨⟨rowId, column, hKey⟩, hUsers⟩ := hUsers
      simp only [partitionFrom, hKey, if_true, ih hUsers]
      rfl
  | cons kv history ih =>
    rw [forall_mem_cons] at hHistory
    obtain ⟨⟨rowId, column, hKey⟩, hHistory⟩ := hHistory
    have hNotUsers : keyHistoryTable ≠ usersTable := by decide
    have hNotRetention : keyHistoryTable ≠ retentionTable := by decide
    simp only [cons_append, partitionFrom, hKey, if_neg hNotUsers, if_neg hNotRetention,
      if_true, ih hHistory]
    rfl

theorem Rotation.isColumnOf_history : ∀ kv ∈ r.historyCells, IsColumnOf keyHistoryTable kv.key := by
  have hCell : ∀ column, IsColumnOf keyHistoryTable (columnKeyPlaceholder keyHistoryTable column) :=
    fun column => ⟨0, column, parsedColumn?_columnKey _ _ (by decide)⟩
  simp [historyCells, hCell]

theorem Rotation.isColumnOf_users (h : InI64 r.uid) :
    ∀ kv ∈ r.userCells, IsColumnOf usersTable kv.key := by
  have hCell : ∀ column, IsColumnOf usersTable (columnKey usersTable r.uid column) :=
    fun column => ⟨r.uid, column, parsedColumn?_columnKey _ _ h⟩
  simp [userCells, hCell]

/-- The keys of the new row under its id. -/
def historyKeysAt (rowId : Int) : List Bytes :=
  keyHistoryRequiredColumns.map (columnKey keyHistoryTable rowId)

theorem parsedColumn?_placeholder (column : String) :
    parsedColumn? (columnKeyPlaceholder keyHistoryTable column) =
      some (keyHistoryTable, 0, column) :=
  parsedColumn?_columnKey _ _ (by decide)

theorem Rotation.derivedKeys (rowId : Int) (opName : String) :
    deriveColumnKeysWithRowId r.historyCells rowId opName = .ok (historyKeysAt rowId) := by
  have hCell : ∀ column, rebuildColumnKeyWithRowId (columnKeyPlaceholder keyHistoryTable column)
      rowId opName = .ok (columnKey keyHistoryTable rowId column) := by
    intro column
    unfold rebuildColumnKeyWithRowId
    rw [parsedColumn?_placeholder]
    rfl
  unfold deriveColumnKeysWithRowId
  rw [mapM_eq_ok]
  exact .cons (hCell _) (.cons (hCell _) (.cons (hCell _) (.cons (hCell _) .nil)))

theorem sameTableFrom_of_forall {table opName : String} {keys : List Bytes}
    (h : ∀ key ∈ keys, IsColumnOf table key) (i : Nat) :
    sameTableFrom opName table i keys = .ok table := by
  induction keys generalizing i with
  | nil => rfl
  | cons key keys ih =>
    rw [forall_mem_cons] at h
    obtain ⟨⟨rowId, column, hKey⟩, hKeys⟩ := h
    simp only [sameTableFrom, hKey]
    exact (if_neg (by simp)).trans (ih hKeys (i + 1))

theorem tableFromColumnKeys_of_forall {table opName : String} {keys : List Bytes}
    (hNonempty : keys ≠ []) (h : ∀ key ∈ keys, IsColumnOf table key) :
    tableFromColumnKeys keys opName = .ok table := by
  cases keys with
  | nil => exact absurd rfl hNonempty
  | cons key keys =>
    rw [forall_mem_cons] at h
    obtain ⟨⟨rowId, column, hKey⟩, hKeys⟩ := h
    simp only [tableFromColumnKeys, hKey]
    exact sameTableFrom_of_forall hKeys 1

theorem uidCell_of_asU64 {bytes : Bytes} {value : Value} {uid : Nat}
    (hValue : bytesToValue bytes = .ok value) (hUid : value.asU64 = some uid) :
    uidCell bytes = some uid := by
  unfold uidCell
  simp only [hValue, hUid]

theorem uidCell_i64ToValueBytes {uid : Nat} (h : InI64 uid) :
    uidCell (i64ToValueBytes uid) = some uid := by
  refine uidCell_of_asU64 (bytesToValue_i64ToValueBytes h) ?_
  have hRange : (0 : Int) ≤ uid ∧ (uid : Int) < 2 ^ 64 := by
    unfold InI64 at h
    omega
  rw [Value.asU64, if_pos hRange, Int.toNat_natCast]

theorem Rotation.validateKeyHistory (hUid : InI64 r.uid) {rowId : Int} (hRow : InI64 rowId)
    (opName : String) :
    validateKeyHistoryEntries (historyKeysAt rowId) r.historyCells r.uid opName = .ok rowId := by
  have hKey : ∀ column, parsedColumn? (columnKey keyHistoryTable rowId column) =
      some (keyHistoryTable, rowId, column) := fun column => parsedColumn?_columnKey _ _ hRow
  have hColumns : validateKeyHistoryColumns opName 0 none
      ((historyKeysAt rowId).zip r.historyCells) = .ok (some rowId) := by
    simp [historyKeysAt, keyHistoryRequiredColumns, historyCells, validateKeyHistoryColumns,
      validateKeyHistoryColumn, hKey, parsedColumn?_placeholder, check, bind, Except.bind, pure,
      Except.pure]
  have hTable : tableFromColumnKeys (historyKeysAt rowId) s!"{opName}/_key_history" =
      .ok keyHistoryTable := by
    refine tableFromColumnKeys_of_forall (by simp [historyKeysAt, keyHistoryRequiredColumns]) ?_
    intro key hMem
    obtain ⟨column, _, rfl⟩ := mem_map.mp hMem
    exact ⟨rowId, column, hKey column⟩
  have hRequired : ∀ column ∈ keyHistoryRequiredColumns,
      column ∈ columnNamesFromKeys (historyKeysAt rowId) := by
    intro column hMem
    exact mem_columnNamesFromKeys.mpr
      ⟨_, mem_map_of_mem hMem, keyHistoryTable, rowId, hKey column⟩
  obtain ⟨_, hPresent⟩ := mapM_isOk (l := keyHistoryRequiredColumns)
    (f := fun required => check (required ∈ columnNamesFromKeys (historyKeysAt rowId))
      (generic s!"{opName}: _key_history insert is missing required column '{required}'"))
    fun column hMem => ⟨(), check_eq_ok.mpr (hRequired column hMem)⟩
  have hUids : ((historyKeysAt rowId).zip r.historyCells).mapM (fun pair =>
      validateKeyHistoryUid opName r.uid pair.1 pair.2) = .ok [(), (), (), ()] := by
    simp [historyKeysAt, keyHistoryRequiredColumns, historyCells, validateKeyHistoryUid, hKey,
      uidCell_i64ToValueBytes hUid, check, bind, Except.bind, pure, Except.pure]
  refine bind_eq_ok.mpr ⟨_, hColumns, ?_⟩
  refine bind_eq_ok.mpr ⟨_, hTable, ?_⟩
  refine bind_eq_ok.mpr ⟨(), check_eq_ok.mpr rfl, ?_⟩
  refine bind_eq_ok.mpr ⟨_, hPresent, ?_⟩
  exact bind_eq_ok.mpr ⟨_, hUids, rfl⟩

theorem Rotation.firstValue_history :
    firstValue r.historyCells "old_auth_key" = some r.oldAuthKey ∧
      firstValue r.historyCells "valid_from_change_id" = some (i64ToValueBytes r.validFrom) ∧
      firstValue r.historyCells "valid_to_change_id" = some (i64ToValueBytes r.validTo) := by
  simp [firstValue, historyCells, parsedColumn?_placeholder]

theorem Rotation.userColumns_allowed (h : InI64 r.uid) :
    ∀ column ∈ columnNamesFromKeys (r.userCells.map KvData.key),
      column ∈ refreshKeysAllowedColumns := by
  intro column hMem
  obtain ⟨key, hKeyMem, table, rowId, hParse⟩ := mem_columnNamesFromKeys.mp hMem
  simp only [userCells, map_cons, map_nil, mem_cons, not_mem_nil,
    or_false] at hKeyMem
  rcases hKeyMem with rfl | rfl | rfl
  · rw [← (columnKey_cell h hParse).2.2]
    decide
  · rw [← (columnKey_cell h hParse).2.2]
    decide
  · rw [← (columnKey_cell h hParse).2.2]
    decide

end Cells

/-! ## Acceptance -/

section Acceptance

variable {codec : RuleCodec} {db : Db} {n : Nat} {entry : ChangelogEntry} {r : Rotation}

theorem Reachable.readSchemaIndexes_succeeds (hDb : Reachable codec n db) {schema : TableSchema}
    (hSchema : schema ∈ internalSchemas) :
    (readSchemaIndexes schema.name).Succeeds (plain codec db.reader) := by
  have hTree := hDb.getElem?_treeKey (treeKey_mem_internalSchemaKeys schema hSchema).2
  have hIndexes := internalDb_indexes schema hSchema
  have hLoad : ∃ columns,
      loadStatic codec db.reader "" (.schemaIndexes schema.name) = .ok columns := by
    rw [loadStatic_reader, hTree]
    cases hGet : internalDb[(StaticKey.schemaIndexes schema.name).treeKey]? with
    | none => exact ⟨_, rfl⟩
    | some bytes =>
      rw [show internalDb[schemaIndexesKey schema.name]? = some bytes from hGet] at hIndexes
      by_cases hNone : schema.indexed = []
      · rw [if_pos hNone] at hIndexes
        cases hIndexes
      · rw [if_neg hNone, Option.map_some, Option.some.injEq] at hIndexes
        simp only [decodeStatic, decodeNames, hIndexes]
        exact ⟨_, rfl⟩
  obtain ⟨columns, hLoad⟩ := hLoad
  exact succeeds_query hLoad

theorem Reachable.keyHistoryIndexPuts (hDb : Reachable codec n db) (hUid : InI64 r.uid)
    {rowId : Int} (hNonneg : 0 ≤ rowId) (hNext : InI64 (rowId + 1)) (opName : String) :
    (keyHistoryIndexPuts opName rowId r.historyCells).Succeeds (plain codec db.reader) := by
  have hValue := bytesToValue_i64ToValueBytes hUid
  have hElement : (Value.int r.uid).toTupleElement = .ok (.int r.uid) := by
    rw [Value.toTupleElement_eq_int_iff]
    simp only [Value.asI64, if_pos hUid]
  have hPut : makeIndexPut keyHistoryTable "uid" (i64ToValueBytes r.uid) rowId opName =
      .ok (.put (indexKey keyHistoryTable "uid" (.int r.uid) rowId) (i64ToBeBytes rowId)) :=
    makeIndexPut_eq_ok.mpr ⟨_, _, hValue, hElement, hNonneg, rfl⟩
  have hPutsFor : indexPutsFor keyHistoryTable rowId (inlineValue r.historyCells) opName ["uid"] =
      .ok [.put (indexKey keyHistoryTable "uid" (.int r.uid) rowId) (i64ToBeBytes rowId)] := by
    unfold indexPutsFor
    rw [mapM_eq_ok]
    refine .cons ?_ .nil
    exact hPut
  have hBump : bumpNextIdAfterChain keyHistoryTable rowId 1 opName =
      .ok [nextIdPut keyHistoryTable (rowId + 1)] := by
    have hSame : checkedAdd rowId (1 - 1) = some rowId :=
      checkedAdd_eq_some_iff.mpr ⟨by omega, by unfold InI64 at hNext ⊢; omega⟩
    have hAfter : nextIdAfter rowId keyHistoryTable opName = .ok (rowId + 1) :=
      nextIdAfter_eq_ok.mpr ⟨rfl, hNext⟩
    unfold bumpNextIdAfterChain
    simp only [hSame, hAfter]
    rfl
  have hIndexes : (readSchemaIndexes keyHistoryTable).Succeeds (plain codec db.reader) :=
    hDb.readSchemaIndexes_succeeds historySchema_mem
  obtain ⟨columns, hIndexes⟩ := hIndexes
  have hColumns := (hDb.readSchemaIndexes_returns historySchema_mem).of_ok hIndexes
  have hPuts : (appendInsertIndexPuts keyHistoryTable rowId r.historyCells opName).Succeeds
      (plain codec db.reader) := by
    refine succeeds_bind_of_eq hIndexes ?_
    have hUidOnly : columns = ["uid"] := hColumns.trans (by decide)
    rw [hUidOnly]
    exact succeeds_lift hPutsFor
  obtain ⟨puts, hPuts⟩ := hPuts
  refine succeeds_bind_of_eq hPuts ?_
  exact succeeds_lift_bind hBump (succeeds_ret _)

theorem validateUserAccess_succeeds {status : Bytes} (hEntryUid : entry.uid = r.uid)
    (hStatus : db[columnKey usersTable r.uid "status"]? = some status) :
    (validateUserAccess entry .refreshKeys "refresh_keys").Succeeds (plain codec db.reader) := by
  have hUser : (readUserStatus entry.uid "refresh_keys").eval (plain codec db.reader) =
      .ok (parseI64ColumnValue status) := by
    refine eval_bind_eq_ok.mpr ⟨_, eval_readKey _, ?_⟩
    rw [hEntryUid, hStatus]
    rfl
  -- provisional users may rotate as well
  exact succeeds_bind_of_eq hUser (succeeds_ensure (by simp))

theorem requireOldAuthKey_eval {kvs : List KvData} {old : Bytes} {uid : Nat} {opName who : String}
    (hOld : firstValue kvs "old_auth_key" = some old)
    (hAuth : db[columnKey usersTable uid "auth_key"]? = some old) :
    (requireOldAuthKey opName who uid kvs).eval (plain codec db.reader) = .ok () := by
  refine eval_bind_eq_ok.mpr
    ⟨old, (Prog.eval_lift _).trans (extractValueFromKhEntries_eq_ok.mpr hOld), ?_⟩
  refine eval_bind_eq_ok.mpr ⟨_, eval_readKey _, ?_⟩
  rw [hAuth]
  refine eval_bind_eq_ok.mpr ⟨old, rfl, ?_⟩
  exact Prog.eval_ensure.mpr rfl

/-- A rotation whose range starts where the history of its signer ends is accepted. -/
theorem refreshKeysOp_succeeds (hDb : Reachable codec n db) (hRead : HistoryReadable db n)
    (hCount : n < 2 ^ 62) (hUid : r.uid < 2 ^ 32) (hTo : r.validTo < 2 ^ 63)
    (hEntryUid : entry.uid = r.uid) (hEntries : entry.message.entries = r.cells)
    (hSigRef : entry.sigRef = r.validTo) (hLe : r.validFrom ≤ r.validTo)
    (hAuth : db[columnKey usersTable r.uid "auth_key"]? = some r.oldAuthKey)
    (hStatus : (db[columnKey usersTable r.uid "status"]?).isSome)
    (hRows : ∀ rowId, Listed db r.uid rowId →
      (db.historyInt rowId "valid_from_change_id").isSome ∧
        (db.historyInt rowId "valid_to_change_id").isSome)
    (hFollows : Follows (ListedEnd db r.uid) r.validFrom) :
    (refreshKeysOp entry).Succeeds (plain codec db.reader) := by
  have hInUid : InI64 (r.uid : Int) := by unfold InI64; omega
  have hInFrom : InI64 (r.validFrom : Int) := by unfold InI64; omega
  have hInTo : InI64 (r.validTo : Int) := by unfold InI64; omega
  have hPositive := hRead.positive
  have hBound := hRead.bound
  have hInRow : InI64 (db.nextId keyHistoryTable) := by unfold InI64; omega
  have hInNext : InI64 (db.nextId keyHistoryTable + 1) := by unfold InI64; omega
  obtain ⟨hOld, hFirst, hLast⟩ := r.firstValue_history
  obtain ⟨status, hStatus⟩ := Option.isSome_iff_exists.mp hStatus
  have hSorted : validateSortedEntries entry "refresh_keys" = .ok () := by
    unfold validateSortedEntries
    rw [hEntries]
    exact check_eq_ok.mpr r.sorted
  have hParts : partitionCompositeEntry entry "refresh_keys" =
      .ok { keyHistory := r.historyCells, retention := [], users := r.userCells } := by
    unfold partitionCompositeEntry
    rw [hEntries]
    exact partitionFrom_append r.isColumnOf_history (r.isColumnOf_users hInUid) _ 0
  have hTable : tableFromColumnKeys (r.userCells.map KvData.key) "refresh_keys" =
      .ok usersTable := by
    refine tableFromColumnKeys_of_forall (cons_ne_nil _ _) fun key hMem => ?_
    obtain ⟨kv, hkv, rfl⟩ := mem_map.mp hMem
    exact r.isColumnOf_users hInUid kv hkv
  have hAllowed : ∀ column ∈ columnNamesFromKeys (r.userCells.map KvData.key),
      column ∈ refreshKeysAllowedColumns := r.userColumns_allowed hInUid
  have hTo' : extractI64FromKhEntries r.historyCells "valid_to_change_id" "refresh_keys" =
      .ok r.validTo := by
    rw [extractI64FromKhEntries_eq_ok, hLast]
    exact parseI64ColumnValue_i64ToValueBytes hInTo
  have hFrom' : extractI64FromKhEntries r.historyCells "valid_from_change_id" "refresh_keys" =
      .ok r.validFrom := by
    rw [extractI64FromKhEntries_eq_ok, hFirst]
    exact parseI64ColumnValue_i64ToValueBytes hInFrom
  refine succeeds_lift_bind hSorted ?_
  refine succeeds_lift_bind hParts ?_
  refine succeeds_ensure_bind rfl ?_
  refine succeeds_ensure_bind ((cons_ne_nil _ _)) ?_
  refine succeeds_ensure_bind ((cons_ne_nil _ _)) ?_
  have hUser : (validateUserAccess entry .refreshKeys "refresh_keys").Succeeds
      (plain codec db.reader) := validateUserAccess_succeeds hEntryUid hStatus
  obtain ⟨_, hAccess⟩ := hUser
  refine succeeds_bind_of_eq hAccess ?_
  refine succeeds_bind_of_eq hRead.readNextId ?_
  refine succeeds_lift_bind (r.derivedKeys _ _) ?_
  rw [hEntryUid, hSigRef]
  refine succeeds_lift_bind (r.validateKeyHistory hInUid hInRow _) ?_
  refine succeeds_lift_bind hTable ?_
  refine succeeds_ensure_bind rfl ?_
  obtain ⟨_, hColumns⟩ := succeeds_forEach (h := plain codec db.reader)
    fun column hMem => succeeds_ensure (hAllowed column hMem)
  refine succeeds_bind_of_eq hColumns ?_
  refine succeeds_lift_bind hTo' ?_
  refine succeeds_ensure_bind rfl ?_
  refine succeeds_lift_bind hFrom' ?_
  refine succeeds_ensure_bind ((by omega)) ?_
  refine succeeds_bind_of_eq (requireOldAuthKey_eval hOld hAuth) ?_
  refine (hRead.readKhRangesIndexed hRows).bind (R := FromDb codec db) (fun _ _ h => h)
    readKhRangesIndexed_fromDb fun existing hExisting => ?_
  refine succeeds_lift_bind (validateKhRange_of_follows
    (hFollows.congr fun e => (hExisting e).symm) hInFrom) ?_
  obtain ⟨puts, hPuts⟩ := hDb.keyHistoryIndexPuts hInUid (by omega) hInNext "refresh_keys"
  exact succeeds_bind_of_eq hPuts (succeeds_ret _)

end Acceptance

end EncryptedSpaces.Ops
