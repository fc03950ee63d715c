import EncryptedSpaces.Encoding.IndexKeys
import EncryptedSpaces.Ops.DerivedRows
import EncryptedSpaces.Ops.Scans

/-!
# The `_key_history` row of RefreshKeys and RemoveUser

Both operations retire the auth key of a user: they add one `_key_history` row
under the next id of the table, after comparing the entry's cells with the
stored auth key and with the ranges that the `uid` index lists for the user.
This module says what those checks establish (`HistoryChecked`) and what the row's
part of the batch writes (`HistoryWritten`).
-/

namespace EncryptedSpaces.Ops

open Encoding Changelog Lib Prog Lib.Except List

/-- The schema entry of `_key_history`. -/
def historySchema : TableSchema where
  name := keyHistoryTable
  columns := ["uid", "old_auth_key", "valid_from_change_id", "valid_to_change_id"]
  indexed := ["uid"]
  autoIncrement := true

theorem historySchema_mem : historySchema ∈ internalSchemas := by
  simp [internalSchemas, historySchema, keyHistoryTable]

/-- The `_key_history` part of an entry. -/
def historyKvs (entry : ChangelogEntry) : List KvData :=
  tableKvs entry.message.entries keyHistoryTable

/-- The first kv of a column, which the checks look at. -/
def firstValue (kvs : List KvData) (column : String) : Option Bytes :=
  kvs.findSome? fun kv =>
    match parsedColumn? kv.key with
    | some (_, _, c) => if c = column then some kv.value else none
    | none => none

/-- An integer cell of a history row. -/
def Db.historyInt (db : Db) (rowId : Int) (column : String) : Option Int :=
  (db[columnKey keyHistoryTable rowId column]?).bind parseI64ColumnValue

/-- The `uid` index lists the row for the user. -/
def Listed (db : Db) (uid : Nat) (rowId : Int) : Prop :=
  ∃ key value element, db[key]? = some value ∧
    indexValuePrefix keyHistoryTable "uid" (.int uid) <+: key ∧
    parseKey key = .ok (.index keyHistoryTable "uid" element rowId)

/-- A listed row ends at `last`. -/
def ListedEnd (db : Db) (uid : Nat) (last : Int) : Prop :=
  ∃ rowId, Listed db uid rowId ∧ db.historyInt rowId "valid_to_change_id" = some last

/-- `start` comes right after the greatest end, and is `0` if there is none. -/
def Follows (ends : Int → Prop) (start : Int) : Prop :=
  ((∀ last, ¬ ends last) ∧ start = 0) ∨
    ∃ last, ends last ∧ (∀ e, ends e → e ≤ last) ∧ start = last + 1

theorem Follows.congr {ends ends' : Int → Prop} {start : Int} (h : Follows ends start)
    (hEnds : ∀ e, ends e ↔ ends' e) : Follows ends' start := by
  rwa [← funext fun e => propext (hEnds e)]

/-- There is at most one such start. -/
theorem Follows.unique {ends : Int → Prop} {start start' : Int} (h : Follows ends start)
    (h' : Follows ends start') : start = start' := by
  rcases h with ⟨hNone, rfl⟩ | ⟨last, hLast, hMax, rfl⟩
  · rcases h' with ⟨_, rfl⟩ | ⟨last', hLast', _⟩
    · rfl
    · exact absurd hLast' (hNone last')
  · rcases h' with ⟨hNone, _⟩ | ⟨last', hLast', hMax', rfl⟩
    · exact absurd hLast (hNone last)
    · have hLe := hMax last' hLast'
      have hGe := hMax' last hLast
      omega

theorem parseI64ColumnValue_i64ToValueBytes {i : Int} (h : InI64 i) :
    parseI64ColumnValue (i64ToValueBytes i) = some i := by
  unfold parseI64ColumnValue
  rw [bytesToValue_i64ToValueBytes h]
  exact if_pos h

/-! ## Checks on the entry -/

section Entry

variable {kvs : List KvData} {keys : List Bytes} {opName : String}

theorem extractValueFromKhEntries_eq_ok {column : String} {value : Bytes} :
    extractValueFromKhEntries kvs column opName = .ok value ↔
      firstValue kvs column = some value := by
  unfold extractValueFromKhEntries
  dsimp only
  split
  next v hFound =>
    have hFirst : firstValue kvs column = some v := hFound
    simp [hFirst]
  next hFound =>
    have hFirst : firstValue kvs column = none := hFound
    simp [hFirst]

theorem decodeI64ColumnValue_eq_ok {value : Bytes} {label : String} {i : Int} :
    decodeI64ColumnValue value opName label = .ok i ↔ parseI64ColumnValue value = some i := by
  unfold decodeI64ColumnValue
  cases parseI64ColumnValue value with
  | none => simp
  | some v => simp

theorem extractI64FromKhEntries_eq_ok {column : String} {i : Int} :
    extractI64FromKhEntries kvs column opName = .ok i ↔
      (firstValue kvs column).bind parseI64ColumnValue = some i := by
  unfold extractI64FromKhEntries
  rw [bind_eq_ok, Option.bind_eq_some_iff]
  simp only [extractValueFromKhEntries_eq_ok, decodeI64ColumnValue_eq_ok]

/-- A cell that passes as the user's id reads as that integer. -/
theorem parseI64ColumnValue_of_uidCell {value : Bytes} {uid : Nat} (hUid : uid < 2 ^ 63)
    (h : uidCell value = some uid) : parseI64ColumnValue value = some (uid : Int) := by
  unfold uidCell at h
  unfold parseI64ColumnValue
  cases hValue : bytesToValue value with
  | error e => simp [hValue] at h
  | ok v =>
    simp only [hValue] at h ⊢
    cases v with
    | int i =>
      simp only [Value.asU64, Value.asI64] at h ⊢
      by_cases hU64 : 0 ≤ i ∧ i < 2 ^ 64
      · simp only [if_pos hU64, Option.some.injEq] at h
        have hEq : i = uid := by omega
        have hIn : InI64 i := by unfold InI64; omega
        rw [if_pos hIn, hEq]
      · simp only [if_neg hU64] at h
        by_cases hIn : InI64 i
        · -- a negative id has a bit pattern above every id
          rw [if_pos hIn, Option.map_some, Option.some.injEq] at h
          unfold ofI64 at h
          unfold InI64 at hIn
          omega
        · rw [if_neg hIn] at h
          cases h
    | null | bool b | float bits | string s | array items | object fields =>
      simp [Value.asU64, Value.asI64] at h

/-- What `validate_key_history_entries` establishes about the kvs. -/
theorem validateKeyHistoryEntries_eq_ok {rowId r : Int} {uid : Nat} (hIn : InI64 rowId)
    (hKeys : List.Forall₂ (Rebuilt rowId) kvs keys)
    (h : validateKeyHistoryEntries keys kvs uid opName = .ok r) :
    (∀ column ∈ keyHistoryRequiredColumns, column ∈ columnNamesFromKeys (kvs.map KvData.key)) ∧
      ∀ kv ∈ kvs, (parsedColumn? kv.key).map (·.2.2) = some "uid" →
        uidCell kv.value = some uid := by
  obtain ⟨khRowId, _, h⟩ := bind_eq_ok.mp h
  cases khRowId with
  | none => cases h
  | some id =>
    iterate 2 obtain ⟨_, _, h⟩ := bind_eq_ok.mp h
    obtain ⟨_, hRequired, h⟩ := bind_eq_ok.mp h
    obtain ⟨_, hUids, _⟩ := bind_eq_ok.mp h
    constructor
    · intro column hMem
      obtain ⟨_, _, hCheck⟩ := exists_ok_of_mapM hRequired hMem
      obtain ⟨key, hKey, table, r', hParse⟩ := mem_columnNamesFromKeys.mp (check_eq_ok.mp hCheck)
      obtain ⟨kv, hkv, table', column', hKv, rfl⟩ := Lists.exists_left_of_forall₂ hKeys hKey
      have hSame := cell_unique hParse (parsedColumn?_columnKey table' column' hIn)
      refine mem_columnNamesFromKeys.mpr ⟨kv.key, mem_map_of_mem hkv, table', 0, ?_⟩
      rw [hKv, hSame.2.2]
    · intro kv hkv hName
      obtain ⟨i, hi, rfl⟩ := getElem_of_mem hkv
      have hi' : i < keys.length := hKeys.length_eq ▸ hi
      have hRebuilt : Rebuilt rowId kvs[i] keys[i] := hKeys.get hi hi'
      obtain ⟨table, column, hKv, hCell⟩ := hRebuilt
      have hKey := parsedColumn?_columnKey table column hIn
      rw [← hCell] at hKey
      have hZip : (keys[i], kvs[i]) ∈ keys.zip kvs := by
        rw [← getElem_zip (h := by rw [length_zip]; omega)]
        exact getElem_mem _
      obtain ⟨_, _, hCheck⟩ := exists_ok_of_mapM hUids hZip
      rw [hKv, Option.map_some, Option.some.injEq] at hName
      simp only [validateKeyHistoryUid, hKey] at hCheck
      rw [if_pos hName] at hCheck
      cases hCell : uidCell kvs[i].value with
      | none => simp [hCell] at hCheck
      | some uid' =>
        simp only [hCell, check_eq_ok] at hCheck
        rw [hCheck]

end Entry

/-! ## Stored ranges -/

section Ranges

variable {codec : RuleCodec} {db : Db} {uid : Nat} {opName : String}

/-- The rows that an index scan for a user finds. -/
theorem readIndexedRowIds_fromDb :
    (readIndexedRowIds keyHistoryTable "uid" uid opName).Returns (FromDb codec db) fun ids =>
      ∀ id, id ∈ ids ↔ Listed db uid id :=
  readIndexedRowIds_lists

theorem readKhRange_fromDb {rowId : Int} :
    (readKhRange opName rowId).Returns (FromDb codec db) fun range =>
      db.historyInt rowId "valid_from_change_id" = some range.1 ∧
        db.historyInt rowId "valid_to_change_id" = some range.2 := by
  unfold Db.historyInt
  refine readKey_fromDb.bind fun validFrom hFrom => ?_
  refine readKey_fromDb.bind fun validTo hTo => ?_
  refine returns_orFail.bind fun fromBytes hFromBytes => ?_
  refine returns_orFail.bind fun toBytes hToBytes => ?_
  refine (returns_lift decodeI64ColumnValue_eq_ok.mp).bind fun first hFirst => ?_
  refine (returns_lift decodeI64ColumnValue_eq_ok.mp).bind fun last hLast => ?_
  refine returns_ret ⟨?_, ?_⟩
  · rw [← hFrom, hFromBytes]
    exact hFirst
  · rw [← hTo, hToBytes]
    exact hLast

/-- The ends among the ranges that are read. -/
theorem readKhRangesIndexed_fromDb :
    (readKhRangesIndexed uid opName).Returns (FromDb codec db) fun existing =>
      ∀ last, (∃ range ∈ existing, range.2 = last) ↔ ListedEnd db uid last := by
  refine readIndexedRowIds_fromDb.bind fun ids hIds => ?_
  refine (returns_collect_forall₂ fun id _ => readKhRange_fromDb).mono
    fun existing hRanges last => ?_
  have hRow : (∃ range ∈ existing, range.2 = last) ↔
      ∃ id ∈ ids, db.historyInt id "valid_to_change_id" = some last := by
    clear hIds
    induction hRanges with
    | nil => simp
    | cons hHead _ ih =>
      rw [exists_mem_cons_iff, exists_mem_cons_iff, ih, hHead.2, Option.some.injEq]
  rw [hRow]
  exact exists_congr fun id => and_congr_left fun _ => hIds id

/-- An accepted range starts right after the existing ones. -/
theorem validateKhRange_eq_ok {who first : String} {validFrom validTo : Int}
    {existing : List (Int × Int)} {u : Unit}
    (h : validateKhRange opName who first validFrom validTo existing = .ok u) :
    Follows (fun last => ∃ range ∈ existing, range.2 = last) validFrom := by
  obtain ⟨_, _, h⟩ := bind_eq_ok.mp h
  cases hMax : (existing.map (·.2)).max? with
  | none =>
    rw [max?_eq_none_iff, map_eq_nil_iff] at hMax
    subst hMax
    exact .inl ⟨fun last hLast => by simp at hLast, check_eq_ok.mp h⟩
  | some last =>
    simp only [hMax] at h
    rw [max?_eq_some_iff, mem_map, forall_mem_map] at hMax
    cases hNext : checkedAdd last 1 with
    | none => simp [hNext] at h
    | some next =>
      simp only [hNext, check_eq_ok] at h
      obtain ⟨rfl, _⟩ := checkedAdd_eq_some_iff.mp hNext
      refine .inr ⟨last, hMax.1, fun e he => ?_, h⟩
      obtain ⟨range, hRange, rfl⟩ := he
      exact hMax.2 range hRange

/-- The retired key is the stored one. -/
theorem requireOldAuthKey_fromDb {who : String} {kvs : List KvData} :
    (requireOldAuthKey opName who uid kvs).Returns (FromDb codec db) fun _ =>
      ∃ old, firstValue kvs "old_auth_key" = some old ∧
        db[columnKey usersTable uid "auth_key"]? = some old := by
  refine (returns_lift extractValueFromKhEntries_eq_ok.mp).bind
    fun old hOld => ?_
  refine readKey_fromDb.bind fun current hCurrent => ?_
  refine returns_orFail.bind fun bytes hBytes => ?_
  refine returns_ensure.mono fun _ hEq => ⟨old, hOld, ?_⟩
  rw [← hCurrent, hBytes, hEq]

end Ranges

/-! ## What is checked -/

/-- The checks that both operations make on the history part of an entry, for the
user whose key is retired. -/
structure HistoryChecked (db : Db) (kvs : List KvData) (uid : Nat) (validFrom validTo : Int) :
    Prop where
  columns : ∀ column ∈ keyHistoryRequiredColumns,
    column ∈ columnNamesFromKeys (kvs.map KvData.key)
  uidCells : ∀ kv ∈ kvs, (parsedColumn? kv.key).map (·.2.2) = some "uid" →
    uidCell kv.value = some uid
  authKey : ∃ old, firstValue kvs "old_auth_key" = some old ∧
    db[columnKey usersTable uid "auth_key"]? = some old
  starts : (firstValue kvs "valid_from_change_id").bind parseI64ColumnValue = some validFrom
  le : validFrom ≤ validTo
  follows : Follows (ListedEnd db uid) validFrom

theorem inlineValue_eq_some {kvs : List KvData} {column : String} {value : Bytes}
    (h : inlineValue kvs column = some value) :
    ∃ kv ∈ kvs, (parsedColumn? kv.key).map (·.2.2) = some column ∧ kv.value = value := by
  obtain ⟨kv, hkv, hValue⟩ := exists_of_findSome?_eq_some h
  refine ⟨kv, mem_reverse.mp hkv, ?_⟩
  cases hKey : parsedColumn? kv.key with
  | none => simp [hKey] at hValue
  | some cell => simpa [hKey] using hValue

section Checked

variable {db : Db} {kvs : List KvData} {uid : Nat} {validFrom validTo : Int}

theorem HistoryChecked.inlineValue_isSome (h : HistoryChecked db kvs uid validFrom validTo)
    {column : String} (hColumn : column ∈ keyHistoryRequiredColumns) :
    ∃ value, inlineValue kvs column = some value :=
  Option.isSome_iff_exists.mp (inlineValue_isSome_iff.mpr (h.columns column hColumn))

/-- All `uid` cells are checked, so the stored one is the user's. -/
theorem HistoryChecked.uid_stored (h : HistoryChecked db kvs uid validFrom validTo)
    (hUid : uid < 2 ^ 63) :
    (inlineValue kvs "uid").bind parseI64ColumnValue = some (uid : Int) := by
  have hRequired : "uid" ∈ keyHistoryRequiredColumns := by decide
  obtain ⟨value, hValue⟩ := h.inlineValue_isSome hRequired
  obtain ⟨kv, hkv, hColumn, rfl⟩ := inlineValue_eq_some hValue
  rw [hValue, Option.bind_some]
  exact parseI64ColumnValue_of_uidCell hUid (h.uidCells kv hkv hColumn)

end Checked

/-! ## What is written -/

theorem buildIndexKey_eq_ok {table column opName : String} {bytes key : Bytes} {rowId : Int} :
    buildIndexKey table column bytes rowId opName = .ok key ↔
      ∃ value element, bytesToValue bytes = .ok value ∧ value.toTupleElement = .ok element ∧
        key = indexKey table column element rowId := by
  unfold buildIndexKey
  simp only [bind_eq_ok, mapError_eq_ok, pure_eq_ok]
  constructor
  · rintro ⟨value, hValue, element, hElement, rfl⟩
    exact ⟨value, element, hValue, hElement, rfl⟩
  · rintro ⟨value, element, hValue, hElement, rfl⟩
    exact ⟨value, hValue, element, hElement, rfl⟩

theorem makeIndexPut_eq_ok {table column opName : String} {bytes : Bytes} {rowId : Int}
    {op : BatchOp} :
    makeIndexPut table column bytes rowId opName = .ok op ↔
      ∃ value element, bytesToValue bytes = .ok value ∧ value.toTupleElement = .ok element ∧
        0 ≤ rowId ∧ op = .put (indexKey table column element rowId) (i64ToBeBytes rowId) := by
  unfold makeIndexPut rowIdToBytes
  simp only [bind_eq_ok, buildIndexKey_eq_ok, pure_eq_ok]
  constructor
  · rintro ⟨key, ⟨value, element, hValue, hElement, rfl⟩, rowIdBytes, hRow, rfl⟩
    split at hRow
    · rename_i hNonneg
      cases hRow
      exact ⟨value, element, hValue, hElement, hNonneg, rfl⟩
    · cases hRow
  · rintro ⟨value, element, hValue, hElement, hNonneg, rfl⟩
    exact ⟨_, ⟨value, element, hValue, hElement, rfl⟩, i64ToBeBytes rowId, if_pos hNonneg, rfl⟩

/-- The row is stored under the next id: `stored` is what becomes of a kv's
value.  Its index entry and the counter are the only other writes to the table. -/
structure HistoryWritten (db : Db) (kvs : List KvData) (uid : Nat)
    (stored : String → Bytes → Bytes) (batch : Batch) : Prop where
  nonneg : 0 ≤ db.nextId keyHistoryTable
  inI64 : InI64 (db.nextId keyHistoryTable + 1)
  cell : ∀ column, written batch (columnKey keyHistoryTable (db.nextId keyHistoryTable) column) =
    (inlineValue kvs column).map fun bytes => some (stored column bytes)
  frame : ∀ key rowId column, parsedColumn? key = some (keyHistoryTable, rowId, column) →
    key ≠ columnKey keyHistoryTable (db.nextId keyHistoryTable) column → written batch key = none
  index : ∀ key, HasFront key tagIndex keyHistoryTable → written batch key =
    if key = indexKey keyHistoryTable "uid" (.int uid) (db.nextId keyHistoryTable) then
      some (some (i64ToBeBytes (db.nextId keyHistoryTable)))
    else none
  counter : written batch (schemaNextIdKey keyHistoryTable) =
    some (some (i64ToBeBytes (db.nextId keyHistoryTable + 1)))

section Written

variable {codec : RuleCodec} {db : Db} {n : Nat} {kvs : List KvData} {uid : Nat} {opName : String}

theorem bumpNextIdAfterChain_one {table : String} {counter : Int} {batch : Batch}
    (h : bumpNextIdAfterChain table counter 1 opName = .ok batch) :
    InI64 (counter + 1) ∧ batch = [nextIdPut table (counter + 1)] := by
  unfold bumpNextIdAfterChain at h
  rw [if_neg one_ne_zero, sub_self] at h
  cases hLast : checkedAdd counter 0 with
  | none =>
    rw [hLast] at h
    cases h
  | some last =>
    rw [hLast] at h
    obtain ⟨next, hNext, h⟩ := bind_eq_ok.mp h
    obtain ⟨rfl, hIn⟩ := nextIdAfter_eq_ok.mp hNext
    have hSame : last = counter := by
      have hAdd := (checkedAdd_eq_some_iff.mp hLast).1
      omega
    rw [hSame] at h hIn
    exact ⟨hIn, (pure_eq_ok.mp h).symm⟩

/-- The index entry of the row, and the counter. -/
def historyTail (uid : Nat) (rowId : Int) : Batch :=
  [.put (indexKey keyHistoryTable "uid" (.int uid) rowId) (i64ToBeBytes rowId),
    nextIdPut keyHistoryTable (rowId + 1)]

theorem keyHistoryIndexPuts_fromDb (hDb : Reachable codec n db) {rowId : Int}
    (hUid : (inlineValue kvs "uid").bind parseI64ColumnValue = some (uid : Int)) :
    (keyHistoryIndexPuts opName rowId kvs).Returns (FromDb codec db) fun batch =>
      0 ≤ rowId ∧ InI64 (rowId + 1) ∧ batch = historyTail uid rowId := by
  have hPuts : (appendInsertIndexPuts keyHistoryTable rowId kvs opName).Returns (FromDb codec db)
      fun puts => 0 ≤ rowId ∧
        puts = [.put (indexKey keyHistoryTable "uid" (.int uid) rowId) (i64ToBeBytes rowId)] := by
    refine (hDb.readSchemaIndexes_returns historySchema_mem).bind fun columns hColumns => ?_
    have hUidOnly : columns = ["uid"] := hColumns.trans (by decide)
    subst hUidOnly
    refine returns_lift fun {puts} hPuts => ?_
    obtain ⟨bytes, hBytes, hParse⟩ := Option.bind_eq_some_iff.mp hUid
    unfold indexPutsFor at hPuts
    rw [mapM_eq_ok, forall₂_cons_left_iff] at hPuts
    obtain ⟨op, rest, hOp, hRest, rfl⟩ := hPuts
    rw [forall₂_nil_left_iff] at hRest
    subst hRest
    simp only [hBytes] at hOp
    obtain ⟨value, element, hValue, hElement, hNonneg, rfl⟩ := makeIndexPut_eq_ok.mp hOp
    have hInt : value.asI64 = some (uid : Int) := by
      unfold parseI64ColumnValue at hParse
      rwa [hValue] at hParse
    rw [Value.toTupleElement_eq_int_iff.mpr hInt, Except.ok.injEq] at hElement
    subst hElement
    exact ⟨hNonneg, rfl⟩
  refine hPuts.bind fun puts hPuts => ?_
  obtain ⟨hNonneg, rfl⟩ := hPuts
  refine (returns_lift bumpNextIdAfterChain_one).bind fun bump hBump => ?_
  obtain ⟨hIn, rfl⟩ := hBump
  exact returns_ret ⟨hNonneg, hIn, rfl⟩

/-- The row, its index entry and the counter, with writes to other tables before,
between and after them. -/
theorem historyWritten_of_parts {keys : List Bytes} {put : Bytes × KvData → BatchOp}
    {stored : String → Bytes → Bytes} {before between after : Batch}
    {foreign : String → Prop} (hForeign : ¬ foreign keyHistoryTable)
    (hBefore : Touches foreign before) (hBetween : Touches foreign between)
    (hAfter : Touches foreign after)
    (hPut : ∀ kv column, put (columnKey keyHistoryTable (db.nextId keyHistoryTable) column, kv) =
      .put (columnKey keyHistoryTable (db.nextId keyHistoryTable) column) (stored column kv.value))
    (hPutKey : ∀ p, (put p).key = p.1)
    (hTable : ∀ kv ∈ kvs, IsColumnOf keyHistoryTable kv.key)
    (hKeys : List.Forall₂ (Rebuilt (db.nextId keyHistoryTable)) kvs keys)
    (hNonneg : 0 ≤ db.nextId keyHistoryTable) (hIn : InI64 (db.nextId keyHistoryTable + 1)) :
    HistoryWritten db kvs uid stored (before ++ (keys.zip kvs).map put ++ between ++
      historyTail uid (db.nextId keyHistoryTable) ++ after) := by
  have hId : InI64 (db.nextId keyHistoryTable) := by
    unfold InI64 at hIn ⊢
    omega
  have hParts : ∀ {key}, TableKey keyHistoryTable key → written (before ++ (keys.zip kvs).map put ++
      between ++ historyTail uid (db.nextId keyHistoryTable) ++ after) key =
        (written (historyTail uid (db.nextId keyHistoryTable)) key).or
          (written ((keys.zip kvs).map put) key) := by
    intro key hKey
    rw [written_append, written_append, written_append, written_append,
      hAfter.written_tableKey hKey hForeign (by decide),
      hBetween.written_tableKey hKey hForeign (by decide),
      hBefore.written_tableKey hKey hForeign (by decide), Option.none_or, Option.none_or,
      Option.or_none]
  -- the row's own puts are cells, the others are none
  have hCells : ∀ key, (∀ column, key ≠ columnKey keyHistoryTable (db.nextId keyHistoryTable)
      column) → written ((keys.zip kvs).map put) key = none := by
    intro key hNe
    refine written_eq_none_iff.mpr fun op hOp hEq => ?_
    obtain ⟨column, _, hKey⟩ := mem_rebuilt hPutKey hKeys hTable hOp
    exact hNe column (hEq ▸ hKey)
  have hTail : ∀ key rowId column, parsedColumn? key = some (keyHistoryTable, rowId, column) →
      written (historyTail uid (db.nextId keyHistoryTable)) key = none := by
    intro key rowId column hKey
    have hNext : (nextIdPut keyHistoryTable (db.nextId keyHistoryTable + 1)).key ≠ key :=
      schemaNextIdKey_ne hKey
    have hIndex : (BatchOp.put (indexKey keyHistoryTable "uid" (.int uid)
        (db.nextId keyHistoryTable)) (i64ToBeBytes (db.nextId keyHistoryTable))).key ≠ key := by
      rintro rfl
      have hFront := hasFront_of_cell hKey
      exact absurd (hFront.unique (hasFront_encodeTuple tagIndex keyHistoryTable _)).1 (by decide)
    rw [historyTail, written_cons, written_cons, if_neg hNext, if_neg hIndex]
    rfl
  refine ⟨hNonneg, hIn, fun column => ?_, fun key rowId column hKey hNe => ?_, fun key hFront => ?_,
    ?_⟩
  · rw [hParts (tableKey_columnKey _ _ _), hTail _ _ _ (parsedColumn?_columnKey _ _ hId),
      written_rebuilt stored hPut hId hKeys hTable column, Option.none_or]
  · have hOther : ∀ c, key ≠ columnKey keyHistoryTable (db.nextId keyHistoryTable) c := by
      rintro c rfl
      exact hNe (by rw [(columnKey_cell hId hKey).2.2])
    rw [hParts (IsColumnOf.tableKey ⟨rowId, column, hKey⟩), hTail _ _ _ hKey, hCells key hOther]
    rfl
  · have hOther : ∀ c, key ≠ columnKey keyHistoryTable (db.nextId keyHistoryTable) c := by
      rintro c rfl
      exact absurd (hFront.unique (hasFront_encodeTuple tagRow keyHistoryTable _)).1 (by decide)
    have hNext : schemaNextIdKey keyHistoryTable ≠ key := by
      rintro rfl
      exact absurd (hFront.unique (hasFront_encodeTuple tagSchema keyHistoryTable _)).1 (by decide)
    rw [hParts (.inr (.inl hFront)), hCells key hOther, historyTail, written_cons, written_cons]
    simp only [nextIdPut, BatchOp.key, BatchOp.write, hNext, if_false, written_nil, Option.none_or,
      Option.or_none, eq_comm]
  · rw [hParts (tableKey_nextIdKey keyHistoryTable), historyTail, written_cons, written_cons]
    simp [nextIdPut, BatchOp.key, BatchOp.write]

end Written

end EncryptedSpaces.Ops
