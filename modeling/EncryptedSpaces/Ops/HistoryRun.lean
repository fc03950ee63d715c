import EncryptedSpaces.Lib.Tiling
import EncryptedSpaces.Ops.KeySteps
import EncryptedSpaces.Ops.RemoveUser

/-!
# The key history over whole runs

The rows of `_key_history` that are stored for one user cover the change ids from
`0` on without gap or overlap, and each holds the auth key that it retired.  RefreshKeys
and RemoveUser compare the first cell of each column with the earlier rows and
store the last one, so runs keep this as long as the two agree
(`RetiresCleanly`).
-/

namespace EncryptedSpaces.Ops

open Encoding Changelog Lib List Option

/-! ## The history of a user -/

/-- A history row is stored for the user, under a key of any encoding. -/
def StoredFor (db : Db) (uid : Nat) (rowId : Int) : Prop :=
  ∃ key value, db[key]? = some value ∧
    parsedColumn? key = some (keyHistoryTable, rowId, "uid") ∧
    parseI64ColumnValue value = some (uid : Int)

structure HistoryRow where
  rowId : Int
  first : Int
  last : Int

def HistoryRow.range (row : HistoryRow) : Int × Int := (row.first, row.last)

/-- An entry of the run added the row, which holds the auth key that was stored for
the user just before. -/
def Retired (codec : RuleCodec) (start : Db) (entries : List ChangelogEntry) (db : Db) (uid : Nat)
    (rowId : Int) : Prop :=
  ∃ before entry after db₁ db₂ authKey, entries = before ++ entry :: after ∧
    Run codec start before db₁ ∧ NoRow db₁ keyHistoryTable rowId ∧
    Run codec start (before ++ [entry]) db₂ ∧ ¬ NoRow db₂ keyHistoryTable rowId ∧
    db[columnKey keyHistoryTable rowId "old_auth_key"]? = some authKey ∧
    db₁[columnKey usersTable uid "auth_key"]? = some authKey

/-- A row of the history, with the range that its cells give. -/
structure HistoryRow.Stored (codec : RuleCodec) (start : Db) (entries : List ChangelogEntry)
    (db : Db) (uid : Nat) (row : HistoryRow) : Prop where
  first : db.historyInt row.rowId "valid_from_change_id" = some row.first
  last : db.historyInt row.rowId "valid_to_change_id" = some row.last
  bound : row.last ≤ entries.length
  retired : Retired codec start entries db uid row.rowId

/-- The rows stored for a user, in the order of their ranges. -/
structure HistoryOf (codec : RuleCodec) (start : Db) (entries : List ChangelogEntry) (db : Db)
    (uid : Nat) (rows : List HistoryRow) : Prop where
  complete : ∀ rowId, StoredFor db uid rowId ↔ ∃ row ∈ rows, row.rowId = rowId
  stored : ∀ row ∈ rows, row.Stored codec start entries db uid
  tiles : Tiles 0 (rows.map HistoryRow.range)
  disjoint : (rows.map HistoryRow.range).Pairwise fun a b => a.2 < b.1

/-- The cells of the entry that are compared with the stored rows and then kept; the
end of the range is set by RemoveUser itself. -/
def comparedColumns : OpType → List String
  | .refreshKeys => ["old_auth_key", "valid_from_change_id", "valid_to_change_id"]
  | .removeUser => ["old_auth_key", "valid_from_change_id"]
  | _ => []

/-- The cells that are compared are those that are stored. -/
def RetiresCleanly (entry : ChangelogEntry) : Prop :=
  ∀ column ∈ comparedColumns entry.message.opType,
    inlineValue (historyKvs entry) column = firstValue (historyKvs entry) column

instance (entry : ChangelogEntry) : Decidable (RetiresCleanly entry) :=
  inferInstanceAs (Decidable (∀ column ∈ comparedColumns entry.message.opType, _))

/-! ## The invariant -/

/-- History cells are canonical and below the counter, and the index lists exactly
the rows that are stored. -/
structure HistoryInv (codec : RuleCodec) (start : Db) (entries : List ChangelogEntry) (db : Db) :
    Prop where
  cells : ∀ rowId, RowKeys db keyHistoryTable rowId fun key column =>
    key = columnKey keyHistoryTable rowId column ∧ rowId < db.nextId keyHistoryTable
  index : ∀ key value, db[key]? = some value → ∀ column element rowId,
    parseKey key = .ok (.index keyHistoryTable column element rowId) →
    ∃ uid : Nat, uid < 2 ^ 63 ∧ key = indexKey keyHistoryTable "uid" (.int uid) rowId ∧
      db.historyInt rowId "uid" = some (uid : Int)
  listed : ∀ (rowId : Int) (uid : Nat), InI64 rowId → db.historyInt rowId "uid" = some (uid : Int) →
    (db[indexKey keyHistoryTable "uid" (.int uid) rowId]?).isSome
  rows : ∀ uid, ∃ rows, HistoryOf codec start entries db uid rows

section Inv

variable {codec : RuleCodec} {start db : Db} {entries : List ChangelogEntry} {uid : Nat}
  {rowId : Int}

section

variable (h : HistoryInv codec start entries db)
include h

theorem HistoryInv.storedFor_iff :
    StoredFor db uid rowId ↔ InI64 rowId ∧ db.historyInt rowId "uid" = some (uid : Int) := by
  constructor
  · rintro ⟨key, value, hGet, hKey, hUid⟩
    obtain ⟨rfl, _⟩ := h.cells rowId key value hGet "uid" hKey
    refine ⟨inI64_of_parseKey (parsedColumn?_eq_some_iff.mp hKey), ?_⟩
    unfold Db.historyInt
    rw [hGet]
    exact hUid
  · rintro ⟨hIn, hUid⟩
    obtain ⟨value, hGet, hParse⟩ := bind_eq_some_iff.mp hUid
    exact ⟨_, value, hGet, parsedColumn?_columnKey _ _ hIn, hParse⟩

theorem HistoryInv.noRow
    (hRow : db.nextId keyHistoryTable ≤ rowId) : NoRow db keyHistoryTable rowId := by
  intro key value hGet column hKey
  have hLt := (h.cells rowId key value hGet column hKey).2
  omega

theorem HistoryInv.indexesHistory (hUid : uid < 2 ^ 63) :
    IndexesHistory db uid := by
  have hInUid : InI64 (uid : Int) := by unfold InI64; omega
  intro rowId hIn
  constructor
  · rintro ⟨key, value, element, hGet, hPrefix, hParse⟩
    obtain ⟨uid', hUid', rfl, hRow⟩ := h.index key value hGet _ _ _ hParse
    have hInUid' : InI64 (uid' : Int) := by unfold InI64; omega
    obtain ⟨_, hEq⟩ := indexValuePrefix_prefix_indexKey hInUid hInUid' hPrefix
    rw [hRow, hEq]
  · intro hRow
    obtain ⟨value, hGet⟩ := isSome_iff_exists.mp (h.listed rowId uid hIn hRow)
    exact ⟨_, value, _, hGet, indexValuePrefix_prefix _ _ _ _, parseKey_indexKey hInUid hIn⟩

/-- The ends that the verifiers find are those of the user's rows. -/
theorem HistoryInv.listedEnd_iff (hUid : uid < 2 ^ 63)
    {rows : List HistoryRow} (hRows : HistoryOf codec start entries db uid rows) (last : Int) :
    ListedEnd db uid last ↔ ∃ range ∈ rows.map HistoryRow.range, range.2 = last := by
  rw [(h.indexesHistory hUid).listedEnd_iff]
  constructor
  · rintro ⟨rowId, hIn, hRow, hLast⟩
    obtain ⟨row, hMem, rfl⟩ := (hRows.complete rowId).mp (h.storedFor_iff.mpr ⟨hIn, hRow⟩)
    refine ⟨row.range, mem_map_of_mem hMem, ?_⟩
    exact some.inj ((hRows.stored row hMem).last.symm.trans hLast)
  · rintro ⟨range, hRange, rfl⟩
    obtain ⟨row, hMem, rfl⟩ := mem_map.mp hRange
    obtain ⟨hIn, hRow⟩ := h.storedFor_iff.mp ((hRows.complete row.rowId).mpr ⟨row, hMem, rfl⟩)
    exact ⟨row.rowId, hIn, hRow, (hRows.stored row hMem).last⟩

/-- The user's rows are below the counter. -/
theorem HistoryInv.rowId_lt {rows : List HistoryRow}
    (hRows : HistoryOf codec start entries db uid rows) {row : HistoryRow} (hMem : row ∈ rows) :
    InI64 row.rowId ∧ row.rowId < db.nextId keyHistoryTable := by
  obtain ⟨key, value, hGet, hKey, _⟩ := (hRows.complete row.rowId).mpr ⟨row, hMem, rfl⟩
  exact ⟨inI64_of_parseKey (parsedColumn?_eq_some_iff.mp hKey),
    (h.cells _ key value hGet "uid" hKey).2⟩

end

/-- Rows of a user that share a change are the same. -/
theorem HistoryOf.eq_of_overlap {rows : List HistoryRow}
    (h : HistoryOf codec start entries db uid rows) {a b : HistoryRow}
    (ha : a ∈ rows) (hb : b ∈ rows)
    (hStart : a.first ≤ b.last) (hEnd : b.first ≤ a.last) : a = b := by
  have hLt : rows.Pairwise fun a b => a.last < b.first := pairwise_map.mp h.disjoint
  have hAny := List.Pairwise.forall_of_forall_of_flip
    (R := fun a b : HistoryRow => a = b ∨ a.last < b.first ∨ b.last < a.first)
    (fun a _ => .inl rfl) (hLt.imp fun hab => .inr (.inl hab)) (hLt.imp fun hab => .inr (.inr hab))
    ha hb
  rcases hAny with hEq | hLt | hLt
  · exact hEq
  · omega
  · omega

/-- What follows the ends of a tiling is its end. -/
theorem follows_tilesEnd {ranges : List (Int × Int)} (h : Tiles 0 ranges) :
    Follows (fun last => ∃ range ∈ ranges, range.2 = last) (tilesEnd 0 ranges) := by
  rcases tilesEnd_eq 0 ranges with ⟨rfl, hEnd⟩ | ⟨range, hMem, hEnd⟩
  · exact .inl ⟨fun last hLast => by simp at hLast, hEnd⟩
  · refine .inr ⟨range.2, ⟨range, hMem, rfl⟩, fun e he => ?_, hEnd⟩
    obtain ⟨range', hMem', rfl⟩ := he
    have hLt := (h.bounds.2 range' hMem').2.2
    omega

end Inv

/-! ## Steps -/

section Step

variable {codec : RuleCodec} {start db db' : Db} {entries : List ChangelogEntry}
  {entry : ChangelogEntry} {uid : Nat}

/-- A stored row stays as long as its cells do. -/
theorem HistoryRow.Stored.snoc {row : HistoryRow} (h : row.Stored codec start entries db uid)
    (hCells : ∀ column, db'[columnKey keyHistoryTable row.rowId column]? =
      db[columnKey keyHistoryTable row.rowId column]?) :
    row.Stored codec start (entries ++ [entry]) db' uid := by
  obtain ⟨before, e, after, db₁, db₂, authKey, rfl, hBefore, hNone, hAfter, hSome, hOld, hAuth⟩ :=
    h.retired
  have hBound := h.bound
  refine ⟨?_, ?_, ?_, ?_⟩
  · rw [Db.historyInt, hCells]
    exact h.first
  · rw [Db.historyInt, hCells]
    exact h.last
  · rw [length_append]
    omega
  · refine ⟨before, e, after ++ [entry], db₁, db₂, authKey, by simp, hBefore, hNone, hAfter, hSome,
      ?_, hAuth⟩
    rw [hCells, hOld]

/-- A user's history stays when no row of the user is added or changed. -/
theorem HistoryOf.snoc {rows : List HistoryRow} (h : HistoryOf codec start entries db uid rows)
    (hStored : ∀ rowId, StoredFor db' uid rowId ↔ StoredFor db uid rowId)
    (hCells : ∀ row ∈ rows, ∀ column, db'[columnKey keyHistoryTable row.rowId column]? =
      db[columnKey keyHistoryTable row.rowId column]?) :
    HistoryOf codec start (entries ++ [entry]) db' uid rows where
  complete rowId := (hStored rowId).trans (h.complete rowId)
  stored row hMem := (h.stored row hMem).snoc (hCells row hMem)
  tiles := h.tiles
  disjoint := h.disjoint

/-- So it does when nothing of the table is written. -/
theorem HistoryOf.snoc_of_same {rows : List HistoryRow}
    (h : HistoryOf codec start entries db uid rows)
    (hSame : ∀ key, TableKey keyHistoryTable key → db'[key]? = db[key]?) :
    HistoryOf codec start (entries ++ [entry]) db' uid rows := by
  refine h.snoc (fun rowId => ?_) fun row _ column => hSame _ (tableKey_columnKey _ _ _)
  refine exists_congr fun key => exists_congr fun value => ?_
  refine and_congr_left fun ⟨hKey, _⟩ => ?_
  rw [hSame key (IsColumnOf.tableKey ⟨_, _, hKey⟩)]

/-- An entry that does not touch the table keeps the invariant. -/
theorem HistoryInv.snoc_of_same (h : HistoryInv codec start entries db)
    (hSame : ∀ key, TableKey keyHistoryTable key → db'[key]? = db[key]?) :
    HistoryInv codec start (entries ++ [entry]) db' := by
  have hCell : ∀ {key : Bytes} {rowId : Int} {column : String},
      parsedColumn? key = some (keyHistoryTable, rowId, column) → db'[key]? = db[key]? :=
    fun hKey => hSame _ (IsColumnOf.tableKey ⟨_, _, hKey⟩)
  have hInt : ∀ rowId column, db'.historyInt rowId column = db.historyInt rowId column := by
    intro rowId column
    rw [Db.historyInt, hSame _ (tableKey_columnKey _ _ _)]
    rfl
  have hNext : db'.nextId keyHistoryTable = db.nextId keyHistoryTable := by
    rw [Db.nextId, hSame _ (tableKey_nextIdKey _)]
    rfl
  refine ⟨?_, ?_, ?_, ?_⟩
  · intro rowId key value hGet column hKey
    rw [hCell hKey] at hGet
    rw [hNext]
    exact h.cells rowId key value hGet column hKey
  · intro key value hGet column element rowId hParse
    rw [hSame key (.inr (.inl (hasFront_of_parseIndex hParse)))] at hGet
    rw [hInt]
    exact h.index key value hGet column element rowId hParse
  · intro rowId uid hIn hRow
    rw [hInt] at hRow
    rw [hSame _ (tableKey_indexKey _ _ _ _)]
    exact h.listed rowId uid hIn hRow
  · intro uid
    obtain ⟨rows, hRows⟩ := h.rows uid
    exact ⟨rows, hRows.snoc_of_same hSame⟩

end Step

/-- One row is added to the history of the user. -/
structure RowAdded (db db' : Db) (uid : Nat) (first last : Int) : Prop where
  inI64 : InI64 (db.nextId keyHistoryTable)
  nextInI64 : InI64 (db.nextId keyHistoryTable + 1)
  counter : db'[schemaNextIdKey keyHistoryTable]? =
    some (i64ToBeBytes (db.nextId keyHistoryTable + 1))
  frame : ∀ key rowId column, parsedColumn? key = some (keyHistoryTable, rowId, column) →
    key ≠ columnKey keyHistoryTable (db.nextId keyHistoryTable) column → db'[key]? = db[key]?
  index : ∀ key, HasFront key tagIndex keyHistoryTable → db'[key]? =
    if key = indexKey keyHistoryTable "uid" (.int uid) (db.nextId keyHistoryTable) then
      some (i64ToBeBytes (db.nextId keyHistoryTable))
    else db[key]?
  uidCell : db'.historyInt (db.nextId keyHistoryTable) "uid" = some (uid : Int)
  firstCell : db'.historyInt (db.nextId keyHistoryTable) "valid_from_change_id" = some first
  lastCell : db'.historyInt (db.nextId keyHistoryTable) "valid_to_change_id" = some last
  authKey : ∃ old, db'[columnKey keyHistoryTable (db.nextId keyHistoryTable) "old_auth_key"]? =
    some old ∧ db[columnKey usersTable uid "auth_key"]? = some old
  le : first ≤ last
  follows : Follows (ListedEnd db uid) first

section Added

variable {codec : RuleCodec} {start db db' : Db} {entries : List ChangelogEntry}
  {entry : ChangelogEntry} {uid : Nat} {first last : Int}

section

variable (h : RowAdded db db' uid first last)
include h

theorem RowAdded.next :
    db'.nextId keyHistoryTable = db.nextId keyHistoryTable + 1 := by
  rw [Db.nextId, h.counter]
  exact i64FromBeBytes_i64ToBeBytes h.nextInI64

variable {rowId : Int} {uid' : Nat} {rows : List HistoryRow}

/-- Cells of other rows stay. -/
theorem RowAdded.getElem?_of_ne {key : Bytes}
    {column : String} (hKey : parsedColumn? key = some (keyHistoryTable, rowId, column))
    (hRow : rowId ≠ db.nextId keyHistoryTable) : db'[key]? = db[key]? := by
  refine h.frame key rowId column hKey ?_
  rintro rfl
  exact hRow (columnKey_cell h.inI64 hKey).2.1.symm

theorem RowAdded.historyInt_of_ne (hIn : InI64 rowId)
    (hRow : rowId ≠ db.nextId keyHistoryTable) (column : String) :
    db'.historyInt rowId column = db.historyInt rowId column := by
  rw [Db.historyInt, h.getElem?_of_ne (parsedColumn?_columnKey _ _ hIn) hRow]
  rfl

section

variable (hInv : HistoryInv codec start entries db)
include hInv

theorem RowAdded.cells (rowId : Int) :
    RowKeys db' keyHistoryTable rowId fun key column =>
      key = columnKey keyHistoryTable rowId column ∧ rowId < db'.nextId keyHistoryTable := by
  intro key value hGet column hKey
  rw [h.next]
  by_cases hNew : key = columnKey keyHistoryTable (db.nextId keyHistoryTable) column
  · rw [hNew] at hKey
    obtain ⟨_, rfl, _⟩ := columnKey_cell h.inI64 hKey
    exact ⟨hNew, by omega⟩
  · rw [h.frame key rowId column hKey hNew] at hGet
    obtain ⟨hCanonical, hLt⟩ := hInv.cells rowId key value hGet column hKey
    exact ⟨hCanonical, by omega⟩

theorem RowAdded.storedFor_iff :
    StoredFor db' uid' rowId ↔
      StoredFor db uid' rowId ∨ uid' = uid ∧ rowId = db.nextId keyHistoryTable := by
  have hFresh : NoRow db keyHistoryTable (db.nextId keyHistoryTable) := hInv.noRow le_rfl
  by_cases hRow : rowId = db.nextId keyHistoryTable
  · subst hRow
    have hOld : ¬ StoredFor db uid' (db.nextId keyHistoryTable) := by
      rintro ⟨key, value, hGet, hKey, _⟩
      exact hFresh key value hGet "uid" hKey
    simp only [hOld, and_true, false_or]
    constructor
    · rintro ⟨key, value, hGet, hKey, hUid⟩
      obtain ⟨rfl, _⟩ := h.cells hInv _ key value hGet "uid" hKey
      have hCell := h.uidCell
      rw [Db.historyInt, hGet, bind_some, hUid, some.injEq] at hCell
      omega
    · rintro rfl
      obtain ⟨value, hGet, hUid⟩ := bind_eq_some_iff.mp h.uidCell
      exact ⟨_, value, hGet, parsedColumn?_columnKey _ _ h.inI64, hUid⟩
  · simp only [hRow, and_false, or_false]
    refine exists_congr fun key => exists_congr fun value => ?_
    refine and_congr_left fun ⟨hKey, _⟩ => ?_
    rw [h.getElem?_of_ne hKey hRow]

theorem RowAdded.index_iff (hUid : uid < 2 ^ 63) {key value : Bytes}
    (hGet : db'[key]? = some value) {column : String} {element : TupleElement}
    (hParse : parseKey key = .ok (.index keyHistoryTable column element rowId)) :
    ∃ uid : Nat, uid < 2 ^ 63 ∧ key = indexKey keyHistoryTable "uid" (.int uid) rowId ∧
      db'.historyInt rowId "uid" = some (uid : Int) := by
  have hInUid : InI64 (uid : Int) := by unfold InI64; omega
  rw [h.index key (hasFront_of_parseIndex hParse)] at hGet
  by_cases hNew : key = indexKey keyHistoryTable "uid" (.int uid) (db.nextId keyHistoryTable)
  · have hOwn : parseKey key = .ok (.index keyHistoryTable "uid" (.int uid)
        (db.nextId keyHistoryTable)) := by
      rw [hNew]
      exact parseKey_indexKey hInUid h.inI64
    rw [hOwn, Except.ok.injEq, ParsedKey.index.injEq] at hParse
    obtain ⟨_, _, _, rfl⟩ := hParse
    exact ⟨uid, hUid, hNew, h.uidCell⟩
  · rw [if_neg hNew] at hGet
    obtain ⟨uid', hUid', hKey, hRow⟩ := hInv.index key value hGet column element rowId hParse
    refine ⟨uid', hUid', hKey, ?_⟩
    have hIn : InI64 rowId := inI64_of_parseIndex hParse
    have hLt : rowId ≠ db.nextId keyHistoryTable := by
      obtain ⟨cell, hCell, _⟩ := bind_eq_some_iff.mp hRow
      have hBelow := (hInv.cells rowId _ cell hCell "uid" (parsedColumn?_columnKey _ _ hIn)).2
      omega
    rw [h.historyInt_of_ne hIn hLt, hRow]

/-- The cells of earlier rows stay. -/
theorem RowAdded.cells_eq
    (hRows : HistoryOf codec start entries db uid' rows) {row : HistoryRow} (hMem : row ∈ rows)
    (column : String) : db'[columnKey keyHistoryTable row.rowId column]? =
      db[columnKey keyHistoryTable row.rowId column]? := by
  obtain ⟨hIn, hLt⟩ := hInv.rowId_lt hRows hMem
  exact h.getElem?_of_ne (parsedColumn?_columnKey _ column hIn) (by omega)

/-- The row begins where the user's rows end. -/
theorem RowAdded.first_eq (hUid : uid < 2 ^ 63)
    (hRows : HistoryOf codec start entries db uid rows) :
    first = tilesEnd 0 (rows.map HistoryRow.range) :=
  h.follows.unique ((follows_tilesEnd hRows.tiles).congr fun e =>
    (hInv.listedEnd_iff hUid hRows e).symm)

/-- The row is one of the user's, right after the others. -/
theorem RowAdded.historyOf (hUid : uid < 2 ^ 63)
    (hRun : Run codec start entries db) (hRun' : Run codec start (entries ++ [entry]) db')
    (hBound : last ≤ entries.length) (hRows : HistoryOf codec start entries db uid rows) :
    HistoryOf codec start (entries ++ [entry]) db' uid
      (rows ++ [⟨db.nextId keyHistoryTable, first, last⟩]) := by
  have hFirst := h.first_eq hInv hUid hRows
  have hTiles : Tiles 0 ((rows ++ [(⟨db.nextId keyHistoryTable, first, last⟩ : HistoryRow)]).map
      HistoryRow.range) := by
    rw [map_append, map_singleton, tiles_concat]
    exact ⟨hRows.tiles, hFirst, h.le⟩
  refine ⟨fun rowId => ?_, fun row hMem => ?_, hTiles, hTiles.pairwise⟩
  · rw [h.storedFor_iff hInv, hRows.complete]
    simp [or_comm, eq_comm, or_and_right, exists_or]
  · rcases mem_append.mp hMem with hMem | hMem
    · exact (hRows.stored row hMem).snoc (h.cells_eq hInv hRows hMem)
    · obtain rfl := mem_singleton.mp hMem
      obtain ⟨old, hOld, hAuth⟩ := h.authKey
      have hNew : ¬ NoRow db' keyHistoryTable (db.nextId keyHistoryTable) := fun hNone =>
        hNone _ old hOld "old_auth_key" (parsedColumn?_columnKey _ _ h.inI64)
      refine ⟨h.firstCell, h.lastCell, ?_, entries, entry, [], db, db', old, rfl, hRun,
        hInv.noRow le_rfl, hRun', hNew, hOld, hAuth⟩
      rw [length_append]
      show last ≤ _
      omega

/-- The histories of the other users stay. -/
theorem RowAdded.historyOf_of_ne (hNe : uid' ≠ uid)
    (hRows : HistoryOf codec start entries db uid' rows) :
    HistoryOf codec start (entries ++ [entry]) db' uid' rows := by
  refine hRows.snoc (fun rowId => ?_) fun row hMem column => h.cells_eq hInv hRows hMem column
  rw [h.storedFor_iff hInv]
  simp [hNe]

/-- An entry that adds a row keeps the invariant. -/
theorem HistoryInv.snoc_of_added (hUid : uid < 2 ^ 63)
    (hRun : Run codec start entries db) (hRun' : Run codec start (entries ++ [entry]) db')
    (hBound : last ≤ entries.length) : HistoryInv codec start (entries ++ [entry]) db' := by
  refine ⟨h.cells hInv, fun key value hGet _ _ _ hParse => h.index_iff hInv hUid hGet hParse,
    fun rowId uid' hIn hRow => ?_, fun uid' => ?_⟩
  · have hFront : HasFront (indexKey keyHistoryTable "uid" (.int uid') rowId) tagIndex
        keyHistoryTable := hasFront_encodeTuple _ _ _
    rw [h.index _ hFront]
    by_cases hNew : rowId = db.nextId keyHistoryTable
    · have hSame : (uid' : Int) = uid := by
        rw [hNew, h.uidCell, some.injEq] at hRow
        exact hRow.symm
      rw [hNew, hSame, if_pos rfl]
      rfl
    · rw [h.historyInt_of_ne hIn hNew] at hRow
      split
      · rfl
      · exact hInv.listed rowId uid' hIn hRow
  · obtain ⟨rows, hRows⟩ := hInv.rows uid'
    by_cases hSame : uid' = uid
    · subst hSame
      exact ⟨_, h.historyOf hInv hUid hRun hRun' hBound hRows⟩
    · exact ⟨rows, h.historyOf_of_ne hInv hSame hRows⟩

end

end

end Added

/-! ## Accepted entries -/

section Accepted

variable {codec : RuleCodec} {start db : Db} {entries : List ChangelogEntry}
  {entry : ChangelogEntry} {uid changeId : Nat} {first last rowId : Int} {batch : Batch}

/-- A row that passed the checks is added if what is stored was checked. -/
theorem rowAdded_of_written {kvs : List KvData} {stored : String → Bytes → Bytes}
    (hChecked : HistoryChecked db kvs uid first last)
    (hWritten : HistoryWritten db kvs uid stored batch) (hUid : uid < 2 ^ 63)
    (hKept : ∀ column, column ≠ "valid_to_change_id" → ∀ bytes, stored column bytes = bytes)
    (hAuth : inlineValue kvs "old_auth_key" = firstValue kvs "old_auth_key")
    (hFirst : inlineValue kvs "valid_from_change_id" = firstValue kvs "valid_from_change_id")
    (hLast : (db.applyBatch batch).historyInt (db.nextId keyHistoryTable) "valid_to_change_id" =
      some last) :
    RowAdded db (db.applyBatch batch) uid first last := by
  -- a cell whose column is kept holds the last kv of the column
  have hCell : ∀ {column value}, column ≠ "valid_to_change_id" →
      inlineValue kvs column = some value →
      (db.applyBatch batch)[columnKey keyHistoryTable (db.nextId keyHistoryTable) column]? =
        some value := by
    intro column value hColumn hValue
    rw [hWritten.getElem?_cell, hValue, map_some, hKept column hColumn]
    rfl
  have hInt : ∀ {column i}, column ≠ "valid_to_change_id" →
      (inlineValue kvs column).bind parseI64ColumnValue = some i →
      (db.applyBatch batch).historyInt (db.nextId keyHistoryTable) column = some i := by
    intro column i hColumn hValue
    obtain ⟨value, hInline, hParse⟩ := bind_eq_some_iff.mp hValue
    rw [Db.historyInt, hCell hColumn hInline]
    exact hParse
  obtain ⟨old, hOld, hStored⟩ := hChecked.authKey
  have hStarts := hChecked.starts
  rw [← hFirst] at hStarts
  refine
    { inI64 := inI64_nextId hWritten
      nextInI64 := hWritten.inI64
      counter := ?_
      frame := fun key r column hKey hNe => hWritten.getElem?_of_ne hKey hNe
      index := fun key hFront => ?_
      uidCell := hInt (by decide) (hChecked.uid_stored hUid)
      firstCell := hInt (by decide) hStarts
      lastCell := hLast
      authKey := ⟨old, hCell (by decide) (hAuth.trans hOld), hStored⟩
      le := hChecked.le
      follows := hChecked.follows }
  · rw [Db.getElem?_applyBatch, hWritten.counter]
    rfl
  · rw [Db.getElem?_applyBatch, hWritten.index key hFront]
    split <;> rfl

theorem RefreshAccepted.rowAdded (h : RefreshAccepted db entry first batch)
    (hUid : entry.uid < 2 ^ 63) (hType : entry.message.opType = .refreshKeys)
    (hClean : RetiresCleanly entry) :
    RowAdded db (db.applyBatch batch) entry.uid first entry.sigRef := by
  simp only [RetiresCleanly, hType, comparedColumns, forall_mem_cons] at hClean
  obtain ⟨hAuth, hFirst, hLast, _⟩ := hClean
  refine rowAdded_of_written h.checked h.history hUid (fun _ _ _ => rfl) hAuth hFirst ?_
  have hEnds := h.ends
  rw [← hLast] at hEnds
  obtain ⟨value, hValue, hParse⟩ := bind_eq_some_iff.mp hEnds
  rw [Db.historyInt, h.history.getElem?_cell, hValue]
  exact hParse

theorem RemoveAccepted.rowAdded (h : RemoveAccepted db changeId entry rowId first batch)
    (hType : entry.message.opType = .removeUser) (hClean : RetiresCleanly entry)
    (hChange : changeId ≤ 2 ^ 63) :
    RowAdded db (db.applyBatch batch) (truncateU32 rowId) first ((changeId - 1 : Nat) : Int) := by
  simp only [RetiresCleanly, hType, comparedColumns, forall_mem_cons] at hClean
  obtain ⟨hAuth, hFirst, _⟩ := hClean
  have hIn : InI64 ((changeId - 1 : Nat) : Int) := by
    have hPositive := h.positive
    unfold InI64
    omega
  refine rowAdded_of_written h.checked h.history (truncateU32_lt rowId) (fun column hColumn _ => ?_)
    hAuth hFirst ?_
  · exact if_neg hColumn
  · rw [Db.historyInt, h.ends]
    exact parseI64ColumnValue_i64ToValueBytes hIn

/-- What an accepted entry does to the history: nothing, or it adds one row. -/
inductive HistoryStep (db db' : Db) (changeId : Nat) (entry : ChangelogEntry) : Prop where
  | same (hType : entry.message.opType ≠ .refreshKeys)
      (hSame : ∀ key, TableKey keyHistoryTable key → db'[key]? = db[key]?)
  | rotation (hType : entry.message.opType = .refreshKeys) (first : Int)
      (hAdded : RowAdded db db' entry.uid first entry.sigRef)
  | removal (hType : entry.message.opType = .removeUser) (rowId first : Int)
      (hNonempty : userKvs entry ≠ [])
      (hRow : ∀ kv ∈ userKvs entry, ∃ column,
        parsedColumn? kv.key = some (usersTable, rowId, column))
      (hAdded : RowAdded db db' (truncateU32 rowId) first ((changeId - 1 : Nat) : Int))

theorem historyStep_of_dispatch {n : Nat} (hDb : Reachable codec n db)
    (hCascade : NoCascadeInto codec db keyHistoryTable)
    (hStep : Accepts codec (n + 1) db entry batch)
    (hUid : entry.uid < 2 ^ 32) (hLength : n < 2 ^ 63) (hClean : RetiresCleanly entry) :
    HistoryStep db (db.applyBatch batch) (n + 1) entry := by
  have hUid' : entry.uid < 2 ^ 63 := by omega
  by_cases hRefresh : entry.message.opType = .refreshKeys
  · obtain ⟨first, hAccepted⟩ := refreshAccepted_of_dispatch hDb hUid' hRefresh hStep
    exact .rotation hRefresh first (hAccepted.rowAdded hUid' hRefresh hClean)
  by_cases hRemove : entry.message.opType = .removeUser
  · obtain ⟨rowId, first, hAccepted⟩ := removeAccepted_of_dispatch hDb hRemove hStep
    exact .removal hRemove rowId first hAccepted.nonempty hAccepted.row
      (hAccepted.rowAdded hRemove hClean (by omega))
  · have hSpares := (hCascade.touches hStep).spares (not_tablesOf_history hRefresh hRemove)
      (by decide)
    exact .same hRefresh fun key hKey => hSpares.getElem?_applyBatch hKey

/-- Every accepted entry keeps the invariant. -/
theorem HistoryInv.snoc (hInv : HistoryInv codec start entries db)
    (hRun : Run codec start entries db) {db' : Db}
    (hRun' : Run codec start (entries ++ [entry]) db')
    (hStep : HistoryStep db db' (entries.length + 1) entry)
    (hSigRef : checkSigrefContinuity entry (expectedSigRef entries entry.uid) = .ok ())
    (hUid : entry.uid < 2 ^ 32) : HistoryInv codec start (entries ++ [entry]) db' := by
  cases hStep with
  | same _ hSame => exact hInv.snoc_of_same hSame
  | rotation _ first hAdded =>
    have hLe : entry.sigRef ≤ entries.length := by
      rw [sigRef_eq_of_continuity hSigRef]
      exact expectedSigRef_le entries entry.uid
    exact hInv.snoc_of_added hAdded (by omega) hRun hRun' (by omega)
  | removal _ rowId first _ _ hAdded =>
    exact hInv.snoc_of_added hAdded (truncateU32_lt rowId) hRun hRun' (by omega)

end Accepted

theorem historyOf_of_no_keys {codec : RuleCodec} {start : Db} {uid : Nat}
    (hEmpty : ∀ p ∈ start.toList, isHistoryKey p.1 = false) :
    HistoryOf codec start [] start uid [] := by
  have hNone : ∀ rowId, ¬ StoredFor start uid rowId := by
    rintro rowId ⟨key, value, hGet, hKey, _⟩
    have hHistory := hEmpty _ (Std.ExtTreeMap.mem_toList_iff_getElem?_eq_some.mpr hGet)
    simp [isHistoryKey, parsedColumn?_eq_some_iff.mp hKey] at hHistory
  refine ⟨fun rowId => ?_, fun row hMem => ?_, trivial, .nil⟩
  · simp [hNone rowId]
  · cases hMem

theorem historyInv_of_no_keys {codec : RuleCodec} {start : Db}
    (hEmpty : ∀ p ∈ start.toList, isHistoryKey p.1 = false) : HistoryInv codec start [] start := by
  have hNone : ∀ key value, start[key]? = some value → isHistoryKey key = false :=
    Db.forall_stored_iff.mpr hEmpty
  have hCells : ∀ key value, start[key]? = some value → ∀ rowId column,
      parsedColumn? key ≠ some (keyHistoryTable, rowId, column) := by
    intro key value hGet rowId column hKey
    have hHistory := hNone key value hGet
    simp [isHistoryKey, parsedColumn?_eq_some_iff.mp hKey] at hHistory
  refine ⟨fun rowId key value hGet column hKey => ?_,
    fun key value hGet column element rowId hParse => ?_, fun rowId uid hIn hRow => ?_,
    fun uid => ⟨[], historyOf_of_no_keys hEmpty⟩⟩
  · exact absurd hKey (hCells key value hGet rowId column)
  · have hHistory := hNone key value hGet
    simp [isHistoryKey, hParse] at hHistory
  · obtain ⟨value, hGet, _⟩ := bind_eq_some_iff.mp hRow
    exact absurd (parsedColumn?_columnKey _ _ hIn) (hCells _ value hGet rowId "uid")

/-- After every run of accepted entries that retire keys cleanly, the history rows of
each user tile the change ids from `0` on, and each holds the key it retired. -/
theorem keyHistory_tiles_of_run {codec : RuleCodec} {start db : Db} {entries : List ChangelogEntry}
    (hStart : Bootstrapped start) (hEmpty : ∀ p ∈ start.toList, isHistoryKey p.1 = false)
    (hCascade : NoCascadeInto codec start keyHistoryTable) (hRun : Run codec start entries db)
    (hChain : SigRefsChained entries) (hUids : ∀ entry ∈ entries, entry.uid < 2 ^ 32)
    (hLength : entries.length < 2 ^ 63) (hClean : ∀ entry ∈ entries, RetiresCleanly entry)
    (uid : Nat) : ∃ rows, HistoryOf codec start entries db uid rows := by
  have hInv : HistoryInv codec start entries db := by
    refine hRun.invariant (historyInv_of_no_keys hEmpty) ?_
    intro before entry after db batch hSplit hRun hStep hInv
    have hMem : entry ∈ entries := by rw [hSplit]; simp
    have hShorter : before.length ≤ entries.length := by rw [hSplit, length_append]; omega
    have hHistory := historyStep_of_dispatch (hRun.reachable hStart) (hRun.noCascadeInto hCascade)
      hStep (hUids entry hMem) (by omega) (hClean entry hMem)
    exact hInv.snoc hRun (.snoc hRun hStep) hHistory (hChain before entry after hSplit)
      (hUids entry hMem)
  exact hInv.rows uid

/-! ## Runs on a new space -/

/-- Users 1 and 2 join, and user 1 removes user 2. -/
def removalRun (entry : ChangelogEntry) : List ChangelogEntry := [sampleCreate, sampleInvite, entry]

/-- User 2 rotates the key before the removal. -/
def rotatedRun : List ChangelogEntry :=
  [sampleCreate, sampleInvite, sampleRefresh 2, sampleRemoval 3 3 1 (columnKey usersTable 2)]

/-- The rotation and the removal leave one range each. -/
theorem sampleRemove_tiles : ∃ db, Run noRules internalDb rotatedRun db ∧
    StoredFor db 2 1 ∧ StoredFor db 2 2 ∧
    ∃ rows, HistoryOf noRules internalDb rotatedRun db 2 rows := by
  obtain ⟨db, hRun, hStored⟩ : ∃ db, Run noRules internalDb rotatedRun db ∧
      ∀ rowId ∈ [1, 2], db.historyInt rowId "uid" = some 2 :=
    exists_run (by decide +kernel)
  have hFor : ∀ rowId ∈ [1, 2], InI64 rowId → StoredFor db 2 rowId := by
    intro rowId hMem hIn
    obtain ⟨value, hGet, hUid⟩ := bind_eq_some_iff.mp (hStored rowId hMem)
    exact ⟨_, value, hGet, parsedColumn?_columnKey _ _ hIn, hUid⟩
  refine ⟨db, hRun, hFor 1 (by decide) (by decide), hFor 2 (by decide) (by decide), ?_⟩
  refine keyHistory_tiles_of_run .internal (by decide +kernel) (noCascadeInto_noRules _ _) hRun
    (sigRefsChained_of_forall (by decide +kernel)) (by decide +kernel) (by decide +kernel) ?_ 2
  decide +kernel

/-- The same removal with a second `valid_from_change_id` cell. -/
def doubledRemove : ChangelogEntry :=
  let entry := sampleRemove (columnKey usersTable 2)
  { entry with message := { entry.message with entries := entry.message.entries ++
    [⟨columnKeyPlaceholder keyHistoryTable "valid_from_change_id", i64ToValueBytes 7⟩] } }

/-- The second cell is not checked, and it is the one that is stored: the only range
of user 2 is `[7, 2]`. -/
theorem keyHistory_range_broken : ∃ db, Run noRules internalDb (removalRun doubledRemove) db ∧
    SigRefsChained (removalRun doubledRemove) ∧
    db.historyInt 1 "valid_from_change_id" = some 7 ∧
    db.historyInt 1 "valid_to_change_id" = some 2 ∧
    ¬ ∃ rows, HistoryOf noRules internalDb (removalRun doubledRemove) db 2 rows := by
  obtain ⟨db, hRun, hUid, hFirst, hLast, hNoZero⟩ :
      ∃ db, Run noRules internalDb (removalRun doubledRemove) db ∧ db.historyInt 1 "uid" = some 2 ∧
        db.historyInt 1 "valid_from_change_id" = some 7 ∧
        db.historyInt 1 "valid_to_change_id" = some 2 ∧
        ∀ p ∈ db.toList, ∀ cell ∈ parsedColumn? p.1, cell.1 = keyHistoryTable →
          cell.2.2 = "valid_from_change_id" → parseI64ColumnValue p.2 ≠ some 0 :=
    exists_run (by decide +kernel)
  refine ⟨db, hRun, sigRefsChained_of_forall (by decide +kernel), hFirst, hLast, ?_⟩
  rintro ⟨rows, hRows⟩
  obtain ⟨value, hGet, hParse⟩ := bind_eq_some_iff.mp hUid
  obtain ⟨row, hMem, _⟩ := (hRows.complete 1).mp
    ⟨_, value, hGet, parsedColumn?_columnKey _ _ (by decide), hParse⟩
  cases rows with
  | nil => cases hMem
  | cons oldest rest =>
    -- the oldest range would have to start at 0
    have hZero : oldest.first = 0 := hRows.tiles.1
    obtain ⟨_, _, _, hKey, _⟩ := (hRows.complete oldest.rowId).mpr ⟨oldest, mem_cons_self, rfl⟩
    have hIn := inI64_of_parseKey (parsedColumn?_eq_some_iff.mp hKey)
    have hCell := (hRows.stored oldest mem_cons_self).first
    rw [hZero] at hCell
    obtain ⟨cell, hStored, hCell⟩ := bind_eq_some_iff.mp hCell
    have hPair := Std.ExtTreeMap.mem_toList_iff_getElem?_eq_some.mpr hStored
    exact hNoZero _ hPair _ (parsedColumn?_columnKey _ _ hIn) rfl rfl hCell

end EncryptedSpaces.Ops
