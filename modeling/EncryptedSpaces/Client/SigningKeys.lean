import Mathlib.Data.List.ReduceOption
import EncryptedSpaces.Client.State
import EncryptedSpaces.Client.StoredRows
import EncryptedSpaces.Ops.SignerKeys

/-!
# Resolving the key of a change

A client checks the signature of an old change against the key that its signer had
at that time.  It takes the key from the signer's history rows: for a rotation the
row that ends at the `sig_ref`, otherwise the row that covers the change; a change
that no row covers was signed with the current key.

Rows are read from the verified state: the cells under a row's prefix, with hashes
replaced by the values behind them, one undecodable cell failing the whole read.
How a verification key is parsed from its base64 text is a parameter.
-/

namespace EncryptedSpaces.Client

open Encoding Changelog Ops Lib Server Lib.Digits Lib.Except List Option

/-! ## Rows -/

def intColumn (name : String) : ColumnSpec := { name, columnType := .integer, plaintext := true }

def blobColumn (name : String) : ColumnSpec := { name, columnType := .blob, plaintext := true }

/-- `_users` and `_key_history` as `internal_schemas.kdl` declares them. -/
def internalSpecs : Schemas := fun table =>
  if table = usersTable then
    some ⟨[intColumn "id", blobColumn "update_key", blobColumn "auth_key", intColumn "status"]⟩
  else if table = keyHistoryTable then
    some ⟨[intColumn "uid", blobColumn "old_auth_key", intColumn "valid_from_change_id",
      intColumn "valid_to_change_id"]⟩
  else none

/-- The cells under the prefix of a row. -/
def rowCells (db : Db) (table : String) (rowId : Int) : List (String × Bytes) :=
  (iterPrefix db (rowKey table rowId)).filterMap fun (key, bytes) =>
    (parsedColumn? key).map fun cell => (cell.2.2, bytes)

/-- A row by its id. -/
def selectRow (material : Material) (db : Db) (table : String) (rowId : Int) :
    Except SdkError (Option RowObject) :=
  let cells := rowCells db table rowId
  if cells = [] then .ok none
  else
    match reassembleCells internalSpecs material table rowId cells with
    | some row => .ok (some row)
    | none => .error (.databaseError s!"row {rowId} of {table} does not decode")

/-- The rows that an index lists for a value. -/
def selectByIndex (material : Material) (db : Db) (table column : String) (value : TupleElement) :
    Except SdkError (List RowObject) := do
  let rows ← (indexRowIds db table column value).mapM (selectRow material db table)
  return rows.reduceOption

/-! ## Resolution -/

/-- `as_u64` and a cast to `u32`. -/
def u32Field (row : RowObject) (column : String) : Option Nat :=
  (row[column]?.bind Value.asU64).map (· % 2 ^ 32)

section Resolve

variable {Key : Type} (deserialize : String → Except SdkError Key)

/-- The key that a history row retired. -/
def oldAuthKey (row : RowObject) : Except SdkError Key :=
  match row["old_auth_key"]?.bind Value.asStr with
  | some b64 => deserialize b64
  | none => .error (.validationError "missing old_auth_key in _key_history")

/-- The key in a row of `_users`, if it has one. -/
def currentAuthKey (user : Option RowObject) : Except SdkError (Option Key) :=
  match user.bind fun row => row["auth_key"]?.bind Value.asStr with
  | some b64 => (deserialize b64).map some
  | none => .ok none

/-- The range of a row, with `0` for a missing end, covers the change. -/
def coversChange (changeId : Nat) (row : RowObject) : Bool :=
  (u32Field row "valid_from_change_id").getD 0 ≤ changeId ∧
    changeId ≤ (u32Field row "valid_to_change_id").getD 0

/-- The row whose key signed the change; a rotation is signed with the key it
retires. -/
def signingRow (history : List RowObject) (changeId : Nat) (opType : OpType) (sigRef : Nat) :
    Option RowObject :=
  (if opType = .refreshKeys then
      history.find? fun row => u32Field row "valid_to_change_id" = some sigRef
    else none).or (history.find? (coversChange changeId))

/-- Without a row the current key was used. -/
def chosenKey (current : Option Key) : Option RowObject → Except SdkError Key
  | some row => oldAuthKey deserialize row
  | none =>
    match current with
    | some key => .ok key
    | none => .error .notFound

/-- `resolve_signing_key_for_change`. -/
def resolveSigningKeyForChange (material : Material) (db : Db) (uid changeId : Nat)
    (opType : OpType) (sigRef : Nat) : Except SdkError Key := do
  let user ← selectRow material db usersTable uid
  let current ← currentAuthKey deserialize user
  let history ← selectByIndex material db keyHistoryTable "uid" (.int uid)
  chosenKey deserialize current (signingRow history changeId opType sigRef)

end Resolve

/-! ## Reading rows back -/

section Rows

variable {material : Material} {db : Db} {table : String} {rowId : Int}

theorem mem_iterPrefix {start key value : Bytes} :
    (key, value) ∈ iterPrefix db start ↔ db[key]? = some value ∧ start <+: key := by
  unfold iterPrefix
  rw [mem_filter, Std.ExtTreeMap.mem_toList_iff_getElem?_eq_some, isPrefixOf_iff_prefix]

/-- Every stored key that names a column of the table is canonical, and its cell decodes. -/
def TidyTable (material : Material) (db : Db) (table : String) : Prop :=
  ∀ key value, db[key]? = some value → ∀ rowId column,
    parsedColumn? key = some (table, rowId, column) →
    key = columnKey table rowId column ∧
      (decodeCell internalSpecs material table column value).isSome

theorem mem_rowCells (h : TidyTable material db table) (hIn : InI64 rowId) {column : String}
    {bytes : Bytes} :
    (column, bytes) ∈ rowCells db table rowId ↔
      db[columnKey table rowId column]? = some bytes := by
  unfold rowCells
  rw [mem_filterMap]
  constructor
  · rintro ⟨⟨key, value⟩, hMem, hCell⟩
    obtain ⟨hGet, hPrefix⟩ := mem_iterPrefix.mp hMem
    obtain ⟨⟨table', rowId', column'⟩, hKey, hEq⟩ := map_eq_some_iff.mp hCell
    obtain ⟨rfl, rfl⟩ := Prod.mk.inj hEq
    have hFront : HasFront key tagRow table := hasFront_of_prefix hPrefix
    have hTable : table = table' :=
      (hFront.unique (hasFront_of_cell hKey)).2
    subst hTable
    obtain ⟨rfl, _⟩ := h key value hGet rowId' column' hKey
    have hIn' := inI64_of_parseKey (parsedColumn?_eq_some_iff.mp hKey)
    rw [((rowKey_prefix_iff hIn hIn').mp hPrefix).2]
    exact hGet
  · intro hGet
    refine ⟨(columnKey table rowId column, bytes), ?_, ?_⟩
    · exact mem_iterPrefix.mpr ⟨hGet, (rowKey_prefix_iff hIn hIn).mpr ⟨rfl, rfl⟩⟩
    · show (parsedColumn? (columnKey table rowId column)).map _ = _
      rw [parsedColumn?_columnKey _ _ hIn]
      rfl

theorem reassembleCells_isSome {cells : List (String × Bytes)}
    (h : ∀ column bytes, (column, bytes) ∈ cells →
      (decodeCell internalSpecs material table column bytes).isSome) :
    (reassembleCells internalSpecs material table rowId cells).isSome := by
  unfold reassembleCells
  generalize (∅ : RowObject).insert "id" (.int rowId) = acc
  induction cells generalizing acc with
  | nil => rfl
  | cons cell cells ih =>
    obtain ⟨column, bytes⟩ := cell
    obtain ⟨value, hValue⟩ := isSome_iff_exists.mp (h column bytes mem_cons_self)
    rw [foldlM_cons]
    simp only [hValue]
    exact ih (fun column bytes hMem => h column bytes (mem_cons_of_mem _ hMem)) _

/-- Reading a row of a tidy table succeeds, and its fields are the decoded cells. -/
theorem selectRow_of_tidy (h : TidyTable material db table) (hIn : InI64 rowId) :
    ∃ row, selectRow material db table rowId = .ok row ∧
      ∀ column, column ≠ "id" → (row.bind fun r => r[column]?) =
        (db[columnKey table rowId column]?).bind
          (decodeCell internalSpecs material table column) := by
  have hCells : ∀ column bytes, (column, bytes) ∈ rowCells db table rowId →
      (decodeCell internalSpecs material table column bytes).isSome := by
    intro column bytes hMem
    have hGet := (mem_rowCells h hIn).mp hMem
    exact (h _ bytes hGet rowId column (parsedColumn?_columnKey _ _ hIn)).2
  unfold selectRow
  by_cases hNone : rowCells db table rowId = []
  · refine ⟨none, by simp [hNone], fun column _ => ?_⟩
    cases hGet : db[columnKey table rowId column]? with
    | none => rfl
    | some bytes =>
      have hMem := (mem_rowCells h hIn).mpr hGet
      rw [hNone] at hMem
      cases hMem
  · have hSome : (reassembleCells internalSpecs material table rowId
        (rowCells db table rowId)).isSome := reassembleCells_isSome hCells
    obtain ⟨row, hRow⟩ := isSome_iff_exists.mp hSome
    refine ⟨some row, by simp [hNone, hRow], fun column hColumn => ?_⟩
    rw [bind_some, reassembleCells_eq_some (fun _ _ hKnown => hKnown) hRow,
      getElem?_decodedRow, getElem?_rawOfCells,
      WriteLog.lookup_eq_of_mem_iff fun _ => mem_rowCells h hIn]
    cases hGet : db[columnKey table rowId column]? with
    | none => simp [hColumn]
    | some bytes =>
      obtain ⟨value, hValue⟩ := isSome_iff_exists.mp
        (hCells column bytes ((mem_rowCells h hIn).mpr hGet))
      simp [hValue]

end Rows

/-! ## Keys in cells -/

section Keys

variable {Key : Type} (deserialize : String → Except SdkError Key) (material : Material)

/-- The verification key that a cell holds. -/
def StoredKey (cell : Bytes) (key : Key) : Prop :=
  ∃ b64, decodeCell internalSpecs material usersTable "auth_key" cell = some (.string b64) ∧
    deserialize b64 = .ok key

/-- The cell decodes, and an auth key is a verification key. -/
structure GoodCell (column : String) (bytes : Bytes) : Prop where
  decodes : (decodeCell internalSpecs material usersTable column bytes).isSome
  key : column = "auth_key" → ∃ key, StoredKey deserialize material bytes key

variable {deserialize material} {db : Db} {codec : RuleCodec} {start : Db}
  {entries : List ChangelogEntry} {uid : Nat} {rowId : Int} {row : RowObject}

/-- Retired keys are stored like current ones. -/
theorem decodeCell_oldAuthKey (bytes : Bytes) :
    decodeCell internalSpecs material keyHistoryTable "old_auth_key" bytes =
      decodeCell internalSpecs material usersTable "auth_key" bytes := by
  have hOld : internalSpecs.isHashBacked keyHistoryTable "old_auth_key" = true := by decide
  have hAuth : internalSpecs.isHashBacked usersTable "auth_key" = true := by decide
  unfold decodeCell
  rw [hOld, hAuth]

variable {column : String} {rows : List HistoryRow} {stored : HistoryRow}

theorem isHashBacked_keyHistory (h : column ≠ "old_auth_key") :
    internalSpecs.isHashBacked keyHistoryTable column = false := by
  have hSpec : internalSpecs keyHistoryTable = some ⟨[intColumn "uid", blobColumn "old_auth_key",
      intColumn "valid_from_change_id", intColumn "valid_to_change_id"]⟩ := rfl
  unfold Schemas.isHashBacked
  rw [hSpec, bind_some]
  by_cases hUid : "uid" = column
  · subst hUid
    rfl
  by_cases hFrom : "valid_from_change_id" = column
  · subst hFrom
    rfl
  by_cases hTo : "valid_to_change_id" = column
  · subst hTo
    rfl
  · simp [find?, intColumn, blobColumn, hUid, hFrom, hTo, Ne.symm h]

/-- The integer cells of the history are not hashed. -/
theorem decodeCell_history (h : column ≠ "old_auth_key") {bytes : Bytes} {i : Int}
    (hInt : parseI64ColumnValue bytes = some i) :
    decodeCell internalSpecs material keyHistoryTable column bytes = some (.int i) := by
  unfold parseI64ColumnValue at hInt
  unfold decodeCell
  rw [isHashBacked_keyHistory h]
  cases hValue : bytesToValue bytes with
  | error e => simp [hValue] at hInt
  | ok value =>
    rw [hValue] at hInt
    cases value with
    | int j =>
      simp only [Value.asI64] at hInt
      split at hInt
      · cases hInt
        simp [hValue, Except.toOption]
      · cases hInt
    | null | bool b | float bits | string s | array items | object fields =>
      simp [Value.asI64] at hInt

theorem tidyTable_users (h : UsersInv (GoodCell deserialize material) db) :
    TidyTable material db usersTable := by
  intro key value hGet rowId column hKey
  obtain ⟨hCanonical, _, hGood⟩ := h key value hGet rowId column hKey
  exact ⟨hCanonical, hGood.decodes⟩

theorem tidyTable_history (h : HistoryInv codec start entries db)
    (hCells : HistoryCells (GoodCell deserialize material) db) :
    TidyTable material db keyHistoryTable := by
  intro key value hGet rowId column hKey
  refine ⟨(h.cells rowId key value hGet column hKey).1, ?_⟩
  have hCell := hCells key value hGet rowId column hKey
  split_ifs at hCell with hColumn
  · rw [hColumn, decodeCell_oldAuthKey]
    exact hCell.decodes
  · obtain ⟨i, hInt⟩ := isSome_iff_exists.mp hCell
    rw [decodeCell_history hColumn hInt]
    rfl

/-! ## The rows of the history -/

theorem mem_indexRowIds (h : HistoryInv codec start entries db) (hUid : uid < 2 ^ 63) :
    rowId ∈ indexRowIds db keyHistoryTable "uid" (.int uid) ↔ StoredFor db uid rowId := by
  have hInUid : InI64 (uid : Int) := by unfold InI64; omega
  unfold indexRowIds
  rw [mem_filterMap, h.storedFor_iff]
  constructor
  · rintro ⟨⟨key, value⟩, hMem, hParsed⟩
    obtain ⟨hGet, hPrefix⟩ := mem_iterPrefix.mp hMem
    dsimp only at hParsed
    split at hParsed
    · rename_i table column element r hParse
      obtain rfl : r = rowId := some.inj hParsed
      have hFront : HasFront key tagIndex keyHistoryTable := hasFront_of_prefix hPrefix
      obtain rfl : keyHistoryTable = table := (hFront.unique (hasFront_of_parseIndex hParse)).2
      obtain ⟨uid', hUid', rfl, hRow⟩ := h.index key value hGet column element r hParse
      have hIn := inI64_of_parseIndex hParse
      have hInUid' : InI64 (uid' : Int) := by unfold InI64; omega
      obtain ⟨_, hEq⟩ := indexValuePrefix_prefix_indexKey hInUid hInUid' hPrefix
      exact ⟨hIn, hEq ▸ hRow⟩
    · cases hParsed
  · rintro ⟨hIn, hRow⟩
    obtain ⟨value, hGet⟩ := isSome_iff_exists.mp (h.listed rowId uid hIn hRow)
    refine ⟨(_, value), mem_iterPrefix.mpr ⟨hGet, indexValuePrefix_prefix _ _ _ _⟩, ?_⟩
    have hParse : parseKey (indexKey keyHistoryTable "uid" (.int uid) rowId) =
        .ok (.index keyHistoryTable "uid" (.int uid) rowId) := parseKey_indexKey hInUid hIn
    simp only [hParse]

/-- The rows that a client reads for a user are the stored ones. -/
theorem selectByIndex_history (h : HistoryInv codec start entries db)
    (hTidy : TidyTable material db keyHistoryTable) (hUid : uid < 2 ^ 63) :
    ∃ history, selectByIndex material db keyHistoryTable "uid" (.int uid) = .ok history ∧
      ∀ row, row ∈ history ↔ ∃ rowId, StoredFor db uid rowId ∧
        selectRow material db keyHistoryTable rowId = .ok (some row) := by
  have hRead : ∀ rowId ∈ indexRowIds db keyHistoryTable "uid" (.int uid),
      ∃ row, selectRow material db keyHistoryTable rowId = .ok row := by
    intro rowId hMem
    have hIn := (h.storedFor_iff.mp ((mem_indexRowIds h hUid).mp hMem)).1
    obtain ⟨row, hRow, _⟩ := selectRow_of_tidy hTidy hIn
    exact ⟨row, hRow⟩
  obtain ⟨rows, hRows⟩ := mapM_isOk hRead
  refine ⟨rows.reduceOption, ?_, fun row => ?_⟩
  · unfold selectByIndex
    rw [hRows]
    rfl
  · rw [reduceOption_mem_iff]
    constructor
    · intro hMem
      obtain ⟨rowId, hId, hRow⟩ := exists_of_mem_mapM hRows hMem
      exact ⟨rowId, (mem_indexRowIds h hUid).mp hId, hRow⟩
    · rintro ⟨rowId, hStored, hRow⟩
      obtain ⟨row', hMem, hRow'⟩ := exists_ok_of_mapM hRows
        ((mem_indexRowIds h hUid).mpr hStored)
      rw [hRow, Except.ok.injEq] at hRow'
      rwa [hRow']

/-- A row that was read for a row of the history. -/
structure ReadAs (material : Material) (db : Db) (row : RowObject) (stored : HistoryRow) :
    Prop where
  first : u32Field row "valid_from_change_id" = some stored.first.toNat
  last : u32Field row "valid_to_change_id" = some stored.last.toNat
  key : row["old_auth_key"]? = (db[columnKey keyHistoryTable stored.rowId "old_auth_key"]?).bind
    (decodeCell internalSpecs material usersTable "auth_key")

theorem u32Field_eq {i : Int} (h : row[column]? = some (.int i)) (hNonneg : 0 ≤ i)
    (hLt : i < 2 ^ 32) : u32Field row column = some i.toNat := by
  unfold u32Field
  have hRange : 0 ≤ i ∧ i < 2 ^ 64 := by omega
  rw [h, bind_some, Value.asU64, if_pos hRange, map_some, some.injEq]
  omega

theorem readAs_of_selectRow (hTidy : TidyTable material db keyHistoryTable)
    (hLength : entries.length < 2 ^ 32) (hRows : HistoryOf codec start entries db uid rows)
    (hMem : stored ∈ rows) (hIn : InI64 stored.rowId)
    (hRow : selectRow material db keyHistoryTable stored.rowId = .ok (some row)) :
    ReadAs material db row stored := by
  obtain ⟨row', hRow', hFields⟩ := selectRow_of_tidy hTidy hIn
  obtain rfl : some row = row' := Except.ok.inj (hRow.symm.trans hRow')
  have hInt : ∀ {column : String} {i : Int}, column ≠ "id" → column ≠ "old_auth_key" →
      db.historyInt stored.rowId column = some i → row[column]? = some (.int i) := by
    intro column i hId hKey hCell
    obtain ⟨bytes, hGet, hParse⟩ := bind_eq_some_iff.mp hCell
    have hField := hFields column hId
    rwa [hGet, bind_some, bind_some, decodeCell_history hKey hParse] at hField
  have hStored := hRows.stored stored hMem
  have hBounds := hRows.tiles.bounds.2 stored.range (mem_map_of_mem hMem)
  simp only [HistoryRow.range] at hBounds
  have hBound := hStored.bound
  refine ⟨?_, ?_, ?_⟩
  · exact u32Field_eq (hInt (by decide) (by decide) hStored.first) (by omega) (by omega)
  · exact u32Field_eq (hInt (by decide) (by decide) hStored.last) (by omega) (by omega)
  · have hField := hFields "old_auth_key" (by decide)
    rw [bind_some] at hField
    rw [hField]
    exact bind_congr fun bytes _ => decodeCell_oldAuthKey bytes

/-- The rows that are read are those of the user's history. -/
theorem selectByIndex_readAs (h : KeysInv (GoodCell deserialize material) codec start entries db)
    (hUid : uid < 2 ^ 63) (hLength : entries.length < 2 ^ 32)
    (hRows : HistoryOf codec start entries db uid rows) :
    ∃ history, selectByIndex material db keyHistoryTable "uid" (.int uid) = .ok history ∧
      (∀ row ∈ history, ∃ stored ∈ rows, ReadAs material db row stored) ∧
      ∀ stored ∈ rows, ∃ row ∈ history, ReadAs material db row stored := by
  have hTidy := tidyTable_history h.history h.cells
  obtain ⟨history, hHistory, hMem⟩ := selectByIndex_history h.history hTidy hUid
  refine ⟨history, hHistory, fun row hRow => ?_, fun stored hStored => ?_⟩
  · obtain ⟨rowId, hFor, hSelect⟩ := (hMem row).mp hRow
    obtain ⟨stored, hStored, rfl⟩ := (hRows.complete rowId).mp hFor
    have hIn := (h.history.rowId_lt hRows hStored).1
    exact ⟨stored, hStored, readAs_of_selectRow hTidy hLength hRows hStored hIn hSelect⟩
  · have hFor := (hRows.complete stored.rowId).mpr ⟨stored, hStored, rfl⟩
    obtain ⟨hIn, hCell⟩ := h.history.storedFor_iff.mp hFor
    obtain ⟨row, hSelect, hFields⟩ := selectRow_of_tidy hTidy hIn
    -- the row has a `uid`, so it is not absent
    obtain ⟨bytes, hGet, hParse⟩ := bind_eq_some_iff.mp hCell
    have hUidField := hFields "uid" (by decide)
    rw [hGet, bind_some, decodeCell_history (by decide) hParse] at hUidField
    cases row with
    | none => cases hUidField
    | some row =>
      exact ⟨row, (hMem row).mpr ⟨stored.rowId, hFor, hSelect⟩,
        readAs_of_selectRow hTidy hLength hRows hStored hIn hSelect⟩

/-! ## Resolution finds the key -/

variable {cell : Bytes} {key : Key}

theorem oldAuthKey_of_readAs (h : ReadAs material db row stored)
    (hCell : db[columnKey keyHistoryTable stored.rowId "old_auth_key"]? = some cell)
    (hKey : StoredKey deserialize material cell key) : oldAuthKey deserialize row = .ok key := by
  obtain ⟨b64, hDecode, hParse⟩ := hKey
  have hField := h.key
  rw [hCell, bind_some, hDecode] at hField
  unfold oldAuthKey
  rw [hField]
  exact hParse

/-- The stored key of a user can always be read. -/
theorem currentAuthKey_of_inv (h : UsersInv (GoodCell deserialize material) db)
    (hUid : uid < 2 ^ 32) :
    ∃ user current, selectRow material db usersTable uid = .ok user ∧
      currentAuthKey deserialize user = .ok current ∧
      ∀ cell key, db.authKey uid = some cell → StoredKey deserialize material cell key →
        current = some key := by
  obtain ⟨user, hUser, hFields⟩ := selectRow_of_tidy (tidyTable_users h) (inI64_uid hUid)
  have hField := hFields "auth_key" (by decide)
  have hBind : (user.bind fun row => row["auth_key"]?.bind Value.asStr) =
      (db.authKey uid).bind fun cell =>
        (decodeCell internalSpecs material usersTable "auth_key" cell).bind Value.asStr := by
    rw [← bind_assoc, hField, bind_assoc]
    rfl
  cases hKey : db.authKey uid with
  | none =>
    refine ⟨user, none, hUser, ?_, fun cell key hCell => by cases hCell⟩
    unfold currentAuthKey
    rw [hBind, hKey]
    rfl
  | some cell =>
    have hGood := (h _ cell hKey uid "auth_key" (parsedColumn?_columnKey _ _ (inI64_uid hUid))).2.2
    obtain ⟨key, b64, hDecode, hParse⟩ := hGood.key rfl
    refine ⟨user, some key, hUser, ?_, fun cell' key' hCell hKey' => ?_⟩
    · unfold currentAuthKey
      rw [hBind, hKey, bind_some, hDecode]
      show (deserialize b64).map some = .ok (some key)
      rw [hParse]
      rfl
    · cases hCell
      obtain ⟨b64', hDecode', hParse'⟩ := hKey'
      rw [hDecode, some.injEq, Value.string.injEq] at hDecode'
      rw [← hDecode', hParse, Except.ok.injEq] at hParse'
      rw [hParse']

/-- If the rows read for one stored row, and no others, satisfy a test, the search finds
such a row. -/
theorem find?_readAs {history : List RowObject} (stored : HistoryRow) (test : RowObject → Bool)
    (hRead : ∀ row ∈ history, ∃ s ∈ rows, ReadAs material db row s)
    (hAll : ∃ row ∈ history, ReadAs material db row stored)
    (hTest : ∀ row, ReadAs material db row stored → test row = true)
    (hOnly : ∀ row s, s ∈ rows → ReadAs material db row s → test row = true → s = stored) :
    ∃ row, history.find? test = some row ∧ ReadAs material db row stored := by
  obtain ⟨row₀, hMem₀, hRow₀⟩ := hAll
  have hIsSome : (history.find? test).isSome :=
    find?_isSome.mpr ⟨row₀, hMem₀, hTest row₀ hRow₀⟩
  obtain ⟨row, hFind⟩ := isSome_iff_exists.mp hIsSome
  obtain ⟨s, hs, hRow⟩ := hRead row (mem_of_find?_eq_some hFind)
  obtain rfl := hOnly row s hs hRow (find?_some hFind)
  exact ⟨row, hFind, hRow⟩

variable {k sigRef : Nat} {opType : OpType}

theorem coversChange_iff (h : ReadAs material db row stored) :
    coversChange k row = true ↔ stored.first.toNat ≤ k ∧ k ≤ stored.last.toNat := by
  simp [coversChange, h.first, h.last]

/-- A key that is found by the stored rows is resolved. -/
theorem resolve_of_keyFound (h : KeysInv (GoodCell deserialize material) codec start entries db)
    (hUid : uid < 2 ^ 32) (hLength : entries.length < 2 ^ 32)
    (hFound : KeyFound db uid k opType sigRef cell) :
    ∃ key, StoredKey deserialize material cell key ∧
      resolveSigningKeyForChange deserialize material db uid k opType sigRef = .ok key := by
  obtain ⟨rows, hRows⟩ := h.history.rows uid
  obtain ⟨history, hHistory, hRead, hAll⟩ := selectByIndex_readAs h (by omega) hLength hRows
  obtain ⟨user, current, hUser, hCurrent, hStays⟩ := currentAuthKey_of_inv h.users hUid
  have hResolve : resolveSigningKeyForChange deserialize material db uid k opType sigRef =
      chosenKey deserialize current (signingRow history k opType sigRef) := by
    unfold resolveSigningKeyForChange
    rw [hUser, hHistory]
    show (currentAuthKey deserialize user >>= _) = _
    rw [hCurrent]
    rfl
  have hBounds : ∀ s ∈ rows, 0 ≤ s.first ∧ s.first ≤ s.last := by
    intro s hs
    have hRange := hRows.tiles.bounds.2 s.range (mem_map_of_mem hs)
    exact ⟨hRange.1, hRange.2.1⟩
  have hGood : ∀ rowId, InI64 rowId →
      db[columnKey keyHistoryTable rowId "old_auth_key"]? = some cell →
      ∃ key, StoredKey deserialize material cell key := by
    intro rowId hIn hCell
    have hGoodCell := h.cells _ cell hCell rowId "old_auth_key" (parsedColumn?_columnKey _ _ hIn)
    exact (GoodCell.key hGoodCell) rfl
  rw [hResolve]
  unfold signingRow
  cases hFound with
  | rotated hType rowId hStored hLast hKey =>
    obtain ⟨stored, hMem, rfl⟩ := (hRows.complete rowId).mp hStored
    have hEnd : stored.last = sigRef :=
      some.inj ((hRows.stored stored hMem).last.symm.trans hLast)
    obtain ⟨key, hStoredKey⟩ := hGood _ (h.history.rowId_lt hRows hMem).1 hKey
    -- the ends of the rows differ, so the search by the end finds this row
    obtain ⟨row, hFind, hRow⟩ := find?_readAs stored
      (fun row => decide (u32Field row "valid_to_change_id" = some sigRef)) hRead
      (hAll stored hMem)
      (fun row hReadAs => decide_eq_true (by rw [hReadAs.last, hEnd]; rfl))
      (by
        intro row s hs hReadAs hTest
        have hSame := of_decide_eq_true hTest
        rw [hReadAs.last, some.injEq] at hSame
        have hBoundS := hBounds s hs
        have hBound := hBounds stored hMem
        exact hRows.eq_of_overlap hs hMem (by omega) (by omega))
    refine ⟨key, hStoredKey, ?_⟩
    rw [if_pos hType, hFind, some_or]
    exact oldAuthKey_of_readAs hRow hKey hStoredKey
  | covered hType rowId hCovers hKey =>
    obtain ⟨stored, hMem, rfl⟩ := (hRows.complete rowId).mp hCovers.stored
    obtain ⟨first, last, hFirst, hLast, hLow, hHigh⟩ := hCovers.range
    have hFirstEq := some.inj ((hRows.stored stored hMem).first.symm.trans hFirst)
    have hLastEq := some.inj ((hRows.stored stored hMem).last.symm.trans hLast)
    obtain ⟨key, hStoredKey⟩ := hGood _ (h.history.rowId_lt hRows hMem).1 hKey
    obtain ⟨row, hFind, hRow⟩ := find?_readAs stored (coversChange k) hRead
      (hAll stored hMem) (fun row hReadAs => (coversChange_iff hReadAs).mpr (by omega))
      (by
        intro row s hs hReadAs hTest
        have hRange := (coversChange_iff hReadAs).mp hTest
        have hBoundS := hBounds s hs
        exact hRows.eq_of_overlap hs hMem (by omega) (by omega))
    refine ⟨key, hStoredKey, ?_⟩
    rw [if_neg hType, none_or, hFind]
    exact oldAuthKey_of_readAs hRow hKey hStoredKey
  | current hType hNone hKey =>
    have hFind : history.find? (coversChange k) = none := by
      rw [find?_eq_none]
      intro row hRow hTest
      obtain ⟨s, hs, hReadAs⟩ := hRead row hRow
      have hRange := (coversChange_iff hReadAs).mp hTest
      have hBoundS := hBounds s hs
      have hStoredS := hRows.stored s hs
      exact hNone s.rowId ⟨(hRows.complete s.rowId).mpr ⟨s, hs, rfl⟩, s.first, s.last,
        hStoredS.first, hStoredS.last, by omega, by omega⟩
    have hGoodCell :=
      (h.users _ cell hKey uid "auth_key" (parsedColumn?_columnKey _ _ (inI64_uid hUid))).2.2
    obtain ⟨key, hStoredKey⟩ := hGoodCell.key rfl
    refine ⟨key, hStoredKey, ?_⟩
    rw [if_neg hType, none_or, hFind, hStays cell key hKey hStoredKey]
    rfl

end Keys

/-- After every run of accepted changes that keep keys, the key of each change is
resolved to the one that `_users` held for its signer just before the change. -/
theorem signingKey_resolved_of_run {Key : Type} {deserialize : String → Except SdkError Key}
    {material : Material} {codec : RuleCodec} {start db db₁ : Db}
    {entries before after : List ChangelogEntry} {entry : ChangelogEntry} {cell : Bytes}
    (hStart : Bootstrapped start) (hNoUsers : ∀ p ∈ start.toList, isUserKey p.1 = false)
    (hNoHistory : ∀ p ∈ start.toList, isHistoryKey p.1 = false)
    (hHistory : NoCascadeInto codec start keyHistoryTable)
    (hUsers : NoCascadeInto codec start usersTable) (hRun : Run codec start entries db)
    (hChain : SigRefsChained entries) (hUids : ∀ entry ∈ entries, entry.uid < 2 ^ 32)
    (hLength : entries.length < 2 ^ 32)
    (hClean : ∀ entry ∈ entries, KeepsKeys (GoodCell deserialize material) entry)
    (hSplit : entries = before ++ entry :: after) (hBefore : Run codec start before db₁)
    (hKey : db₁.authKey entry.uid = some cell) :
    ∃ key, StoredKey deserialize material cell key ∧
      resolveSigningKeyForChange deserialize material db entry.uid (before.length + 1)
        entry.message.opType entry.sigRef = .ok key := by
  have hInv := keysInv_of_run hStart hNoUsers hNoHistory hHistory hUsers hRun hChain hUids
    (by omega) hClean
  have hMem : entry ∈ entries := by rw [hSplit]; simp
  exact resolve_of_keyFound hInv (hUids entry hMem) hLength
    (hInv.found before entry after db₁ cell hSplit hBefore hKey)

/-! ## Runs on a new space -/

/-- Behind a hash is the text of its first byte. -/
def sampleMaterial : Material := fun digest =>
  digest.head?.map fun byte => stringToValueBytes (toString byte.toNat)

/-- Keys are their texts. -/
def sampleKey (b64 : String) : Except SdkError String := .ok b64

def isGoodSample (column : String) (bytes : Bytes) : Bool :=
  match decodeCell internalSpecs sampleMaterial usersTable column bytes with
  | some (.string _) => true
  | some _ => column ≠ "auth_key"
  | none => false

theorem goodCell_of_isGoodSample {column : String} {bytes : Bytes}
    (h : isGoodSample column bytes = true) : GoodCell sampleKey sampleMaterial column bytes := by
  unfold isGoodSample at h
  split at h
  · rename_i b64 hDecode
    refine ⟨by rw [hDecode]; rfl, fun hColumn => ⟨b64, b64, ?_, rfl⟩⟩
    rw [← hColumn]
    exact hDecode
  · rename_i value _ hDecode
    exact ⟨by rw [hDecode]; rfl, fun hColumn => absurd hColumn (of_decide_eq_true h)⟩
  · cases h

theorem decodeCell_sample {column text : String} {bytes : Bytes}
    (h : (decodeCell internalSpecs sampleMaterial usersTable column bytes).bind Value.asStr =
      some text) :
    decodeCell internalSpecs sampleMaterial usersTable column bytes = some (.string text) := by
  obtain ⟨value, hValue, hText⟩ := bind_eq_some_iff.mp h
  cases value with
  | string s =>
    cases hText
    exact hValue
  | null | bool b | int i | float bits | array items | object fields => cases hText

/-- User 2 is invited by user 1 and rotates the own key. -/
def rotationRun : List ChangelogEntry := [sampleCreate, sampleInvite, sampleRefresh 2]

theorem rotationRun_keepsKeys : ∀ entry ∈ rotationRun,
    KeepsKeys (GoodCell sampleKey sampleMaterial) entry := by
  have hColumns : ∀ entry ∈ rotationRun, ∀ column ∈
      columnNamesFromKeys ((historyKvs entry).map KvData.key),
      column ∈ keyHistoryRequiredColumns := by decide +kernel
  have hCells : ∀ entry ∈ rotationRun, ∀ kv ∈ userKvs entry, ∀ cell ∈ parsedColumn? kv.key,
      isGoodSample cell.2.2 kv.value = true := by decide +kernel
  have hOwn : ∀ entry ∈ rotationRun, entry.message.opType = .refreshKeys →
      ∀ kv ∈ userKvs entry, ∃ column ∈ usersColumns,
        kv.key = columnKey usersTable entry.uid column := by decide +kernel
  have hTypes : ∀ entry ∈ rotationRun, entry.message.opType ≠ .removeUser := by decide +kernel
  have hClean : ∀ entry ∈ rotationRun, RetiresCleanly entry := by decide +kernel
  intro entry hMem
  refine ⟨hClean entry hMem, hColumns entry hMem, fun _ kv hkv column hColumn => ?_,
    fun hType kv hkv => ?_, fun hType => absurd hType (hTypes entry hMem)⟩
  · obtain ⟨cell, hCell, rfl⟩ := map_eq_some_iff.mp hColumn
    exact goodCell_of_isGoodSample (hCells entry hMem kv hkv cell hCell)
  · obtain ⟨column, _, hKey⟩ := hOwn entry hMem hType kv hkv
    exact ⟨column, hKey⟩

/-- The rotation resolves to the retired key. -/
theorem rotation_resolved : ∃ db, Run noRules internalDb rotationRun db ∧
    db.authKey 2 = some (hashCell 3) ∧ ∃ key, StoredKey sampleKey sampleMaterial (hashCell 2) key ∧
      resolveSigningKeyForChange sampleKey sampleMaterial db 2 3 .refreshKeys 0 = .ok key := by
  obtain ⟨db₁, hBefore, hSigner⟩ : ∃ db₁, Run noRules internalDb [sampleCreate, sampleInvite] db₁ ∧
      db₁.authKey (sampleRefresh 2).uid = some (hashCell 2) :=
    exists_run (by decide +kernel)
  obtain ⟨db, hAll, hKey⟩ : ∃ db, Run noRules internalDb rotationRun db ∧
      db.authKey 2 = some (hashCell 3) :=
    exists_run (by decide +kernel)
  have hSplit : rotationRun = [sampleCreate, sampleInvite] ++ sampleRefresh 2 :: [] := rfl
  have hResolved := signingKey_resolved_of_run .internal (by decide +kernel) (by decide +kernel)
    (noCascadeInto_noRules _ _) (noCascadeInto_noRules _ _) hAll
    (sigRefsChained_of_forall (by decide +kernel))
    (by decide +kernel) (by decide +kernel) rotationRun_keepsKeys hSplit hBefore hSigner
  exact ⟨db, hAll, hKey, hResolved⟩

/-- User 1 removes the own row. -/
def selfRemoval : ChangelogEntry :=
  sampleEntry .removeUser 1 1 1
    ([ { key := columnKeyPlaceholder keyHistoryTable "old_auth_key", value := hashCell 1 },
       { key := columnKeyPlaceholder keyHistoryTable "uid", value := i64ToValueBytes 1 },
       { key := columnKeyPlaceholder keyHistoryTable "valid_from_change_id",
         value := i64ToValueBytes 0 },
       { key := columnKeyPlaceholder keyHistoryTable "valid_to_change_id",
         value := i64ToValueBytes 1 } ] ++
      usersColumns.map fun column => { key := columnKey usersTable 1 column, value := [] })

/-- The key of a user's own removal is filed up to the change before, and the row is
gone: it is not found. -/
theorem selfRemoval_unresolved : ∃ db₁ db, Run noRules internalDb [sampleCreate] db₁ ∧
    Run noRules internalDb [sampleCreate, selfRemoval] db ∧
    SigRefsChained [sampleCreate, selfRemoval] ∧
    (∀ entry ∈ [sampleCreate, selfRemoval], entry.message.opType ≠ .refreshKeys) ∧
    db₁.authKey 1 = some (hashCell 1) ∧ StoredKey sampleKey sampleMaterial (hashCell 1) "1" ∧
    resolveSigningKeyForChange sampleKey sampleMaterial db 1 2 .removeUser 1 =
      .error .notFound := by
  obtain ⟨db₁, hRun₁, hKey₁⟩ : ∃ db₁, Run noRules internalDb [sampleCreate] db₁ ∧
      db₁.authKey 1 = some (hashCell 1) :=
    exists_run (by decide +kernel)
  obtain ⟨db, hRun, hResolve⟩ : ∃ db, Run noRules internalDb [sampleCreate, selfRemoval] db ∧
      resolveSigningKeyForChange sampleKey sampleMaterial db 1 2 .removeUser 1 = .error .notFound :=
    exists_run (by decide +kernel)
  exact ⟨db₁, db, hRun₁, hRun,
    sigRefsChained_of_forall (by decide +kernel), by decide +kernel, hKey₁,
    ⟨"1", decodeCell_sample (by decide +kernel), rfl⟩, hResolve⟩

end EncryptedSpaces.Client
