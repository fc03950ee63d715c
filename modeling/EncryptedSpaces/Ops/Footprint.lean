import EncryptedSpaces.Ops.Dispatch
import EncryptedSpaces.Ops.KeyDerivation

/-!
# What an operation can write

Every write of an accepted operation goes to a row, an index entry or the
counter of a table, or to the bookkeeping of lists; which tables is a matter of
the operation type alone.  `dispatch_touches` states this for all types.

Schema lists, access rules and actions live under keys of neither kind.  So no
operation changes what the static metadata cache may hold
(`TouchesOr.treeKey_ne`), and an operation leaves every table alone that its type
does not write.

The tables of a cascade leg are not checked by the verifier: they are what the
stored action declares.  The statements about actions take this set as a
parameter.
-/

namespace EncryptedSpaces.Ops

open Encoding Changelog Acl Lib Prog Lib.Except List

/-! ## Keys by owner -/

/-- A row, index or counter key of a table. -/
def TableKey (table : String) (key : Bytes) : Prop :=
  HasFront key tagRow table ∨ HasFront key tagIndex table ∨ key = schemaNextIdKey table

/-- Heads, tails and parents of lists, and the list-number counter. -/
def ListKey (key : Bytes) : Prop :=
  key = schemaNextListNumberKey ∨
    ∃ n, key = listHeadKey n ∨ key = listTailKey n ∨ key = listParentKey n

/-- Heads and tails of lists. -/
def LinkKey (key : Bytes) : Prop := ∃ n, key = listHeadKey n ∨ key = listTailKey n

variable {key : Bytes} {table : String}

theorem LinkKey.listKey (h : LinkKey key) : ListKey key := by
  obtain ⟨n, hHead | hTail⟩ := h
  · exact .inr ⟨n, .inl hHead⟩
  · exact .inr ⟨n, .inr (.inl hTail)⟩

/-- Every write goes to one of the tables or to one of the given list keys. -/
def TouchesOr (L : Bytes → Prop) (tables : String → Prop) (batch : Batch) : Prop :=
  ∀ op ∈ batch, (∃ table, tables table ∧ TableKey table op.key) ∨ L op.key

/-- Every write goes to one of the tables or to the list bookkeeping. -/
abbrev Touches (tables : String → Prop) (batch : Batch) : Prop := TouchesOr ListKey tables batch

theorem tableKey_columnKey (table : String) (rowId : Int) (column : String) :
    TableKey table (columnKey table rowId column) :=
  .inl (hasFront_encodeTuple tagRow table _)

theorem tableKey_indexKey (table column : String) (value : TupleElement) (rowId : Int) :
    TableKey table (indexKey table column value rowId) :=
  .inr (.inl (hasFront_encodeTuple tagIndex table _))

theorem tableKey_nextIdKey (table : String) : TableKey table (schemaNextIdKey table) :=
  .inr (.inr rfl)

theorem hasFront_of_cell {rowId : Int} {column : String}
    (h : parsedColumn? key = some (table, rowId, column)) : HasFront key tagRow table :=
  hasFront_of_parseKey (parsedColumn?_eq_some_iff.mp h)

theorem hasFront_of_isColumnOf (h : IsColumnOf table key) : HasFront key tagRow table := by
  obtain ⟨rowId, column, hKey⟩ := h
  exact hasFront_of_cell hKey

theorem IsColumnOf.tableKey (h : IsColumnOf table key) : TableKey table key :=
  .inl (hasFront_of_isColumnOf h)

section Touches

variable {L : Bytes → Prop} {tables tables' : String → Prop} {batch batch' : Batch}

theorem touches_nil : TouchesOr L tables [] := by
  intro op hOp
  cases hOp

theorem touches_append :
    TouchesOr L tables (batch ++ batch') ↔
      TouchesOr L tables batch ∧ TouchesOr L tables batch' := by
  constructor
  · intro h
    exact ⟨fun op hOp => h op (by simp [hOp]), fun op hOp => h op (by simp [hOp])⟩
  · rintro ⟨h, h'⟩ op hOp
    rcases mem_append.mp hOp with hOp | hOp
    · exact h op hOp
    · exact h' op hOp

theorem touches_cons {op : BatchOp} :
    TouchesOr L tables (op :: batch) ↔
      ((∃ table, tables table ∧ TableKey table op.key) ∨ L op.key) ∧
        TouchesOr L tables batch := by
  unfold TouchesOr
  rw [forall_mem_cons]

theorem touches_sortBatch : TouchesOr L tables (sortBatch batch) ↔ TouchesOr L tables batch := by
  unfold TouchesOr
  simp only [mem_sortBatch]

theorem touches_flatten {batches : List Batch} (h : ∀ batch ∈ batches, TouchesOr L tables batch) :
    TouchesOr L tables batches.flatten := by
  intro op hOp
  obtain ⟨batch, hBatch, hOp⟩ := mem_flatten.mp hOp
  exact h batch hBatch op hOp

theorem TouchesOr.mono (h : TouchesOr L tables batch) (hSub : ∀ t, tables t → tables' t) :
    TouchesOr L tables' batch := by
  intro op hOp
  rcases h op hOp with ⟨table, hTable, hKey⟩ | hKey
  · exact .inl ⟨table, hSub table hTable, hKey⟩
  · exact .inr hKey

/-- A batch whose keys all belong to one table. -/
theorem touches_of_forall (table : String) (h : ∀ op ∈ batch, TableKey table op.key)
    (hTable : tables table) : TouchesOr L tables batch :=
  fun op hOp => .inl ⟨table, hTable, h op hOp⟩

/-- All keys of the batch are index entries of the table. -/
def IndexesOf (table : String) (batch : Batch) : Prop :=
  ∀ op ∈ batch, HasFront op.key tagIndex table

theorem IndexesOf.touches {table : String} (h : IndexesOf table batch) :
    TouchesOr L (· = table) batch :=
  touches_of_forall table (fun op hOp => .inr (.inl (h op hOp))) rfl

theorem indexesOf_nil {table : String} : IndexesOf table [] := by
  intro op hOp
  cases hOp

theorem IndexesOf.append {table : String} {batch' : Batch}
    (h : IndexesOf table batch) (h' : IndexesOf table batch') :
    IndexesOf table (batch ++ batch') := by
  intro op hOp
  rcases mem_append.mp hOp with hOp | hOp
  · exact h op hOp
  · exact h' op hOp

end Touches

/-- The third element of a schema key tells its purpose. -/
theorem schemaSubkey_inj {table' s s' : String} {es es' : List TupleElement}
    (h : schemaSubkey table (.string s :: es) = schemaSubkey table' (.string s' :: es')) :
    table = table' ∧ s = s' := by
  obtain ⟨hTable, h⟩ := encodeTuple_cons_inj (encodeTuple_cons_inj h).2
  exact ⟨hTable, (encodeTuple_cons_inj h).1⟩

theorem hasFront_treeKey (key : StaticKey) : ∃ table, HasFront key.treeKey tagSchema table := by
  cases key <;> exact ⟨_, hasFront_encodeTuple _ _ _⟩

/-- No written key is one that static metadata is loaded from. -/
theorem TouchesOr.treeKey_ne {tables : String → Prop} {batch : Batch} (h : Touches tables batch)
    {op : BatchOp} (hOp : op ∈ batch) (key : StaticKey) : op.key ≠ key.treeKey := by
  intro hEq
  obtain ⟨table', hFront⟩ := hasFront_treeKey key
  rcases h op hOp with ⟨table, -, hRow | hIndex | hSub⟩ | hSub | ⟨n, hSub | hSub | hSub⟩
  · rw [hEq] at hRow
    exact absurd (hRow.unique hFront).1 (by decide)
  · rw [hEq] at hIndex
    exact absurd (hIndex.unique hFront).1 (by decide)
  all_goals
    -- another purpose of a schema key
    rw [hEq] at hSub
    cases key <;> exact absurd (schemaSubkey_inj hSub).2 (by decide)

theorem TableKey.hasFront (h : TableKey table key) :
    ∃ tag, HasFront key tag table := by
  rcases h with hRow | hIndex | rfl
  · exact ⟨_, hRow⟩
  · exact ⟨_, hIndex⟩
  · exact ⟨_, hasFront_encodeTuple tagSchema table _⟩

/-- A key belongs to at most one table. -/
theorem TableKey.unique {table' : String} (h : TableKey table key) (h' : TableKey table' key) :
    table = table' := by
  obtain ⟨_, hFront⟩ := h.hasFront
  obtain ⟨_, hFront'⟩ := h'.hasFront
  exact (hFront.unique hFront').2

theorem ListKey.hasFront (h : ListKey key) : HasFront key tagSchema listsTable := by
  rcases h with rfl | ⟨n, rfl | rfl | rfl⟩ <;> exact hasFront_encodeTuple _ _ _

/-- A written row or index key is one of a touched table. -/
theorem TouchesOr.owner {tables : String → Prop} {batch : Batch} (h : Touches tables batch)
    {op : BatchOp} (hOp : op ∈ batch) {tag : String} (hFront : HasFront op.key tag table)
    (hTag : tag ≠ tagSchema) : tables table := by
  rcases h op hOp with ⟨table', hTable, hKey⟩ | hList
  · obtain ⟨_, hFront'⟩ := hKey.hasFront
    rwa [(hFront.unique hFront').2]
  · exact absurd (hFront.unique hList.hasFront).1 hTag

/-! ## Index entries, counters and derived keys -/

section Helpers

variable {L : Bytes → Prop} {R : (q : Query) → Answer q → Prop}
    {table opName : String} {rowId : Int}

variable {column : String} {bytes : Bytes} {op : BatchOp} {batch : Batch} {entries : List KvData}
  {keys : List Bytes} {counter : Int}

theorem hasFront_of_buildIndexKey {key : Bytes}
    (h : buildIndexKey table column bytes rowId opName = .ok key) :
    HasFront key tagIndex table := by
  obtain ⟨value, _, h⟩ := bind_eq_ok.mp h
  obtain ⟨element, _, h⟩ := bind_eq_ok.mp h
  cases h
  exact hasFront_encodeTuple tagIndex table _

theorem hasFront_of_makeIndexPut (h : makeIndexPut table column bytes rowId opName = .ok op) :
    HasFront op.key tagIndex table := by
  obtain ⟨key, hKey, h⟩ := bind_eq_ok.mp h
  obtain ⟨_, _, h⟩ := bind_eq_ok.mp h
  cases h
  exact hasFront_of_buildIndexKey hKey

theorem tableKey_of_makeIndexPut (h : makeIndexPut table column bytes rowId opName = .ok op) :
    TableKey table op.key :=
  .inr (.inl (hasFront_of_makeIndexPut h))

theorem tableKey_of_makeIndexDelete (h : makeIndexDelete table column bytes rowId opName = .ok op) :
    TableKey table op.key := by
  obtain ⟨key, hKey, h⟩ := bind_eq_ok.mp h
  cases h
  exact .inr (.inl (hasFront_of_buildIndexKey hKey))

theorem indexesOf_indexPutsFor {valueOf : String → Option Bytes} {columns : List String}
    (h : indexPutsFor table rowId valueOf opName columns = .ok batch) :
    IndexesOf table batch := by
  intro op hOp
  obtain ⟨column, _, hPut⟩ := exists_of_mem_mapM h hOp
  cases hValue : valueOf column with
  | none => simp [hValue] at hPut
  | some bytes =>
    simp only [hValue] at hPut
    exact hasFront_of_makeIndexPut hPut

theorem indexesOf_oldIndexDelete {old : Option Bytes}
    (h : oldIndexDelete table column rowId opName old = .ok batch) : IndexesOf table batch := by
  cases old with
  | none =>
    cases h
    exact indexesOf_nil
  | some bytes =>
    obtain ⟨op, hOp, h⟩ := bind_eq_ok.mp h
    obtain ⟨key, hKey, hOp⟩ := bind_eq_ok.mp hOp
    cases h
    cases hOp
    intro op hMem
    rw [mem_singleton.mp hMem]
    exact hasFront_of_buildIndexKey hKey

theorem indexesOf_updateIndexOps {indexed : List String} {oldValues : CellMap (Option Bytes)}
    {cells : CellMap KvData} (h : updateIndexOps table indexed oldValues cells = .ok batch) :
    IndexesOf table batch := by
  induction cells generalizing batch with
  | nil =>
    cases h
    exact indexesOf_nil
  | cons cell cells ih =>
    obtain ⟨⟨rowId, column⟩, kv⟩ := cell
    unfold updateIndexOps at h
    by_cases hIndexed : column ∈ indexed
    · rw [if_pos hIndexed] at h
      obtain ⟨deletes, hDeletes, h⟩ := bind_eq_ok.mp h
      obtain ⟨put, hPut, h⟩ := bind_eq_ok.mp h
      obtain ⟨ops, hOps, h⟩ := bind_eq_ok.mp h
      cases h
      refine (indexesOf_oldIndexDelete hDeletes).append fun op hOp => ?_
      rcases mem_cons.mp hOp with rfl | hOp
      · exact hasFront_of_makeIndexPut hPut
      · exact ih hOps op hOp
    · rw [if_neg hIndexed] at h
      exact ih h

theorem appendInsertIndexPuts_indexes :
    (appendInsertIndexPuts table rowId entries opName).Returns R (IndexesOf table) := by
  unfold appendInsertIndexPuts
  refine returns_skip fun columns => ?_
  exact returns_lift indexesOf_indexPutsFor

theorem indexPutsByChunk_indexes {colCount chunks start : Nat} :
    (indexPutsByChunk table colCount opName chunks start keys entries).Returns R
      (IndexesOf table) := by
  induction chunks generalizing start keys entries with
  | zero => exact returns_ret indexesOf_nil
  | succ chunks ih =>
    unfold indexPutsByChunk
    refine returns_skip fun ⟨chunkTable, row⟩ => ?_
    refine returns_skip fun _ => ?_
    refine appendInsertIndexPuts_indexes.bind fun puts hPuts => ?_
    refine ih.bind fun rest hRest => ?_
    exact returns_ret (hPuts.append hRest)

theorem appendMultiRowInsertIndexPuts_indexes :
    (appendMultiRowInsertIndexPuts table keys entries opName).Returns R (IndexesOf table) := by
  unfold appendMultiRowInsertIndexPuts
  refine returns_skip fun columns => ?_
  refine returns_ite (fun _ => returns_ret indexesOf_nil) fun _ => ?_
  exact indexPutsByChunk_indexes

theorem touches_nextIdPut {nextId : Int} : TouchesOr L (· = table) [nextIdPut table nextId] := by
  refine touches_of_forall table (fun op hOp => ?_) rfl
  rw [mem_singleton] at hOp
  subst hOp
  exact tableKey_nextIdKey table

/-- The counter write after a chain goes to the counter. -/
theorem key_of_bumpNextIdAfterChain {numRows : Int}
    (h : bumpNextIdAfterChain table counter numRows opName = .ok batch) :
    ∀ op ∈ batch, op.key = schemaNextIdKey table := by
  unfold bumpNextIdAfterChain at h
  split_ifs at h with hRows
  · cases h
    simp
  · cases hAdd : checkedAdd counter (numRows - 1) with
    | none => simp [hAdd] at h
    | some lastRowId =>
      simp only [hAdd] at h
      obtain ⟨next, _, h⟩ := bind_eq_ok.mp h
      cases h
      simp [nextIdPut]

theorem touches_of_bumpNextIdAfterChain {numRows : Int}
    (h : bumpNextIdAfterChain table counter numRows opName = .ok batch) :
    TouchesOr L (· = table) batch :=
  touches_of_forall table (fun op hOp => .inr (.inr (key_of_bumpNextIdAfterChain h op hOp))) rfl

/-- Puts of kvs under given keys of one table. -/
theorem touches_zip_puts (kvs : List KvData) (h : ∀ key ∈ keys, TableKey table key) :
    TouchesOr L (· = table) ((keys.zip kvs).map fun (key, kv) => kv.toBatchOp key) := by
  refine touches_of_forall table (fun op hOp => ?_) rfl
  obtain ⟨⟨key, kv⟩, hMem, rfl⟩ := mem_map.mp hOp
  exact h key (of_mem_zip hMem).1

theorem tableKey_of_rebuilt (hEntries : ∀ kv ∈ entries, IsColumnOf table kv.key)
    (h : List.Forall₂ (Rebuilt rowId) entries keys) : ∀ key ∈ keys, TableKey table key := by
  induction h with
  | nil => simp
  | @cons kv key entries keys hHead _ ih =>
    rw [forall_mem_cons] at hEntries ⊢
    refine ⟨?_, ih hEntries.2⟩
    obtain ⟨table', column, hKey, rfl⟩ := hHead
    obtain ⟨_, _, hKey'⟩ := hEntries.1
    obtain ⟨rfl, _⟩ := cell_unique hKey hKey'
    exact tableKey_columnKey _ _ _

theorem ChainKeys.tableKey {seen : List String}
    (hEntries : ∀ kv ∈ entries, IsColumnOf table kv.key) (h : ChainKeys counter seen entries keys) :
    ∀ key ∈ keys, TableKey table key := by
  induction h with
  | nil => simp
  | cons hKey _ _ ih =>
    rw [forall_mem_cons] at hEntries ⊢
    refine ⟨?_, ih hEntries.2⟩
    obtain ⟨_, _, hKey'⟩ := hEntries.1
    obtain ⟨rfl, _⟩ := cell_unique hKey hKey'
    exact tableKey_columnKey _ _ _

end Helpers

/-! ## Operations on the internal tables -/

section Composite

variable {L : Bytes → Prop} {R : (q : Query) → Answer q → Prop} {entry : ChangelogEntry}

variable {entries : List KvData} {opName : String}

theorem retentionPuts_touches {texts : RetentionTexts}
    (hEntries : ∀ kv ∈ entries, IsColumnOf retentionTable kv.key) :
    (retentionPuts texts entries).Returns R (TouchesOr L (· = retentionTable)) := by
  unfold retentionPuts
  iterate 5 refine returns_skip fun _ => ?_
  refine (returns_lift deriveColumnKeysForChain_eq_ok).bind
    fun keys hKeys => ?_
  refine appendMultiRowInsertIndexPuts_indexes.bind fun indexPuts hIndex => ?_
  refine (returns_lift (touches_of_bumpNextIdAfterChain (L := L))).bind
    fun bump hBump => ?_
  refine returns_ret (touches_append.mpr ⟨touches_append.mpr ⟨?_, hIndex.touches⟩, hBump⟩)
  exact touches_zip_puts _ (hKeys.tableKey hEntries)

/-- A `_retention` part that is there is written to `_retention`. -/
theorem optionalRetentionPuts_touches {texts : RetentionTexts}
    (hEntries : ∀ kv ∈ entries, IsColumnOf retentionTable kv.key) :
    (optionalRetentionPuts texts entries).Returns R
      (TouchesOr L fun t => t = retentionTable ∧ entries ≠ []) := by
  refine returns_ite (fun _ => returns_ret touches_nil) fun hSome => ?_
  exact (retentionPuts_touches hEntries).mono fun batch h => h.mono fun t ht => ⟨ht, hSome⟩

theorem retentionChainOp_touches {opType : OpType} {missing : String} :
    (retentionChainOp opType opName missing entry).Returns R
      (TouchesOr L (· = retentionTable)) := by
  unfold retentionChainOp
  refine returns_skip fun _ => ?_
  refine (returns_lift isColumnOf_of_tableFromColumnKeys).bind
    fun table hTable => ?_
  refine returns_ensure.bind fun _ hRetention => ?_
  refine returns_skip fun _ => ?_
  subst hRetention
  have hEntries : ∀ kv ∈ entry.message.entries, IsColumnOf retentionTable kv.key :=
    fun kv hkv => hTable kv.key (mem_map_of_mem hkv)
  refine (retentionPuts_touches (L := L) hEntries).bind fun batch hBatch => ?_
  exact returns_ret (touches_sortBatch.mpr hBatch)

theorem userInsertPuts_touches (hEntries : ∀ kv ∈ entries, IsColumnOf usersTable kv.key) :
    (userInsertPuts opName entries).Returns R (TouchesOr L (· = usersTable)) := by
  unfold userInsertPuts
  refine returns_skip fun userRowId => ?_
  refine (returns_lift deriveColumnKeysWithRowId_eq_ok).bind
    fun keys hKeys => ?_
  refine returns_skip fun next => ?_
  refine returns_ret (touches_append.mpr ⟨?_, touches_nextIdPut⟩)
  exact touches_zip_puts _ (tableKey_of_rebuilt hEntries hKeys)

theorem isColumnOf_of_eq_tableKvs {kvs : List KvData} {table : String}
    (h : kvs = tableKvs entries table) : ∀ kv ∈ kvs, IsColumnOf table kv.key := by
  rw [h]
  exact fun kv hkv => (mem_tableKvs.mp hkv).2

/-- The entry has a `_retention` cell. -/
def CarriesRetention (entry : ChangelogEntry) : Prop :=
  ∃ kv ∈ entry.message.entries, IsColumnOf retentionTable kv.key

theorem carriesRetention_of_ne_nil {kvs : List KvData}
    (h : kvs = tableKvs entry.message.entries retentionTable) (hSome : kvs ≠ []) :
    CarriesRetention entry := by
  obtain ⟨kv, hkv⟩ := exists_mem_of_ne_nil kvs hSome
  rw [h] at hkv
  exact ⟨kv, mem_tableKvs.mp hkv⟩

/-- The last steps of CreateSpace and InviteUser: a `_users` row and the `_retention` part. -/
def userRowPuts (opName : String) (texts : RetentionTexts) (users retention : List KvData) :
    OpM Batch := do
  let userPuts ← userInsertPuts opName users
  let puts ← optionalRetentionPuts texts retention
  return sortBatch (userPuts ++ puts)

theorem userRowPuts_touches {texts : RetentionTexts} {users retention : List KvData}
    (hUsers : users = tableKvs entry.message.entries usersTable)
    (hRetention : retention = tableKvs entry.message.entries retentionTable) :
    (userRowPuts opName texts users retention).Returns R
      (TouchesOr L fun t => t = usersTable ∨ t = retentionTable ∧ CarriesRetention entry) := by
  refine (userInsertPuts_touches (L := L) (isColumnOf_of_eq_tableKvs hUsers)).bind
    fun userPuts hUsers => ?_
  refine (optionalRetentionPuts_touches (L := L) (isColumnOf_of_eq_tableKvs hRetention)).bind
    fun puts hPuts => ?_
  refine returns_ret (touches_sortBatch.mpr (touches_append.mpr ⟨?_, ?_⟩))
  · exact hUsers.mono fun t ht => .inl ht
  · exact hPuts.mono fun t ht => .inr ⟨ht.1, carriesRetention_of_ne_nil hRetention ht.2⟩

theorem createSpaceOp_touches :
    (createSpaceOp entry).Returns R
      (TouchesOr L fun t => t = usersTable ∨ t = retentionTable ∧ CarriesRetention entry) := by
  unfold createSpaceOp
  refine (returns_lift partitionFrom_eq_ok).bind fun parts hParts => ?_
  iterate 5 refine returns_skip fun _ => ?_
  exact userRowPuts_touches hParts.users hParts.retention

theorem inviteUserOp_touches :
    (inviteUserOp entry).Returns R
      (TouchesOr L fun t => t = usersTable ∨ t = retentionTable ∧ CarriesRetention entry) := by
  unfold inviteUserOp
  refine (returns_lift partitionFrom_eq_ok).bind fun parts hParts => ?_
  iterate 6 refine returns_skip fun _ => ?_
  exact userRowPuts_touches hParts.users hParts.retention

theorem keyHistoryIndexPuts_touches {rowId : Int} :
    (keyHistoryIndexPuts opName rowId entries).Returns R (TouchesOr L (· = keyHistoryTable)) := by
  unfold keyHistoryIndexPuts
  refine appendInsertIndexPuts_indexes.bind fun indexPuts hIndex => ?_
  refine (returns_lift (touches_of_bumpNextIdAfterChain (L := L))).bind
    fun bump hBump => ?_
  exact returns_ret (touches_append.mpr ⟨hIndex.touches, hBump⟩)

/-- The writes of RefreshKeys: those of the `_key_history` row, and the entry's
own `_users` cells under the entry's own keys. -/
theorem refreshKeysOp_writes :
    (refreshKeysOp entry).Returns R fun batch =>
      ∃ history, TouchesOr L (· = keyHistoryTable) history ∧ ∀ op, op ∈ batch ↔
        op ∈ history ∨ ∃ kv ∈ tableKvs entry.message.entries usersTable,
          op = kv.toBatchOp kv.key := by
  unfold refreshKeysOp
  refine returns_skip fun _ => ?_
  refine (returns_lift partitionFrom_eq_ok).bind fun parts hParts => ?_
  iterate 5 refine returns_skip fun _ => ?_
  refine (returns_lift deriveColumnKeysWithRowId_eq_ok).bind
    fun khKeys hKhKeys => ?_
  iterate 11 refine returns_skip fun _ => ?_
  refine (keyHistoryIndexPuts_touches (L := L)).bind fun indexPuts hIndex => ?_
  have hKhPuts := touches_zip_puts (L := L) parts.keyHistory
    (tableKey_of_rebuilt (isColumnOf_of_eq_tableKvs hParts.keyHistory) hKhKeys)
  refine returns_ret ⟨_, touches_append.mpr ⟨hKhPuts, hIndex⟩, fun op => ?_⟩
  rw [← hParts.users]
  simp only [mem_sortBatch, mem_append, mem_map (l := parts.users), eq_comm (a := op)]
  exact or_right_comm

theorem refreshKeysOp_touches :
    (refreshKeysOp entry).Returns R
      (TouchesOr L fun t => t = usersTable ∨ t = keyHistoryTable) := by
  refine (refreshKeysOp_writes (L := L)).mono fun batch ⟨history, hHistory, hBatch⟩ op hOp => ?_
  rcases (hBatch op).mp hOp with hOp | ⟨kv, hkv, rfl⟩
  · exact hHistory.mono (fun t ht => .inr ht) op hOp
  · exact .inl ⟨usersTable, .inl rfl, (mem_tableKvs.mp hkv).2.tableKey⟩

@[simp] theorem removeUserCell_key (validTo : Int) (key : Bytes) (kv : KvData) :
    (removeUserCell validTo key kv).key = key := by
  unfold removeUserCell
  split
  · split <;> rfl
  · rfl

/-- The writes of RemoveUser: those to `_users` and `_key_history`, and the
`_retention` insert. -/
theorem removeUserOp_writes {currentChangeId : Nat} {P : Batch → Prop}
    (hRetention : ∀ texts, (optionalRetentionPuts texts
      (tableKvs entry.message.entries retentionTable)).Returns R P) :
    (removeUserOp currentChangeId entry).Returns R fun batch => ∃ other puts,
      TouchesOr L (fun t => t = usersTable ∨ t = keyHistoryTable) other ∧ P puts ∧
        batch = sortBatch (other ++ puts) := by
  unfold removeUserOp
  refine (returns_lift partitionFrom_eq_ok).bind fun parts hParts => ?_
  iterate 3 refine returns_skip fun _ => ?_
  refine returns_skip fun ⟨userTable, deletedRowId⟩ => ?_
  iterate 5 refine returns_skip fun _ => ?_
  refine (returns_lift deriveColumnKeysWithRowId_eq_ok).bind
    fun khKeys hKhKeys => ?_
  iterate 6 refine returns_skip fun _ => ?_
  refine (keyHistoryIndexPuts_touches (L := L)).bind fun indexPuts hIndex => ?_
  rw [hParts.retention]
  refine (hRetention _).bind fun puts hPuts => ?_
  refine returns_ret ⟨_, puts, ?_, hPuts, rfl⟩
  rw [touches_append, touches_append]
  refine ⟨⟨?_, ?_⟩, ?_⟩
  · refine touches_of_forall usersTable (fun op hOp => ?_) (.inl rfl)
    simp only [map_map, mem_map, Function.comp_apply] at hOp
    obtain ⟨kv, hkv, rfl⟩ := hOp
    exact (isColumnOf_of_eq_tableKvs hParts.users kv hkv).tableKey
  · refine touches_of_forall keyHistoryTable (fun op hOp => ?_) (.inr rfl)
    obtain ⟨⟨key, kv⟩, hMem, rfl⟩ := mem_map.mp hOp
    rw [removeUserCell_key]
    exact tableKey_of_rebuilt (isColumnOf_of_eq_tableKvs hParts.keyHistory) hKhKeys key
      (of_mem_zip hMem).1
  · exact hIndex.mono fun t ht => .inr ht

theorem removeUserOp_touches {currentChangeId : Nat} :
    (removeUserOp currentChangeId entry).Returns R
      (TouchesOr L fun t => t = usersTable ∨ t = keyHistoryTable ∨
        t = retentionTable ∧ CarriesRetention entry) := by
  have hEntries : ∀ kv ∈ tableKvs entry.message.entries retentionTable,
      IsColumnOf retentionTable kv.key := isColumnOf_of_eq_tableKvs rfl
  refine (removeUserOp_writes (L := L) fun _ =>
    optionalRetentionPuts_touches (L := L) hEntries).mono ?_
  rintro _ ⟨other, puts, hOther, hPuts, rfl⟩
  refine touches_sortBatch.mpr (touches_append.mpr ⟨?_, ?_⟩)
  · exact hOther.mono fun t ht => ht.imp_right .inl
  · exact hPuts.mono fun t ht => .inr (.inr ⟨ht.1, carriesRetention_of_ne_nil rfl ht.2⟩)

end Composite

/-! ## Operations on application tables -/

/-- A table that is not reserved. -/
def Application (table : String) : Prop := ¬ table.toList.head? = some '_'

instance : DecidablePred Application :=
  fun table => inferInstanceAs (Decidable (¬ table.toList.head? = some '_'))

section Rows

variable {L : Bytes → Prop} {R : (q : Query) → Answer q → Prop}
    {entry : ChangelogEntry} {table : String}

variable {opName : String} {rowId : Int} {batch : Batch} {listCols : List String}
  {pairs : List (ParsedColumnEntry × Bytes)}

theorem application_of_validateNotInternalTable {u : Unit}
    (h : validateNotInternalTable table opName = .ok u) : Application table := by
  unfold validateNotInternalTable at h
  unfold Application
  exact check_eq_ok.mp h

theorem notInternal_returns :
    (pureStep (validateNotInternalTable table opName)).Returns R fun _ => Application table :=
  returns_lift application_of_validateNotInternalTable

theorem tableKey_of_parsedEntry {parsed : ParsedColumnEntry}
    (h : parseColumnKeyRef parsed.kv.key = .ok ⟨parsed.table, parsed.rowId, parsed.column⟩) :
    TableKey parsed.table parsed.kv.key :=
  .inl (hasFront_of_parseColumnKeyRef h)

/-- A list column of a new row: the key of its cell, the column and the number. -/
structure NewList where
  key : Bytes
  column : String
  number : Int

/-- The loop over the cells of an insert: list columns get consecutive numbers. -/
inductive ColumnPuts (listCols : List String) :
    Int → List (ParsedColumnEntry × Bytes) → Batch → List NewList → Prop where
  | nil {next} : ColumnPuts listCols next [] [] []
  | list {next pairs puts lists} {pair : ParsedColumnEntry × Bytes}
      (hList : pair.1.column ∈ listCols) (hIn : InI64 next)
      (hRest : ColumnPuts listCols (next + 1) pairs puts lists) :
      ColumnPuts listCols next (pair :: pairs) (.put pair.2 (i64ToValueBytes next) :: puts)
        (⟨pair.2, pair.1.column, next⟩ :: lists)
  | value {next pairs puts lists} {pair : ParsedColumnEntry × Bytes}
      (hList : pair.1.column ∉ listCols) (hRest : ColumnPuts listCols next pairs puts lists) :
      ColumnPuts listCols next (pair :: pairs) (.put pair.2 pair.1.kv.value :: puts) lists

theorem insertColumnPuts_eq_ok {base : Int} {allocated : List (String × Int)}
    {r : Batch × List (String × Int)} (h : insertColumnPuts listCols base pairs allocated = .ok r) :
    ∃ lists, ColumnPuts listCols (base + allocated.length) pairs r.1 lists ∧
      r.2 = allocated ++ lists.map fun l => (l.column, l.number) := by
  induction pairs generalizing allocated r with
  | nil =>
    cases h
    exact ⟨[], .nil, by simp⟩
  | cons pair pairs ih =>
    unfold insertColumnPuts at h
    split_ifs at h with hList
    · cases hAdd : checkedAdd base allocated.length with
      | none => simp [hAdd] at h
      | some number =>
        obtain ⟨rfl, hIn⟩ := checkedAdd_eq_some_iff.mp hAdd
        simp only [hAdd] at h
        obtain ⟨r', hRest, h⟩ := bind_eq_ok.mp h
        cases h
        obtain ⟨lists, hPuts, hAll⟩ := ih hRest
        rw [length_append, length_singleton, Nat.cast_add, ← Int.add_assoc] at hPuts
        exact ⟨_, .list hList hIn hPuts, by rw [hAll, append_assoc]; rfl⟩
    · obtain ⟨r', hRest, h⟩ := bind_eq_ok.mp h
      cases h
      obtain ⟨lists, hPuts, hAll⟩ := ih hRest
      exact ⟨lists, .value hList hPuts, hAll⟩

theorem ColumnPuts.map_key {next : Int} {lists : List NewList}
    (h : ColumnPuts listCols next pairs batch lists) :
    batch.map BatchOp.key = pairs.map Prod.snd := by
  induction h with
  | nil => rfl
  | list _ _ _ ih | value _ _ ih => exact congrArg (cons _) ih

theorem touches_of_newListPuts (tables : String → Prop) {base : Int}
    {allocated : List (String × Int)} (h : newListPuts table rowId base allocated = .ok batch) :
    Touches tables batch := by
  unfold newListPuts at h
  split_ifs at h with hNone
  · cases h
    exact touches_nil
  · cases hAdd : checkedAdd base allocated.length with
    | none => simp [hAdd] at h
    | some newCounter =>
      simp only [hAdd] at h
      cases h
      refine touches_cons.mpr ⟨.inr (.inl rfl), fun op hOp => .inr (.inr ?_)⟩
      obtain ⟨⟨column, listNumber⟩, _, hOp⟩ := mem_flatMap.mp hOp
      simp only [mem_cons, not_mem_nil, or_false] at hOp
      rcases hOp with rfl | rfl | rfl
      · exact ⟨listNumber, .inl rfl⟩
      · exact ⟨listNumber, .inr (.inl rfl)⟩
      · exact ⟨listNumber, .inr (.inr rfl)⟩

theorem insertRowIdStep_touches {autoIncrement : Bool} {parsed : List ParsedColumnEntry}
    {keys : List Bytes} :
    (insertRowIdStep table rowId autoIncrement parsed keys).Returns R
      (TouchesOr L (· = table)) := by
  unfold insertRowIdStep
  refine returns_ite (fun _ => ?_) fun _ => ?_
  · refine returns_skip fun next => ?_
    exact returns_ret touches_nextIdPut
  · split
    · refine returns_skip fun _ => ?_
      exact returns_ret touches_nil
    · exact returns_fail

theorem insertOp_touches : (insertOp entry).Returns R (Touches Application) := by
  unfold insertOp
  refine returns_skip fun _ => ?_
  refine (returns_lift parseColumnEntries_eq_ok).bind
    fun parsed hParsed => ?_
  refine (returns_lift validateSameTableRow_eq_ok).bind
    fun ⟨table, entryRowId⟩ hRow => ?_
  refine notInternal_returns.bind fun _ hApp => ?_
  iterate 10 refine returns_skip fun _ => ?_
  refine (returns_lift insertColumnPuts_eq_ok).bind
    fun ⟨columnPuts, allocated⟩ ⟨_, hPuts, _⟩ => ?_
  refine returns_skip fun indexedColumns => ?_
  refine (returns_lift fun h => (indexesOf_indexPutsFor h).touches (L := ListKey)).bind
    fun indexPuts hIndex => ?_
  refine (insertRowIdStep_touches (L := ListKey)).bind fun counterPuts hCounter => ?_
  refine (returns_lift (touches_of_newListPuts Application)).bind
    fun listPuts hLists => ?_
  refine returns_ret ?_
  rw [Touches, touches_append, touches_append, touches_append]
  refine ⟨⟨⟨?_, ?_⟩, ?_⟩, hLists⟩
  · refine touches_of_forall table (fun op hOp => ?_) hApp
    have hKey := mem_map_of_mem (f := BatchOp.key) hOp
    rw [hPuts.map_key] at hKey
    obtain ⟨⟨p, key⟩, hMem, hKey⟩ := mem_map.mp hKey
    obtain ⟨q, hq, hqKey⟩ := mem_map.mp (of_mem_zip hMem).2
    rw [← hKey, ← hqKey]
    split
    · exact tableKey_columnKey _ _ _
    · have hTable : q.table = table := (hRow q hq).1
      exact hTable ▸ tableKey_of_parsedEntry (hParsed q hq)
  · exact hIndex.mono fun t ht => ht ▸ hApp
  · exact hCounter.mono fun t ht => ht ▸ hApp

theorem updateOp_touches : (updateOp entry).Returns R (TouchesOr L Application) := by
  unfold updateOp
  iterate 3 refine returns_skip fun _ => ?_
  refine (returns_lift parseColumnEntries_eq_ok).bind
    fun parsed hParsed => ?_
  refine (returns_lift validateSameTable_eq_ok).bind fun table hSame => ?_
  refine notInternal_returns.bind fun _ hApp => ?_
  iterate 9 refine returns_skip fun _ => ?_
  refine (returns_lift fun h => (indexesOf_updateIndexOps h).touches (L := L)).bind
    fun ops hOps => ?_
  refine returns_ret (touches_append.mpr ⟨?_, hOps.mono fun t ht => ht ▸ hApp⟩)
  refine touches_of_forall table (fun op hOp => ?_) hApp
  obtain ⟨p, hp, rfl⟩ := mem_map.mp hOp
  exact hSame p hp ▸ tableKey_of_parsedEntry (hParsed p hp)

theorem rowIndexDeletes_touches {columns : List String} :
    (rowIndexDeletes table rowId opName columns).Returns R (TouchesOr L (· = table)) := by
  induction columns with
  | nil => exact returns_ret touches_nil
  | cons column columns ih =>
    unfold rowIndexDeletes
    refine returns_skip fun value => ?_
    refine (returns_lift fun h => (indexesOf_oldIndexDelete h).touches (L := L)).bind
      fun deletes hDeletes => ?_
    refine ih.bind fun ops hOps => ?_
    exact returns_ret (touches_append.mpr ⟨hDeletes, hOps⟩)

theorem deleteOp_touches : (deleteOp entry).Returns R (TouchesOr L Application) := by
  unfold deleteOp
  iterate 3 refine returns_skip fun _ => ?_
  refine (returns_lift isColumnOf_of_tableFromColumnKeys).bind
    fun table hTable => ?_
  refine notInternal_returns.bind fun _ hApp => ?_
  iterate 4 refine returns_skip fun _ => ?_
  refine (returns_collect fun rowId _ => rowIndexDeletes_touches (L := L)).bind
    fun deletes hDeletes => ?_
  refine returns_ret (touches_append.mpr ⟨?_, ?_⟩)
  · refine touches_of_forall table (fun op hOp => ?_) hApp
    obtain ⟨key, hKey, rfl⟩ := mem_map.mp hOp
    exact (hTable key hKey).tableKey
  · exact (touches_flatten hDeletes).mono fun t ht => ht ▸ hApp

end Rows

/-! ## List operations -/

theorem linkKey_head (n : Int) : LinkKey (listHeadKey n) := ⟨n, .inl rfl⟩

theorem linkKey_tail (n : Int) : LinkKey (listTailKey n) := ⟨n, .inr rfl⟩

section Lists

variable {R : (q : Query) → Answer q → Prop} {entry : ChangelogEntry} {opName : String}

theorem touches_listCell {op : BatchOp} {rowId : Int} {column : String} {batch : Batch}
    (hKey : op.key = columnKey listsTable rowId column)
    (h : TouchesOr LinkKey (· = listsTable) batch) :
    TouchesOr LinkKey (· = listsTable) (op :: batch) :=
  touches_cons.mpr ⟨.inl ⟨listsTable, rfl, hKey ▸ tableKey_columnKey _ _ _⟩, h⟩

theorem touches_listMeta {op : BatchOp} {batch : Batch} (hKey : LinkKey op.key)
    (h : TouchesOr LinkKey (· = listsTable) batch) :
    TouchesOr LinkKey (· = listsTable) (op :: batch) :=
  touches_cons.mpr ⟨.inr hKey, h⟩

variable {newId listNumber : Int} {value : Bytes}

theorem touches_newRowPuts {prevId nextId : Int} :
    TouchesOr LinkKey (· = listsTable) (newRowPuts newId listNumber prevId nextId value) :=
  touches_listCell rfl (touches_listCell rfl (touches_listCell rfl
    (touches_listCell rfl touches_nil)))

theorem newItemTail_touches :
    (newItemTail listNumber newId opName).Returns R (TouchesOr LinkKey (· = listsTable)) := by
  unfold newItemTail listNumberIndexPut
  refine Prog.Returns.bind (returns_skip fun _ => returns_lift fun h =>
    tableKey_of_makeIndexPut h) fun indexPut hIndex => ?_
  refine returns_skip fun next => ?_
  refine returns_ret (touches_cons.mpr ⟨.inl ⟨listsTable, rfl, hIndex⟩, ?_⟩)
  exact touches_nextIdPut

theorem listAppendOp_touches :
    (listAppendOp entry).Returns R (TouchesOr LinkKey (· = listsTable)) := by
  unfold listAppendOp
  iterate 3 refine returns_skip fun _ => ?_
  refine returns_skip fun ⟨parentTable, parentRowId, _⟩ => ?_
  iterate 4 refine returns_skip fun _ => ?_
  refine newItemTail_touches.bind fun rest hRest => ?_
  refine returns_ret (touches_append.mpr ⟨?_, hRest⟩)
  split
  · exact touches_append.mpr ⟨touches_newRowPuts,
      touches_listMeta (linkKey_head _) (touches_listMeta (linkKey_tail _) touches_nil)⟩
  · exact touches_append.mpr ⟨touches_newRowPuts,
      touches_listCell rfl (touches_listMeta (linkKey_tail _) touches_nil)⟩

theorem prependLinks_touches :
    (prependLinks listNumber newId value opName).Returns R
      (TouchesOr LinkKey (· = listsTable)) := by
  unfold prependLinks
  refine returns_skip fun head => ?_
  refine returns_ite (fun _ => returns_ret ?_) fun _ => returns_ret ?_
  · exact touches_append.mpr ⟨touches_newRowPuts,
      touches_listMeta (linkKey_head _) (touches_listMeta (linkKey_tail _) touches_nil)⟩
  · exact touches_append.mpr ⟨touches_newRowPuts,
      touches_listCell rfl (touches_listMeta (linkKey_head _) touches_nil)⟩

theorem insertAfterLinks_touches {predecessorId : Int} :
    (insertAfterLinks listNumber newId predecessorId value opName).Returns R
      (TouchesOr LinkKey (· = listsTable)) := by
  unfold insertAfterLinks
  iterate 3 refine returns_skip fun _ => ?_
  refine returns_ret (touches_append.mpr ⟨touches_newRowPuts, touches_listCell rfl ?_⟩)
  split
  · exact touches_listCell rfl touches_nil
  · exact touches_listMeta (linkKey_tail _) touches_nil

theorem newItemLinks_touches {predecessorId : Int} :
    (newItemLinks listNumber newId predecessorId value opName).Returns R
      (TouchesOr LinkKey (· = listsTable)) :=
  returns_ite (fun _ => prependLinks_touches) fun _ => insertAfterLinks_touches

theorem listInsertOp_touches :
    (listInsertOp entry).Returns R (TouchesOr LinkKey (· = listsTable)) := by
  unfold listInsertOp
  iterate 5 refine returns_skip fun _ => ?_
  refine returns_skip fun ⟨parentTable, parentRowId, _⟩ => ?_
  iterate 3 refine returns_skip fun _ => ?_
  refine newItemLinks_touches.bind fun links hLinks => ?_
  refine newItemTail_touches.bind fun rest hRest => ?_
  exact returns_ret (touches_append.mpr ⟨hLinks, hRest⟩)

theorem listUpdateOp_touches :
    (listUpdateOp entry).Returns R (TouchesOr LinkKey (· = listsTable)) := by
  unfold listUpdateOp
  refine returns_skip fun _ => ?_
  refine returns_skip fun ⟨targetId, kv⟩ => ?_
  iterate 2 refine returns_skip fun _ => ?_
  refine returns_skip fun ⟨parentTable, parentRowId, _⟩ => ?_
  refine returns_skip fun _ => ?_
  exact returns_ret (touches_listCell rfl touches_nil)

theorem touches_unlinkOps {prev next : Int} :
    TouchesOr LinkKey (· = listsTable) (unlinkOps listNumber prev next) := by
  unfold unlinkOps
  rw [touches_append, touches_append, touches_append]
  refine ⟨⟨⟨?_, ?_⟩, ?_⟩, ?_⟩
  · split
    · exact touches_listCell rfl touches_nil
    · exact touches_nil
  · split
    · exact touches_listCell rfl touches_nil
    · exact touches_nil
  · split
    · exact touches_listMeta (linkKey_head _) touches_nil
    · exact touches_nil
  · split
    · exact touches_listMeta (linkKey_tail _) touches_nil
    · exact touches_nil

theorem listDeleteOp_touches :
    (listDeleteOp entry).Returns R (TouchesOr LinkKey (· = listsTable)) := by
  unfold listDeleteOp
  iterate 3 refine returns_skip fun _ => ?_
  refine returns_skip fun ⟨parentTable, parentRowId, _⟩ => ?_
  iterate 4 refine returns_skip fun _ => ?_
  refine (returns_lift tableKey_of_makeIndexDelete).bind fun op hOp => ?_
  refine returns_ret ?_
  rw [touches_append, touches_append]
  refine ⟨⟨touches_of_forall listsTable (fun op' hOp' => ?_) rfl, touches_unlinkOps⟩, ?_⟩
  · obtain ⟨column, _, rfl⟩ := mem_map.mp hOp'
    exact tableKey_columnKey _ _ _
  · exact touches_cons.mpr ⟨.inl ⟨listsTable, rfl, hOp⟩, touches_nil⟩

end Lists

/-! ## Actions and dispatch -/

/-- The stored actions cascade only into the given tables. -/
def DeclaredCascades (cascades : String → Prop) : (q : Query) → Answer q → Prop
  | .static (.action _ _) _, some action =>
    ∀ leg ∈ action.legs, leg.isCascade = true → cascades leg.table
  | _, _ => True

/-- The action that an entry invokes cascades only into the given tables. -/
def InvokedCascades (entry : ChangelogEntry) (cascades : String → Prop) :
    (q : Query) → Answer q → Prop
  | .static (.action table name) _, some action =>
    entry.message.opType = .action → (∃ kvs, extractActionMarker entry = .ok (table, name, kvs)) →
      ∀ leg ∈ action.legs, leg.isCascade = true → cascades leg.table
  | _, _ => True

theorem DeclaredCascades.invoked {entry : ChangelogEntry} {cascades : String → Prop} {q : Query}
    {a : Answer q} (h : DeclaredCascades cascades q a) : InvokedCascades entry cascades q a := by
  unfold InvokedCascades
  split
  · exact fun _ _ => h
  · trivial

/-- The tables that an accepted entry may write, by its type.  Three of the
types write `_retention` only if the entry has cells of it. -/
def tablesOf (cascades : String → Prop) (entry : ChangelogEntry) : String → Prop :=
  match entry.message.opType with
  | .insert | .update | .delete => Application
  | .listInsert | .listUpdate | .listDelete | .listAppend => (· = listsTable)
  | .createSpace | .inviteUser => fun t =>
    t = usersTable ∨ t = retentionTable ∧ CarriesRetention entry
  | .refreshKeys => fun t => t = usersTable ∨ t = keyHistoryTable
  | .removeUser => fun t =>
    t = usersTable ∨ t = keyHistoryTable ∨ t = retentionTable ∧ CarriesRetention entry
  | .extend | .reduce | .rekey => (· = retentionTable)
  | .action => fun t => Application t ∨ cascades t
  | .noop => fun _ => False

section Actions

variable {L : Bytes → Prop} {R : (q : Query) → Answer q → Prop} {entry : ChangelogEntry}

theorem returns_orFail {α : Type} {x : Option α} {e : ChangelogError} :
    (orFail x e).Returns R fun a => x = some a := by
  cases x with
  | none => exact returns_fail
  | some a => exact returns_ret rfl

theorem cascadeRow_touches {table opName : String} {schemaColumns indexedColumns : List String}
    {rowId : Int} :
    (cascadeRow table opName schemaColumns indexedColumns rowId).Returns R
      (TouchesOr L (· = table)) := by
  unfold cascadeRow
  refine (rowIndexDeletes_touches (L := L)).bind fun deletes hDeletes => ?_
  refine returns_ret (touches_append.mpr ⟨?_, hDeletes⟩)
  refine touches_of_forall table (fun op hOp => ?_) rfl
  obtain ⟨column, _, rfl⟩ := mem_map.mp hOp
  exact tableKey_columnKey _ _ _

theorem dispatchCascadeDelete_touches {actionName table whereColumn whereSelfColumn : String}
    {selfRow : SelfRow} :
    (dispatchCascadeDelete actionName table whereColumn whereSelfColumn selfRow).Returns R
      (TouchesOr L (· = table)) := by
  unfold dispatchCascadeDelete
  iterate 2 refine returns_skip fun _ => ?_
  refine returns_ite (fun _ => returns_ret touches_nil) fun _ => ?_
  iterate 2 refine returns_skip fun _ => ?_
  refine (returns_collect fun rowId _ => cascadeRow_touches (L := L)).bind fun rows hRows => ?_
  exact returns_ret (touches_flatten hRows)

variable {cascades : String → Prop}

theorem dispatchLeg_touches {actionName : String} {selfRow : SelfRow} {leg : ActionLeg}
    {kvs : List KvData} (hLeg : leg.isCascade = true → cascades leg.table) :
    (dispatchLeg entry actionName selfRow leg kvs).Returns R
      (Touches fun t => Application t ∨ cascades t) := by
  have hApp : ∀ batch, Touches Application batch →
      Touches (fun t => Application t ∨ cascades t) batch :=
    fun batch h => h.mono fun t ht => .inl ht
  cases leg with
  | insert table => exact returns_skip fun _ => insertOp_touches.mono hApp
  | update table cols =>
    refine returns_skip fun _ => ?_
    exact returns_skip fun _ => updateOp_touches.mono hApp
  | delete table => exact returns_skip fun _ => deleteOp_touches.mono hApp
  | cascadeDelete table whereColumn whereSelfColumn =>
    refine returns_skip fun _ => ?_
    refine dispatchCascadeDelete_touches.mono fun batch h => h.mono fun t ht => ?_
    subst ht
    exact .inr (hLeg rfl)

theorem actionOp_touches (hType : entry.message.opType = .action) :
    (actionOp entry).Returns (InvokedCascades entry cascades)
      (Touches fun t => Application t ∨ cascades t) := by
  unfold actionOp
  refine (returns_lift id).bind fun ⟨primaryTable, actionName, kvs⟩ hMarker => ?_
  refine returns_skip fun _ => ?_
  refine returns_query.bind fun declared hDeclared => ?_
  refine returns_orFail.bind fun action hAction => ?_
  subst hAction
  iterate 5 refine returns_skip fun _ => ?_
  refine (returns_collect fun numbered hLeg => dispatchLeg_touches
    (hDeclared hType ⟨kvs, hMarker⟩ numbered.1 (fst_mem_of_mem_zipIdx hLeg))).bind
      fun batches hBatches => ?_
  exact returns_ret (touches_flatten hBatches)

/-- The list bookkeeping that an entry may write, by its type. -/
def listKeysOf (entry : ChangelogEntry) : Bytes → Prop :=
  match entry.message.opType with
  | .insert | .action => ListKey
  | .listInsert | .listUpdate | .listDelete | .listAppend => LinkKey
  | _ => fun _ => False

/-- What an accepted operation writes belongs to the tables of its type, or to the
list bookkeeping if its type has any. -/
theorem dispatch_touchesOr {currentChangeId : Nat} :
    (dispatchExtractAndValidate currentChangeId entry).Returns (InvokedCascades entry cascades)
      (TouchesOr (listKeysOf entry) (tablesOf cascades entry)) := by
  refine returns_skip fun _ => ?_
  unfold tablesOf listKeysOf
  cases hType : entry.message.opType with
  | insert => exact insertOp_touches
  | update => exact updateOp_touches
  | delete => exact deleteOp_touches
  | listInsert => exact listInsertOp_touches
  | listUpdate => exact listUpdateOp_touches
  | listDelete => exact listDeleteOp_touches
  | listAppend => exact listAppendOp_touches
  | createSpace => exact createSpaceOp_touches
  | refreshKeys => exact refreshKeysOp_touches
  | inviteUser => exact inviteUserOp_touches
  | removeUser => exact removeUserOp_touches
  | extend => exact retentionChainOp_touches
  | reduce => exact retentionChainOp_touches
  | rekey => exact retentionChainOp_touches
  | action => exact actionOp_touches hType
  | noop => exact returns_ret touches_nil

theorem listKey_of_listKeysOf {key : Bytes} (h : listKeysOf entry key) : ListKey key := by
  unfold listKeysOf at h
  cases hType : entry.message.opType with
  | insert | action =>
    rw [hType] at h
    exact h
  | listInsert | listUpdate | listDelete | listAppend =>
    rw [hType] at h
    exact h.listKey
  | update | delete | createSpace | refreshKeys | inviteUser | removeUser | extend | reduce
  | rekey | noop =>
    rw [hType] at h
    exact h.elim

/-- What an accepted operation writes belongs to the tables of its type. -/
theorem dispatch_touches {currentChangeId : Nat} :
    (dispatchExtractAndValidate currentChangeId entry).Returns (InvokedCascades entry cascades)
      (Touches (tablesOf cascades entry)) :=
  dispatch_touchesOr.mono fun _ h op hOp => (h op hOp).imp_right listKey_of_listKeysOf

end Actions

end EncryptedSpaces.Ops
