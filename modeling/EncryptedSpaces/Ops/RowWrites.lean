import EncryptedSpaces.Ops.RowSteps

/-!
# The cells that steps write

What each kind of step leaves under a cell key of its table.  Insert stores a row
under rebuilt keys or under the keys of the entry; Update and Delete work on the
keys of the entry as they are; a cascade deletes whole rows.  A run of steps keeps
a property of one table if its first step and every cascade keep it.
-/

namespace EncryptedSpaces.Ops

open Encoding Changelog Acl Lib Lib.Except List

/-- What a batch leaves under a key was left by one of its operations. -/
theorem exists_of_written {batch : Batch} {key : Bytes} {value : Option Bytes}
    (h : written batch key = some value) :
    ∃ op ∈ batch, op.key = key ∧ (BatchOp.write op).2 = value := by
  obtain ⟨op, hOp, hWrite⟩ := mem_map.mp (WriteLog.mem_of_lookup_eq_some h)
  refine ⟨op, hOp, ?_, ?_⟩
  · rw [← BatchOp.write_fst, hWrite]
  · rw [hWrite]

/-- A value was there before, or the batch has put it. -/
theorem Db.stored_or_put {db : Db} {batch : Batch} {key value : Bytes}
    (h : (db.applyBatch batch)[key]? = some value) :
    db[key]? = some value ∨ .put key value ∈ batch := by
  rw [Db.getElem?_applyBatch] at h
  cases hWritten : written batch key with
  | none =>
    rw [hWritten] at h
    exact .inl h
  | some written =>
    rw [hWritten] at h
    obtain ⟨op, hOp, hKey, hWrite⟩ := exists_of_written hWritten
    have hValue : (BatchOp.write op).2 = some value := hWrite.trans h
    cases op with
    | put key' value' =>
      cases hKey
      cases hValue
      exact .inr hOp
    | delete key' => cases hValue

/-! ## Index writes are no cell writes -/

section Indexes

variable {table opName : String} {rowId : Int} {batch : Batch}

theorem indexesOf_flatten {batches : List Batch} (h : ∀ batch ∈ batches, IndexesOf table batch) :
    IndexesOf table batches.flatten := by
  intro op hOp
  obtain ⟨batch, hBatch, hOp⟩ := mem_flatten.mp hOp
  exact h batch hBatch op hOp

theorem IndexDeletesOf.indexesOf {db : Db} {indexed : List String}
    (h : IndexDeletesOf db table indexed opName rowId batch) : IndexesOf table batch := by
  obtain ⟨pieces, hPieces, rfl⟩ := h
  refine indexesOf_flatten fun piece hPiece => ?_
  obtain ⟨_, _, hDelete⟩ := Lists.exists_left_of_forall₂ hPieces hPiece
  exact indexesOf_oldIndexDelete hDelete

end Indexes

/-! ## Insert -/

/-- A later value for a column replaces an earlier one. -/
theorem parsedValue_cons (p : ParsedColumnEntry) (ps : List ParsedColumnEntry) (column : String) :
    parsedValue (p :: ps) column =
      (parsedValue ps column).or (if p.column = column then some p.kv.value else none) := by
  unfold parsedValue
  by_cases hColumn : p.column = column <;> simp [hColumn]

section Insert

variable {codec : RuleCodec} {db : Db} {entry : ChangelogEntry} {x : InsertParts}

/-- Every key of the entry is of the row that it gives. -/
theorem InsertParts.Accepted.parsedColumn?_eq (hx : x.Accepted codec db entry)
    {p : ParsedColumnEntry}
    (hp : p ∈ columnEntries entry.message.entries) :
    parsedColumn? p.kv.key = some (x.table, x.signedId, p.column) := by
  rw [(mem_columnEntries.mp hp).2, (hx.row p hp).1, (hx.row p hp).2]

theorem InsertParts.Accepted.assigned (hx : x.Accepted codec db entry)
    (hMode : x.autoIncrement = true) :
    x.rowId = db.nextId x.table ∧ InI64 x.rowId ∧ InI64 (x.rowId + 1) ∧
      x.counterPuts = [nextIdPut x.table (x.rowId + 1)] := by
  have hId := hx.idChecked
  rw [InsertParts.IdChecked, if_pos hMode] at hId
  exact hId.2

theorem InsertParts.Accepted.explicit (hx : x.Accepted codec db entry)
    (hMode : x.autoIncrement = false) :
    x.rowId = x.signedId ∧ x.counterPuts = [] ∧
      ∃ p ∈ columnEntries entry.message.entries, db[p.kv.key]? = none := by
  have hId := hx.idChecked
  rw [InsertParts.IdChecked, hMode, if_neg Bool.false_ne_true] at hId
  obtain ⟨hSigned, _, hNil, kv, rest, hKvs, hNone⟩ := hId
  obtain ⟨p, _, hp, rfl, _⟩ := map_eq_cons_iff.mp (hx.parses.trans hKvs)
  exact ⟨hSigned, hNil, p, hp ▸ mem_cons_self, hNone⟩

theorem InsertParts.Accepted.inI64 (hx : x.Accepted codec db entry) : InI64 x.rowId := by
  cases hMode : x.autoIncrement with
  | true => exact (hx.assigned hMode).2.1
  | false =>
    obtain ⟨hSigned, _, p, hp, _⟩ := hx.explicit hMode
    rw [hSigned]
    exact inI64_of_parseKey (parsedColumn?_eq_some_iff.mp (hx.parsedColumn?_eq hp))

/-- The row is stored under canonical keys if its id comes from the counter, or if
the entry has canonical keys. -/
theorem InsertParts.Accepted.keyOf_eq (hx : x.Accepted codec db entry)
    (hKeys : x.autoIncrement = true ∨ CanonicalKeys entry.message.entries) {p : ParsedColumnEntry}
    (hp : p ∈ columnEntries entry.message.entries) :
    x.keyOf p = columnKey x.table x.rowId p.column := by
  unfold InsertParts.keyOf
  cases hMode : x.autoIncrement with
  | true => rw [if_pos rfl]
  | false =>
    have hCanonical := hKeys.resolve_left (by simp [hMode])
    have hKey := hCanonical p.kv (mem_columnEntries.mp hp).1 _ (hx.parsedColumn?_eq hp)
    rw [if_neg Bool.false_ne_true, hKey, (hx.explicit hMode).1]

theorem InsertParts.Accepted.counterPut (hx : x.Accepted codec db entry) {op : BatchOp}
    (hOp : op ∈ x.counterPuts) :
    InI64 (db.nextId x.table + 1) ∧ op = nextIdPut x.table (db.nextId x.table + 1) := by
  cases hMode : x.autoIncrement with
  | true =>
    obtain ⟨hRow, _, hIn, hPut⟩ := hx.assigned hMode
    rw [hPut, mem_singleton] at hOp
    rw [hRow] at hIn hOp
    exact ⟨hIn, hOp⟩
  | false =>
    rw [(hx.explicit hMode).2.1] at hOp
    cases hOp

/-- The operations of an Insert: cells, index entries, the counter and new lists. -/
theorem InsertParts.Accepted.mem_batch (hx : x.Accepted codec db entry) {op : BatchOp}
    (hOp : op ∈ x.batch) :
    op ∈ x.columnPuts ∨ HasFront op.key tagIndex x.table ∨
      (InI64 (db.nextId x.table + 1) ∧ op = nextIdPut x.table (db.nextId x.table + 1)) ∨
      (op ∈ x.listPuts ∧ ListKey op.key) := by
  unfold InsertParts.batch at hOp
  simp only [mem_append] at hOp
  rcases hOp with ((hOp | hOp) | hOp) | hOp
  · exact .inl hOp
  · exact .inr (.inl (indexesOf_indexPutsFor hx.indexPuts op hOp))
  · exact .inr (.inr (.inl (hx.counterPut hOp)))
  · rcases hx.listPuts (fun _ => False) op hOp with ⟨_, hFalse, _⟩ | hList
    · exact hFalse.elim
    · exact .inr (.inr (.inr ⟨hOp, hList⟩))

theorem InsertParts.Accepted.mem_columnPuts_of_isColumnOf (hx : x.Accepted codec db entry)
    {op : BatchOp} {table : String} (hOp : op ∈ x.batch) (hColumn : IsColumnOf table op.key) :
    op ∈ x.columnPuts := by
  have hFront := hasFront_of_isColumnOf hColumn
  rcases hx.mem_batch hOp with hOp | hIndex | ⟨_, rfl⟩ | ⟨_, hList⟩
  · exact hOp
  · exact absurd (hFront.unique hIndex).1 (by decide)
  · exact absurd (hFront.unique (hasFront_encodeTuple tagSchema x.table _)).1 (by decide)
  · exact absurd (hFront.unique hList.hasFront).1 (by decide)

/-- Only the column puts write cells. -/
theorem InsertParts.Accepted.written_batch (hx : x.Accepted codec db entry) {key : Bytes}
    {table column : String} {rowId : Int} (hKey : parsedColumn? key = some (table, rowId, column)) :
    written x.batch key = written x.columnPuts key := by
  have hIndexes : written x.indexPuts key = none :=
    (indexesOf_indexPutsFor hx.indexPuts).written_eq_none hKey
  have hLists : written x.listPuts key = none :=
    (hx.listPuts fun _ => False).written_eq_none hKey id
  have hCounter : written x.counterPuts key = none := by
    refine written_eq_none_iff.mpr fun op hOp => ?_
    rw [(hx.counterPut hOp).2]
    exact schemaNextIdKey_ne hKey
  unfold InsertParts.batch
  rw [written_append, written_append, written_append, hLists, hCounter, hIndexes]
  rfl

theorem InsertParts.PutOf.key_eq {p : ParsedColumnEntry} {op : BatchOp} (h : x.PutOf p op) :
    op.key = x.keyOf p := by
  unfold InsertParts.PutOf at h
  split at h
  · obtain ⟨n, rfl⟩ := h
    rfl
  · rw [h]
    rfl

/-- What is stored for a column that is no list column: the last value given for it. -/
theorem written_columnPuts {ps : List ParsedColumnEntry} {puts : Batch} {rowId : Int}
    {column : String} (hPuts : List.Forall₂ x.PutOf ps puts) (hIn : InI64 rowId)
    (hKeys : ∀ p ∈ ps, x.keyOf p = columnKey x.table rowId p.column)
    (hColumn : column ∉ x.listColumns) :
    written puts (columnKey x.table rowId column) = (parsedValue ps column).map some := by
  induction hPuts with
  | nil => rfl
  | @cons p op ps puts hOp _ ih =>
    have hKey : op.key = columnKey x.table rowId p.column :=
      hOp.key_eq.trans (hKeys p mem_cons_self)
    rw [written_cons, ih fun p' hp' => hKeys p' (mem_cons_of_mem p hp'), parsedValue_cons,
      Option.map_or, hKey]
    congr 1
    by_cases hSame : p.column = column
    · unfold InsertParts.PutOf at hOp
      rw [if_neg (hSame ▸ hColumn)] at hOp
      rw [if_pos (by rw [hSame]), if_pos hSame, hOp]
      rfl
    · have hNe : columnKey x.table rowId p.column ≠ columnKey x.table rowId column :=
        fun h => hSame (columnKey_inj hIn hIn h).2.2
      rw [if_neg hNe, if_neg hSame]
      rfl

section Canonical

variable (hx : x.Accepted codec db entry)
  (hKeys : x.autoIncrement = true ∨ CanonicalKeys entry.message.entries)
include hx hKeys

/-- Every column of the table is stored. -/
theorem InsertParts.Accepted.written_cell {column : String} (hColumn : column ∈ x.columns) :
    ∃ value, written x.batch (columnKey x.table x.rowId column) = some (some value) ∧
      (column ∉ x.listColumns →
        parsedValue (columnEntries entry.message.entries) column = some value) := by
  have hIn := hx.inI64
  have hCell := parsedColumn?_columnKey x.table column hIn
  obtain ⟨p, hp, rfl⟩ := (hx.complete column).mp hColumn
  obtain ⟨op, hOp, hPut⟩ := Lists.exists_right_of_forall₂ hx.columnPuts hp
  have hOpKey : op.key = columnKey x.table x.rowId p.column :=
    hPut.key_eq.trans (hx.keyOf_eq hKeys hp)
  rw [hx.written_batch hCell]
  cases hWritten : written x.columnPuts (columnKey x.table x.rowId p.column) with
  | none => exact absurd hOpKey (written_eq_none_iff.mp hWritten op hOp)
  | some stored =>
    -- the last write of the key is the put of some kv
    obtain ⟨op', hOp', _, rfl⟩ := exists_of_written hWritten
    obtain ⟨p', _, hPut'⟩ := Lists.exists_left_of_forall₂ hx.columnPuts hOp'
    have hSome : ∃ value, (BatchOp.write op').2 = some value := by
      unfold InsertParts.PutOf at hPut'
      split at hPut'
      · obtain ⟨n, rfl⟩ := hPut'
        exact ⟨_, rfl⟩
      · rw [hPut']
        exact ⟨_, rfl⟩
    obtain ⟨value, hValue⟩ := hSome
    refine ⟨value, by rw [hValue], fun hNotList => ?_⟩
    have hLast := written_columnPuts hx.columnPuts hIn (fun p hp => hx.keyOf_eq hKeys hp) hNotList
    rw [hWritten, hValue] at hLast
    obtain ⟨value', hParsed, hEq⟩ := Option.map_eq_some_iff.mp hLast.symm
    rw [hParsed, Option.some.inj hEq]

/-- No other cell of the table is written. -/
theorem InsertParts.Accepted.written_other {key : Bytes} {rowId : Int} {column : String}
    (hKey : parsedColumn? key = some (x.table, rowId, column))
    (hOther : ∀ column ∈ x.columns, key ≠ columnKey x.table x.rowId column) :
    written x.batch key = none := by
  rw [hx.written_batch hKey]
  refine written_eq_none_iff.mpr fun op hOp hEq => ?_
  obtain ⟨p, hp, hPut⟩ := Lists.exists_left_of_forall₂ hx.columnPuts hOp
  refine hOther p.column ((hx.complete p.column).mpr ⟨p, hp, rfl⟩) ?_
  rw [← hEq, hPut.key_eq, hx.keyOf_eq hKeys hp]

end Canonical

end Insert

/-! ## Update -/

section Update

variable {codec : RuleCodec} {db : Db} {entry : ChangelogEntry} {x : UpdateParts} {key : Bytes}

theorem UpdateParts.columnPuts_eq (hx : x.Accepted codec db entry) :
    UpdateParts.columnPuts entry.message.entries =
      entry.message.entries.map fun kv => .put kv.key kv.value := by
  conv_rhs => rw [← hx.parses, map_map]
  rfl

variable {table column : String} {rowId : Int}

theorem UpdateParts.Accepted.written_batch (hx : x.Accepted codec db entry)
    (hKey : parsedColumn? key = some (table, rowId, column)) :
    written (x.batch entry.message.entries) key =
      written (entry.message.entries.map fun kv => .put kv.key kv.value) key := by
  unfold UpdateParts.batch
  rw [written_append, (indexesOf_updateIndexOps hx.indexOps).written_eq_none hKey,
    UpdateParts.columnPuts_eq hx]
  rfl

/-- Keys of the entry get its values; they are all different. -/
theorem UpdateParts.Accepted.written_kv (hx : x.Accepted codec db entry) {kv : KvData}
    (hkv : kv ∈ entry.message.entries) (hKey : parsedColumn? kv.key = some (table, rowId, column)) :
    written (x.batch entry.message.entries) kv.key = some (some kv.value) := by
  have hNodup : (entry.message.entries.map KvData.key).Nodup := by
    refine List.Pairwise.imp ?_ hx.sorted.pairwise
    rintro key _ hLt rfl
    exact List.lt_irrefl _ hLt
  rw [hx.written_batch hKey, written, map_map]
  refine WriteLog.lookup_eq_of_mem_iff fun value => ⟨fun hMem => ?_, fun hValue => ?_⟩
  · obtain ⟨kv', hkv', hWrite⟩ := mem_map.mp hMem
    obtain ⟨hSame, rfl⟩ := Prod.mk.inj hWrite
    rw [inj_on_of_nodup_map hNodup hkv' hkv hSame]
  · obtain rfl := Option.some.inj hValue
    exact mem_map_of_mem (f := BatchOp.write ∘ fun kv : KvData => .put kv.key kv.value) hkv

theorem UpdateParts.Accepted.written_other (hx : x.Accepted codec db entry)
    (hKey : parsedColumn? key = some (table, rowId, column))
    (hOther : ∀ kv ∈ entry.message.entries, kv.key ≠ key) :
    written (x.batch entry.message.entries) key = none := by
  rw [hx.written_batch hKey]
  refine written_eq_none_iff.mpr fun op hOp => ?_
  obtain ⟨kv, hkv, rfl⟩ := mem_map.mp hOp
  exact hOther kv hkv

end Update

/-! ## Delete -/

section Delete

variable {codec : RuleCodec} {db : Db} {entry : ChangelogEntry} {x : DeleteParts} {key : Bytes}
  {table column : String} {rowId : Int}

theorem DeleteParts.Accepted.indexesOf (hx : x.Accepted codec db entry) :
    IndexesOf x.table x.indexDeletes.flatten := by
  refine indexesOf_flatten fun deletes hDeletes => ?_
  obtain ⟨_, _, hRow⟩ := Lists.exists_left_of_forall₂ hx.indexDeletes hDeletes
  exact hRow.indexesOf

/-- A delete removes the keys of the entry, and no other cell. -/
theorem DeleteParts.Accepted.written_batch (hx : x.Accepted codec db entry)
    (hKey : parsedColumn? key = some (table, rowId, column)) :
    written (x.batch entry.message.entries) key =
      if key ∈ entry.message.entries.map KvData.key then some none else none := by
  unfold DeleteParts.batch
  rw [written_append, hx.indexesOf.written_eq_none hKey, Option.none_or, written_deletes]

end Delete

theorem mem_columnsByRow_iff {kvs : List KvData} {rowId : Int} {columns : List String} :
    (rowId, columns) ∈ columnsByRow kvs ↔
      (∃ kv ∈ kvs, ∃ table column, parsedColumn? kv.key = some (table, rowId, column)) ∧
        columns = btreeSet (((kvs.filterMap fun kv => (parsedColumn? kv.key).map (·.2)).filter
          (·.1 = rowId)).map (·.2)) := by
  unfold columnsByRow
  simp only [mem_map, mem_btreeSetInt, mem_filterMap, Option.map_eq_some_iff]
  constructor
  · rintro ⟨_, ⟨cell, ⟨kv, hkv, parsed, hParsed, rfl⟩, rfl⟩, hEq⟩
    cases hEq
    exact ⟨⟨kv, hkv, parsed.1, parsed.2.2, hParsed⟩, rfl⟩
  · rintro ⟨⟨kv, hkv, table, column, hParsed⟩, rfl⟩
    exact ⟨rowId, ⟨(rowId, column), ⟨kv, hkv, _, hParsed, rfl⟩, rfl⟩, rfl⟩

/-- The columns of a row that a delete names. -/
theorem mem_columns_of_mem_columnsByRow {kvs : List KvData} {rowId : Int} {columns : List String}
    (h : (rowId, columns) ∈ columnsByRow kvs) {column : String} :
    column ∈ columns ↔ ∃ kv ∈ kvs, ∃ table, parsedColumn? kv.key = some (table, rowId, column) := by
  rw [(mem_columnsByRow_iff.mp h).2]
  simp only [mem_btreeSet, mem_map, mem_filter, mem_filterMap,
    Option.map_eq_some_iff, decide_eq_true_eq]
  constructor
  · rintro ⟨cell, ⟨⟨kv, hkv, parsed, hParsed, rfl⟩, rfl⟩, rfl⟩
    exact ⟨kv, hkv, parsed.1, hParsed⟩
  · rintro ⟨kv, hkv, table, hParsed⟩
    exact ⟨(rowId, column), ⟨⟨kv, hkv, _, hParsed, rfl⟩, rfl⟩, rfl⟩

/-! ## Cascades -/

section Cascade

variable {codec : RuleCodec} {db : Db} {x : CascadeParts} {key : Bytes} {table column : String}
  {rowId : Int}

/-- A cascade deletes the cells of its rows, and no other cell. -/
theorem CascadeParts.Accepted.written_rows (hx : x.Accepted codec db)
    (hKey : parsedColumn? key = some (table, rowId, column)) :
    written x.rows.flatten key =
      if ∃ rowId ∈ x.rowIds, ∃ column ∈ x.columns, key = columnKey x.table rowId column then
        some none
      else none := by
  have hRows := hx.rows
  generalize x.rowIds = rowIds at hRows ⊢
  generalize x.rows = rows at hRows ⊢
  induction hRows with
  | nil => simp
  | @cons rowId' ops rowIds rows hOps _ ih =>
    obtain ⟨deletes, hDeletes, rfl⟩ := hOps
    have hHead : x.columns.map (fun column => BatchOp.delete (columnKey x.table rowId' column)) =
        (x.columns.map (columnKey x.table rowId')).map .delete := by
      rw [map_map]
      rfl
    rw [flatten_cons, written_append, written_append,
      hDeletes.indexesOf.written_eq_none hKey, Option.none_or, ih, hHead, written_deletes]
    by_cases hMem : key ∈ x.columns.map (columnKey x.table rowId')
    · rw [if_pos hMem]
      have hSome : ∃ rowId ∈ rowId' :: rowIds, ∃ column ∈ x.columns,
          key = columnKey x.table rowId column := by
        obtain ⟨column, hColumn, hEq⟩ := mem_map.mp hMem
        exact ⟨rowId', mem_cons_self, column, hColumn, hEq.symm⟩
      split <;> rfl
    · rw [if_neg hMem, Option.or_none]
      refine if_congr ?_ rfl rfl
      rw [exists_mem_cons_iff]
      refine (or_iff_right ?_).symm
      rintro ⟨column, hColumn, rfl⟩
      exact hMem (mem_map_of_mem hColumn)

end Cascade

/-! ## Runs of steps on one table -/

section Steps

variable {codec : RuleCodec} {db : Db} {entry : ChangelogEntry} {batch : Batch}
  {steps : List StepOn} {table : String}

/-- Two databases with the same keys of a table. -/
def SameTable (table : String) (db db' : Db) : Prop :=
  ∀ key, TableKey table key → db'[key]? = db[key]?

theorem SameTable.applyBatch {db db' : Db} (h : SameTable table db db') (batch : Batch) :
    SameTable table (db.applyBatch batch) (db'.applyBatch batch) := by
  intro key hKey
  rw [Db.getElem?_applyBatch, Db.getElem?_applyBatch, h key hKey]

theorem Spares.sameTable {batch : Batch} (h : Spares table batch) (db : Db) :
    SameTable table db (db.applyBatch batch) :=
  fun _ hKey => h.getElem?_applyBatch hKey

theorem Db.applyBatch_append (db : Db) (batch batch' : Batch) :
    db.applyBatch (batch ++ batch') = (db.applyBatch batch).applyBatch batch' :=
  foldl_append

variable {cascade : Bool} {kvs : List KvData}

/-- The operations of a step: cells and index entries of its table, the bookkeeping
of lists, and the counter after an insert that takes its id from there. -/
theorem RowStep.op_cases (h : RowStep codec db entry table cascade kvs batch) : ∀ op ∈ batch,
      HasFront op.key tagRow table ∨ HasFront op.key tagIndex table ∨ ListKey op.key ∨
        (cascade = false ∧ InI64 (db.nextId table + 1) ∧
          op = nextIdPut table (db.nextId table + 1)) := by
  cases h with
  | insert x hx =>
    intro op hOp
    rcases hx.mem_batch hOp with hOp | hIndex | hNext | ⟨_, hList⟩
    · obtain ⟨p, hp, hPut⟩ := Lists.exists_left_of_forall₂ hx.columnPuts hOp
      rw [hPut.key_eq]
      unfold InsertParts.keyOf
      split
      · exact .inl (hasFront_encodeTuple tagRow _ _)
      · exact .inl (hasFront_of_cell ((hx.row p hp).1 ▸ (mem_columnEntries.mp hp).2))
    · exact .inr (.inl hIndex)
    · exact .inr (.inr (.inr ⟨rfl, hNext⟩))
    · exact .inr (.inr (.inl hList))
  | update x hx =>
    intro op hOp
    rcases mem_append.mp hOp with hOp | hOp
    · obtain ⟨p, hp, rfl⟩ := mem_map.mp hOp
      exact .inl (hasFront_of_cell (hx.sameTable p hp ▸ (mem_columnEntries.mp hp).2))
    · exact .inr (.inl (indexesOf_updateIndexOps hx.indexOps op hOp))
  | delete x hx =>
    intro op hOp
    rcases mem_append.mp hOp with hOp | hOp
    · obtain ⟨key, hKey, rfl⟩ := mem_map.mp hOp
      obtain ⟨kv, hkv, rfl⟩ := mem_map.mp hKey
      exact .inl (hasFront_of_isColumnOf (hx.sameTable kv hkv))
    · exact .inr (.inl (hx.indexesOf op hOp))
  | cascade x hx =>
    intro op hOp
    obtain ⟨ops, hOps, hOp⟩ := mem_flatten.mp hOp
    obtain ⟨_, _, deletes, hDeletes, rfl⟩ := Lists.exists_left_of_forall₂ hx.rows hOps
    rcases mem_append.mp hOp with hOp | hOp
    · obtain ⟨column, _, rfl⟩ := mem_map.mp hOp
      exact .inl (hasFront_encodeTuple tagRow _ _)
    · exact .inr (.inl (hDeletes.indexesOf op hOp))

theorem RowStep.touches (h : RowStep codec db entry table cascade kvs batch) :
    Touches (· = table) batch := by
  intro op hOp
  rcases h.op_cases op hOp with hRow | hIndex | hList | ⟨_, _, rfl⟩
  · exact .inl ⟨table, rfl, .inl hRow⟩
  · exact .inl ⟨table, rfl, .inr (.inl hIndex)⟩
  · exact .inr hList
  · exact .inl ⟨table, rfl, tableKey_nextIdKey table⟩

theorem RowStep.spares {table' : String} (h : RowStep codec db entry table' cascade kvs batch)
    (hNe : table' ≠ table) (hLists : table ≠ listsTable) : Spares table batch :=
  h.touches.spares (fun hEq => hNe hEq.symm) hLists

/-- A property of one table is kept by an entry if its own step on the table keeps
it, and every cascade does. -/
theorem StepsOf.invariant {P : Db → Prop} (h : StepsOf codec db entry batch steps)
    (hLists : table ≠ listsTable)
    (hFrame : ∀ s s', SameTable table s s' → P s → P s')
    (hPrimary : ∀ kvs b, RowStep codec db entry table false kvs b →
      (∀ kv ∈ kvs, kv ∈ entry.message.entries) → P (db.applyBatch b))
    (hCascade : ∀ kvs b, RowStep codec db entry table true kvs b → ∀ s, P s → P (s.applyBatch b))
    (hDb : P db) : P (db.applyBatch batch) := by
  -- either nothing has touched the table yet, or only cascades are left for it
  have hRun : ∀ (l : List StepOn) (s : Db), (∀ step ∈ l, step ∈ steps) →
      (l.Pairwise fun a b => a.table = b.table → b.cascade = true) → P s →
      (SameTable table db s ∨ ∀ step ∈ l, step.table = table → step.cascade = true) →
      P (s.applyBatch (l.map StepOn.batch).flatten) := by
    intro l
    induction l with
    | nil => exact fun s _ _ hs _ => hs
    | cons step l ih =>
      intro s hMem hShape hs hFirst
      have hStep := hMem step mem_cons_self
      have hRest : ∀ step ∈ l, step ∈ steps := fun step' h' => hMem step' (mem_cons_of_mem step h')
      rw [pairwise_cons] at hShape
      rw [map_cons, flatten_cons, Db.applyBatch_append]
      by_cases hTable : step.table = table
      · have hCascades : ∀ step' ∈ l, step'.table = table → step'.cascade = true := by
          intro step' hStep' hTable'
          exact hShape.1 step' hStep' (hTable.trans hTable'.symm)
        refine ih _ hRest hShape.2 ?_ (.inr hCascades)
        have hValid := h.valid step hStep
        unfold StepOn.Valid at hValid
        rw [hTable] at hValid
        cases hKind : step.cascade with
        | true => exact hCascade _ _ (hKind ▸ hValid) s hs
        | false =>
          rcases hFirst with hSame | hAll
          · have hKvs := h.kvs step hStep
            exact hFrame _ _ (hSame.applyBatch step.batch) (hPrimary _ _ (hKind ▸ hValid) hKvs)
          · simp [hAll step mem_cons_self hTable] at hKind
      · have hSpares := (h.valid step hStep).spares hTable hLists
        refine ih _ hRest hShape.2 (hFrame _ _ (hSpares.sameTable s) hs) ?_
        rcases hFirst with hSame | hAll
        · refine .inl fun key hKey => ?_
          rw [hSpares.sameTable s key hKey, hSame key hKey]
        · exact .inr fun step' hStep' => hAll step' (mem_cons_of_mem step hStep')
  rw [h.batch]
  exact hRun steps db (fun _ hStep => hStep) h.shape hDb (.inl fun _ _ => rfl)

end Steps

end EncryptedSpaces.Ops
