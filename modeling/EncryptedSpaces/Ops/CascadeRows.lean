import EncryptedSpaces.Ops.Gating
import EncryptedSpaces.Ops.IndexMirror

/-!
# Cascades reach every dependent row

An action with a delete leg and cascades looks the dependent rows up in an index,
under a value that comes from the entry.  On a consistent table the cascade deletes
exactly the rows that store this value; they are the dependent rows of the deleted
row if the entry names one row and carries the value that is stored.
-/

namespace EncryptedSpaces.Ops

open Encoding Changelog Acl Lib Prog Lib.Except List

/-- The integer that a row has before the change under the column of a cascade. -/
def SelfValue (db : Db) (table : String) (rowId : Int) (column : String) (value : Int) : Prop :=
  if column = "id" then value = rowId
  else ∃ bytes, db[columnKey table rowId column]? = some bytes ∧
    parseI64ColumnValue bytes = some value

/-- All kvs name the row. -/
def NamesRow (kvs : List KvData) (rowId : Int) : Prop :=
  ∀ kv ∈ kvs, ∀ cell ∈ parsedColumn? kv.key, cell.2.1 = rowId

/-- The kvs carry the stored value of the column. -/
def CarriesStored (db : Db) (kvs : List KvData) (table : String) (rowId : Int) (column : String) :
    Prop :=
  ∀ kv ∈ kvs, parsedColumn? kv.key = some (table, rowId, column) →
    db[columnKey table rowId column]? = some kv.value

/-- Rows with the value are gone with their index keys, and the leg deletes nothing else. -/
structure CascadeComplete (db db' : Db) (table column : String) (value : Int)
    (legBatch : Batch) : Prop where
  none_left : ∀ rowId, ¬ HasInt db' table rowId column value
  rows_gone : ∀ rowId, HasInt db table rowId column value →
    NoRow db' table rowId ∧ NoIndexKey db' table rowId
  only : ∀ op ∈ legBatch, ∃ rowId key, HasInt db table rowId column value ∧ op = .delete key ∧
    ((∃ c, parsedColumn? key = some (table, rowId, c)) ∨
      ∃ c element, parseKey key = .ok (.index table c element rowId))

/-! ## Batches of deletes -/

section Deletes

variable {db : Db} {batch : Batch} {key value : Bytes}

/-- All operations are deletes. -/
def DeletesOnly (batch : Batch) : Prop := ∀ op ∈ batch, op = .delete op.key

theorem DeletesOnly.eq_map (h : DeletesOnly batch) :
    batch = (batch.map BatchOp.key).map .delete := by
  rw [map_map]
  refine (map_id batch).symm.trans (map_congr_left fun op hOp => ?_)
  exact h op hOp

theorem DeletesOnly.stored (h : DeletesOnly batch)
    (hStored : (db.applyBatch batch)[key]? = some value) :
    db[key]? = some value ∧ .delete key ∉ batch := by
  rw [Db.getElem?_applyBatch, h.eq_map, written_deletes] at hStored
  split_ifs at hStored with hMem
  · cases hStored
  · exact ⟨hStored, fun hOp => hMem (mem_map.mpr ⟨_, hOp, rfl⟩)⟩

theorem DeletesOnly.of_flatten {batches : List Batch} (h : ∀ b ∈ batches, DeletesOnly b) :
    DeletesOnly batches.flatten := by
  intro op hOp
  obtain ⟨b, hb, hOp⟩ := mem_flatten.mp hOp
  exact h b hb op hOp

theorem IndexDeletesOf.deletesOnly {table opName : String} {indexed : List String} {rowId : Int}
    (h : IndexDeletesOf db table indexed opName rowId batch) : DeletesOnly batch := by
  intro op hOp
  obtain ⟨_, _, _, _, _, _, rfl⟩ := (h.mem_iff op).mp hOp
  rfl

end Deletes

/-! ## One cascade -/

section Cascade

variable {codec : RuleCodec} {db : Db} {x : CascadeParts}

/-- The operations of a cascade. -/
theorem CascadeParts.Accepted.mem_rows (hx : x.Accepted codec db) (op : BatchOp) :
    op ∈ x.rows.flatten ↔ ∃ rowId ∈ x.rowIds,
      (∃ column ∈ x.columns, op = .delete (columnKey x.table rowId column)) ∨
      ∃ column ∈ x.indexed, ∃ bytes element, db[columnKey x.table rowId column]? = some bytes ∧
        cellElement bytes = some element ∧
          op = .delete (indexKey x.table column element rowId) := by
  have hRow : ∀ {rowId : Int} {ops : Batch}, x.RowDeletes db rowId ops → (op ∈ ops ↔
      (∃ column ∈ x.columns, op = .delete (columnKey x.table rowId column)) ∨
      ∃ column ∈ x.indexed, ∃ bytes element, db[columnKey x.table rowId column]? = some bytes ∧
        cellElement bytes = some element ∧
        op = .delete (indexKey x.table column element rowId)) := by
    rintro rowId ops ⟨deletes, hDeletes, rfl⟩
    rw [mem_append, hDeletes.mem_iff]
    refine or_congr_left ?_
    constructor
    · intro hMem
      obtain ⟨column, hColumn, rfl⟩ := mem_map.mp hMem
      exact ⟨column, hColumn, rfl⟩
    · rintro ⟨column, hColumn, rfl⟩
      exact mem_map_of_mem hColumn
  have hRows := hx.rows
  generalize x.rowIds = rowIds at hRows ⊢
  generalize x.rows = rows at hRows ⊢
  induction hRows with
  | nil => simp
  | cons hHead _ ih =>
    rw [flatten_cons, mem_append, exists_mem_cons_iff]
    exact or_congr (hRow hHead) ih

theorem CascadeParts.Accepted.deletesOnly (hx : x.Accepted codec db) :
    DeletesOnly x.rows.flatten := by
  intro op hOp
  obtain ⟨_, _, ⟨_, _, rfl⟩ | ⟨_, _, _, _, _, _, rfl⟩⟩ := (hx.mem_rows op).mp hOp
  · rfl
  · rfl

variable {columns indexed : List String}

/-- A cascade on a consistent table, in a batch of deletes. -/
theorem CascadeParts.Accepted.complete (hx : x.Accepted codec db)
    (hTable : IndexConsistent codec db x.table columns indexed) (hColumn : x.whereColumn ∈ indexed)
    (hValue : InI64 x.value) {batch : Batch} (hBatch : DeletesOnly batch)
    (hLeg : x.rows.flatten ⊆ batch) :
    CascadeComplete db (db.applyBatch batch) x.table x.whereColumn x.value x.rows.flatten := by
  have hFound : ∀ rowId, rowId ∈ x.rowIds ↔ HasInt db x.table rowId x.whereColumn x.value :=
    fun rowId => (hx.scan rowId).trans (hTable.indexLists_iff hColumn hValue)
  have hGone : ∀ rowId, HasInt db x.table rowId x.whereColumn x.value →
      NoRow (db.applyBatch batch) x.table rowId ∧
        NoIndexKey (db.applyBatch batch) x.table rowId := by
    intro rowId hHas
    have hMem := (hFound rowId).mpr hHas
    have hColumns : x.columns = columns := (hx.schema (ne_nil_of_mem hMem)).unique hTable.schema
    have hIndexed : x.indexed = indexed :=
      (hx.indexes (ne_nil_of_mem hMem)).unique hTable.indexes
    constructor
    · intro key value hStored column hKey
      obtain ⟨hBefore, hNot⟩ := hBatch.stored hStored
      obtain ⟨hIn, rfl⟩ := (hTable.dense.exactRow hBefore hKey).only key value hBefore column hKey
      refine hNot (hLeg ((hx.mem_rows _).mpr ⟨rowId, hMem, .inl ⟨column, ?_, rfl⟩⟩))
      rw [hColumns]
      exact hIn
    · intro key value hStored column element hKey
      obtain ⟨hBefore, hNot⟩ := hBatch.stored hStored
      have hIn := hTable.only key value hBefore column element rowId hKey
      obtain ⟨bytes, element', hCell, hElement, rfl⟩ :=
        (hTable.mirror column hIn).stored key value hBefore element rowId hKey
      refine hNot (hLeg ((hx.mem_rows _).mpr ⟨rowId, hMem, .inr ⟨column, ?_, bytes, element', hCell,
        hElement, rfl⟩⟩))
      rw [hIndexed]
      exact hIn
  refine ⟨fun rowId hHas => ?_, hGone, fun op hOp => ?_⟩
  · obtain ⟨key, bytes, hStored, hKey, hInt⟩ := hHas
    have hBefore := (hBatch.stored hStored).1
    exact (hGone rowId ⟨key, bytes, hBefore, hKey, hInt⟩).1 key bytes hStored _ hKey
  · obtain ⟨rowId, hMem, hKind⟩ := (hx.mem_rows op).mp hOp
    have hRow := hx.inI64 rowId hMem
    rcases hKind with ⟨column, _, rfl⟩ | ⟨column, _, bytes, element, _, hElement, rfl⟩
    · exact ⟨rowId, _, (hFound rowId).mp hMem, rfl,
        .inl ⟨column, parsedColumn?_columnKey x.table column hRow⟩⟩
    · exact ⟨rowId, _, (hFound rowId).mp hMem, rfl,
        .inr ⟨column, _, parseKey_indexKey (encodable_of_cellElement hElement) hRow⟩⟩

end Cascade

/-! ## The value of the deleted row -/

section SelfRow

variable {db : Db} {kvs : List KvData} {table column : String} {rowId value : Int}

theorem inI64_of_parseI64ColumnValue {bytes : Bytes} (h : parseI64ColumnValue bytes = some value) :
    InI64 value :=
  encodable_of_cellElement (cellElement_eq_int_iff.mpr h)

/-- The self row of kvs that name one row and carry what is stored. -/
theorem selfValue_of_lookup (hColumns : ∀ kv ∈ kvs, IsColumnOf table kv.key)
    (hRow : NamesRow kvs rowId) (hStored : column = "id" ∨ CarriesStored db kvs table rowId column)
    (h : (selfRowFromLegKvs kvs).lookup column = some value) :
    SelfValue db table rowId column value ∧ InI64 value := by
  let cells := kvs.filterMap fun kv => (parsedColumn? kv.key).map fun c => (c, kv.value)
  have hCell : ∀ cell ∈ cells, ∃ kv ∈ kvs, cell.2 = kv.value ∧
      parsedColumn? kv.key = some (table, rowId, cell.1.2.2) ∧ cell.1.2.1 = rowId := by
    intro cell hMem
    obtain ⟨kv, hkv, hEq⟩ := mem_filterMap.mp hMem
    obtain ⟨c, hc, rfl⟩ := Option.map_eq_some_iff.mp hEq
    obtain ⟨r, name, hOwn⟩ := hColumns kv hkv
    have hName : c.2.1 = rowId := hRow kv hkv c hc
    rw [hOwn, Option.some.injEq] at hc
    subst hc
    exact ⟨kv, hkv, rfl, by rw [hOwn, ← hName], hName⟩
  unfold selfRowFromLegKvs at h
  dsimp only at h
  split at h
  next hNil =>
    rw [map_eq_nil_iff.mp hNil] at h
    cases h
  next id rest hIds =>
    have hSame : ∀ r ∈ id :: rest, r = rowId := by
      intro r hr
      rw [← hIds] at hr
      obtain ⟨cell, hMem, rfl⟩ := mem_map.mp hr
      obtain ⟨_, _, _, _, hEq⟩ := hCell cell hMem
      exact hEq
    have hId : id = rowId := hSame id mem_cons_self
    rw [if_pos fun r hr => (hSame r (mem_cons_of_mem id hr)).trans hId.symm, lookup_cons] at h
    by_cases hColumn : column = "id"
    · have hValue : id = value := by simpa [hColumn] using h
      obtain ⟨cell, hMem, hEq⟩ := mem_map.mp (hIds ▸ mem_cons_self : id ∈ cells.map (·.1.2.1))
      obtain ⟨kv, _, _, hKey, _⟩ := hCell cell hMem
      have hIn : InI64 rowId := inI64_of_parseKey (parsedColumn?_eq_some_iff.mp hKey)
      refine ⟨?_, hValue ▸ hId ▸ hIn⟩
      rw [SelfValue, if_pos hColumn]
      exact hValue.symm.trans hId
    · rw [beq_eq_false_iff_ne.mpr hColumn] at h
      obtain ⟨front, back, hInts, _⟩ := lookup_eq_some_iff.mp h
      have hMem : (column, value) ∈ cells.filterMap fun cell =>
          (parseI64ColumnValue cell.2).map fun i => (cell.1.2.2, i) := by
        refine mem_reverse.mp ?_
        have hMid : (column, value) ∈ front ++ (column, value) :: back := by simp
        rw [← hInts] at hMid
        exact hMid
      obtain ⟨cell, hCellMem, hEq⟩ := mem_filterMap.mp hMem
      obtain ⟨i, hInt, hPair⟩ := Option.map_eq_some_iff.mp hEq
      obtain ⟨rfl, rfl⟩ := Prod.mk.inj hPair
      obtain ⟨kv, hkv, hValue, hKey, _⟩ := hCell cell hCellMem
      refine ⟨?_, inI64_of_parseI64ColumnValue hInt⟩
      rw [SelfValue, if_neg hColumn]
      exact ⟨kv.value, (hStored.resolve_left hColumn) kv hkv hKey, hValue ▸ hInt⟩

end SelfRow

/-! ## Actions -/

section Actions

variable {codec : RuleCodec} {db : Db} {entry : ChangelogEntry}

theorem DeleteParts.Accepted.deletesOnly {x : DeleteParts} (hx : x.Accepted codec db entry) :
    DeletesOnly (x.batch entry.message.entries) := by
  intro op hOp
  rcases mem_append.mp hOp with hOp | hOp
  · obtain ⟨key, _, rfl⟩ := mem_map.mp hOp
    rfl
  · obtain ⟨ops, hOps, hOp⟩ := mem_flatten.mp hOp
    obtain ⟨rowId, _, hDeletes⟩ := Lists.exists_left_of_forall₂ hx.indexDeletes hOps
    exact hDeletes.deletesOnly op hOp

/-- Delete legs and cascades only delete. -/
theorem deletesOnly_of_dispatchLeg {actionName : String} {selfRow : SelfRow} {leg : ActionLeg}
    {kvs : List KvData} {batch : Batch}
    (hKind : leg.isCascade = true ∨ ∃ table, leg = .delete table)
    (h : (dispatchLeg entry actionName selfRow leg kvs).eval (plain codec db.reader) = .ok batch) :
    DeletesOnly batch := by
  cases leg with
  | insert table | update table cols =>
    rcases hKind with hKind | ⟨_, hKind⟩
    · cases hKind
    · cases hKind
  | delete table =>
    obtain ⟨_, _, h⟩ := eval_bind_eq_ok.mp h
    obtain ⟨x, hx, rfl⟩ := deleteOp_returns.of_ok h
    exact hx.deletesOnly
  | cascadeDelete table whereColumn whereSelfColumn =>
    obtain ⟨_, _, h⟩ := eval_bind_eq_ok.mp h
    obtain ⟨x, _, _, _, hx, rfl⟩ := dispatchCascadeDelete_returns.of_ok h
    exact hx.deletesOnly

/-- The first leg takes all kvs of its table. -/
theorem legKvs_first (leg : ActionLeg) (legs : List ActionLeg) (kvs : List KvData) :
    legKvs (leg :: legs) kvs 0 leg = tableKvs kvs leg.table := by
  unfold legKvs legIndices
  rw [zipIdx_cons, filter_cons_of_pos (by simp)]
  exact if_pos rfl

variable {n : Nat} {batch : Batch} {primaryTable name primary : String} {kvs : List KvData}
  {action : Action} {cascades : List ActionLeg} {table whereColumn whereSelfColumn : String}
  {columns indexed : List String} {rowId : Int}

/-- An accepted action that deletes a row and cascades: if the entry names one row of
the primary table and carries the stored value that the cascade follows, and the
column of the cascade is indexed, then exactly the dependent rows go. -/
theorem cascade_complete
    (hStep : (dispatchExtractAndValidate n entry).eval (plain codec db.reader) = .ok batch)
    (hType : entry.message.opType = .action)
    (hMarker : extractActionMarker entry = .ok (primaryTable, name, kvs))
    (hAction : db.Static codec (.action primaryTable name) (some action))
    (hLegs : action.legs = .delete primary :: cascades)
    (hCascades : ∀ leg ∈ cascades, leg.isCascade = true)
    (hLeg : .cascadeDelete table whereColumn whereSelfColumn ∈ cascades)
    (hTable : IndexConsistent codec db table columns indexed) (hIndexed : whereColumn ∈ indexed)
    (hRow : NamesRow (tableKvs kvs primary) rowId)
    (hStored : whereSelfColumn = "id" ∨
      CarriesStored db (tableKvs kvs primary) primary rowId whereSelfColumn) :
    ∃ value legBatch, SelfValue db primary rowId whereSelfColumn value ∧
      (dispatchLeg entry name (selfRowFromLegKvs (tableKvs kvs primary))
        (.cascadeDelete table whereColumn whereSelfColumn) []).eval (plain codec db.reader) =
          .ok legBatch ∧
      legBatch ⊆ batch ∧
      CascadeComplete db (db.applyBatch batch) table whereColumn value legBatch := by
  obtain ⟨_, _, hOp⟩ := eval_bind_eq_ok.mp hStep
  rw [hType] at hOp
  obtain ⟨x, hx, rfl⟩ := actionOp_returns.of_ok hOp
  have hParts := hx.marker.symm.trans hMarker
  obtain ⟨rfl, rfl, rfl⟩ := hParts
  obtain rfl : x.action = action := Option.some.inj (hx.declared.unique hAction)
  have hKind : ∀ leg ∈ x.action.legs, leg.isCascade = true ∨ ∃ table, leg = .delete table := by
    intro leg hMem
    rw [hLegs] at hMem
    rcases mem_cons.mp hMem with rfl | hMem
    · exact .inr ⟨primary, rfl⟩
    · exact .inl (hCascades leg hMem)
  have hDeletes : DeletesOnly x.batches.flatten := by
    refine DeletesOnly.of_flatten fun b hb => ?_
    obtain ⟨leg, hMem, hEval⟩ := Lists.exists_left_of_forall₂ hx.legs hb
    have hMem' := mem_of_getElem? (mem_zipIdx_iff_getElem?.mp hMem)
    exact deletesOnly_of_dispatchLeg (hKind leg.1 hMem') hEval
  have hSelf : x.selfRow = selfRowFromLegKvs (tableKvs x.kvs primary) := by
    unfold ActionParts.selfRow ActionParts.legKvs
    rw [hLegs, zipIdx_cons]
    exact congrArg selfRowFromLegKvs (legKvs_first (.delete primary) cascades x.kvs)
  -- the leg of the cascade
  obtain ⟨i, hi⟩ := mem_iff_getElem?.mp
    (hLegs ▸ mem_cons_of_mem (.delete primary) hLeg :
      .cascadeDelete table whereColumn whereSelfColumn ∈ x.action.legs)
  have hNumbered : (.cascadeDelete table whereColumn whereSelfColumn, i) ∈ x.action.legs.zipIdx :=
    mem_zipIdx_iff_getElem?.mpr hi
  obtain ⟨b, hb, hEval⟩ := Lists.exists_right_of_forall₂ hx.legs hNumbered
  obtain ⟨_, hEmpty, hScan⟩ := eval_bind_eq_ok.mp hEval
  have hNil : x.legKvs (.cascadeDelete table whereColumn whereSelfColumn, i) = [] :=
    Prog.eval_ensure.mp hEmpty
  obtain ⟨c, rfl, rfl, hLookup, hc, rfl⟩ := dispatchCascadeDelete_returns.of_ok hScan
  rw [hSelf] at hLookup hEval
  rw [hNil] at hEval
  obtain ⟨hValue, hIn⟩ :=
    selfValue_of_lookup (fun kv hkv => (mem_tableKvs.mp hkv).2) hRow hStored hLookup
  have hSub : c.rows.flatten ⊆ x.batches.flatten :=
    fun op hOp => mem_flatten.mpr ⟨_, hb, hOp⟩
  exact ⟨c.value, _, hValue, hEval, hSub, hc.complete hTable hIndexed hIn hDeletes hSub⟩

end Actions

/-! ## A wrong value in the entry -/

/-- `drop` deletes a document and the notes that refer to its `a`. -/
def notesByA : Db := docsAndNotes.insert (actionStorageKey "docs" "drop") [actionStorageVersion]

def notesByACodec : RuleCodec :=
  actionCodec { asserts := [], legs := [.delete "docs", .cascadeDelete "notes" "doc" "a"] } []

/-- Drops document `1`, with a value for its `a`. -/
def dropWithValue (value : Int) : ChangelogEntry :=
  sampleEntry .action 1 1 1
    [ { key := actionMarkerKey "docs", value := utf8 "drop" },
      { key := columnKey "docs" 1 "a", value := i64ToValueBytes value } ]

def dropAction : Action :=
  { name := "drop", asserts := [], legs := [.delete "docs", .cascadeDelete "notes" "doc" "a"] }

theorem notesByA_static :
    notesByA.Static notesByACodec (.action "docs" "drop") (some dropAction) ∧
    notesByA.Static notesByACodec (.schemaColumns "notes") ["doc"] ∧
    notesByA.Static notesByACodec (.schemaIndexes "notes") ["doc"] := by
  refine ⟨?_, ?_, ?_⟩
  · unfold Db.Static StaticKey.treeKey
    rfl
  · obtain ⟨_, hColumns, rfl⟩ : ∃ columns, decodeStatic notesByACodec "" (.schemaColumns "notes")
        notesByA[(StaticKey.schemaColumns "notes").treeKey]? = .ok columns ∧
          columns = (["doc"] : List String) := by
      decide +kernel
    exact hColumns
  · obtain ⟨_, hColumns, rfl⟩ : ∃ columns, decodeStatic notesByACodec "" (.schemaIndexes "notes")
        notesByA[(StaticKey.schemaIndexes "notes").treeKey]? = .ok columns ∧
          columns = (["doc"] : List String) := by
      decide +kernel
    exact hColumns

theorem dropWithValue_marker (value : Int) :
    extractActionMarker (dropWithValue value) = .ok ("docs", "drop",
      [ { key := columnKey "docs" 1 "a", value := i64ToValueBytes value } ]) := rfl

/-- With the stored value the note on it goes with the document. -/
theorem drop_with_stored_value_complete : ∃ db batch value legBatch,
    Run notesByACodec notesByA [sampleCreate, docInsert, noteInsert 7] db ∧
    (dispatchExtractAndValidate 4 (dropWithValue 7)).eval (plain notesByACodec db.reader) =
      .ok batch ∧
    SelfValue db "docs" 1 "a" value ∧ HasInt db "notes" 1 "doc" 7 ∧
    CascadeComplete db (db.applyBatch batch) "notes" "doc" value legBatch := by
  obtain ⟨db, hRun, hPairs, hNote, hDoc, batch, hStep⟩ :
      ∃ db, Run notesByACodec notesByA [sampleCreate, docInsert, noteInsert 7] db ∧
        CheckedPairs db "notes" ["doc"] ["doc"] ∧
        db[columnKey "notes" 1 "doc"]? = some (i64ToValueBytes 7) ∧
        db[columnKey "docs" 1 "a"]? = some (i64ToValueBytes 7) ∧
        ∃ batch, Accepts notesByACodec 4 db (dropWithValue 7) batch :=
    exists_run (by decide +kernel)
  have hTable := IndexConsistent.of_checkedPairs (hRun.static_iff.mpr notesByA_static.2.1)
    (hRun.static_iff.mpr notesByA_static.2.2) hPairs
  let docCell : KvData := { key := columnKey "docs" 1 "a", value := i64ToValueBytes 7 }
  have hKvs : ∀ kv ∈ tableKvs [docCell] "docs", kv = docCell :=
    fun kv hkv => mem_singleton.mp (mem_tableKvs.mp hkv).1
  have hCell := parsedColumn?_columnKey "docs" "a" (by decide : InI64 1)
  have hRow : NamesRow (tableKvs [docCell] "docs") 1 := by
    intro kv hkv cell hParse
    rw [hKvs kv hkv, hCell] at hParse
    cases hParse
    rfl
  have hStored : CarriesStored db (tableKvs [docCell] "docs") "docs" 1 "a" := by
    intro kv hkv _
    rw [hKvs kv hkv]
    exact hDoc
  obtain ⟨value, legBatch, hValue, _, _, hComplete⟩ := cascade_complete hStep rfl
    (dropWithValue_marker 7) (hRun.static_iff.mpr notesByA_static.1) rfl (by decide)
    mem_cons_self hTable mem_cons_self hRow (.inr hStored)
  have hInt := cellElement_eq_int_iff.mp
    (by decide +kernel : cellElement (i64ToValueBytes 7) = some (.int 7))
  exact ⟨db, batch, value, legBatch, hRun, hStep, hValue,
    ⟨_, _, hNote, parsedColumn?_columnKey "notes" "doc" (by decide), hInt⟩, hComplete⟩

/-- With another value the note stays, although document `1` is deleted. -/
theorem drop_with_other_value_leaves_note : ∃ db batch,
    Run notesByACodec notesByA [sampleCreate, docInsert, noteInsert 7] db ∧
    (dispatchExtractAndValidate 4 (dropWithValue 8)).eval (plain notesByACodec db.reader) =
      .ok batch ∧
    IndexConsistent notesByACodec db "notes" ["doc"] ["doc"] ∧ SelfValue db "docs" 1 "a" 7 ∧
    NoRow (db.applyBatch batch) "docs" 1 ∧ HasInt (db.applyBatch batch) "notes" 1 "doc" 7 := by
  obtain ⟨db, hRun, hPairs, hDoc, batch, hStep, hGone, hNote⟩ :
      ∃ db, Run notesByACodec notesByA [sampleCreate, docInsert, noteInsert 7] db ∧
        CheckedPairs db "notes" ["doc"] ["doc"] ∧
        db[columnKey "docs" 1 "a"]? = some (i64ToValueBytes 7) ∧
        ∃ batch, Accepts notesByACodec 4 db (dropWithValue 8) batch ∧
          NoRow (db.applyBatch batch) "docs" 1 ∧
          (db.applyBatch batch)[columnKey "notes" 1 "doc"]? = some (i64ToValueBytes 7) :=
    exists_run (by decide +kernel)
  have hInt := cellElement_eq_int_iff.mp
    (by decide +kernel : cellElement (i64ToValueBytes 7) = some (.int 7))
  refine ⟨db, batch, hRun, hStep, ?_, ?_, hGone, ?_⟩
  · exact IndexConsistent.of_checkedPairs (hRun.static_iff.mpr notesByA_static.2.1)
      (hRun.static_iff.mpr notesByA_static.2.2) hPairs
  · rw [SelfValue, if_neg (by decide)]
    exact ⟨_, hDoc, hInt⟩
  · exact ⟨_, _, hNote, parsedColumn?_columnKey "notes" "doc" (by decide), hInt⟩

end EncryptedSpaces.Ops
