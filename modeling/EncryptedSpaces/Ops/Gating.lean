import EncryptedSpaces.Ops.RowWrites

/-!
# Tables that are written by named actions only

A schema may restrict the writes or the deletes of a table to a list of actions.
The verifiers check the list for Insert, Update and Delete, direct ones and legs of
actions, but not for the rows that a cascade deletes.  This module says of every
accepted entry exactly when the list is respected.
-/

namespace EncryptedSpaces.Ops

open Encoding Changelog Acl Lib Prog Lib.Except List

/-- The batch stores a cell of the table. -/
def PutsCell (batch : Batch) (table : String) : Prop :=
  ∃ key value, .put key value ∈ batch ∧ IsColumnOf table key

/-- The batch deletes a cell of the table. -/
def DeletesCell (batch : Batch) (table : String) : Prop :=
  ∃ key, .delete key ∈ batch ∧ IsColumnOf table key

/-- The name of the action that an entry invokes. -/
def actionName? (entry : ChangelogEntry) : Option String :=
  match entry.message.opType, extractActionMarker entry with
  | .action, .ok (_, name, _) => some name
  | _, _ => none

/-- The lists of a table are respected: rows are inserted, updated and deleted by the
listed actions only. -/
structure GateHolds (codec : RuleCodec) (db : Db) (entry : ChangelogEntry) (batch : Batch)
    (table : String) : Prop where
  write : ∀ allowed, db.Static codec (.onlyViaActions table "write") (some allowed) →
    PutsCell batch table → ∃ name ∈ actionName? entry, name ∈ allowed
  delete : ∀ allowed, db.Static codec (.onlyViaActions table "delete") (some allowed) →
    DeletesCell batch table → ∃ name ∈ actionName? entry, name ∈ allowed

/-- The row that the assertions and cascades of an action see. -/
def primarySelfRow (action : Action) (kvs : List KvData) : SelfRow :=
  selfRowFromLegKvs ((action.legs.zipIdx.head?.map fun leg =>
    legKvs action.legs kvs leg.2 leg.1).getD [])

/-- An action outside the list has a cascade on the table that finds a row. -/
inductive UngatedCascade (codec : RuleCodec) (db : Db) (entry : ChangelogEntry) (table : String) :
    Prop where
  | intro (allowed : List String) (primaryTable name : String) (kvs : List KvData) (action : Action)
      (whereColumn whereSelfColumn : String) (value rowId : Int) (columns : List String)
      (hGate : db.Static codec (.onlyViaActions table "delete") (some allowed))
      (hType : entry.message.opType = .action)
      (hMarker : extractActionMarker entry = .ok (primaryTable, name, kvs))
      (hName : name ∉ allowed)
      (hAction : db.Static codec (.action primaryTable name) (some action))
      (hLeg : .cascadeDelete table whereColumn whereSelfColumn ∈ action.legs)
      (hValue : (primarySelfRow action kvs).lookup whereSelfColumn = some value)
      (hListed : IndexLists db table whereColumn value rowId)
      (hSchema : db.Static codec (.schemaColumns table) columns) (hColumns : columns ≠ [])

/-! ## Kinds of cell writes -/

section Kinds

variable {codec : RuleCodec} {db : Db} {entry : ChangelogEntry} {table : String}

variable {batch : Batch} {op : BatchOp} {cascade : Bool} {kvs : List KvData}

/-- Index entries are no cells. -/
theorem IndexesOf.not_isColumnOf {table' : String} (h : IndexesOf table' batch) (hOp : op ∈ batch) :
    ¬ IsColumnOf table op.key := by
  intro hColumn
  exact absurd ((hasFront_of_isColumnOf hColumn).unique (h op hOp)).1 (by decide)

theorem InsertParts.Accepted.not_deletesCell {x : InsertParts} (hx : x.Accepted codec db entry) :
    ¬ DeletesCell x.batch table := by
  rintro ⟨key, hMem, hColumn⟩
  replace hMem := hx.mem_columnPuts_of_isColumnOf hMem hColumn
  obtain ⟨p, _, hPut⟩ := Lists.exists_left_of_forall₂ hx.columnPuts hMem
  unfold InsertParts.PutOf at hPut
  split at hPut
  · obtain ⟨_, hPut⟩ := hPut
    cases hPut
  · cases hPut

theorem UpdateParts.Accepted.not_deletesCell {x : UpdateParts} (hx : x.Accepted codec db entry) :
    ¬ DeletesCell (x.batch entry.message.entries) table := by
  rintro ⟨key, hMem, hColumn⟩
  rcases mem_append.mp hMem with hMem | hMem
  · obtain ⟨p, _, hPut⟩ := mem_map.mp hMem
    cases hPut
  · exact (indexesOf_updateIndexOps hx.indexOps).not_isColumnOf hMem hColumn

theorem DeleteParts.Accepted.not_putsCell {x : DeleteParts} (hx : x.Accepted codec db entry) :
    ¬ PutsCell (x.batch entry.message.entries) table := by
  rintro ⟨key, value, hMem, hColumn⟩
  rcases mem_append.mp hMem with hMem | hMem
  · obtain ⟨_, _, hPut⟩ := mem_map.mp hMem
    cases hPut
  · exact hx.indexesOf.not_isColumnOf hMem hColumn

/-- A cell operation of a cascade deletes a column of one of its rows. -/
theorem CascadeParts.Accepted.cell_op {x : CascadeParts} (hx : x.Accepted codec db)
    (hOp : op ∈ x.rows.flatten) (hColumn : IsColumnOf table op.key) :
    ∃ rowId ∈ x.rowIds, ∃ column ∈ x.columns, op = .delete (columnKey x.table rowId column) := by
  obtain ⟨ops, hOps, hOp⟩ := mem_flatten.mp hOp
  obtain ⟨rowId, hRow, deletes, hDeletes, rfl⟩ := Lists.exists_left_of_forall₂ hx.rows hOps
  rcases mem_append.mp hOp with hOp | hOp
  · obtain ⟨column, hMem, rfl⟩ := mem_map.mp hOp
    exact ⟨rowId, hRow, column, hMem, rfl⟩
  · exact absurd hColumn (hDeletes.indexesOf.not_isColumnOf hOp)

theorem CascadeParts.Accepted.mem_delete {x : CascadeParts} (hx : x.Accepted codec db) {rowId : Int}
    (hRow : rowId ∈ x.rowIds) {column : String} (hColumn : column ∈ x.columns) :
    .delete (columnKey x.table rowId column) ∈ x.rows.flatten := by
  obtain ⟨_, hOps, _, _, rfl⟩ := Lists.exists_right_of_forall₂ hx.rows hRow
  exact mem_flatten.mpr ⟨_, hOps, mem_append_left _ (mem_map_of_mem hColumn)⟩

/-- The cells that a step writes are cells of its table. -/
theorem RowStep.table_of_cell_op {table' : String}
    (h : RowStep codec db entry table cascade kvs batch) (hOp : op ∈ batch)
    (hColumn : IsColumnOf table' op.key) : table = table' := by
  have hFront := hasFront_of_isColumnOf hColumn
  rcases h.op_cases op hOp with hRow | hIndex | hList | ⟨_, _, rfl⟩
  · exact (hRow.unique hFront).2
  · exact absurd (hIndex.unique hFront).1 (by decide)
  · exact absurd (hList.hasFront.unique hFront).1 (by decide)
  · have hSchema := hasFront_encodeTuple tagSchema table [.string "next_id"]
    exact absurd (hFront.unique hSchema).1 (by decide)

theorem RowStep.table_of_putsCell (h : RowStep codec db entry table cascade kvs batch)
    (table' : String) (hPut : PutsCell batch table') : table = table' := by
  obtain ⟨key, value, hMem, hColumn⟩ := hPut
  exact h.table_of_cell_op hMem hColumn

theorem RowStep.table_of_deletesCell (h : RowStep codec db entry table cascade kvs batch)
    (table' : String) (hDelete : DeletesCell batch table') : table = table' := by
  obtain ⟨key, hMem, hColumn⟩ := hDelete
  exact h.table_of_cell_op hMem hColumn

end Kinds

/-! ## The checks -/

section Checks

variable {codec : RuleCodec} {db : Db} {entry : ChangelogEntry} {table : String}

theorem enforceOnlyViaActions_fromDb {opStr opName : String} {actionName : Option String} :
    (enforceOnlyViaActions table opStr opName actionName).Returns (FromDb codec db) fun _ =>
      ∀ allowed, db.Static codec (.onlyViaActions table opStr) (some allowed) →
        ∃ name ∈ actionName, name ∈ allowed := by
  refine static_fromDb.bind fun stored hStored => ?_
  cases stored with
  | none =>
    refine returns_ret fun allowed hAllowed => ?_
    cases hAllowed.unique hStored
  | some allowed =>
    cases actionName with
    | none => exact returns_fail
    | some name =>
      refine returns_ensure.mono fun _ hName allowed' hAllowed => ?_
      cases hAllowed.unique hStored
      exact ⟨name, rfl, hName⟩

theorem not_isInternalTable (h : Application table) : isInternalTable table = false := by
  refine decide_eq_false fun hMem => ?_
  have hInternal :
    ∀ name ∈ [usersTable, retentionTable, keyHistoryTable, "_access_control", "_lists"],
      ¬ Application name := by decide
  exact hInternal table hMem h

/-- A direct operation on a table with a list is refused. -/
theorem gateHolds_of_direct {opStr opName table' : String} {u : Unit} {batch : Batch}
    (h : (enforceDispatchGating entry none).eval (plain codec db.reader) = .ok u)
    (hKind : gatedKind entry.message.opType = some (opStr, opName)) (hApp : Application table)
    (hNonempty : entry.message.entries ≠ [])
    (hColumns : ∀ kv ∈ entry.message.entries, IsColumnOf table kv.key)
    (hStep : RowStep codec db entry table false entry.message.entries batch)
    (hPuts : PutsCell batch table' → opStr = "write")
    (hDeletes : DeletesCell batch table' → opStr = "delete") :
    GateHolds codec db entry batch table' := by
  have hNone : ∀ allowed, ¬ db.Static codec (.onlyViaActions table opStr) (some allowed) := by
    intro allowed hAllowed
    obtain ⟨kv, hkv⟩ := exists_mem_of_ne_nil _ hNonempty
    have hKeys : columnKeysFromEntry entry ≠ [] :=
      ne_nil_of_mem (mem_map_of_mem hkv)
    unfold enforceDispatchGating at h
    simp only [hKind, if_neg hKeys] at h
    obtain ⟨table', hTable', h⟩ := eval_bind_eq_ok.mp h
    have hTables : tableFromColumnKeys (columnKeysFromEntry entry) opName = .ok table' := by
      rw [← hTable', pureStep, Prog.eval_lift]
    have hColumn := isColumnOf_of_tableFromColumnKeys hTables kv.key (mem_map_of_mem hkv)
    obtain rfl := table_eq_of_isColumnOf hColumn (hColumns kv hkv)
    rw [not_isInternalTable hApp, if_neg Bool.false_ne_true] at h
    obtain ⟨name, hName, _⟩ := enforceOnlyViaActions_fromDb.of_ok h allowed hAllowed
    cases hName
  constructor
  · intro allowed hGate hPut
    rw [← hStep.table_of_putsCell table' hPut, ← hPuts hPut] at hGate
    exact absurd hGate (hNone allowed)
  · intro allowed hGate hDelete
    rw [← hStep.table_of_deletesCell table' hDelete, ← hDeletes hDelete] at hGate
    exact absurd hGate (hNone allowed)

/-- The cell operations of a leg are on its table; other legs than cascades have
passed the list of the table. -/
theorem gate_of_dispatchLeg {actionName : String} {selfRow : SelfRow} {leg : ActionLeg}
    {kvs : List KvData} {batch : Batch} (hKvs : ∀ kv ∈ kvs, IsColumnOf leg.table kv.key)
    (h : (dispatchLeg entry actionName selfRow leg kvs).eval (plain codec db.reader) = .ok batch) :
    (PutsCell batch table → ∀ allowed,
      db.Static codec (.onlyViaActions table "write") (some allowed) → actionName ∈ allowed) ∧
    (DeletesCell batch table → leg.isCascade = true ∧ leg.table = table ∨ ∀ allowed,
      db.Static codec (.onlyViaActions table "delete") (some allowed) → actionName ∈ allowed) := by
  have hStep := rowStep_of_dispatchLeg hKvs h
  have hPassed : ∀ {opStr : String} {u : Unit},
      (enforceOnlyViaActions leg.table opStr "action" (some actionName)).eval
        (plain codec db.reader) = .ok u → leg.table = table → ∀ allowed,
      db.Static codec (.onlyViaActions table opStr) (some allowed) → actionName ∈ allowed := by
    intro opStr u hEval hEq allowed hAllowed
    rw [← hEq] at hAllowed
    obtain ⟨name, hName, hMem⟩ :=
      enforceOnlyViaActions_fromDb.of_ok hEval allowed hAllowed
    cases hName
    exact hMem
  have hPutTable := hStep.table_of_putsCell table
  have hDeleteTable := hStep.table_of_deletesCell table
  cases leg with
  | insert legTable =>
    obtain ⟨_, hGate, h⟩ := eval_bind_eq_ok.mp h
    obtain ⟨x, hx, rfl⟩ := insertOp_returns.of_ok h
    exact ⟨fun hPut => hPassed hGate (hPutTable hPut),
      fun hDelete => absurd hDelete hx.not_deletesCell⟩
  | update legTable cols =>
    obtain ⟨_, hGate, h⟩ := eval_bind_eq_ok.mp h
    obtain ⟨_, _, h⟩ := eval_bind_eq_ok.mp h
    obtain ⟨x, hx, rfl⟩ := updateOp_returns.of_ok h
    exact ⟨fun hPut => hPassed hGate (hPutTable hPut),
      fun hDelete => absurd hDelete hx.not_deletesCell⟩
  | delete legTable =>
    obtain ⟨_, hGate, h⟩ := eval_bind_eq_ok.mp h
    obtain ⟨x, hx, rfl⟩ := deleteOp_returns.of_ok h
    exact ⟨fun hPut => absurd hPut hx.not_putsCell,
      fun hDelete => .inr (hPassed hGate (hDeleteTable hDelete))⟩
  | cascadeDelete legTable whereColumn whereSelfColumn =>
    refine ⟨fun hPut => ?_, fun hDelete => .inl ⟨rfl, hDeleteTable hDelete⟩⟩
    obtain ⟨_, _, h⟩ := eval_bind_eq_ok.mp h
    obtain ⟨x, _, _, _, hx, rfl⟩ := dispatchCascadeDelete_returns.of_ok h
    obtain ⟨key, value, hMem, hColumn⟩ := hPut
    obtain ⟨_, _, _, _, hOp⟩ := hx.cell_op hMem hColumn
    cases hOp

end Checks

/-! ## Accepted entries -/

section Entries

variable {codec : RuleCodec} {db : Db} {n : Nat} {entry : ChangelogEntry} {batch : Batch}
  {table : String}

theorem gateHolds_of_spares (h : Spares table batch) : GateHolds codec db entry batch table := by
  have hNone : ∀ op ∈ batch, ¬ IsColumnOf table op.key := by
    intro op hOp hColumn
    exact written_eq_none_iff.mp (h op.key hColumn.tableKey) op hOp rfl
  constructor
  · rintro _ _ ⟨key, value, hMem, hColumn⟩
    exact absurd hColumn (hNone _ hMem)
  · rintro _ _ ⟨key, hMem, hColumn⟩
    exact absurd hColumn (hNone _ hMem)

theorem actionName?_eq {primaryTable name : String} {kvs : List KvData}
    (hType : entry.message.opType = .action)
    (hMarker : extractActionMarker entry = .ok (primaryTable, name, kvs)) :
    actionName? entry = some name := by
  unfold actionName?
  rw [hType, hMarker]

/-- An accepted action respects the lists unless a cascade of it finds a row. -/
theorem ActionParts.Accepted.gate_iff {x : ActionParts} (hx : x.Accepted codec db entry)
    (hType : entry.message.opType = .action) :
    GateHolds codec db entry x.batches.flatten table ↔ ¬ UngatedCascade codec db entry table := by
  have hName := actionName?_eq hType hx.marker
  constructor
  · rintro hHolds
      ⟨allowed, primaryTable, name, kvs, action, whereColumn, whereSelfColumn, value, rowId,
      columns, hGate, _, hMarker, hNot, hAction, hLeg, hValue, hListed, hSchema, hColumns⟩
    rw [hx.marker, Except.ok.injEq, Prod.mk.injEq, Prod.mk.injEq] at hMarker
    obtain ⟨rfl, rfl, rfl⟩ := hMarker
    cases hAction.unique hx.declared
    obtain ⟨i, hLegAt⟩ := getElem?_of_mem hLeg
    obtain ⟨b, hb, hBatch⟩ :=
      Lists.exists_right_of_forall₂ hx.legs (mem_zipIdx_iff_getElem? (x := (_, i)) |>.mpr hLegAt)
    obtain ⟨_, _, hBatch⟩ := eval_bind_eq_ok.mp hBatch
    obtain ⟨c, rfl, rfl, hSelf, hc, rfl⟩ :=
      dispatchCascadeDelete_returns.of_ok hBatch
    have hSame : value = c.value := by
      have hLookup : x.selfRow.lookup whereSelfColumn = some value := hValue
      rw [hSelf] at hLookup
      exact (Option.some.inj hLookup).symm
    rw [hSame] at hListed
    have hRow : rowId ∈ c.rowIds := (hc.scan rowId).mpr hListed
    have hColumnsEq : c.columns = columns := (hc.schema (ne_nil_of_mem hRow)).unique hSchema
    obtain ⟨column, hColumn⟩ := exists_mem_of_ne_nil _ hColumns
    have hDelete := hc.mem_delete hRow (hColumnsEq ▸ hColumn)
    have hDeletes : DeletesCell x.batches.flatten c.table := by
      refine ⟨_, mem_flatten.mpr ⟨_, hb, hDelete⟩, ?_⟩
      exact ⟨rowId, column, parsedColumn?_columnKey c.table column (hc.inI64 rowId hRow)⟩
    obtain ⟨name, hMem, hAllowed⟩ := hHolds.delete allowed hGate hDeletes
    rw [hName, Option.mem_some_iff] at hMem
    exact hNot (hMem ▸ hAllowed)
  · intro hNone
    -- every operation belongs to the batch of a leg
    have hLegOf : ∀ op ∈ x.batches.flatten, ∃ leg ∈ x.action.legs.zipIdx, ∃ b, op ∈ b ∧
        (dispatchLeg entry x.name x.selfRow leg.1 (x.legKvs leg)).eval (plain codec db.reader) =
          .ok b := by
      intro op hOp
      obtain ⟨b, hb, hOp⟩ := mem_flatten.mp hOp
      obtain ⟨leg, hLeg, hEval⟩ := Lists.exists_left_of_forall₂ hx.legs hb
      exact ⟨leg, hLeg, b, hOp, hEval⟩
    constructor
    · rintro allowed hGate ⟨key, value, hMem, hColumn⟩
      obtain ⟨leg, _, b, hOp, hEval⟩ := hLegOf _ hMem
      have hKvs := fun kv hkv => (x.isColumnOf_legKvs leg kv hkv).2
      exact ⟨x.name, hName,
        (gate_of_dispatchLeg hKvs hEval).1 ⟨key, value, hOp, hColumn⟩ allowed hGate⟩
    · rintro allowed hGate ⟨key, hMem, hColumn⟩
      refine ⟨x.name, hName, ?_⟩
      obtain ⟨leg, hLeg, b, hOp, hEval⟩ := hLegOf _ hMem
      have hKvs := fun kv hkv => (x.isColumnOf_legKvs leg kv hkv).2
      rcases (gate_of_dispatchLeg hKvs hEval).2 ⟨key, hOp, hColumn⟩ with ⟨hKind, hTable⟩ | hPassed
      · by_contra hNot
        -- the cascade that deletes the cell has found a row
        obtain ⟨leg, i⟩ := leg
        cases leg with
        | cascadeDelete legTable whereColumn whereSelfColumn =>
          obtain ⟨_, _, hEval⟩ := eval_bind_eq_ok.mp hEval
          obtain ⟨c, rfl, rfl, hSelf, hc, rfl⟩ :=
            dispatchCascadeDelete_returns.of_ok hEval
          obtain ⟨rowId, hRow, column, hMem, _⟩ := hc.cell_op hOp hColumn
          have hSchema := hc.schema (ne_nil_of_mem hRow)
          obtain rfl : c.table = table := hTable
          have hLegMem : ActionLeg.cascadeDelete c.table c.whereColumn whereSelfColumn ∈
              x.action.legs := mem_of_getElem? (mem_zipIdx_iff_getElem?.mp hLeg)
          exact hNone ⟨allowed, x.primaryTable, x.name, x.kvs, x.action, c.whereColumn,
            whereSelfColumn, c.value, rowId, c.columns, hGate, hType, hx.marker, hNot, hx.declared,
            hLegMem, hSelf, (hc.scan rowId).mp hRow, hSchema, ne_nil_of_mem hMem⟩
        | insert _ | update _ _ | delete _ => cases hKind
      · exact hPassed allowed hGate

theorem not_ungatedCascade (h : entry.message.opType ≠ .action) :
    ¬ UngatedCascade codec db entry table := by
  rintro ⟨_, _, _, _, _, _, _, _, _, _, _, hType, _⟩
  exact h hType

/-- Application tables with a list of actions: an accepted entry of any type respects
the list, unless it is an action outside the list with a cascade on the table that
finds a row. -/
theorem gateHolds_iff
    (hStep : (dispatchExtractAndValidate n entry).eval (plain codec db.reader) = .ok batch)
    (hApp : Application table) :
    GateHolds codec db entry batch table ↔ ¬ UngatedCascade codec db entry table := by
  obtain ⟨_, hGating, hOp⟩ := eval_bind_eq_ok.mp hStep
  cases hType : entry.message.opType with
  | action =>
    rw [hType] at hOp
    obtain ⟨x, hx, rfl⟩ := actionOp_returns.of_ok hOp
    exact hx.gate_iff hType
  | insert =>
    rw [hType] at hOp
    obtain ⟨x, hx, rfl⟩ := insertOp_returns.of_ok hOp
    have hColumns := isColumnOf_of_parses hx.parses fun p hp => (hx.row p hp).1
    exact iff_of_true (gateHolds_of_direct hGating (by rw [hType]; rfl) hx.application hx.nonempty
      hColumns (.insert x hx) (fun _ => rfl) fun hDelete => absurd hDelete hx.not_deletesCell)
      (not_ungatedCascade (by simp [hType]))
  | update =>
    rw [hType] at hOp
    obtain ⟨x, hx, rfl⟩ := updateOp_returns.of_ok hOp
    have hColumns := isColumnOf_of_parses hx.parses hx.sameTable
    exact iff_of_true (gateHolds_of_direct hGating (by rw [hType]; rfl) hx.application hx.nonempty
      hColumns (.update x hx) (fun _ => rfl) fun hDelete => absurd hDelete hx.not_deletesCell)
      (not_ungatedCascade (by simp [hType]))
  | delete =>
    rw [hType] at hOp
    obtain ⟨x, hx, rfl⟩ := deleteOp_returns.of_ok hOp
    exact iff_of_true (gateHolds_of_direct hGating (by rw [hType]; rfl) hx.application hx.nonempty
      hx.sameTable (.delete x hx) (fun hPut => absurd hPut hx.not_putsCell) fun _ => rfl)
      (not_ungatedCascade (by simp [hType]))
  | _ =>
    have hSpares := spares_of_dispatch hStep hApp (by simp [hType]) (by simp [hType])
      (by simp [hType]) (by simp [hType])
    exact iff_of_true (gateHolds_of_spares hSpares) (not_ungatedCascade (by simp [hType]))

end Entries

/-! ## Samples -/

/-- A codec that knows one action body and one list of names. -/
def actionCodec (body : ActionBody) (names : List String) : RuleCodec where
  decodeRule _ := .error "no rules"
  decodeActionNames _ := .ok names
  decodeActionBody _ := .ok body

/-- Documents and notes on them; actions are for tables with assigned ids. -/
def docsAndNotes : Db :=
  (internalDb.createTable
    { name := "docs", columns := ["a"], indexed := [], autoIncrement := true }).createTable
    { name := "notes", columns := ["doc"], indexed := ["doc"], autoIncrement := true }

/-- Deletes of notes are for listed actions; `drop` deletes a document and its notes. -/
def gatedNotes : Db :=
  (docsAndNotes.insert (aclOnlyViaActionsKey "notes" "delete") []).insert
    (actionStorageKey "docs" "drop") [actionStorageVersion]

/-- The codec for `gatedNotes` with a list. -/
def dropCodec (allowed : List String) : RuleCodec :=
  actionCodec { asserts := [], legs := [.delete "docs", .cascadeDelete "notes" "doc" "id"] } allowed

def docInsert : ChangelogEntry :=
  sampleEntry .insert 1 1 1
    [ { key := columnKeyPlaceholder "docs" "a", value := i64ToValueBytes 7 } ]

def noteInsert (doc : Int) : ChangelogEntry :=
  sampleEntry .insert 1 1 1
    [ { key := columnKeyPlaceholder "notes" "doc", value := i64ToValueBytes doc } ]

def dropEntry (rowId : Int) : ChangelogEntry :=
  sampleEntry .action 1 1 1
    [ { key := actionMarkerKey "docs", value := utf8 "drop" },
      { key := columnKey "docs" rowId "a", value := i64ToValueBytes 7 } ]

theorem gatedNotes_allowed (allowed : List String) :
    gatedNotes.Static (dropCodec allowed) (.onlyViaActions "notes" "delete") (some allowed) := rfl

theorem dropEntry_marker :
    ∃ kvs, extractActionMarker (dropEntry 1) = .ok ("docs", "drop", kvs) := by
  obtain ⟨⟨table, name, kvs⟩, hMarker, rfl, rfl⟩ : ∃ r, extractActionMarker (dropEntry 1) = .ok r ∧
      r.1 = "docs" ∧ r.2.1 = "drop" := by
    decide +kernel
  exact ⟨kvs, hMarker⟩

/-- Listed, `drop` may delete the note on document `1`. -/
theorem listed_drop_gateHolds : ∃ db batch,
    Run (dropCodec ["drop"]) gatedNotes [sampleCreate, docInsert, noteInsert 1] db ∧
    (dispatchExtractAndValidate 4 (dropEntry 1)).eval (plain (dropCodec ["drop"]) db.reader) =
      .ok batch ∧
    .delete (columnKey "notes" 1 "doc") ∈ batch ∧
    GateHolds (dropCodec ["drop"]) db (dropEntry 1) batch "notes" := by
  obtain ⟨db, hRun, batch, hStep, hDelete⟩ :
      ∃ db, Run (dropCodec ["drop"]) gatedNotes [sampleCreate, docInsert, noteInsert 1] db ∧
        ∃ batch, Accepts (dropCodec ["drop"]) 4 db (dropEntry 1) batch ∧
          .delete (columnKey "notes" 1 "doc") ∈ batch :=
    exists_run (by decide +kernel)
  refine ⟨db, batch, hRun, hStep, hDelete, ?_⟩
  refine (gateHolds_iff hStep (by decide)).mpr ?_
  rintro ⟨allowed, primaryTable, name, kvs, action, whereColumn, whereSelfColumn, value, rowId,
    columns, hGate, _, hMarker, hNot, _⟩
  obtain ⟨kvs', hMarker'⟩ := dropEntry_marker
  rw [hMarker', Except.ok.injEq, Prod.mk.injEq, Prod.mk.injEq] at hMarker
  cases hGate.unique (hRun.static_iff.mpr (gatedNotes_allowed ["drop"]))
  exact hNot (hMarker.2.1 ▸ mem_singleton_self "drop")

/-- With only `purge` in the list, `drop` deletes the note all the same. -/
theorem unlisted_drop_deletes_note : ∃ db batch,
    Run (dropCodec ["purge"]) gatedNotes [sampleCreate, docInsert, noteInsert 1] db ∧
    (dispatchExtractAndValidate 4 (dropEntry 1)).eval (plain (dropCodec ["purge"]) db.reader) =
      .ok batch ∧
    db.Static (dropCodec ["purge"]) (.onlyViaActions "notes" "delete") (some ["purge"]) ∧
    (db[columnKey "notes" 1 "doc"]?).isSome ∧ .delete (columnKey "notes" 1 "doc") ∈ batch ∧
    actionName? (dropEntry 1) = some "drop" ∧
    ¬ GateHolds (dropCodec ["purge"]) db (dropEntry 1) batch "notes" := by
  obtain ⟨db, hRun, hStored, batch, hStep, hDelete⟩ :
      ∃ db, Run (dropCodec ["purge"]) gatedNotes [sampleCreate, docInsert, noteInsert 1] db ∧
        (db[columnKey "notes" 1 "doc"]?).isSome ∧
        ∃ batch, Accepts (dropCodec ["purge"]) 4 db (dropEntry 1) batch ∧
          .delete (columnKey "notes" 1 "doc") ∈ batch :=
    exists_run (by decide +kernel)
  have hGate := hRun.static_iff.mpr (gatedNotes_allowed ["purge"])
  obtain ⟨kvs, hMarker⟩ := dropEntry_marker
  have hName : actionName? (dropEntry 1) = some "drop" := actionName?_eq rfl hMarker
  refine ⟨db, batch, hRun, hStep, hGate, hStored, hDelete, hName, fun hHolds => ?_⟩
  have hNote : IsColumnOf "notes" (columnKey "notes" 1 "doc") :=
    ⟨1, "doc", parsedColumn?_columnKey "notes" "doc" (by decide)⟩
  obtain ⟨name, hMem, hAllowed⟩ := hHolds.delete ["purge"] hGate ⟨_, hDelete, hNote⟩
  rw [hName, Option.mem_some_iff] at hMem
  subst hMem
  exact absurd hAllowed (by decide)

end EncryptedSpaces.Ops
