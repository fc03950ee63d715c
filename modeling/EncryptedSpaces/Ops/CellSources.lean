import EncryptedSpaces.Ops.FreshRows
import EncryptedSpaces.Ops.Gating

/-!
# Where the written cells come from

The cells that an entry without cascades writes or deletes are named by its own
keys, or belong to the row that an Insert takes from the counter.
-/

namespace EncryptedSpaces.Ops

open Encoding Changelog Acl Lib List

/-- The entry invokes an action with a cascade. -/
inductive HasCascade (codec : RuleCodec) (db : Db) (entry : ChangelogEntry) : Prop where
  | intro (primaryTable name : String) (kvs : List KvData) (action : Action) (leg : ActionLeg)
      (hType : entry.message.opType = .action)
      (hMarker : extractActionMarker entry = .ok (primaryTable, name, kvs))
      (hAction : db.Static codec (.action primaryTable name) (some action))
      (hLeg : leg ∈ action.legs) (hKind : leg.isCascade = true)

/-- A cell operation names a key of the kvs, or a cell of the next row. -/
def FromKvs (codec : RuleCodec) (db : Db) (table : String) (kvs : List KvData) (op : BatchOp)
    (rowId : Int) : Prop :=
  op.key ∈ kvs.map KvData.key ∨
    (db.Static codec (.autoIncrement table) true ∧ rowId = db.nextId table)

section Sources

variable {codec : RuleCodec} {db : Db} {entry : ChangelogEntry} {batch : Batch} {op : BatchOp}
  {table column : String} {rowId : Int}

theorem FromKvs.mono {kvs kvs' : List KvData} (h : FromKvs codec db table kvs op rowId)
    (hSub : ∀ kv ∈ kvs, kv ∈ kvs') : FromKvs codec db table kvs' op rowId := by
  refine h.imp_left fun hMem => ?_
  obtain ⟨kv, hkv, hKey⟩ := mem_map.mp hMem
  exact mem_map.mpr ⟨kv, hSub kv hkv, hKey⟩

theorem InsertParts.Accepted.fromKvs {x : InsertParts} (hx : x.Accepted codec db entry)
    (hOp : op ∈ x.batch) (hKey : parsedColumn? op.key = some (table, rowId, column)) :
    FromKvs codec db x.table entry.message.entries op rowId := by
  have hColumn : IsColumnOf table op.key := ⟨rowId, column, hKey⟩
  have hMem := hx.mem_columnPuts_of_isColumnOf hOp hColumn
  obtain ⟨p, hp, hPut⟩ := Lists.exists_left_of_forall₂ hx.columnPuts hMem
  have hCell := hPut.key_eq
  unfold InsertParts.keyOf at hCell
  split_ifs at hCell with hMode
  · rw [hCell, parsedColumn?_columnKey x.table p.column hx.inI64] at hKey
    cases hKey
    exact .inr ⟨hMode ▸ hx.mode, (hx.mem_nextIdPut hMode).1⟩
  · refine .inl (mem_map.mpr ⟨p.kv, (mem_columnEntries.mp hp).1, hCell.symm⟩)

/-- Steps other than cascades. -/
theorem RowStep.fromKvs {table' : String} {kvs : List KvData}
    (h : RowStep codec db entry table' false kvs batch) (hOp : op ∈ batch)
    (hKey : parsedColumn? op.key = some (table, rowId, column)) :
    Application table ∧ FromKvs codec db table kvs op rowId := by
  have hColumn : IsColumnOf table op.key := ⟨rowId, column, hKey⟩
  have hTable := h.table_of_cell_op hOp hColumn
  cases h with
  | insert x hx =>
    rw [← hTable]
    exact ⟨hx.application, hx.fromKvs hOp hKey⟩
  | update x hx =>
    rw [← hTable]
    refine ⟨hx.application, ?_⟩
    rcases mem_append.mp hOp with hMem | hMem
    · obtain ⟨p, hp, rfl⟩ := mem_map.mp hMem
      exact .inl (mem_map.mpr ⟨p.kv, (mem_columnEntries.mp hp).1, rfl⟩)
    · exact absurd hColumn ((indexesOf_updateIndexOps hx.indexOps).not_isColumnOf hMem)
  | delete x hx =>
    rw [← hTable]
    refine ⟨hx.application, ?_⟩
    rcases mem_append.mp hOp with hMem | hMem
    · obtain ⟨key, hNamed, rfl⟩ := mem_map.mp hMem
      exact .inl hNamed
    · exact absurd hColumn (hx.indexesOf.not_isColumnOf hMem)

/-- The cells of an entry without cascades: of an application table for Insert, Update,
Delete and Action; other entries write no application table. -/
theorem fromKvs_of_dispatch {n : Nat} (hStep : Accepts codec n db entry batch)
    (hCascade : ¬ HasCascade codec db entry) (hOp : op ∈ batch)
    (hKey : parsedColumn? op.key = some (table, rowId, column)) :
    (entry.message.opType ∈ [OpType.update, .delete, .action] → Application table) ∧
      (Application table → FromKvs codec db table entry.message.entries op rowId) := by
  have hStep' := hStep
  obtain ⟨_, _, hRun⟩ := Prog.eval_bind_eq_ok.mp hStep'
  have hSingle : ∀ {table' : String},
      RowStep codec db entry table' false entry.message.entries batch →
      (entry.message.opType ∈ [OpType.update, .delete, .action] → Application table) ∧
        (Application table → FromKvs codec db table entry.message.entries op rowId) := by
    intro table' hRow
    obtain ⟨hApp, hFrom⟩ := hRow.fromKvs hOp hKey
    exact ⟨fun _ => hApp, fun _ => hFrom⟩
  cases hType : entry.message.opType with
  | insert =>
    rw [hType] at hRun hSingle
    obtain ⟨x, hx, rfl⟩ := insertOp_returns.of_ok hRun
    exact hSingle (.insert x hx)
  | update =>
    rw [hType] at hRun hSingle
    obtain ⟨x, hx, rfl⟩ := updateOp_returns.of_ok hRun
    exact hSingle (.update x hx)
  | delete =>
    rw [hType] at hRun hSingle
    obtain ⟨x, hx, rfl⟩ := deleteOp_returns.of_ok hRun
    exact hSingle (.delete x hx)
  | action =>
    rw [hType] at hRun
    obtain ⟨x, hx, rfl⟩ := actionOp_returns.of_ok hRun
    obtain ⟨b, hb, hOp⟩ := mem_flatten.mp hOp
    obtain ⟨leg, hLeg, hEval⟩ := Lists.exists_left_of_forall₂ hx.legs hb
    have hMem := mem_of_getElem? (mem_zipIdx_iff_getElem?.mp hLeg)
    have hKvs := x.isColumnOf_legKvs leg
    have hRow := rowStep_of_dispatchLeg (fun kv hkv => (hKvs kv hkv).2) hEval
    have hKind : leg.1.isCascade = false := by
      by_contra hNot
      exact hCascade ⟨x.primaryTable, x.name, x.kvs, x.action, leg.1, hType, hx.marker, hx.declared,
        hMem, by simpa using hNot⟩
    rw [hKind] at hRow
    obtain ⟨hApp, hFrom⟩ := hRow.fromKvs hOp hKey
    obtain ⟨marker, hEntries⟩ := entries_of_extractActionMarker hx.marker
    refine ⟨fun _ => hApp, fun _ => hFrom.mono fun kv hkv => ?_⟩
    rw [hEntries]
    exact mem_cons_of_mem marker (hKvs kv hkv).1
  | _ =>
    refine ⟨fun hMem => ?_, fun hApp => ?_⟩
    · simp at hMem
    · have hSpares : Spares table batch := spares_of_dispatch hStep hApp (by simp [hType])
        (by simp [hType]) (by simp [hType]) (by simp [hType])
      have hNone := hSpares op.key (tableKey_of_parsedColumn? hKey)
      exact absurd rfl (written_eq_none_iff.mp hNone op hOp)

end Sources

end EncryptedSpaces.Ops
