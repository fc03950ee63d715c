import EncryptedSpaces.Lib.TreeMaps
import EncryptedSpaces.Ops.Reachable

/-!
# What a verifier reads, and what its batch leaves behind

The answers of a full tree to the reads of a verifier, and the tree after a
batch: a batch is a write log in which a delete writes nothing under its key,
and the last write of a key decides.
-/

namespace EncryptedSpaces.Ops

open Encoding Changelog Acl Lib Prog

/-! ## Writes -/

/-- A batch operation as a write; a delete leaves nothing under its key. -/
def BatchOp.write : BatchOp → Bytes × Option Bytes
  | .put key value => (key, some value)
  | .delete key => (key, none)

@[simp] theorem BatchOp.write_fst (op : BatchOp) : (BatchOp.write op).1 = op.key := by
  cases op <;> rfl

/-- What a batch leaves under a key, if it writes the key at all. -/
def written (batch : Batch) (key : Bytes) : Option (Option Bytes) :=
  WriteLog.lookup (batch.map BatchOp.write) key

section Written

variable {batch : Batch} {key : Bytes}

@[simp] theorem written_nil : written [] key = none := rfl

theorem written_append (batch batch' : Batch) (key : Bytes) :
    written (batch ++ batch') key = (written batch' key).or (written batch key) := by
  unfold written
  rw [List.map_append, WriteLog.lookup_append]

theorem written_cons (op : BatchOp) (batch : Batch) (key : Bytes) :
    written (op :: batch) key =
      (written batch key).or (if op.key = key then some (BatchOp.write op).2 else none) := by
  unfold written
  rw [List.map_cons, WriteLog.lookup_cons, BatchOp.write_fst]

theorem written_eq_none_iff : written batch key = none ↔ ∀ op ∈ batch, op.key ≠ key := by
  unfold written
  rw [WriteLog.lookup_eq_none_iff, List.forall_mem_map]
  simp only [BatchOp.write_fst]

/-- Sorting by key keeps the order of the writes of each key. -/
@[simp] theorem written_sortBatch : written (sortBatch batch) key = written batch key := by
  refine WriteLog.lookup_congr ?_
  have hFilter : ∀ b : Batch, (b.map BatchOp.write).filter (fun entry => decide (entry.1 = key)) =
      (b.filter fun op => decide (op.key = key)).map BatchOp.write := by
    intro b
    rw [List.filter_map]
    refine congrArg _ (List.filter_congr fun op _ => ?_)
    rw [Function.comp_apply, BatchOp.write_fst]
  rw [hFilter, hFilter, filter_sortBatch]

/-- The last write of a key decides; a key without one keeps its value. -/
theorem Db.getElem?_applyBatch (db : Db) (batch : Batch) (key : Bytes) :
    (db.applyBatch batch)[key]? = (written batch key).getD db[key]? := by
  induction batch generalizing db with
  | nil => rfl
  | cons op batch ih =>
    rw [Db.applyBatch_cons, ih, written_cons]
    cases hLater : written batch key with
    | some value => rfl
    | none =>
      cases op with
      | put key' value =>
        show (db.insert key' value)[key]? = _
        rw [TreeMaps.getElem?_insert_eq]
        by_cases hKey : key' = key <;> simp [BatchOp.key, BatchOp.write, hKey]
      | delete key' =>
        show (db.erase key')[key]? = _
        rw [TreeMaps.getElem?_erase_eq]
        by_cases hKey : key' = key <;> simp [BatchOp.key, BatchOp.write, hKey]

end Written

/-! ## Reads -/

/-- The answers that a full tree gives. -/
def FromDb (codec : RuleCodec) (db : Db) : (q : Query) → Answer q → Prop :=
  fun q a => plain codec db.reader q = .ok a

/-- What the verifier of an entry returns holds of an accepted batch. -/
@[elab_as_elim]
theorem holds_of_dispatch {codec : RuleCodec} {db : Db} {n : Nat} {entry : ChangelogEntry}
    {batch : Batch} {P : Batch → Prop}
    (h : (verifierOf n entry entry.message.opType).Returns (FromDb codec db) P)
    (hStep : Accepts codec n db entry batch) :
    P batch :=
  (returns_skip fun _ => h).of_ok hStep

/-- The counter of a table; an absent one stands at `1`. -/
def Db.nextId (db : Db) (table : String) : Int :=
  match db[schemaNextIdKey table]? with
  | none => 1
  | some bytes => i64FromBeBytes bytes

/-- The next list number; an absent counter stands at `1`. -/
def Db.nextListNumber (db : Db) : Int :=
  match db[schemaNextListNumberKey]? with
  | none => 1
  | some bytes => i64FromBeBytes bytes

section Reads

variable {codec : RuleCodec} {db : Db}

theorem readKey_fromDb {key : Bytes} :
    (readKey key).Returns (FromDb codec db) fun value => value = db[key]? := by
  refine returns_query.bind fun results hResults => returns_ret ?_
  have hRead : db.read (.key key) = results := Except.ok.inj hResults
  rw [← hRead]
  unfold Db.read
  cases hGet : db[key]? <;> simp [hGet]

theorem readNextId_fromDb {table opName : String} :
    (readNextId table opName).Returns (FromDb codec db) fun id =>
      id = db.nextId table ∧ InI64 id := by
  refine readKey_fromDb.bind fun value hValue => ?_
  unfold Db.nextId
  rw [← hValue]
  cases value with
  | none => exact returns_ret ⟨rfl, by decide⟩
  | some bytes =>
    refine returns_ensure.bind fun _ hLength => returns_ret ⟨rfl, ?_⟩
    exact inI64_i64FromBeBytes hLength.le

theorem readListNumberBase_fromDb {listCols : List String} :
    (readListNumberBase listCols).Returns (FromDb codec db) fun base =>
      listCols ≠ [] → base = db.nextListNumber ∧ InI64 base := by
  refine returns_ite (fun hNil => returns_ret fun h => absurd hNil h) fun _ => ?_
  refine readKey_fromDb.bind fun value hValue => ?_
  unfold Db.nextListNumber
  rw [← hValue]
  cases value with
  | none => exact returns_ret fun _ => ⟨rfl, by decide⟩
  | some bytes =>
    refine returns_ensure.bind fun _ hLength => returns_ret fun _ => ⟨rfl, ?_⟩
    exact inI64_i64FromBeBytes hLength.le

theorem nextIdAfter_eq_ok {table opName : String} {rowId next : Int} :
    nextIdAfter rowId table opName = .ok next ↔ next = rowId + 1 ∧ InI64 next := by
  unfold nextIdAfter
  rw [← checkedAdd_eq_some_iff]
  cases checkedAdd rowId 1 with
  | none => simp
  | some next' => simp

end Reads

/-! ## Internal schemas -/

section Internal

variable {codec : RuleCodec} {db : Db} {n : Nat} {schema : TableSchema}

theorem internalDb_columns : ∀ schema ∈ internalSchemas,
    (internalDb[schemaColumnsKey schema.name]?).bind decodeColumnNames =
      some (btreeSet schema.columns) := by
  decide +kernel

theorem internalDb_indexes : ∀ schema ∈ internalSchemas,
    (internalDb[schemaIndexesKey schema.name]?).map decodeColumnNames =
      if schema.indexed = [] then none else some (some (btreeSet schema.indexed)) := by
  decide +kernel

theorem treeKey_mem_internalSchemaKeys : ∀ schema ∈ internalSchemas,
    (StaticKey.schemaColumns schema.name).treeKey ∈ internalSchemaKeys ∧
      (StaticKey.schemaIndexes schema.name).treeKey ∈ internalSchemaKeys := by
  decide +kernel

theorem Reachable.schemaColumns_eq (h : Reachable codec n db) (hSchema : schema ∈ internalSchemas)
    {opName : String} {columns : List String}
    (hLoad : loadStatic codec db.reader opName (.schemaColumns schema.name) = .ok columns) :
    columns = btreeSet schema.columns := by
  have hTree := h.getElem?_treeKey (treeKey_mem_internalSchemaKeys schema hSchema).1
  have hColumns := internalDb_columns schema hSchema
  rw [loadStatic_reader, hTree] at hLoad
  obtain ⟨bytes, hBytes, hDecode⟩ := Option.bind_eq_some_iff.mp hColumns
  simp only [StaticKey.treeKey, hBytes, decodeStatic, decodeNames, hDecode,
    Except.ok.injEq] at hLoad
  exact hLoad.symm

theorem Reachable.readSchemaColumns_returns (h : Reachable codec n db)
    (hSchema : schema ∈ internalSchemas) {opName : String} :
    (readSchemaColumns schema.name opName).Returns (FromDb codec db) fun columns =>
      columns = btreeSet schema.columns :=
  returns_query.mono fun _ hAnswer => h.schemaColumns_eq hSchema hAnswer

/-- The `_retention` columns that a verifier sees are those of the built-in
schema. -/
theorem Reachable.retentionSchema (h : Reachable codec n db) {q : Query} {a : Answer q}
    (hAnswer : plain codec db.reader q = .ok a) :
    RetentionSchema q a := by
  unfold RetentionSchema
  split
  · intro hTable
    obtain ⟨schema, hSchema, hName, hColumns⟩ : ∃ schema ∈ internalSchemas,
        schema.name = retentionTable ∧ btreeSet schema.columns = ["key", "value"] := by decide
    obtain rfl := hTable.trans hName.symm
    exact (h.schemaColumns_eq hSchema hAnswer).trans hColumns
  · trivial

theorem Reachable.readSchemaIndexes_returns (h : Reachable codec n db)
    (hSchema : schema ∈ internalSchemas) :
    (readSchemaIndexes schema.name).Returns (FromDb codec db) fun columns =>
      columns = if schema.indexed = [] then [] else btreeSet schema.indexed := by
  refine returns_query.mono fun columns hAnswer => ?_
  change loadStatic codec db.reader "" (.schemaIndexes schema.name) = .ok _ at hAnswer
  have hTree := h.getElem?_treeKey (treeKey_mem_internalSchemaKeys schema hSchema).2
  have hIndexes := internalDb_indexes schema hSchema
  rw [loadStatic_reader, hTree] at hAnswer
  by_cases hNone : schema.indexed = []
  · rw [if_pos hNone, Option.map_eq_none_iff] at hIndexes
    simp only [StaticKey.treeKey, hIndexes, decodeStatic, decodeNames, Except.ok.injEq] at hAnswer
    rw [if_pos hNone, hAnswer]
  · rw [if_neg hNone, Option.map_eq_some_iff] at hIndexes
    obtain ⟨bytes, hBytes, hDecode⟩ := hIndexes
    simp only [StaticKey.treeKey, hBytes, decodeStatic, decodeNames, hDecode,
      Except.ok.injEq] at hAnswer
    rw [if_neg hNone, hAnswer]

end Internal

end EncryptedSpaces.Ops
