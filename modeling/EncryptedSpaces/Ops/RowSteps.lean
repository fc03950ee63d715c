import EncryptedSpaces.Ops.KeySteps
import EncryptedSpaces.Ops.RowEffects

/-!
# Entries as steps on application tables

An accepted Insert, Update or Delete is one step on one table; an Action is one
step for each of its legs.  All steps of an entry read the database before it,
and their batches are applied one after the other; only the first step on a table
can be something else than a cascade.  Every other entry leaves the application
tables alone.
-/

namespace EncryptedSpaces.Ops

open Encoding Changelog Acl Lib Prog Lib.Except List

/-! ## Cascades -/

/-- The rows that a cascade deletes: those that the index of `whereColumn` lists
under the value. -/
structure CascadeParts where
  table : String
  whereColumn : String
  value : Int
  columns : List String
  indexed : List String
  rowIds : List Int
  rows : List Batch

/-- All cells of the row go, and its index entries. -/
def CascadeParts.RowDeletes (x : CascadeParts) (db : Db) (rowId : Int) (ops : Batch) : Prop :=
  ∃ deletes, IndexDeletesOf db x.table x.indexed "action.cascade_delete" rowId deletes ∧
    ops = x.columns.map (fun column => .delete (columnKey x.table rowId column)) ++ deletes

structure CascadeParts.Accepted (x : CascadeParts) (codec : RuleCodec) (db : Db) : Prop where
  scan : ∀ rowId, rowId ∈ x.rowIds ↔ IndexLists db x.table x.whereColumn x.value rowId
  schema : x.rowIds ≠ [] → db.Static codec (.schemaColumns x.table) x.columns
  indexes : x.rowIds ≠ [] → db.Static codec (.schemaIndexes x.table) x.indexed
  rows : List.Forall₂ (x.RowDeletes db) x.rowIds x.rows

theorem CascadeParts.Accepted.inI64 {x : CascadeParts} {codec : RuleCodec} {db : Db}
    (hx : x.Accepted codec db) : ∀ rowId ∈ x.rowIds, InI64 rowId := by
  intro rowId hRow
  obtain ⟨_, _, _, _, _, hParse⟩ := (hx.scan rowId).mp hRow
  exact inI64_of_parseIndex hParse

theorem dispatchCascadeDelete_returns {codec : RuleCodec} {db : Db}
    {actionName table whereColumn whereSelfColumn : String} {selfRow : SelfRow} :
    (dispatchCascadeDelete actionName table whereColumn whereSelfColumn selfRow).Returns
      (FromDb codec db) fun batch => ∃ x : CascadeParts, x.table = table ∧
        x.whereColumn = whereColumn ∧ selfRow.lookup whereSelfColumn = some x.value ∧
        x.Accepted codec db ∧ batch = x.rows.flatten := by
  refine returns_orFail.bind fun value hValue => ?_
  refine readIndexedRowIds_lists.bind fun rowIds hScan => ?_
  refine returns_ite (fun hNil => ?_) fun _ => ?_
  · refine returns_ret ⟨⟨table, whereColumn, value, [], [], rowIds, []⟩, rfl, rfl, hValue, ?_, rfl⟩
    refine ⟨hScan, fun h => absurd hNil h, fun h => absurd hNil h, ?_⟩
    rw [hNil]
    exact .nil
  · refine static_fromDb.bind fun columns hSchema => ?_
    refine static_fromDb.bind fun indexed hIndexed => ?_
    have hRow : ∀ rowId, (cascadeRow table "action.cascade_delete" columns indexed rowId).Returns
        (FromDb codec db) (CascadeParts.RowDeletes
          ⟨table, whereColumn, value, columns, indexed, rowIds, []⟩ db rowId) := by
      intro rowId
      refine rowIndexDeletes_fromDb.bind fun deletes hDeletes => ?_
      exact returns_ret ⟨deletes, hDeletes, rfl⟩
    refine (returns_collect_forall₂ fun rowId _ => hRow rowId).bind fun rows hRows => ?_
    refine returns_ret ⟨⟨table, whereColumn, value, columns, indexed, rowIds, rows⟩, rfl, rfl,
      hValue, ?_, rfl⟩
    exact ⟨hScan, fun _ => hSchema, fun _ => hIndexed, hRows⟩

/-! ## Steps -/

/-- One step on a table; the kvs are the part of the entry that it works on. -/
inductive RowStep (codec : RuleCodec) (db : Db) (entry : ChangelogEntry) :
    (table : String) → (cascade : Bool) → (kvs : List KvData) → Batch → Prop where
  | insert {kvs : List KvData} (x : InsertParts)
      (hx : x.Accepted codec db (subsetEntry entry kvs)) :
      RowStep codec db entry x.table false kvs x.batch
  | update {kvs : List KvData} (x : UpdateParts)
      (hx : x.Accepted codec db (subsetEntry entry kvs)) :
      RowStep codec db entry x.table false kvs (x.batch kvs)
  | delete {kvs : List KvData} (x : DeleteParts)
      (hx : x.Accepted codec db (subsetEntry entry kvs)) :
      RowStep codec db entry x.table false kvs (x.batch kvs)
  | cascade (x : CascadeParts) (hx : x.Accepted codec db) :
      RowStep codec db entry x.table true [] x.rows.flatten

@[simp] theorem subsetEntry_entries (entry : ChangelogEntry) (kvs : List KvData) :
    (subsetEntry entry kvs).message.entries = kvs := rfl

/-- A step as data. -/
structure StepOn where
  table : String
  cascade : Bool
  kvs : List KvData
  batch : Batch

def StepOn.Valid (codec : RuleCodec) (db : Db) (entry : ChangelogEntry) (step : StepOn) : Prop :=
  RowStep codec db entry step.table step.cascade step.kvs step.batch

/-- An entry as steps: each is accepted on the database before the entry, its kvs are
kvs of the entry, and only cascades repeat a table. -/
structure StepsOf (codec : RuleCodec) (db : Db) (entry : ChangelogEntry) (batch : Batch)
    (steps : List StepOn) : Prop where
  valid : ∀ step ∈ steps, step.Valid codec db entry
  kvs : ∀ step ∈ steps, ∀ kv ∈ step.kvs, kv ∈ entry.message.entries
  shape : steps.Pairwise fun a b => a.table = b.table → b.cascade = true
  batch : batch = (steps.map StepOn.batch).flatten

/-! ## Actions -/

/-- What the verifier of an Action computes. -/
structure ActionParts where
  primaryTable : String
  name : String
  kvs : List KvData
  action : Action
  batches : List Batch

/-- The kvs of the leg at a position. -/
def ActionParts.legKvs (x : ActionParts) (leg : ActionLeg × Nat) : List KvData :=
  Ops.legKvs x.action.legs x.kvs leg.2 leg.1

/-- The row that assertions and cascades see, from the kvs of the first leg. -/
def ActionParts.selfRow (x : ActionParts) : SelfRow :=
  selfRowFromLegKvs ((x.action.legs.zipIdx.head?.map x.legKvs).getD [])

structure ActionParts.Accepted (x : ActionParts) (codec : RuleCodec) (db : Db)
    (entry : ChangelogEntry) : Prop where
  marker : extractActionMarker entry = .ok (x.primaryTable, x.name, x.kvs)
  declared : db.Static codec (.action x.primaryTable x.name) (some x.action)
  shape : ∀ table ∈ legTables x.action.legs, validateLegShape x.name x.action.legs table = .ok ()
  asserts : (evaluateActionAsserts x.name x.action.asserts x.selfRow entry.uid).eval
    (plain codec db.reader) = .ok ()
  legs : List.Forall₂ (fun leg batch => (dispatchLeg entry x.name x.selfRow leg.1
    (x.legKvs leg)).eval (plain codec db.reader) = .ok batch) x.action.legs.zipIdx x.batches

section Actions

variable {codec : RuleCodec} {db : Db} {entry : ChangelogEntry}

/-- A program returns what its evaluation gives. -/
theorem returns_eval {α : Type} (p : OpM α) :
    p.Returns (FromDb codec db) fun a => p.eval (plain codec db.reader) = .ok a := by
  induction p with
  | ret a => rfl
  | fail e => trivial
  | ask q next ih =>
    intro a ha
    refine (ih a).mono fun b hb => ?_
    have hAnswer : plain codec db.reader q = .ok a := ha
    rw [Prog.eval, hAnswer]
    exact hb

theorem actionOp_returns : (actionOp entry).Returns (FromDb codec db) fun batch =>
    ∃ x : ActionParts, x.Accepted codec db entry ∧ batch = x.batches.flatten := by
  refine (returns_lift id).bind fun ⟨primaryTable, actionName, kvs⟩ hMarker => ?_
  refine returns_skip fun _ => ?_
  refine static_fromDb.bind fun declared hDeclared => ?_
  refine returns_orFail.bind fun action hAction => ?_
  subst hAction
  refine returns_skip fun _ => ?_
  have hShapes : (Prog.forEach (legTables action.legs) fun table =>
      pureStep (validateLegShape actionName action.legs table)).Returns (FromDb codec db) fun _ =>
        ∀ table ∈ legTables action.legs, validateLegShape actionName action.legs table = .ok () :=
    returns_forEach fun table _ => returns_lift id
  refine hShapes.bind fun _ hShape => ?_
  iterate 2 refine returns_skip fun _ => ?_
  refine (returns_eval _).bind fun _ hAsserts => ?_
  refine (returns_collect_forall₂ fun leg _ => returns_eval _).bind fun batches hLegs => ?_
  refine returns_ret ⟨⟨primaryTable, actionName, kvs, action, batches⟩, ?_, rfl⟩
  exact
    { marker := hMarker
      declared := hDeclared
      shape := hShape
      asserts := hAsserts
      legs := hLegs }

theorem entries_of_extractActionMarker {primaryTable name : String} {kvs : List KvData}
    (h : extractActionMarker entry = .ok (primaryTable, name, kvs)) :
    ∃ marker, entry.message.entries = marker :: kvs := by
  unfold extractActionMarker at h
  cases hEntries : entry.message.entries with
  | nil => simp [hEntries] at h
  | cons marker rest =>
    simp only [hEntries] at h
    obtain ⟨parsed, _, h⟩ := bind_eq_ok.mp h
    cases parsed with
    | actionMarker table =>
      cases hName : fromUtf8 marker.value with
      | none => simp [hName] at h
      | some name' =>
        simp only [hName] at h
        cases h
        exact ⟨marker, rfl⟩
    | schema | schemaColumns | schemaNextId | schemaIdMode | row | column | rowPrefix | aclRule
    | onlyViaActions | action | index => cases h

/-- The positions of a table's legs, in order. -/
theorem pairwise_legIndices (legs : List ActionLeg) (table : String) :
    (legIndices legs table).Pairwise (· < ·) := by
  unfold legIndices
  rw [pairwise_map]
  refine List.Pairwise.filter _ ?_
  rw [pairwise_iff_getElem]
  intro i j hi hj hij
  simpa using hij

theorem mem_legIndices {legs : List ActionLeg} {table : String} {i : Nat} :
    i ∈ legIndices legs table ↔ ∃ leg, legs[i]? = some leg ∧ leg.table = table := by
  constructor
  · intro hMem
    obtain ⟨⟨leg, j⟩, hLeg, rfl⟩ := mem_map.mp hMem
    obtain ⟨hLeg, hTable⟩ := mem_filter.mp hLeg
    exact ⟨leg, mem_zipIdx_iff_getElem?.mp hLeg, of_decide_eq_true hTable⟩
  · rintro ⟨leg, hLeg, hTable⟩
    refine mem_map.mpr ⟨(leg, i), mem_filter.mpr ⟨?_, decide_eq_true hTable⟩, rfl⟩
    exact mem_zipIdx_iff_getElem?.mpr hLeg

/-- Behind the first leg on a table there are only cascades. -/
theorem isCascade_of_validateLegShape {actionName table : String} {legs : List ActionLeg} {u : Unit}
    (h : validateLegShape actionName legs table = .ok u) {i j : Nat} (hij : i < j)
    (hi : i ∈ legIndices legs table) (hj : j ∈ legIndices legs table) {leg : ActionLeg}
    (hLeg : legs[j]? = some leg) : leg.isCascade = true := by
  have hSorted := pairwise_legIndices legs table
  unfold validateLegShape at h
  cases hIndices : legIndices legs table with
  | nil =>
    rw [hIndices] at hj
    cases hj
  | cons first rest =>
    rw [hIndices] at hi hj hSorted
    have hRest : j ∈ rest := by
      rcases mem_cons.mp hj with rfl | hj
      · rcases mem_cons.mp hi with rfl | hi
        · omega
        · have hLt := rel_of_pairwise_cons hSorted hi
          omega
      · exact hj
    cases rest with
    | nil => cases hRest
    | cons second rest =>
      simp only [hIndices] at h
      obtain ⟨_, _, h⟩ := bind_eq_ok.mp h
      obtain ⟨_, hCascades, _⟩ := bind_eq_ok.mp h
      obtain ⟨_, _, hCheck⟩ := exists_ok_of_mapM hCascades hRest
      have hLegCascade := check_eq_ok.mp hCheck
      rw [hLeg] at hLegCascade
      exact hLegCascade

theorem table_eq_of_isColumnOf {table table' : String} {key : Bytes} (h : IsColumnOf table key)
    (h' : IsColumnOf table' key) : table = table' := by
  obtain ⟨_, _, hKey⟩ := h
  obtain ⟨_, _, hKey'⟩ := h'
  exact (cell_unique hKey hKey').1

/-- Parsed kvs of one table are cells of the table. -/
theorem isColumnOf_of_parses {table : String} {kvs : List KvData}
    (hParses : (columnEntries kvs).map ParsedColumnEntry.kv = kvs)
    (hTable : ∀ p ∈ columnEntries kvs, p.table = table) : ∀ kv ∈ kvs, IsColumnOf table kv.key := by
  intro kv hkv
  rw [← hParses] at hkv
  obtain ⟨p, hp, rfl⟩ := mem_map.mp hkv
  exact ⟨p.rowId, p.column, hTable p hp ▸ (mem_columnEntries.mp hp).2⟩

/-- Every leg that is carried out is a step on its table. -/
theorem rowStep_of_dispatchLeg {actionName : String} {selfRow : SelfRow} {leg : ActionLeg}
    {kvs : List KvData} {batch : Batch} (hKvs : ∀ kv ∈ kvs, IsColumnOf leg.table kv.key)
    (h : (dispatchLeg entry actionName selfRow leg kvs).eval (plain codec db.reader) = .ok batch) :
    RowStep codec db entry leg.table leg.isCascade kvs batch := by
  -- the operation finds the table of the leg in the keys
  have hSame : ∀ {table : String}, kvs ≠ [] → (∀ kv ∈ kvs, IsColumnOf table kv.key) →
      table = leg.table := by
    intro table hNonempty hTable
    obtain ⟨kv, hkv⟩ := exists_mem_of_ne_nil _ hNonempty
    exact table_eq_of_isColumnOf (hTable kv hkv) (hKvs kv hkv)
  cases leg with
  | insert table =>
    obtain ⟨_, _, h⟩ := eval_bind_eq_ok.mp h
    obtain ⟨x, hx, rfl⟩ := insertOp_returns.of_ok h
    have hTable : x.table = table :=
      hSame hx.nonempty (isColumnOf_of_parses hx.parses fun p hp => (hx.row p hp).1)
    rw [← hTable]
    exact .insert x hx
  | update table cols =>
    iterate 2 obtain ⟨_, _, h⟩ := eval_bind_eq_ok.mp h
    obtain ⟨x, hx, rfl⟩ := updateOp_returns.of_ok h
    have hTable : x.table = table :=
      hSame hx.nonempty (isColumnOf_of_parses hx.parses hx.sameTable)
    rw [← hTable]
    exact .update x hx
  | delete table =>
    obtain ⟨_, _, h⟩ := eval_bind_eq_ok.mp h
    obtain ⟨x, hx, rfl⟩ := deleteOp_returns.of_ok h
    have hTable : x.table = table := hSame hx.nonempty hx.sameTable
    rw [← hTable]
    exact .delete x hx
  | cascadeDelete table whereColumn whereSelfColumn =>
    obtain ⟨_, hEmpty, h⟩ := eval_bind_eq_ok.mp h
    have hNil : kvs = [] := Prog.eval_ensure.mp hEmpty
    obtain ⟨x, hTable, _, _, hx, rfl⟩ := dispatchCascadeDelete_returns.of_ok h
    rw [hNil]
    rw [← hTable]
    exact .cascade x hx

/-- The steps of an action, leg by leg. -/
def ActionParts.steps (x : ActionParts) : List StepOn :=
  (x.action.legs.zipIdx.zip x.batches).map fun p =>
    { table := p.1.1.table, cascade := p.1.1.isCascade, kvs := x.legKvs p.1, batch := p.2 }

theorem ActionParts.isColumnOf_legKvs (x : ActionParts) (leg : ActionLeg × Nat) :
    ∀ kv ∈ x.legKvs leg, kv ∈ x.kvs ∧ IsColumnOf leg.1.table kv.key := by
  intro kv hkv
  unfold ActionParts.legKvs Ops.legKvs at hkv
  split at hkv
  · exact mem_tableKvs.mp hkv
  · cases hkv

theorem ActionParts.Accepted.stepsOf {x : ActionParts} (h : x.Accepted codec db entry) :
    StepsOf codec db entry x.batches.flatten x.steps := by
  have hLength : x.action.legs.zipIdx.length = x.batches.length := h.legs.length_eq
  refine ⟨fun step hStep => ?_, fun step hStep kv hkv => ?_, ?_, ?_⟩
  · obtain ⟨⟨leg, batch⟩, hMem, rfl⟩ := mem_map.mp hStep
    exact rowStep_of_dispatchLeg (fun kv hkv => (x.isColumnOf_legKvs leg kv hkv).2)
      ((forall₂_iff_zip.mp h.legs).2 hMem)
  · obtain ⟨⟨leg, batch⟩, _, rfl⟩ := mem_map.mp hStep
    obtain ⟨marker, hEntries⟩ := entries_of_extractActionMarker h.marker
    rw [hEntries]
    exact mem_cons_of_mem marker (x.isColumnOf_legKvs leg kv hkv).1
  · have hLegs : x.action.legs.zipIdx.Pairwise fun a b =>
        a.1.table = b.1.table → b.1.isCascade = true := by
      rw [pairwise_iff_getElem]
      intro i j hi hj hij hTable
      simp only [getElem_zipIdx] at hTable ⊢
      have hi' : i < x.action.legs.length := by simpa using hi
      have hj' : j < x.action.legs.length := by simpa using hj
      have hShape := h.shape x.action.legs[j].table
        (mem_btreeSet.mpr (mem_map_of_mem (getElem_mem hj')))
      refine isCascade_of_validateLegShape hShape hij (mem_legIndices.mpr ?_)
        (mem_legIndices.mpr ?_) (getElem?_eq_getElem hj')
      · exact ⟨x.action.legs[i], getElem?_eq_getElem hi', hTable⟩
      · exact ⟨x.action.legs[j], getElem?_eq_getElem hj', rfl⟩
    unfold ActionParts.steps
    rw [pairwise_map]
    have hFst : (x.action.legs.zipIdx.zip x.batches).map Prod.fst = x.action.legs.zipIdx :=
      map_fst_zip hLength.le
    rw [← hFst, pairwise_map] at hLegs
    exact hLegs
  · unfold ActionParts.steps
    rw [map_map]
    have hSnd : (x.action.legs.zipIdx.zip x.batches).map Prod.snd = x.batches :=
      map_snd_zip hLength.ge
    exact congrArg flatten hSnd.symm

end Actions

/-! ## Dispatch -/

section Dispatch

variable {codec : RuleCodec} {db : Db} {n : Nat} {entry : ChangelogEntry} {batch : Batch}

theorem ne_of_application {table internal : String} (h : Application table)
    (hInternal : ¬ Application internal) : table ≠ internal := by
  rintro rfl
  exact hInternal h

/-- The other entries leave application tables alone. -/
theorem spares_of_dispatch {table : String} (hStep : Accepts codec n db entry batch)
    (hApp : Application table) (hInsert : entry.message.opType ≠ .insert)
    (hUpdate : entry.message.opType ≠ .update) (hDelete : entry.message.opType ≠ .delete)
    (hAction : entry.message.opType ≠ .action) : Spares table batch := by
  refine (touches_of_dispatch hStep).spares (fun hTable => ?_) (ne_of_application hApp (by decide))
  have hUsers : table ≠ usersTable := ne_of_application hApp (by decide)
  have hHistory : table ≠ keyHistoryTable := ne_of_application hApp (by decide)
  have hRetention : table ≠ retentionTable := ne_of_application hApp (by decide)
  have hLists : table ≠ listsTable := ne_of_application hApp (by decide)
  cases hType : entry.message.opType with
  | insert => exact hInsert hType
  | update => exact hUpdate hType
  | delete => exact hDelete hType
  | action => exact hAction hType
  | _ => simp [tablesOf, hType, hUsers, hHistory, hRetention, hLists] at hTable

/-- Accepted entries are steps on application tables, or leave them alone. -/
theorem stepsOf_of_dispatch (hStep : Accepts codec n db entry batch) :
    (∃ steps, StepsOf codec db entry batch steps) ∨
      ∀ table, Application table → Spares table batch := by
  have hStep' := hStep
  obtain ⟨_, _, hOp⟩ := eval_bind_eq_ok.mp hStep'
  have hSingle : ∀ step : StepOn, step.Valid codec db entry → step.kvs = entry.message.entries →
      step.batch = batch → StepsOf codec db entry batch [step] := by
    intro step hValid hKvs hBatch
    refine ⟨?_, ?_, pairwise_singleton _ _, ?_⟩
    · intro s hs
      rw [mem_singleton.mp hs]
      exact hValid
    · intro s hs kv hkv
      rw [mem_singleton.mp hs, hKvs] at hkv
      exact hkv
    · simp [hBatch]
  cases hType : entry.message.opType with
  | insert =>
    rw [hType] at hOp
    obtain ⟨x, hx, rfl⟩ := insertOp_returns.of_ok hOp
    exact .inl ⟨_, hSingle ⟨x.table, false, entry.message.entries, x.batch⟩ (.insert x hx) rfl rfl⟩
  | update =>
    rw [hType] at hOp
    obtain ⟨x, hx, rfl⟩ := updateOp_returns.of_ok hOp
    exact .inl ⟨_, hSingle ⟨x.table, false, entry.message.entries, _⟩ (.update x hx) rfl rfl⟩
  | delete =>
    rw [hType] at hOp
    obtain ⟨x, hx, rfl⟩ := deleteOp_returns.of_ok hOp
    exact .inl ⟨_, hSingle ⟨x.table, false, entry.message.entries, _⟩ (.delete x hx) rfl rfl⟩
  | action =>
    rw [hType] at hOp
    obtain ⟨x, hx, rfl⟩ := actionOp_returns.of_ok hOp
    exact .inl ⟨x.steps, hx.stepsOf⟩
  | _ =>
    refine .inr fun table hApp => ?_
    exact spares_of_dispatch hStep hApp (by simp [hType]) (by simp [hType]) (by simp [hType])
      (by simp [hType])

end Dispatch

end EncryptedSpaces.Ops
