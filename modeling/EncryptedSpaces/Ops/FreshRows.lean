import EncryptedSpaces.Ops.DenseRows

/-!
# Inserted rows are new

An Insert takes the id of its row from the counter of the table, or from the keys
of the entry.  Ids from the counter are new in every run: stored rows and assigned
ids stay below it.  For ids from the entry the verifier looks for one cell only,
under the key that the entry gives; that is enough if all keys of the table are
canonical, and not in general.
-/

namespace EncryptedSpaces.Ops

open Encoding Changelog Acl Lib Lib.Except List

/-! ## The rows that an entry inserts -/

/-- The kvs that Insert works on: those of an Insert entry, or of the insert legs of
an Action. -/
def insertKvs (codec : RuleCodec) (db : Db) (entry : ChangelogEntry) : List (List KvData) :=
  match entry.message.opType with
  | .insert => [entry.message.entries]
  | .action =>
    match extractActionMarker entry with
    | .error _ => []
    | .ok (primaryTable, name, kvs) =>
      match decodeStatic codec "" (.action primaryTable name)
          db[(StaticKey.action primaryTable name).treeKey]? with
      | .ok (some action) => action.legs.zipIdx.filterMap fun leg =>
        match leg.1 with
        | .insert _ => some (legKvs action.legs kvs leg.2 leg.1)
        | _ => none
      | _ => []
  | _ => []

/-- The row that Insert creates: with the next id, or with the id of its keys. -/
def insertedRow (codec : RuleCodec) (db : Db) (kvs : List KvData) : Option (String × Int) := do
  let kv ← kvs.head?
  let (table, signedId, _) ← parsedColumn? kv.key
  match decodeStatic codec "" (.autoIncrement table)
      db[(StaticKey.autoIncrement table).treeKey]? with
  | .ok true => some (table, db.nextId table)
  | .ok false => some (table, signedId)
  | .error _ => none

def insertedRows (codec : RuleCodec) (db : Db) (entry : ChangelogEntry) : List (String × Int) :=
  (insertKvs codec db entry).filterMap (insertedRow codec db)

/-- The run has assigned the id from the counter of the table. -/
def Assigned (codec : RuleCodec) (start : Db) (entries : List ChangelogEntry) (table : String)
    (rowId : Int) : Prop :=
  ∃ before entry after db, entries = before ++ entry :: after ∧ Run codec start before db ∧
    db.Static codec (.autoIncrement table) true ∧ (table, rowId) ∈ insertedRows codec db entry

/-! ## Invariants -/

/-- Every stored row of the table has an id below the counter. -/
def RowsBelow (db : Db) (table : String) : Prop :=
  ∀ key value, db[key]? = some value → ∀ rowId column,
    parsedColumn? key = some (table, rowId, column) → rowId < db.nextId table

/-- Seeded rows of application tables lie below the counter if ids come from there,
and are complete otherwise. -/
structure WellSeeded (codec : RuleCodec) (db : Db) : Prop where
  below : ∀ table, Application table → db.Static codec (.autoIncrement table) true →
    RowsBelow db table
  dense : ∀ table, Application table → db.Static codec (.autoIncrement table) false →
    ∀ columns, db.Static codec (.schemaColumns table) columns → Dense db table columns

section Counter

variable {codec : RuleCodec} {db : Db} {entry : ChangelogEntry} {batch : Batch} {table : String}

theorem nextId_congr {db db' : Db} (h : db'[schemaNextIdKey table]? = db[schemaNextIdKey table]?) :
    db'.nextId table = db.nextId table := by
  unfold Db.nextId
  rw [h]

theorem RowsBelow.of_same {db db' : Db} (h : RowsBelow db table) (hSame : SameTable table db db') :
    RowsBelow db' table := by
  intro key value hValue rowId column hKey
  rw [nextId_congr (hSame _ (tableKey_nextIdKey table))]
  rw [hSame key (tableKey_of_parsedColumn? hKey)] at hValue
  exact h key value hValue rowId column hKey

/-- A step writes the counter only to count one row. -/
theorem RowStep.counter_op {table' : String} {cascade : Bool} {kvs : List KvData}
    (h : RowStep codec db entry table' cascade kvs batch) (hLists : table ≠ listsTable)
    {op : BatchOp} (hOp : op ∈ batch) (hKey : op.key = schemaNextIdKey table) :
    cascade = false ∧ InI64 (db.nextId table + 1) ∧
      op = nextIdPut table (db.nextId table + 1) := by
  have hFront : HasFront op.key tagSchema table := hKey ▸ hasFront_encodeTuple tagSchema table _
  rcases h.op_cases op hOp with hRow | hIndex | hList | ⟨hKind, hIn, hPut⟩
  · exact absurd (hFront.unique hRow).1 (by decide)
  · exact absurd (hFront.unique hIndex).1 (by decide)
  · exact absurd (hFront.unique hList.hasFront).2 hLists
  · have hTable : table' = table := by
      rw [hPut] at hKey
      exact (schemaSubkey_inj hKey).1
    rw [← hTable]
    exact ⟨hKind, hIn, hPut⟩

theorem nextId_of_put {n : Int} (hIn : InI64 n) (hMem : nextIdPut table n ∈ batch)
    (hOnly : ∀ op ∈ batch, op.key = schemaNextIdKey table → op = nextIdPut table n) :
    (db.applyBatch batch).nextId table = n := by
  unfold Db.nextId
  rw [Db.getElem?_applyBatch_put hMem hOnly]
  exact i64FromBeBytes_i64ToBeBytes hIn

theorem nextId_of_spared (h : ∀ op ∈ batch, op.key ≠ schemaNextIdKey table) :
    (db.applyBatch batch).nextId table = db.nextId table :=
  nextId_congr (Db.getElem?_applyBatch_of_ne h)

/-- Writing the counter only to count one row, a batch leaves it or moves it by one. -/
theorem nextId_of_counter_ops
    (h : ∀ op ∈ batch, op.key = schemaNextIdKey table →
      InI64 (db.nextId table + 1) ∧ op = nextIdPut table (db.nextId table + 1)) :
    (db.applyBatch batch).nextId table = db.nextId table ∨
      (db.applyBatch batch).nextId table = db.nextId table + 1 := by
  by_cases hWritten : ∃ op ∈ batch, op.key = schemaNextIdKey table
  · obtain ⟨op, hOp, hKey⟩ := hWritten
    obtain ⟨hIn, rfl⟩ := h op hOp hKey
    exact .inr (nextId_of_put hIn hOp fun op' hOp' hKey' => (h op' hOp' hKey').2)
  · push Not at hWritten
    exact .inl (nextId_of_spared hWritten)

theorem InsertParts.Accepted.mem_nextIdPut {x : InsertParts} (hx : x.Accepted codec db entry)
    (hMode : x.autoIncrement = true) :
    x.rowId = db.nextId x.table ∧ InI64 (db.nextId x.table + 1) ∧
      nextIdPut x.table (db.nextId x.table + 1) ∈ x.batch := by
  obtain ⟨hRow, _, hIn, hPut⟩ := hx.assigned hMode
  rw [hRow] at hIn hPut
  refine ⟨hRow, hIn, ?_⟩
  unfold InsertParts.batch
  simp [hPut]

/-- Ids come from the counter: a step on the table keeps its rows below. -/
theorem RowStep.rowsBelow {kvs : List KvData} (h : RowStep codec db entry table false kvs batch)
    (hLists : table ≠ listsTable) (hMode : db.Static codec (.autoIncrement table) true)
    (hBelow : RowsBelow db table) : RowsBelow (db.applyBatch batch) table := by
  have hCounter := nextId_of_counter_ops fun op hOp hKey => (h.counter_op hLists hOp hKey).2
  have hGrows : db.nextId table ≤ (db.applyBatch batch).nextId table := by omega
  intro key value hValue rowId column hKey
  rw [Db.getElem?_applyBatch] at hValue
  cases h with
  | insert x hx =>
    have hAuto : x.autoIncrement = true := hx.mode.unique hMode
    obtain ⟨hRow, hIn, hPut⟩ := hx.mem_nextIdPut hAuto
    have hStep : RowStep codec db entry x.table false kvs x.batch := .insert x hx
    have hNext : (db.applyBatch x.batch).nextId x.table = db.nextId x.table + 1 :=
      nextId_of_put hIn hPut fun op hOp hOpKey => (hStep.counter_op hLists hOp hOpKey).2.2
    by_cases hOwn : ∃ c ∈ x.columns, key = columnKey x.table x.rowId c
    · obtain ⟨c, _, rfl⟩ := hOwn
      rw [parsedColumn?_columnKey x.table c hx.inI64] at hKey
      cases hKey
      omega
    · push Not at hOwn
      rw [hx.written_other (.inl hAuto) hKey hOwn] at hValue
      have hOld := hBelow key value hValue rowId column hKey
      omega
  | update x hx =>
    by_cases hOwn : ∃ kv ∈ kvs, kv.key = key
    · obtain ⟨kv, hkv, rfl⟩ := hOwn
      obtain ⟨key₀, value₀, column₀, hValue₀, hKey₀⟩ := hx.exists_cell
        (p := ⟨kv, x.table, rowId, column⟩) (mem_columnEntries.mpr ⟨hkv, hKey⟩)
      have hOld := hBelow key₀ value₀ hValue₀ rowId column₀ hKey₀
      omega
    · push Not at hOwn
      rw [show written (x.batch kvs) key = none from hx.written_other hKey hOwn] at hValue
      have hOld := hBelow key value hValue rowId column hKey
      omega
  | delete x hx =>
    rw [show written (x.batch kvs) key = _ from hx.written_batch hKey] at hValue
    split at hValue
    · cases hValue
    · have hOld := hBelow key value hValue rowId column hKey
      omega

theorem CascadeParts.Accepted.rowsBelow {x : CascadeParts} (hx : x.Accepted codec db) {s : Db}
    (hCounter : ∀ op ∈ x.rows.flatten, op.key ≠ schemaNextIdKey x.table)
    (hBelow : RowsBelow s x.table) : RowsBelow (s.applyBatch x.rows.flatten) x.table := by
  intro key value hValue rowId column hKey
  rw [Db.getElem?_applyBatch, hx.written_rows hKey] at hValue
  rw [nextId_of_spared hCounter]
  split at hValue
  · cases hValue
  · exact hBelow key value hValue rowId column hKey

/-- Accepted entries keep the rows of a table below its counter. -/
theorem RowsBelow.applyBatch {n : Nat} (hStep : Accepts codec n db entry batch)
    (hApp : Application table) (hMode : db.Static codec (.autoIncrement table) true)
    (h : RowsBelow db table) : RowsBelow (db.applyBatch batch) table := by
  have hLists : table ≠ listsTable := ne_of_application hApp (by decide)
  rcases stepsOf_of_dispatch hStep with ⟨steps, hSteps⟩ | hSpares
  · refine StepsOf.invariant (P := fun s => RowsBelow s table) hSteps hLists
      (fun s s' hSame hs => hs.of_same hSame) (fun kvs b hValid _ => ?_)
        (fun kvs b hValid s hs => ?_) h
    · exact hValid.rowsBelow hLists hMode h
    · have hCounter : ∀ op ∈ b, op.key ≠ schemaNextIdKey table := by
        intro op hOp hKey
        cases (hValid.counter_op hLists hOp hKey).1
      cases hValid with
      | cascade x hx => exact hx.rowsBelow hCounter hs
  · exact h.of_same ((hSpares table hApp).sameTable db)

theorem StepsOf.counter_op {steps : List StepOn} (h : StepsOf codec db entry batch steps)
    (hLists : table ≠ listsTable) : ∀ op ∈ batch, op.key = schemaNextIdKey table →
      InI64 (db.nextId table + 1) ∧ op = nextIdPut table (db.nextId table + 1) := by
  intro op hOp hKey
  rw [h.batch] at hOp
  obtain ⟨b, hb, hOp⟩ := mem_flatten.mp hOp
  obtain ⟨step, hMem, rfl⟩ := mem_map.mp hb
  exact ((h.valid step hMem).counter_op hLists hOp hKey).2

/-- The counter of an application table never falls. -/
theorem nextId_le_of_dispatch {n : Nat} (hStep : Accepts codec n db entry batch)
    (hApp : Application table) : db.nextId table ≤ (db.applyBatch batch).nextId table := by
  have hLists : table ≠ listsTable := ne_of_application hApp (by decide)
  rcases stepsOf_of_dispatch hStep with ⟨steps, hSteps⟩ | hSpares
  · have hCounter := nextId_of_counter_ops (hSteps.counter_op hLists)
    omega
  · exact (nextId_congr ((hSpares table hApp).sameTable db _ (tableKey_nextIdKey table))).ge

end Counter

/-! ## Inserts of accepted entries -/

section Inserts

variable {codec : RuleCodec} {db : Db} {entry : ChangelogEntry} {batch : Batch} {n : Nat}
  {table : String} {rowId : Int}

/-- The row of an accepted Insert. -/
theorem InsertParts.Accepted.insertedRow_eq {x : InsertParts} (hx : x.Accepted codec db entry) :
    insertedRow codec db entry.message.entries = some (x.table, x.rowId) := by
  obtain ⟨kv, rest, hKvs⟩ := exists_cons_of_ne_nil hx.nonempty
  obtain ⟨p, _, hp, rfl, _⟩ := map_eq_cons_iff.mp (hx.parses.trans hKvs)
  have hCell := hx.parsedColumn?_eq (hp ▸ mem_cons_self)
  have hMode : decodeStatic codec "" (.autoIncrement x.table)
      db[(StaticKey.autoIncrement x.table).treeKey]? = .ok x.autoIncrement := hx.mode
  unfold insertedRow
  rw [hKvs]
  simp only [head?_cons, Option.bind_eq_bind, Option.bind_some, hCell, hMode]
  cases hAuto : x.autoIncrement with
  | true => rw [(hx.assigned hAuto).1]
  | false => rw [(hx.explicit hAuto).1]

/-- Every inserted row of an accepted entry comes from an accepted Insert on a part
of the entry, whose batch is part of the whole batch. -/
theorem exists_insert_of_mem (hStep : Accepts codec n db entry batch)
    (hRow : (table, rowId) ∈ insertedRows codec db entry) :
    ∃ kvs, ∃ x : InsertParts, x.Accepted codec db (subsetEntry entry kvs) ∧ x.table = table ∧
      x.rowId = rowId ∧ (∀ kv ∈ kvs, kv ∈ entry.message.entries) ∧ ∀ op ∈ x.batch, op ∈ batch := by
  obtain ⟨_, _, hOp⟩ := Prog.eval_bind_eq_ok.mp hStep
  obtain ⟨kvs, hKvs, hRow⟩ := mem_filterMap.mp hRow
  -- an Insert that is accepted on these kvs is the one
  have hOne : ∀ x : InsertParts, x.Accepted codec db (subsetEntry entry kvs) →
      x.table = table ∧ x.rowId = rowId := by
    intro x hx
    have hEq := hx.insertedRow_eq
    rw [subsetEntry_entries, hRow, Option.some.injEq, Prod.mk.injEq] at hEq
    exact ⟨hEq.1.symm, hEq.2.symm⟩
  unfold insertKvs at hKvs
  cases hType : entry.message.opType with
  | insert =>
    rw [hType] at hOp hKvs
    obtain rfl := mem_singleton.mp hKvs
    obtain ⟨x, hx, rfl⟩ := insertOp_returns.of_ok hOp
    exact ⟨_, x, hx, (hOne x hx).1, (hOne x hx).2, fun _ h => h, fun _ h => h⟩
  | action =>
    rw [hType] at hOp hKvs
    obtain ⟨a, ha, rfl⟩ := actionOp_returns.of_ok hOp
    have hDeclared : decodeStatic codec "" (.action a.primaryTable a.name)
        db[(StaticKey.action a.primaryTable a.name).treeKey]? = .ok (some a.action) := ha.declared
    simp only [ha.marker, hDeclared] at hKvs
    obtain ⟨⟨leg, i⟩, hLeg, hKvs⟩ := mem_filterMap.mp hKvs
    obtain ⟨b, hb, hBatch⟩ := Lists.exists_right_of_forall₂ ha.legs hLeg
    cases leg with
    | insert legTable =>
      obtain rfl : a.legKvs (.insert legTable, i) = kvs := Option.some.inj hKvs
      obtain ⟨_, _, hBatch⟩ := Prog.eval_bind_eq_ok.mp hBatch
      obtain ⟨x, hx, rfl⟩ := insertOp_returns.of_ok hBatch
      obtain ⟨marker, hEntries⟩ := entries_of_extractActionMarker ha.marker
      refine ⟨_, x, hx, (hOne x hx).1, (hOne x hx).2, fun kv hkv => ?_, fun op hOp => ?_⟩
      · rw [hEntries]
        exact mem_cons_of_mem marker (a.isColumnOf_legKvs _ kv hkv).1
      · exact mem_flatten.mpr ⟨_, hb, hOp⟩
    | update _ _ | delete _ | cascadeDelete _ _ _ => cases hKvs
  | _ =>
    rw [hType] at hKvs
    cases hKvs

/-- An id from the counter is counted. -/
theorem lt_nextId_of_inserted (hStep : Accepts codec n db entry batch)
    (hMode : db.Static codec (.autoIncrement table) true)
    (hRow : (table, rowId) ∈ insertedRows codec db entry) :
    rowId = db.nextId table ∧ rowId < (db.applyBatch batch).nextId table := by
  obtain ⟨kvs, x, hx, rfl, rfl, _, hBatch⟩ := exists_insert_of_mem hStep hRow
  have hLists : x.table ≠ listsTable := ne_of_application hx.application (by decide)
  obtain ⟨hId, hIn, hPut⟩ := hx.mem_nextIdPut (hx.mode.unique hMode)
  refine ⟨hId, ?_⟩
  rcases stepsOf_of_dispatch hStep with ⟨steps, hSteps⟩ | hSpares
  · have hNext : (db.applyBatch batch).nextId x.table = db.nextId x.table + 1 :=
      nextId_of_put hIn (hBatch _ hPut) fun op hOp hKey => (hSteps.counter_op hLists op hOp hKey).2
    omega
  · have hNone := hSpares x.table hx.application _ (tableKey_nextIdKey x.table)
    exact absurd rfl (written_eq_none_iff.mp hNone _ (hBatch _ hPut))

/-- A row of a dense table whose first given key is absent is new. -/
theorem InsertParts.Accepted.noRow {x : InsertParts} (hx : x.Accepted codec db entry)
    (hMode : x.autoIncrement = false) (hKeys : CanonicalKeys entry.message.entries)
    (hDense : Dense db x.table x.columns) : NoRow db x.table x.rowId := by
  obtain ⟨hSigned, _, p, hp, hAbsent⟩ := hx.explicit hMode
  have hKey : p.kv.key = columnKey x.table x.rowId p.column :=
    hSigned ▸ hKeys p.kv (mem_columnEntries.mp hp).1 _ (hx.parsedColumn?_eq hp)
  have hColumn : p.column ∈ x.columns := (hx.complete p.column).mpr ⟨p, hp, rfl⟩
  rcases hDense x.rowId with hExact | hNone
  · have hStored := hExact.complete p.column hColumn
    rw [← hKey, hAbsent] at hStored
    cases hStored
  · exact hNone

end Inserts

/-! ## Runs -/

section Run

variable {codec : RuleCodec} {start db : Db} {entries : List ChangelogEntry}

theorem Run.rowsBelow (hRun : Run codec start entries db) {table : String}
    (hStart : start.Static codec (.autoIncrement table) true → RowsBelow start table)
    (hApp : Application table) (hMode : db.Static codec (.autoIncrement table) true) :
    RowsBelow db table := by
  induction hRun with
  | nil => exact hStart hMode
  | snoc _ hStep ih =>
    have hMode' := (Db.Static.applyBatch_iff hStep).mp hMode
    exact (ih hMode').applyBatch hStep hApp hMode'

theorem Run.dense (hRun : Run codec start entries db) (hStart : WellSeeded codec start)
    {table : String} {columns : List String} (hApp : Application table)
    (hMode : db.Static codec (.autoIncrement table) false)
    (hSchema : db.Static codec (.schemaColumns table) columns)
    (hKeys : ∀ entry ∈ entries, CanonicalKeys (tableKvs entry.message.entries table)) :
    Dense db table columns := by
  induction hRun with
  | nil => exact hStart.dense table hApp hMode columns hSchema
  | @snoc before db entry batch _ hStep ih =>
    have hMode' := (Db.Static.applyBatch_iff hStep).mp hMode
    have hSchema' := (Db.Static.applyBatch_iff hStep).mp hSchema
    have hDense := ih hMode' hSchema' fun entry' h' => hKeys entry' (mem_append_left _ h')
    exact hDense.applyBatch hStep hApp hSchema' (hKeys entry (by simp))

/-- The counter exceeds every id that it has assigned. -/
theorem Run.assigned_lt (hRun : Run codec start entries db) {table : String} {rowId : Int}
    (h : Assigned codec start entries table rowId) : rowId < db.nextId table := by
  induction hRun with
  | nil =>
    obtain ⟨before, entry, after, _, hSplit, _⟩ := h
    cases before <;> cases hSplit
  | @snoc entries db last batch hRun hStep ih =>
    obtain ⟨before, entry, after, db', hSplit, hRun', hMode, hRow⟩ := h
    rcases eq_nil_or_concat after with rfl | ⟨after', last', rfl⟩
    · -- assigned by the last entry
      obtain ⟨rfl, hLast⟩ := append_inj' hSplit rfl
      cases hLast
      obtain rfl := hRun.unique hRun'
      exact (lt_nextId_of_inserted hStep hMode hRow).2
    · have hSplit' : entries ++ [last] = (before ++ entry :: after') ++ [last'] := by
        rw [hSplit]
        simp
      obtain ⟨hEntries, _⟩ := append_inj' hSplit' rfl
      have hOld := ih ⟨before, entry, after', db', hEntries, hRun', hMode, hRow⟩
      obtain ⟨_, hAccepted⟩ : ∃ b, Accepts codec (before.length + 1) db' entry b :=
        hRun.exists_accepted hEntries hRun'
      obtain ⟨_, x, hx, hTable, _⟩ := exists_insert_of_mem hAccepted hRow
      have hGrows := nextId_le_of_dispatch hStep (hTable ▸ hx.application)
      omega

/-- In every run the counters exceed the ids that they have assigned, rows with an id
from the counter are new and get an id that was never assigned before, and rows with
an id of their own are new if no entry of the run uses other keys than the canonical
ones for cells of their table. -/
theorem inserted_rows_fresh (hStart : WellSeeded codec start) (hRun : Run codec start entries db) :
    (∀ table rowId, Assigned codec start entries table rowId → rowId < db.nextId table) ∧
    ∀ entry batch, (dispatchExtractAndValidate (entries.length + 1) entry).eval
        (plain codec db.reader) = .ok batch →
      ∀ table rowId, (table, rowId) ∈ insertedRows codec db entry →
        (db.Static codec (.autoIncrement table) true →
          NoRow db table rowId ∧ ¬ Assigned codec start entries table rowId) ∧
        (db.Static codec (.autoIncrement table) false →
          (∀ e ∈ entries ++ [entry], CanonicalKeys (tableKvs e.message.entries table)) →
          NoRow db table rowId) := by
  refine ⟨fun table rowId h => hRun.assigned_lt h, fun entry batch hStep table rowId hRow => ?_⟩
  obtain ⟨kvs, x, hx, hTable, hRowId, hKvs, _⟩ := exists_insert_of_mem hStep hRow
  have hApp : Application table := hTable ▸ hx.application
  constructor
  · intro hMode
    have hNext : rowId = db.nextId table := (lt_nextId_of_inserted hStep hMode hRow).1
    constructor
    · intro key value hValue column hKey
      have hLt :=
        hRun.rowsBelow (hStart.below table hApp) hApp hMode key value hValue rowId column hKey
      omega
    · intro hAssigned
      have hLt := hRun.assigned_lt hAssigned
      omega
  · intro hMode hKeys
    subst hTable hRowId
    have hDense := hRun.dense hStart hApp hMode hx.schema fun e he =>
      hKeys e (mem_append_left _ he)
    refine hx.noRow (hx.mode.unique hMode) (fun kv hkv => ?_) hDense
    have hColumn := isColumnOf_of_parses hx.parses (fun p hp => (hx.row p hp).1) kv hkv
    exact hKeys entry (by simp) kv (mem_tableKvs.mpr ⟨hKvs kv hkv, hColumn⟩)

end Run

/-! ## Samples -/

theorem wellSeeded_of_no_rows {codec : RuleCodec} {db : Db}
    (h : ∀ p ∈ db.toList, parsedColumn? p.1 = none) : WellSeeded codec db := by
  have hNone : ∀ key value, db[key]? = some value → parsedColumn? key = none :=
    Db.forall_stored_iff.mpr h
  constructor
  · intro table _ _ key value hValue rowId column hKey
    rw [hNone key value hValue] at hKey
    cases hKey
  · intro table _ _ columns _ rowId
    refine .inr fun key value hValue column hKey => ?_
    rw [hNone key value hValue] at hKey
    cases hKey

/-- A table with ids of its rows' own, and one with ids from the counter. -/
def sampleTables : Db :=
  (internalDb.createTable
    { name := "docs", columns := ["a", "b"], indexed := [], autoIncrement := false }).createTable
    { name := "notes", columns := ["text"], indexed := [], autoIncrement := true }

/-- Row `1` written with one more byte than needed. -/
def paddedKey (table column : String) : Bytes :=
  encodeTuple [.string tagRow, .string table] ++ [0x16, 0, 1] ++ encodeTuple [.string column]

/-- An Insert of row `1` of `docs` under two keys. -/
def docsInsert (keyA keyB : Bytes) : ChangelogEntry :=
  sampleEntry .insert 1 1 1
    [ { key := keyA, value := i64ToValueBytes 7 }, { key := keyB, value := i64ToValueBytes 8 } ]

def notesInsert : ChangelogEntry :=
  sampleEntry .insert 1 1 1
    [ { key := columnKeyPlaceholder "notes" "text", value := i64ToValueBytes 9 } ]

theorem sampleTables_idMode :
    sampleTables.Static noRules (.autoIncrement "notes") true ∧
      sampleTables.Static noRules (.autoIncrement "docs") false :=
  ⟨rfl, rfl⟩

/-- After one note, the next note and the first document are new rows. -/
theorem sample_inserts_fresh : ∃ db, Run noRules sampleTables [sampleCreate, notesInsert] db ∧
    insertedRows noRules db notesInsert = [("notes", 2)] ∧ NoRow db "notes" 2 ∧
    ¬ Assigned noRules sampleTables [sampleCreate, notesInsert] "notes" 2 ∧
    NoRow db "docs" 1 := by
  let firstDoc := docsInsert (columnKey "docs" 1 "a") (columnKey "docs" 1 "b")
  obtain ⟨db, hRun, hNotes, hDocs, ⟨notesBatch, hNotesStep⟩, docsBatch, hDocsStep⟩ :
      ∃ db, Run noRules sampleTables [sampleCreate, notesInsert] db ∧
        insertedRows noRules db notesInsert = [("notes", 2)] ∧
        insertedRows noRules db firstDoc = [("docs", 1)] ∧
        (∃ batch, Accepts noRules 3 db notesInsert batch) ∧
        ∃ batch, Accepts noRules 3 db firstDoc batch :=
    exists_run (by decide +kernel)
  obtain ⟨_, hFresh⟩ := inserted_rows_fresh
    (wellSeeded_of_no_rows (by decide +kernel : ∀ p ∈ sampleTables.toList, _)) hRun
  obtain ⟨hNoteNew, hNoteUnassigned⟩ := (hFresh notesInsert notesBatch hNotesStep "notes" 2
    (by rw [hNotes]; exact mem_singleton_self _)).1 (hRun.static_iff.mpr sampleTables_idMode.1)
  have hDocNew := (hFresh firstDoc docsBatch hDocsStep "docs" 1
    (by rw [hDocs]; exact mem_singleton_self _)).2 (hRun.static_iff.mpr sampleTables_idMode.2)
    (by decide +kernel)
  exact ⟨db, hRun, hNotes, hNoteNew, hNoteUnassigned, hDocNew⟩

/-- Row `1` of `docs` is inserted under padded keys; a second Insert with one canonical
and one padded key is accepted, and overwrites a cell. -/
theorem insert_overwrites_row : ∃ db batch,
    Run noRules sampleTables
      [sampleCreate, docsInsert (paddedKey "docs" "a") (paddedKey "docs" "b")] db ∧
    (dispatchExtractAndValidate 3 (docsInsert (columnKey "docs" 1 "a") (paddedKey "docs" "b"))).eval
      (plain noRules db.reader) = .ok batch ∧
    insertedRows noRules db (docsInsert (columnKey "docs" 1 "a") (paddedKey "docs" "b")) =
      [("docs", 1)] ∧
    (db[paddedKey "docs" "b"]?).isSome ∧ ¬ NoRow db "docs" 1 := by
  let second := docsInsert (columnKey "docs" 1 "a") (paddedKey "docs" "b")
  obtain ⟨db, hRun, hRow, hStored, batch, hStep⟩ : ∃ db, Run noRules sampleTables
      [sampleCreate, docsInsert (paddedKey "docs" "a") (paddedKey "docs" "b")] db ∧
      insertedRows noRules db second = [("docs", 1)] ∧ (db[paddedKey "docs" "b"]?).isSome ∧
      ∃ batch, Accepts noRules 3 db second batch :=
    exists_run (by decide +kernel)
  refine ⟨db, batch, hRun, hStep, hRow, hStored, fun hNone => ?_⟩
  obtain ⟨value, hValue⟩ := Option.isSome_iff_exists.mp hStored
  exact hNone _ value hValue "b" (by decide +kernel)

end EncryptedSpaces.Ops
