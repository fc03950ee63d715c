import EncryptedSpaces.Encoding.IndexKeys
import EncryptedSpaces.Ops.Runs

/-!
# What Insert, Update and Delete read, check and write

One spec for each of the three operations: an accepted entry as the parts that its
verifier computes, with what was checked of them and where each part of the batch
comes from.  Nothing is assumed about the keys of the entry; several encodings
of one cell are told apart by `CanonicalKeys` only.
-/

namespace EncryptedSpaces.Ops

open Encoding Changelog Acl Lib Prog Lib.Except List

/-! ## Static values -/

/-- The static value that a database holds under a key. -/
def Db.Static (codec : RuleCodec) (db : Db) (key : StaticKey) (value : key.Val) : Prop :=
  decodeStatic codec "" key db[key.treeKey]? = .ok value

section Static

variable {codec : RuleCodec} {db : Db} {key : StaticKey} {opName : String}

theorem Db.Static.unique {value value' : key.Val} (h : db.Static codec key value)
    (h' : db.Static codec key value') : value = value' :=
  Except.ok.inj (h.symm.trans h')

theorem static_fromDb :
    (ask (.static key opName)).Returns (FromDb codec db) fun value =>
      db.Static codec key value := by
  refine returns_query.mono fun value hValue => ?_
  have hLoad : loadStatic codec db.reader opName key = .ok value := hValue
  rw [loadStatic_reader] at hLoad
  exact decodeStatic_opName hLoad

/-- Accepted entries do not change static values. -/
theorem Db.Static.applyBatch_iff {value : key.Val} {n : Nat}
    {entry : ChangelogEntry} {batch : Batch}
    (hStep : Accepts codec n db entry batch) :
    (db.applyBatch batch).Static codec key value ↔ db.Static codec key value := by
  unfold Db.Static
  rw [getElem?_treeKey_of_dispatch hStep]

theorem Run.static_iff {start : Db} {entries : List ChangelogEntry} {value : key.Val}
    (h : Run codec start entries db) :
    db.Static codec key value ↔ start.Static codec key value := by
  induction h with
  | nil => rfl
  | snoc _ hStep ih => exact (Db.Static.applyBatch_iff hStep).trans ih

end Static

/-! ## Parsed kvs -/

/-- The kvs of a list with the cells that their keys name. -/
def columnEntries (kvs : List KvData) : List ParsedColumnEntry :=
  kvs.filterMap fun kv => (parsedColumn? kv.key).map fun cell =>
    { kv := kv, table := cell.1, rowId := cell.2.1, column := cell.2.2 }

/-- The key is the one that `column_key` builds for the cell it names. -/
def CanonicalKeys (kvs : List KvData) : Prop :=
  ∀ kv ∈ kvs, ∀ cell ∈ parsedColumn? kv.key, kv.key = columnKey cell.1 cell.2.1 cell.2.2

instance (kvs : List KvData) : Decidable (CanonicalKeys kvs) :=
  inferInstanceAs (Decidable (∀ kv ∈ kvs, ∀ cell ∈ parsedColumn? kv.key, _))

theorem parseColumnEntries_eq {entry : ChangelogEntry} {opName : String}
    {parsed : List ParsedColumnEntry} (h : parseColumnEntries entry opName = .ok parsed) :
    parsed = columnEntries entry.message.entries ∧
      parsed.map ParsedColumnEntry.kv = entry.message.entries := by
  have hAll := mapIdxExcept_eq_ok h
  clear h
  generalize entry.message.entries = kvs at hAll
  induction hAll with
  | nil => exact ⟨rfl, rfl⟩
  | @cons kv p kvs ps hHead _ ih =>
    obtain ⟨j, hj⟩ := hHead
    obtain ⟨ref, hRef, hRet⟩ := bind_eq_ok.mp hj
    have hCell : parsedColumn? kv.key = some (ref.table, ref.rowId, ref.column) :=
      parsedColumn?_eq_some_iff.mpr (parseKey_of_parseColumnKeyRef (mapError_eq_ok.mp hRef))
    cases hRet
    constructor
    · rw [columnEntries, filterMap_cons, hCell, ih.1]
      rfl
    · rw [map_cons, ih.2]

theorem mem_columnEntries {kvs : List KvData} {p : ParsedColumnEntry} :
    p ∈ columnEntries kvs ↔
      p.kv ∈ kvs ∧ parsedColumn? p.kv.key = some (p.table, p.rowId, p.column) := by
  unfold columnEntries
  rw [mem_filterMap]
  constructor
  · rintro ⟨kv, hkv, hp⟩
    obtain ⟨cell, hCell, rfl⟩ := Option.map_eq_some_iff.mp hp
    exact ⟨hkv, hCell⟩
  · rintro ⟨hkv, hCell⟩
    exact ⟨p.kv, hkv, by rw [hCell]; rfl⟩

/-! ## Insert -/

/-- What the verifier of an Insert computes. -/
structure InsertParts where
  table : String
  /-- The row id of the entry's keys, and that of the row. -/
  signedId : Int
  rowId : Int
  autoIncrement : Bool
  columns : List String
  listColumns : List String
  indexed : List String
  /-- The first free list number, and the numbers given to list columns. -/
  base : Int
  allocated : List (String × Int)
  columnPuts : Batch
  indexPuts : Batch
  counterPuts : Batch
  listPuts : Batch

def InsertParts.batch (x : InsertParts) : Batch :=
  x.columnPuts ++ x.indexPuts ++ x.counterPuts ++ x.listPuts

/-- The key under which the verifier stores a cell. -/
def InsertParts.keyOf (x : InsertParts) (p : ParsedColumnEntry) : Bytes :=
  if x.autoIncrement then columnKey x.table x.rowId p.column else p.kv.key

/-- The column put of a kv; a list column gets a list number for its placeholder. -/
def InsertParts.PutOf (x : InsertParts) (p : ParsedColumnEntry) (op : BatchOp) : Prop :=
  if p.column ∈ x.listColumns then ∃ listNumber, op = .put (x.keyOf p) (i64ToValueBytes listNumber)
  else op = .put (x.keyOf p) p.kv.value

/-- The id of the row is new by the test that its table uses. -/
def InsertParts.IdChecked (x : InsertParts) (db : Db) (kvs : List KvData) : Prop :=
  if x.autoIncrement then
    x.signedId = 0 ∧ x.rowId = db.nextId x.table ∧ InI64 x.rowId ∧ InI64 (x.rowId + 1) ∧
      x.counterPuts = [nextIdPut x.table (x.rowId + 1)]
  else x.rowId = x.signedId ∧ 0 < x.rowId ∧ x.counterPuts = [] ∧
    ∃ kv rest, kvs = kv :: rest ∧ db[kv.key]? = none

structure InsertParts.Accepted (x : InsertParts) (codec : RuleCodec) (db : Db)
    (entry : ChangelogEntry) : Prop where
  sorted : (entry.message.entries.map KvData.key).IsChain (· < ·)
  nonempty : entry.message.entries ≠ []
  parses : (columnEntries entry.message.entries).map ParsedColumnEntry.kv = entry.message.entries
  row : ∀ p ∈ columnEntries entry.message.entries, p.table = x.table ∧ p.rowId = x.signedId
  application : Application x.table
  schema : db.Static codec (.schemaColumns x.table) x.columns
  lists : db.Static codec (.schemaListColumns x.table) x.listColumns
  indexes : db.Static codec (.schemaIndexes x.table) x.indexed
  mode : db.Static codec (.autoIncrement x.table) x.autoIncrement
  idChecked : x.IdChecked db entry.message.entries
  complete : ∀ column, column ∈ x.columns ↔
    ∃ p ∈ columnEntries entry.message.entries, p.column = column
  placeholders : ∀ p ∈ columnEntries entry.message.entries, p.column ∈ x.listColumns →
    p.kv.value = i64ToValueBytes 0
  acl : ∀ rule, db.Static codec (.aclRule x.table "write") (some rule) →
    let acl := aclCheckOf x.table rule
    let values := extractAclColumnsFromEntry entry x.table none (some x.rowId) acl.neededColumns
    requireAllAclColumnsPresent values acl.neededColumns = .ok () ∧
      evaluateAcl acl entry.uid values "insert" = .ok ()
  columnPuts : List.Forall₂ x.PutOf (columnEntries entry.message.entries) x.columnPuts
  indexPuts : indexPutsFor x.table x.rowId (parsedValue (columnEntries entry.message.entries))
    "insert" (x.indexed.filter (· ∉ x.listColumns)) = .ok x.indexPuts
  listPuts : ∀ tables, Touches tables x.listPuts
  base : x.listColumns ≠ [] → x.base = db.nextListNumber ∧ InI64 x.base
  allocation : insertColumnPuts x.listColumns x.base
    ((columnEntries entry.message.entries).map fun p => (p, x.keyOf p)) [] =
      .ok (x.columnPuts, x.allocated)
  newLists : newListPuts x.table x.rowId x.base x.allocated = .ok x.listPuts

section Insert

variable {codec : RuleCodec} {db : Db} {entry : ChangelogEntry}

variable {table : String} {parsed : List ParsedColumnEntry}

theorem resolveInsertId_fromDb {signedId : Int} {autoIncrement : Bool} :
    (resolveInsertId table signedId autoIncrement).Returns (FromDb codec db) fun rowId =>
      if autoIncrement then signedId = 0 ∧ rowId = db.nextId table ∧ InI64 rowId
      else rowId = signedId ∧ 0 < rowId := by
  unfold resolveInsertId classifyInsertId
  by_cases hNegative : signedId < 0
  · simp only [Option.filter, hNegative, decide_true, if_true]
    exact returns_fail
  by_cases hZero : signedId = 0
  · cases autoIncrement with
    | true =>
      subst hZero
      exact readNextId_fromDb.mono fun rowId hRow => ⟨rfl, hRow⟩
    | false =>
      subst hZero
      exact returns_fail
  · cases autoIncrement with
    | true =>
      simp only [Option.filter, hNegative, hZero, ne_eq, not_false_eq_true, decide_true,
        decide_false, if_true, Bool.false_eq_true, if_false]
      exact returns_fail
    | false =>
      simp only [Option.filter, hNegative, hZero, ne_eq, not_false_eq_true, decide_true,
        decide_false, if_true, Bool.false_eq_true, if_false]
      exact returns_ret ⟨rfl, by omega⟩

theorem validateSameTableRow_ne_nil {opName label : String} {r : String × Int}
    (h : validateSameTableRow parsed opName label = .ok r) : parsed ≠ [] := by
  rintro rfl
  cases h

theorem placeholders_of_validate {listCols : List String} {u : Unit}
    (h : validateListPlaceholders listCols parsed = .ok u) :
    ∀ p ∈ parsed, p.column ∈ listCols → p.kv.value = i64ToValueBytes 0 := by
  obtain ⟨_, hAll, _⟩ := bind_eq_ok.mp h
  intro p hp hList
  obtain ⟨_, _, hCheck⟩ := exists_ok_of_mapM hAll hp
  by_contra hValue
  exact check_eq_ok.mp hCheck ⟨hList, hValue⟩

/-- Each cell is put under its key. -/
theorem ColumnPuts.forall₂ {listCols : List String} {next : Int}
    {pairs : List (ParsedColumnEntry × Bytes)} {puts : Batch} {lists : List NewList}
    (h : ColumnPuts listCols next pairs puts lists) :
    List.Forall₂ (fun (pair : ParsedColumnEntry × Bytes) op =>
      if pair.1.column ∈ listCols then ∃ listNumber, op = .put pair.2 (i64ToValueBytes listNumber)
      else op = .put pair.2 pair.1.kv.value) pairs puts := by
  induction h with
  | nil => exact .nil
  | list hList hIn hRest ih => exact .cons (by rw [if_pos hList]; exact ⟨_, rfl⟩) ih
  | value hList hRest ih => exact .cons (by rw [if_neg hList]) ih

theorem insertRowIdStep_fromDb {rowId : Int} {autoIncrement : Bool} {keys : List Bytes} :
    (insertRowIdStep table rowId autoIncrement parsed keys).Returns (FromDb codec db) fun puts =>
      if autoIncrement then InI64 (rowId + 1) ∧ puts = [nextIdPut table (rowId + 1)]
      else puts = [] ∧ ∃ key rest, keys = key :: rest ∧ db[key]? = none := by
  cases autoIncrement with
  | true =>
    refine (returns_lift nextIdAfter_eq_ok.mp).bind fun next hNext => ?_
    obtain ⟨rfl, hIn⟩ := hNext
    exact returns_ret ⟨hIn, rfl⟩
  | false =>
    cases keys with
    | nil => exact returns_fail
    | cons key rest =>
      cases parsed with
      | nil => exact returns_fail
      | cons p parsed =>
        have hAbsent : (verifyColumnAbsent key table rowId p.column "insert").Returns
            (FromDb codec db) fun _ => db[key]? = none := by
          refine returns_query.bind fun results hResults => ?_
          refine returns_ensure.mono fun _ hNil => ?_
          have hRead : db.read (.key key) = results := Except.ok.inj hResults
          rw [hNil] at hRead
          cases hGet : db[key]? with
          | none => rfl
          | some value => simp [Db.read, hGet] at hRead
        refine hAbsent.bind fun _ hNone => ?_
        exact returns_ret ⟨rfl, key, rest, rfl, hNone⟩

theorem checkInsertAcl_fromDb {rowId : Int} :
    (checkInsertAcl entry table rowId).Returns (FromDb codec db) fun _ =>
      ∀ rule, db.Static codec (.aclRule table "write") (some rule) →
        let acl := aclCheckOf table rule
        let values := extractAclColumnsFromEntry entry table none (some rowId) acl.neededColumns
        requireAllAclColumnsPresent values acl.neededColumns = .ok () ∧
          evaluateAcl acl entry.uid values "insert" = .ok () := by
  refine static_fromDb.bind fun stored hStored => ?_
  cases stored with
  | none =>
    refine returns_ret fun rule hRule => ?_
    cases hRule.unique hStored
  | some rule =>
    refine (returns_lift id).bind fun _ hPresent => ?_
    refine returns_lift fun hEvaluated rule' hRule => ?_
    cases hRule.unique hStored
    exact ⟨hPresent, hEvaluated⟩

/-- Two sets of the same size, one inside the other. -/
theorem mem_iff_of_length_eq {actual expected : List String} (hActual : actual.Nodup)
    (hLength : actual.length = expected.length) (hSub : ∀ column ∈ actual, column ∈ expected)
    (column : String) :
    column ∈ expected ↔ column ∈ actual := by
  have hPerm : actual.Perm expected :=
    (subperm_of_subset hActual hSub).perm_of_length_le hLength.ge
  exact hPerm.mem_iff.symm

theorem insertOp_returns : (insertOp entry).Returns (FromDb codec db) fun batch =>
    ∃ x : InsertParts, x.Accepted codec db entry ∧ batch = x.batch := by
  refine (returns_lift check_eq_ok.mp).bind fun _ hSorted => ?_
  refine (returns_lift parseColumnEntries_eq).bind fun parsed hParsed => ?_
  obtain ⟨rfl, hKvs⟩ := hParsed
  refine (returns_lift fun h => And.intro (validateSameTableRow_eq_ok h)
    (validateSameTableRow_ne_nil h)).bind fun ⟨table, signedId⟩ hRow => ?_
  obtain ⟨hRow, hNonempty⟩ := hRow
  refine notInternal_returns.bind fun _ hApp => ?_
  refine static_fromDb.bind fun autoIncrement hMode => ?_
  refine resolveInsertId_fromDb.bind fun rowId hId => ?_
  iterate 2 refine returns_skip fun _ => ?_
  refine static_fromDb.bind fun expected hSchema => ?_
  refine returns_ensure.bind fun _ hColumns => ?_
  refine static_fromDb.bind fun listCols hLists => ?_
  refine (returns_lift placeholders_of_validate).bind fun _ hPlaceholders => ?_
  refine readListNumberBase_fromDb.bind fun base hBase => ?_
  refine checkInsertAcl_fromDb.bind fun _ hAcl => ?_
  refine (returns_lift id).bind fun ⟨columnPuts, allocated⟩ hAllocation => ?_
  obtain ⟨_, hColumns', _⟩ := insertColumnPuts_eq_ok hAllocation
  have hPuts := hColumns'.forall₂
  refine static_fromDb.bind fun indexed hIndexed => ?_
  refine (returns_lift id).bind fun indexPuts hIndexPuts => ?_
  refine insertRowIdStep_fromDb.bind fun counterPuts hCounter => ?_
  refine (returns_lift id).bind fun listPuts hNewLists => ?_
  refine returns_ret ⟨⟨table, signedId, rowId, autoIncrement, expected, listCols, indexed,
    base, allocated, columnPuts, indexPuts, counterPuts, listPuts⟩, ?_, rfl⟩
  have hComplete : ∀ column, column ∈ expected ↔
      ∃ p ∈ columnEntries entry.message.entries, p.column = column := by
    intro column
    rw [mem_iff_of_length_eq (nodup_btreeSet _) hColumns.1 hColumns.2]
    simp
  have hZip : ∀ (l : List ParsedColumnEntry) (f : ParsedColumnEntry → Bytes),
      l.zip (l.map f) = l.map fun p => (p, f p) := by
    intro l f
    induction l with
    | nil => rfl
    | cons p l ih => rw [map_cons, zip_cons_cons, ih, map_cons]
  rw [hZip] at hAllocation
  rw [hZip, forall₂_map_left_iff] at hPuts
  have hEntries : entry.message.entries ≠ [] := by
    intro hNil
    rw [hNil] at hNonempty
    exact hNonempty rfl
  refine
    { sorted := hSorted
      nonempty := hEntries
      parses := hKvs
      row := hRow
      application := hApp
      schema := hSchema
      lists := hLists
      indexes := hIndexed
      mode := hMode
      idChecked := ?_
      complete := hComplete
      placeholders := hPlaceholders
      acl := hAcl
      columnPuts := hPuts
      indexPuts := hIndexPuts
      listPuts := fun tables => touches_of_newListPuts tables hNewLists
      base := hBase
      allocation := hAllocation
      newLists := hNewLists }
  cases autoIncrement with
  | true => exact ⟨hId.1, hId.2.1, hId.2.2, hCounter⟩
  | false =>
    obtain ⟨hNil, key, rest, hKeys, hNone⟩ := hCounter
    refine ⟨hId.1, hId.2, hNil, ?_⟩
    obtain ⟨p, ps, hp, hKey, _⟩ := map_eq_cons_iff.mp hKeys
    rw [hp, map_cons] at hKvs
    refine ⟨p.kv, ps.map ParsedColumnEntry.kv, hKvs.symm, ?_⟩
    rw [← hNone, ← hKey]
    rfl

end Insert

/-! ## Update -/

/-- What the verifier of an Update computes. -/
structure UpdateParts where
  table : String
  columns : List String
  listColumns : List String
  indexed : List String
  rule : Option AccessRule
  indexOps : Batch

section Parts

variable (x : UpdateParts) (db : Db) (kvs : List KvData)

def UpdateParts.columnPuts : Batch :=
  (columnEntries kvs).map fun p => .put p.kv.key p.kv.value

def UpdateParts.rowIds : List Int := uniqueRowIds (columnEntries kvs)

def UpdateParts.acl : Option AclCheck := x.rule.map (aclCheckOf x.table)

/-- The cells that are looked up, under the keys that are read for them. -/
def UpdateParts.planned : CellMap Bytes :=
  plannedReads x.table (columnEntries kvs) (UpdateParts.rowIds kvs)
    ((x.acl.map AclCheck.neededColumns).getD []) x.indexed

def UpdateParts.oldValues : CellMap (Option Bytes) :=
  (x.planned kvs).map fun p => (p.1, db[p.2]?)

end Parts

def UpdateParts.batch (x : UpdateParts) (kvs : List KvData) : Batch :=
  UpdateParts.columnPuts kvs ++ x.indexOps

structure UpdateParts.Accepted (x : UpdateParts) (codec : RuleCodec) (db : Db)
    (entry : ChangelogEntry) : Prop where
  sorted : (entry.message.entries.map KvData.key).IsChain (· < ·)
  nonempty : entry.message.entries ≠ []
  parses : (columnEntries entry.message.entries).map ParsedColumnEntry.kv = entry.message.entries
  sameTable : ∀ p ∈ columnEntries entry.message.entries, p.table = x.table
  application : Application x.table
  schema : db.Static codec (.schemaColumns x.table) x.columns
  lists : db.Static codec (.schemaListColumns x.table) x.listColumns
  indexes : db.Static codec (.schemaIndexes x.table) x.indexed
  aclRule : db.Static codec (.aclRule x.table "write") x.rule
  inSchema : ∀ p ∈ columnEntries entry.message.entries, p.column ∈ x.columns
  notLists : ∀ p ∈ columnEntries entry.message.entries, p.column ∉ x.listColumns
  rowsExist : ∀ rowId ∈ UpdateParts.rowIds entry.message.entries,
    ∃ p ∈ x.planned entry.message.entries, p.1.1 = rowId ∧ (db[p.2]?).isSome
  acl : checkUpdateAcl entry x.table x.acl (columnEntries entry.message.entries)
    (UpdateParts.rowIds entry.message.entries) (x.oldValues db entry.message.entries) = .ok ()
  indexOps : updateIndexOps x.table x.indexed (x.oldValues db entry.message.entries)
    (updatedCells (columnEntries entry.message.entries)) = .ok x.indexOps

section Update

variable {codec : RuleCodec} {db : Db} {entry : ChangelogEntry}

theorem readPlanned_fromDb {planned : CellMap Bytes} :
    (readPlanned planned).Returns (FromDb codec db) fun values =>
      values = planned.map fun p => (p.1, db[p.2]?) := by
  induction planned with
  | nil => exact returns_ret rfl
  | cons p planned ih =>
    refine readKey_fromDb.bind fun value hValue => ?_
    refine ih.bind fun values hValues => ?_
    refine returns_ret ?_
    rw [hValue, hValues, map_cons]

theorem returns_forEach {R : (q : Query) → Answer q → Prop} {β : Type} {l : List β}
    {body : β → OpM Unit} {P : β → Prop} (h : ∀ b ∈ l, (body b).Returns R fun _ => P b) :
    (Prog.forEach l body).Returns R fun _ => ∀ b ∈ l, P b := by
  induction l with
  | nil => exact returns_ret fun b hb => absurd hb not_mem_nil
  | cons b l ih =>
    refine (h b mem_cons_self).bind fun _ hb => ?_
    refine (ih fun b' hb' => h b' (mem_cons_of_mem b hb')).mono fun _ hAll => ?_
    exact forall_mem_cons.mpr ⟨hb, hAll⟩

theorem validateSameTable_ne_nil {parsed : List ParsedColumnEntry} {opName table : String}
    (h : validateSameTable parsed opName = .ok table) : parsed ≠ [] := by
  rintro rfl
  cases h

theorem updateOp_returns : (updateOp entry).Returns (FromDb codec db) fun batch =>
    ∃ x : UpdateParts, x.Accepted codec db entry ∧ batch = x.batch entry.message.entries := by
  refine returns_skip fun _ => ?_
  refine (returns_lift check_eq_ok.mp).bind fun _ hSorted => ?_
  refine returns_skip fun _ => ?_
  refine (returns_lift parseColumnEntries_eq).bind fun parsed hParsed => ?_
  obtain ⟨rfl, hKvs⟩ := hParsed
  refine (returns_lift fun h => And.intro (validateSameTable_eq_ok h)
    (validateSameTable_ne_nil h)).bind fun table hTable => ?_
  obtain ⟨hTable, hNonempty⟩ := hTable
  refine notInternal_returns.bind fun _ hApp => ?_
  refine static_fromDb.bind fun valid hSchema => ?_
  refine (returns_forEach fun _ _ => returns_ensure).bind fun _ hValid => ?_
  refine static_fromDb.bind fun listCols hLists => ?_
  refine (returns_forEach fun _ _ => returns_ensure).bind fun _ hNotLists => ?_
  refine static_fromDb.bind fun rule hRule => ?_
  refine static_fromDb.bind fun indexed hIndexed => ?_
  refine readPlanned_fromDb.bind fun oldValues hOld => ?_
  subst hOld
  refine (returns_forEach fun _ _ => returns_ensure).bind fun _ hExists => ?_
  refine (returns_lift id).bind fun _ hAcl => ?_
  refine (returns_lift id).bind fun indexOps hIndexOps => ?_
  refine returns_ret ⟨⟨table, valid, listCols, indexed, rule, indexOps⟩, ?_, rfl⟩
  have hName : ∀ p ∈ columnEntries entry.message.entries,
      p.column ∈ columnNameSet (columnEntries entry.message.entries) := by
    intro p hp
    exact mem_btreeSet.mpr (mem_map_of_mem hp)
  refine
    { sorted := hSorted
      nonempty := fun hNil => hNonempty (by rw [hNil]; rfl)
      parses := hKvs
      sameTable := hTable
      application := hApp
      schema := hSchema
      lists := hLists
      indexes := hIndexed
      aclRule := hRule
      inSchema := fun p hp => hValid p.column (hName p hp)
      notLists := fun p hp => hNotLists p.column (hName p hp)
      rowsExist := fun rowId hRow => ?_
      acl := hAcl
      indexOps := hIndexOps }
  have hAny := hExists rowId hRow
  rw [any_map, any_eq_true] at hAny
  obtain ⟨p, hp, hSome⟩ := hAny
  exact ⟨p, hp, of_decide_eq_true hSome⟩

end Update

/-! ## Delete -/

/-- What the verifier of a Delete computes. -/
structure DeleteParts where
  table : String
  columns : List String
  indexed : List String
  indexDeletes : List Batch

def DeleteParts.batch (x : DeleteParts) (kvs : List KvData) : Batch :=
  (kvs.map KvData.key).map .delete ++ x.indexDeletes.flatten

/-- The columns of a stored row that a rule needs. -/
def storedAclValues (db : Db) (table : String) (rowId : Int) (columns : List String) :
    List (String × Bytes) :=
  columns.filterMap fun column =>
    if column = "id" then some ("id", i64ToValueBytes rowId)
    else (db[columnKey table rowId column]?).map fun bytes => (column, bytes)

/-- The index entries of a stored row go. -/
def IndexDeletesOf (db : Db) (table : String) (indexed : List String) (opName : String)
    (rowId : Int) (ops : Batch) : Prop :=
  ∃ pieces, List.Forall₂ (fun column piece => oldIndexDelete table column rowId opName
    db[columnKey table rowId column]? = .ok piece) indexed pieces ∧ ops = pieces.flatten

structure DeleteParts.Accepted (x : DeleteParts) (codec : RuleCodec) (db : Db)
    (entry : ChangelogEntry) : Prop where
  sorted : (entry.message.entries.map KvData.key).IsChain (· < ·)
  nonempty : entry.message.entries ≠ []
  sameTable : ∀ kv ∈ entry.message.entries, IsColumnOf x.table kv.key
  application : Application x.table
  schema : db.Static codec (.schemaColumns x.table) x.columns
  indexes : db.Static codec (.schemaIndexes x.table) x.indexed
  complete : ∀ row ∈ columnsByRow entry.message.entries, row.2 = x.columns
  acl : ∀ rule, db.Static codec (.aclRule x.table "delete") (some rule) →
    ∀ row ∈ columnsByRow entry.message.entries,
      let acl := aclCheckOf x.table rule
      evaluateAcl acl entry.uid (storedAclValues db x.table row.1 acl.neededColumns) "delete" =
        .ok ()
  indexDeletes : List.Forall₂ (IndexDeletesOf db x.table x.indexed "delete")
    ((columnsByRow entry.message.entries).map (·.1)) x.indexDeletes

section Delete

variable {codec : RuleCodec} {db : Db} {entry : ChangelogEntry}
    {table opName : String} {rowId : Int}

theorem readColumnsFromTree_fromDb {columns : List String} :
    (readColumnsFromTree table rowId columns).Returns (FromDb codec db) fun values =>
      values = storedAclValues db table rowId columns := by
  induction columns with
  | nil => exact returns_ret rfl
  | cons column columns ih =>
    unfold readColumnsFromTree storedAclValues
    rw [filterMap_cons]
    by_cases hId : column = "id"
    · rw [if_pos hId, if_pos hId]
      refine ih.bind fun rest hRest => returns_ret ?_
      rw [hRest]
      rfl
    · rw [if_neg hId, if_neg hId]
      refine readKey_fromDb.bind fun value hValue => ?_
      refine ih.bind fun rest hRest => ?_
      rw [hRest, ← hValue]
      cases value with
      | none => exact returns_ret rfl
      | some bytes => exact returns_ret rfl

theorem rowIndexDeletes_fromDb {indexed : List String} :
    (rowIndexDeletes table rowId opName indexed).Returns (FromDb codec db)
      (IndexDeletesOf db table indexed opName rowId) := by
  induction indexed with
  | nil => exact returns_ret ⟨[], .nil, rfl⟩
  | cons column indexed ih =>
    refine readKey_fromDb.bind fun value hValue => ?_
    refine (returns_lift id).bind fun piece hPiece => ?_
    refine ih.bind fun ops hOps => ?_
    obtain ⟨pieces, hPieces, rfl⟩ := hOps
    rw [hValue] at hPiece
    exact returns_ret ⟨piece :: pieces, .cons hPiece hPieces, rfl⟩

theorem checkDeleteAcl_fromDb {rowIds : List Int} :
    (checkDeleteAcl entry table rowIds).Returns (FromDb codec db) fun _ =>
      ∀ rule, db.Static codec (.aclRule table "delete") (some rule) → ∀ rowId ∈ rowIds,
        let acl := aclCheckOf table rule
        evaluateAcl acl entry.uid (storedAclValues db table rowId acl.neededColumns) "delete" =
          .ok () := by
  refine static_fromDb.bind fun stored hStored => ?_
  cases stored with
  | none =>
    refine returns_ret fun rule hRule => ?_
    cases hRule.unique hStored
  | some rule =>
    have hRows : (Prog.forEach rowIds fun rowId => do
        let values ← readColumnsFromTree table rowId (aclCheckOf table rule).neededColumns
        pureStep (evaluateAcl (aclCheckOf table rule) entry.uid values "delete")).Returns
          (FromDb codec db) fun _ => ∀ rowId ∈ rowIds,
            evaluateAcl (aclCheckOf table rule) entry.uid
              (storedAclValues db table rowId (aclCheckOf table rule).neededColumns) "delete" =
                .ok () := by
      refine returns_forEach fun rowId _ => ?_
      refine readColumnsFromTree_fromDb.bind fun values hValues => ?_
      refine returns_lift fun hEvaluated => ?_
      rw [← hValues]
      exact hEvaluated
    refine hRows.mono fun _ hAll rule' hRule => ?_
    cases hRule.unique hStored
    exact hAll

theorem tableFromColumnKeys_ne_nil {keys : List Bytes}
    (h : tableFromColumnKeys keys opName = .ok table) : keys ≠ [] := by
  rintro rfl
  cases h

theorem deleteOp_returns : (deleteOp entry).Returns (FromDb codec db) fun batch =>
    ∃ x : DeleteParts, x.Accepted codec db entry ∧ batch = x.batch entry.message.entries := by
  refine returns_skip fun _ => ?_
  refine (returns_lift check_eq_ok.mp).bind fun _ hSorted => ?_
  refine returns_skip fun _ => ?_
  refine (returns_lift fun h => And.intro (isColumnOf_of_tableFromColumnKeys h)
    (tableFromColumnKeys_ne_nil h)).bind fun table hTable => ?_
  obtain ⟨hTable, hNonempty⟩ := hTable
  refine notInternal_returns.bind fun _ hApp => ?_
  refine static_fromDb.bind fun columns hSchema => ?_
  refine (returns_forEach fun _ _ => returns_ensure).bind fun _ hComplete => ?_
  refine checkDeleteAcl_fromDb.bind fun _ hAcl => ?_
  refine static_fromDb.bind fun indexed hIndexed => ?_
  refine (returns_collect_forall₂ fun rowId _ => rowIndexDeletes_fromDb).bind
    fun deletes hDeletes => ?_
  refine returns_ret ⟨⟨table, columns, indexed, deletes⟩, ?_, rfl⟩
  exact
    { sorted := hSorted
      nonempty := fun hNil => hNonempty (by rw [columnKeysFromEntry, hNil]; rfl)
      sameTable := fun kv hkv => hTable kv.key (mem_map_of_mem hkv)
      application := hApp
      schema := hSchema
      indexes := hIndexed
      complete := fun row hRow => hComplete row hRow
      acl := fun rule hRule row hRow => hAcl rule hRule row.1 (mem_map_of_mem hRow)
      indexDeletes := hDeletes }

end Delete

end EncryptedSpaces.Ops
