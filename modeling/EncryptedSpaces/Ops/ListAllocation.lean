import EncryptedSpaces.Ops.FreshRows
import EncryptedSpaces.Ops.Gating

/-!
# List numbers

An Insert gives each list column of its row the next list number, stores it in the
cell, and records the cell as the parent of the list.  No other operation writes a
parent or the counter of list numbers, and none puts a value into a list column.
-/

namespace EncryptedSpaces.Ops

open Encoding Changelog Acl Lib Prog List

/-! ## Keys -/

/-- Rows, indexes and counters are apart from the list bookkeeping. -/
theorem TableKey.not_listKey {table : String} {key : Bytes} (h : TableKey table key) :
    ¬ ListKey key := by
  intro hList
  rcases h with hRow | hIndex | rfl
  · exact absurd (hRow.unique hList.hasFront).1 (by decide)
  · exact absurd (hIndex.unique hList.hasFront).1 (by decide)
  · rcases hList with hCounter | ⟨n, hHead | hTail | hParent⟩
    · exact absurd (schemaSubkey_inj hCounter).2 (by decide)
    · exact absurd (schemaSubkey_inj hHead).2 (by decide)
    · exact absurd (schemaSubkey_inj hTail).2 (by decide)
    · exact absurd (schemaSubkey_inj hParent).2 (by decide)

/-- List numbers are recovered from the keys. -/
theorem schemaSubkey_int_inj {s : String} {n n' : Int} (hn : InI64 n) (hn' : InI64 n')
    (h : schemaSubkey listsTable [.string s, .int n] =
      schemaSubkey listsTable [.string s, .int n']) :
    n = n' := by
  have hElements := (encodeTuple_inj (by simpa [TupleElement.Encodable] using hn)
    (by simpa [TupleElement.Encodable] using hn')).mp h
  simpa using hElements

theorem decodeListParent_encodeListParent (table column : String) {rowId : Int} (h : InI64 rowId) :
    decodeListParent (encodeListParent table rowId column) = .ok (table, rowId, column) := by
  have hEncodable : ∀ e ∈ [TupleElement.string table, .int rowId, .string column], e.Encodable := by
    simpa [TupleElement.Encodable] using h
  unfold decodeListParent encodeListParent
  rw [decodeTuple_encodeTuple hEncodable]
  simp only [map_cons, map_nil, TupleElement.decoded, elementToString, elementToInt,
    fromUtf8_utf8]
  rfl

/-! ## What an Insert allocates -/

/-- The allocations of an Insert, in the order of its kvs. -/
structure InsertParts.Allocates (x : InsertParts) (db : Db) (lists : List NewList) : Prop where
  allocated : x.allocated = lists.map fun l => (l.column, l.number)
  increasing : lists.Pairwise fun l l' => l.number < l'.number
  range : ∀ l ∈ lists, db.nextListNumber ≤ l.number ∧
    l.number < db.nextListNumber + lists.length ∧ InI64 l.number
  base : lists ≠ [] → x.base = db.nextListNumber
  cell : ∀ l ∈ lists, l.column ∈ x.listColumns ∧
    parsedColumn? l.key = some (x.table, x.rowId, l.column)
  puts : ∀ op ∈ x.columnPuts, (∃ l ∈ lists, op = .put l.key (i64ToValueBytes l.number)) ∨
    ∃ rowId column, parsedColumn? op.key = some (x.table, rowId, column) ∧ column ∉ x.listColumns
  stored : ∀ l ∈ lists, .put l.key (i64ToValueBytes l.number) ∈ x.columnPuts

section Allocation

variable {codec : RuleCodec} {db : Db} {entry : ChangelogEntry}

section Loop

variable {listCols : List String} {next : Int} {pairs : List (ParsedColumnEntry × Bytes)}
  {puts : Batch} {lists : List NewList}

/-- The numbers are consecutive from `next` on, and stored in the cells of list columns. -/
theorem ColumnPuts.mem_lists (h : ColumnPuts listCols next pairs puts lists) :
    ∀ l ∈ lists, (next ≤ l.number ∧ l.number < next + lists.length ∧ InI64 l.number) ∧
      l.column ∈ listCols ∧ (∃ pair ∈ pairs, pair.2 = l.key ∧ pair.1.column = l.column) ∧
      .put l.key (i64ToValueBytes l.number) ∈ puts := by
  induction h with
  | nil => simp
  | @list next pairs puts lists pair hList hIn hRest ih =>
    refine forall_mem_cons.mpr ⟨⟨⟨le_rfl, ?_, hIn⟩, hList, ?_, mem_cons_self⟩, ?_⟩
    · rw [length_cons]
      show next < _
      omega
    · exact ⟨pair, mem_cons_self, rfl, rfl⟩
    · intro l hl
      obtain ⟨⟨hLower, hUpper, hIn'⟩, hColumn, ⟨p, hp, hCell⟩, hPut⟩ := ih l hl
      rw [length_cons]
      exact ⟨⟨by omega, by omega, hIn'⟩, hColumn, ⟨p, mem_cons_of_mem _ hp, hCell⟩,
        mem_cons_of_mem _ hPut⟩
  | value hList hRest ih =>
    intro l hl
    obtain ⟨hRange, hColumn, ⟨p, hp, hCell⟩, hPut⟩ := ih l hl
    exact ⟨hRange, hColumn, ⟨p, mem_cons_of_mem _ hp, hCell⟩, mem_cons_of_mem _ hPut⟩

theorem ColumnPuts.increasing (h : ColumnPuts listCols next pairs puts lists) :
    lists.Pairwise fun l l' => l.number < l'.number := by
  induction h with
  | nil => exact .nil
  | list hList hIn hRest ih =>
    refine pairwise_cons.mpr ⟨fun l hl => ?_, ih⟩
    exact Int.lt_of_add_one_le (hRest.mem_lists l hl).1.1
  | value hList hRest ih => exact ih

theorem ColumnPuts.mem_puts (h : ColumnPuts listCols next pairs puts lists) :
    ∀ op ∈ puts, (∃ l ∈ lists, op = .put l.key (i64ToValueBytes l.number)) ∨
      ∃ pair ∈ pairs, op.key = pair.2 ∧ pair.1.column ∉ listCols := by
  induction h with
  | nil => simp
  | list hList hIn hRest ih =>
    refine forall_mem_cons.mpr ⟨.inl ⟨_, mem_cons_self, rfl⟩, fun op hOp => ?_⟩
    exact (ih op hOp).imp (fun ⟨l, hl, hPut⟩ => ⟨l, mem_cons_of_mem _ hl, hPut⟩)
      fun ⟨p, hp, hKey⟩ => ⟨p, mem_cons_of_mem _ hp, hKey⟩
  | value hList hRest ih =>
    refine forall_mem_cons.mpr ⟨.inr ⟨_, mem_cons_self, rfl, hList⟩, fun op hOp => ?_⟩
    exact (ih op hOp).imp_right fun ⟨p, hp, hKey⟩ => ⟨p, mem_cons_of_mem _ hp, hKey⟩

end Loop

theorem InsertParts.Accepted.parsedColumn?_keyOf {x : InsertParts} (hx : x.Accepted codec db entry)
    {p : ParsedColumnEntry} (hp : p ∈ columnEntries entry.message.entries) :
    parsedColumn? (x.keyOf p) = some (x.table, x.rowId, p.column) := by
  unfold InsertParts.keyOf
  cases hMode : x.autoIncrement with
  | true => exact parsedColumn?_columnKey x.table p.column hx.inI64
  | false => exact (hx.explicit hMode).1 ▸ hx.parsedColumn?_eq hp

/-- An accepted Insert allocates consecutive numbers from the counter. -/
theorem InsertParts.Accepted.exists_allocates {x : InsertParts} (hx : x.Accepted codec db entry) :
    ∃ lists, x.Allocates db lists := by
  obtain ⟨lists, hLoop, hAll⟩ := insertColumnPuts_eq_ok hx.allocation
  have hLists := hLoop.mem_lists
  rw [length_nil, Nat.cast_zero, add_zero] at hLists
  have hBase : lists ≠ [] → x.base = db.nextListNumber := by
    intro hSome
    obtain ⟨l, hl⟩ := exists_mem_of_ne_nil lists hSome
    exact (hx.base (ne_nil_of_mem (hLists l hl).2.1)).1
  refine ⟨lists, hAll, hLoop.increasing, fun l hl => ?_, hBase, fun l hl => ?_, fun op hOp => ?_,
    fun l hl => (hLists l hl).2.2.2⟩
  · rw [← hBase (ne_nil_of_mem hl)]
    exact (hLists l hl).1
  · obtain ⟨_, hColumn, ⟨pair, hPair, hKey, hName⟩, _⟩ := hLists l hl
    obtain ⟨p, hp, rfl⟩ := mem_map.mp hPair
    refine ⟨hColumn, ?_⟩
    rw [← hKey, ← hName]
    exact hx.parsedColumn?_keyOf hp
  · refine (hLoop.mem_puts op hOp).imp_right fun ⟨pair, hPair, hKey, hColumn⟩ => ?_
    obtain ⟨p, hp, rfl⟩ := mem_map.mp hPair
    exact ⟨x.rowId, p.column, hKey ▸ hx.parsedColumn?_keyOf hp, hColumn⟩

/-- Counter, heads, tails and parents of the new lists. -/
theorem InsertParts.Accepted.listPuts_eq {x : InsertParts} (hx : x.Accepted codec db entry)
    {lists : List NewList} (h : x.Allocates db lists) :
    x.listPuts = if lists = [] then [] else
      .put schemaNextListNumberKey (i64ToBeBytes (db.nextListNumber + lists.length)) ::
        lists.flatMap fun l =>
          [ .put (listHeadKey l.number) (i64ToBeBytes 0),
            .put (listTailKey l.number) (i64ToBeBytes 0),
            .put (listParentKey l.number) (encodeListParent x.table x.rowId l.column) ] := by
  have hNew := hx.newLists
  unfold newListPuts at hNew
  by_cases hNil : lists = []
  · rw [if_pos (by rw [h.allocated, hNil]; rfl)] at hNew
    rw [if_pos hNil]
    exact (Except.ok.inj hNew).symm
  · rw [if_neg (by rw [h.allocated, map_eq_nil_iff]; exact hNil)] at hNew
    rw [if_neg hNil]
    cases hAdd : checkedAdd x.base x.allocated.length with
    | none => simp [hAdd] at hNew
    | some counter =>
      simp only [hAdd] at hNew
      rw [← Except.ok.inj hNew, (checkedAdd_eq_some_iff.mp hAdd).1, h.base hNil, h.allocated,
        length_map, flatMap_map]

theorem InsertParts.Accepted.inI64_counter {x : InsertParts} (hx : x.Accepted codec db entry)
    {lists : List NewList} (h : x.Allocates db lists) (hNil : lists ≠ []) :
    InI64 (db.nextListNumber + lists.length) := by
  have hNew := hx.newLists
  unfold newListPuts at hNew
  rw [if_neg (by rw [h.allocated, map_eq_nil_iff]; exact hNil)] at hNew
  cases hAdd : checkedAdd x.base x.allocated.length with
  | none => simp [hAdd] at hNew
  | some counter =>
    obtain ⟨hCounter, hIn⟩ := checkedAdd_eq_some_iff.mp hAdd
    rw [hCounter, h.base hNil, h.allocated, length_map] at hIn
    exact hIn

end Allocation

/-! ## Steps -/

/-- The column holds lists. -/
def ListColumn (codec : RuleCodec) (db : Db) (table column : String) : Prop :=
  ∃ columns, db.Static codec (.schemaListColumns table) columns ∧ column ∈ columns

/-- The operation puts a value into a list column of an application table. -/
def PutsListCell (codec : RuleCodec) (db : Db) (op : BatchOp) : Prop :=
  ∃ key value table rowId column, op = .put key value ∧
    parsedColumn? key = some (table, rowId, column) ∧ Application table ∧
    ListColumn codec db table column

/-- Neither list bookkeeping nor list cells are written. -/
def Quiet (codec : RuleCodec) (db : Db) (batch : Batch) : Prop :=
  ∀ op ∈ batch, ¬ ListKey op.key ∧ ¬ PutsListCell codec db op

/-- The kvs of an Insert that are for a table with list columns. -/
def allocatesLists (codec : RuleCodec) (db : Db) (kvs : List KvData) : Bool :=
  match kvs.head?.bind fun kv => parsedColumn? kv.key with
  | none => false
  | some (table, _, _) =>
    match decodeStatic codec "" (.schemaListColumns table)
        db[(StaticKey.schemaListColumns table).treeKey]? with
    | .ok columns => !columns.isEmpty
    | .error _ => false

/-- The Inserts of an entry that allocate list numbers. -/
def listInserts (codec : RuleCodec) (db : Db) (entry : ChangelogEntry) : List (List KvData) :=
  (insertKvs codec db entry).filter (allocatesLists codec db)

/-- The entry is an operation on the items of a list. -/
def IsListOp (entry : ChangelogEntry) : Prop :=
  entry.message.opType ∈ [OpType.listAppend, .listInsert, .listUpdate, .listDelete]

instance (entry : ChangelogEntry) : Decidable (IsListOp entry) :=
  inferInstanceAs (Decidable (_ ∈ _))

/-- What an accepted entry does to lists: one Insert allocates numbers, or at most
heads and tails are written, by list operations. -/
inductive ListStep (codec : RuleCodec) (db : Db) (entry : ChangelogEntry) (batch : Batch) :
    Prop where
  | allocate (kvs : List KvData) (x : InsertParts) (lists : List NewList)
      (hx : x.Accepted codec db (subsetEntry entry kvs)) (hLists : x.Allocates db lists)
      (hRow : (x.table, x.rowId) ∈ insertedRows codec db entry)
      (hBatch : ∀ op ∈ x.batch, op ∈ batch)
      (hKeys : ∀ op ∈ batch, ListKey op.key → op ∈ x.listPuts)
      (hCells : ∀ op ∈ batch, PutsListCell codec db op → op ∈ x.columnPuts)
  | keep (hLinks : ∀ op ∈ batch, ListKey op.key → IsListOp entry ∧ LinkKey op.key)
      (hCells : ∀ op ∈ batch, ¬ PutsListCell codec db op)

section Steps

variable {codec : RuleCodec} {db : Db} {n : Nat} {entry : ChangelogEntry} {batch : Batch}

variable {op : BatchOp} {x : InsertParts}

theorem PutsListCell.isColumnOf (h : PutsListCell codec db op) :
    ∃ table, Application table ∧ IsColumnOf table op.key := by
  obtain ⟨key, value, table, rowId, column, rfl, hKey, hApp, _⟩ := h
  exact ⟨table, hApp, rowId, column, hKey⟩

theorem not_putsListCell_delete (key : Bytes) : ¬ PutsListCell codec db (.delete key) := by
  rintro ⟨_, _, _, _, _, hOp, _⟩
  cases hOp

/-- Index entries are neither. -/
theorem IndexesOf.quiet {table : String} (h : IndexesOf table batch) : Quiet codec db batch := by
  intro op hOp
  refine ⟨TableKey.not_listKey (.inr (.inl (h op hOp))), fun hCell => ?_⟩
  obtain ⟨table', _, hColumn⟩ := hCell.isColumnOf
  exact h.not_isColumnOf hOp hColumn

theorem quiet_append {batch' : Batch} (h : Quiet codec db batch) (h' : Quiet codec db batch') :
    Quiet codec db (batch ++ batch') := by
  intro op hOp
  rcases mem_append.mp hOp with hOp | hOp
  · exact h op hOp
  · exact h' op hOp

theorem quiet_deletes {table : String} {keys : List Bytes}
    (h : ∀ key ∈ keys, IsColumnOf table key) : Quiet codec db (keys.map .delete) := by
  intro op hOp
  obtain ⟨key, hKey, rfl⟩ := mem_map.mp hOp
  exact ⟨(h key hKey).tableKey.not_listKey, not_putsListCell_delete key⟩

/-- Update rejects list columns. -/
theorem UpdateParts.Accepted.quiet {x : UpdateParts} (hx : x.Accepted codec db entry) :
    Quiet codec db (x.batch entry.message.entries) := by
  refine quiet_append (fun op hOp => ?_) (indexesOf_updateIndexOps hx.indexOps).quiet
  obtain ⟨p, hp, rfl⟩ := mem_map.mp hOp
  have hCell := (mem_columnEntries.mp hp).2
  refine ⟨TableKey.not_listKey (IsColumnOf.tableKey ⟨p.rowId, p.column, hCell⟩), ?_⟩
  rintro ⟨key, value, table, rowId, column, hOp, hKey, _, columns, hStatic, hColumn⟩
  cases hOp
  obtain ⟨hTable, _, rfl⟩ := cell_unique hCell hKey
  rw [hx.sameTable p hp] at hTable
  subst hTable
  rw [hStatic.unique hx.lists] at hColumn
  exact hx.notLists p hp hColumn

theorem DeleteParts.Accepted.quiet {x : DeleteParts} (hx : x.Accepted codec db entry) :
    Quiet codec db (x.batch entry.message.entries) := by
  have hKeys : ∀ key ∈ entry.message.entries.map (·.key), IsColumnOf x.table key := by
    intro key hKey
    obtain ⟨kv, hkv, rfl⟩ := mem_map.mp hKey
    exact hx.sameTable kv hkv
  exact quiet_append (quiet_deletes hKeys) hx.indexesOf.quiet

theorem CascadeParts.Accepted.quiet {x : CascadeParts} (hx : x.Accepted codec db) :
    Quiet codec db x.rows.flatten := by
  intro op hOp
  obtain ⟨ops, hOps, hOp⟩ := mem_flatten.mp hOp
  obtain ⟨rowId, hRow, deletes, hDeletes, rfl⟩ := Lists.exists_left_of_forall₂ hx.rows hOps
  rcases mem_append.mp hOp with hOp | hOp
  · obtain ⟨column, _, rfl⟩ := mem_map.mp hOp
    exact ⟨(tableKey_columnKey _ _ _).not_listKey, not_putsListCell_delete _⟩
  · exact hDeletes.indexesOf.quiet op hOp

/-- What an Insert writes to the list bookkeeping. -/
theorem InsertParts.Accepted.listPut_cases (hx : x.Accepted codec db entry) {lists : List NewList}
    (h : x.Allocates db lists) (hOp : op ∈ x.listPuts) :
    op = .put schemaNextListNumberKey (i64ToBeBytes (db.nextListNumber + lists.length)) ∨
      ∃ l ∈ lists, op = .put (listHeadKey l.number) (i64ToBeBytes 0) ∨
        op = .put (listTailKey l.number) (i64ToBeBytes 0) ∨
        op = .put (listParentKey l.number) (encodeListParent x.table x.rowId l.column) := by
  rw [hx.listPuts_eq h] at hOp
  split at hOp
  · cases hOp
  · rcases mem_cons.mp hOp with rfl | hOp
    · exact .inl rfl
    · obtain ⟨l, hl, hOp⟩ := mem_flatMap.mp hOp
      simp only [mem_cons, not_mem_nil, or_false] at hOp
      exact .inr ⟨l, hl, hOp⟩

/-- A list cell of the new row holds a new number. -/
theorem InsertParts.Accepted.listCell_eq (hx : x.Accepted codec db entry) {lists : List NewList}
    (h : x.Allocates db lists) (hOp : op ∈ x.columnPuts) (hCell : PutsListCell codec db op) :
    ∃ l ∈ lists, op = .put l.key (i64ToValueBytes l.number) := by
  rcases h.puts op hOp with hList | ⟨rowId', column', hKey', hNot⟩
  · exact hList
  · obtain ⟨key, value, table, rowId, column, rfl, hKey, _, columns, hStatic, hColumn⟩ := hCell
    rw [show parsedColumn? (BatchOp.put key value).key = _ from hKey, Option.some.injEq,
      Prod.mk.injEq, Prod.mk.injEq] at hKey'
    obtain ⟨rfl, rfl, rfl⟩ := hKey'
    exact absurd (hStatic.unique hx.lists ▸ hColumn) hNot

/-- The list keys of an Insert are those of its new lists. -/
theorem InsertParts.Accepted.mem_listPuts (hx : x.Accepted codec db entry) (hOp : op ∈ x.batch)
    (hList : ListKey op.key) : op ∈ x.listPuts := by
  rcases hx.mem_batch hOp with hOp | hIndex | ⟨_, rfl⟩ | ⟨hOp, _⟩
  · obtain ⟨p, hp, hPut⟩ := Lists.exists_left_of_forall₂ hx.columnPuts hOp
    have hColumn : IsColumnOf x.table op.key :=
      ⟨x.rowId, p.column, hPut.key_eq ▸ hx.parsedColumn?_keyOf hp⟩
    exact absurd hList hColumn.tableKey.not_listKey
  · exact absurd (hIndex.unique hList.hasFront).1 (by decide)
  · exact absurd hList (tableKey_nextIdKey x.table).not_listKey
  · exact hOp

/-- The list cells of an Insert are among its column puts. -/
theorem InsertParts.Accepted.mem_columnPuts_of_listCell (hx : x.Accepted codec db entry)
    (hOp : op ∈ x.batch) (hCell : PutsListCell codec db op) : op ∈ x.columnPuts := by
  obtain ⟨table, _, hColumn⟩ := hCell.isColumnOf
  exact hx.mem_columnPuts_of_isColumnOf hOp hColumn

/-- Only the insert legs of an action touch lists. -/
theorem quiet_of_dispatchLeg {name : String} {selfRow : SelfRow} {leg : ActionLeg}
    {kvs : List KvData} (hKind : ∀ table, leg ≠ .insert table)
    (h : (dispatchLeg entry name selfRow leg kvs).eval (plain codec db.reader) = .ok batch) :
    Quiet codec db batch := by
  cases leg with
  | insert table => exact absurd rfl (hKind table)
  | update table cols =>
    iterate 2 obtain ⟨_, _, h⟩ := eval_bind_eq_ok.mp h
    obtain ⟨x, hx, rfl⟩ := updateOp_returns.of_ok h
    exact hx.quiet
  | delete table =>
    obtain ⟨_, _, h⟩ := eval_bind_eq_ok.mp h
    obtain ⟨x, hx, rfl⟩ := deleteOp_returns.of_ok h
    exact hx.quiet
  | cascadeDelete table whereColumn whereSelfColumn =>
    obtain ⟨_, _, h⟩ := eval_bind_eq_ok.mp h
    obtain ⟨x, _, _, _, hx, rfl⟩ := dispatchCascadeDelete_returns.of_ok h
    exact hx.quiet

/-- Every operation of an action comes from one of its legs. -/
theorem ActionParts.Accepted.exists_leg {a : ActionParts} (ha : a.Accepted codec db entry)
    (hOp : op ∈ a.batches.flatten) :
    ∃ leg ∈ a.action.legs.zipIdx, ∃ b ∈ a.batches, op ∈ b ∧
      (dispatchLeg entry a.name a.selfRow leg.1 (a.legKvs leg)).eval (plain codec db.reader) =
        .ok b := by
  obtain ⟨b, hb, hOp⟩ := mem_flatten.mp hOp
  obtain ⟨leg, hLeg, hEval⟩ := Lists.exists_left_of_forall₂ ha.legs hb
  exact ⟨leg, hLeg, b, hb, hOp, hEval⟩

/-- The insert legs of an action and the kvs that Insert works on. -/
theorem ActionParts.Accepted.insertKvs_eq {a : ActionParts} (ha : a.Accepted codec db entry)
    (hType : entry.message.opType = .action) :
    insertKvs codec db entry = a.action.legs.zipIdx.filterMap fun leg =>
      match leg.1 with
      | .insert _ => some (a.legKvs leg)
      | _ => none := by
  have hDeclared : decodeStatic codec "" (.action a.primaryTable a.name)
      db[(StaticKey.action a.primaryTable a.name).treeKey]? = .ok (some a.action) := ha.declared
  unfold insertKvs
  simp only [hType, ha.marker, hDeclared]
  rfl

/-- What concerns lists comes from list operations and from Inserts. -/
theorem quiet_or_of_dispatch (hStep : Accepts codec n db entry batch) :
    ∀ op ∈ batch, (¬ ListKey op.key ∧ ¬ PutsListCell codec db op) ∨
      (IsListOp entry ∧ LinkKey op.key ∧ ¬ PutsListCell codec db op) ∨
      ∃ kvs ∈ insertKvs codec db entry, ∃ b, op ∈ b ∧ (∀ o ∈ b, o ∈ batch) ∧
        (insertOp (subsetEntry entry kvs)).eval (plain codec db.reader) = .ok b := by
  obtain ⟨_, _, hEval⟩ := eval_bind_eq_ok.mp hStep
  intro op hOp
  cases hType : entry.message.opType with
  | insert =>
    rw [hType] at hEval
    have hKvs : entry.message.entries ∈ insertKvs codec db entry := by
      simp [insertKvs, hType]
    exact .inr (.inr ⟨entry.message.entries, hKvs, batch, hOp, fun o ho => ho, hEval⟩)
  | update =>
    rw [hType] at hEval
    obtain ⟨x, hx, rfl⟩ := updateOp_returns.of_ok hEval
    exact .inl (hx.quiet op hOp)
  | delete =>
    rw [hType] at hEval
    obtain ⟨x, hx, rfl⟩ := deleteOp_returns.of_ok hEval
    exact .inl (hx.quiet op hOp)
  | action =>
    rw [hType] at hEval
    obtain ⟨a, ha, rfl⟩ := actionOp_returns.of_ok hEval
    obtain ⟨leg, hLeg, b, hb, hOp, hBatch⟩ := ha.exists_leg hOp
    by_cases hKind : ∃ table, leg.1 = .insert table
    · obtain ⟨table, hKind⟩ := hKind
      have hKvs : a.legKvs leg ∈ insertKvs codec db entry := by
        rw [ha.insertKvs_eq hType]
        refine mem_filterMap.mpr ⟨leg, hLeg, ?_⟩
        rw [hKind]
      rw [hKind] at hBatch
      obtain ⟨_, _, hBatch⟩ := eval_bind_eq_ok.mp hBatch
      exact .inr (.inr ⟨a.legKvs leg, hKvs, b, hOp,
        fun o ho => mem_flatten.mpr ⟨b, hb, ho⟩, hBatch⟩)
    · exact .inl (quiet_of_dispatchLeg (fun table h => hKind ⟨table, h⟩) hBatch op hOp)
  | _ =>
    have hCell : ¬ PutsListCell codec db op := by
      intro hCell
      obtain ⟨table, hApp, hColumn⟩ := hCell.isColumnOf
      have hSpares : Spares table batch :=
        spares_of_dispatch hStep hApp (by simp [hType]) (by simp [hType]) (by simp [hType])
          (by simp [hType])
      exact written_eq_none_iff.mp (hSpares op.key hColumn.tableKey) op hOp rfl
    rcases touchesOr_of_dispatch hStep op hOp with ⟨_, _, hTable⟩ | hLink
    · exact .inl ⟨hTable.not_listKey, hCell⟩
    · unfold listKeysOf at hLink
      rw [hType] at hLink
      first
        | exact hLink.elim
        | exact .inr (.inl ⟨by simp [IsListOp, hType], hLink, hCell⟩)

/-- An Insert into a table without list columns does not concern lists. -/
theorem InsertParts.Accepted.quiet (hx : x.Accepted codec db entry)
    (h : allocatesLists codec db entry.message.entries = false) : Quiet codec db x.batch := by
  have hNone : x.listColumns = [] := by
    obtain ⟨kv, rest, hKvs⟩ := exists_cons_of_ne_nil hx.nonempty
    obtain ⟨rowId, column, hKey⟩ : IsColumnOf x.table kv.key := by
      refine isColumnOf_of_parses hx.parses (fun p hp => (hx.row p hp).1) kv ?_
      rw [hKvs]
      exact mem_cons_self
    have hLists : decodeStatic codec "" (.schemaListColumns x.table)
        db[(StaticKey.schemaListColumns x.table).treeKey]? = .ok x.listColumns := hx.lists
    unfold allocatesLists at h
    rw [hKvs] at h
    simp only [head?_cons, Option.bind_some, hKey, hLists] at h
    exact isEmpty_iff.mp (by simpa using h)
  obtain ⟨lists, hLists⟩ := hx.exists_allocates
  have hNil : lists = [] := by
    refine eq_nil_iff_forall_not_mem.mpr fun l hl => ?_
    have hColumn := (hLists.cell l hl).1
    rw [hNone] at hColumn
    cases hColumn
  intro op hOp
  constructor
  · intro hKey
    have hMem := hx.mem_listPuts hOp hKey
    rw [hx.listPuts_eq hLists, if_pos hNil] at hMem
    cases hMem
  · intro hCell
    obtain ⟨l, hl, _⟩ := hx.listCell_eq hLists (hx.mem_columnPuts_of_listCell hOp hCell) hCell
    rw [hNil] at hl
    cases hl

theorem insertKvs_of_listOp (h : IsListOp entry) : insertKvs codec db entry = [] := by
  unfold IsListOp at h
  unfold insertKvs
  cases hType : entry.message.opType with
  | insert | action =>
    rw [hType] at h
    exact absurd h (by decide)
  | _ => rfl

/-- What any accepted entry that allocates at most once does to lists. -/
theorem listStep_of_dispatch (hStep : Accepts codec n db entry batch)
    (hOne : (listInserts codec db entry).length ≤ 1) : ListStep codec db entry batch := by
  have hCases := quiet_or_of_dispatch hStep
  -- an Insert that does not allocate says nothing about lists
  have hOther : ∀ {kvs b op},
      (insertOp (subsetEntry entry kvs)).eval (plain codec db.reader) = .ok b →
      op ∈ b → allocatesLists codec db kvs = false →
      ¬ ListKey op.key ∧ ¬ PutsListCell codec db op := by
    intro kvs b op hEval hOp hNot
    obtain ⟨x, hx, rfl⟩ := insertOp_returns.of_ok hEval
    exact hx.quiet hNot op hOp
  by_cases hSome : ∃ kvs ∈ listInserts codec db entry, ∃ b, (∀ o ∈ b, o ∈ batch) ∧
      (insertOp (subsetEntry entry kvs)).eval (plain codec db.reader) = .ok b
  · obtain ⟨kvs, hKvs, b, hBatch, hEval⟩ := hSome
    have hInsert := (mem_filter.mp hKvs).1
    have hOnly : ∀ op ∈ batch, op ∈ b ∨ ¬ ListKey op.key ∧ ¬ PutsListCell codec db op := by
      intro op hOp
      rcases hCases op hOp with hQuiet | ⟨hList, _⟩ | ⟨kvs', hKvs', b', hOp', _, hEval'⟩
      · exact .inr hQuiet
      · rw [insertKvs_of_listOp hList] at hInsert
        cases hInsert
      · cases hAllocates : allocatesLists codec db kvs' with
        | false => exact .inr (hOther hEval' hOp' hAllocates)
        | true =>
          have hSame : kvs' = kvs :=
            Lists.eq_of_length_le_one hOne (mem_filter.mpr ⟨hKvs', hAllocates⟩) hKvs
          rw [hSame, hEval] at hEval'
          cases hEval'
          exact .inl hOp'
    obtain ⟨x, hx, rfl⟩ := insertOp_returns.of_ok hEval
    obtain ⟨lists, hLists⟩ := hx.exists_allocates
    have hRow : (x.table, x.rowId) ∈ insertedRows codec db entry :=
      mem_filterMap.mpr ⟨kvs, hInsert, hx.insertedRow_eq⟩
    refine .allocate kvs x lists hx hLists hRow hBatch ?_ ?_
    · intro op hOp hKey
      rcases hOnly op hOp with hOp | hQuiet
      · exact hx.mem_listPuts hOp hKey
      · exact absurd hKey hQuiet.1
    · intro op hOp hCell
      rcases hOnly op hOp with hOp | hQuiet
      · exact hx.mem_columnPuts_of_listCell hOp hCell
      · exact absurd hCell hQuiet.2
  · have hOnly : ∀ op ∈ batch, (¬ ListKey op.key ∧ ¬ PutsListCell codec db op) ∨
        IsListOp entry ∧ LinkKey op.key ∧ ¬ PutsListCell codec db op := by
      intro op hOp
      rcases hCases op hOp with hQuiet | hList | ⟨kvs, hKvs, b, hOp', hBatch, hEval⟩
      · exact .inl hQuiet
      · exact .inr hList
      · cases hAllocates : allocatesLists codec db kvs with
        | false => exact .inl (hOther hEval hOp' hAllocates)
        | true => exact absurd ⟨kvs, mem_filter.mpr ⟨hKvs, hAllocates⟩, b, hBatch, hEval⟩ hSome
    refine .keep (fun op hOp hKey => ?_) fun op hOp hCell => ?_
    · rcases hOnly op hOp with hQuiet | hList
      · exact absurd hKey hQuiet.1
      · exact ⟨hList.1, hList.2.1⟩
    · rcases hOnly op hOp with hQuiet | hList
      · exact hQuiet.2 hCell
      · exact hList.2.2 hCell

end Steps

end EncryptedSpaces.Ops
