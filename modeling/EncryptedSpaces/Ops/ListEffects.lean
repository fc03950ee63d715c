import EncryptedSpaces.Ops.CascadeRows
import EncryptedSpaces.Ops.ListAllocation

/-!
# What list operations do

A list operation is a command on the items of one list.  Here each accepted entry is
read as its command, with what the verifier has found in the database and the batch
that follows.  Append, prepend and insert share one batch: a new item is linked
between two neighbours, where `0` stands for an end of the list.
-/

namespace EncryptedSpaces.Ops

open Encoding Changelog Acl Lib Prog Lib.Except

/-! ## Commands -/

/-- The command of a list entry.  Predecessor `0` stands for the front. -/
inductive ListCommand where
  | append (number : Int) (value : Bytes)
  | insert (number predecessor : Int) (value : Bytes)
  | update (id : Int) (value : Bytes)
  | delete (id : Int)
deriving DecidableEq, Repr

def listCommand? (entry : ChangelogEntry) : Option ListCommand :=
  match entry.message.opType with
  | .listAppend => do
      let number ← (extractI64ColumnFromEntry entry listsTable "list_number" "list_append").toOption
      let value ← (placeholderValue entry "list_append").toOption
      return .append number value
  | .listInsert => do
      let number ← (extractI64ColumnFromEntry entry listsTable "list_number" "list_insert").toOption
      let predecessor ←
        (extractI64ColumnFromEntry entry listsTable "prev_id" "list_insert").toOption
      let value ← (placeholderValue entry "list_insert").toOption
      return .insert number predecessor value
  | .listUpdate => do
      let (id, kv) ← (listUpdateTarget entry).toOption
      return .update id kv.value
  | .listDelete => do
      let id ← (listDeleteTarget entry).toOption
      return .delete id
  | _ => none

/-! ## Reads -/

/-- An integer cell of a list item. -/
def Db.listCell (db : Db) (id : Int) (column : String) : Option Int :=
  (db[columnKey listsTable id column]?).bind parseI64ColumnValue

/-- A head or tail. -/
def Db.listEnd (db : Db) (key : Bytes) : Option Int :=
  (db[key]?).bind fun bytes => if bytes.length = 8 then some (i64FromBeBytes bytes) else none

/-- The cell that is recorded as the parent of a list. -/
def Db.listParent? (db : Db) (number : Int) : Option (String × Int × String) :=
  (db[listParentKey number]?).bind fun bytes => (decodeListParent bytes).toOption

/-- The list that a command is about. -/
def ListCommand.number? (db : Db) : ListCommand → Option Int
  | .append number _ | .insert number _ _ => some number
  | .update id _ | .delete id => db.listCell id "list_number"

/-- The parent of the list is recorded, and its cell is stored. -/
structure LiveParent (db : Db) (number : Int) (cell : String × Int × String) : Prop where
  recorded : db.listParent? number = some cell
  application : Application cell.1
  stored : db[columnKey cell.1 cell.2.1 cell.2.2]? ≠ none

section Reads

variable {codec : RuleCodec} {db : Db} {opName desc : String} {number : Int}

theorem toOption_eq_some {ε α : Type} {x : Except ε α} {a : α} (h : x = .ok a) :
    x.toOption = some a := by
  rw [h]
  rfl

theorem readI64Key_fromDb {key : Bytes} :
    (readI64Key key opName desc).Returns (FromDb codec db) fun i => db.listEnd key = some i := by
  refine readKey_fromDb.bind fun stored hStored => ?_
  refine returns_orFail.bind fun bytes hBytes => ?_
  refine returns_ensure.bind fun _ hLength => returns_ret ?_
  unfold Db.listEnd
  rw [← hStored, hBytes, Option.bind_some, if_pos hLength]

variable {id : Int} {column : String} {entry : ChangelogEntry}

theorem readI64Column_fromDb :
    (readI64Column id column opName).Returns (FromDb codec db) fun i =>
      db.listCell id column = some i := by
  refine readKey_fromDb.bind fun stored hStored => ?_
  refine returns_orFail.bind fun bytes hBytes => ?_
  refine returns_lift fun {i} hi => ?_
  unfold Db.listCell
  rw [← hStored, hBytes, Option.bind_some]
  exact decodeI64ColumnValue_eq_ok.mp hi

theorem readListNumber_fromDb :
    (readListNumber id opName).Returns (FromDb codec db) fun i =>
      db.listCell id "list_number" = some i ∧ 0 < i := by
  refine readI64Column_fromDb.bind fun i hi => ?_
  exact returns_ensure.bind fun _ hPositive => returns_ret ⟨hi, hPositive⟩

theorem resolveListParent_fromDb :
    (resolveListParent number opName).Returns (FromDb codec db) (LiveParent db number) := by
  refine readKey_fromDb.bind fun stored hStored => ?_
  refine returns_orFail.bind fun bytes hBytes => ?_
  refine (returns_lift mapError_eq_ok.mp).bind fun ⟨table, rowId, column⟩ hCell => ?_
  refine notInternal_returns.bind fun _ hApp => ?_
  refine readKey_fromDb.bind fun cell hValue => ?_
  refine returns_ensure.bind fun _ hPresent => returns_ret ⟨?_, hApp, ?_⟩
  · unfold Db.listParent?
    rw [← hStored, hBytes, Option.bind_some]
    exact toOption_eq_some hCell
  · rw [hValue] at hPresent
    exact hPresent

theorem inI64_of_listCell {i : Int} (h : db.listCell id column = some i) :
    InI64 i := by
  obtain ⟨bytes, _, hInt⟩ := Option.bind_eq_some_iff.mp h
  exact inI64_of_parseI64ColumnValue hInt

theorem inI64_of_extractI64ColumnFromEntry {table : String} {i : Int}
    (h : extractI64ColumnFromEntry entry table column opName = .ok i) : InI64 i := by
  unfold extractI64ColumnFromEntry at h
  dsimp only at h
  split at h
  · cases h
  · exact inI64_of_parseI64ColumnValue (decodeI64ColumnValue_eq_ok.mp h)

theorem inI64_of_listUpdateTarget {kv : KvData} (h : listUpdateTarget entry = .ok (id, kv)) :
    InI64 id := by
  unfold listUpdateTarget at h
  split at h
  next kv' _ =>
    split at h
    next table rowId column hKey =>
      split at h
      · cases h
        exact inI64_of_parseKey (parsedColumn?_eq_some_iff.mp hKey)
      · cases h
    next => cases h
  next => cases h

/-- The tombstones of a list delete name a row id of their keys. -/
theorem inI64_of_tombstones {kvs : List KvData} {target target' : Option Int}
    {seen seen' : List String}
    (h : tombstones kvs target seen = .ok (target', seen')) (hTarget : ∀ id ∈ target, InI64 id) :
    ∀ id ∈ target', InI64 id := by
  induction kvs generalizing target seen with
  | nil =>
    cases h
    exact hTarget
  | cons kv kvs ih =>
    unfold tombstones at h
    split at h
    · cases h
    · rename_i table rowId column hKey
      iterate 6 obtain ⟨_, _, h⟩ := bind_eq_ok.mp h
      refine ih h fun id hId => ?_
      rw [Option.mem_some_iff] at hId
      exact hId ▸ inI64_of_parseKey (parsedColumn?_eq_some_iff.mp hKey)

theorem inI64_of_listDeleteTarget (h : listDeleteTarget entry = .ok id) : InI64 id := by
  obtain ⟨⟨target, seen⟩, hTombstones, h⟩ := bind_eq_ok.mp h
  obtain ⟨_, _, h⟩ := bind_eq_ok.mp h
  cases target with
  | none => cases h
  | some rowId =>
    cases h
    exact inI64_of_tombstones hTombstones (fun id hId => by cases hId) id rfl

end Reads

/-! ## Batches -/

/-- A new item with its place: the neighbours are ids, or `0` at an end. -/
structure NewItem where
  number : Int
  id : Int
  prev : Int
  next : Int
  value : Bytes

/-- The links from the neighbours, or from the ends of the list, to the new item. -/
def NewItem.links (x : NewItem) : Batch :=
  [ if x.prev = 0 then i64Put (listHeadKey x.number) x.id
    else storedI64Put (columnKey listsTable x.prev "next_id") x.id,
    if x.next = 0 then i64Put (listTailKey x.number) x.id
    else storedI64Put (columnKey listsTable x.next "prev_id") x.id ]

def NewItem.batch (x : NewItem) : Batch :=
  newRowPuts x.id x.number x.prev x.next x.value ++ x.links ++
    [ .put (indexKey listsTable "list_number" (.int x.number) x.id) (i64ToBeBytes x.id),
      nextIdPut listsTable (x.id + 1) ]

structure NewItem.Accepted (x : NewItem) (db : Db) : Prop where
  positive : 0 < x.number
  inI64 : InI64 x.number
  parent : ∃ cell, LiveParent db x.number cell
  id : x.id = db.nextId listsTable
  nonneg : 0 ≤ x.id
  next : InI64 (x.id + 1)

def deleteItemBatch (id number prev next : Int) : Batch :=
  listColumns.map (fun column => .delete (columnKey listsTable id column)) ++
    unlinkOps number prev next ++ [.delete (indexKey listsTable "list_number" (.int number) id)]

/-- What an accepted command has read, and the operations of its batch. -/
inductive ListEffect (db : Db) (batch : Batch) : ListCommand → Prop where
  | append (x : NewItem) (hx : x.Accepted db)
      (hTail : db.listEnd (listTailKey x.number) = some x.prev) (hNext : x.next = 0)
      (hBatch : ∀ op, op ∈ batch ↔ op ∈ x.batch) : ListEffect db batch (.append x.number x.value)
  | prepend (x : NewItem) (hx : x.Accepted db) (hPrev : x.prev = 0)
      (hHead : db.listEnd (listHeadKey x.number) = some x.next)
      (hBatch : ∀ op, op ∈ batch ↔ op ∈ x.batch) : ListEffect db batch (.insert x.number 0 x.value)
  | insert (x : NewItem) (hx : x.Accepted db) (hPrev : 0 < x.prev) (hIn : InI64 x.prev)
      (hNumber : db.listCell x.prev "list_number" = some x.number)
      (hNext : db.listCell x.prev "next_id" = some x.next)
      (hBatch : ∀ op, op ∈ batch ↔ op ∈ x.batch) :
      ListEffect db batch (.insert x.number x.prev x.value)
  | update (id number : Int) (value : Bytes) (hId : 0 < id) (hIn : InI64 id)
      (hNumber : db.listCell id "list_number" = some number) (hPositive : 0 < number)
      (hParent : ∃ cell, LiveParent db number cell)
      (hBatch : batch = [.put (columnKey listsTable id "value") value]) :
      ListEffect db batch (.update id value)
  | delete (id number prev next : Int) (hIn : InI64 id)
      (hNumber : db.listCell id "list_number" = some number) (hPositive : 0 < number)
      (hParent : ∃ cell, LiveParent db number cell)
      (hPrev : db.listCell id "prev_id" = some prev) (hNext : db.listCell id "next_id" = some next)
      (hBatch : batch = deleteItemBatch id number prev next) : ListEffect db batch (.delete id)

section Effects

variable {codec : RuleCodec} {db : Db} {opName : String} {entry : ChangelogEntry}

theorem newItem_fromDb : (newItem entry opName).Returns (FromDb codec db) fun number =>
    extractI64ColumnFromEntry entry listsTable "list_number" opName = .ok number ∧ 0 < number := by
  refine (returns_lift id).bind fun number hNumber => ?_
  exact returns_ensure.bind fun _ hPositive => returns_ret ⟨hNumber, hPositive⟩

theorem cellElement_i64ToValueBytes {i : Int} (h : InI64 i) :
    cellElement (i64ToValueBytes i) = some (.int i) :=
  cellElement_eq_int_iff.mpr (parseI64ColumnValue_i64ToValueBytes h)

theorem newItemTail_fromDb {number newId : Int} (hIn : InI64 number) :
    (newItemTail number newId opName).Returns (FromDb codec db) fun rest =>
      0 ≤ newId ∧ InI64 (newId + 1) ∧
      rest = [ .put (indexKey listsTable "list_number" (.int number) newId) (i64ToBeBytes newId),
        nextIdPut listsTable (newId + 1) ] := by
  have hPut : ∀ op, makeIndexPut listsTable "list_number" (i64ToValueBytes number) newId opName =
      .ok op → 0 ≤ newId ∧
        op = .put (indexKey listsTable "list_number" (.int number) newId) (i64ToBeBytes newId) := by
    intro op hOp
    obtain ⟨value, element, hValue, hElement, hNonneg, rfl⟩ := makeIndexPut_eq_ok.mp hOp
    have hCell := cellElement_eq_some_iff.mpr ⟨value, hValue, hElement⟩
    rw [cellElement_i64ToValueBytes hIn, Option.some.injEq] at hCell
    rw [hCell]
    exact ⟨hNonneg, rfl⟩
  refine (returns_skip fun _ => returns_lift (hPut _)).bind fun op hOp => ?_
  refine (returns_lift nextIdAfter_eq_ok.mp).bind fun next hNext => ?_
  obtain ⟨hNonneg, rfl⟩ := hOp
  obtain ⟨rfl, hRange⟩ := hNext
  exact returns_ret ⟨hNonneg, hRange, rfl⟩

theorem listAppendOp_effect (hType : entry.message.opType = .listAppend) :
    (listAppendOp entry).Returns (FromDb codec db) fun batch =>
      ∃ command, listCommand? entry = some command ∧ ListEffect db batch command := by
  iterate 2 refine returns_skip fun _ => ?_
  refine newItem_fromDb.bind fun number hNumber => ?_
  obtain ⟨hNumber, hPositive⟩ := hNumber
  have hIn := inI64_of_extractI64ColumnFromEntry hNumber
  refine resolveListParent_fromDb.bind fun ⟨table, rowId, column⟩ hParent => ?_
  refine returns_skip fun _ => ?_
  refine readNextId_fromDb.bind fun newId hId => ?_
  refine readI64Key_fromDb.bind fun tail hTail => ?_
  refine (returns_lift id).bind fun value hValue => ?_
  refine (newItemTail_fromDb hIn).bind fun rest hRest => returns_ret ?_
  obtain ⟨hNonneg, hRange, rfl⟩ := hRest
  let x : NewItem := { number := number, id := newId, prev := tail, next := 0, value := value }
  have hx : x.Accepted db := ⟨hPositive, hIn, ⟨_, hParent⟩, hId.1, hNonneg, hRange⟩
  refine ⟨.append number value, ?_, .append x hx hTail rfl fun op => ?_⟩
  · unfold listCommand?
    rw [hType]
    simp only [toOption_eq_some hNumber, toOption_eq_some hValue]
    rfl
  · unfold NewItem.batch NewItem.links
    by_cases hEmpty : tail = 0
    · simp [x, hEmpty]
    · simp [x, hEmpty]

theorem prependLinks_fromDb {number newId : Int} {value : Bytes} :
    (prependLinks number newId value opName).Returns (FromDb codec db) fun links =>
      ∃ head, db.listEnd (listHeadKey number) = some head ∧
        let x : NewItem :=
          { number := number, id := newId, prev := 0, next := head, value := value }
        ∀ op, op ∈ links ↔ op ∈ newRowPuts newId number 0 head value ++ x.links := by
  refine readI64Key_fromDb.bind fun head hHead => ?_
  refine returns_ite (fun hEmpty => returns_ret ⟨head, hHead, fun op => ?_⟩)
    fun hSome => returns_ret ⟨head, hHead, fun op => ?_⟩
  · simp [NewItem.links, hEmpty]
  · simp only [NewItem.links, hSome, if_true, if_false, List.mem_append, List.mem_cons,
      List.not_mem_nil, or_false]
    exact or_congr_right or_comm

theorem insertAfterLinks_fromDb {number newId predecessor : Int} {value : Bytes}
    (hPredecessor : predecessor ≠ 0) :
    (insertAfterLinks number newId predecessor value opName).Returns (FromDb codec db) fun links =>
      ∃ next, db.listCell predecessor "list_number" = some number ∧
        db.listCell predecessor "next_id" = some next ∧
        let x : NewItem :=
          { number := number, id := newId, prev := predecessor, next := next, value := value }
        ∀ op, op ∈ links ↔ op ∈ newRowPuts newId number predecessor next value ++ x.links := by
  refine readI64Column_fromDb.bind fun owner hOwner => ?_
  refine returns_ensure.bind fun _ hSame => ?_
  subst hSame
  refine readI64Column_fromDb.bind fun next hNext => ?_
  refine returns_ret ⟨next, hOwner, hNext, fun op => ?_⟩
  by_cases hEnd : next = 0
  · simp [NewItem.links, hPredecessor, hEnd]
  · simp [NewItem.links, hPredecessor, hEnd]

theorem listInsertOp_effect (hType : entry.message.opType = .listInsert) :
    (listInsertOp entry).Returns (FromDb codec db) fun batch =>
      ∃ command, listCommand? entry = some command ∧ ListEffect db batch command := by
  iterate 2 refine returns_skip fun _ => ?_
  refine newItem_fromDb.bind fun number hNumber => ?_
  obtain ⟨hNumber, hPositive⟩ := hNumber
  have hIn := inI64_of_extractI64ColumnFromEntry hNumber
  refine (returns_lift id).bind fun predecessor hPredecessor => ?_
  refine returns_ensure.bind fun _ hAtLeast => ?_
  refine resolveListParent_fromDb.bind fun ⟨table, rowId, column⟩ hParent => ?_
  refine returns_skip fun _ => ?_
  refine (returns_lift id).bind fun value hValue => ?_
  refine readNextId_fromDb.bind fun newId hId => ?_
  have hCommand : listCommand? entry = some (.insert number predecessor value) := by
    unfold listCommand?
    rw [hType]
    simp only [toOption_eq_some hNumber, toOption_eq_some hPredecessor, toOption_eq_some hValue]
    rfl
  unfold newItemLinks
  by_cases hFront : predecessor = 0
  · rw [if_pos hFront]
    refine prependLinks_fromDb.bind fun links hLinks => ?_
    obtain ⟨head, hHead, hLinks⟩ := hLinks
    refine (newItemTail_fromDb hIn).bind fun rest hRest => returns_ret ?_
    obtain ⟨hNonneg, hRange, rfl⟩ := hRest
    let x : NewItem := { number := number, id := newId, prev := 0, next := head, value := value }
    have hx : x.Accepted db := ⟨hPositive, hIn, ⟨_, hParent⟩, hId.1, hNonneg, hRange⟩
    refine ⟨_, hCommand, ?_⟩
    rw [hFront]
    refine .prepend x hx rfl hHead fun op => ?_
    rw [NewItem.batch, List.mem_append, List.mem_append (t := [_, _]), hLinks op]
  · rw [if_neg hFront]
    refine (insertAfterLinks_fromDb hFront).bind fun links hLinks => ?_
    obtain ⟨next, hOwner, hNext, hLinks⟩ := hLinks
    refine (newItemTail_fromDb hIn).bind fun rest hRest => returns_ret ?_
    obtain ⟨hNonneg, hRange, rfl⟩ := hRest
    let x : NewItem :=
      { number := number, id := newId, prev := predecessor, next := next, value := value }
    have hx : x.Accepted db := ⟨hPositive, hIn, ⟨_, hParent⟩, hId.1, hNonneg, hRange⟩
    have hPrev : 0 < x.prev := by
      show 0 < predecessor
      omega
    have hPrevIn : InI64 x.prev := inI64_of_extractI64ColumnFromEntry hPredecessor
    refine ⟨_, hCommand, .insert x hx hPrev hPrevIn hOwner hNext fun op => ?_⟩
    rw [NewItem.batch, List.mem_append, List.mem_append (t := [_, _]), hLinks op]

theorem listUpdateOp_effect (hType : entry.message.opType = .listUpdate) :
    (listUpdateOp entry).Returns (FromDb codec db) fun batch =>
      ∃ command, listCommand? entry = some command ∧ ListEffect db batch command := by
  refine returns_skip fun _ => ?_
  refine (returns_lift id).bind fun ⟨id, kv⟩ hTarget => ?_
  refine returns_ensure.bind fun _ hId => ?_
  refine readListNumber_fromDb.bind fun number hNumber => ?_
  refine resolveListParent_fromDb.bind fun ⟨table, rowId, column⟩ hParent => ?_
  refine returns_skip fun _ => returns_ret ?_
  have hIn := inI64_of_listUpdateTarget hTarget
  refine ⟨.update id kv.value, ?_,
    .update id number kv.value hId hIn hNumber.1 hNumber.2 ⟨_, hParent⟩ rfl⟩
  unfold listCommand?
  rw [hType]
  simp only [toOption_eq_some hTarget]
  rfl

theorem listDeleteOp_effect (hType : entry.message.opType = .listDelete) :
    (listDeleteOp entry).Returns (FromDb codec db) fun batch =>
      ∃ command, listCommand? entry = some command ∧ ListEffect db batch command := by
  refine returns_skip fun _ => ?_
  refine (returns_lift id).bind fun id hTarget => ?_
  refine readListNumber_fromDb.bind fun number hNumber => ?_
  refine resolveListParent_fromDb.bind fun ⟨table, rowId, column⟩ hParent => ?_
  refine returns_skip fun _ => ?_
  refine readI64Column_fromDb.bind fun prev hPrev => ?_
  refine readI64Column_fromDb.bind fun next hNext => ?_
  refine returns_skip fun _ => ?_
  have hDelete : ∀ op, makeIndexDelete listsTable "list_number" (i64ToValueBytes number) id
      "list_delete" = .ok op →
        op = .delete (indexKey listsTable "list_number" (.int number) id) := by
    intro op hOp
    obtain ⟨key, hKey, hOp⟩ := bind_eq_ok.mp hOp
    cases hOp
    obtain ⟨element, hElement, rfl⟩ := buildIndexKey_eq_ok_iff.mp hKey
    rw [cellElement_i64ToValueBytes (inI64_of_listCell hNumber.1), Option.some.injEq] at hElement
    rw [hElement]
  refine (returns_lift (hDelete _)).bind fun op hOp => returns_ret ?_
  subst hOp
  have hIn := inI64_of_listDeleteTarget hTarget
  refine ⟨.delete id, ?_,
    .delete id number prev next hIn hNumber.1 hNumber.2 ⟨_, hParent⟩ hPrev hNext rfl⟩
  unfold listCommand?
  rw [hType]
  simp only [toOption_eq_some hTarget]
  rfl

/-- Every accepted list entry is a command with its effect. -/
theorem listEffect_of_dispatch {n : Nat} {batch : Batch} (hStep : Accepts codec n db entry batch)
    (hList : IsListOp entry) :
    ∃ command, listCommand? entry = some command ∧ ListEffect db batch command := by
  obtain ⟨_, _, hOp⟩ := eval_bind_eq_ok.mp hStep
  unfold IsListOp at hList
  cases hType : entry.message.opType with
  | listAppend =>
    rw [hType] at hOp
    exact (listAppendOp_effect hType).of_ok hOp
  | listInsert =>
    rw [hType] at hOp
    exact (listInsertOp_effect hType).of_ok hOp
  | listUpdate =>
    rw [hType] at hOp
    exact (listUpdateOp_effect hType).of_ok hOp
  | listDelete =>
    rw [hType] at hOp
    exact (listDeleteOp_effect hType).of_ok hOp
  | _ =>
    rw [hType] at hList
    exact absurd hList (by decide)

/-- The list of an accepted command has a live parent. -/
theorem ListEffect.liveParent {batch : Batch} {command : ListCommand}
    (h : ListEffect db batch command) :
    ∃ number cell, command.number? db = some number ∧ 0 < number ∧ InI64 number ∧
      LiveParent db number cell := by
  cases h with
  | append x hx | prepend x hx | insert x hx =>
    obtain ⟨cell, hCell⟩ := hx.parent
    exact ⟨x.number, cell, rfl, hx.positive, hx.inI64, hCell⟩
  | update id number value _ _ hNumber hPositive hParent
  | delete id number prev next _ hNumber hPositive hParent =>
    obtain ⟨cell, hCell⟩ := hParent
    exact ⟨number, cell, hNumber, hPositive, inI64_of_listCell hNumber, hCell⟩

end Effects

end EncryptedSpaces.Ops
