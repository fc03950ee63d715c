import EncryptedSpaces.Ops.Dispatch

/-!
# The database as a sorted map

Tree contents, the reads of an operation on them, and runs of accepted entries
from the state that space initialisation leaves.  Initialisation creates the
internal tables first; the application's schema then adds keys of its own
tables and access-control rows, and touches nothing else.
-/

namespace EncryptedSpaces.Ops

open Encoding Changelog Lib

/-- Tree contents in key order. -/
abbrev Db := Std.ExtTreeMap Bytes Bytes compare

/-- `prefix_successor`: the exclusive end of a prefix scan; none if unbounded. -/
def prefixSuccessor (start : Bytes) : Option Bytes :=
  match (start.reverse.dropWhile (· = 0xFF)) with
  | [] => none
  | last :: rest => some ((last + 1) :: rest).reverse

/-- `collect_range`. -/
def Db.collectRange (db : Db) (start : Bytes) (stop : Option Bytes) : ReadResult :=
  db.toList.filter fun (key, _) => start ≤ key ∧ ∀ bound ∈ stop, key < bound

/-- The three kinds of reads. -/
def Db.read (db : Db) : ReadOp → ReadResult
  | .key key =>
    match db[key]? with
    | some value => [(key, value)]
    | none => []
  | .keyPrefix start => db.collectRange start (prefixSuccessor start)
  | .range start stop => db.collectRange start (some stop)

/-- A full tree answers every read. -/
def Db.reader (db : Db) : Reader := fun op => .ok (db.read op)

def Db.applyOp (db : Db) : BatchOp → Db
  | .put key value => db.insert key value
  | .delete key => db.erase key

/-- A batch applied in order: the last write of a key wins. -/
def Db.applyBatch (db : Db) (batch : Batch) : Db := batch.foldl Db.applyOp db

/-! ## Tables -/

/-- The part of a table schema that the verifiers read. -/
structure TableSchema where
  name : String
  columns : List String
  indexed : List String
  autoIncrement : Bool

/-- `internal_schemas.kdl`, without the `id` columns. -/
def internalSchemas : List TableSchema :=
  [ { name := "_users", columns := ["update_key", "auth_key", "status"], indexed := [],
      autoIncrement := true },
    { name := "_access_control", columns := ["resource_name", "operation", "rule_json"],
      indexed := ["resource_name"], autoIncrement := true },
    { name := "_key_history",
      columns := ["uid", "old_auth_key", "valid_from_change_id", "valid_to_change_id"],
      indexed := ["uid"], autoIncrement := true },
    { name := "_retention", columns := ["key", "value"], indexed := ["key"],
      autoIncrement := true },
    { name := "_lists", columns := ["list_number", "prev_id", "next_id", "value"],
      indexed := ["list_number"], autoIncrement := true } ]

/-- `encode_column_names`. -/
def encodeColumnNames (names : List String) : Bytes :=
  (List.intersperse [0x00] (names.map utf8)).flatten

/-- `create_table`, up to the schema document, which no verifier reads. -/
def Db.createTable (db : Db) (schema : TableSchema) : Db :=
  db.applyBatch
    ([ .put (schemaColumnsKey schema.name) (encodeColumnNames (btreeSet schema.columns)),
       .put (schemaIdModeKey schema.name) [if schema.autoIncrement then 0 else 1] ] ++
      if schema.indexed = [] then []
      else [.put (schemaIndexesKey schema.name) (encodeColumnNames (btreeSet schema.indexed))])

/-- The state after the internal tables are created. -/
def internalDb : Db := internalSchemas.foldl Db.createTable ∅

/-! ## Reachable states -/

/-- The keys that hold the schemas of the internal tables.  Table creation skips
a table that exists, so nothing writes them again. -/
def internalSchemaKeys : List Bytes :=
  internalSchemas.flatMap fun schema =>
    [ schemaKey schema.name, schemaColumnsKey schema.name, schemaIndexesKey schema.name,
      schemaListColumnsKey schema.name, schemaIdModeKey schema.name ]

/-- States that initialisation may leave.  A schema bundle adds tables, rules and
actions of the application and may seed rows of any table, internal ones
included. -/
inductive Bootstrapped : Db → Prop where
  | internal : Bootstrapped internalDb
  | write {db : Db} {key value : Bytes} (hDb : Bootstrapped db)
      (hKey : key ∉ internalSchemaKeys) : Bootstrapped (db.insert key value)

/-- The entry is accepted as the `n`-th change, with this batch of writes. -/
abbrev Accepts (codec : RuleCodec) (n : Nat) (db : Db) (entry : ChangelogEntry) (batch : Batch) :
    Prop :=
  (dispatchExtractAndValidate n entry).eval (plain codec db.reader) = .ok batch

/-- States after a number of accepted entries. -/
inductive Reachable (codec : RuleCodec) : Nat → Db → Prop where
  | init {db : Db} (hDb : Bootstrapped db) : Reachable codec 0 db
  | step {n : Nat} {db : Db} {entry : ChangelogEntry} {batch : Batch}
      (hDb : Reachable codec n db)
      (hStep :
        (dispatchExtractAndValidate (n + 1) entry).eval (plain codec db.reader) = .ok batch) :
      Reachable codec (n + 1) (db.applyBatch batch)

/-! ## Frame -/

@[simp] theorem Db.applyBatch_nil (db : Db) : db.applyBatch [] = db := rfl

@[simp] theorem Db.applyBatch_cons (db : Db) (op : BatchOp) (batch : Batch) :
    db.applyBatch (op :: batch) = (db.applyOp op).applyBatch batch := rfl

theorem Db.getElem?_applyOp_of_ne {db : Db} {op : BatchOp} {key : Bytes} (h : op.key ≠ key) :
    (db.applyOp op)[key]? = db[key]? := by
  cases op with
  | put key' value =>
    unfold Db.applyOp
    rw [Std.ExtTreeMap.getElem?_insert]
    simp [show key' ≠ key from h]
  | delete key' =>
    unfold Db.applyOp
    rw [Std.ExtTreeMap.getElem?_erase]
    simp [show key' ≠ key from h]

/-- A batch leaves every key alone that it does not name. -/
theorem Db.getElem?_applyBatch_of_ne {db : Db} {batch : Batch} {key : Bytes}
    (h : ∀ op ∈ batch, op.key ≠ key) : (db.applyBatch batch)[key]? = db[key]? := by
  induction batch generalizing db with
  | nil => rfl
  | cons op batch ih =>
    rw [List.forall_mem_cons] at h
    rw [Db.applyBatch_cons, ih h.2, Db.getElem?_applyOp_of_ne h.1]

/-- A key holds what a batch puts there, if all writes to the key agree. -/
theorem Db.getElem?_applyBatch_put {db : Db} {batch : Batch} {key value : Bytes}
    (hMem : .put key value ∈ batch) (hOnly : ∀ op ∈ batch, op.key = key → op = .put key value) :
    (db.applyBatch batch)[key]? = some value := by
  induction batch generalizing db with
  | nil => cases hMem
  | cons op batch ih =>
    rw [Db.applyBatch_cons]
    by_cases hLater : .put key value ∈ batch
    · exact ih hLater fun op' hOp' => hOnly op' (List.mem_cons_of_mem op hOp')
    · have hRest : ∀ op' ∈ batch, op'.key ≠ key := by
        intro op' hOp' hKey
        exact hLater (hOnly op' (List.mem_cons_of_mem op hOp') hKey ▸ hOp')
      obtain rfl : .put key value = op := (List.mem_cons.mp hMem).resolve_right hLater
      rw [Db.getElem?_applyBatch_of_ne hRest]
      exact Std.ExtTreeMap.getElem?_insert_self

end EncryptedSpaces.Ops
