import EncryptedSpaces.Changelog.OpType
import EncryptedSpaces.Encoding.Tuple
import Mathlib.Data.List.Sort

/-!
# Changelog entries

The signed change record and the reads and writes an operation verifier
exchanges with the tree.  Sizes of `u32` and `u64` fields are kept by the
operations that create them; the fields themselves are naturals.
-/

namespace EncryptedSpaces.Changelog

open Encoding

/-- A 32-byte digest. -/
abbrev Digest := Bytes

/-- `MAX_LOGMSG_ENTRIES`. -/
def maxLogmsgEntries : Nat := 128

/-- `MAX_PARENT_DISTANCE`. -/
def maxParentDistance : Nat := 10

structure KvData where
  key : Bytes
  value : Bytes
  deriving DecidableEq, Repr

structure LogMessage where
  opType : OpType
  treePath : Bytes
  entries : List KvData
  deriving DecidableEq, Repr

structure ChangelogEntry where
  timestamp : Nat
  uid : Nat
  parentChange : Nat
  message : LogMessage
  sigRef : Nat
  parentClc : Digest
  signature : Bytes
  deriving DecidableEq, Repr

/-- `ChangelogError`.  An assertion of the source that fails aborts the
verification; it is the extra case `aborted`. -/
inductive ChangelogError where
  | generic (msg : String)
  | keyMismatch (msg : String)
  | aclDenied (msg : String)
  | aborted (msg : String)
  deriving DecidableEq, Repr

/-- A write of a verified batch. -/
inductive BatchOp where
  | put (key value : Bytes)
  | delete (key : Bytes)
  deriving DecidableEq, Repr

def BatchOp.key : BatchOp → Bytes
  | .put key _ => key
  | .delete key => key

@[simp] theorem BatchOp.key_put (key value : Bytes) : (BatchOp.put key value).key = key := rfl

@[simp] theorem BatchOp.key_delete (key : Bytes) : (BatchOp.delete key).key = key := rfl

/-- The writes of one operation, in order. -/
abbrev Batch := List BatchOp

/-- `KvData::to_batch_op`. -/
def KvData.toBatchOp (kv : KvData) (key : Bytes) : BatchOp := .put key kv.value

/-- `batch_ops.sort_by(|a, b| a.key().cmp(b.key()))`, a stable sort. -/
def sortBatch (batch : Batch) : Batch := batch.insertionSort (fun a b => a.key ≤ b.key)

@[simp] theorem mem_sortBatch {batch : Batch} {op : BatchOp} : op ∈ sortBatch batch ↔ op ∈ batch :=
  (List.perm_insertionSort _ _).mem_iff

/-- The sort is stable: the operations on one key keep their order. -/
theorem filter_sortBatch (batch : Batch) (key : Bytes) :
    (sortBatch batch).filter (fun op => decide (op.key = key)) =
      batch.filter fun op => decide (op.key = key) := by
  have hRelated : (batch.filter fun op => decide (op.key = key)).Pairwise
      fun a b => a.key ≤ b.key := by
    refine List.pairwise_of_forall_mem_list fun a ha b hb => ?_
    rw [of_decide_eq_true (List.mem_filter.mp ha).2, of_decide_eq_true (List.mem_filter.mp hb).2]
    exact List.le_refl key
  have hSub : (batch.filter fun op => decide (op.key = key)).Sublist (sortBatch batch) :=
    List.sublist_insertionSort hRelated List.filter_sublist
  have hFilter : (batch.filter fun op => decide (op.key = key)).Sublist
      ((sortBatch batch).filter fun op => decide (op.key = key)) := by
    simpa only [List.filter_filter, Bool.and_self] using hSub.filter fun op => decide (op.key = key)
  have hLength := ((List.perm_insertionSort (fun a b : BatchOp => a.key ≤ b.key) batch).filter
    fun op => decide (op.key = key)).length_eq
  exact (hFilter.eq_of_length hLength.symm).symm

inductive ReadOp where
  | key (key : Bytes)
  | keyPrefix (start : Bytes)
  | range (start stop : Bytes)
  deriving DecidableEq, Repr

/-- Key-value pairs found by a read; none means proven absence. -/
abbrev ReadResult := List (Bytes × Bytes)

end EncryptedSpaces.Changelog
