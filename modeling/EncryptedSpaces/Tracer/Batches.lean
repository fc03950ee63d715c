import EncryptedSpaces.Ops.BatchEffect

/-!
# Batches on a traced tree

The tracer and the server remove all but the last operation on each key and hand merk a
sorted batch.  Merk is a map here.  A node of merk holds a key, so the empty map has no
node.  The variant of the tracer for the zkVM changes a node in place and returns it; it
returns before that when there is no node.
-/

namespace EncryptedSpaces.Tracer

open Encoding Changelog Ops Lib TreeMaps

/-- The root node of a tree of merk, by the pairs under it. -/
structure Node where
  db : Db
  holdsKey : db.isEmpty = false

/-- The pairs of a tree; no tree has none. -/
def contents : Option Node → Db
  | none => ∅
  | some node => node.db

/-- The tree of a map.  A tree that has lost its last key is gone. -/
def treeOf (db : Db) : Option Node :=
  if h : db.isEmpty = false then some ⟨db, h⟩ else none

/-- A sorted batch with every key once. -/
def merkApply (tree : Option Node) (batch : Batch) : Option Node :=
  treeOf ((contents tree).applyBatch batch)

/-- `Walker::apply_in_place`, with `none` for a panic of its `expect`.  Where the batch
leaves a key, the node becomes the tree of what is left.  Nothing is said of a batch that
leaves no key: no node stands for that. -/
structure InPlace where
  apply : Node → Batch → Option Node
  apply_eq : ∀ node batch after, merkApply (some node) batch = some after →
    apply node batch = some after

/-- `deduped`, by a `BTreeMap`. -/
def deduped (ops : Batch) : Batch :=
  (insertAll ∅ (ops.map fun op => (op.key, op)) : Std.ExtTreeMap Bytes BatchOp).toList.map Prod.snd

/-- `apply_batch` on the host. -/
def applyBatchHost (tree : Option Node) (ops : Batch) : Option Node :=
  if deduped ops = [] then tree else merkApply tree (deduped ops)

/-- `apply_batch` in the zkVM, with `none` for a panic. -/
def applyBatchZkvm (walker : InPlace) (tree : Option Node) (ops : Batch) : Option (Option Node) :=
  if deduped ops = [] then some tree
  else match tree with
    | none => some none
    | some node => (walker.apply node (deduped ops)).map some

/-- The loop with `seen`. -/
def unseen (seen : List Bytes) : Batch → Batch
  | [] => []
  | op :: ops =>
    if op.key ∈ seen then unseen seen ops else op :: unseen (op.key :: seen) ops

/-- `MerkStorage::apply_batch`. -/
def applyBatchStorage (tree : Option Node) (ops : Batch) : Option Node :=
  if ops = [] then tree else merkApply tree (unseen [] (sortBatch ops).reverse).reverse

variable {ops : Batch} {key : Bytes}

/-- Batches that leave the same under every key are the same write. -/
theorem applyBatch_congr {db : Db} {batch batch' : Batch}
    (h : ∀ key, written batch key = written batch' key) :
    db.applyBatch batch = db.applyBatch batch' := by
  apply Std.ExtTreeMap.ext_getElem?
  intro key
  rw [Db.getElem?_applyBatch, Db.getElem?_applyBatch, h]

theorem written_unseen (seen : List Bytes) (ops : Batch) :
    written (unseen seen ops).reverse key =
      if key ∈ seen then none else written ops.reverse key := by
  induction ops generalizing seen with
  | nil => simp [unseen]
  | cons op ops ih =>
    unfold unseen
    rw [List.reverse_cons, written_append, written_cons]
    by_cases hSeen : op.key ∈ seen
    · rw [if_pos hSeen, ih]
      by_cases hKey : op.key = key
      · simp [← hKey, hSeen]
      · simp [hKey]
    · rw [if_neg hSeen, List.reverse_cons, written_append, written_cons, ih]
      by_cases hKey : op.key = key
      · simp [← hKey, hSeen]
      · simp [hKey, Ne.symm hKey]

/-- A map of the operations by key has the last operation of each. -/
theorem written_deduped : written (deduped ops) key = written ops key := by
  have hWritten : ∀ ops : Batch, written ops key =
      (WriteLog.lookup (ops.map fun op => (op.key, op)) key).map fun op =>
        (BatchOp.write op).2 := by
    intro ops
    rw [← WriteLog.lookup_map fun op => (BatchOp.write op).2, List.map_map]
    unfold written
    congr 1
    refine List.map_congr_left fun op _ => ?_
    rw [Function.comp_apply, ← BatchOp.write_fst]
  have hKeys : (deduped ops).map (fun op => (op.key, op)) =
      (insertAll ∅ (ops.map fun op => (op.key, op)) : Std.ExtTreeMap Bytes BatchOp).toList := by
    unfold deduped
    rw [List.map_map]
    refine (List.map_congr_left fun entry hEntry => ?_).trans (List.map_id _)
    rw [Std.ExtTreeMap.mem_toList_iff_getElem?_eq_some, getElem?_insertAll,
      Std.ExtTreeMap.getElem?_empty, Option.or_none] at hEntry
    obtain ⟨op, _, hOp⟩ := List.mem_map.mp (WriteLog.mem_of_lookup_eq_some hEntry)
    obtain ⟨hKey, rfl⟩ := Prod.mk.inj hOp
    exact Prod.ext hKey rfl
  rw [hWritten, hWritten, hKeys, lookup_toList, getElem?_insertAll, Std.ExtTreeMap.getElem?_empty,
    Option.or_none]

theorem contents_treeOf (db : Db) : contents (treeOf db) = db := by
  unfold treeOf
  split
  · rfl
  · rename_i hEmpty
    exact (Std.ExtTreeMap.isEmpty_iff.mp (Bool.eq_true_of_not_eq_false hEmpty)).symm

theorem contents_ne_empty (node : Node) : contents (some node) ≠ ∅ := by
  intro hEmpty
  have hIs := Std.ExtTreeMap.isEmpty_iff.mpr hEmpty
  rw [show contents (some node) = node.db from rfl, node.holdsKey] at hIs
  exact Bool.noConfusion hIs

theorem applyBatch_deduped (db : Db) : db.applyBatch (deduped ops) = db.applyBatch ops :=
  applyBatch_congr fun _ => written_deduped

theorem applyBatch_of_deduped_nil (h : deduped ops = []) (db : Db) : db.applyBatch ops = db := by
  rw [← applyBatch_deduped, h, Db.applyBatch_nil]

theorem contents_applyBatchHost (tree : Option Node) (ops : Batch) :
    contents (applyBatchHost tree ops) = (contents tree).applyBatch ops := by
  unfold applyBatchHost
  split
  · rename_i hNil
    rw [applyBatch_of_deduped_nil hNil]
  · rw [merkApply, contents_treeOf, applyBatch_deduped]

theorem contents_applyBatchStorage (tree : Option Node) (ops : Batch) :
    contents (applyBatchStorage tree ops) = (contents tree).applyBatch ops := by
  unfold applyBatchStorage
  split
  · rename_i hNil
    rw [hNil, Db.applyBatch_nil]
  · rw [merkApply, contents_treeOf]
    refine applyBatch_congr fun key => ?_
    rw [written_unseen, if_neg List.not_mem_nil, List.reverse_reverse, written_sortBatch]

/-- In place, a node ends with what the operations leave, unless they leave nothing. -/
theorem contents_applyBatchZkvm (walker : InPlace) (node : Node) (ops : Batch) :
    (applyBatchZkvm walker (some node) ops).map contents = some (node.db.applyBatch ops) ↔
      node.db.applyBatch ops ≠ ∅ := by
  unfold applyBatchZkvm
  split
  · rename_i hNil
    rw [applyBatch_of_deduped_nil hNil]
    exact iff_of_true rfl (contents_ne_empty node)
  · have hContents : contents (merkApply (some node) (deduped ops)) = node.db.applyBatch ops := by
      rw [merkApply, contents_treeOf, applyBatch_deduped]
      rfl
    dsimp only
    cases hTree : merkApply (some node) (deduped ops) with
    | none =>
      rw [hTree] at hContents
      rw [← hContents]
      refine iff_of_false (fun h => ?_) (fun h => h rfl)
      cases hApply : walker.apply node (deduped ops) with
      | none =>
        rw [hApply] at h
        exact nomatch h
      | some after =>
        rw [hApply] at h
        exact contents_ne_empty after (Option.some.inj h)
    | some after =>
      rw [hTree] at hContents
      rw [walker.apply_eq node _ after hTree, ← hContents]
      exact iff_of_true rfl (contents_ne_empty after)

/-- Host, zkVM and server leave what the operations leave one by one, if and only if
something is left exactly when there is a tree. -/
theorem applyBatch_agree_iff (walker : InPlace) (tree : Option Node) (ops : Batch) :
    (contents (applyBatchHost tree ops) = (contents tree).applyBatch ops ∧
      (applyBatchZkvm walker tree ops).map contents = some ((contents tree).applyBatch ops) ∧
      contents (applyBatchStorage tree ops) = (contents tree).applyBatch ops) ↔
    (tree = none ↔ (contents tree).applyBatch ops = ∅) := by
  have hZkvm : (applyBatchZkvm walker tree ops).map contents =
      some ((contents tree).applyBatch ops) ↔
      (tree = none ↔ (contents tree).applyBatch ops = ∅) := by
    cases tree with
    | none =>
      rw [applyBatchZkvm, ite_self, Option.map_some, Option.some_inj, eq_comm, iff_true_left rfl]
      rfl
    | some node =>
      rw [iff_false_left (nofun : some node ≠ none)]
      exact contents_applyBatchZkvm walker node ops
  rw [← hZkvm]
  exact ⟨fun h => h.2.1, fun h =>
    ⟨contents_applyBatchHost tree ops, h, contents_applyBatchStorage tree ops⟩⟩

/-- A walker that gives up on a batch that leaves nothing. -/
def plainWalker : InPlace where
  apply node batch := merkApply (some node) batch
  apply_eq _ _ _ h := h

/-- An overwrite, a key put twice and a delete of an absent key, on a tree with two keys. -/
theorem applyBatch_agree_on_two_keys :
    let tree := treeOf (Db.applyBatch ∅ [.put [1] [2], .put [3] [4]])
    let ops : Batch := [.put [1] [5], .delete [7], .put [1] [6], .delete [3]]
    (applyBatchZkvm plainWalker tree ops).map contents = some ((contents tree).applyBatch ops) ∧
      ((contents tree).applyBatch ops)[([1] : Bytes)]? = some [6] :=
  ⟨((applyBatch_agree_iff plainWalker _ _).mpr (by decide)).2.1, by decide⟩

/-- A put into the empty tree is lost in the zkVM. -/
theorem put_into_no_tree :
    (∀ walker : InPlace, (applyBatchZkvm walker none [.put [1] [2]]).map contents = some ∅) ∧
      contents (applyBatchHost none [.put [1] [2]]) = (contents none).applyBatch [.put [1] [2]] ∧
      (contents none).applyBatch [.put [1] [2]] ≠ ∅ :=
  ⟨fun _ => rfl, by decide, by decide⟩

end EncryptedSpaces.Tracer
