import EncryptedSpaces.Changelog.Checks
import EncryptedSpaces.Ops.Database
import EncryptedSpaces.Ops.KeyDerivation

/-!
# Replaying one change on a witness

A change travels with a pruned Merk tree that opens what the operation reads and
writes.  Merk itself is a library: it enters as the three operations a verifier
uses.  Reaching a pruned part makes the library panic, which the verifiers turn
into a failure; a tree whose last key is deleted is no tree any more.

`CompleteTrees` is what Merk documents for trees without pruned parts: they
answer reads and apply batches as the map of their contents does.  Two trees
with the same contents may differ in shape and so in their hash, which is why the
hash is not a function of the contents.
-/

namespace EncryptedSpaces.FastForward

open Encoding Changelog Lib Ops Lib.Except

/-- Merk trees `T`, pruned or not. -/
structure MerkOps (T : Type) where
  read : T → Reader
  /-- The error is a panic on a pruned part; `none` is the empty tree. -/
  applyBatch : T → Batch → Except ChangelogError (Option T)
  /-- The root hash after a commit. -/
  hash : T → Digest

/-- A batch applied to a complete tree. -/
structure AppliedTo {T : Type} (contents : T → Db) (db : Db) (after : Option T) : Prop where
  empty : after = none → db = ∅
  contents : ∀ tree ∈ after, contents tree = db

/-- Trees without pruned parts, seen through their contents. -/
structure CompleteTrees {T : Type} (M : MerkOps T) (contents : T → Db) : Prop where
  read : ∀ tree, M.read tree = (contents tree).reader
  applyBatch : ∀ tree batch, ∃ after, M.applyBatch tree batch = .ok after ∧
    AppliedTo contents ((contents tree).applyBatch batch) after

theorem CompleteTrees.contents_eq {T : Type} {M : MerkOps T} {contents : T → Db} {tree tree' : T}
    {batch : Batch} (hM : CompleteTrees M contents)
    (h : M.applyBatch tree batch = .ok (some tree')) :
    contents tree' = (contents tree).applyBatch batch := by
  obtain ⟨after, hAfter, hApplied⟩ := hM.applyBatch tree batch
  rw [h, Except.ok.injEq] at hAfter
  exact hApplied.contents tree' hAfter.symm

/-- The map itself as a tree, with any hash of its contents. -/
def mapTrees (hash : Db → Digest) : MerkOps Db where
  read := Db.reader
  applyBatch db batch :=
    .ok (if (db.applyBatch batch).isEmpty then none else some (db.applyBatch batch))
  hash := hash

theorem mapTrees_complete (hash : Db → Digest) : CompleteTrees (mapTrees hash) id := by
  refine ⟨fun _ => rfl, fun db batch => ⟨_, rfl, ?_⟩⟩
  split_ifs with hEmpty
  · exact ⟨fun _ => Std.ExtTreeMap.isEmpty_iff.mp hEmpty, fun tree hTree => by cases hTree⟩
  · exact ⟨(fun hNone => by cases hNone), fun tree hTree => (Option.some.inj hTree).symm⟩

/-- The bytes of a witness, as far as they decode. -/
inductive Witness (T : Type) where
  /-- No bytes at all. -/
  | absent
  /-- Bytes that are no pruned tree. -/
  | malformed
  /-- The encoding of the empty tree. -/
  | hollow
  | pruned (tree : T)

/-- `postcard::from_bytes::<PrunedMerkleTree>`. -/
def Witness.decode {T : Type} : Witness T → Except ChangelogError (Option T)
  | .absent | .malformed =>
    .error (.generic "verify_proof: pruned tree proof deserialize failed")
  | .hollow => .ok none
  | .pruned tree => .ok (some tree)

section Verify

variable {T : Type} (M : MerkOps T) (codec : RuleCodec)

/-- The hash of what a batch leaves; zeros for the empty tree. -/
def MerkOps.endRoot : Option T → Digest
  | some tree => M.hash tree
  | none => List.replicate 32 0

def requireTree : Option T → Except ChangelogError T
  | some tree => .ok tree
  | none => .error (.generic "verify_proof: pruned tree witness is empty")

/-- `ChangeLog::verify_proof_and_validate`: the writes of the change. -/
def verifyProofAndValidate (change : ChangelogEntry) (prunedMerkleTree : Witness T)
    (oldRoot newRoot : Digest) (currentChangeId : Nat) : Except ChangelogError Batch := do
  let prunedTree ← prunedMerkleTree.decode
  check (validateParentChange change.parentChange currentChangeId)
    (.generic (s!"verify_proof: invalid parent_change={change.parentChange} " ++
      s!"for current_change_id={currentChangeId}"))
  let tree ← requireTree prunedTree
  check (M.hash tree = oldRoot) (.generic "verify_proof: start root mismatch")
  let writes ← (dispatchExtractAndValidate currentChangeId change).eval (plain codec (M.read tree))
  let after ← M.applyBatch tree writes
  check (M.endRoot after = newRoot) (.generic "verify_proof: end root mismatch")
  return writes

variable {M codec}

/-- Everything an accepted change went through. -/
structure VerifiedChange (M : MerkOps T) (codec : RuleCodec) (change : ChangelogEntry)
    (tree : T) (oldRoot newRoot : Digest) (currentChangeId : Nat) (writes : Batch)
    (after : Option T) : Prop where
  parentChange : validateParentChange change.parentChange currentChangeId = true
  oldRoot : M.hash tree = oldRoot
  dispatch :
    (dispatchExtractAndValidate currentChangeId change).eval (plain codec (M.read tree)) =
      .ok writes
  applyBatch : M.applyBatch tree writes = .ok after
  newRoot : M.endRoot after = newRoot

theorem verifyProofAndValidate_eq_ok {change : ChangelogEntry} {witness : Witness T}
    {oldRoot newRoot : Digest} {currentChangeId : Nat} {writes : Batch} :
    verifyProofAndValidate M codec change witness oldRoot newRoot currentChangeId = .ok writes ↔
      ∃ tree after, witness = .pruned tree ∧
        VerifiedChange M codec change tree oldRoot newRoot currentChangeId writes after := by
  constructor
  · intro h
    obtain ⟨pruned, hDecode, h⟩ := bind_eq_ok.mp h
    obtain ⟨_, hParent, h⟩ := bind_eq_ok.mp h
    obtain ⟨tree, hTree, h⟩ := bind_eq_ok.mp h
    obtain ⟨_, hOld, h⟩ := bind_eq_ok.mp h
    obtain ⟨writes', hDispatch, h⟩ := bind_eq_ok.mp h
    obtain ⟨after, hApply, h⟩ := bind_eq_ok.mp h
    obtain ⟨_, hNew, h⟩ := bind_eq_ok.mp h
    obtain rfl : writes' = writes := pure_eq_ok.mp h
    have hWitness : witness = .pruned tree := by
      cases witness with
      | absent => cases hDecode
      | malformed => cases hDecode
      | hollow =>
        cases hDecode
        cases hTree
      | pruned t =>
        cases hDecode
        cases hTree
        rfl
    exact ⟨tree, after, hWitness, check_eq_ok.mp hParent, check_eq_ok.mp hOld, hDispatch, hApply,
      check_eq_ok.mp hNew⟩
  · rintro ⟨tree, after, rfl, h⟩
    refine bind_eq_ok.mpr ⟨some tree, rfl, ?_⟩
    refine bind_eq_ok.mpr ⟨(), check_eq_ok.mpr h.parentChange, ?_⟩
    refine bind_eq_ok.mpr ⟨tree, rfl, ?_⟩
    refine bind_eq_ok.mpr ⟨(), check_eq_ok.mpr h.oldRoot, ?_⟩
    refine bind_eq_ok.mpr ⟨writes, h.dispatch, ?_⟩
    refine bind_eq_ok.mpr ⟨after, h.applyBatch, ?_⟩
    exact bind_eq_ok.mpr ⟨(), check_eq_ok.mpr h.newRoot, rfl⟩

end Verify

end EncryptedSpaces.FastForward
