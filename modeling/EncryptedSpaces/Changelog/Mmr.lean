import EncryptedSpaces.Changelog.Types

/-!
# The append-only Merkle log

The changelog commitment is a Merkle mountain range.  The writer keeps the roots
of its perfect subtrees, tallest first, and the number of leaves; the binary
digits of that number are the heights of the subtrees.  An append merges the new
leaf with one subtree per trailing one digit, and the root folds the subtrees
from the shortest to the tallest.

The hash function is a parameter.  Operations that the source asserts on return
`none` where the assertion fails.
-/

namespace EncryptedSpaces.Changelog

open Encoding

/-- `MAX_TREE_SIZE`. -/
def maxTreeSize : Nat := 2 ^ 32 - 1

/-- `MAX_INCLUSION_PROOF_SIBLINGS`. -/
def maxInclusionProofSiblings : Nat := 32

/-- The number of one digits among the last `width` binary digits. -/
def countOnes : Nat → Nat → Nat
  | 0, _ => 0
  | width + 1, n => n % 2 + countOnes width (n / 2)

/-- `peaks` are ordered from the tallest to the shortest. -/
structure MmrTree where
  peaks : List Digest
  treeSize : Nat
  deriving DecidableEq, Repr

structure TreeHead where
  root : Digest
  treeSize : Nat
  peaks : List Digest
  deriving DecidableEq, Repr

structure InclusionProof where
  i : Nat
  treeSize : Nat
  /-- From the leaf to the root. -/
  siblings : List Digest
  deriving DecidableEq, Repr

/-- `writer_state_is_well_formed`: one peak per one digit. -/
def MmrTree.WellFormed (tree : MmrTree) : Prop :=
  tree.peaks.length = countOnes 32 tree.treeSize

instance (tree : MmrTree) : Decidable tree.WellFormed := by
  unfold MmrTree.WellFormed
  infer_instance

section Hash

variable (H : Bytes → Digest)

def hLeaf (data : Bytes) : Digest := H (0x00 :: data)
def hNode (left right : Digest) : Digest := H (0x01 :: left ++ right)
def hInit (data : Bytes) : Digest := H (0x02 :: data)

/-- The merges of an append, on the peaks from the shortest on. -/
def mergePeaks : List Digest → Nat → Digest → Option (List Digest)
  | [], k, carry => if k % 2 = 1 then none else some [carry]
  | left :: peaks, k, carry =>
    if k % 2 = 1 then mergePeaks peaks (k / 2) (hNode H left carry)
    else some (carry :: left :: peaks)

def MmrTree.appendHash (tree : MmrTree) (leafHash : Digest) : Option MmrTree :=
  if tree.WellFormed ∧ tree.treeSize < maxTreeSize then do
    let peaks ← mergePeaks H tree.peaks.reverse tree.treeSize leafHash
    return { peaks := peaks.reverse, treeSize := tree.treeSize + 1 }
  else none

/-- `MmrTree::new` followed by the initial leaf. -/
def MmrTree.initialized (initialDc : Digest) : MmrTree :=
  { peaks := [hInit H initialDc], treeSize := 1 }

def MmrTree.append (tree : MmrTree) (entry : Bytes) : Option MmrTree :=
  if 0 < tree.treeSize then tree.appendHash H (hLeaf H entry) else none

/-- `fold_peaks`: shortest first. -/
def foldPeaks (peaks : List Digest) : Option Digest :=
  match peaks.reverse with
  | [] => none
  | shortest :: rest => some (rest.foldl (fun acc peak => hNode H peak acc) shortest)

def MmrTree.root (tree : MmrTree) : Option Digest :=
  if tree.WellFormed then foldPeaks H tree.peaks else none

def MmrTree.treeHead (tree : MmrTree) : Option TreeHead := do
  let root ← tree.root H
  return { root, treeSize := tree.treeSize, peaks := tree.peaks }

/-! ## Heads -/

/-- `tree_head_parts_are_well_formed`. -/
def TreeHead.isWellFormed (head : TreeHead) : Bool :=
  head.treeSize ≠ 0 ∧ head.peaks.length = countOnes 32 head.treeSize ∧
    foldPeaks H head.peaks = some head.root

def TreeHead.verifyForTreeSize (head : TreeHead) (expected : Nat) : Bool :=
  head.treeSize = expected ∧ head.isWellFormed H

/-- The initial leaf makes the size one more than the change id. -/
def TreeHead.verifyForChangeId (head : TreeHead) (changeId : Nat) : Bool :=
  changeId + 1 ≤ maxTreeSize ∧ head.verifyForTreeSize H (changeId + 1)

def TreeHead.toTree (head : TreeHead) : MmrTree :=
  { peaks := head.peaks, treeSize := head.treeSize }

/-- `TreeHead::try_append`; `none` where the source returns `false` and leaves
the head alone. -/
def TreeHead.tryAppend (head : TreeHead) (entry : Bytes) : Option TreeHead :=
  if head.isWellFormed H ∧ head.treeSize ≠ maxTreeSize then do
    let tree ← head.toTree.append H entry
    tree.treeHead H
  else none

/-- `initial_clc_state`: the head after the initial leaf. -/
def initialClcState (initialDc : Digest) : TreeHead :=
  { root := hInit H initialDc, treeSize := 1, peaks := [hInit H initialDc] }

/-! ## Inclusion proofs -/

/-- `largest_pow2_less_than`, for `2 ≤ n`. -/
def largestPow2LessThan (n : Nat) : Nat := 2 ^ Nat.log2 (n - 1)

/-- The descent of `proof_directions` to leaf `i` of the range; `true` goes
left. -/
def directionsFrom (i : Nat) : Nat → Nat → Nat → Option (List Bool)
  | 0, lo, hi => if hi - lo ≤ 1 then some [] else none
  | fuel + 1, lo, hi =>
    if hi - lo ≤ 1 then some []
    else
      let mid := lo + largestPow2LessThan (hi - lo)
      if i < mid then (directionsFrom i fuel lo mid).map (true :: ·)
      else (directionsFrom i fuel mid hi).map (false :: ·)

def proofDirections (treeSize i : Nat) : Option (List Bool) :=
  if treeSize = 0 ∨ treeSize ≤ i then none
  else directionsFrom i maxInclusionProofSiblings 0 treeSize

def verifyWithLeafHash (head : TreeHead) (proof : InclusionProof) (leafHash : Digest) : Bool :=
  if ¬ head.isWellFormed H then false
  else if proof.treeSize ≠ head.treeSize then false
  else if maxInclusionProofSiblings < proof.siblings.length then false
  else
    match proofDirections proof.treeSize proof.i with
    | none => false
    | some directions =>
      if directions.length ≠ proof.siblings.length then false
      else
        -- the deepest decision was made last
        let acc := (proof.siblings.zip directions.reverse).foldl
          (fun acc (sibling, onLeft) =>
            if onLeft then hNode H acc sibling else hNode H sibling acc) leafHash
        acc = head.root

end Hash

/-! ## Appends do not fail -/

variable {H : Bytes → Digest}

theorem mergePeaks_eq_some {width k : Nat} {peaks : List Digest} (carry : Digest)
    (hPeaks : peaks.length = countOnes width k) (hk : k + 1 < 2 ^ width) :
    ∃ peaks', mergePeaks H peaks k carry = some peaks' ∧
      peaks'.length = countOnes width (k + 1) := by
  induction width generalizing k peaks carry with
  | zero => omega
  | succ width ih =>
    rw [countOnes] at hPeaks ⊢
    rcases Nat.mod_two_eq_zero_or_one k with hEven | hOdd
    · -- no merge: the leaf is a peak of its own
      have hHalf : (k + 1) / 2 = k / 2 := by omega
      refine ⟨carry :: peaks, ?_, ?_⟩
      · cases peaks <;> simp [mergePeaks, hEven]
      · rw [List.length_cons, hPeaks, hHalf]
        omega
    · cases peaks with
      | nil =>
        rw [List.length_nil] at hPeaks
        omega
      | cons left peaks =>
        have hHalf : (k + 1) / 2 = k / 2 + 1 := by omega
        have hRest : peaks.length = countOnes width (k / 2) := by
          rw [List.length_cons] at hPeaks
          omega
        obtain ⟨peaks', hMerge, hLen⟩ := ih (hNode H left carry) hRest (by
          omega)
        refine ⟨peaks', ?_, ?_⟩
        · rw [mergePeaks, if_pos hOdd, hMerge]
        · rw [hLen, hHalf]
          omega

/-- On a well-formed tree below the size limit an append succeeds, adds one leaf
and keeps the tree well formed. -/
theorem MmrTree.appendHash_eq_some {tree : MmrTree} (hTree : tree.WellFormed)
    (hSize : tree.treeSize < maxTreeSize) (leafHash : Digest) :
    ∃ tree', tree.appendHash H leafHash = some tree' ∧ tree'.WellFormed ∧
      tree'.treeSize = tree.treeSize + 1 := by
  have hPeaks : tree.peaks.reverse.length = countOnes 32 tree.treeSize := by
    rw [List.length_reverse]
    exact hTree
  obtain ⟨peaks, hMerge, hLen⟩ := mergePeaks_eq_some (H := H) leafHash hPeaks (by
    unfold maxTreeSize at hSize
    omega)
  refine ⟨{ peaks := peaks.reverse, treeSize := tree.treeSize + 1 }, ?_, ?_, rfl⟩
  · rw [MmrTree.appendHash, if_pos ⟨hTree, hSize⟩, hMerge]
    rfl
  · unfold MmrTree.WellFormed
    rw [List.length_reverse, hLen]

/-- An append that succeeds keeps the tree well formed and adds one leaf. -/
theorem MmrTree.append_eq_some {tree tree' : MmrTree} {bytes : Bytes}
    (h : tree.append H bytes = some tree') :
    tree'.WellFormed ∧ tree'.treeSize = tree.treeSize + 1 ∧ tree.treeSize < maxTreeSize := by
  unfold MmrTree.append at h
  split at h
  · by_cases hFits : tree.WellFormed ∧ tree.treeSize < maxTreeSize
    · obtain ⟨tree'', hAppend, hWf, hSize⟩ :=
        MmrTree.appendHash_eq_some (H := H) hFits.1 hFits.2 (hLeaf H bytes)
      rw [hAppend, Option.some.injEq] at h
      subst h
      exact ⟨hWf, hSize, hFits.2⟩
    · unfold MmrTree.appendHash at h
      rw [if_neg hFits] at h
      cases h
  · cases h

theorem MmrTree.initialized_wellFormed (initialDc : Digest) :
    (MmrTree.initialized H initialDc).WellFormed := by
  change ([hInit H initialDc] : List Digest).length = countOnes 32 1
  rfl

theorem MmrTree.initialized_root (initialDc : Digest) :
    (MmrTree.initialized H initialDc).root H = some (hInit H initialDc) := by
  unfold MmrTree.root
  rw [if_pos (MmrTree.initialized_wellFormed initialDc)]
  rfl

theorem initialClcState_isWellFormed (initialDc : Digest) :
    (initialClcState H initialDc).isWellFormed H = true := by
  simp [TreeHead.isWellFormed, initialClcState, countOnes, foldPeaks]

end EncryptedSpaces.Changelog
