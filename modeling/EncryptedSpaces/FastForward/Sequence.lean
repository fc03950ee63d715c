import EncryptedSpaces.Changelog.EntryBytes
import EncryptedSpaces.Changelog.Mmr
import EncryptedSpaces.FastForward.Witness

/-!
# Replaying a sequence of changes

The verifier that runs inside the zkVM.  It replays a chunk of the log on one
witness tree and threads what the next chunk needs: the signature chain of every
user, the last roots of the log and the timestamp high-water mark.  A failed check
and a failed assertion are both `none`.

`checkEntry` holds the checks that read the threaded state only; `verifyEntry`
adds the operation itself.
-/

namespace EncryptedSpaces.FastForward

open Encoding Changelog Lib Ops

/-- What a proof states about a range of changes. -/
structure FastForwardRange where
  startClcState : TreeHead
  endClcState : TreeHead
  startDc : Digest
  endDc : Digest
  endChangeId : Nat
  sigrefMap : SigrefMap
  recentRoots : List (Nat × Digest)
  timestampHwm : Nat

/-- What `verify_ff` returns of a proof. -/
structure VerifiedFfOutput where
  startClcState : TreeHead
  endClcState : TreeHead
  startDc : Digest
  endDc : Digest
  endChangeId : Nat
  sigrefMap : SigrefMap
  timestampHwm : Nat

/-- What is threaded from entry to entry and from chunk to chunk. -/
structure Threaded where
  sigrefMap : SigrefMap
  recentRoots : List (Nat × Digest)
  timestampHwm : Nat

/-- The state before the first chunk. -/
def Threaded.initial : Threaded := { sigrefMap := ∅, recentRoots := [], timestampHwm := 0 }

/-- The checks of an entry against the threaded state. -/
def checkEntry (currentChangeId : Nat) (entry : ChangelogEntry) (leafHash : Digest)
    (st : Threaded) : Option Threaded := do
  let timestampHwm ← validateTimestampHwm entry.timestamp st.timestampHwm
  let sigrefMap ← validateSigref st.sigrefMap entry.uid entry.sigRef currentChangeId leafHash
  guard (validateParentChange entry.parentChange currentChangeId)
  guard (validateParentClc entry.parentChange entry.parentClc st.recentRoots)
  return { st with sigrefMap, timestampHwm }

/-- Push the root after an append and keep the last `MAX_PARENT_DISTANCE`. -/
def pushRoot (roots : List (Nat × Digest)) (changeId : Nat) (root : Digest) :
    List (Nat × Digest) :=
  let pushed := roots ++ [(changeId, root)]
  pushed.drop (pushed.length - maxParentDistance)

/-- The verifier between two entries. -/
structure SequenceState (T : Type) where
  tree : T
  workingTree : MmrTree
  staticCache : Cache
  threaded : Threaded

section Sequence

variable (H : Bytes → Digest) {T : Type} (M : MerkOps T) (codec : RuleCodec)

/-- `OpContext::finish_change`. -/
def finishChange (opType : OpType) (cache : Cache) : Cache :=
  if cacheInvalidatedBy opType then Cache.empty else cache

/-- The operation of an entry: the tree after it and the cache it leaves. -/
def replayOp (currentChangeId : Nat) (entry : ChangelogEntry) (tree : T) (cache : Cache) :
    Option (T × Cache) := do
  let (writes, cache) ← ((dispatchExtractAndValidate currentChangeId entry).run
    (cached codec (M.read tree)) cache).toOption
  let after ← (M.applyBatch tree writes).toOption
  let tree ← after
  return (tree, finishChange entry.message.opType cache)

/-- One round of the loop of `verify_op_sequence_with_tree`. -/
def verifyEntry (currentChangeId : Nat) (bytes : Bytes) (st : SequenceState T) :
    Option (SequenceState T) := do
  let workingTree ← st.workingTree.append H bytes
  let entry ← (fromBytesForVerification bytes).toOption
  let threaded ← checkEntry currentChangeId entry (hLeaf H bytes) st.threaded
  let (tree, staticCache) ← replayOp M codec currentChangeId entry st.tree st.staticCache
  let root ← workingTree.root H
  return {
    tree, workingTree, staticCache,
    threaded :=
      { threaded with recentRoots := pushRoot threaded.recentRoots currentChangeId root } }

/-- The loop, from the change after `changeId` on. -/
def verifyEntries : Nat → List Bytes → SequenceState T → Option (SequenceState T)
  | _, [], st => some st
  | changeId, bytes :: rest, st => do
      let st ← verifyEntry H M codec (changeId + 1) bytes st
      verifyEntries (changeId + 1) rest st

/-- The window must end with the head the range starts from; a first chunk seeds
it. -/
def seedRecentRoots (startChangeId : Nat) (startRoot : Digest) (roots : List (Nat × Digest)) :
    Option (List (Nat × Digest)) :=
  match roots.getLast? with
  | some (lastCid, lastRoot) =>
    if lastCid = startChangeId ∧ lastRoot = startRoot then some roots else none
  | none => if startChangeId = 0 then some [(0, startRoot)] else none

/-- The checks before the loop, on the range and the number of entries. -/
def rangeFits (range : FastForwardRange) (chunkLen startChangeId : Nat) : Bool :=
  range.startClcState.verifyForChangeId H startChangeId ∧
    (startChangeId = 0 → range.startClcState = initialClcState H range.startDc) ∧
    (0 < range.endChangeId ∧ 0 < chunkLen ∧ range.endChangeId ≤ chunkLen) ∧
    range.startClcState.treeSize + chunkLen ≤ maxTreeSize ∧
    range.endClcState.verifyForTreeSize H (range.startClcState.treeSize + chunkLen)

/-- `verify_op_sequence_with_tree`; the threaded state is what it leaves in its
three mutable arguments. -/
def verifyOpSequence (entries : List Bytes) (range : FastForwardRange) (tree : T)
    (startChangeId : Nat) (st : Threaded) : Option Threaded := do
  guard (rangeFits H range entries.length startChangeId)
  let recentRoots ← seedRecentRoots startChangeId range.startClcState.root st.recentRoots
  guard (M.hash tree = range.startDc)
  let out ← verifyEntries H M codec startChangeId (entries.take range.endChangeId)
    { tree, workingTree := range.startClcState.toTree, staticCache := Cache.empty,
      threaded := { st with recentRoots } }
  guard (M.hash out.tree = range.endDc)
  guard (out.workingTree.treeHead H = some range.endClcState)
  return out.threaded

/-! ## The chain without the operations -/

/-- What a round checks about the chain: the log, the bytes of the entry and the
threaded state. -/
def checkChainEntry (currentChangeId : Nat) (bytes : Bytes) (st : MmrTree × Threaded) :
    Option (MmrTree × Threaded) := do
  let workingTree ← st.1.append H bytes
  let entry ← (fromBytesForVerification bytes).toOption
  let threaded ← checkEntry currentChangeId entry (hLeaf H bytes) st.2
  let root ← workingTree.root H
  return (workingTree,
    { threaded with recentRoots := pushRoot threaded.recentRoots currentChangeId root })

/-- The chain after `changeId`. -/
def checkChain : Nat → List Bytes → MmrTree × Threaded → Option (MmrTree × Threaded)
  | _, [], st => some st
  | changeId, bytes :: rest, st => do
      let st ← checkChainEntry H (changeId + 1) bytes st
      checkChain (changeId + 1) rest st

variable {H M codec}

end Sequence

end EncryptedSpaces.FastForward
