import EncryptedSpaces.Retention.Store

/-!
# The SimpleLine2 space key: chain reconstruction, resolution and mutation

The functions of `space_key.rs` over an arbitrary `KeySuite`.  Loops over
ordinals are recursions on the ordinal, key material drawn at random is an
argument, and a `u64` increment that would overflow fails the operation.
-/

namespace EncryptedSpaces.Retention

open Lib Crypto

/-- `+ 1` on a `u64` counter. -/
def checkedSucc (n : Nat) : Option Nat :=
  if n + 1 < 2 ^ 64 then some (n + 1) else none

/-! ## Proof inputs -/

structure ExtendProofInput (K C : Type) where
  currentDCommitment : C
  nextRow : DTableRow C
  currentDKey : K
  nextDKey : K

structure ExtendVerifyInput (C : Type) where
  currentDCommitment : C
  nextRow : DTableRow C

structure RekeyProofInput (K C E : Type) where
  oldHgkCommitment : C
  nextFgkRow : FGKRow C
  nextRow : DTableRow C
  nextHeadLinks : GBCiphertextPair E
  oldHgk : K
  newHgk : K
  newDHead : K

structure RekeyVerifyInput (C E : Type) where
  oldHgkCommitment : C
  nextFgkRow : FGKRow C
  nextRow : DTableRow C
  nextHeadLinks : GBCiphertextPair E

/-- One surviving chain node's D-head: its effective start and the D-row
commitment at that sequence number. -/
structure DeleteKeysSurvivor (C : Type) where
  dHeadSeq : Nat
  dHeadCommitment : C
  deriving DecidableEq, Repr

structure DeleteKeysProofInput (K C E : Type) where
  oldHgkCommitment : C
  dgkCommitment : C
  survivors : List (DeleteKeysSurvivor C)
  nextLinks : List (GBCiphertextPair E)
  oldHgk : K
  newHgk : K
  bKeys : List K
  dHeadKeys : List K

structure DeleteKeysVerifyInput (C E : Type) where
  oldHgkCommitment : C
  dgkCommitment : C
  survivors : List (DeleteKeysSurvivor C)
  nextLinks : List (GBCiphertextPair E)

/-- `SimpleLine2RuntimeProver`: the proof backend, with proof bytes `P`. -/
structure RuntimeProver (K C E P : Type) where
  proveExtend : ExtendProofInput K C → Option P
  proveRekey : RekeyProofInput K C E → Option P
  proveDeleteKeys : DeleteKeysProofInput K C E → Option P
  verifyExtend : ExtendVerifyInput C → P → Bool
  verifyRekey : RekeyVerifyInput C E → P → Bool
  verifyDeleteKeys : DeleteKeysVerifyInput C E → P → Bool

/-- Every `prove` succeeds with an empty payload, every `verify` accepts. -/
def noProver {K C E : Type} : RuntimeProver K C E (List UInt8) where
  proveExtend _ := some []
  proveRekey _ := some []
  proveDeleteKeys _ := some []
  verifyExtend _ _ := true
  verifyRekey _ _ := true
  verifyDeleteKeys _ _ := true

section Algorithms

variable {K C E V P : Type} [DecidableEq C]
variable (S : KeySuite K C E V) (prover : RuntimeProver K C E P)

/-! ## Live chain reconstruction -/

/-- The loop of `reconstruct_live_chain`: step down from `ordinal`, covering
`[dMin, cursor)` newest to oldest. -/
def walkLiveChain (reader : Reader V) (dMin : Nat) :
    Nat → Nat → Option (List LiveChainNode)
  | 0, _ => some []
  | ordinal + 1, cursor =>
    if dMin < cursor then do
      let fgk ← loadFgkRow S reader ordinal
      if cursor ≤ fgk.dStart then walkLiveChain reader dMin ordinal cursor
      else
        let effectiveStart := max fgk.dStart dMin
        if cursor ≤ effectiveStart then walkLiveChain reader dMin ordinal cursor
        else
          let rest ← walkLiveChain reader dMin ordinal effectiveStart
          return { fgkOrdinal := ordinal, dStart := effectiveStart,
                   dEnd := cursor } :: rest
    else some []

/-- Live chain nodes, newest to oldest. -/
def reconstructLiveChain (reader : Reader V) : Option (List LiveChainNode) := do
  let fgkNext ← loadFgkNext S reader
  let dMin ← loadDMin S reader
  let nextD ← loadDNext S reader
  if nextD ≤ dMin then none
  else if fgkNext = 0 then none
  else walkLiveChain S reader dMin fgkNext nextD

/-! ## Read APIs -/

/-- The current (latest) key id. -/
def currentKeyId (reader : Reader V) : Option Nat := do
  let dNext ← loadDNext S reader
  if dNext = 0 then none else return dNext - 1

/-- The last DGK commitment, or the last FGK commitment when the DGK table is
empty. -/
def currentHgkCommitment (reader : Reader V) : Option C := do
  let dgkNext ← loadDgkNext S reader
  if 0 < dgkNext then
    return (← loadDgkRow S reader (dgkNext - 1)).commitment
  else
    let fgkNext ← loadFgkNext S reader
    if fgkNext = 0 then none
    else return (← loadFgkRow S reader (fgkNext - 1)).commitment

/-- At most `steps` derivations, stopping at the first key that opens
`target`. -/
def deriveForward (target : C) : Nat → K → Option K
  | 0, _ => none
  | steps + 1, key =>
    let next := S.derive key .hgkDerive
    if S.commit next = target then some next else deriveForward target steps next

/-- Resolve the current HGK from a locally held one. -/
def resolveCurrentHgk (localHgk : K) (reader : Reader V) : Option K := do
  let target ← currentHgkCommitment S reader
  if S.commit localHgk = target then return localHgk
  else
    let dgkNext ← loadDgkNext S reader
    deriveForward S target (dgkNext + 1) localHgk

/-- One chain link: decrypt the older GB key of `node` under `gbKey`. -/
def followLink (reader : Reader V) (gbKey : K) (node : LiveChainNode) :
    Option K := do
  let pair ← loadGbctRow S reader node.fgkOrdinal false
  let ct ← pair.olderGbKeyCiphertext
  return S.decrypt ct (S.derive gbKey .gbChainLink)

/-- Resolve the D key at a sequence number: walk the chain to the node that
covers it, decrypt the D head, derive forward, check the commitment. -/
def resolveDKey (localHgk : K) (dSeq : Nat) (reader : Reader V) : Option K := do
  let chain ← reconstructLiveChain S reader
  let nodeIndex ← chain.findIdx? (·.contains dSeq)
  let currentHgk ← resolveCurrentHgk S localHgk reader
  let gbKey ← (chain.take nodeIndex).foldlM (followLink S reader) currentHgk
  let targetNode ← chain[nodeIndex]?
  let dHead ← loadGbctDHead S reader targetNode.fgkOrdinal
  let dHeadKey := S.decrypt dHead (S.derive gbKey .dHeadEncrypt)
  let dKey := S.deriveN .dDerive (dSeq - targetNode.dStart) dHeadKey
  let dRow ← loadDRow S reader dSeq
  if S.commit dKey = dRow.commitment then return dKey else none

/-! ## Storage shape -/

/-- Ciphertext rows of a chain: every row loads, and every row but the tail
carries a link. -/
def validateCiphertextRows (reader : Reader V) : List LiveChainNode → Option Unit
  | [] => some ()
  | node :: rest => do
      let pair ← loadGbctRow S reader node.fgkOrdinal rest.isEmpty
      if !rest.isEmpty && pair.olderGbKeyCiphertext.isNone then none
      else validateCiphertextRows reader rest

/-- `d_start`s strictly increase by ordinal. -/
def dStartsIncrease : List (FGKRow C) → Bool
  | a :: b :: rows => a.dStart < b.dStart && dStartsIncrease (b :: rows)
  | _ => true

def validateStorageShape (reader : Reader V) : Option Unit := do
  let fgkNext ← loadFgkNext S reader
  let dgkNext ← loadDgkNext S reader
  let dMin ← loadDMin S reader
  let dNext ← loadDNext S reader
  if fgkNext = 0 then none
  else if dNext ≤ dMin then none
  else
    let fgkRows ← (List.range fgkNext).mapM (loadFgkRow S reader)
    if !dStartsIncrease fgkRows then none
    else
      let lastRow ← fgkRows.getLast?
      if dNext ≤ lastRow.dStart then none
      else
        let _ ← (List.range' dMin (dNext - dMin)).mapM (loadDRow S reader)
        let _ ← (List.range dgkNext).mapM (loadDgkRow S reader)
        let chain ← reconstructLiveChain S reader
        let first ← chain.head?
        let last ← chain.getLast?
        if first.fgkOrdinal ≠ fgkNext - 1 then none
        else if last.dStart ≠ dMin then none
        else if first.dEnd ≠ dNext then none
        else validateCiphertextRows S reader chain

/-! ## Creation, extension and rekey -/

/-- The locally held secret. -/
structure SpaceKey (K : Type) where
  hgk : K

/-- Initialise storage with the first FGK, D key and GB ciphertext row. -/
def SpaceKey.new (hgk d0 : K) (b : Builder V P) : SpaceKey K × Builder V P :=
  let fgkRow : FGKRow C := { dStart := 0, commitment := S.commit hgk }
  let dRow : DTableRow C := { seq := 0, commitment := S.commit d0 }
  let gbctPair : GBCiphertextPair E :=
    { olderGbKeyCiphertext := none, dHeadCiphertext := S.encryptDHead hgk d0 }
  let b := saveFgkNext S b 1
  let b := saveDgkNext S b 0
  let b := saveDMin S b 0
  let b := saveDNext S b 1
  let b := saveFgkRow S b 0 fgkRow
  let b := saveDRow S b dRow
  let b := saveGbctRow S b 0 gbctPair
  ({ hgk }, b)

/-- Extend the chain by one derived D key; returns the new key id. -/
def SpaceKey.extend (self : SpaceKey K) (b : Builder V P) :
    Option (Nat × Builder V P) := do
  let dNext ← loadDNext S b.get
  if dNext = 0 then none
  else
    let lastSeq := dNext - 1
    let nextSeq := dNext
    let currentD ← resolveDKey S self.hgk lastSeq b.get
    let nextD := S.derive currentD .dDerive
    let currentDCommitment := (← loadDRow S b.get lastSeq).commitment
    let dRow : DTableRow C := { seq := nextSeq, commitment := S.commit nextD }
    let proof ← prover.proveExtend
      { currentDCommitment, nextRow := dRow, currentDKey := currentD, nextDKey := nextD }
    let b := b.recordProof proof
    let nextCounter ← checkedSucc nextSeq
    let b := saveDRow S b dRow
    let b := saveDNext S b nextCounter
    return (nextSeq, b)

/-- Write the retention state of a fresh group key and a fresh D head; returns
the commitment and the key for distribution. -/
def SpaceKey.generateGroupKey (self : SpaceKey K) (newGroupKey newDHead : K)
    (b : Builder V P) : Option ((C × K) × Builder V P) := do
  let commitment := S.commit newGroupKey
  let oldHgkResolved ← resolveCurrentHgk S self.hgk b.get
  let oldHgkCommitment ← currentHgkCommitment S b.get
  let dNext ← loadDNext S b.get
  if dNext = 0 then none
  else
    let nextSeq := dNext
    let nextFgkRow : FGKRow C := { dStart := nextSeq, commitment }
    let nextDRow : DTableRow C := { seq := nextSeq, commitment := S.commit newDHead }
    let nextPair : GBCiphertextPair E :=
      { olderGbKeyCiphertext := some (S.encryptGbChainLink newGroupKey oldHgkResolved)
        dHeadCiphertext := S.encryptDHead newGroupKey newDHead }
    let proof ← prover.proveRekey
      { oldHgkCommitment, nextFgkRow, nextRow := nextDRow, nextHeadLinks := nextPair
        oldHgk := oldHgkResolved, newHgk := newGroupKey, newDHead }
    let b := b.recordProof proof
    let fgkNext ← loadFgkNext S b.get
    let fgkCounter ← checkedSucc fgkNext
    let dCounter ← checkedSucc nextSeq
    let b := saveFgkRow S b fgkNext nextFgkRow
    let b := saveGbctRow S b fgkNext nextPair
    let b := saveFgkNext S b fgkCounter
    let b := b.markNeedsDelivery
    let b := saveDgkNext S b 0
    let b := saveDRow S b nextDRow
    let b := saveDNext S b dCounter
    return ((commitment, newGroupKey), b)

/-! ## Reduce -/

/-- A surviving chain node during reduce. -/
structure SurvivingInfo where
  fgkOrdinal : Nat
  origDRangeStart : Nat
  chainIndex : Nat
  deriving DecidableEq, Repr

/-- The nodes that still cover a sequence number `≥ before`. -/
def survivingNodes (before : Nat) (chain : List LiveChainNode) :
    List SurvivingInfo :=
  chain.zipIdx.filterMap fun (node, i) =>
    if node.dEnd ≤ before then none
    else some { fgkOrdinal := node.fgkOrdinal, origDRangeStart := node.dStart,
                chainIndex := i }

/-- One GB key per chain node, walking the links from the old HGK. -/
def resolveChainGbKeys (reader : Reader V) :
    List LiveChainNode → K → Option (List K)
  | [], _ => some []
  | node :: rest, key => do
      let pair ← loadGbctRow S reader node.fgkOrdinal rest.isEmpty
      let older := match pair.olderGbKeyCiphertext with
        | some ct => S.decrypt ct (S.derive key .gbChainLink)
        | none => key
      return key :: (← resolveChainGbKeys reader rest older)

/-- Decrypt the old D head of a survivor and derive it forward to its new
effective start. -/
def advancedDHead (reader : Reader V) (oldGbKeys : List K) (before : Nat)
    (info : SurvivingInfo) : Option K := do
  let oldGbKey ← oldGbKeys[info.chainIndex]?
  let dHead ← loadGbctDHead S reader info.fgkOrdinal
  let oldDHead := S.decrypt dHead (S.derive oldGbKey .dHeadEncrypt)
  let effectiveStart := max info.origDRangeStart before
  return S.deriveN .dDerive (effectiveStart - info.origDRangeStart) oldDHead

/-- Ciphertext pairs from the new GB keys and D heads: each key encrypts its
D head and the next older key; the tail has no link. -/
def buildPairs : List K → List K → List (GBCiphertextPair E)
  | gbKey :: older, dHead :: dHeads =>
    { olderGbKeyCiphertext := older.head?.map (S.encryptGbChainLink gbKey)
      dHeadCiphertext := S.encryptDHead gbKey dHead } :: buildPairs older dHeads
  | _, _ => []

structure ReduceCiphertexts (K E : Type) where
  pairs : List (GBCiphertextPair E)
  bKeys : List K
  dHeadKeys : List K

/-- The head node uses the new HGK, every other survivor the random key
`fresh i` of its position. -/
def buildReduceCiphertexts (reader : Reader V) (surviving : List SurvivingInfo)
    (oldGbKeys : List K) (newHgk : K) (fresh : Nat → K) (before : Nat) :
    Option (ReduceCiphertexts K E) := do
  let newDHeads ← surviving.mapM (advancedDHead S reader oldGbKeys before)
  let newGbKeys := (List.range surviving.length).map fun i =>
    if i = 0 then newHgk else fresh i
  return { pairs := buildPairs S newGbKeys newDHeads
           bKeys := newGbKeys.drop 1
           dHeadKeys := newDHeads }

/-- Advance `d_min`, append the DGK commitment, overwrite the survivors'
ciphertext pairs. -/
def writeReduceToStorage (before : Nat) (newHgkCommitment : C)
    (surviving : List SurvivingInfo) (newGbctPairs : List (GBCiphertextPair E))
    (b : Builder V P) : Option (Builder V P) := do
  let b := saveDMin S b before
  let dgkNext ← loadDgkNext S b.get
  let dgkCounter ← checkedSucc dgkNext
  let b := saveDgkRow S b dgkNext { commitment := newHgkCommitment }
  let b := saveDgkNext S b dgkCounter
  return (surviving.zip newGbctPairs).foldl
    (fun b (info, pair) => saveGbctRow S b info.fgkOrdinal pair) b

/-- The D-row commitment at a survivor's effective start. -/
def proofSurvivor (reader : Reader V) (before : Nat) (info : SurvivingInfo) :
    Option (DeleteKeysSurvivor C) := do
  let effectiveStart := max info.origDRangeStart before
  return { dHeadSeq := effectiveStart
           dHeadCommitment := (← loadDRow S reader effectiveStart).commitment }

/-- Drop every D key below `before`.  The local key is not advanced. -/
def SpaceKey.reduce (self : SpaceKey K) (before : Nat) (fresh : Nat → K)
    (b : Builder V P) : Option (Builder V P) := do
  let dMin ← loadDMin S b.get
  let nextD ← loadDNext S b.get
  if before ≤ dMin then none
  else if nextD ≤ before then none
  else
    let oldHgk ← resolveCurrentHgk S self.hgk b.get
    let oldHgkCommitment ← currentHgkCommitment S b.get
    let newHgk := S.derive oldHgk .hgkDerive
    let dgkCommitment := S.commit newHgk
    let chain ← reconstructLiveChain S b.get
    let surviving := survivingNodes before chain
    if surviving.isEmpty then none
    else
      let oldGbKeys ← resolveChainGbKeys S b.get chain oldHgk
      let ct ← buildReduceCiphertexts S b.get surviving oldGbKeys newHgk fresh before
      let survivors ← surviving.mapM (proofSurvivor S b.get before)
      let proof ← prover.proveDeleteKeys
        { oldHgkCommitment, dgkCommitment, survivors, nextLinks := ct.pairs
          oldHgk, newHgk, bKeys := ct.bKeys, dHeadKeys := ct.dHeadKeys }
      let b := b.recordProof proof
      writeReduceToStorage S before dgkCommitment surviving ct.pairs b

end Algorithms

end EncryptedSpaces.Retention
