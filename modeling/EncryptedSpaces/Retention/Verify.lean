import EncryptedSpaces.Changelog.OpType
import EncryptedSpaces.Retention.SpaceKey

/-!
# Verification of retention proofs

`verify_retention_proofs` decides per operation type how many proofs a change
must carry and rebuilds the public inputs of the proof from two readers: the
state before the change and the change's own writes.  The proof system is a
parameter; `KnowledgeSound` says what an accepted proof guarantees about its
public inputs.
-/

namespace EncryptedSpaces.Retention

open Lib Crypto Changelog

variable {K C E V P : Type}

/-! ## Public inputs -/

/-- The loop of `collect_reduce_verify_inputs`: newest to oldest, down to the
new cutoff.  Segment bounds come from the state before the change, ciphertext
rows from the change, D rows from the change where it has them. -/
def walkReduceSurvivors (S : KeySuite K C E V) (preState pendingWrites : Reader V)
    (dMinOld dMinNew : Nat) :
    Nat → Nat → Option (List (DeleteKeysSurvivor C × GBCiphertextPair E))
  | 0, _ => some []
  | ordinal + 1, cursor =>
    if dMinNew < cursor then do
      let fgk ← loadFgkRow S preState ordinal
      if cursor ≤ fgk.dStart then
        walkReduceSurvivors S preState pendingWrites dMinOld dMinNew ordinal cursor
      else
        let rangeStart := max fgk.dStart dMinOld
        if cursor ≤ rangeStart then
          walkReduceSurvivors S preState pendingWrites dMinOld dMinNew ordinal cursor
        else
          let effectiveStart := max rangeStart dMinNew
          let dRow ← (loadDRow S pendingWrites effectiveStart).or
            (loadDRow S preState effectiveStart)
          let links ← loadGbctRow S pendingWrites ordinal false
          let rest ←
            walkReduceSurvivors S preState pendingWrites dMinOld dMinNew ordinal rangeStart
          return ({ dHeadSeq := effectiveStart, dHeadCommitment := dRow.commitment },
            links) :: rest
    else some []

def collectReduceVerifyInputs (S : KeySuite K C E V) (preState pendingWrites : Reader V) :
    Option (DeleteKeysVerifyInput C E) := do
  let oldHgkCommitment ← currentHgkCommitment S preState
  let dgkNext ← loadDgkNext S pendingWrites
  if dgkNext = 0 then none
  else
    let dgkCommitment := (← loadDgkRow S pendingWrites (dgkNext - 1)).commitment
    let fgkNext ← loadFgkNext S preState
    let dMinOld ← loadDMin S preState
    let dMinNew ← loadDMin S pendingWrites
    let nextD ← loadDNext S preState
    if fgkNext = 0 ∨ nextD ≤ dMinOld ∨ nextD ≤ dMinNew ∨ dMinNew ≤ dMinOld then none
    else
      let survivors ←
        walkReduceSurvivors S preState pendingWrites dMinOld dMinNew fgkNext nextD
      if survivors.isEmpty then none
      else
        return { oldHgkCommitment, dgkCommitment
                 survivors := survivors.map Prod.fst
                 nextLinks := survivors.map Prod.snd }

/-! ## The verifier -/

/-- An operation that carries no retention proof. -/
def requireNoProof (proofs : List P) : Option Unit :=
  if proofs.isEmpty then some () else none

/-- Check the one proof of an operation against its public inputs. -/
def requireProof {I : Type} (verify : I → P → Bool) (proofs : List P) (input : Option I) :
    Option Unit :=
  match proofs with
  | [proof] => do
      let input ← input
      if verify input proof then some () else none
  | _ => none

def rekeyVerifyInput (S : KeySuite K C E V) (preState pendingWrites : Reader V) :
    Option (RekeyVerifyInput C E) := do
  let oldHgkCommitment ← currentHgkCommitment S preState
  let fgkNext ← loadFgkNext S pendingWrites
  if fgkNext = 0 then none
  else
    let newOrdinal := fgkNext - 1
    let nextFgkRow ← loadFgkRow S pendingWrites newOrdinal
    let nextRow ← loadDRow S pendingWrites nextFgkRow.dStart
    let nextHeadLinks ← loadGbctRow S pendingWrites newOrdinal false
    return { oldHgkCommitment, nextFgkRow, nextRow, nextHeadLinks }

def extendVerifyInput (S : KeySuite K C E V) (preState pendingWrites : Reader V) :
    Option (ExtendVerifyInput C) := do
  let dNext ← loadDNext S pendingWrites
  if dNext = 0 then none
  else
    let nextSeq := dNext - 1
    if nextSeq = 0 then none
    else
      let currentDCommitment := (← loadDRow S preState (nextSeq - 1)).commitment
      let nextRow ← loadDRow S pendingWrites nextSeq
      return { currentDCommitment, nextRow }

def verifyRetentionProofs (S : KeySuite K C E V) (prover : RuntimeProver K C E P)
    (opType : OpType) (proofs : List P) (preState pendingWrites : Reader V) : Option Unit :=
  match opType with
  | .removeUser | .rekey =>
    requireProof prover.verifyRekey proofs (rekeyVerifyInput S preState pendingWrites)
  | .extend =>
    requireProof prover.verifyExtend proofs (extendVerifyInput S preState pendingWrites)
  | .reduce =>
    requireProof prover.verifyDeleteKeys proofs
      (collectReduceVerifyInputs S preState pendingWrites)
  | _ => requireNoProof proofs

theorem requireProof_eq_some {I : Type} {verify : I → P → Bool} {proofs : List P}
    {input : Option I} (h : requireProof verify proofs input = some ()) :
    ∃ i proof, input = some i ∧ verify i proof = true := by
  unfold requireProof at h
  split at h
  · simp only [Option.bind_eq_some] at h
    obtain ⟨i, hInput, hVerify⟩ := h
    split at hVerify
    · next hAccept => exact ⟨i, _, hInput, hAccept⟩
    · cases hVerify
  · cases h

/-! ## Knowledge soundness -/

/-- An accepted proof comes from keys that satisfy the stated relations. -/
structure KnowledgeSound (S : KeySuite K C E V) (prover : RuntimeProver K C E P) : Prop where
  extend : ∀ input proof, prover.verifyExtend input proof = true →
    ∃ currentD, S.commit currentD = input.currentDCommitment ∧
      S.commit (S.derive currentD .dDerive) = input.nextRow.commitment
  rekey : ∀ input proof, prover.verifyRekey input proof = true →
    ∃ oldHgk newHgk newDHead,
      S.commit oldHgk = input.oldHgkCommitment ∧
      S.commit newHgk = input.nextFgkRow.commitment ∧
      S.commit newDHead = input.nextRow.commitment ∧
      input.nextHeadLinks =
        { olderGbKeyCiphertext := some (S.encryptGbChainLink newHgk oldHgk)
          dHeadCiphertext := S.encryptDHead newHgk newDHead }
  deleteKeys : ∀ input proof, prover.verifyDeleteKeys input proof = true →
    ∃ oldHgk bKeys dHeads,
      S.commit oldHgk = input.oldHgkCommitment ∧
      S.commit (S.derive oldHgk .hgkDerive) = input.dgkCommitment ∧
      input.survivors.map DeleteKeysSurvivor.dHeadCommitment = dHeads.map S.commit ∧
      bKeys.length + 1 = dHeads.length ∧
      input.nextLinks = buildPairs S (S.derive oldHgk .hgkDerive :: bKeys) dHeads

/-- The prover whose proof is the witness itself: the verifier recomputes every
relation. -/
def revealingProver [DecidableEq C] [DecidableEq E] (S : KeySuite K C E V) :
    RuntimeProver K C E (List K) where
  proveExtend input := some [input.currentDKey]
  proveRekey input := some [input.oldHgk, input.newHgk, input.newDHead]
  proveDeleteKeys input := some (input.oldHgk :: input.bKeys ++ input.dHeadKeys)
  verifyExtend input proof := match proof with
    | [currentD] => S.commit currentD = input.currentDCommitment ∧
        S.commit (S.derive currentD .dDerive) = input.nextRow.commitment
    | _ => false
  verifyRekey input proof := match proof with
    | [oldHgk, newHgk, newDHead] =>
      S.commit oldHgk = input.oldHgkCommitment ∧
      S.commit newHgk = input.nextFgkRow.commitment ∧
      S.commit newDHead = input.nextRow.commitment ∧
      input.nextHeadLinks =
        { olderGbKeyCiphertext := some (S.encryptGbChainLink newHgk oldHgk)
          dHeadCiphertext := S.encryptDHead newHgk newDHead }
    | _ => false
  verifyDeleteKeys input proof := match proof with
    | [] => false
    | oldHgk :: rest =>
      let n := input.survivors.length
      let bKeys := rest.take (n - 1)
      let dHeads := rest.drop (n - 1)
      decide (S.commit oldHgk = input.oldHgkCommitment ∧
        S.commit (S.derive oldHgk .hgkDerive) = input.dgkCommitment ∧
        input.survivors.map DeleteKeysSurvivor.dHeadCommitment = dHeads.map S.commit ∧
        bKeys.length + 1 = dHeads.length ∧
        input.nextLinks = buildPairs S (S.derive oldHgk .hgkDerive :: bKeys) dHeads)

theorem revealingProver_knowledgeSound [DecidableEq C] [DecidableEq E]
    (S : KeySuite K C E V) : KnowledgeSound S (revealingProver S) where
  extend input proof h := by
    match proof with
    | [currentD] => exact ⟨currentD, by simpa [revealingProver] using h⟩
    | [] => simp [revealingProver] at h
    | _ :: _ :: _ => simp [revealingProver] at h
  rekey input proof h := by
    match proof with
    | [oldHgk, newHgk, newDHead] =>
      exact ⟨oldHgk, newHgk, newDHead, by simpa [revealingProver] using h⟩
    | [] | [_] | [_, _] | _ :: _ :: _ :: _ :: _ => simp [revealingProver] at h
  deleteKeys input proof h := by
    match proof with
    | [] => simp [revealingProver] at h
    | oldHgk :: rest =>
      exact ⟨oldHgk, rest.take (input.survivors.length - 1),
        rest.drop (input.survivors.length - 1), by simpa [revealingProver] using h⟩

end EncryptedSpaces.Retention
