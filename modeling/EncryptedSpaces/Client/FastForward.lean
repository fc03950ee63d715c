import EncryptedSpaces.Client.Apply

/-!
# Applying a fast-forward

The answer to a fast-forward request is a proof for a prefix of the log and the
ragged changes after it.  The client installs the head of the proof, applies the
ragged changes one by one, and checks the signatures at the end, when the tables
with the keys can be read again.  Any failure after the first write puts the
snapshot back.

The row ids of inserted rows, which the source collects on the way for its
callers, are read off `updates`.
-/

namespace EncryptedSpaces.Client

open Encoding Changelog Ops Lib FastForward Server

structure FastForwardServerHead where
  changeId : Nat
  clcPrefix : Bytes
  dataCommitmentPrefix : Bytes

structure FastForwardProof where
  endChangeId : Nat
  proof : Bytes
  sigrefEntries : Std.ExtTreeMap Nat ChangelogEntry compare
  fromInclusionProof : Option InclusionProof
  endEntry : Option ChangelogEntry
  endEntryInclusionProof : Option InclusionProof
  expectedInclusionProofs : Std.ExtTreeMap Nat InclusionProof compare

structure FastForwardData (T : Type) where
  proof : Option FastForwardProof
  changes : List ChangelogEntry
  responses : List (ChangeResponse T)
  serverHead : Option FastForwardServerHead

/-- Fail with a validation error unless `c` holds. -/
def ensureValid (c : Prop) [Decidable c] (msg : String) : Except SdkError Unit :=
  if c then .ok () else .error (.validationError msg)

theorem ensureValid_eq_ok {c : Prop} [Decidable c] {msg : String} {u : Unit} :
    ensureValid c msg = .ok u ↔ c := by
  unfold ensureValid
  by_cases hc : c <;> simp [hc]

def requireValid {α : Type} (x : Option α) (msg : String) : Except SdkError α :=
  match x with
  | some a => .ok a
  | none => .error (.validationError msg)

/-! ## Signatures -/

/-- `resolve_signing_key_for_change` by uid, change id, operation and `sig_ref`,
on the tables as the server answers for them. -/
abbrev KeyLookup (V : Type) := Nat → Nat → OpType → Nat → Except SdkError V

inductive SigVerifyOutcome where
  | verified
  | keyResolutionFailed (e : SdkError)
  | signatureInvalid (e : SdkError)
  deriving DecidableEq, Repr

section Signatures

variable {T V : Type} (P : ClientParams T V)

/-- `resolve_hashed_value`. -/
def resolveHashedValue (table column : String) (value : Bytes) (hashedValues : HashedValues) :
    Except SdkError Bytes :=
  if value.length = 32 then
    requireValid hashedValues[value]?
      s!"missing hashed value for hash-backed column {table}.{column}"
  else .ok value

def deserializeVerificationKeyFromBase64 (b64 : String) : Except SdkError V :=
  match (decodeBase64 b64).bind P.parseAuthKey with
  | some vk => .ok vk
  | none => .error (.serializationError "VerifyingKey parse failed")

def extractAuthKeyFromCreateSpaceChange (change : ChangelogEntry) (hashedValues : HashedValues) :
    Except SdkError V := do
  let kv ← requireValid
    (change.message.entries.find? fun kv =>
      match parsedColumn? kv.key with
      | some (table, _, column) => table = usersTable ∧ column = "auth_key"
      | none => false)
    "CreateSpace change is missing the _users.auth_key entry"
  let bytes ← resolveHashedValue usersTable "auth_key" kv.value hashedValues
  let json ← requireValid
    (bytesToValue bytes).toOption "Failed to decode CreateSpace auth_key bytes"
  let b64 ← requireValid json.asStr "CreateSpace auth_key is not a base64 string"
  deserializeVerificationKeyFromBase64 P b64

def checkSignature (vk : V) (change : ChangelogEntry) : SigVerifyOutcome :=
  if P.verifySignature vk change then .verified
  else .signatureInvalid (.validationError "Signature verification failed")

def tryVerifyChangeSignature (lookup : KeyLookup V) (change : ChangelogEntry) (changeId : Nat)
    (hashedValues : HashedValues) : SigVerifyOutcome :=
  if change.signature = [] then
    .signatureInvalid (.validationError "Change is missing a signature")
  else if change.message.opType = .createSpace then
    match extractAuthKeyFromCreateSpaceChange P change hashedValues with
    | .ok vk => checkSignature P vk change
    | .error e => .signatureInvalid e
  else
    match lookup change.uid changeId change.message.opType change.sigRef with
    | .ok vk => checkSignature P vk change
    | .error e => .keyResolutionFailed e

def SigVerifyOutcome.orError : SigVerifyOutcome → Except SdkError Unit
  | .verified => .ok ()
  | .keyResolutionFailed e | .signatureInvalid e => .error e

/-- The entry that stands for a user's chain, bound to the proven leaf hash. -/
def validateSigrefEntry (sigrefEntries : Std.ExtTreeMap Nat ChangelogEntry compare) (uid : Nat)
    (changeId : Nat) (expectedHash : Digest) : Except SdkError ChangelogEntry := do
  let entry ← requireValid sigrefEntries[changeId]?
    s!"sigref_entries missing entry for change_id {changeId} (uid {uid})"
  ensureValid (entry.uid = uid) s!"sigref entry uid mismatch: expected {uid}, got {entry.uid}"
  ensureValid (entry.signature ≠ [])
    s!"sigref entry for uid {uid} (change {changeId}) has no signature"
  ensureValid (hLeaf P.H entry.toBytes = expectedHash)
    (s!"sigref entry hash mismatch for uid {uid} (change {changeId}): " ++
      "supplied entry does not match the FF-proven entry hash")
  return entry

/-- One signature per user of the proven map; all entries are validated first. -/
def verifySigrefSignatures (lookup : KeyLookup V) (sigrefMap : SigrefMap)
    (sigrefEntries : Std.ExtTreeMap Nat ChangelogEntry compare) : Except SdkError Unit := do
  let entries ← sigrefMap.toList.mapM fun (uid, changeId, expectedHash) => do
    let entry ← validateSigrefEntry P sigrefEntries uid changeId expectedHash
    return (uid, changeId, entry)
  entries.forM fun (uid, changeId, entry) => do
    let vk ← (lookup uid changeId entry.message.opType entry.sigRef).mapError fun _ =>
      .validationError s!"Failed to resolve signing key for uid {uid} (change {changeId})"
    ensureValid (P.verifySignature vk entry)
      s!"Sigref signature verification failed for uid {uid} (change {changeId})"

end Signatures

/-! ## The server's head -/

section Head

variable {T : Type}

def fastForwardTargetChangeId (ff : FastForwardData T) : Nat :=
  max ((ff.proof.map (·.endChangeId)).getD 0) ((ff.responses.map (·.changeId)).foldl max 0)

def validateFastForwardServerHeadIds (ff : FastForwardData T) (anchorChangeId : Nat) :
    Except SdkError FastForwardServerHead := do
  let head ← requireValid ff.serverHead "Server head not provided"
  ensureValid (anchorChangeId ≤ head.changeId)
    (s!"fast-forward anchor change_id {anchorChangeId} is ahead of server head " ++
      s!"{head.changeId}")
  ensureValid (fastForwardTargetChangeId ff ≤ head.changeId)
    (s!"fast-forward response targets change_id {fastForwardTargetChangeId ff}, " ++
      s!"beyond server head {head.changeId}")
  return head

/-- At the same change id both heads must have the same 16 byte beginnings. -/
def verifyFastForwardServerHead (st : ClientState) (ff : FastForwardData T)
    (anchorChangeId : Nat) : Except SdkError Unit := do
  let head ← validateFastForwardServerHeadIds ff anchorChangeId
  ensureValid (head.changeId ≤ st.currentChangeId)
    (s!"fast-forward ended at change_id {st.currentChangeId}, but server head is " ++
      s!"{head.changeId}")
  let clcPrefix := st.currentClcState.root.take 16
  let dcPrefix := st.currentDataCommitment.take 16
  if st.currentChangeId = head.changeId ∧
      (clcPrefix ≠ head.clcPrefix ∨ dcPrefix ≠ head.dataCommitmentPrefix) then
    .error (.stateDiverged {
      changeId := st.currentChangeId
      clientClcPrefix := clcPrefix
      serverClcPrefix := head.clcPrefix
      clientDataCommitmentPrefix := dcPrefix
      serverDataCommitmentPrefix := head.dataCommitmentPrefix })
  else .ok ()

end Head

/-! ## The proof -/

section Proof

variable {T V : Type} (P : ClientParams T V)

/-- The client's position must be a leaf of the proven log. -/
def checkBranchContinuity (anchor : FastForwardAnchor) (proof : FastForwardProof)
    (range : VerifiedFfOutput) : Except SdkError Unit :=
  if 0 < anchor.changeId then do
    let priorEntry ← requireValid anchor.changeEntry
      (s!"FF: client at change_id {anchor.changeId} has no stored changelog anchor entry; " ++
        "cannot verify branch continuity")
    let priorProof ← requireValid proof.fromInclusionProof
      s!"FF: server omitted from_inclusion_proof for from_change_id={anchor.changeId}"
    ensureValid (priorProof.i = anchor.changeId)
      (s!"FF: from_inclusion_proof.i={priorProof.i} does not match client's " ++
        s!"current_change_id={anchor.changeId}")
    ensureValid (verifyWithLeafHash P.H range.endClcState priorProof
        (hLeaf P.H priorEntry.toBytes))
      ("FF: branch substitution detected — from_inclusion_proof does not verify against " ++
        s!"end_clc_state at change_id={anchor.changeId}")
  else
    ensureValid (proof.fromInclusionProof = none)
      "FF: server included from_inclusion_proof for from_change_id == 0"

/-- Without ragged changes the last proven entry becomes the next anchor. -/
def checkEndEntry (ff : FastForwardData T) (proof : FastForwardProof) (range : VerifiedFfOutput) :
    Except SdkError (Option ChangelogEntry) :=
  if ff.responses = [] then do
    let endEntry ← requireValid proof.endEntry
      "FF: server omitted end_entry for proof-only response"
    let inclusion ← requireValid proof.endEntryInclusionProof
      "FF: server omitted end_entry_inclusion_proof for proof-only response"
    ensureValid (inclusion.i = range.endChangeId)
      (s!"FF: end_entry_inclusion_proof.i={inclusion.i} does not match " ++
        s!"end_change_id={range.endChangeId}")
    ensureValid (verifyWithLeafHash P.H range.endClcState inclusion (hLeaf P.H endEntry.toBytes))
      "FF: end_entry_inclusion_proof does not verify against end_clc_state"
    return some endEntry
  else .ok none

/-- The first ragged change starts where the proof ends. -/
def checkFirstRagged (ff : FastForwardData T) (range : VerifiedFfOutput) : Except SdkError Unit :=
  match ff.responses.head? with
  | some first =>
    ensureValid (first.oldRoot = range.endDc)
      "First ragged change old_root does not match FF proof end_dc"
  | none => .ok ()

/-- Everything that is checked about a proof before the state is touched. -/
def checkFfProof (st : ClientState) (anchor : FastForwardAnchor) (ff : FastForwardData T)
    (proof : FastForwardProof) : Except SdkError (VerifiedFfOutput × Option ChangelogEntry) := do
  let range ← (P.verifyFf proof.proof st.ffImageId).mapError SdkError.validationError
  ensureValid (range.startDc = st.initialDc) "FF proof start_dc does not match initial_dc"
  ensureValid (range.startClcState = initialClcState P.H st.initialDc)
    "FF proof start_clc_state does not match initial_clc_state(initial_dc)"
  ensureValid (proof.endChangeId = range.endChangeId)
    (s!"FF proof wrapper end_change_id {proof.endChangeId} does not match verified journal " ++
      s!"end_change_id {range.endChangeId}")
  ensureValid (range.endClcState.verifyForChangeId P.H range.endChangeId)
    s!"FF proof end_clc_state is inconsistent with end_change_id {range.endChangeId}"
  checkBranchContinuity P anchor proof range
  let endEntry ← checkEndEntry P ff proof range
  checkFirstRagged ff range
  return (range, endEntry)

/-- The expected submissions that the server proved to be in the range. -/
def provenExpected (st : ClientState) (proof : FastForwardProof) (range : VerifiedFfOutput)
    (expected : List Nat) : List Nat :=
  expected.filter fun cid =>
    if cid = 0 ∨ range.endChangeId < cid then false
    else
      match proof.expectedInclusionProofs[cid]?, st.pendingLocalChanges[cid]? with
      | some inclusion, some pending =>
        inclusion.i = cid ∧ verifyWithLeafHash P.H range.endClcState inclusion pending.leafHash
      | _, _ => false

/-- `u32::try_from(uid).ok()`. -/
def toU32? (uid : Int) : Option Nat := if 0 ≤ uid ∧ uid < 2 ^ 32 then some uid.toNat else none

/-- The client's own last change in the proven map. -/
def ownLastChange (st : ClientState) (range : VerifiedFfOutput) : Option Nat := do
  let uid ← st.uid
  let uid ← toU32? uid
  let (changeId, _) ← range.sigrefMap[uid]?
  return changeId

/-- `range.sigref_map` without the leaf hashes. -/
def sigrefIds (sigrefMap : SigrefMap) : Std.ExtTreeMap Nat Nat compare :=
  sigrefMap.map fun _ (changeId, _) => changeId

/-- Install the head of the proof, unless the state moved since the request. -/
def commitFfProof (st : ClientState) (anchor : FastForwardAnchor) (range : VerifiedFfOutput)
    (endEntry : Option ChangelogEntry) (proven : List Nat) : Except SdkError ClientState :=
  if st.currentChangeId ≠ anchor.changeId then .error .fastForwardStateAdvanced
  else .ok { st with
    currentChangeId := range.endChangeId
    currentClcState := range.endClcState
    sigrefMap := sigrefIds range.sigrefMap
    timestampHwm := range.timestampHwm
    myLastChangeId := (ownLastChange st range).getD st.myLastChangeId
    currentChangeEntry := endEntry.or st.currentChangeEntry
    pendingLocalChanges := proven.foldl (markDischarged true) st.pendingLocalChanges
    history := st.history ++ [.proven range] }

/-- The commitment the ragged changes start from. -/
def commitmentAfterProof (ff : FastForwardData T) (range : VerifiedFfOutput) : Digest :=
  match ff.responses.head? with
  | some first => first.oldRoot
  | none => range.endDc

/-- The proof part as a whole. -/
def applyFfProof (st : ClientState) (anchor : FastForwardAnchor) (expected : List Nat)
    (ff : FastForwardData T) (proof : FastForwardProof) :
    Except SdkError (VerifiedFfOutput × ClientState) := do
  let (range, endEntry) ← checkFfProof P st anchor ff proof
  let st ← commitFfProof st anchor range endEntry (provenExpected P st proof range expected)
  return (range, { st with currentDataCommitment := commitmentAfterProof ff range })

end Proof

/-! ## The ragged changes -/

/-- The client between two ragged changes. -/
structure RaggedState (T : Type) where
  state : ClientState
  /-- Something was written, so a failure must roll back. -/
  appliedState : Bool
  /-- `ragged_cache_updates`: every change that passed its checks. -/
  updates : List (ChangelogEntry × HashedValues × Batch)
  /-- The responses that moved the head. -/
  applied : List (ChangeResponse T)

section Ragged

variable {T V : Type} (P : ClientParams T V)

/-- The checks of a ragged change against the state. -/
def prepareRagged (st : ClientState) (uid : Int) (change : ChangelogEntry)
    (response : ChangeResponse T) : Except SdkError (Batch × Prepared) := do
  let newTimestampHwm ← validateFastForwardTailTimestampPolicy change response st.timestampHwm
  let writes ← verifyWitness P change response (st.currentChangeId + 1)
  orInvalid (checkSigrefContinuity change (st.expectedSigRef change.uid))
  return (writes, {
    currentChangeId := st.currentChangeId, myLastChangeId := st.myLastChangeId,
    uid := asU32 uid, newTimestampHwm })

/-- One round of the loop. -/
def raggedStep (rs : RaggedState T) (change : ChangelogEntry) (response : ChangeResponse T) :
    Except SdkError (RaggedState T) :=
  match rs.state.uid with
  | none => .error (.validationError "User is not authenticated")
  | some uid =>
    if response.changeId ≤ rs.state.currentChangeId then .ok rs
    else do
      let (writes, prepared) ← prepareRagged P rs.state uid change response
      let st ← applyStateUpdate P rs.state change response prepared
      return {
        state := st
        appliedState := true
        updates := rs.updates ++ [(change, response.hashedValues, writes)]
        applied :=
          if response.changeId = rs.state.currentChangeId + 1 then rs.applied ++ [response]
          else rs.applied }

/-- The loop; on a failure the state that is to be rolled back. -/
def raggedLoop : RaggedState T → List (ChangelogEntry × ChangeResponse T) →
    RaggedState T × Option SdkError
  | rs, [] => (rs, none)
  | rs, (change, response) :: rest =>
    match raggedStep P rs change response with
    | .ok rs => raggedLoop rs rest
    | .error e => (rs, some e)

/-! ## The whole application -/

/-- The signatures and the head, once the state is in place. -/
def deferredChecks (lookup : KeyLookup V) (ff : FastForwardData T) (anchor : FastForwardAnchor)
    (range : Option VerifiedFfOutput) (st : ClientState) : Except SdkError Unit := do
  (ff.changes.zip ff.responses).forM fun (change, response) =>
    (tryVerifyChangeSignature P lookup change response.changeId response.hashedValues).orError
  match range, ff.proof with
  | some range, some proof =>
    verifySigrefSignatures P lookup range.sigrefMap proof.sigrefEntries
  | _, _ => .ok ()
  verifyFastForwardServerHead st ff anchor.changeId

/-- The part before the loop: the state it starts from. -/
def startRagged (st : ClientState) (ff : FastForwardData T) (anchor : FastForwardAnchor)
    (expected : List Nat) : Except SdkError (Option VerifiedFfOutput × ClientState) := do
  if ff.changes.length ≠ ff.responses.length then
    .error (.databaseError "Invalid FF data -- mismatching number of changes and responses")
  else
    let _ ← validateFastForwardServerHeadIds ff anchor.changeId
    match ff.proof with
    | none => return (none, st)
    | some proof =>
      let (range, st) ← applyFfProof P st anchor expected ff proof
      return (some range, st)

/-- `apply_fast_forward_from_anchor`: the outcome and the state it leaves. -/
def applyFastForwardFromAnchor (lookup : KeyLookup V) (st : ClientState) (ff : FastForwardData T)
    (anchor : FastForwardAnchor) (expected : List Nat) :
    Except SdkError (RaggedState T) × ClientState :=
  let saved := st.saveChangelogState
  match startRagged P st ff anchor expected with
  | .error e => (.error e, st)
  | .ok (range, start) =>
    match raggedLoop P
        { state := start, appliedState := range.isSome, updates := [], applied := [] }
        (ff.changes.zip ff.responses) with
    | (rs, some e) => (.error e, rs.state.rollbackIfApplied saved rs.appliedState)
    | (rs, none) =>
      match deferredChecks P lookup ff anchor range rs.state with
      | .error e => (.error e, rs.state.rollbackIfApplied saved rs.appliedState)
      | .ok () => (.ok rs, rs.state)

end Ragged

end EncryptedSpaces.Client
