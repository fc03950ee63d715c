import EncryptedSpaces.Client.State

/-!
# Applying one change

A change reaches the client as the answer to its own submission, as a broadcast
or in the tail of a fast-forward.  `prepareChange` reads the state once and makes
every check; `applyStateUpdate` writes the state in one step, and only if no
other task advanced it in between.  `validateAndApplyChange` is the two together.

The local clock and the keys behind signatures are inputs: a key is looked up in
tables the server answers for, so a lookup may give anything the server makes it
give.
-/

namespace EncryptedSpaces.Client

open Encoding Changelog Ops Lib FastForward Server Lib.Except

/-- What the client takes from libraries. -/
structure ClientParams (T V : Type) where
  H : Bytes → Digest
  merk : MerkOps T
  codec : RuleCodec
  /-- `verify_ff` at a trusted image id. -/
  verifyFf : Bytes → Digest → Except String VerifiedFfOutput
  /-- `serde_json::from_str` at the key type. -/
  parseAuthKey : Bytes → Option V
  verifySignature : V → ChangelogEntry → Bool

def ChangelogError.message : ChangelogError → String
  | .generic msg | .keyMismatch msg | .aclDenied msg | .aborted msg => msg

/-- `map_err(|e| SdkError::ValidationError(e.to_string()))`. -/
def orInvalid {α : Type} (x : Except ChangelogError α) : Except SdkError α :=
  x.mapError fun e => .validationError (ChangelogError.message e)

theorem orInvalid_eq_ok {α : Type} {x : Except ChangelogError α} {a : α} :
    orInvalid x = .ok a ↔ x = .ok a :=
  mapError_eq_ok

/-! ## Checks -/

def validateReplayTimestampPolicy {T : Type} (change : ChangelogEntry)
    (response : ChangeResponse T) (now : Nat) : Except SdkError Unit := do
  orInvalid (validateChangeTimestampAtAcceptance change.timestamp response.acceptedAtServerTime)
  orInvalid (validateAcceptedAtServerTimeAgainstLocalClock response.acceptedAtServerTime now)

/-- The advanced high-water mark. -/
def validateReplayTimestampHwm (change : ChangelogEntry) (timestampHwm : Nat) :
    Except SdkError Nat :=
  match validateTimestampHwm change.timestamp timestampHwm with
  | some hwm => .ok hwm
  | none => .error (.validationError
      (s!"Change timestamp {change.timestamp} is older than timestamp HWM {timestampHwm} " ++
        s!"by more than {timestampHwmToleranceSeconds}s"))

theorem validateReplayTimestampHwm_eq_ok {change : ChangelogEntry} {timestampHwm hwm : Nat} :
    validateReplayTimestampHwm change timestampHwm = .ok hwm ↔
      validateTimestampHwm change.timestamp timestampHwm = some hwm := by
  unfold validateReplayTimestampHwm
  cases validateTimestampHwm change.timestamp timestampHwm <;> simp

def validateFastForwardTailTimestampPolicy {T : Type} (change : ChangelogEntry)
    (response : ChangeResponse T) (timestampHwm : Nat) : Except SdkError Nat := do
  orInvalid (validateChangeTimestampAtAcceptance change.timestamp response.acceptedAtServerTime)
  validateReplayTimestampHwm change timestampHwm

/-- `map_err(|e| SdkError::DatabaseError(..))` around the witness check. -/
def verifyWitness {T V : Type} (P : ClientParams T V) (change : ChangelogEntry)
    (response : ChangeResponse T) (changeId : Nat) : Except SdkError Batch :=
  (verifyProofAndValidate P.merk P.codec change response.prunedMerkleTree response.oldRoot
    response.newRoot changeId).mapError fun e =>
      .databaseError ("verify_pruned_merkle_tree failed: " ++ ChangelogError.message e)

theorem verifyWitness_eq_ok {T V : Type} {P : ClientParams T V} {change : ChangelogEntry}
    {response : ChangeResponse T} {changeId : Nat} {writes : Batch} :
    verifyWitness P change response changeId = .ok writes ↔
      verifyProofAndValidate P.merk P.codec change response.prunedMerkleTree response.oldRoot
        response.newRoot changeId = .ok writes :=
  mapError_eq_ok

/-! ## Preparing -/

/-- What `validate_and_apply_change` captured when it made its checks. -/
structure Prepared where
  currentChangeId : Nat
  myLastChangeId : Nat
  uid : Nat
  newTimestampHwm : Nat
  deriving DecidableEq, Repr

def outOfSequence (expected got : Nat) : SdkError :=
  .fastForwardRequired s!"Change out of sequence: expected {expected}, got {got}"

section Apply

variable {T V : Type} (P : ClientParams T V)

/-- A change at or below the head: its proof is checked by itself, if there is
one, and the state stays. -/
def verifyAlreadyApplied (change : ChangelogEntry) (response : ChangeResponse T) :
    Except SdkError Batch :=
  match response.prunedMerkleTree with
  | .absent => .ok []
  | _ => verifyWitness P change response response.changeId

/-- The checks of the next change of the chain. -/
def prepareNext (st : ClientState) (uid : Int) (change : ChangelogEntry)
    (response : ChangeResponse T) : Except SdkError (Batch × Prepared) := do
  if response.oldRoot ≠ st.currentDataCommitment then
    .error (.fastForwardRequired "Data commitment mismatch")
  else
    let newTimestampHwm ← validateReplayTimestampHwm change st.timestampHwm
    let writes ← verifyWitness P change response (st.currentChangeId + 1)
    orInvalid (checkSigrefContinuity change (st.expectedSigRef change.uid))
    return (writes, {
      currentChangeId := st.currentChangeId, myLastChangeId := st.myLastChangeId,
      uid := asU32 uid, newTimestampHwm })

/-- Everything `validate_and_apply_change` does before it writes; without a
`Prepared` there is nothing to write. -/
def prepareChange (now : Nat) (st : ClientState) (change : ChangelogEntry)
    (response : ChangeResponse T) : Except SdkError (Batch × Option Prepared) := do
  match st.uid with
  | none => .error (.validationError "User is not authenticated")
  | some uid =>
    validateReplayTimestampPolicy change response now
    if response.changeId = st.currentChangeId + 1 then
      let (writes, prepared) ← prepareNext P st uid change response
      return (writes, some prepared)
    else if response.changeId ≤ st.currentChangeId then
      let writes ← verifyAlreadyApplied P change response
      return (writes, none)
    else .error (outOfSequence (st.currentChangeId + 1) response.changeId)

/-! ## Writing -/

/-- The state after the change became number `currentChangeId + 1`. -/
def ClientState.advance (H : Bytes → Digest) (st : ClientState) (change : ChangelogEntry)
    (response : ChangeResponse T) (prepared : Prepared) (clc : TreeHead) : ClientState :=
  { st with
    currentDataCommitment := response.newRoot
    currentChangeId := prepared.currentChangeId + 1
    myLastChangeId :=
      if change.uid = prepared.uid then response.changeId else prepared.myLastChangeId
    sigrefMap := st.sigrefMap.insert change.uid response.changeId
    timestampHwm := prepared.newTimestampHwm
    currentClcState := clc
    currentChangeEntry := some change
    pendingLocalChanges :=
      dischargePendingLocalChange H st.pendingLocalChanges response.changeId change.toBytes
    history := st.history ++
      [.appended (prepared.currentChangeId + 1) st.currentClcState change.toBytes] }

/-- The guarded write: nothing happens if the state moved since the checks or the
response is for another change.  Appending to a malformed or full head panics. -/
def applyStateUpdate (st : ClientState) (change : ChangelogEntry) (response : ChangeResponse T)
    (prepared : Prepared) : Except SdkError ClientState :=
  if st.currentChangeId ≠ prepared.currentChangeId then .ok st
  else if response.changeId ≠ prepared.currentChangeId + 1 then .ok st
  else
    match st.currentClcState.tryAppend P.H change.toBytes with
    | some clc => .ok (st.advance P.H change response prepared clc)
    | none => .error (.aborted "TreeHead::append called on invalid or uninitialized head")

/-- Checks and write with no other task in between. -/
def validateAndApplyChange (now : Nat) (st : ClientState) (change : ChangelogEntry)
    (response : ChangeResponse T) : Except SdkError (Batch × ClientState) := do
  let (writes, prepared) ← prepareChange P now st change response
  match prepared with
  | none => return (writes, st)
  | some prepared =>
    let st ← applyStateUpdate P st change response prepared
    return (writes, st)

end Apply

/-! ## What an accepted change went through -/

section Accepted

variable {T V : Type} {P : ClientParams T V} {st : ClientState} {change : ChangelogEntry}
  {response : ChangeResponse T}

/-- The next change of the chain, with every check it passed. -/
structure NextChange (P : ClientParams T V) (st : ClientState) (change : ChangelogEntry)
    (response : ChangeResponse T) (writes : Batch) (prepared : Prepared) : Prop where
  changeId : response.changeId = st.currentChangeId + 1
  oldRoot : response.oldRoot = st.currentDataCommitment
  timestampHwm : validateTimestampHwm change.timestamp st.timestampHwm =
    some prepared.newTimestampHwm
  witness : verifyProofAndValidate P.merk P.codec change response.prunedMerkleTree
    response.oldRoot response.newRoot (st.currentChangeId + 1) = .ok writes
  sigRef : change.sigRef = st.expectedSigRef change.uid
  currentChangeId : prepared.currentChangeId = st.currentChangeId
  myLastChangeId : prepared.myLastChangeId = st.myLastChangeId
  uid : ∃ uid, st.uid = some uid ∧ prepared.uid = asU32 uid

theorem checkSigrefContinuity_eq_ok {expected : Nat} {u : Unit} :
    checkSigrefContinuity change expected = .ok u ↔ change.sigRef = expected := by
  unfold checkSigrefContinuity
  by_cases h : change.sigRef = expected <;> simp [h]

theorem prepareNext_eq_ok {uid : Int} {writes : Batch} {prepared : Prepared}
    (hUid : st.uid = some uid) (hId : response.changeId = st.currentChangeId + 1)
    (h : prepareNext P st uid change response = .ok (writes, prepared)) :
    NextChange P st change response writes prepared := by
  unfold prepareNext at h
  by_cases hRoot : response.oldRoot = st.currentDataCommitment
  · rw [if_neg (not_not.mpr hRoot)] at h
    obtain ⟨hwm, hHwm, h⟩ := bind_eq_ok.mp h
    obtain ⟨writes', hWitness, h⟩ := bind_eq_ok.mp h
    obtain ⟨_, hSig, h⟩ := bind_eq_ok.mp h
    obtain ⟨rfl, rfl⟩ := Prod.mk.inj (pure_eq_ok.mp h)
    exact {
      changeId := hId
      oldRoot := hRoot
      timestampHwm := validateReplayTimestampHwm_eq_ok.mp hHwm
      witness := verifyWitness_eq_ok.mp hWitness
      sigRef := checkSigrefContinuity_eq_ok.mp (orInvalid_eq_ok.mp hSig)
      currentChangeId := rfl
      myLastChangeId := rfl
      uid := ⟨uid, hUid, rfl⟩ }
  · rw [if_pos hRoot] at h
    cases h

/-- A prepared change is the next one, or it is not to be written. -/
theorem prepareChange_cases {now : Nat} {writes : Batch} {prepared : Option Prepared}
    (h : prepareChange P now st change response = .ok (writes, prepared)) :
    (prepared = none ∧ response.changeId ≤ st.currentChangeId) ∨
      ∃ next, prepared = some next ∧ NextChange P st change response writes next := by
  unfold prepareChange at h
  cases hUid : st.uid with
  | none =>
    rw [hUid] at h
    cases h
  | some uid =>
    rw [hUid] at h
    obtain ⟨_, hTime, h⟩ := bind_eq_ok.mp h
    by_cases hNext : response.changeId = st.currentChangeId + 1
    · rw [if_pos hNext] at h
      obtain ⟨⟨writes', next⟩, hPrepare, h⟩ := bind_eq_ok.mp h
      obtain ⟨rfl, rfl⟩ := Prod.mk.inj (pure_eq_ok.mp h)
      exact .inr ⟨next, rfl, prepareNext_eq_ok hUid hNext hPrepare⟩
    · rw [if_neg hNext] at h
      split_ifs at h with hOld
      obtain ⟨writes', hWitness, h⟩ := bind_eq_ok.mp h
      obtain ⟨rfl, rfl⟩ := Prod.mk.inj (pure_eq_ok.mp h)
      exact .inl ⟨rfl, hOld⟩

/-- The write, when the state did not move since the checks. -/
theorem advance_of_applyStateUpdate {prepared : Prepared} {st' : ClientState}
    (hMoved : st.currentChangeId = prepared.currentChangeId)
    (hId : response.changeId = prepared.currentChangeId + 1)
    (h : applyStateUpdate P st change response prepared = .ok st') :
    ∃ clc, st.currentClcState.tryAppend P.H change.toBytes = some clc ∧
      st' = st.advance P.H change response prepared clc := by
  unfold applyStateUpdate at h
  rw [if_neg (not_not.mpr hMoved), if_neg (not_not.mpr hId)] at h
  cases hAppend : st.currentClcState.tryAppend P.H change.toBytes with
  | none =>
    rw [hAppend] at h
    cases h
  | some clc =>
    rw [hAppend, Except.ok.injEq] at h
    exact ⟨clc, rfl, h.symm⟩

theorem applyStateUpdate_cases {prepared : Prepared} {st' : ClientState}
    (h : applyStateUpdate P st change response prepared = .ok st') :
    st' = st ∨ ∃ clc, st.currentChangeId = prepared.currentChangeId ∧
      response.changeId = prepared.currentChangeId + 1 ∧
      st.currentClcState.tryAppend P.H change.toBytes = some clc ∧
      st' = st.advance P.H change response prepared clc := by
  by_cases hNext : st.currentChangeId = prepared.currentChangeId ∧
      response.changeId = prepared.currentChangeId + 1
  · obtain ⟨clc, hAppend, hAdvance⟩ := advance_of_applyStateUpdate hNext.1 hNext.2 h
    exact .inr ⟨clc, hNext.1, hNext.2, hAppend, hAdvance⟩
  · unfold applyStateUpdate at h
    split_ifs at h with hMoved hId
    · exact .inl (Except.ok.inj h).symm
    · exact .inl (Except.ok.inj h).symm
    · exact absurd ⟨not_not.mp hMoved, not_not.mp hId⟩ hNext

/-- An accepted change either is at or below the head and changes nothing, or it
is the next change and moves the head by one. -/
theorem validateAndApplyChange_cases {now : Nat} {writes : Batch} {st' : ClientState}
    (h : validateAndApplyChange P now st change response = .ok (writes, st')) :
    (response.changeId ≤ st.currentChangeId ∧ st' = st) ∨
      ∃ next clc, NextChange P st change response writes next ∧
        st.currentClcState.tryAppend P.H change.toBytes = some clc ∧
        st' = st.advance P.H change response next clc := by
  obtain ⟨⟨writes', prepared⟩, hPrepare, h⟩ := bind_eq_ok.mp h
  rcases prepareChange_cases hPrepare with ⟨rfl, hOld⟩ | ⟨next, rfl, hNext⟩
  · obtain ⟨rfl, rfl⟩ := Prod.mk.inj (pure_eq_ok.mp h)
    exact .inl ⟨hOld, rfl⟩
  · obtain ⟨st'', hApply, h⟩ := bind_eq_ok.mp h
    obtain ⟨rfl, rfl⟩ := Prod.mk.inj (pure_eq_ok.mp h)
    have hIdPrepared : response.changeId = next.currentChangeId + 1 := by
      rw [hNext.currentChangeId]
      exact hNext.changeId
    obtain ⟨clc, hAppend, rfl⟩ :=
      advance_of_applyStateUpdate hNext.currentChangeId.symm hIdPrepared hApply
    exact .inr ⟨next, clc, hNext, hAppend, rfl⟩

end Accepted

end EncryptedSpaces.Client
