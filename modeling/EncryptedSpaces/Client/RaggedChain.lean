import EncryptedSpaces.Client.ChainChecks
import EncryptedSpaces.Client.FastForward
import EncryptedSpaces.Server.HandleChange

/-!
# Root continuity of ragged changes

Each ragged change is checked against a witness of its own: from `old_root` to
`new_root`.  That `old_root` is the commitment the client holds is tested for a
single change and for the first change after a proof, and nowhere else.
`applyFastForward_rootChain_iff` says what is left: the applied changes are
linked exactly when the server sent them linked.
-/

namespace EncryptedSpaces.Client

open Encoding Changelog Ops Lib FastForward Server Lib.Except

section Chains

variable {T : Type}

/-- Each response starts at the root where the one before ended. -/
def RootChain (root : Digest) : List (ChangeResponse T) → Prop
  | [] => True
  | response :: rest => response.oldRoot = root ∧ RootChain response.newRoot rest

instance decidableRootChain (root : Digest) :
    (responses : List (ChangeResponse T)) → Decidable (RootChain root responses)
  | [] => isTrue trivial
  | response :: rest =>
    have := decidableRootChain response.newRoot rest
    inferInstanceAs (Decidable (response.oldRoot = root ∧ RootChain response.newRoot rest))

/-- The responses that continue the log after `changeId` are sent with matching
roots; responses with another number are no part of the log. -/
def SentLinked (changeId : Nat) (root : Digest) : List (ChangeResponse T) → Prop
  | [] => True
  | response :: rest =>
    if response.changeId = changeId + 1 then
      response.oldRoot = root ∧ SentLinked (changeId + 1) response.newRoot rest
    else SentLinked changeId root rest

end Chains

section Loop

variable {T V : Type} {P : ClientParams T V} {rs rs' : RaggedState T} {change : ChangelogEntry}
  {response : ChangeResponse T}

/-- A ragged change that passed its checks. -/
structure RaggedChange (P : ClientParams T V) (st : ClientState) (change : ChangelogEntry)
    (response : ChangeResponse T) (writes : Batch) (prepared : Prepared) : Prop where
  timestampHwm : validateTimestampHwm change.timestamp st.timestampHwm =
    some prepared.newTimestampHwm
  witness : verifyProofAndValidate P.merk P.codec change response.prunedMerkleTree
    response.oldRoot response.newRoot (st.currentChangeId + 1) = .ok writes
  sigRef : change.sigRef = st.expectedSigRef change.uid
  currentChangeId : prepared.currentChangeId = st.currentChangeId

theorem prepareRagged_eq_ok {st : ClientState} {uid : Int} {writes : Batch} {prepared : Prepared}
    (h : prepareRagged P st uid change response = .ok (writes, prepared)) :
    RaggedChange P st change response writes prepared := by
  obtain ⟨hwm, hTime, h⟩ := bind_eq_ok.mp h
  obtain ⟨writes', hWitness, h⟩ := bind_eq_ok.mp h
  obtain ⟨_, hSig, h⟩ := bind_eq_ok.mp h
  obtain ⟨rfl, rfl⟩ := Prod.mk.inj (pure_eq_ok.mp h)
  obtain ⟨_, _, hHwm⟩ := bind_eq_ok.mp hTime
  exact {
    timestampHwm := validateReplayTimestampHwm_eq_ok.mp hHwm
    witness := verifyWitness_eq_ok.mp hWitness
    sigRef := checkSigrefContinuity_eq_ok.mp (orInvalid_eq_ok.mp hSig)
    currentChangeId := rfl }

/-- A round skips a change it has, applies the next one, or passes a later one
without applying it. -/
theorem raggedStep_cases (h : raggedStep P rs change response = .ok rs') :
    (response.changeId ≤ rs.state.currentChangeId ∧ rs' = rs) ∨
    (∃ writes prepared clc, response.changeId = rs.state.currentChangeId + 1 ∧
      RaggedChange P rs.state change response writes prepared ∧
      rs.state.currentClcState.tryAppend P.H change.toBytes = some clc ∧
      rs'.state = rs.state.advance P.H change response prepared clc ∧
      rs'.appliedState = true ∧ rs'.applied = rs.applied ++ [response]) ∨
    (rs.state.currentChangeId + 1 < response.changeId ∧ rs'.state = rs.state ∧
      rs'.appliedState = true ∧ rs'.applied = rs.applied) := by
  unfold raggedStep at h
  cases hUid : rs.state.uid with
  | none =>
    rw [hUid] at h
    cases h
  | some uid =>
    rw [hUid] at h
    dsimp only at h
    by_cases hOld : response.changeId ≤ rs.state.currentChangeId
    · rw [if_pos hOld, Except.ok.injEq] at h
      exact .inl ⟨hOld, h.symm⟩
    · rw [if_neg hOld] at h
      obtain ⟨⟨writes, prepared⟩, hPrepare, h⟩ := bind_eq_ok.mp h
      obtain ⟨st, hApply, h⟩ := bind_eq_ok.mp h
      obtain rfl := pure_eq_ok.mp h
      have hChange := prepareRagged_eq_ok hPrepare
      right
      by_cases hNext : response.changeId = rs.state.currentChangeId + 1
      · left
        obtain ⟨clc, hAppend, rfl⟩ := advance_of_applyStateUpdate hChange.currentChangeId.symm
          (hChange.currentChangeId ▸ hNext) hApply
        exact ⟨writes, prepared, clc, hNext, hChange, hAppend, rfl, rfl, if_pos hNext⟩
      · right
        unfold applyStateUpdate at hApply
        rw [hChange.currentChangeId, if_neg (not_not.mpr rfl), if_pos hNext,
          Except.ok.injEq] at hApply
        exact ⟨by omega, hApply.symm, rfl, if_neg hNext⟩

/-- The loop applies the responses that continue the log, so their links are the
links the server sent. -/
theorem raggedLoop_rootChain {pairs : List (ChangelogEntry × ChangeResponse T)} (root : Digest)
    (h : raggedLoop P rs pairs = (rs', none)) :
    ∃ news, rs'.applied = rs.applied ++ news ∧
      (RootChain root news ↔
        SentLinked rs.state.currentChangeId root (pairs.map Prod.snd)) := by
  induction pairs generalizing rs root with
  | nil =>
    obtain ⟨rfl, _⟩ := Prod.mk.inj h
    exact ⟨[], (List.append_nil _).symm, Iff.rfl⟩
  | cons pair rest ih =>
    obtain ⟨change, response⟩ := pair
    rw [raggedLoop] at h
    cases hStep : raggedStep P rs change response with
    | error e =>
      rw [hStep] at h
      cases (Prod.mk.inj h).2
    | ok rs₁ =>
      rw [hStep] at h
      rw [List.map_cons, SentLinked]
      dsimp only
      rcases raggedStep_cases hStep with
        ⟨hOld, rfl⟩ | ⟨writes, prepared, clc, hNext, hChange, _, hState, _, hApplied⟩ |
          ⟨hLater, hState, _, hApplied⟩
      · rw [if_neg (by omega)]
        exact ih root h
      · have hId : rs₁.state.currentChangeId = rs.state.currentChangeId + 1 := by
          rw [hState]
          exact congrArg (· + 1) hChange.currentChangeId
        obtain ⟨news, hNews, hIff⟩ := ih response.newRoot h
        rw [hId] at hIff
        rw [if_pos hNext]
        refine ⟨response :: news, ?_, ?_⟩
        · rw [hNews, hApplied, List.append_assoc, List.singleton_append]
        · rw [RootChain, hIff]
      · rw [if_neg (by omega)]
        obtain ⟨news, hNews, hIff⟩ := ih root h
        rw [hState] at hIff
        exact ⟨news, by rw [hNews, hApplied], hIff⟩

end Loop

/-! ## The whole application -/

section Whole

variable {T V : Type}

/-- The position the ragged changes start from: that of the proof if there is one,
else the client's own. -/
def raggedStart (P : ClientParams T V) (st : ClientState) (ff : FastForwardData T) :
    Nat × Digest :=
  match ff.proof with
  | none => (st.currentChangeId, st.currentDataCommitment)
  | some proof =>
    match P.verifyFf proof.proof st.ffImageId with
    | .ok range => (range.endChangeId, range.endDc)
    | .error _ => (st.currentChangeId, st.currentDataCommitment)

variable {P : ClientParams T V} {st st' : ClientState} {ff : FastForwardData T}
  {anchor : FastForwardAnchor} {expected : List Nat}

theorem checkFfProof_eq_ok {proof : FastForwardProof} {range : VerifiedFfOutput}
    {endEntry : Option ChangelogEntry}
    (h : checkFfProof P st anchor ff proof = .ok (range, endEntry)) :
    P.verifyFf proof.proof st.ffImageId = .ok range ∧
      range.endClcState.verifyForChangeId P.H range.endChangeId = true := by
  obtain ⟨range', hVerify, h⟩ := bind_eq_ok.mp h
  iterate 3 obtain ⟨_, _, h⟩ := bind_eq_ok.mp h
  obtain ⟨_, hEnd, h⟩ := bind_eq_ok.mp h
  obtain ⟨_, _, h⟩ := bind_eq_ok.mp h
  obtain ⟨endEntry', _, h⟩ := bind_eq_ok.mp h
  obtain ⟨_, _, h⟩ := bind_eq_ok.mp h
  obtain ⟨rfl, _⟩ := Prod.mk.inj (pure_eq_ok.mp h)
  exact ⟨mapError_eq_ok.mp hVerify, ensureValid_eq_ok.mp hEnd⟩

theorem applyFfProof_eq_ok {proof : FastForwardProof} {range : VerifiedFfOutput}
    (h : applyFfProof P st anchor expected ff proof = .ok (range, st')) :
    ∃ endEntry st₁, checkFfProof P st anchor ff proof = .ok (range, endEntry) ∧
      commitFfProof st anchor range endEntry (provenExpected P st proof range expected) = .ok st₁ ∧
      st' = { st₁ with currentDataCommitment := commitmentAfterProof ff range } := by
  obtain ⟨⟨range', endEntry⟩, hCheck, h⟩ := bind_eq_ok.mp h
  obtain ⟨st₁, hCommit, h⟩ := bind_eq_ok.mp h
  obtain ⟨rfl, rfl⟩ := Prod.mk.inj (pure_eq_ok.mp h)
  exact ⟨endEntry, st₁, hCheck, hCommit, rfl⟩

theorem commitFfProof_eq_ok {range : VerifiedFfOutput} {endEntry : Option ChangelogEntry}
    {proven : List Nat} (h : commitFfProof st anchor range endEntry proven = .ok st') :
    st.currentChangeId = anchor.changeId ∧ st' = { st with
      currentChangeId := range.endChangeId
      currentClcState := range.endClcState
      sigrefMap := sigrefIds range.sigrefMap
      timestampHwm := range.timestampHwm
      myLastChangeId := (ownLastChange st range).getD st.myLastChangeId
      currentChangeEntry := endEntry.or st.currentChangeEntry
      pendingLocalChanges := proven.foldl (markDischarged true) st.pendingLocalChanges
      history := st.history ++ [.proven range] } := by
  unfold commitFfProof at h
  by_cases hAnchor : st.currentChangeId = anchor.changeId
  · rw [if_neg (not_not.mpr hAnchor), Except.ok.injEq] at h
    exact ⟨hAnchor, h.symm⟩
  · rw [if_pos hAnchor] at h
    cases h

/-- Before the loop: the lists have the same length, and the state is the
client's own or the one a proof installed. -/
theorem startRagged_eq_ok {range : Option VerifiedFfOutput}
    (h : startRagged P st ff anchor expected = .ok (range, st')) :
    ff.changes.length = ff.responses.length ∧
      ((ff.proof = none ∧ range = none ∧ st' = st) ∨
        ∃ proof out, ff.proof = some proof ∧ range = some out ∧
          applyFfProof P st anchor expected ff proof = .ok (out, st')) := by
  unfold startRagged at h
  by_cases hLength : ff.changes.length = ff.responses.length
  · rw [if_neg (not_not.mpr hLength)] at h
    obtain ⟨_, _, h⟩ := bind_eq_ok.mp h
    refine ⟨hLength, ?_⟩
    cases hProof : ff.proof with
    | none =>
      rw [hProof] at h
      obtain ⟨rfl, rfl⟩ := Prod.mk.inj (pure_eq_ok.mp h)
      exact .inl ⟨rfl, rfl, rfl⟩
    | some proof =>
      rw [hProof] at h
      obtain ⟨⟨out, st₁⟩, hApply, h⟩ := bind_eq_ok.mp h
      obtain ⟨rfl, rfl⟩ := Prod.mk.inj (pure_eq_ok.mp h)
      exact .inr ⟨proof, out, rfl, rfl, hApply⟩
  · rw [if_pos hLength] at h
    cases h

theorem startRagged_changeId {range : Option VerifiedFfOutput}
    (h : startRagged P st ff anchor expected = .ok (range, st')) :
    st'.currentChangeId = (raggedStart P st ff).1 := by
  rcases (startRagged_eq_ok h).2 with ⟨hProof, _, rfl⟩ | ⟨proof, out, hProof, _, hApply⟩
  · unfold raggedStart
    rw [hProof]
  · obtain ⟨endEntry, st₁, hCheck, hCommit, rfl⟩ := applyFfProof_eq_ok hApply
    obtain ⟨_, rfl⟩ := commitFfProof_eq_ok hCommit
    unfold raggedStart
    rw [hProof]
    dsimp only
    rw [(checkFfProof_eq_ok hCheck).1]

/-- What a fast-forward that succeeded went through. -/
theorem applyFastForwardFromAnchor_eq_ok {lookup : KeyLookup V} {rs : RaggedState T}
    (h : applyFastForwardFromAnchor P lookup st ff anchor expected = (.ok rs, st')) :
    ∃ range start, startRagged P st ff anchor expected = .ok (range, start) ∧
      raggedLoop P
        { state := start, appliedState := range.isSome, updates := [], applied := [] }
        (ff.changes.zip ff.responses) = (rs, none) ∧
      deferredChecks P lookup ff anchor range rs.state = .ok () ∧ st' = rs.state := by
  unfold applyFastForwardFromAnchor at h
  cases hStart : startRagged P st ff anchor expected with
  | error e =>
    rw [hStart] at h
    cases (Prod.mk.inj h).1
  | ok result =>
    obtain ⟨range, start⟩ := result
    rw [hStart] at h
    dsimp only at h
    cases hLoop : raggedLoop P
        { state := start, appliedState := range.isSome, updates := [], applied := [] }
        (ff.changes.zip ff.responses) with
    | mk rs₁ failed =>
      rw [hLoop] at h
      cases failed with
      | some e => cases (Prod.mk.inj h).1
      | none =>
        dsimp only at h
        cases hChecks : deferredChecks P lookup ff anchor range rs₁.state with
        | error e =>
          rw [hChecks] at h
          cases (Prod.mk.inj h).1
        | ok u =>
          rw [hChecks] at h
          obtain ⟨hRs, hSt⟩ := Prod.mk.inj h
          obtain rfl := Except.ok.inj hRs
          exact ⟨range, start, rfl, hLoop, hChecks, hSt.symm⟩

end Whole

/-- In a fast-forward that succeeds the applied changes form a chain of data roots
from the client's position on exactly when the server sent them as one. -/
theorem applyFastForward_rootChain_iff {T V : Type} (P : ClientParams T V) (lookup : KeyLookup V)
    {st st' : ClientState} {ff : FastForwardData T} {anchor : FastForwardAnchor}
    {expected : List Nat} {rs : RaggedState T}
    (h : applyFastForwardFromAnchor P lookup st ff anchor expected = (.ok rs, st')) :
    RootChain (raggedStart P st ff).2 rs.applied ↔
      SentLinked (raggedStart P st ff).1 (raggedStart P st ff).2 ff.responses := by
  obtain ⟨range, start, hStart, hLoop, _, _⟩ := applyFastForwardFromAnchor_eq_ok h
  have hLength := (startRagged_eq_ok hStart).1
  have hResponses : (ff.changes.zip ff.responses).map Prod.snd = ff.responses :=
    List.map_snd_zip (le_of_eq hLength.symm)
  obtain ⟨news, hNews, hIff⟩ := raggedLoop_rootChain (raggedStart P st ff).2 hLoop
  rw [List.nil_append] at hNews
  rw [hNews, hIff, hResponses]
  rw [startRagged_changeId hStart]

/-! ## A tail on another database -/

/-- The internal tables and a row that nobody wrote. -/
def forgedDb : Db := internalDb.insert (columnKey "notes" 1 "body") (hashCell 5)

/-- No table can be read. -/
def noLookup : KeyLookup Unit := fun _ _ _ _ => .error .notFound

/-- The first change of the space as a tail without a proof, on `db`. -/
def createTail (db : Db) : FastForwardData Db where
  proof := none
  changes := [clientCreate]
  responses := [{ sampleResponse 1 clientCreate db with hashedValues := sampleSidecar [1] }]
  serverHead := some {
    changeId := 1
    clcPrefix := clientRoot.take 16
    dataCommitmentPrefix := (sampleClient.merk.hash (sampleAfter 1 clientCreate db)).take 16 }

/-- The fast-forward of a fresh client with such a tail. -/
def runTail (db : Db) : Except SdkError (RaggedState Db) × ClientState :=
  applyFastForwardFromAnchor sampleClient noLookup sampleGenesis (createTail db)
    sampleGenesis.fastForwardAnchor []

/-- On the database of the client the tail is linked. -/
theorem createTail_linked : ∃ rs st',
    applyFastForwardFromAnchor sampleClient noLookup sampleGenesis (createTail internalDb)
      sampleGenesis.fastForwardAnchor [] = (.ok rs, st') ∧
    rs.applied.length = 1 ∧ RootChain sampleGenesis.currentDataCommitment rs.applied := by
  obtain ⟨rs, hOk, hOne⟩ : ∃ rs, (runTail internalDb).1 = .ok rs ∧ rs.applied.length = 1 := by
    decide +kernel
  have hRun := Prod.eta (runTail internalDb)
  rw [hOk] at hRun
  refine ⟨rs, _, hRun.symm, hOne, ?_⟩
  exact (applyFastForward_rootChain_iff sampleClient noLookup hRun.symm).mpr ⟨rfl, trivial⟩

/-- On a database the server made up the same tail is accepted, and its root
becomes the client's commitment. -/
theorem forgedTail_accepted : ∃ rs st',
    applyFastForwardFromAnchor sampleClient noLookup sampleGenesis (createTail forgedDb)
      sampleGenesis.fastForwardAnchor [] = (.ok rs, st') ∧
    ¬ RootChain sampleGenesis.currentDataCommitment rs.applied ∧
    st'.currentChangeId = 1 ∧
    st'.currentDataCommitment =
      sampleClient.merk.hash (sampleAfter 1 clientCreate forgedDb) := by
  obtain ⟨rs, hOk, hBroken⟩ : ∃ rs, (runTail forgedDb).1 = .ok rs ∧
      ¬ RootChain sampleGenesis.currentDataCommitment rs.applied := by decide +kernel
  have hRun := Prod.eta (runTail forgedDb)
  rw [hOk] at hRun
  exact ⟨rs, _, hRun.symm, hBroken, by decide +kernel⟩

end EncryptedSpaces.Client
