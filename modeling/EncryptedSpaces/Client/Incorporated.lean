import EncryptedSpaces.Client.RaggedChain
import EncryptedSpaces.Client.Submit

/-!
# A completed change is on the log

An entry gets on the client's log by an append to its head or by an inclusion proof
against the head of a verified proof.  `Incorporated` says that one of the moves of the
head did that, and `Chained` that the moves lead from one head to another.  The
invariant `Grounded` says that a submission is marked as discharged only if its entry got
on the log; every action keeps it, roll-backs included.  So a completion that does not
take the shortcut for no-ops reports success only for an entry on the log.
-/

namespace EncryptedSpaces.Client

open Encoding Changelog Ops Lib FastForward Server Option

section Incorporated

variable {T V : Type}

/-- The move makes the leaf change `id` of the log, or proves that it is. -/
def HeadStep.Incorporates (P : ClientParams T V) (leaf : Digest) (id : Nat) : HeadStep → Prop
  | .appended changeId head bytes =>
    changeId = id ∧ hLeaf P.H bytes = leaf ∧ (head.tryAppend P.H bytes).isSome
  | .proven range => (∃ proof image, P.verifyFf proof image = .ok range) ∧
      ∃ inclusion : InclusionProof, inclusion.i = id ∧
        verifyWithLeafHash P.H range.endClcState inclusion leaf = true

def Incorporated (P : ClientParams T V) (leaf : Digest) (id : Nat) (history : List HeadStep) :
    Prop :=
  ∃ step ∈ history, step.Incorporates P leaf id

/-- The moves lead from one change id and head to another. -/
def Chained (P : ClientParams T V) : Nat × TreeHead → List HeadStep → Nat × TreeHead → Prop
  | start, [], last => start = last
  | start, .appended changeId head bytes :: rest, last =>
    changeId = start.1 + 1 ∧ head = start.2 ∧
      ∃ clc, head.tryAppend P.H bytes = some clc ∧ Chained P (changeId, clc) rest last
  | _, .proven range :: rest, last =>
    (∃ proof image, P.verifyFf proof image = .ok range) ∧
      Chained P (range.endChangeId, range.endClcState) rest last

/-- The client's moves lead from `start` to its head. -/
def ChainedFrom (P : ClientParams T V) (start : Nat × TreeHead) (st : ClientState) : Prop :=
  Chained P start st.history (st.currentChangeId, st.currentClcState)

/-- The submission acknowledged as `id` is marked only if its entry is on the
log. -/
def Grounded (P : ClientParams T V) (id : Nat) (st : ClientState) : Prop :=
  ∀ p, st.pendingLocalChanges[id]? = some p → p.discharged = true →
    Incorporated P p.leafHash id st.history

/-- Nothing but the mark of the submission at `id` changed. -/
def SameSubmission (id : Nat) (st st' : ClientState) : Prop :=
  st'.pendingLocalChanges[id]?.map (·.leafHash) = st.pendingLocalChanges[id]?.map (·.leafHash)

/-- What every action of the client keeps about the submission at `id`. -/
structure Keeps (P : ClientParams T V) (id : Nat) (st st' : ClientState) : Prop where
  grounded : Grounded P id st → Grounded P id st'
  same : SameSubmission id st st'
  chained : ∀ start, ChainedFrom P start st → ChainedFrom P start st'

variable {P : ClientParams T V} {id : Nat} {st st' st'' : ClientState}

theorem Keeps.refl (st : ClientState) : Keeps P id st st :=
  ⟨fun h => h, rfl, fun _ h => h⟩

theorem Keeps.trans (h : Keeps P id st st') (h' : Keeps P id st' st'') : Keeps P id st st'' where
  grounded hGround := h'.grounded (h.grounded hGround)
  same := by
    unfold SameSubmission
    rw [h'.same, h.same]
  chained start hChain := h'.chained start (h.chained start hChain)

theorem Incorporated.append {leaf : Digest} {history : List HeadStep}
    (h : Incorporated P leaf id history) (more : List HeadStep) :
    Incorporated P leaf id (history ++ more) := by
  obtain ⟨step, hStep, hIncorporates⟩ := h
  exact ⟨step, List.mem_append_left _ hStep, hIncorporates⟩

theorem Incorporated.last {leaf : Digest} {history : List HeadStep} {step : HeadStep}
    (h : step.Incorporates P leaf id) : Incorporated P leaf id (history ++ [step]) :=
  ⟨step, List.mem_append_right _ List.mem_cons_self, h⟩

/-- Moves that meet at a head. -/
theorem Chained.append {start mid last : Nat × TreeHead} {moves more : List HeadStep}
    (h : Chained P start moves mid) (hMore : Chained P mid more last) :
    Chained P start (moves ++ more) last := by
  induction moves generalizing start with
  | nil => exact h ▸ hMore
  | cons step moves ih =>
    cases step with
    | appended changeId head bytes =>
      obtain ⟨hId, hHead, clc, hAppend, hRest⟩ := h
      exact ⟨hId, hHead, clc, hAppend, ih hRest⟩
    | proven range => exact ⟨h.1, ih h.2⟩

/-! ## Appending -/

variable {response : ChangeResponse T} {proof : FastForwardProof} {range : VerifiedFfOutput}
  {expected : List Nat} {anchor : FastForwardAnchor} {ff : FastForwardData T}

/-- An append marks the submission with exactly these bytes. -/
theorem keeps_advance {change : ChangelogEntry} {prepared : Prepared} {clc : TreeHead}
    (hMoved : st.currentChangeId = prepared.currentChangeId)
    (hId : response.changeId = prepared.currentChangeId + 1)
    (hAppend : st.currentClcState.tryAppend P.H change.toBytes = some clc) :
    Keeps P id st (st.advance P.H change response prepared clc) := by
  have hPending : (st.advance P.H change response prepared clc).pendingLocalChanges[id]? =
      st.pendingLocalChanges[id]?.map fun p =>
        if id = response.changeId ∧ p.leafHash = hLeaf P.H change.toBytes then
          { p with discharged := true }
        else p :=
    getElem?_dischargePendingLocalChange P.H st.pendingLocalChanges response.changeId
      change.toBytes id
  constructor
  · intro hGround p' hp' hDischarged
    rw [hPending, map_eq_some_iff] at hp'
    obtain ⟨p, hp, hEq⟩ := hp'
    split_ifs at hEq with hExact
    · subst hEq
      exact .last ⟨(hExact.1.trans hId).symm, hExact.2.symm, Option.isSome_of_eq_some hAppend⟩
    · subst hEq
      exact (hGround p hp hDischarged).append _
  · show _ = _
    rw [hPending, map_map]
    congr 1
    funext p
    rw [Function.comp_apply]
    split <;> rfl
  · intro start hChain
    refine Chained.append hChain ⟨?_, rfl, clc, hAppend, rfl⟩
    exact congrArg (· + 1) hMoved.symm

theorem keeps_validateAndApplyChange {now : Nat} {change : ChangelogEntry} {writes : Batch}
    (h : validateAndApplyChange P now st change response = .ok (writes, st')) :
    Keeps P id st st' := by
  rcases validateAndApplyChange_cases h with ⟨_, rfl⟩ | ⟨next, clc, hNext, hAppend, rfl⟩
  · exact Keeps.refl _
  · apply keeps_advance hNext.currentChangeId.symm ?_ hAppend
    rw [hNext.changeId, hNext.currentChangeId]

/-! ## Rolling back -/

/-- A roll-back takes back every mark made since the snapshot. -/
theorem keeps_rollback (h : SameSubmission id st st') :
    Keeps P id st (st'.rollbackChangelogState st.saveChangelogState) := by
  have hPending :
      (st'.rollbackChangelogState st.saveChangelogState).pendingLocalChanges[id]? =
        st'.pendingLocalChanges[id]?.map fun p =>
          if id ∈ undischargedIds st.pendingLocalChanges then { p with discharged := false }
          else p :=
    getElem?_foldl_markDischarged _ _ _ _
  constructor
  · intro hGround p' hp' hDischarged
    rw [hPending, map_eq_some_iff] at hp'
    obtain ⟨p, hp, hEq⟩ := hp'
    split_ifs at hEq with hReset
    · subst hEq
      cases hDischarged
    · subst hEq
      -- the mark was there when the snapshot was taken
      unfold SameSubmission at h
      rw [hp, map_some] at h
      obtain ⟨p₀, hp₀, hLeafHash⟩ := map_eq_some_iff.mp h.symm
      have hMarked : p₀.discharged = true := by
        by_contra hUnmarked
        exact hReset (mem_undischargedIds.mpr ⟨p₀, hp₀, Bool.eq_false_iff.mpr hUnmarked⟩)
      rw [← hLeafHash]
      exact hGround p₀ hp₀ hMarked
  · show _ = _
    rw [hPending, map_map, ← h]
    congr 1
    funext p
    split <;> rfl
  · exact fun start hChain => hChain

theorem keeps_rollbackIfApplied {appliedState : Bool} (h : Keeps P id st st') :
    Keeps P id st (st'.rollbackIfApplied st.saveChangelogState appliedState) := by
  unfold ClientState.rollbackIfApplied
  split
  · exact keeps_rollback h.same
  · exact h

/-! ## Proofs -/

theorem inclusion_of_mem_provenExpected {p : PendingLocalChange}
    (h : id ∈ provenExpected P st proof range expected)
    (hPending : st.pendingLocalChanges[id]? = some p) :
    ∃ inclusion : InclusionProof, inclusion.i = id ∧
      verifyWithLeafHash P.H range.endClcState inclusion p.leafHash = true := by
  have hCheck := (List.mem_filter.mp h).2
  by_cases hOut : id = 0 ∨ range.endChangeId < id
  · rw [if_pos hOut] at hCheck
    cases hCheck
  · rw [if_neg hOut, hPending] at hCheck
    split at hCheck
    · rename_i inclusion _ _ hSame
      obtain rfl := some.inj hSame
      exact ⟨inclusion, of_decide_eq_true hCheck⟩
    · cases hCheck

/-- The proofs behind the marks a fast-forward is about to set. -/
structure Provable (P : ClientParams T V) (st : ClientState) (range : VerifiedFfOutput)
    (proven : List Nat) : Prop where
  verifyFf : ∃ proof image, P.verifyFf proof image = .ok range
  inclusion : ∀ id ∈ proven, ∀ p : PendingLocalChange, st.pendingLocalChanges[id]? = some p →
    ∃ inclusion : InclusionProof, inclusion.i = id ∧
      verifyWithLeafHash P.H range.endClcState inclusion p.leafHash = true

theorem provable_of_checkFfProof {endEntry : Option ChangelogEntry}
    (h : checkFfProof P st anchor ff proof = .ok (range, endEntry)) (expected : List Nat) :
    Provable P st range (provenExpected P st proof range expected) where
  verifyFf := ⟨proof.proof, st.ffImageId, (checkFfProof_eq_ok h).1⟩
  inclusion _ hProven _ hp := inclusion_of_mem_provenExpected hProven hp

/-- Installing the head of a proof marks the submissions the server proved to be
under it. -/
theorem keeps_commitFfProof {endEntry : Option ChangelogEntry} {proven : List Nat}
    (hProvable : Provable P st range proven)
    (h : commitFfProof st anchor range endEntry proven = .ok st') : Keeps P id st st' := by
  obtain ⟨_, rfl⟩ := commitFfProof_eq_ok h
  obtain ⟨proof, image, hVerify⟩ := hProvable.verifyFf
  have hPending := getElem?_foldl_markDischarged true proven st.pendingLocalChanges id
  constructor
  · intro hGround p' hp' hDischarged
    have hp'' := hPending.symm.trans hp'
    rw [map_eq_some_iff] at hp''
    obtain ⟨p, hp, hEq⟩ := hp''
    split_ifs at hEq with hProven
    · subst hEq
      obtain ⟨inclusion, hIndex, hInclusion⟩ := hProvable.inclusion id hProven p hp
      exact .last ⟨⟨proof, image, hVerify⟩, inclusion, hIndex, hInclusion⟩
    · subst hEq
      exact (hGround p hp hDischarged).append _
  · show _ = _
    refine (congrArg (Option.map _) hPending).trans ?_
    rw [map_map]
    congr 1
    funext p
    split <;> rfl
  · exact fun start hChain => Chained.append hChain ⟨⟨proof, image, hVerify⟩, rfl⟩

theorem keeps_applyFfProof (h : applyFfProof P st anchor expected ff proof = .ok (range, st')) :
    Keeps P id st st' := by
  obtain ⟨endEntry, st₁, hCheck, hCommit, rfl⟩ := applyFfProof_eq_ok h
  have hKeeps : Keeps P id st st₁ :=
    keeps_commitFfProof (provable_of_checkFfProof hCheck expected) hCommit
  exact ⟨hKeeps.grounded, hKeeps.same, hKeeps.chained⟩

/-! ## Whole actions -/

theorem keeps_raggedLoop {rs rs' : RaggedState T} {failed : Option SdkError}
    {pairs : List (ChangelogEntry × ChangeResponse T)}
    (h : raggedLoop P rs pairs = (rs', failed)) : Keeps P id rs.state rs'.state := by
  induction pairs generalizing rs with
  | nil =>
    obtain ⟨rfl, _⟩ := Prod.mk.inj h
    exact Keeps.refl _
  | cons pair rest ih =>
    obtain ⟨change, response⟩ := pair
    rw [raggedLoop] at h
    cases hStep : raggedStep P rs change response with
    | error e =>
      rw [hStep] at h
      obtain ⟨rfl, _⟩ := Prod.mk.inj h
      exact Keeps.refl _
    | ok rs₁ =>
      rw [hStep] at h
      apply Keeps.trans ?_ (ih h)
      rcases raggedStep_cases hStep with
        ⟨_, rfl⟩ | ⟨writes, prepared, clc, hNext, hChange, hAppend, hState, _, _⟩ |
          ⟨_, hState, _, _⟩
      · exact Keeps.refl _
      · rw [hState]
        apply keeps_advance hChange.currentChangeId.symm ?_ hAppend
        rw [hNext, hChange.currentChangeId]
      · rw [hState]
        exact Keeps.refl _

theorem keeps_startRagged {range : Option VerifiedFfOutput}
    (h : startRagged P st ff anchor expected = .ok (range, st')) : Keeps P id st st' := by
  rcases (startRagged_eq_ok h).2 with ⟨_, _, rfl⟩ | ⟨proof, out, _, _, hApply⟩
  · exact Keeps.refl _
  · exact keeps_applyFfProof hApply

/-- A fast-forward keeps the invariant whether it succeeds or not. -/
theorem keeps_applyFastForwardFromAnchor (lookup : KeyLookup V) (st : ClientState)
    (ff : FastForwardData T) (anchor : FastForwardAnchor) (expected : List Nat) :
    Keeps P id st (applyFastForwardFromAnchor P lookup st ff anchor expected).2 := by
  unfold applyFastForwardFromAnchor
  cases hStart : startRagged P st ff anchor expected with
  | error e => exact Keeps.refl _
  | ok result =>
    obtain ⟨range, start⟩ := result
    dsimp only
    cases hLoop : raggedLoop P
        { state := start, appliedState := range.isSome, updates := [], applied := [] }
        (ff.changes.zip ff.responses) with
    | mk rs failed =>
      have hKeeps : Keeps P id st rs.state :=
        (keeps_startRagged hStart).trans (keeps_raggedLoop hLoop)
      cases failed with
      | some e => exact keeps_rollbackIfApplied hKeeps
      | none =>
        dsimp only
        cases deferredChecks P lookup ff anchor range rs.state with
        | error e => exact keeps_rollbackIfApplied hKeeps
        | ok u => exact hKeeps

theorem keeps_applyBroadcastChange (st : ClientState) (b : Broadcast T V) :
    Keeps P id st (applyBroadcastChange P st b) := by
  unfold applyBroadcastChange
  split
  · exact Keeps.refl _
  · cases hApply : validateAndApplyChange P b.now st b.change.entry b.response with
    | error e =>
      cases tryVerifyChangeSignature P b.lookup b.change.entry b.response.changeId
        b.change.hashedValues with
      | verified | keyResolutionFailed e | signatureInvalid e => exact Keeps.refl _
    | ok result =>
      obtain ⟨writes, st'⟩ := result
      have hKeeps : Keeps P id st st' := keeps_validateAndApplyChange hApply
      cases tryVerifyChangeSignature P b.lookup b.change.entry b.response.changeId
        b.change.hashedValues with
      | verified => exact hKeeps
      | signatureInvalid e => exact Keeps.refl _
      | keyResolutionFailed e =>
        unfold settleDeferred
        cases tryVerifyChangeSignature P b.retry b.change.entry b.response.changeId
          b.change.hashedValues with
        | verified => exact hKeeps
        | signatureInvalid e | keyResolutionFailed e => exact keeps_rollback hKeeps.same

theorem keeps_runActions (st : ClientState) (actions : List (Action T V)) :
    Keeps P id st (runActions P st actions) := by
  induction actions generalizing st with
  | nil => exact Keeps.refl _
  | cons action rest ih =>
    apply Keeps.trans ?_ (ih (runAction P st action))
    cases action with
    | broadcast b => exact keeps_applyBroadcastChange st b
    | fastForward lookup ff anchor expected =>
      exact keeps_applyFastForwardFromAnchor lookup st ff anchor expected

theorem keeps_fastForwardAttempts (st : ClientState) (attempts : List (Attempt T V)) :
    Keeps P id st (fastForwardAttempts P st attempts).2 := by
  induction attempts generalizing st with
  | nil => exact Keeps.refl _
  | cons attempt rest ih =>
    have hFlight : Keeps P id st (runActions P st attempt.inFlight) := keeps_runActions _ _
    rw [fastForwardAttempts]
    cases attempt.answer with
    | error e => exact hFlight
    | ok ff =>
      dsimp only
      split
      · split
        · exact hFlight
        · exact hFlight.trans (ih _)
      · have hApply : Keeps P id (runActions P st attempt.inFlight)
            (applyFastForwardFromAnchor P attempt.lookup (runActions P st attempt.inFlight) ff
              st.fastForwardAnchor (undischargedIds st.pendingLocalChanges)).2 :=
          keeps_applyFastForwardFromAnchor _ _ _ _ _
        split
        all_goals
          rename_i hRun
          rw [hRun] at hApply
        · exact hFlight.trans hApply
        · exact (hFlight.trans hApply).trans (ih _)
        · exact hFlight.trans hApply

theorem keeps_recoverViaFastForward (st : ClientState) (recovery : Recovery T V) :
    Keeps P id st (recoverViaFastForward P st recovery).2 := by
  have hAttempts : Keeps P id st (fastForwardAttempts P st recovery.attempts).2 :=
    keeps_fastForwardAttempts st recovery.attempts
  unfold recoverViaFastForward
  cases hRun : fastForwardAttempts P st recovery.attempts with
  | mk outcome st₁ =>
    rw [hRun] at hAttempts
    cases outcome with
    | error e => exact hAttempts
    | ok u => exact hAttempts.trans (keeps_runActions _ _)

theorem keeps_completePending (env : Surrounding T V) (st : ClientState) (change : Change)
    (response : ChangeResponse T) (ack : Nat) :
    Keeps P id st (completePending P env st change response ack).2 := by
  have hRecover (st : ClientState) : Keeps P id st (recoverViaFastForward P st env.recovery).2 :=
    keeps_recoverViaFastForward st env.recovery
  unfold completePending
  cases hApply : validateAndApplyChange P env.now st change.entry response with
  | ok result =>
    obtain ⟨writes, st₁⟩ := result
    have hKeeps : Keeps P id st st₁ := keeps_validateAndApplyChange hApply
    dsimp only
    split
    · exact hKeeps
    · have hAfter : Keeps P id st₁ (recoverViaFastForward P st₁ env.recovery).2 := hRecover st₁
      rcases hRun : recoverViaFastForward P st₁ env.recovery with ⟨_ | _, st₂⟩ <;>
        rw [hRun] at hAfter <;> exact hKeeps.trans hAfter
  | error e =>
    cases e with
    | fastForwardRequired reason =>
      have hAfter : Keeps P id st (recoverViaFastForward P st env.recovery).2 := hRecover st
      rcases hRun : recoverViaFastForward P st env.recovery with ⟨_ | _, st₁⟩ <;>
        rw [hRun] at hAfter <;> exact hAfter
    | _ => exact Keeps.refl _

/-! ## Completion -/

/-- A completion without the shortcut that reports success: the submission was
marked when its registration was taken back. -/
theorem completeSubmitted_eq_ok {env : Surrounding T V} {change : Change}
    {completed : CompletedChange T} (hAnswer : ¬ ReportsNoOp response)
    (h : completeSubmitted P env st change response = (.ok completed, st')) :
    completed.response = response ∧ ∃ st₁,
      st₁ = runActions P (completePending P env
        (runActions P (registerPending st response.changeId (hLeaf P.H change.entry.toBytes))
          env.racing) change response response.changeId).2 env.late ∧
      isDischarged st₁ response.changeId = true ∧ st' = removePending st₁ response.changeId := by
  unfold completeSubmitted at h
  rw [if_neg hAnswer] at h
  dsimp only at h
  cases hPending : completePending P env
      (runActions P (registerPending st response.changeId (hLeaf P.H change.entry.toBytes))
        env.racing) change response response.changeId with
  | mk outcome st₁ =>
    rw [hPending] at h
    cases outcome with
    | error e => cases (Prod.mk.inj h).1
    | ok writes =>
      split_ifs at h with hDischarged
      · obtain ⟨hCompleted, hSt⟩ := Prod.mk.inj h
        obtain rfl := Except.ok.inj hCompleted
        exact ⟨rfl, _, rfl, hDischarged, hSt.symm⟩
      · cases (Prod.mk.inj h).1

theorem incorporated_of_completeSubmitted {env : Surrounding T V} {change : Change}
    {completed : CompletedChange T} (hAnswer : ¬ ReportsNoOp response) (hFresh : st.history = [])
    (h : completeSubmitted P env st change response = (.ok completed, st')) :
    Incorporated P (hLeaf P.H change.entry.toBytes) response.changeId st'.history ∧
      ChainedFrom P (st.currentChangeId, st.currentClcState) st' := by
  obtain ⟨_, st₁, hSt₁, hDischarged, rfl⟩ := completeSubmitted_eq_ok hAnswer h
  have hRegistered : (registerPending st response.changeId
      (hLeaf P.H change.entry.toBytes)).pendingLocalChanges[response.changeId]? =
        some { leafHash := hLeaf P.H change.entry.toBytes, discharged := false } :=
    Std.ExtTreeMap.getElem?_insert_self
  have hStart : Grounded P response.changeId
      (registerPending st response.changeId (hLeaf P.H change.entry.toBytes)) := by
    intro p hp hMarked
    rw [hRegistered] at hp
    obtain rfl := some.inj hp
    cases hMarked
  have hKeeps : Keeps P response.changeId
      (registerPending st response.changeId (hLeaf P.H change.entry.toBytes)) st₁ := by
    rw [hSt₁]
    exact ((keeps_runActions _ _).trans (keeps_completePending _ _ _ _ _)).trans
      (keeps_runActions _ _)
  unfold isDischarged at hDischarged
  cases hPending : st₁.pendingLocalChanges[response.changeId]? with
  | none =>
    rw [hPending] at hDischarged
    cases hDischarged
  | some p =>
    rw [hPending] at hDischarged
    have hLeafHash : p.leafHash = hLeaf P.H change.entry.toBytes := by
      have hSame := hKeeps.same
      unfold SameSubmission at hSame
      rw [hPending, hRegistered] at hSame
      exact some.inj hSame
    rw [← hLeafHash]
    refine ⟨hKeeps.grounded hStart p hPending hDischarged, hKeeps.chained _ ?_⟩
    show Chained P _ st.history _
    rw [hFresh]
    rfl

end Incorporated

/-- Nothing else happens. -/
def quiet (now : Nat) : Surrounding Db Unit where
  now
  racing := []
  recovery := { attempts := [], afterwards := [], outcome := .ok () }
  late := []

/-- The first change of the space, as user 1 submits it. -/
def createChange : Change where
  entry := clientCreate
  hashedValues := ∅
  fits := clientCreate_fits

/-- A rotation of the keys of user 1. -/
def rotationChange : Change where
  entry := { sampleRefresh 1 with
    uid := 1, timestamp := 50, signature := [1], parentClc := hashCell 7 }
  hashedValues := ∅
  fits := by constructor <;> decide +kernel

/-- No witness, no affected rows, an unchanged root. -/
def noOpResponse : ChangeResponse Db where
  oldRoot := []
  newRoot := []
  prunedMerkleTree := .absent
  changeId := 0
  rowsAffected := 0
  acceptedAtServerTime := 50
  hashedValues := ∅

end EncryptedSpaces.Client
