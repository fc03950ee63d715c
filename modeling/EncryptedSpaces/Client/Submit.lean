import EncryptedSpaces.Client.FastForward

/-!
# Completing a submitted change

The client reports a mutation as successful once its exact entry is known to be
on the log.  It registers the acknowledged entry as pending, tries to apply it in
sequence and otherwise fast-forwards; a broadcast that other tasks handle in the
meantime may discharge it as well.  A response that reports no affected rows and
an unchanged root is taken for a no-op of the server and needs no discharge.

What the server and the other tasks do while a completion waits is an input.
Other tasks run whole actions here; the finer interleavings are the subject of
another module.
-/

namespace EncryptedSpaces.Client

open Encoding Changelog Ops Lib FastForward Server

/-! ## Broadcasts -/

/-- A broadcast, the clock, and the key lookups before and after it is applied. -/
structure Broadcast (T V : Type) where
  change : Change
  response : ChangeResponse T
  now : Nat
  lookup : KeyLookup V
  retry : KeyLookup V

section Broadcast

variable {T V : Type} (P : ClientParams T V)

/-- The applied state, or the snapshot if the signature still cannot be
verified. -/
def settleDeferred (b : Broadcast T V) (saved : SavedChangelogState) (st : ClientState) :
    ClientState :=
  match tryVerifyChangeSignature P b.retry b.change.entry b.response.changeId
      b.change.hashedValues with
  | .verified => st
  | _ => st.rollbackChangelogState saved

/-- `apply_broadcast_change`, as far as it writes the changelog state.  A change
that needs a fast-forward leaves the state alone; the fast-forward is an action
of its own. -/
def applyBroadcastChange (st : ClientState) (b : Broadcast T V) : ClientState :=
  if b.response.changeId ≤ st.currentChangeId then st
  else
    match tryVerifyChangeSignature P b.lookup b.change.entry b.response.changeId
        b.change.hashedValues,
      validateAndApplyChange P b.now st b.change.entry b.response with
    | .signatureInvalid _, _ => st
    | .verified, .ok (_, st') => st'
    | .keyResolutionFailed _, .ok (_, st') => settleDeferred P b st.saveChangelogState st'
    | _, .error _ => st

end Broadcast

/-- What another task does on the shared state. -/
inductive Action (T V : Type) where
  | broadcast (b : Broadcast T V)
  | fastForward (lookup : KeyLookup V) (ff : FastForwardData T) (anchor : FastForwardAnchor)
      (expected : List Nat)

section Submit

variable {T V : Type} (P : ClientParams T V)

def runAction (st : ClientState) : Action T V → ClientState
  | .broadcast b => applyBroadcastChange P st b
  | .fastForward lookup ff anchor expected =>
    (applyFastForwardFromAnchor P lookup st ff anchor expected).2

def runActions (st : ClientState) (actions : List (Action T V)) : ClientState :=
  actions.foldl (runAction P) st

/-! ## Recovery -/

/-- One round trip of the recovery: what happens while the request is in flight
and what comes back. -/
structure Attempt (T V : Type) where
  inFlight : List (Action T V)
  answer : Except SdkError (FastForwardData T)
  lookup : KeyLookup V

/-- The attempts within the time budget, and what the reads afterwards do. -/
structure Recovery (T V : Type) where
  attempts : List (Attempt T V)
  afterwards : List (Action T V)
  outcome : Except SdkError Unit

/-- The retry loop of `recover_via_fast_forward`. -/
def fastForwardAttempts : ClientState → List (Attempt T V) → Except SdkError Unit × ClientState
  | st, [] =>
    (.error (.fastForwardRequired "client state kept advancing during fast-forward"), st)
  | st, attempt :: rest =>
    let anchor := st.fastForwardAnchor
    let expected := undischargedIds st.pendingLocalChanges
    let st := runActions P st attempt.inFlight
    match attempt.answer with
    | .error e => (.error e, st)
    | .ok ff =>
      if st.currentChangeId ≠ anchor.changeId then
        if 0 < fastForwardTargetChangeId ff ∧
            fastForwardTargetChangeId ff ≤ st.currentChangeId then (.ok (), st)
        else fastForwardAttempts st rest
      else
        match applyFastForwardFromAnchor P attempt.lookup st ff anchor expected with
        | (.ok _, st) => (.ok (), st)
        | (.error .fastForwardStateAdvanced, st) => fastForwardAttempts st rest
        | (.error e, st) => (.error e, st)

/-- `recover_via_fast_forward`: the loop, then the tables are read again. -/
def recoverViaFastForward (st : ClientState) (recovery : Recovery T V) :
    Except SdkError Unit × ClientState :=
  match fastForwardAttempts P st recovery.attempts with
  | (.error e, st) => (.error e, st)
  | (.ok (), st) => (recovery.outcome, runActions P st recovery.afterwards)

/-! ## Completion -/

/-- The clock, and what other tasks do around the completion. -/
structure Surrounding (T V : Type) where
  now : Nat
  /-- Between the registration and the sequential attempt. -/
  racing : List (Action T V)
  recovery : Recovery T V
  /-- Before the registration is taken back. -/
  late : List (Action T V)

structure CompletedChange (T : Type) where
  change : Change
  response : ChangeResponse T
  sequentialWrites : Option Batch

/-- The server claims that there was nothing to do. -/
def ReportsNoOp (response : ChangeResponse T) : Prop :=
  response.rowsAffected = 0 ∧ response.oldRoot = response.newRoot

instance (response : ChangeResponse T) : Decidable (ReportsNoOp response) := by
  unfold ReportsNoOp
  infer_instance

def isDischarged (st : ClientState) (ack : Nat) : Bool :=
  (st.pendingLocalChanges[ack]?.map (·.discharged)).getD false

/-- The shortcut for a no-op. -/
def completeNoOp (env : Surrounding T V) (st : ClientState) (change : Change)
    (response : ChangeResponse T) : Except SdkError (CompletedChange T) × ClientState :=
  match validateAndApplyChange P env.now st change.entry response with
  | .ok (writes, st) => (.ok { change, response, sequentialWrites := some writes }, st)
  | .error (.fastForwardRequired _) =>
    match recoverViaFastForward P st env.recovery with
    | (.ok (), st) => (.ok { change, response, sequentialWrites := none }, st)
    | (.error e, st) => (.error e, st)
  | .error e => (.error e, st)

/-- `complete_pending`: the writes of a sequential append, if it was one. -/
def completePending (env : Surrounding T V) (st : ClientState) (change : Change)
    (response : ChangeResponse T) (ack : Nat) : Except SdkError (Option Batch) × ClientState :=
  match validateAndApplyChange P env.now st change.entry response with
  | .ok (writes, st) =>
    if isDischarged st ack then (.ok (some writes), st)
    else
      match recoverViaFastForward P st env.recovery with
      | (.ok (), st) => (.ok none, st)
      | (.error e, st) => (.error e, st)
  | .error (.fastForwardRequired _) =>
    match recoverViaFastForward P st env.recovery with
    | (.ok (), st) => (.ok none, st)
    | (.error e, st) => (.error e, st)
  | .error e => (.error e, st)

def registerPending (st : ClientState) (ack : Nat) (leafHash : Digest) : ClientState :=
  { st with
    pendingLocalChanges := st.pendingLocalChanges.insert ack { leafHash, discharged := false } }

def removePending (st : ClientState) (ack : Nat) : ClientState :=
  { st with pendingLocalChanges := st.pendingLocalChanges.erase ack }

def notProven (ack : Nat) : SdkError :=
  .validationError (s!"issue #212: server acknowledged change {ack} but fast-forward did not " ++
    "prove the exact submitted entry was incorporated; failing closed")

/-- `complete_submitted`. -/
def completeSubmitted (env : Surrounding T V) (st : ClientState) (change : Change)
    (response : ChangeResponse T) : Except SdkError (CompletedChange T) × ClientState :=
  if ReportsNoOp response then completeNoOp P env st change response
  else
    let ack := response.changeId
    let registered := registerPending st ack (hLeaf P.H change.entry.toBytes)
    let (outcome, st) :=
      completePending P env (runActions P registered env.racing) change response ack
    let st := runActions P st env.late
    let discharged := isDischarged st ack
    let st := removePending st ack
    match outcome with
    | .error e => (.error e, st)
    | .ok writes =>
      if discharged then (.ok { change, response, sequentialWrites := writes }, st)
      else (.error (notProven ack), st)

/-! ## Key rotation -/

/-- The key pairs of the client's key manager. -/
structure KeyPairs (K : Type) where
  updateKeyPair : K
  authKeyPair : K

/-- The end of `rotate_user_keys`: the fresh pairs are installed once the rotation
is complete. -/
def finishRotation {K : Type} (env : Surrounding T V) (st : ClientState) (change : Change)
    (response : ChangeResponse T) (fresh installed : KeyPairs K) :
    Except SdkError (KeyPairs K) × ClientState × KeyPairs K :=
  match completeSubmitted P env st change response with
  | (.ok completed, st) =>
    (.ok fresh, { st with keyValidFromChangeId := completed.response.changeId }, fresh)
  | (.error e, st) => (.error e, st, installed)

end Submit

end EncryptedSpaces.Client
