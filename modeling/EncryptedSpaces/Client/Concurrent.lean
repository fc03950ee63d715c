import EncryptedSpaces.Client.Submit

/-!
# Tasks on one client

A client runs a broadcast listener, fast-forwards and the completions of its own
submissions as separate tasks over one changelog state.  Each access to the state
is atomic and everything between two accesses may interleave, so a task is a
program counter and one step of it is one access.  Fast-forwards exclude each
other by a lock; broadcasts and completions do not take it.

What the server does is part of a task: the clock, the key lookups before and
after, the response.  A run is a schedule of tasks, and `reported` and `verified`
record what the tasks have promised on the way: the discharges that completions
relied on, and the changes that a task applied and fully verified.
-/

namespace EncryptedSpaces.Client

open Encoding Changelog Ops Lib FastForward Server

/-- A change id and the leaf hash of its entry. -/
abbrev LogEntry := Nat × Digest

/-- The effect of one step. -/
structure Progress (Pc : Type) where
  client : ClientState
  pc : Pc
  reported : List LogEntry := []
  verified : List LogEntry := []

section Tasks

variable {T V : Type} (P : ClientParams T V)

/-- The entry a guarded write appends, if it is not skipped. -/
def movedBy (client : ClientState) (change : ChangelogEntry) (response : ChangeResponse T)
    (prepared : Prepared) : List LogEntry :=
  if client.currentChangeId = prepared.currentChangeId ∧
      response.changeId = prepared.currentChangeId + 1 then
    [(response.changeId, hLeaf P.H change.toBytes)]
  else []

/-! ## Broadcasts -/

inductive BroadcastPc where
  | start
  | checked (deferred : Bool)
  | saved (deferred : Bool) (snapshot : SavedChangelogState)
  | prepared (deferred : Bool) (snapshot : SavedChangelogState) (next : Prepared)
  | applied (deferred : Bool) (snapshot : SavedChangelogState) (moved : List LogEntry)
  | done

/-- `apply_broadcast_change`; `deferred` means that the signature is checked after
the change was applied. -/
def stepBroadcast (b : Broadcast T V) (client : ClientState) : BroadcastPc → Progress BroadcastPc
  | .start =>
    if b.response.changeId ≤ client.currentChangeId then { client, pc := .done }
    else
      match tryVerifyChangeSignature P b.lookup b.change.entry b.response.changeId
          b.change.hashedValues with
      | .signatureInvalid _ => { client, pc := .done }
      | .keyResolutionFailed _ => { client, pc := .checked true }
      | .verified => { client, pc := .checked false }
  | .checked deferred => { client, pc := .saved deferred client.saveChangelogState }
  | .saved deferred snapshot =>
    match prepareChange P b.now client b.change.entry b.response with
    | .ok (_, some next) => { client, pc := .prepared deferred snapshot next }
    | .ok (_, none) => { client, pc := .applied deferred snapshot [] }
    | .error _ => { client, pc := .done }
  | .prepared deferred snapshot next =>
    match applyStateUpdate P client b.change.entry b.response next with
    | .ok client' =>
      let moved := movedBy P client b.change.entry b.response next
      { client := client', pc := .applied deferred snapshot moved,
        verified := if deferred then [] else moved }
    | .error _ => { client, pc := .done }
  | .applied false _ _ => { client, pc := .done }
  | .applied true snapshot moved =>
    match tryVerifyChangeSignature P b.retry b.change.entry b.response.changeId
        b.change.hashedValues with
    | .verified => { client, pc := .done, verified := moved }
    | _ => { client := client.rollbackChangelogState snapshot, pc := .done }
  | .done => { client, pc := .done }

/-! ## Fast-forwards -/

structure FastForwardTask (T V : Type) where
  lookup : KeyLookup V
  ff : FastForwardData T
  anchor : FastForwardAnchor
  expected : List Nat

/-- What a fast-forward carries through its ragged changes. -/
structure RaggedPc (T : Type) where
  snapshot : SavedChangelogState
  range : Option VerifiedFfOutput
  appliedState : Bool
  todo : List (ChangelogEntry × ChangeResponse T)
  moved : List LogEntry

inductive FastForwardPc (T : Type) where
  | start
  | begun (snapshot : SavedChangelogState)
  | checked (snapshot : SavedChangelogState) (range : VerifiedFfOutput)
      (endEntry : Option ChangelogEntry) (proven : List Nat)
  | committed (snapshot : SavedChangelogState) (range : VerifiedFfOutput)
  | ragged (r : RaggedPc T)
  | prepared (r : RaggedPc T) (change : ChangelogEntry) (response : ChangeResponse T)
      (next : Prepared)
  | done

def FastForwardTask.pairs (f : FastForwardTask T V) : List (ChangelogEntry × ChangeResponse T) :=
  f.ff.changes.zip f.ff.responses

/-- Put the snapshot back if anything was written. -/
def giveUp (client : ClientState) (r : RaggedPc T) : Progress (FastForwardPc T) :=
  { client := client.rollbackIfApplied r.snapshot r.appliedState, pc := .done }

/-- The read of one ragged round. -/
def stepRagged (client : ClientState) (r : RaggedPc T) (change : ChangelogEntry)
    (response : ChangeResponse T) (rest : List (ChangelogEntry × ChangeResponse T)) :
    Progress (FastForwardPc T) :=
  match client.uid with
  | none => giveUp client r
  | some uid =>
    if response.changeId ≤ client.currentChangeId then
      { client, pc := .ragged { r with todo := rest } }
    else
      match prepareRagged P client uid change response with
      | .ok (_, next) => { client, pc := .prepared { r with todo := rest } change response next }
      | .error _ => giveUp client r

/-- `apply_fast_forward_from_anchor`; `busy` means that another one has the lock. -/
def stepFastForward (f : FastForwardTask T V) (busy : Bool) (client : ClientState) :
    FastForwardPc T → Progress (FastForwardPc T)
  | .start => if busy then { client, pc := .start } else
      { client, pc := .begun client.saveChangelogState }
  | .begun snapshot =>
    if f.ff.changes.length ≠ f.ff.responses.length then { client, pc := .done }
    else
      match validateFastForwardServerHeadIds f.ff f.anchor.changeId, f.ff.proof with
      | .error _, _ => { client, pc := .done }
      | .ok _, none => { client, pc := .ragged {
          snapshot, range := none, appliedState := false, todo := f.pairs, moved := [] } }
      | .ok _, some proof =>
        match checkFfProof P client f.anchor f.ff proof with
        | .ok (range, endEntry) =>
          let proven := provenExpected P client proof range f.expected
          { client, pc := .checked snapshot range endEntry proven }
        | .error _ => { client, pc := .done }
  | .checked snapshot range endEntry proven =>
    match commitFfProof client f.anchor range endEntry proven with
    | .ok client' => { client := client', pc := .committed snapshot range }
    | .error _ => { client, pc := .done }
  | .committed snapshot range =>
    { client := { client with currentDataCommitment := commitmentAfterProof f.ff range },
      pc := .ragged {
        snapshot, range := some range, appliedState := true, todo := f.pairs, moved := [] } }
  | .ragged r =>
    match r.todo with
    | (change, response) :: rest => stepRagged P client r change response rest
    | [] =>
      match deferredChecks P f.lookup f.ff f.anchor r.range client with
      | .ok () => { client, pc := .done, verified := r.moved }
      | .error _ => giveUp client r
  | .prepared r change response next =>
    match applyStateUpdate P client change response next with
    | .ok client' => { client := client', pc := .ragged { r with
        appliedState := true, moved := r.moved ++ movedBy P client change response next } }
    | .error _ => giveUp client r
  | .done => { client, pc := .done }

/-! ## Completions -/

/-- A submission with its response; `recovers` is what the fast-forward it may
have to wait for returns. -/
structure CompletionTask (T : Type) where
  change : Change
  response : ChangeResponse T
  now : Nat
  recovers : Bool

inductive CompletionPc where
  | start
  | checking
  | prepared (next : Prepared)
  | settled
  | recovering
  | finishing (succeeded : Bool)
  | done

/-- The report of a completion: the submission whose mark it found. -/
def reportOf (client : ClientState) (ack : Nat) (succeeded : Bool) : List LogEntry :=
  match client.pendingLocalChanges[ack]? with
  | some p => if succeeded ∧ p.discharged then [(ack, p.leafHash)] else []
  | none => []

/-- `complete_submitted`. -/
def stepCompletion (c : CompletionTask T) (client : ClientState) :
    CompletionPc → Progress CompletionPc
  | .start =>
    if ReportsNoOp c.response then { client, pc := .checking }
    else
      let leafHash := hLeaf P.H c.change.entry.toBytes
      { client := registerPending client c.response.changeId leafHash, pc := .checking }
  | .checking =>
    match prepareChange P c.now client c.change.entry c.response with
    | .ok (_, some next) => { client, pc := .prepared next }
    | .ok (_, none) => { client, pc := .settled }
    | .error (.fastForwardRequired _) => { client, pc := .recovering }
    | .error _ => { client, pc := .finishing false }
  | .prepared next =>
    match applyStateUpdate P client c.change.entry c.response next with
    | .ok client' =>
      let moved := movedBy P client c.change.entry c.response next
      { client := client', pc := .settled, verified := moved }
    | .error _ => { client, pc := .finishing false }
  | .settled =>
    if ReportsNoOp c.response then { client, pc := .done }
    else if isDischarged client c.response.changeId then { client, pc := .finishing true }
    else { client, pc := .recovering }
  | .recovering =>
    if ReportsNoOp c.response then { client, pc := .done }
    else { client, pc := .finishing c.recovers }
  | .finishing succeeded =>
    if ReportsNoOp c.response then { client, pc := .done }
    else
      { client := removePending client c.response.changeId, pc := .done,
        reported := reportOf client c.response.changeId succeeded }
  | .done => { client, pc := .done }

end Tasks

/-! ## The system -/

inductive Task (T V : Type) where
  | broadcast (b : Broadcast T V) (pc : BroadcastPc)
  | fastForward (f : FastForwardTask T V) (pc : FastForwardPc T)
  | completion (c : CompletionTask T) (pc : CompletionPc)

structure Sys (T V : Type) where
  client : ClientState
  tasks : List (Task T V)
  reported : List LogEntry
  verified : List LogEntry

section System

variable {T V : Type} (P : ClientParams T V)

/-- The snapshot a task may still put back, and what it applied since. -/
def Task.provisional : Task T V → Option (SavedChangelogState × List LogEntry)
  | .broadcast _ (.saved true snapshot) => some (snapshot, [])
  | .broadcast _ (.prepared true snapshot _) => some (snapshot, [])
  | .broadcast _ (.applied true snapshot moved) => some (snapshot, moved)
  | .fastForward _ (.begun snapshot) => some (snapshot, [])
  | .fastForward _ (.checked snapshot _ _ _) => some (snapshot, [])
  | .fastForward _ (.committed snapshot _) => some (snapshot, [])
  | .fastForward _ (.ragged r) => some (r.snapshot, r.moved)
  | .fastForward _ (.prepared r _ _ _) => some (r.snapshot, r.moved)
  | _ => none

/-- The task has the fast-forward lock. -/
def Task.holdsLock : Task T V → Bool
  | .fastForward f pc => (Task.fastForward f pc).provisional.isSome
  | _ => false

/-- One step of a task. -/
def stepTask (busy : Bool) (client : ClientState) : Task T V → Progress (Task T V)
  | .broadcast b pc =>
    let p := stepBroadcast P b client pc
    { client := p.client, pc := .broadcast b p.pc, reported := p.reported, verified := p.verified }
  | .fastForward f pc =>
    let p := stepFastForward P f busy client pc
    { client := p.client, pc := .fastForward f p.pc, reported := p.reported,
      verified := p.verified }
  | .completion c pc =>
    let p := stepCompletion P c client pc
    { client := p.client, pc := .completion c p.pc, reported := p.reported,
      verified := p.verified }

/-- The step of task `t`. -/
def stepAt (sys : Sys T V) (t : Nat) : Sys T V :=
  match sys.tasks[t]? with
  | none => sys
  | some task =>
    let busy := (sys.tasks.eraseIdx t).any (·.holdsLock)
    let p := stepTask P busy sys.client task
    { client := p.client
      tasks := sys.tasks.set t p.pc
      reported := sys.reported ++ p.reported
      verified := sys.verified ++ p.verified }

/-- A run under a schedule. -/
def runSchedule (sys : Sys T V) (schedule : List Nat) : Sys T V := schedule.foldl (stepAt P) sys

/-- No task but `t` is between its snapshot and its verdict. -/
def exclusiveAt (sys : Sys T V) (t : Nat) : Bool :=
  (List.range sys.tasks.length).all fun i =>
    i = t || ((sys.tasks[i]?.bind Task.provisional).isNone)

/-- Steps are taken only while no other task is in a provisional section. -/
def Exclusive : Sys T V → List Nat → Prop
  | _, [] => True
  | sys, t :: rest => exclusiveAt sys t = true ∧ Exclusive (stepAt P sys t) rest

/-- No submission is pending and no task is in a provisional section. -/
structure Sys.Initial (sys : Sys T V) : Prop where
  history : sys.client.history = []
  pendingLocalChanges : sys.client.pendingLocalChanges = ∅
  tasks : ∀ task ∈ sys.tasks, task.provisional = none
  reported : sys.reported = []
  verified : sys.verified = []

end System

end EncryptedSpaces.Client
