import EncryptedSpaces.Client.Concurrent
import EncryptedSpaces.Client.Incorporated

/-!
# Provisional sections

Between its snapshot and its verdict a task works on a chain that it may still
take back.  If no other task takes a step meanwhile, then nothing that was
promised is ever lost: every reported success and every fully verified change
stays on the client's log, through roll-backs too.  The code does not keep other
tasks out; the two schedules at the end lose a reported success and a verified
change.
-/

namespace EncryptedSpaces.Client

open Encoding Changelog Ops Lib FastForward Server List

section Isolation

variable {T V : Type}

/-- The entry is on the client's log. -/
def OnLog (P : ClientParams T V) (client : ClientState) (e : LogEntry) : Prop :=
  Incorporated P e.2 e.1 client.history

/-- The log moved on and no mark was set without reason. -/
structure Advances (P : ClientParams T V) (client client' : ClientState) : Prop where
  keeps : ∀ id, Keeps P id client client'
  onLog : ∀ e, OnLog P client e → OnLog P client' e

/-- What is promised holds of the snapshot too, and so do the marks that a
roll-back leaves in place. -/
structure Restorable (P : ClientParams T V) (snapshot : SavedChangelogState)
    (client : ClientState) (promised : LogEntry → Prop) : Prop where
  marks : ∀ (id : Nat) (p : PendingLocalChange), client.pendingLocalChanges[id]? = some p →
    id ∉ snapshot.undischargedPending →
    Incorporated P p.leafHash id snapshot.history
  promises : ∀ e, promised e → Incorporated P e.2 e.1 snapshot.history

/-- What holds of a task that may roll back. -/
structure Section (P : ClientParams T V) (client : ClientState) (promised : LogEntry → Prop)
    (task : Task T V) : Prop where
  restorable : ∀ snapshot moved, task.provisional = some (snapshot, moved) →
    Restorable P snapshot client promised ∧ ∀ e ∈ moved, OnLog P client e
  provable : ∀ f snapshot range endEntry proven,
    task = .fastForward f (.checked snapshot range endEntry proven) →
    Provable P client range proven

/-- What holds before and after each step of a task. -/
structure Fine (P : ClientParams T V) (client : ClientState) (promised : LogEntry → Prop)
    (task : Task T V) : Prop where
  grounded : ∀ id, Grounded P id client
  onLog : ∀ e, promised e → OnLog P client e
  provisional : Section P client promised task

variable {P : ClientParams T V} {client client' : ClientState} {promised : LogEntry → Prop}
  {task task' : Task T V}

/-! ## Advancing -/

theorem Advances.refl (client : ClientState) : Advances P client client :=
  ⟨fun _ => Keeps.refl _, fun _ h => h⟩

variable {change : ChangelogEntry} {response : ChangeResponse T} {snapshot : SavedChangelogState}
  {moved : List LogEntry} {f : FastForwardTask T V}

/-- A guarded write advances the log and puts what it moved on it. -/
theorem advances_applyStateUpdate {next : Prepared}
    (h : applyStateUpdate P client change response next = .ok client') :
    Advances P client client' ∧
      ∀ e ∈ movedBy P client change response next, OnLog P client' e := by
  rcases applyStateUpdate_cases h with rfl | ⟨clc, hMoved, hId, hAppend, rfl⟩
  · constructor
    · exact Advances.refl _
    · intro e he
      -- the state can only stay the same if the write was skipped
      by_cases hSkip : client'.currentChangeId = next.currentChangeId ∧
          response.changeId = next.currentChangeId + 1
      · obtain ⟨clc, -, hSame⟩ := advance_of_applyStateUpdate hSkip.1 hSkip.2 h
        have hAdvanced : client'.currentChangeId = next.currentChangeId + 1 :=
          congrArg ClientState.currentChangeId hSame
        omega
      · rw [movedBy, if_neg hSkip] at he
        cases he
  · constructor
    · constructor
      · intro id
        exact keeps_advance hMoved hId hAppend
      · exact fun e he => Incorporated.append he _
    · intro e he
      unfold movedBy at he
      rw [if_pos ⟨hMoved, hId⟩, mem_singleton] at he
      subst he
      exact Incorporated.last ⟨hId.symm, rfl, Option.isSome_of_eq_some hAppend⟩

/-- So does the installation of a proven head. -/
theorem advances_commitFfProof {anchor : FastForwardAnchor} {range : VerifiedFfOutput}
    {endEntry : Option ChangelogEntry} {proven : List Nat}
    (hProvable : Provable P client range proven)
    (h : commitFfProof client anchor range endEntry proven = .ok client') :
    Advances P client client' := by
  constructor
  · intro id
    exact keeps_commitFfProof hProvable h
  · intro e he
    obtain ⟨_, rfl⟩ := commitFfProof_eq_ok h
    exact Incorporated.append he _

/-! ## Snapshots -/

theorem exists_of_same {id : Nat} {p : PendingLocalChange} (h : SameSubmission id client client')
    (hp : client'.pendingLocalChanges[id]? = some p) :
    ∃ p₀, client.pendingLocalChanges[id]? = some p₀ ∧ p₀.leafHash = p.leafHash := by
  unfold SameSubmission at h
  rw [hp, Option.map_some] at h
  exact Option.map_eq_some_iff.mp h.symm

theorem restorable_save (hGround : ∀ id, Grounded P id client)
    (hLog : ∀ e, promised e → OnLog P client e) :
    Restorable P client.saveChangelogState client promised := by
  constructor
  · intro id p hp hMarked
    apply hGround id p hp
    by_contra hUnmarked
    exact hMarked (mem_undischargedIds.mpr ⟨p, hp, Bool.eq_false_iff.mpr hUnmarked⟩)
  · exact hLog

theorem Restorable.advances (h : Restorable P snapshot client promised)
    (hAdvances : Advances P client client') :
    Restorable P snapshot client' promised := by
  constructor
  · intro id p hp hMarked
    obtain ⟨p₀, hp₀, hLeafHash⟩ := exists_of_same (hAdvances.keeps id).same hp
    rw [← hLeafHash]
    exact h.marks id p₀ hp₀ hMarked
  · exact h.promises

/-- After the roll-back all promises hold again. -/
theorem Restorable.rollback (h : Restorable P snapshot client promised) :
    (∀ id, Grounded P id (client.rollbackChangelogState snapshot)) ∧
      ∀ e, promised e → OnLog P (client.rollbackChangelogState snapshot) e := by
  constructor
  · intro id p' hp' hDischarged
    have hPending := getElem?_foldl_markDischarged false snapshot.undischargedPending
      client.pendingLocalChanges id
    have hp'' := hPending.symm.trans hp'
    rw [Option.map_eq_some_iff] at hp''
    obtain ⟨p, hp, hEq⟩ := hp''
    split_ifs at hEq with hReset
    · subst hEq
      cases hDischarged
    · subst hEq
      exact h.marks id p hp hReset
  · exact h.promises

/-! ## Rules for one step -/

theorem Section.idle (h : task.provisional = none) : Section P client promised task where
  restorable snapshot moved hSome := by
    rw [h] at hSome
    cases hSome
  provable f snapshot range endEntry proven hTask := by
    rw [hTask] at h
    cases h

section

variable (h : Fine P client promised task)
include h

/-- The same promises, a state that moved on, a new program counter. -/
theorem Fine.advance (hAdvances : Advances P client client')
    (hSection : Section P client' promised task') : Fine P client' promised task' where
  grounded id := (hAdvances.keeps id).grounded (h.grounded id)
  onLog e he := hAdvances.onLog e (h.onLog e he)
  provisional := hSection

theorem Fine.pause (hIdle : task'.provisional = none) :
    Fine P client promised task' := h.advance (Advances.refl _) (.idle hIdle)

/-- New promises that hold, made outside of a section. -/
theorem Fine.promise {promised' : LogEntry → Prop}
    (hIdle : task.provisional = none) (hNew : ∀ e, promised' e → promised e ∨ OnLog P client e) :
    Fine P client promised' task where
  grounded := h.grounded
  onLog e he := (hNew e he).elim (h.onLog e) id
  provisional := .idle hIdle

/-- Taking a snapshot opens a section. -/
theorem Fine.save (hOpen : task'.provisional = some (client.saveChangelogState, []))
    (hChecked : ∀ f snapshot range endEntry proven,
      task' ≠ .fastForward f (.checked snapshot range endEntry proven)) :
    Fine P client promised task' := by
  apply h.advance (Advances.refl _)
  constructor
  · intro snapshot moved hSome
    rw [hOpen] at hSome
    obtain ⟨rfl, rfl⟩ := Prod.mk.inj (Option.some.inj hSome)
    exact ⟨restorable_save h.grounded h.onLog, fun e he => by cases he⟩
  · intro f snapshot range endEntry proven hTask
    exact absurd hTask (hChecked _ _ _ _ _)

/-- A step inside a section: the snapshot stays, and what is moved is on the
log. -/
theorem Fine.carry {moved' : List LogEntry}
    (hOpen : task.provisional = some (snapshot, moved)) (hAdvances : Advances P client client')
    (hStill : task'.provisional = some (snapshot, moved'))
    (hMoved : ∀ e ∈ moved', e ∈ moved ∨ OnLog P client' e)
    (hChecked : ∀ f snapshot range endEntry proven,
      task' = .fastForward f (.checked snapshot range endEntry proven) →
      Provable P client' range proven) :
    Fine P client' promised task' := by
  apply h.advance hAdvances
  obtain ⟨hRestorable, hOnLog⟩ := h.provisional.restorable _ _ hOpen
  constructor
  · intro snapshot' moved'' hSome
    rw [hStill] at hSome
    obtain ⟨rfl, rfl⟩ := Prod.mk.inj (Option.some.inj hSome)
    constructor
    · exact hRestorable.advances hAdvances
    · intro e he
      rcases hMoved e he with hOld | hNew
      · exact hAdvances.onLog e (hOnLog e hOld)
      · exact hNew
  · exact hChecked

/-- A step inside a section that moves nothing and leaves no checked proof. -/
theorem Fine.hold (hOpen : task.provisional = some (snapshot, moved))
    (hAdvances : Advances P client client') (hStill : task'.provisional = some (snapshot, moved))
    (hChecked : ∀ f snapshot range endEntry proven,
      task' ≠ .fastForward f (.checked snapshot range endEntry proven)) :
    Fine P client' promised task' :=
  h.carry hOpen hAdvances hStill (fun _ he => .inl he)
    fun _ _ _ _ _ hTask => absurd hTask (hChecked _ _ _ _ _)

/-- The section ends with a roll-back. -/
theorem Fine.rollback
    (hOpen : task.provisional = some (snapshot, moved)) (hIdle : task'.provisional = none) :
    Fine P (client.rollbackChangelogState snapshot) promised task' where
  grounded := (h.provisional.restorable _ _ hOpen).1.rollback.1
  onLog := (h.provisional.restorable _ _ hOpen).1.rollback.2
  provisional := .idle hIdle

end

/-! ## The tasks -/

/-- The state, the counter and the promises after a step. -/
def Progress.Fine {Pc : Type} (P : ClientParams T V) (promised : LogEntry → Prop)
    (toTask : Pc → Task T V) (p : Progress Pc) : Prop :=
  Client.Fine P p.client (fun e => promised e ∨ e ∈ p.reported ∨ e ∈ p.verified) (toTask p.pc)

/-- A step that makes no promise. -/
theorem fine_silent {Pc : Type} {toTask : Pc → Task T V} {pc : Pc}
    (h : Fine P client promised (toTask pc)) :
    ({ client, pc } : Progress Pc).Fine P promised toTask := by
  have hSame : (fun e => promised e ∨ e ∈ ([] : List LogEntry) ∨ e ∈ ([] : List LogEntry)) =
      promised := by
    funext e
    simp
  show Fine P client (fun e => promised e ∨ e ∈ [] ∨ e ∈ []) (toTask pc)
  rw [hSame]
  exact h

/-- A step that leaves no section open and verifies what is on the log. -/
theorem fine_verified {Pc : Type} {toTask : Pc → Task T V} {pc : Pc}
    (h : Fine P client promised (toTask pc)) (hIdle : (toTask pc).provisional = none)
    (hMoved : ∀ e ∈ moved, OnLog P client e) :
    ({ client, pc, verified := moved } : Progress Pc).Fine P promised toTask := by
  apply Fine.promise h hIdle
  rintro e (hOld | hReported | hVerified)
  · exact .inl hOld
  · cases hReported
  · exact .inr (hMoved e hVerified)

theorem fine_stepBroadcast {b : Broadcast T V} {pc : BroadcastPc}
    (h : Fine P client promised (.broadcast b pc)) :
    (stepBroadcast P b client pc).Fine P promised (.broadcast b) := by
  cases pc with
  | start =>
    rw [stepBroadcast]
    split
    · exact fine_silent (h.pause rfl)
    · split <;> exact fine_silent (h.pause rfl)
  | checked deferred =>
    cases deferred with
    | false => exact fine_silent (h.pause rfl)
    | true =>
      apply fine_silent
      exact h.save rfl (by rintro _ _ _ _ _ ⟨⟩)
  | saved deferred snapshot =>
    rw [stepBroadcast]
    cases deferred with
    | false =>
      split <;> exact fine_silent (h.pause rfl)
    | true =>
      split
      · exact fine_silent (h.hold rfl (Advances.refl _) rfl (by rintro _ _ _ _ _ ⟨⟩))
      · exact fine_silent (h.hold rfl (Advances.refl _) rfl (by rintro _ _ _ _ _ ⟨⟩))
      · exact fine_silent (h.pause rfl)
  | prepared deferred snapshot next =>
    rw [stepBroadcast]
    cases hApply : applyStateUpdate P client b.change.entry b.response next with
    | error e => exact fine_silent (h.pause rfl)
    | ok client' =>
      obtain ⟨hAdvances, hMoved⟩ := advances_applyStateUpdate hApply
      cases deferred with
      | false =>
        exact fine_verified (h.advance hAdvances (.idle rfl)) rfl hMoved
      | true =>
        exact fine_silent (h.carry rfl hAdvances rfl (fun e he => .inr (hMoved e he))
          (by rintro _ _ _ _ _ ⟨⟩))
  | applied deferred snapshot moved =>
    cases deferred with
    | false => exact fine_silent (h.pause rfl)
    | true =>
      rw [stepBroadcast]
      split
      · exact fine_verified (h.pause rfl) rfl (h.provisional.restorable _ _ rfl).2
      · exact fine_silent (h.rollback rfl rfl)
  | done => exact fine_silent (h.pause rfl)

theorem fine_giveUp {pc : FastForwardPc T} {r : RaggedPc T}
    (h : Fine P client promised (.fastForward f pc))
    (hOpen : (Task.fastForward f pc).provisional = some (r.snapshot, r.moved)) :
    (giveUp client r).Fine P promised (.fastForward f) := by
  apply fine_silent
  unfold ClientState.rollbackIfApplied
  split_ifs with hApplied
  · exact h.rollback hOpen rfl
  · exact h.pause rfl

theorem fine_stepRagged {r : RaggedPc T} {rest : List (ChangelogEntry × ChangeResponse T)}
    (h : Fine P client promised (.fastForward f (.ragged r))) :
    (stepRagged P client r change response rest).Fine P promised (.fastForward f) := by
  unfold stepRagged
  cases client.uid with
  | none => exact fine_giveUp h rfl
  | some uid =>
    dsimp only
    split
    · exact fine_silent (h.hold rfl (Advances.refl _) rfl (by rintro _ _ _ _ _ ⟨⟩))
    · split
      · exact fine_silent (h.hold rfl (Advances.refl _) rfl (by rintro _ _ _ _ _ ⟨⟩))
      · exact fine_giveUp h rfl

theorem fine_stepFastForward {busy : Bool} {pc : FastForwardPc T}
    (h : Fine P client promised (.fastForward f pc)) :
    (stepFastForward P f busy client pc).Fine P promised (.fastForward f) := by
  cases pc with
  | start =>
    rw [stepFastForward]
    split
    · exact fine_silent (h.pause rfl)
    · apply fine_silent
      exact h.save rfl (by rintro _ _ _ _ _ ⟨⟩)
  | begun snapshot =>
    rw [stepFastForward]
    split
    · exact fine_silent (h.pause rfl)
    · split
      · exact fine_silent (h.pause rfl)
      · exact fine_silent (h.hold rfl (Advances.refl _) rfl (by rintro _ _ _ _ _ ⟨⟩))
      · split
        · rename_i hCheck
          apply fine_silent
          apply h.carry rfl (Advances.refl _) rfl (fun e he => .inl he)
          intro _ _ _ _ _ hTask
          cases hTask
          exact provable_of_checkFfProof hCheck f.expected
        · exact fine_silent (h.pause rfl)
  | checked snapshot range endEntry proven =>
    rw [stepFastForward]
    cases hCommit : commitFfProof client f.anchor range endEntry proven with
    | error e => exact fine_silent (h.pause rfl)
    | ok client' =>
      have hProvable := h.provisional.provable _ _ _ _ _ rfl
      exact fine_silent (h.hold rfl (advances_commitFfProof hProvable hCommit) rfl
        (by rintro _ _ _ _ _ ⟨⟩))
  | committed snapshot range =>
    have hAdvances : Advances P client
        { client with currentDataCommitment := commitmentAfterProof f.ff range } :=
      ⟨fun _ => ⟨fun hGround => hGround, rfl, fun _ hChain => hChain⟩, fun _ he => he⟩
    exact fine_silent (h.hold rfl hAdvances rfl (by rintro _ _ _ _ _ ⟨⟩))
  | ragged r =>
    rw [stepFastForward]
    cases r.todo with
    | cons pair rest => exact fine_stepRagged h
    | nil =>
      cases deferredChecks P f.lookup f.ff f.anchor r.range client with
      | error e => exact fine_giveUp h rfl
      | ok u =>
        exact fine_verified (h.pause rfl) rfl (h.provisional.restorable _ _ rfl).2
  | prepared r change response next =>
    rw [stepFastForward]
    cases hApply : applyStateUpdate P client change response next with
    | error e => exact fine_giveUp h rfl
    | ok client' =>
      obtain ⟨hAdvances, hMoved⟩ := advances_applyStateUpdate hApply
      apply fine_silent
      apply h.carry rfl hAdvances rfl ?_ (by rintro _ _ _ _ _ ⟨⟩)
      intro e he
      rcases mem_append.mp he with hOld | hNew
      · exact .inl hOld
      · exact .inr (hMoved e hNew)
  | done => exact fine_silent (h.pause rfl)

/-- A fresh registration carries no mark. -/
theorem Fine.register (h : Fine P client promised task) (ack : Nat) (leafHash : Digest)
    (hIdle : task'.provisional = none) :
    Fine P (registerPending client ack leafHash) promised task' := by
  constructor
  · intro id p hp hDischarged
    have hInsert : (client.pendingLocalChanges.insert ack { leafHash, discharged := false })[id]? =
        some p := hp
    rw [Std.ExtTreeMap.getElem?_insert] at hInsert
    split at hInsert
    · obtain rfl := Option.some.inj hInsert
      cases hDischarged
    · exact h.grounded id p hInsert hDischarged
  · exact h.onLog
  · exact .idle hIdle

theorem Fine.remove (h : Fine P client promised task) (ack : Nat)
    (hIdle : task'.provisional = none) : Fine P (removePending client ack) promised task' := by
  constructor
  · intro id p hp hDischarged
    have hErase : (client.pendingLocalChanges.erase ack)[id]? = some p := hp
    rw [Std.ExtTreeMap.getElem?_erase] at hErase
    split at hErase
    · cases hErase
    · exact h.grounded id p hErase hDischarged
  · exact h.onLog
  · exact .idle hIdle

/-- A completion reports a submission whose mark is grounded. -/
theorem onLog_of_mem_reportOf (hGround : ∀ id, Grounded P id client) {ack : Nat} {succeeded : Bool}
    {e : LogEntry} (h : e ∈ reportOf client ack succeeded) : OnLog P client e := by
  unfold reportOf at h
  cases hp : client.pendingLocalChanges[ack]? with
  | none =>
    rw [hp] at h
    cases h
  | some p =>
    rw [hp] at h
    dsimp only at h
    by_cases hMarked : succeeded = true ∧ p.discharged = true
    · rw [if_pos hMarked, mem_singleton] at h
      subst h
      exact hGround ack p hp hMarked.2
    · rw [if_neg hMarked] at h
      cases h

theorem fine_stepCompletion {c : CompletionTask T} {pc : CompletionPc}
    (h : Fine P client promised (.completion c pc)) :
    (stepCompletion P c client pc).Fine P promised (.completion c) := by
  cases pc with
  | start =>
    rw [stepCompletion]
    split
    · exact fine_silent (h.pause rfl)
    · exact fine_silent (h.register _ _ rfl)
  | checking =>
    rw [stepCompletion]
    split <;> exact fine_silent (h.pause rfl)
  | prepared next =>
    rw [stepCompletion]
    cases hApply : applyStateUpdate P client c.change.entry c.response next with
    | error e => exact fine_silent (h.pause rfl)
    | ok client' =>
      obtain ⟨hAdvances, hMoved⟩ := advances_applyStateUpdate hApply
      exact fine_verified (h.advance hAdvances (.idle rfl)) rfl hMoved
  | settled =>
    rw [stepCompletion]
    split
    · exact fine_silent (h.pause rfl)
    · split <;> exact fine_silent (h.pause rfl)
  | recovering =>
    rw [stepCompletion]
    split <;> exact fine_silent (h.pause rfl)
  | finishing succeeded =>
    rw [stepCompletion]
    split
    · exact fine_silent (h.pause rfl)
    · have hNext : Fine P (removePending client c.response.changeId) promised
          (.completion c .done) := h.remove _ rfl
      apply hNext.promise rfl
      rintro e (hOld | hReported | hVerified)
      · exact .inl hOld
      · exact .inr (onLog_of_mem_reportOf h.grounded hReported)
      · cases hVerified
  | done => exact fine_silent (h.pause rfl)

theorem fine_stepTask {busy : Bool} (h : Fine P client promised task) :
    (stepTask P busy client task).Fine P promised id := by
  cases task with
  | broadcast b pc => exact fine_stepBroadcast h
  | fastForward f pc => exact fine_stepFastForward h
  | completion c pc => exact fine_stepCompletion h

/-! ## Runs -/

/-- What the tasks have promised so far. -/
def Sys.Promised (sys : Sys T V) (e : LogEntry) : Prop := e ∈ sys.reported ∨ e ∈ sys.verified

/-- Every task is fine in the shared state. -/
structure Sys.Sound (P : ClientParams T V) (sys : Sys T V) : Prop where
  grounded : ∀ id, Grounded P id sys.client
  onLog : ∀ e, sys.Promised e → OnLog P sys.client e
  tasks : ∀ (t : Nat) (task : Task T V), sys.tasks[t]? = some task →
    Section P sys.client sys.Promised task

variable {sys : Sys T V}

theorem Sys.Initial.sound (h : sys.Initial) : sys.Sound P := by
  constructor
  · intro id p hp
    rw [h.pendingLocalChanges] at hp
    cases hp
  · rintro e (hReported | hVerified)
    · rw [h.reported] at hReported
      cases hReported
    · rw [h.verified] at hVerified
      cases hVerified
  · intro t task hTask
    exact .idle (h.tasks task (mem_of_getElem? hTask))

theorem provisional_of_exclusiveAt {t i : Nat} (h : exclusiveAt sys t = true) (hi : i ≠ t)
    (hTask : sys.tasks[i]? = some task) : task.provisional = none := by
  have hLt : i < sys.tasks.length := (List.getElem?_eq_some_iff.mp hTask).1
  have hAll := all_eq_true.mp h i (mem_range.mpr hLt)
  rw [hTask, Bool.or_eq_true] at hAll
  rcases hAll with hSame | hNone
  · exact absurd (of_decide_eq_true hSame) hi
  · exact Option.isNone_iff_eq_none.mp hNone

/-- A step while no other task is in a section keeps the system sound. -/
theorem Sys.Sound.stepAt (h : sys.Sound P) {t : Nat} (hExclusive : exclusiveAt sys t = true) :
    (stepAt P sys t).Sound P := by
  unfold Client.stepAt
  cases hTask : sys.tasks[t]? with
  | none => exact h
  | some task =>
    dsimp only
    have hFine : Fine P sys.client sys.Promised task := ⟨h.grounded, h.onLog, h.tasks t task hTask⟩
    have hNext : (stepTask P ((sys.tasks.eraseIdx t).any (·.holdsLock)) sys.client task).Fine P
        sys.Promised id := fine_stepTask hFine
    generalize stepTask P ((sys.tasks.eraseIdx t).any (·.holdsLock)) sys.client task = p
      at hNext ⊢
    have hPromised : (fun e => sys.Promised e ∨ e ∈ p.reported ∨ e ∈ p.verified) =
        fun e => e ∈ sys.reported ++ p.reported ∨ e ∈ sys.verified ++ p.verified := by
      funext e
      unfold Sys.Promised
      rw [mem_append, mem_append, eq_iff_iff]
      tauto
    unfold Progress.Fine at hNext
    rw [hPromised] at hNext
    constructor
    · exact hNext.grounded
    · exact hNext.onLog
    · intro i task' hTask'
      have hSet : (sys.tasks.set t p.pc)[i]? = some task' := hTask'
      by_cases hi : i = t
      · subst hi
        rw [List.getElem?_set_self (List.getElem?_eq_some_iff.mp hTask).1] at hSet
        obtain rfl := Option.some.inj hSet
        exact hNext.provisional
      · rw [getElem?_set_ne (Ne.symm hi)] at hSet
        exact .idle (provisional_of_exclusiveAt hExclusive hi hSet)

end Isolation

/-- If steps are taken only while no other task is between its snapshot and its
verdict, then whatever was reported as successful and whatever was fully verified
is on the client's log, after every schedule. -/
theorem runSchedule_keeps_promises {T V : Type} (P : ClientParams T V) {sys : Sys T V}
    (hInit : sys.Initial) (schedule : List Nat) (hExclusive : Exclusive P sys schedule) :
    ∀ e, (runSchedule P sys schedule).Promised e →
      OnLog P (runSchedule P sys schedule).client e := by
  have hSound : sys.Sound P := hInit.sound
  clear hInit
  induction schedule generalizing sys with
  | nil => exact hSound.onLog
  | cons t rest ih => exact ih hExclusive.2 (hSound.stepAt hExclusive.1)

/-! ## Two races -/

instance decidableExclusive {T V : Type} (P : ClientParams T V) :
    (sys : Sys T V) → (schedule : List Nat) → Decidable (Exclusive P sys schedule)
  | _, [] => isTrue trivial
  | sys, t :: rest =>
    have := decidableExclusive P (stepAt P sys t) rest
    inferInstanceAs (Decidable (exclusiveAt sys t = true ∧ Exclusive P (stepAt P sys t) rest))

/-- User 1 after the first change. -/
def createdClient : ClientState :=
  ((validateAndApplyChange sampleClient 50 sampleGenesis clientCreate
    (sampleResponse 1 clientCreate internalDb)).toOption.map Prod.snd).getD sampleGenesis

/-- User 1's second change. -/
def inviteChange : Change where
  entry := clientInvite clientRoot
  hashedValues := ∅
  fits := clientInvite_fits

def inviteResponse : ChangeResponse Db :=
  sampleResponse 2 (clientInvite clientRoot) (sampleAfter 1 clientCreate internalDb)

/-- The server broadcasts the change while its sender completes it, and never lets
the key be read. -/
def race : Sys Db Unit where
  client := { createdClient with history := [] }
  tasks :=
    [ .broadcast { change := inviteChange, response := inviteResponse, now := 60,
                   lookup := noLookup, retry := noLookup } .start,
      .completion { change := inviteChange, response := inviteResponse, now := 60,
                    recovers := false } .start ]
  reported := []
  verified := []

theorem race_initial : race.Initial where
  history := rfl
  pendingLocalChanges := Std.ExtTreeMap.isEmpty_iff.mp (by decide +kernel)
  tasks task hTask := by
    rcases mem_cons.mp hTask with rfl | hTail
    · rfl
    · rw [mem_singleton] at hTail
      subst hTail
      rfl
  reported := rfl
  verified := rfl

/-- One task after the other: the reported change is on the log. -/
theorem race_in_turn : ∃ e, (runSchedule sampleClient race [1, 1, 1, 1, 1, 0, 0]).Promised e ∧
    OnLog sampleClient (runSchedule sampleClient race [1, 1, 1, 1, 1, 0, 0]).client e := by
  have hPromised : (runSchedule sampleClient race [1, 1, 1, 1, 1, 0, 0]).Promised
      (2, hLeaf checksum (clientInvite clientRoot).toBytes) := by
    apply Or.inl
    decide +kernel
  exact ⟨_, hPromised, runSchedule_keeps_promises sampleClient race_initial _
    (by decide +kernel) _ hPromised⟩

/-- The broadcast applies the change provisionally, the completion reports success
on the strength of that, and the broadcast rolls back.  If the snapshot was taken
before the completion applied the change itself, the roll-back discards a verified
change. -/
theorem race_loses_promises : race.Initial ∧
    (∃ e ∈ (runSchedule sampleClient race [1, 0, 0, 0, 0, 1, 1, 1, 0]).reported,
      ¬ OnLog sampleClient (runSchedule sampleClient race [1, 0, 0, 0, 0, 1, 1, 1, 0]).client e) ∧
    (∃ e ∈ (runSchedule sampleClient race [0, 0, 1, 1, 1, 0, 0]).verified,
      ¬ OnLog sampleClient (runSchedule sampleClient race [0, 0, 1, 1, 1, 0, 0]).client e) := by
  have hLost (sys : Sys Db Unit) (hNone : sys.client.history.isEmpty = true) (e : LogEntry) :
      ¬ OnLog sampleClient sys.client e := by
    rintro ⟨step, hStep, _⟩
    rw [isEmpty_iff.mp hNone] at hStep
    cases hStep
  refine ⟨race_initial, ?_, ?_⟩
  · refine ⟨(2, hLeaf checksum (clientInvite clientRoot).toBytes), by decide +kernel, ?_⟩
    exact hLost _ (by decide +kernel) _
  · refine ⟨(2, hLeaf checksum (clientInvite clientRoot).toBytes), by decide +kernel, ?_⟩
    exact hLost _ (by decide +kernel) _

end EncryptedSpaces.Client
