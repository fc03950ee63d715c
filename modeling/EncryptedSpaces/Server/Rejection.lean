import EncryptedSpaces.Server.ServerLog

/-!
# What a rejected change leaves behind

`handle_change` writes the tree, the hash store, the log and the signature chain
one after the other, with checks in between, and tries last to extend the
fast-forward proof.  A check that fails there, or a prover that does, is what the
caller sees; what was written stays.  Up to the write of the tree an error leaves
the space as it was.
-/

namespace EncryptedSpaces.Server

open Encoding Changelog Ops Lib Acl FastForward

section Rejection

variable {T V : Type} {P : ServerParams T V} {st st' : SpaceState T} {trace : T → Trace T}
  {change : Change} {auth : AuthContext} {now : Nat} {prover : ProverOutcome}
  {referenced : List Digest} {tree : T}

/-- A full batch of this state gets no proof. -/
def ProverOutcome.FailsOn (st : SpaceState T) : ProverOutcome → Prop
  | .skipped => False
  | .proved _ => st.treeSnapshot = none
  | _ => True

/-- With the tree written, the call stops before its end and has changed something:
at the tracer's result, at the replay or the append, or at the proof of a batch. -/
def StopsLate (P : ServerParams T V) (st : SpaceState T) (trace : Trace T) (change : Change)
    (referenced : List Digest) (tree : T) (prover : ProverOutcome) : Prop :=
  match emitWitness P trace tree with
  | .error _ => tree ≠ st.tree
  | .ok witness =>
    match st.changelog.addChange P change.entry witness (P.merk.hash st.tree)
        (P.merk.hash tree) with
    | .error _ => tree ≠ st.tree ∨
        insertReferencedHashedValues st.hashStore change.hashedValues referenced ≠ st.hashStore
    | .ok _ => st.changelog.provenUpTo + st.ffBatchSize ≤ st.changelog.numChanges + 1 ∧
        prover.FailsOn st

/-- The change is accepted and written, and the call stops late. -/
def FailsLate (P : ServerParams T V) (st : SpaceState T) (trace : T → Trace T) (change : Change)
    (auth : AuthContext) (now : Nat) (prover : ProverOutcome) : Prop :=
  ∃ referenced tree, acceptanceChecks P st change auth now = .ok referenced ∧
    doQueryWithPrunedMerkleTree P st.takeSnapshot change.entry = .ok (some tree) ∧
    StopsLate P st.takeSnapshot (trace tree) change referenced tree prover

/-- The proof step fails exactly on a full batch with a failing prover. -/
theorem maybeGenerateFfProof_error_iff :
    (∃ e st', maybeGenerateFfProof st prover = (.error e, st')) ↔
      st.changelog.provenUpTo + st.ffBatchSize ≤ st.changelog.numChanges ∧ prover.FailsOn st := by
  unfold maybeGenerateFfProof ProverOutcome.FailsOn updateFfProof
  by_cases hFull : st.changelog.provenUpTo + st.ffBatchSize ≤ st.changelog.numChanges
  · cases hSnapshot : st.treeSnapshot with
    | none => cases prover <;> simp [hFull]
    | some tree => cases prover <;> simp [hFull]
  · cases prover <;> simp [hFull]

theorem addChange_eq_ok {log : ChangeLog} {witness : Witness T} {oldRoot newRoot : Digest}
    (h : st.changelog.addChange P change.entry witness oldRoot newRoot = .ok log) :
    log.numChanges = st.changelog.numChanges + 1 ∧ log.provenUpTo = st.changelog.provenUpTo := by
  obtain ⟨_, _, h⟩ := Lib.Except.bind_eq_ok.mp h
  obtain ⟨_, _, _, _, rfl⟩ := append_eq_some (orGeneric_eq_ok.mp h)
  exact ⟨List.length_append, rfl⟩

/-- The proof step of a committed change fails on a full batch with a failing
prover, and leaves the change in the log. -/
theorem proofStep_error_iff (P : ServerParams T V) (change : Change) {hashStore : HashedValues}
    {witness : Witness T} {log : ChangeLog} (hNum : log.numChanges = st.changelog.numChanges + 1)
    (hProven : log.provenUpTo = st.changelog.provenUpTo) :
    ((∃ e st', maybeGenerateFfProof (committedState P st change hashStore tree witness log now)
        prover = (.error e, st')) ↔
      st.changelog.provenUpTo + st.ffBatchSize ≤ st.changelog.numChanges + 1 ∧
        prover.FailsOn st) ∧
    (maybeGenerateFfProof (committedState P st change hashStore tree witness log now)
      prover).2.changelog.numChanges = st.changelog.numChanges + 1 := by
  constructor
  · rw [maybeGenerateFfProof_error_iff, ← hNum, ← hProven]
    cases prover <;> exact Iff.rfl
  · have hFrame := maybeGenerateFfProof_frame (Prod.eta (maybeGenerateFfProof
      (committedState P st change hashStore tree witness log now) prover)).symm
    rw [hFrame.2.2.2.2.2]
    exact hNum

/-- Behind the witness, the replay, the append or the proof of a batch fails. -/
def CommitFails (P : ServerParams T V) (st : SpaceState T) (change : Change) (witness : Witness T)
    (tree : T) (prover : ProverOutcome) : Prop :=
  match st.changelog.addChange P change.entry witness (P.merk.hash st.tree) (P.merk.hash tree) with
  | .error _ => True
  | .ok _ => st.changelog.provenUpTo + st.ffBatchSize ≤ st.changelog.numChanges + 1 ∧
      prover.FailsOn st

theorem commitChange_error_iff (now : Nat) (referenced : List Digest) {trace : Trace T}
    {witness : Witness T} (hEmit : emitWitness P trace tree = .ok witness) :
    (∃ e st', commitChange P st trace change referenced tree now prover = (.error e, st')) ↔
      CommitFails P st change witness tree prover := by
  unfold commitChange CommitFails
  rw [hEmit]
  dsimp only
  cases hAdd : st.changelog.addChange P change.entry witness (P.merk.hash st.tree)
      (P.merk.hash tree) with
  | error e => exact iff_of_true ⟨e, _, rfl⟩ trivial
  | ok log =>
    dsimp only
    rw [← (proofStep_error_iff P change (addChange_eq_ok hAdd).1 (addChange_eq_ok hAdd).2).1]
    cases maybeGenerateFfProof (committedState P st change
        (insertReferencedHashedValues st.hashStore change.hashedValues referenced) tree witness
        log now) prover with
    | mk proved st₁ =>
      cases proved with
      | error e => exact iff_of_true ⟨e, st₁, rfl⟩ ⟨e, st₁, rfl⟩
      | ok u => simp

/-- The tree is written on every path. -/
theorem commitChange_tree (st : SpaceState T) (trace : Trace T) (change : Change)
    (referenced : List Digest) (tree : T) (now : Nat) (prover : ProverOutcome) :
    (commitChange P st trace change referenced tree now prover).2.tree = tree := by
  unfold commitChange
  split
  · rfl
  · dsimp only
    split
    · rfl
    · split
      · rename_i hProof
        exact (maybeGenerateFfProof_frame hProof).1
      · rename_i hProof
        exact (maybeGenerateFfProof_frame hProof).1

/-- From the write of the tree on. -/
theorem commitChange_noTrace_iff (now : Nat) {trace : Trace T} :
    (∀ e st', commitChange P st trace change referenced tree now prover = (.error e, st') →
      NoTrace st st') ↔ ¬ StopsLate P st trace change referenced tree prover := by
  unfold commitChange StopsLate
  cases emitWitness P trace tree with
  | error e =>
    dsimp only
    constructor
    · intro hNoTrace hChanged
      exact hChanged (hNoTrace e _ rfl).tree
    · intro hSame e' st' h
      obtain ⟨-, rfl⟩ := Prod.mk.inj h
      exact ⟨not_not.mp hSame, rfl, rfl, rfl, rfl⟩
  | ok witness =>
    dsimp only
    cases hAdd : st.changelog.addChange P change.entry witness (P.merk.hash st.tree)
        (P.merk.hash tree) with
    | error e =>
      dsimp only
      constructor
      · intro hNoTrace hChanged
        have hSame := hNoTrace e _ rfl
        exact hChanged.elim (fun h => h hSame.tree) fun h => h hSame.hashStore
      · intro hSame e' st' h
        obtain ⟨-, rfl⟩ := Prod.mk.inj h
        have hBoth := not_or.mp hSame
        exact ⟨not_not.mp hBoth.1, rfl, rfl, rfl, not_not.mp hBoth.2⟩
    | ok log =>
      dsimp only
      obtain ⟨hIff, hLength⟩ := proofStep_error_iff P change (addChange_eq_ok hAdd).1
        (addChange_eq_ok hAdd).2
      rw [← hIff]
      cases hProof : maybeGenerateFfProof (committedState P st change
          (insertReferencedHashedValues st.hashStore change.hashedValues referenced) tree witness
          log now) prover with
      | mk proved st₁ =>
        rw [hProof] at hLength
        cases proved with
        | error e =>
          refine iff_of_false (fun hNoTrace => ?_) fun hNone => hNone ⟨e, st₁, rfl⟩
          rw [(hNoTrace e st₁ rfl).changelog] at hLength
          omega
        | ok u => simp

theorem noTrace_takeSnapshot {st' : SpaceState T} :
    NoTrace st.takeSnapshot st' ↔ NoTrace st st' := by
  constructor <;> intro h <;>
    exact ⟨by simpa using h.tree, by simpa using h.changelog, by simpa using h.sigrefMap,
      by simpa using h.changeResponses, by simpa using h.hashStore⟩

end Rejection

/-! ## A proof that fails -/

/-- User 1 creates the space. -/
def createCall : Call :=
  sampleCall (signedSample sampleCreate 50) [1] sampleCreate_fits

/-- A space that extends its proof at every change. -/
def eagerSpace : SpaceState Db := { sampleSpace with ffBatchSize := 1 }

end EncryptedSpaces.Server
