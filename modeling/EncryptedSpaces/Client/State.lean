import EncryptedSpaces.FastForward.Sequence
import EncryptedSpaces.Server.State

/-!
# The client's view of the changelog

A client keeps the data commitment and the head of the changelog it has
verified, the last change of every user, the timestamp high-water mark, and its
own submissions that still wait for a proof of incorporation.  The cache of
decrypted rows and the schemas are elsewhere.

A snapshot of these fields is taken before a change is applied whose signature
can only be checked afterwards; `rollbackChangelogState` puts it back.
-/

namespace EncryptedSpaces.Client

open Encoding Changelog Ops FastForward Server Option

/-- The two heads of a fork, cut to the bytes the server sends. -/
structure StateDivergence where
  changeId : Nat
  clientClcPrefix : Bytes
  serverClcPrefix : Bytes
  clientDataCommitmentPrefix : Bytes
  serverDataCommitmentPrefix : Bytes
  deriving DecidableEq, Repr

/-- The errors of `SdkError` that the modelled functions return.  A failed
assertion is `aborted`. -/
inductive SdkError where
  | databaseError (msg : String)
  | serializationError (msg : String)
  | validationError (msg : String)
  | accessDenied (msg : String)
  | notFound
  | fastForwardRequired (reason : String)
  | fastForwardStateAdvanced
  | stateDiverged (divergence : StateDivergence)
  | aborted (msg : String)
  deriving DecidableEq, Repr

/-- A submission that waits for the proof that its exact entry is on the chain. -/
structure PendingLocalChange where
  leafHash : Digest
  discharged : Bool
  deriving DecidableEq, Repr

/-- By acknowledged change id. -/
abbrev PendingLocalChanges := Std.ExtTreeMap Nat PendingLocalChange compare

/-- A move of the client's head: an entry was appended to it, or it gave way to the head
of a verified proof. -/
inductive HeadStep where
  | appended (changeId : Nat) (head : TreeHead) (bytes : Bytes)
  | proven (range : VerifiedFfOutput)

/-- The changelog part of `State`. -/
structure ClientState where
  /-- `auth_context.uid`. -/
  uid : Option Int
  currentDataCommitment : Digest
  initialDc : Digest
  currentChangeId : Nat
  myLastChangeId : Nat
  sigrefMap : Std.ExtTreeMap Nat Nat compare
  timestampHwm : Nat
  keyValidFromChangeId : Nat
  currentClcState : TreeHead
  currentChangeEntry : Option ChangelogEntry
  ffImageId : Digest
  pendingLocalChanges : PendingLocalChanges
  /-- The moves of the head.  The source does not keep them and nothing reads them; they
  are here for what is said about runs. -/
  history : List HeadStep := []

/-- The state of a client that has seen no change. -/
structure ClientState.AtGenesis (H : Bytes → Digest) (st : ClientState) : Prop where
  currentDataCommitment : st.currentDataCommitment = st.initialDc
  currentChangeId : st.currentChangeId = 0
  sigrefMap : st.sigrefMap = ∅
  timestampHwm : st.timestampHwm = 0
  currentClcState : st.currentClcState = initialClcState H st.initialDc

/-- `sigref_map.get(&uid).copied().unwrap_or(0)`. -/
def ClientState.expectedSigRef (st : ClientState) (uid : Nat) : Nat := (st.sigrefMap[uid]?).getD 0

/-- `uid as u32`. -/
def asU32 (uid : Int) : Nat := (uid % 2 ^ 32).toNat

/-! ## Pending submissions -/

/-- Discharge the submission at `changeId` if its exact bytes were appended. -/
def dischargePendingLocalChange (H : Bytes → Digest) (pending : PendingLocalChanges)
    (changeId : Nat) (entryBytes : Bytes) : PendingLocalChanges :=
  match pending[changeId]? with
  | some p =>
    if p.leafHash = hLeaf H entryBytes then pending.insert changeId { p with discharged := true }
    else pending
  | none => pending

theorem getElem?_dischargePendingLocalChange (H : Bytes → Digest) (pending : PendingLocalChanges)
    (changeId : Nat) (entryBytes : Bytes) (cid : Nat) :
    (dischargePendingLocalChange H pending changeId entryBytes)[cid]? =
      pending[cid]?.map fun p =>
        if cid = changeId ∧ p.leafHash = hLeaf H entryBytes then { p with discharged := true }
        else p := by
  unfold dischargePendingLocalChange
  by_cases hId : changeId = cid
  · subst hId
    cases hPending : pending[changeId]? with
    | none => simp [hPending]
    | some p =>
      by_cases hLeafHash : p.leafHash = hLeaf H entryBytes <;> simp [hPending, hLeafHash]
  · have hOther : cid ≠ changeId := Ne.symm hId
    cases pending[changeId]? with
    | none => simp [hOther]
    | some p =>
      by_cases hLeafHash : p.leafHash = hLeaf H entryBytes <;>
        simp [hLeafHash, hOther, Std.ExtTreeMap.getElem?_insert, hId]

/-- The acknowledged ids that are not discharged yet. -/
def undischargedIds (pending : PendingLocalChanges) : List Nat :=
  pending.toList.filterMap fun (cid, p) => if p.discharged then none else some cid

theorem mem_undischargedIds {pending : PendingLocalChanges} {cid : Nat} :
    cid ∈ undischargedIds pending ↔ ∃ p, pending[cid]? = some p ∧ p.discharged = false := by
  unfold undischargedIds
  rw [List.mem_filterMap]
  constructor
  · rintro ⟨⟨cid', p⟩, hMem, hSome⟩
    rw [Std.ExtTreeMap.mem_toList_iff_getElem?_eq_some] at hMem
    by_cases hDischarged : p.discharged
    · simp [hDischarged] at hSome
    · simp only [hDischarged, Bool.false_eq_true, if_false, some.injEq] at hSome
      subst hSome
      exact ⟨p, hMem, by simpa using hDischarged⟩
  · rintro ⟨p, hPending, hDischarged⟩
    refine ⟨(cid, p), ?_, ?_⟩
    · rw [Std.ExtTreeMap.mem_toList_iff_getElem?_eq_some]
      exact hPending
    · simp [hDischarged]

/-- Set the mark of a submission, if it is registered. -/
def markDischarged (discharged : Bool) (pending : PendingLocalChanges) (cid : Nat) :
    PendingLocalChanges :=
  match pending[cid]? with
  | some p => pending.insert cid { p with discharged }
  | none => pending

theorem getElem?_markDischarged (discharged : Bool) (pending : PendingLocalChanges)
    (marked cid : Nat) :
    (markDischarged discharged pending marked)[cid]? =
      pending[cid]?.map fun p => if cid = marked then { p with discharged } else p := by
  unfold markDischarged
  by_cases hId : marked = cid
  · subst hId
    cases hPending : pending[marked]? <;> simp [hPending]
  · have hOther : cid ≠ marked := Ne.symm hId
    cases pending[marked]? <;> simp [hOther, Std.ExtTreeMap.getElem?_insert, hId]

theorem getElem?_foldl_markDischarged (discharged : Bool) (marked : List Nat)
    (pending : PendingLocalChanges) (cid : Nat) :
    (marked.foldl (markDischarged discharged) pending)[cid]? =
      pending[cid]?.map fun p => if cid ∈ marked then { p with discharged } else p := by
  induction marked generalizing pending with
  | nil =>
    exact map_id'.symm
  | cons first marked ih =>
    rw [List.foldl_cons, ih, getElem?_markDischarged, map_map]
    congr 1
    funext p
    rw [Function.comp_apply]
    by_cases hHead : cid = first
    · rw [if_pos hHead, if_pos (List.mem_cons.mpr (.inl hHead))]
      split <;> rfl
    · rw [if_neg hHead]
      by_cases hTail : cid ∈ marked
      · rw [if_pos hTail, if_pos (List.mem_cons_of_mem _ hTail)]
      · rw [if_neg hTail, if_neg]
        intro hMem
        rcases List.mem_cons.mp hMem with h | h
        · exact hHead h
        · exact hTail h

/-! ## Snapshots -/

structure SavedChangelogState where
  dataCommitment : Digest
  changeId : Nat
  myLastChangeId : Nat
  sigrefMap : Std.ExtTreeMap Nat Nat compare
  timestampHwm : Nat
  clc : TreeHead
  changeEntry : Option ChangelogEntry
  undischargedPending : List Nat
  history : List HeadStep

def ClientState.saveChangelogState (st : ClientState) : SavedChangelogState where
  dataCommitment := st.currentDataCommitment
  changeId := st.currentChangeId
  myLastChangeId := st.myLastChangeId
  sigrefMap := st.sigrefMap
  timestampHwm := st.timestampHwm
  clc := st.currentClcState
  changeEntry := st.currentChangeEntry
  undischargedPending := undischargedIds st.pendingLocalChanges
  history := st.history

/-- Restore the snapshot; submissions registered since then keep their mark. -/
def ClientState.rollbackChangelogState (st : ClientState) (saved : SavedChangelogState) :
    ClientState :=
  { st with
    currentDataCommitment := saved.dataCommitment
    currentChangeId := saved.changeId
    myLastChangeId := saved.myLastChangeId
    sigrefMap := saved.sigrefMap
    timestampHwm := saved.timestampHwm
    currentClcState := saved.clc
    currentChangeEntry := saved.changeEntry
    pendingLocalChanges :=
      saved.undischargedPending.foldl (markDischarged false) st.pendingLocalChanges
    history := saved.history }

def ClientState.rollbackIfApplied (st : ClientState) (saved : SavedChangelogState)
    (appliedState : Bool) : ClientState :=
  if appliedState then st.rollbackChangelogState saved else st

/-- `FastForwardAnchor`. -/
structure FastForwardAnchor where
  changeId : Nat
  changeEntry : Option ChangelogEntry

def ClientState.fastForwardAnchor (st : ClientState) : FastForwardAnchor where
  changeId := st.currentChangeId
  changeEntry := st.currentChangeEntry

end EncryptedSpaces.Client
