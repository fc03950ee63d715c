import EncryptedSpaces.FastForward.Window
import EncryptedSpaces.Ops.Reachable
import EncryptedSpaces.Server.HandleChange

/-!
# The server's log

What holds of the changelog in every state the server reaches, what a committed change
does to it, and runs of calls.
-/

namespace EncryptedSpaces.Server

open Encoding Changelog Ops Lib FastForward List

section Log

variable {T V : Type} {P : ServerParams T V} {st : SpaceState T}

/-- What holds of the log in every state the server reaches. -/
structure LogInvariant (P : ServerParams T V) (st : SpaceState T) : Prop where
  wellFormed : st.changelog.tree.WellFormed
  treeSize : st.changelog.tree.treeSize = st.changelog.numChanges + 1
  size_le : st.changelog.numChanges + 1 ≤ maxTreeSize
  length_roots : st.changelog.rootsByChangeId.length = st.changelog.numChanges + 1
  root : st.changelog.rootsByChangeId.getLast? = st.changelog.tree.root P.H
  initial : st.changelog.numChanges = 0 →
    st.changelog.tree = MmrTree.initialized P.H (P.merk.hash st.tree)

variable {entry : ChangelogEntry} {now : Nat} {tree : T} {log : ChangeLog} {st' : SpaceState T}

/-- The log after an append. -/
theorem append_eq_some {log' : ChangeLog} (h : log.append P.H entry = some log') :
    ∃ tree root, log.tree.append P.H entry.toBytes = some tree ∧ tree.root P.H = some root ∧
      log' = { log with
        tree, rootsByChangeId := log.rootsByChangeId ++ [root],
          changes := log.changes ++ [entry] } := by
  obtain ⟨tree, hTree, h⟩ := Option.bind_eq_some_iff.mp h
  obtain ⟨root, hRoot, h⟩ := Option.bind_eq_some_iff.mp h
  exact ⟨tree, root, hTree, hRoot, (Option.some.inj h).symm⟩

/-- A state whose log and tree are those of a committed change. -/
structure After (P : ServerParams T V) (st : SpaceState T) (entry : ChangelogEntry) (tree : T)
    (log : ChangeLog) (st' : SpaceState T) : Prop where
  tree_eq : st'.tree = tree
  sigrefMap : st'.sigrefMap = st.sigrefMap.insert entry.uid (st.changelog.numChanges + 1)
  logTree : st'.changelog.tree = log.tree
  changes : st'.changelog.changes = log.changes
  roots : st'.changelog.rootsByChangeId = log.rootsByChangeId
  response : ∃ response : ChangeResponse T,
    st'.changeResponses = st.changeResponses ++ [response] ∧
      response.oldRoot = P.merk.hash st.tree ∧ response.newRoot = P.merk.hash tree

theorem after_of_proofStep {change : Change} {referenced : List Digest} {prover : ProverOutcome}
    {proved : Except ServerError Unit}
    (h : maybeGenerateFfProof (afterCommit P st change referenced tree log now) prover =
      (proved, st')) : After P st change.entry tree log st' := by
  obtain ⟨hTree, hSigref, -, -, hResponses, hLog⟩ := maybeGenerateFfProof_frame h
  refine ⟨hTree, ?_, ?_, ?_, ?_, ?_⟩
  · rw [hSigref]
    simp only [afterCommit, committedState, SpaceState.takeSnapshot_sigrefMap,
      SpaceState.takeSnapshot_changelog]
  · rw [hLog]
    rfl
  · rw [hLog]
    rfl
  · rw [hLog]
    rfl
  · refine ⟨appliedResponse P st.takeSnapshot change
      (insertReferencedHashedValues st.hashStore change.hashedValues referenced) tree
      (.pruned st.tree) now,
      ?_, ?_, rfl⟩
    · rw [hResponses]
      simp only [afterCommit, committedState, SpaceState.takeSnapshot_changeResponses]
    · simp only [appliedResponse, SpaceState.takeSnapshot_tree]

theorem LogInvariant.after (hInv : LogInvariant P st)
    (hAppend : st.changelog.append P.H entry = some log) (hAfter : After P st entry tree log st') :
    LogInvariant P st' ∧ st'.changelog.numChanges = st.changelog.numChanges + 1 ∧
      st'.changelog.changes = st.changelog.changes ++ [entry] := by
  obtain ⟨mmr, root, hMmr, hRoot, rfl⟩ := append_eq_some hAppend
  obtain ⟨hWf, hSize, hLt⟩ := MmrTree.append_eq_some hMmr
  have hChanges : st'.changelog.changes = st.changelog.changes ++ [entry] := hAfter.changes
  have hNum : st'.changelog.numChanges = st.changelog.numChanges + 1 := by
    unfold ChangeLog.numChanges
    rw [hChanges, length_append, length_singleton]
  have hTree : st'.changelog.tree = mmr := hAfter.logTree
  have hRoots : st'.changelog.rootsByChangeId = st.changelog.rootsByChangeId ++ [root] :=
    hAfter.roots
  refine ⟨⟨?_, ?_, ?_, ?_, ?_, ?_⟩, hNum, hChanges⟩
  · rw [hTree]
    exact hWf
  · rw [hTree, hSize, hInv.treeSize, hNum]
  · have hOld := hInv.treeSize
    omega
  · rw [hRoots, length_append, length_singleton, hInv.length_roots, hNum]
  · rw [hRoots, hTree, hRoot, getLast?_concat]
  · intro hZero
    omega

/-! ## Runs -/

/-- A request, the clock when it is handled, and what the prover does. -/
structure Call where
  change : Change
  auth : AuthContext
  now : Nat
  prover : ProverOutcome

/-- The state after a call that is answered with a success. -/
def acceptCall (P : ServerParams T V) (st : SpaceState T) (call : Call) : Option (SpaceState T) :=
  match handleChange P st call.change call.auth call.now call.prover with
  | (.ok _, st') => some st'
  | (.error _, _) => none

def acceptCalls (P : ServerParams T V) (st : SpaceState T) (calls : List Call) :
    Option (SpaceState T) :=
  calls.foldlM (acceptCall P) st

/-- The tree counts only before the first change. -/
theorem LogInvariant.congr (hInv : LogInvariant P st) (hLog : st'.changelog = st.changelog)
    (hTree : st.changelog.numChanges = 0 → st'.tree = st.tree) : LogInvariant P st' := by
  constructor
  all_goals rw [hLog]
  · exact hInv.wellFormed
  · exact hInv.treeSize
  · exact hInv.size_le
  · exact hInv.length_roots
  · exact hInv.root
  · intro hZero
    rw [hTree hZero]
    exact hInv.initial hZero

theorem LogInvariant.idle (hInv : LogInvariant P st) (hIdle : Idle st st') :
    LogInvariant P st' :=
  hInv.congr (NoTrace.of_idle hIdle).changelog fun _ => (NoTrace.of_idle hIdle).tree

/-- A space before its first change. -/
structure SpaceState.Initial (P : ServerParams T V) (st : SpaceState T) : Prop where
  changelog : st.changelog = ChangeLog.new P.H (P.merk.hash st.tree)
  sigrefMap : st.sigrefMap = ∅
  changeResponses : st.changeResponses = []

theorem SpaceState.Initial.logInvariant (h : st.Initial P) : LogInvariant P st := by
  constructor
  all_goals rw [h.changelog]
  · exact MmrTree.initialized_wellFormed _
  · rfl
  · change 0 + 1 ≤ maxTreeSize
    decide
  · rfl
  · exact (MmrTree.initialized_root _).symm
  · exact fun _ => rfl

end Log

/-- A call of user 1 at the entry's timestamp. -/
def sampleCall (entry : ChangelogEntry) (bytes : List UInt8) (fits : entry.FitsWidths) : Call where
  change := { entry, hashedValues := sampleSidecar bytes, fits }
  auth := { uid := some 1 }
  now := entry.timestamp
  prover := .skipped

theorem sampleCreate_fits : (signedSample sampleCreate 50).FitsWidths := by
  constructor <;> decide +kernel

end EncryptedSpaces.Server
