import EncryptedSpaces.Changelog.MerkleRoot
import EncryptedSpaces.Ops.Runs
import EncryptedSpaces.Server.Rejection

/-!
# Runs of the server

A run is any sequence of calls, with any answers.  Each call leaves the space as it
was, commits its change, or fails on a full log after it has written the tree.  As
long as the log has room, the tree holds what the entries of the log give.
-/

namespace EncryptedSpaces.Server

open Encoding Changelog Ops Lib Acl FastForward

section Served

variable {T V : Type} {P : ServerParams T V} {st : SpaceState T} {call : Call}

/-- The state that a call leaves, whatever the answer. -/
def serve (P : ServerParams T V) (st : SpaceState T) (call : Call) : SpaceState T :=
  (handleChange P st call.change call.auth call.now call.prover).2

def serveAll (P : ServerParams T V) (st : SpaceState T) (calls : List Call) : SpaceState T :=
  calls.foldl (serve P) st

/-- What holds at the start and is kept by every call holds after the calls. -/
theorem serveAll_invariant {Inv : SpaceState T → Prop}
    (hStep : ∀ st call, Inv st → Inv (serve P st call)) (h : Inv st) (calls : List Call) :
    Inv (serveAll P st calls) :=
  List.foldlRecOn calls _ h fun st hInv call _ => hStep st call hInv

/-- What a call can do. -/
theorem serve_cases (P : ServerParams T V) (st : SpaceState T) (call : Call) :
    Idle st (serve P st call) ∨
    (st.changelog.append P.H call.change.entry = none ∧ ∃ tree hashStore,
      serve P st call = { st.takeSnapshot with tree, hashStore }) ∨
    ∃ referenced writes tree log,
      Committed P st call.change call.auth call.now referenced writes tree log ∧
      After P st call.change.entry tree log (serve P st call) := by
  rcases handleChange_cases (Prod.eta (handleChange P st call.change call.auth call.now
    call.prover)).symm with hIdle | ⟨_, hFull, hState, -⟩ |
      ⟨referenced, writes, tree, log, hCommit, _, hProof⟩
  · exact .inl hIdle
  · exact .inr (.inl ⟨hFull.append, hState⟩)
  · exact .inr (.inr ⟨referenced, writes, tree, log, hCommit, after_of_proofStep hProof⟩)

theorem Committed.changes {change : Change} {auth : AuthContext} {now : Nat}
    {referenced : List Digest} {writes : Batch} {tree : T} {log : ChangeLog} {st' : SpaceState T}
    (h : Committed P st change auth now referenced writes tree log)
    (hAfter : After P st change.entry tree log st') :
    st'.changelog.changes = st.changelog.changes ++ [change.entry] := by
  obtain ⟨_, _, _, _, rfl⟩ := append_eq_some h.append
  exact hAfter.changes

/-! ## The log and the tree -/

/-- A well-formed log takes an entry unless it has reached the size limit. -/
theorem append_isSome_iff (hInv : LogInvariant P st) (entry : ChangelogEntry) :
    (st.changelog.append P.H entry).isSome ↔ st.changelog.numChanges + 1 < maxTreeSize := by
  constructor
  · intro hSome
    obtain ⟨log, hAppend⟩ := Option.isSome_iff_exists.mp hSome
    obtain ⟨tree, _, hTree, _, _⟩ := append_eq_some hAppend
    have hLt := (MmrTree.append_eq_some hTree).2.2
    rw [hInv.treeSize] at hLt
    exact hLt
  · intro hLt
    have hRoom : st.changelog.tree.treeSize < maxTreeSize := by
      rw [hInv.treeSize]
      exact hLt
    have hPos : 0 < st.changelog.tree.treeSize := by
      rw [hInv.treeSize]
      omega
    obtain ⟨tree, hTree, hWellFormed, hSize⟩ :=
      MmrTree.appendHash_eq_some (H := P.H) hInv.wellFormed hRoom (hLeaf P.H entry.toBytes)
    have hAppend : st.changelog.tree.append P.H entry.toBytes = some tree := by
      unfold MmrTree.append
      rw [if_pos hPos]
      exact hTree
    obtain ⟨root, hRoot⟩ : ∃ root, tree.root P.H = some root :=
      exists_root hWellFormed (by omega) (by omega)
    unfold ChangeLog.append
    rw [hAppend]
    dsimp only [bind, Option.bind]
    rw [hRoot]
    rfl

/-- The log in the middle of a run: it is well formed, its entries are on the root
path, and while there is room the tree is what they give from the start. -/
structure ServedLog (P : ServerParams T V) (start : Db) (st : SpaceState T) : Prop where
  log : LogInvariant P st
  paths : ∀ entry ∈ st.changelog.changes, entry.message.treePath = rootPath
  run : st.changelog.numChanges + 1 < maxTreeSize →
    Run P.codec start st.changelog.changes (st.db P)

theorem ServedLog.serve (hM : CompleteTrees P.merk P.contents) {start : Db}
    (h : ServedLog P start st) (call : Call) : ServedLog P start (serve P st call) := by
  rcases serve_cases P st call with hIdle | ⟨hFull, tree, hashStore, hState⟩ |
    ⟨referenced, writes, tree, log, hCommitted, hAfter⟩
  · have hTrace := NoTrace.of_idle hIdle
    refine ⟨h.log.idle hIdle, ?_, ?_⟩
    · rw [hTrace.changelog]
      exact h.paths
    · unfold SpaceState.db
      rw [hTrace.changelog, hTrace.tree]
      exact h.run
  · -- the log is at its limit
    have hLimit : ¬ st.changelog.numChanges + 1 < maxTreeSize := by
      rw [← append_isSome_iff h.log call.change.entry, hFull]
      exact Bool.false_ne_true
    have hLog : (Server.serve P st call).changelog = st.changelog := by
      rw [hState]
      exact SpaceState.takeSnapshot_changelog
    refine ⟨h.log.congr hLog fun hZero => ?_, ?_, ?_⟩
    · rw [hZero] at hLimit
      exact absurd (by decide) hLimit
    · rw [hLog]
      exact h.paths
    · rw [hLog]
      exact fun hRoom => absurd hRoom hLimit
  · have hChanges := hCommitted.changes hAfter
    have hRoom := (append_isSome_iff h.log call.change.entry).mp
      (Option.isSome_iff_exists.mpr ⟨log, hCommitted.append⟩)
    refine ⟨(h.log.after hCommitted.append hAfter).1, ?_, fun _ => ?_⟩
    · intro entry hEntry
      rw [hChanges] at hEntry
      rcases List.mem_append.mp hEntry with hOld | hNew
      · exact h.paths entry hOld
      · rw [List.mem_singleton.mp hNew]
        exact hCommitted.treePath
    · have hDispatch := hCommitted.dispatch
      rw [hM.read] at hDispatch
      have hDb : (Server.serve P st call).db P = (st.db P).applyBatch writes := by
        unfold SpaceState.db
        rw [hAfter.tree_eq, hM.contents_eq hCommitted.applyBatch]
      rw [hChanges, hDb]
      exact .snoc (h.run hRoom) hDispatch

theorem SpaceState.Initial.servedLog (h : st.Initial P) : ServedLog P (st.db P) st := by
  refine ⟨h.logInvariant, ?_, fun _ => ?_⟩
  · rw [h.changelog]
    exact fun entry hEntry => absurd hEntry List.not_mem_nil
  · rw [h.changelog]
    exact .nil

theorem SpaceState.Initial.servedLog_serveAll (hM : CompleteTrees P.merk P.contents)
    (h : st.Initial P) (calls : List Call) : ServedLog P (st.db P) (serveAll P st calls) :=
  serveAll_invariant (fun _ call hInv => hInv.serve hM call) h.servedLog calls

end Served

end EncryptedSpaces.Server
