import EncryptedSpaces.FastForward.Chunks
import Mathlib.Data.List.Infix

/-!
# The parent window

From the first change on, and across chunks, the window of recent roots holds the
last ten roots of the log, and these are the parents that the next change may name.
-/

namespace EncryptedSpaces.FastForward

open Encoding Changelog Lib Ops List Option

section ParentWindow

variable {H : Bytes → Digest} {T : Type} {M : MerkOps T} {codec : RuleCodec} {initialDc : Digest}
  {log entries : List Bytes} {head : TreeHead} {st : Threaded} {s out : SequenceState T}
  {recentRoots : List (Nat × Digest)}

/-- The roots of the log at the change ids, from the initial one on. -/
def clcRoots (H : Bytes → Digest) (initialDc : Digest) (log : List Bytes) : List (Option Digest) :=
  log.inits.map fun before => ((MmrTree.initialized H initialDc).appendAll H before).bind
    (MmrTree.root H)

/-- Calls of `verify_op_sequence` from the first change on, each with the threaded state that
the one before left. -/
inductive Chunked (H : Bytes → Digest) (M : MerkOps T) (codec : RuleCodec) (initialDc : Digest) :
    List Bytes → TreeHead → Threaded → Prop
  | genesis {st : Threaded} (hEmpty : st.recentRoots = []) :
      Chunked H M codec initialDc [] (initialClcState H initialDc) st
  | chunk {log entries : List Bytes} {range : FastForwardRange} {tree : T} {st st' : Threaded}
      (h : Chunked H M codec initialDc log range.startClcState st)
      (hNext : verifyOpSequence H M codec entries range tree log.length st = some st') :
      Chunked H M codec initialDc (log ++ entries) range.endClcState st'

/-- The tree is that of the log, and the window shows its last roots. -/
def Windowed (H : Bytes → Digest) (initialDc : Digest) (log : List Bytes) (tree : MmrTree)
    (recentRoots : List (Nat × Digest)) : Prop :=
  (MmrTree.initialized H initialDc).appendAll H log = some tree ∧
    ∃ roots, clcRoots H initialDc log = roots.map some ∧ recentRoots = window roots

theorem length_of_clcRoots {roots : List Digest} (h : clcRoots H initialDc log = roots.map some) :
    roots.length = log.length + 1 := by
  have hLength := congrArg length h
  rw [clcRoots, length_map, length_map, length_inits] at hLength
  exact hLength.symm

theorem Windowed.verifyEntry {bytes : Bytes}
    (h : Windowed H initialDc log s.workingTree s.threaded.recentRoots)
    (hEntry : verifyEntry H M codec (log.length + 1) bytes s = some out) :
    Windowed H initialDc (log ++ [bytes]) out.workingTree out.threaded.recentRoots := by
  obtain ⟨hTree, roots, hRoots, hWindow⟩ := h
  obtain ⟨entry, threaded, root, hAppend, -, hCheck, -, hRoot, hThreaded⟩ :=
    verifyEntry_eq_some.mp hEntry
  have hSame : threaded.recentRoots = s.threaded.recentRoots := by
    simp only [checkEntry, bind, bind_eq_some_iff, guard_eq_some', exists_const] at hCheck
    obtain ⟨_, -, _, -, -, -, hThreaded⟩ := hCheck
    obtain rfl := some.inj hThreaded
    rfl
  have hNext : (MmrTree.initialized H initialDc).appendAll H (log ++ [bytes]) =
      some out.workingTree := by
    unfold MmrTree.appendAll at hTree ⊢
    rw [foldlM_append, hTree]
    exact (bind_pure _).trans hAppend
  refine ⟨hNext, roots ++ [root], ?_, ?_⟩
  · rw [clcRoots, inits_append, map_append, ← clcRoots, hRoots, map_append]
    congr 1
    show [((MmrTree.initialized H initialDc).appendAll H (log ++ [bytes])).bind _] = _
    rw [hNext]
    exact congrArg ([·]) hRoot
  · rw [hThreaded, ← pushRoot_window, length_of_clcRoots hRoots, ← hWindow, ← hSame]

theorem Windowed.verifyEntries (h : Windowed H initialDc log s.workingTree s.threaded.recentRoots)
    (hRun : verifyEntries H M codec log.length entries s = some out) :
    Windowed H initialDc (log ++ entries) out.workingTree out.threaded.recentRoots := by
  induction entries generalizing log s with
  | nil =>
    obtain rfl := some.inj hRun
    rwa [append_nil]
  | cons bytes rest ih =>
    rw [FastForward.verifyEntries, bind_eq_some] at hRun
    obtain ⟨s₁, hEntry, hRest⟩ := hRun
    rw [append_cons]
    exact ih (h.verifyEntry hEntry) (by rwa [length_append])

/-- Every call starts with the window of the log so far. -/
theorem Chunked.windowed (h : Chunked H M codec initialDc log head st)
    (hSeed : seedRecentRoots log.length head.root st.recentRoots = some recentRoots) :
    Windowed H initialDc log head.toTree recentRoots := by
  induction h generalizing recentRoots with
  | @genesis st hEmpty =>
    rw [hEmpty] at hSeed
    obtain rfl := some.inj hSeed
    refine ⟨rfl, [hInit H initialDc], ?_, rfl⟩
    have hNil : (MmrTree.initialized H initialDc).appendAll H [] = some _ := rfl
    simp [clcRoots, hNil, MmrTree.initialized_root]
  | @chunk log entries range tree st st' h hNext ih =>
    have hAll := endChangeId_of_verifyOpSequence hNext
    obtain ⟨seeded, out, -, hSeeded, -, hRun, -, hHead, rfl⟩ := verifyOpSequence_eq_some.mp hNext
    rw [hAll, take_length] at hRun
    have hWindowed := (ih hSeeded).verifyEntries hRun
    rw [toTree_of_treeHead hHead]
    -- the window is not empty, so the next call takes it over
    obtain ⟨-, roots, hRoots, hWindow⟩ := id hWindowed
    have hSome : roots ≠ [] := ne_nil_of_length_pos (by rw [length_of_clcRoots hRoots]; omega)
    rw [seedRecentRoots, hWindow, getLast?_window (getLast?_eq_getLast_of_ne_nil hSome)] at hSeed
    dsimp only at hSeed
    split at hSeed
    · obtain rfl := some.inj hSeed
      rwa [← hWindow]
    · cases hSeed

theorem validateParentChange_iff {parent n : Nat} :
    validateParentChange parent n = true ↔ parent < n ∧ n ≤ parent + maxParentDistance := by
  unfold validateParentChange
  by_cases hOne : n = 1
  · simp [hOne]
    omega
  · simp [hOne]
    omega

/-- **The window is exact.**  In every round of every call it holds the last roots of the log
with their change ids, it holds a parent if and only if the next change may name it,
and such a parent is compared with its own root. -/
theorem recentRoots_exact (h : Chunked H M codec initialDc log head st) {tree : T}
    (hSeed : seedRecentRoots log.length head.root st.recentRoots = some recentRoots)
    (hRun : verifyEntries H M codec log.length entries
      { tree, workingTree := head.toTree, staticCache := Cache.empty,
        threaded := { st with recentRoots } } = some out) : ∃ roots,
      clcRoots H initialDc (log ++ entries) = roots.map some ∧
      out.threaded.recentRoots = ((List.range roots.length).zip roots).drop
        (roots.length - maxParentDistance) ∧
      out.threaded.recentRoots.length = min ((log ++ entries).length + 1) maxParentDistance ∧
      ∀ parent,
        ((∃ root, (parent, root) ∈ out.threaded.recentRoots) ↔
          validateParentChange parent ((log ++ entries).length + 1) = true) ∧
        (validateParentChange parent ((log ++ entries).length + 1) = true →
          ∀ clc, validateParentClc parent clc out.threaded.recentRoots = true ↔
            roots[parent]? = some clc) := by
  obtain ⟨-, roots, hRoots, hWindow⟩ := (h.windowed hSeed).verifyEntries hRun
  have hLength := length_of_clcRoots hRoots
  refine ⟨roots, hRoots, hWindow, ?_, fun parent => ?_⟩
  · rw [hWindow, window, length_drop, length_numbered, hLength]
    omega
  · rw [hWindow, ← hLength, validateParentChange_iff]
    refine ⟨⟨?_, ?_⟩, fun ⟨hLt, hNear⟩ clc => validateParentClc_window_iff hLt hNear⟩
    · rintro ⟨root, hMem⟩
      obtain ⟨hRoot, hNear⟩ := mem_window_iff.mp hMem
      exact ⟨(List.getElem?_eq_some_iff.mp hRoot).1, hNear⟩
    · rintro ⟨hLt, hNear⟩
      exact ⟨roots[parent], mem_window_iff.mpr ⟨getElem?_eq_getElem hLt, hNear⟩⟩

end ParentWindow

/-- Invites by user 1, each on the head that the one before leaves. -/
def sampleInvites : Nat → Nat → TreeHead → List Bytes
  | 0, _, _ => []
  | count + 1, changeId, head =>
    let entry := { Client.clientInvite head.root with parentChange := changeId, sigRef := changeId }
    entry.toBytes :: sampleInvites count (changeId + 1)
      ((head.tryAppend Client.checksum entry.toBytes).getD head)

/-- What the first sample chunk hands to the next. -/
def firstThreaded : Threaded :=
  (verifyOpSequence Client.checksum Client.spelledTrees noRules Client.firstChunk.entries
    Client.firstChunk.verifyRange Client.firstChunk.tree 0 Threaded.initial).getD Threaded.initial

/-- The verifier after it. -/
def afterFirst : SequenceState Db where
  tree := Client.sampleAfter 1 Client.spelledCreate internalDb
  workingTree := Client.firstChunk.verifyRange.endClcState.toTree
  staticCache := Cache.empty
  threaded := firstThreaded

def tenInvites : List Bytes := sampleInvites 10 1 Client.firstChunk.verifyRange.endClcState

/-- Ten invites after the first chunk: the window has lost the first two roots. -/
theorem tenInvites_window : ∃ out roots,
    verifyEntries Client.checksum Client.spelledTrees noRules Client.firstChunk.entries.length
      tenInvites afterFirst = some out ∧
    clcRoots Client.checksum Client.firstChunk.verifyRange.startDc
      (Client.firstChunk.entries ++ tenInvites) = roots.map some ∧ roots.length = 12 ∧
    out.threaded.recentRoots = ((List.range 12).zip roots).drop 2 := by
  have hFirst : (verifyOpSequence Client.checksum Client.spelledTrees noRules
      Client.firstChunk.entries Client.firstChunk.verifyRange Client.firstChunk.tree 0
      Threaded.initial).isSome = true := by decide +kernel
  obtain ⟨st, hSt⟩ := isSome_iff_exists.mp hFirst
  have hThreaded : firstThreaded = st := by rw [firstThreaded, hSt, getD_some]
  have hChunk : Chunked Client.checksum Client.spelledTrees noRules
      Client.firstChunk.verifyRange.startDc ([] ++ Client.firstChunk.entries)
      Client.firstChunk.verifyRange.endClcState st :=
    .chunk (.genesis rfl) hSt
  rw [nil_append] at hChunk
  have hSeed : seedRecentRoots Client.firstChunk.entries.length
      Client.firstChunk.verifyRange.endClcState.root firstThreaded.recentRoots =
        some firstThreaded.recentRoots := by
    decide +kernel
  have hSome : (verifyEntries Client.checksum Client.spelledTrees noRules
      Client.firstChunk.entries.length tenInvites afterFirst).isSome = true := by
    decide +kernel
  obtain ⟨out, hRun⟩ := isSome_iff_exists.mp hSome
  have hRun' := hRun
  rw [afterFirst, hThreaded] at hRun'
  rw [hThreaded] at hSeed
  obtain ⟨roots, hRoots, hWindow, -⟩ := recentRoots_exact hChunk hSeed hRun'
  have hTwelve : roots.length = 12 := length_of_clcRoots hRoots
  rw [hTwelve] at hWindow
  exact ⟨out, roots, hRun, hRoots, hTwelve, hWindow⟩

end EncryptedSpaces.FastForward
