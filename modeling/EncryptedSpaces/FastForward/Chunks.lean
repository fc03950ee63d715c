import EncryptedSpaces.Client.VerifyFf

/-!
# Where a log is cut does not matter

`verify_op_sequence` is called on one chunk at a time.  A sequence that is cut in
two is accepted chunk by chunk, with the threaded state of the first chunk given
to the second, exactly if it is accepted as a whole, on some witnesses; and an
accepted range counts all entries of its chunk.

The second chunk starts with the window that the first one leaves and with an
empty cache; the whole replay keeps both.
-/

namespace EncryptedSpaces.FastForward

open Encoding Changelog Lib Ops List Option

section Chunks

variable {H : Bytes → Digest} {T : Type} {M : MerkOps T} {codec : RuleCodec}

/-! ## Heads along a replay -/

theorem treeSize_of_treeHead {tree : MmrTree} {head : TreeHead} (h : tree.treeHead H = some head) :
    head.treeSize = tree.treeSize := by
  rw [← toTree_of_treeHead h]
  rfl

variable {n : Nat} {entries : List Bytes} {s out : SequenceState T} {st st' : Threaded}

/-- Every entry adds a leaf. -/
theorem treeSize_of_verifyEntries (h : verifyEntries H M codec n entries s = some out) :
    out.workingTree.treeSize = s.workingTree.treeSize + entries.length := by
  induction entries generalizing n s with
  | nil =>
    obtain rfl := some.inj h
    rfl
  | cons bytes rest ih =>
    rw [verifyEntries, bind_eq_some] at h
    obtain ⟨s₁, hEntry, hRest⟩ := h
    obtain ⟨_, _, _, hAppend, _⟩ := verifyEntry_eq_some.mp hEntry
    have hOne := (MmrTree.append_eq_some hAppend).2.1
    have hMore := ih hRest
    rw [length_cons]
    omega

/-- The first part of a replay is a replay. -/
theorem exists_of_verifyEntries_append {first second : List Bytes}
    (h : verifyEntries H M codec n (first ++ second) s = some out) :
    ∃ mid, verifyEntries H M codec n first s = some mid := by
  induction first generalizing n s with
  | nil => exact ⟨s, rfl⟩
  | cons bytes rest ih =>
    rw [cons_append, verifyEntries, bind_eq_some] at h
    obtain ⟨s₁, hEntry, hRest⟩ := h
    obtain ⟨mid, hMid⟩ := ih hRest
    refine ⟨mid, ?_⟩
    rw [verifyEntries, bind_eq_bind, hEntry, bind_some]
    exact hMid

theorem getLast?_pushRoot (roots : List (Nat × Digest)) (n : Nat) (root : Digest) :
    (pushRoot roots n root).getLast? = some (n, root) := by
  have hDrop : (roots ++ [(n, root)]).length - maxParentDistance ≤ roots.length := by
    rw [length_append, length_singleton]
    unfold maxParentDistance
    omega
  unfold pushRoot
  rw [drop_append_of_le_length hDrop, getLast?_append, getLast?_singleton]
  rfl

/-- Behind a chunk the window ends with the root of the log. -/
theorem getLast?_of_verifyEntries (hNonempty : entries ≠ [])
    (h : verifyEntries H M codec n entries s = some out) :
    ∃ root, out.workingTree.root H = some root ∧
      out.threaded.recentRoots.getLast? = some (n + entries.length, root) := by
  induction entries generalizing n s with
  | nil => exact absurd rfl hNonempty
  | cons bytes rest ih =>
    rw [verifyEntries, bind_eq_some] at h
    obtain ⟨s₁, hEntry, hRest⟩ := h
    by_cases hLast : rest = []
    · subst hLast
      obtain rfl := some.inj hRest
      obtain ⟨_, threaded, root, _, _, _, _, hRoot, hThreaded⟩ := verifyEntry_eq_some.mp hEntry
      refine ⟨root, hRoot, ?_⟩
      rw [hThreaded]
      exact getLast?_pushRoot threaded.recentRoots (n + 1) root
    · obtain ⟨root, hRoot, hWindow⟩ := ih hLast hRest
      refine ⟨root, hRoot, ?_⟩
      rw [hWindow, length_cons]
      congr 2
      omega

/-- An accepted range counts all entries of its chunk. -/
theorem endChangeId_of_verifyOpSequence {range : FastForwardRange} {tree : T}
    (h : verifyOpSequence H M codec entries range tree n st = some st') :
    range.endChangeId = entries.length := by
  obtain ⟨_, out, hFits, _, _, hRun, _, hEndClc, _⟩ := verifyOpSequence_eq_some.mp h
  obtain ⟨_, _, hBounds, _, hEnd⟩ := of_decide_eq_true hFits
  have hSize := treeSize_of_verifyEntries hRun
  rw [length_take, ← treeSize_of_treeHead hEndClc] at hSize
  have hReplayed : range.endClcState.treeSize =
      range.startClcState.treeSize + min range.endChangeId entries.length := hSize
  have hExpected : range.endClcState.treeSize = range.startClcState.treeSize + entries.length :=
    (of_decide_eq_true hEnd).1
  omega

/-! ## Cutting and joining -/

/-- Some witness makes `verify_op_sequence` accept the entries between two heads and
two data roots. -/
def AcceptedBetween (H : Bytes → Digest) (M : MerkOps T) (codec : RuleCodec)
    (start finish : TreeHead × Digest) (entries : List Bytes) (startChangeId : Nat)
    (st st' : Threaded) : Prop :=
  ∃ range tree, range.startClcState = start.1 ∧ range.startDc = start.2 ∧
    range.endClcState = finish.1 ∧ range.endDc = finish.2 ∧
    verifyOpSequence H M codec entries range tree startChangeId st = some st'

theorem AcceptedBetween.of_range {range : FastForwardRange} {tree : T}
    (h : verifyOpSequence H M codec entries range tree n st = some st') :
    AcceptedBetween H M codec (range.startClcState, range.startDc)
      (range.endClcState, range.endDc) entries n st st' :=
  ⟨range, tree, rfl, rfl, rfl, rfl, h⟩

/-- What acceptance means, with the replay. -/
theorem acceptedBetween_iff {start finish : TreeHead × Digest} :
    AcceptedBetween H M codec start finish entries n st st' ↔
      start.1.verifyForChangeId H n = true ∧ (n = 0 → start.1 = initialClcState H start.2) ∧
      entries ≠ [] ∧ start.1.treeSize + entries.length ≤ maxTreeSize ∧
      finish.1.verifyForTreeSize H (start.1.treeSize + entries.length) = true ∧
      ∃ recentRoots tree out, seedRecentRoots n start.1.root st.recentRoots = some recentRoots ∧
        M.hash tree = start.2 ∧
        verifyEntries H M codec n entries
          { tree, workingTree := start.1.toTree, staticCache := Cache.empty,
            threaded := { st with recentRoots } } = some out ∧
        M.hash out.tree = finish.2 ∧ out.workingTree.treeHead H = some finish.1 ∧
        out.threaded = st' := by
  constructor
  · rintro ⟨range, tree, hStart, hStartDc, hEnd, hEndDc, h⟩
    have hLength := endChangeId_of_verifyOpSequence h
    obtain ⟨recentRoots, out, hFits, hSeed, hHash, hRun, hOutDc, hOutClc, hOut⟩ :=
      verifyOpSequence_eq_some.mp h
    obtain ⟨hHead, hInitial, hBounds, hSize, hEndHead⟩ := of_decide_eq_true hFits
    rw [hLength, take_length] at hRun
    rw [hStart] at hHead hInitial hSize hEndHead hSeed hRun
    rw [hStartDc] at hInitial hHash
    rw [hEnd] at hEndHead hOutClc
    rw [hEndDc] at hOutDc
    exact ⟨hHead, hInitial, ne_nil_of_length_pos hBounds.2.1, hSize, hEndHead, recentRoots, tree,
      out, hSeed, hHash, hRun, hOutDc, hOutClc, hOut⟩
  · rintro ⟨hHead, hInitial, hNonempty, hSize, hEndHead, recentRoots, tree, out, hSeed, hHash, hRun,
      hOutDc, hOutClc, hOut⟩
    have hPos : 0 < entries.length := length_pos_of_ne_nil hNonempty
    let range : FastForwardRange :=
      { startClcState := start.1, endClcState := finish.1, startDc := start.2, endDc := finish.2
        endChangeId := entries.length, sigrefMap := ∅, recentRoots := [], timestampHwm := 0 }
    refine ⟨range, tree, rfl, rfl, rfl, rfl, ?_⟩
    refine verifyOpSequence_eq_some.mpr
      ⟨recentRoots, out, ?_, hSeed, hHash, ?_, hOutDc, hOutClc, hOut⟩
    · exact decide_eq_true ⟨hHead, hInitial, ⟨hPos, hPos, le_refl _⟩, hSize, hEndHead⟩
    · show verifyEntries H M codec n (entries.take entries.length) _ = some out
      rw [take_length]
      exact hRun

variable {Opens : T → T → Prop}

/-- A replay can start over with an empty cache at any point. -/
theorem verifyEntries_clearCache (hM : PrunedTrees M Opens)
    (hCoh : Coherent M codec s.tree s.staticCache)
    (h : verifyEntries H M codec n entries s = some out) :
    ∃ out', verifyEntries H M codec n entries { s with staticCache := Cache.empty } = some out' ∧
      M.hash out'.tree = M.hash out.tree ∧ out'.workingTree = out.workingTree ∧
      out'.threaded = out.threaded := by
  have hLarger : Larger M codec Opens s { s with staticCache := Cache.empty } :=
    ⟨hM.refl _, rfl, rfl, hCoh, Cache.coherent_empty⟩
  obtain ⟨out', hRun, hOut⟩ := verifyEntries_larger hM.toHonestTrees hLarger h
  exact ⟨out', hRun, hM.hash _ _ hOut.opens, hOut.workingTree, hOut.threaded⟩

theorem coherent_of_verifyEntries (hM : PrunedTrees M Opens)
    (hCoh : Coherent M codec s.tree s.staticCache)
    (h : verifyEntries H M codec n entries s = some out) :
    Coherent M codec out.tree out.staticCache := by
  have hSame : Larger M codec Opens s s := ⟨hM.refl _, rfl, rfl, hCoh, hCoh⟩
  obtain ⟨_, _, hOut⟩ := verifyEntries_larger hM.toHonestTrees hSame h
  exact hOut.coherent

variable {start finish : TreeHead × Digest} {first second : List Bytes} {n : Nat}
    {st st' : Threaded}

/-- A sequence that is accepted as a whole is accepted in two chunks. -/
theorem AcceptedBetween.cut (hM : PrunedTrees M Opens) (hFirst : first ≠ []) (hSecond : second ≠ [])
    (h : AcceptedBetween H M codec start finish (first ++ second) n st st') :
    ∃ mid st₁, AcceptedBetween H M codec start mid first n st st₁ ∧
      AcceptedBetween H M codec mid finish second (n + first.length) st₁ st' := by
  obtain ⟨hHead, hInitial, _, hSize, hEndHead, recentRoots, tree, out, hSeed, hHash, hRun, hOutDc,
    hOutClc, hOut⟩ := acceptedBetween_iff.mp h
  rw [length_append] at hSize hEndHead
  -- the state between the chunks
  obtain ⟨mid, hMid⟩ : ∃ mid, verifyEntries H M codec n first
      { tree, workingTree := start.1.toTree, staticCache := Cache.empty,
        threaded := { st with recentRoots } } = some mid := exists_of_verifyEntries_append hRun
  have hRest := (verifyEntries_append hMid).symm.trans hRun
  have hMidSize : mid.workingTree.treeSize = start.1.treeSize + first.length :=
    treeSize_of_verifyEntries hMid
  have hStartSize : start.1.treeSize = n + 1 := (of_decide_eq_true (of_decide_eq_true hHead).2).1
  have hPos : 0 < first.length := length_pos_of_ne_nil hFirst
  obtain ⟨root, hRoot, hWindow⟩ := getLast?_of_verifyEntries hFirst hMid
  obtain ⟨head, hHeadMid, hHeadRoot, hVerify⟩ := exists_treeHead hRoot (by omega)
  rw [hMidSize] at hVerify
  have hCoh := coherent_of_verifyEntries hM Cache.coherent_empty hMid
  obtain ⟨out', hRun', hOutHash, hOutTree, hOutThreaded⟩ := verifyEntries_clearCache hM hCoh hRest
  refine ⟨(head, M.hash mid.tree), mid.threaded, ?_, ?_⟩
  · exact acceptedBetween_iff.mpr
      ⟨hHead, hInitial, hFirst, by omega, hVerify, recentRoots, tree, mid,
      hSeed, hHash, hMid, rfl, hHeadMid, rfl⟩
  · have hHeadSize : head.treeSize = start.1.treeSize + first.length :=
      (treeSize_of_treeHead hHeadMid).trans hMidSize
    have hSeedMid : seedRecentRoots (n + first.length) head.root mid.threaded.recentRoots =
        some mid.threaded.recentRoots := by
      unfold seedRecentRoots
      rw [hWindow]
      exact if_pos ⟨rfl, hHeadRoot.symm⟩
    refine acceptedBetween_iff.mpr ⟨?_, fun hZero => ?_, hSecond, ?_, ?_,
      mid.threaded.recentRoots, mid.tree, out', hSeedMid, rfl, ?_, hOutHash.trans hOutDc, ?_,
      hOutThreaded.trans hOut⟩
    · refine decide_eq_true ⟨?_, ?_⟩
      · omega
      · rw [hStartSize] at hVerify
        rw [show n + first.length + 1 = n + 1 + first.length by omega]
        exact hVerify
    · omega
    · show head.treeSize + second.length ≤ maxTreeSize
      omega
    · show finish.1.verifyForTreeSize H (head.treeSize + second.length) = true
      rw [hHeadSize, Nat.add_assoc]
      exact hEndHead
    · show verifyEntries H M codec (n + first.length) second
        { tree := mid.tree, workingTree := head.toTree, staticCache := Cache.empty,
          threaded := { mid.threaded with recentRoots := mid.threaded.recentRoots } } = some out'
      rw [toTree_of_treeHead hHeadMid]
      exact hRun'
    · rw [hOutTree]
      exact hOutClc

/-- Two chunks that meet are accepted as a whole. -/
theorem AcceptedBetween.join (hM : PrunedTrees M Opens) {mid : TreeHead × Digest} {st₁ : Threaded}
    (hFirst : AcceptedBetween H M codec start mid first n st st₁)
    (hSecond : AcceptedBetween H M codec mid finish second (n + first.length) st₁ st') :
    AcceptedBetween H M codec start finish (first ++ second) n st st' := by
  obtain ⟨hHead, hInitial, hNonempty, hSize, hMidHead, roots, tree, out, hSeed, hHash, hRun, hOutDc,
    hOutClc, hOut⟩ := acceptedBetween_iff.mp hFirst
  obtain ⟨_, _, _, hSize', hEndHead, roots', tree', out', hSeed', hHash', hRun', hOutDc', hOutClc',
    hOut'⟩ := acceptedBetween_iff.mp hSecond
  have hMidSize : mid.1.treeSize = start.1.treeSize + first.length := (of_decide_eq_true hMidHead).1
  rw [hMidSize] at hSize' hEndHead
  rw [Nat.add_assoc] at hSize' hEndHead
  have hPos := length_pos_of_ne_nil hNonempty
  have hRoots : roots' = st₁.recentRoots := eq_of_seedRecentRoots (by omega) hSeed'
  obtain ⟨u, -, hu, whole, hWhole, hWholeHash, hWholeTree, hWholeThreaded⟩ :=
    verifyEntries_splice hM.toHonestTrees (hM.refl _) (hM.refl _) rfl rfl hRun hRun'
      (hHash'.trans hOutDc.symm) (toTree_of_treeHead hOutClc) (by rw [hRoots, hOut])
  refine acceptedBetween_iff.mpr
    ⟨hHead, hInitial, ?_, ?_, ?_, roots, u, whole, hSeed, hu.trans hHash,
    hWhole, hWholeHash.trans hOutDc', ?_, hWholeThreaded.trans hOut'⟩
  · exact append_ne_nil_of_left_ne_nil hNonempty second
  · rw [length_append]
    exact hSize'
  · rw [length_append]
    exact hEndHead
  · rw [hWholeTree]
    exact hOutClc'

/-- **Cutting a sequence.**  Two chunks, the second with the threaded state that the
first leaves, are accepted exactly if the whole sequence is, with the same final
state, head and data root; and accepted ranges count all their entries. -/
theorem chunks_iff_whole (hM : PrunedTrees M Opens) (hFirst : first ≠ []) (hSecond : second ≠ []) :
    ((∃ mid st₁, AcceptedBetween H M codec start mid first n st st₁ ∧
        AcceptedBetween H M codec mid finish second (n + first.length) st₁ st') ↔
      AcceptedBetween H M codec start finish (first ++ second) n st st') ∧
    ∀ (entries : List Bytes) (range : FastForwardRange) (tree : T) (k : Nat) (s s' : Threaded),
      verifyOpSequence H M codec entries range tree k s = some s' →
        range.endChangeId = entries.length := by
  refine ⟨⟨?_, fun h => h.cut hM hFirst hSecond⟩,
    fun _ _ _ _ _ _ h => endChangeId_of_verifyOpSequence h⟩
  rintro ⟨mid, st₁, hBefore, hAfter⟩
  exact hBefore.join hM hAfter

end Chunks

/-- The two sample chunks, cut and whole. -/
theorem sample_chunks_whole : ∃ st', AcceptedBetween Client.checksum Client.spelledTrees noRules
    (Client.firstChunk.verifyRange.startClcState, Client.firstChunk.verifyRange.startDc)
    (Client.secondChunk.verifyRange.endClcState, Client.secondChunk.verifyRange.endDc)
    (Client.firstChunk.entries ++ Client.secondChunk.entries) 0 Threaded.initial st' := by
  obtain ⟨io, hFirst⟩ := isSome_iff_exists.mp Client.firstChunk_isSome
  obtain ⟨out, hSecond⟩ := isSome_iff_exists.mp Client.secondChunk_isSome
  have hJournal : Client.sampleJournal Client.firstChunk = io := by
    unfold Client.sampleJournal
    rw [hFirst, getD_some]
  unfold Client.sampleExtend extendRange at hFirst hSecond
  obtain ⟨_, _, hFirst⟩ := bind_eq_some_iff.mp hFirst
  obtain ⟨st₁, hRun₁, hIo⟩ := bind_eq_some_iff.mp hFirst
  obtain ⟨_, _, hSecond⟩ := bind_eq_some_iff.mp hSecond
  obtain ⟨_, hClc, hSecond⟩ := bind_eq_some_iff.mp hSecond
  obtain ⟨_, hDc, hSecond⟩ := bind_eq_some_iff.mp hSecond
  obtain ⟨st₂, hRun₂, _⟩ := bind_eq_some_iff.mp hSecond
  rw [guard_eq_some', hJournal, ← some.inj hIo] at hClc hDc
  rw [hJournal, ← some.inj hIo] at hRun₂
  have hBefore := AcceptedBetween.of_range hRun₁
  have hAfter := AcceptedBetween.of_range hRun₂
  rw [hClc, hDc] at hAfter
  dsimp only at hAfter
  have hNe : Client.firstChunk.entries ≠ [] := cons_ne_nil _ _
  have hNe' : Client.secondChunk.entries ≠ [] := by
    exact cons_ne_nil _ _
  exact ⟨st₂, (chunks_iff_whole Client.spelledTrees_pruned hNe hNe').1.mp ⟨_, st₁, hBefore, hAfter⟩⟩

end EncryptedSpaces.FastForward
