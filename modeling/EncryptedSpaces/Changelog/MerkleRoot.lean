import EncryptedSpaces.Changelog.Mmr
import EncryptedSpaces.Lib.MerkleTree

/-!
# Peaks and the Merkle tree hash

The peaks of the log are the Merkle tree hashes of consecutive blocks of its
leaves, one for each one digit of the number of leaves, and folding them gives the
Merkle tree hash of all leaves.  An append is the increment of a binary counter:
the induction is on the digits, and at each trailing one digit two perfect blocks
of one size become a block of twice the size.

A client keeps a head instead of the tree; its append is the append of the tree.
-/

namespace EncryptedSpaces.Changelog

open Encoding Lib.MerkleTree List

/-- The places of the one digits from `height` on, lowest first. -/
def oneDigits : Nat → Nat → Nat → List Nat
  | 0, _, _ => []
  | width + 1, height, k =>
    if k % 2 = 1 then height :: oneDigits width (height + 1) (k / 2)
    else oneDigits width (height + 1) (k / 2)

theorem length_oneDigits (width height k : Nat) :
    (oneDigits width height k).length = countOnes width k := by
  induction width generalizing height k with
  | zero => rfl
  | succ width ih =>
    unfold oneDigits countOnes
    split_ifs with hOdd
    · rw [length_cons, ih]
      omega
    · rw [ih]
      omega

/-- The leaves are aligned blocks of these heights, the last one first, and the peaks are
their Merkle tree hashes. -/
inductive Mountains (H : Bytes → Digest) : List Nat → List Digest → List Digest → Prop
  | nil : Mountains H [] [] []
  | cons {height : Nat} {heights : List Nat} {peaks xs ys : List Digest}
      (rest : Mountains H heights peaks xs) (aligned : 2 ^ height ∣ xs.length)
      (size : ys.length = 2 ^ height) :
      Mountains H (height :: heights) (treeHash (hNode H) ys :: peaks) (xs ++ ys)

section Mountains

variable {H : Bytes → Digest} {width height k : Nat} {heights : List Nat}
  {peaks leaves block : List Digest}

theorem Mountains.length_eq (h : Mountains H heights peaks leaves) :
    peaks.length = heights.length := by
  induction h with
  | nil => rfl
  | cons _ _ _ ih => rw [length_cons, length_cons, ih]

/-- One block more. -/
theorem mergePeaks_mountains (h : Mountains H (oneDigits width height k) peaks leaves)
    (hLeaves : leaves.length = k * 2 ^ height) (hBlock : block.length = 2 ^ height)
    (hk : k + 1 < 2 ^ width) :
    ∃ peaks', mergePeaks H peaks k (treeHash (hNode H) block) = some peaks' ∧
      Mountains H (oneDigits width height (k + 1)) peaks' (leaves ++ block) := by
  induction width generalizing height k peaks leaves block with
  | zero => omega
  | succ width ih =>
    unfold oneDigits at h ⊢
    rcases Nat.mod_two_eq_zero_or_one k with hEven | hOdd
    · have hHalf : (k + 1) / 2 = k / 2 := by omega
      rw [if_neg (by omega)] at h
      rw [if_pos (by omega), hHalf]
      refine ⟨treeHash (hNode H) block :: peaks, ?_, h.cons ⟨k, ?_⟩ hBlock⟩
      · cases peaks <;> simp [mergePeaks, hEven]
      · rw [hLeaves, Nat.mul_comm]
    · -- the last block is as large as the new one
      have hHalf : (k + 1) / 2 = k / 2 + 1 := by omega
      have hTwice : k = 2 * (k / 2) + 1 := by omega
      rw [if_pos hOdd] at h
      rw [if_neg (by omega), hHalf]
      cases h with
      | @cons _ _ rest xs ys hRest _ hSize =>
        have hSplits : Splits ys block :=
          ⟨⟨height, hSize, hBlock.le⟩, ne_nil_of_length_pos (by rw [hBlock]; positivity)⟩
        have hXs : xs.length = k / 2 * 2 ^ (height + 1) := by
          rw [length_append, hSize, hTwice] at hLeaves
          rw [pow_succ]
          have hExpand :
            (2 * (k / 2) + 1) * 2 ^ height = k / 2 * (2 ^ height * 2) + 2 ^ height := by
            ring
          omega
        have hTwo : (ys ++ block).length = 2 ^ (height + 1) := by
          rw [length_append, hSize, hBlock, pow_succ]
          omega
        obtain ⟨peaks', hMerge, hPeaks'⟩ := ih hRest hXs hTwo (by
          omega)
        refine ⟨peaks', ?_, ?_⟩
        · rw [mergePeaks, if_pos hOdd, ← treeHash_append (hNode H) hSplits]
          exact hMerge
        · rw [append_assoc]
          exact hPeaks'

/-- Folding the peaks onto the hash of what follows them. -/
theorem foldl_mountains {s : List Digest} (h : Mountains H (oneDigits width height k) peaks leaves)
    (hSome : s ≠ []) (hs : s.length ≤ 2 ^ height) :
    peaks.foldl (fun acc peak => hNode H peak acc) (treeHash (hNode H) s) =
      treeHash (hNode H) (leaves ++ s) := by
  induction width generalizing height k peaks leaves s with
  | zero =>
    cases h
    rfl
  | succ width ih =>
    unfold oneDigits at h
    split_ifs at h with hOdd
    · cases h with
      | @cons _ _ rest xs ys hRest _ hSize =>
        have hSplits : Splits ys s := ⟨⟨height, hSize, hs⟩, hSome⟩
        rw [foldl_cons, ← treeHash_append (hNode H) hSplits, append_assoc]
        apply ih hRest (append_ne_nil_of_right_ne_nil ys hSome)
        rw [length_append]
        omega
    · exact ih h hSome (by omega)

theorem foldPeaks_mountains (h : Mountains H (oneDigits width height k) peaks leaves)
    (hSome : leaves ≠ []) : foldPeaks H peaks.reverse = some (treeHash (hNode H) leaves) := by
  unfold foldPeaks
  rw [reverse_reverse]
  induction width generalizing height k with
  | zero =>
    cases h
    exact absurd rfl hSome
  | succ width ih =>
    unfold oneDigits at h
    split_ifs at h with hOdd
    · cases h with
      | @cons _ _ rest xs ys hRest _ hSize =>
        have hYs : ys ≠ [] := ne_nil_of_length_pos (by rw [hSize]; positivity)
        have hLe : ys.length ≤ 2 ^ (height + 1) := by
          omega
        exact congrArg some (foldl_mountains hRest hYs hLe)
    · exact ih h

end Mountains

/-! ## Trees over leaves -/

/-- The tree is that of these leaf hashes. -/
structure MmrTree.Holds (H : Bytes → Digest) (tree : MmrTree) (leaves : List Digest) : Prop where
  treeSize : tree.treeSize = leaves.length
  nonempty : leaves ≠ []
  mountains : Mountains H (oneDigits 32 0 tree.treeSize) tree.peaks.reverse leaves

/-- The leaf hashes of a log. -/
def leafHashes (H : Bytes → Digest) (initialDc : Digest) (entries : List Bytes) : List Digest :=
  hInit H initialDc :: entries.map (hLeaf H)

def MmrTree.appendAll (H : Bytes → Digest) (tree : MmrTree) (entries : List Bytes) :
    Option MmrTree :=
  entries.foldlM (fun tree entry => tree.append H entry) tree

variable {H : Bytes → Digest} {tree : MmrTree} {leaves : List Digest}

theorem MmrTree.Holds.wellFormed (h : tree.Holds H leaves) : tree.WellFormed := by
  have hLength := h.mountains.length_eq
  rw [length_reverse, length_oneDigits] at hLength
  exact hLength

theorem MmrTree.Holds.root (h : tree.Holds H leaves) :
    tree.root H = some (treeHash (hNode H) leaves) := by
  have hFold := foldPeaks_mountains h.mountains h.nonempty
  rw [reverse_reverse] at hFold
  unfold MmrTree.root
  rw [if_pos h.wellFormed, hFold]

theorem MmrTree.Holds.append (h : tree.Holds H leaves) (hSize : leaves.length < maxTreeSize)
    (entry : Bytes) :
    ∃ tree', tree.append H entry = some tree' ∧ tree'.Holds H (leaves ++ [hLeaf H entry]) := by
  have hPos : 0 < tree.treeSize := by
    rw [h.treeSize]
    exact length_pos_of_ne_nil h.nonempty
  have hFits : tree.WellFormed ∧ tree.treeSize < maxTreeSize := ⟨h.wellFormed, h.treeSize ▸ hSize⟩
  have hLt : tree.treeSize + 1 < 2 ^ 32 := by
    have hLt := hFits.2
    unfold maxTreeSize at hLt
    omega
  have hLeaves : leaves.length = tree.treeSize * 2 ^ 0 := by rw [h.treeSize, pow_zero, Nat.mul_one]
  have hOne : [hLeaf H entry].length = 2 ^ 0 := rfl
  obtain ⟨peaks, hMerge, hPeaks⟩ := mergePeaks_mountains h.mountains hLeaves hOne hLt
  rw [treeHash_singleton] at hMerge
  refine ⟨{ peaks := peaks.reverse, treeSize := tree.treeSize + 1 }, ?_, ?_, ?_, ?_⟩
  · unfold MmrTree.append MmrTree.appendHash
    rw [if_pos hPos, if_pos hFits, hMerge]
    rfl
  · show tree.treeSize + 1 = _
    rw [h.treeSize, length_append]
    rfl
  · simp
  · show Mountains H (oneDigits 32 0 (tree.treeSize + 1)) peaks.reverse.reverse _
    rw [reverse_reverse]
    exact hPeaks

theorem MmrTree.holds_initialized (initialDc : Digest) :
    (MmrTree.initialized H initialDc).Holds H [hInit H initialDc] := by
  have hOne : [hInit H initialDc].length = 2 ^ 0 := rfl
  have hCons : Mountains H [0] [treeHash (hNode H) [hInit H initialDc]] _ :=
    Mountains.nil.cons (one_dvd _) hOne
  rw [treeHash_singleton] at hCons
  refine ⟨rfl, cons_ne_nil _ _, ?_⟩
  show Mountains H (oneDigits 32 0 1) [hInit H initialDc] _
  exact hCons

/-- Every log below the limit has a tree. -/
theorem MmrTree.holds_appendAll {initialDc : Digest} {entries : List Bytes}
    (h : entries.length < maxTreeSize) : ∃ tree,
      (MmrTree.initialized H initialDc).appendAll H entries = some tree ∧
        tree.Holds H (leafHashes H initialDc entries) := by
  have hRun : ∀ (entries : List Bytes) (tree : MmrTree) (leaves : List Digest),
      tree.Holds H leaves → leaves.length + entries.length ≤ maxTreeSize →
        ∃ tree', tree.appendAll H entries = some tree' ∧
        tree'.Holds H (leaves ++ entries.map (hLeaf H)) := by
    intro entries
    induction entries with
    | nil =>
      intro tree leaves hTree _
      exact ⟨tree, rfl, by rw [map_nil, append_nil]; exact hTree⟩
    | cons entry entries ih =>
      intro tree leaves hTree hSize
      rw [length_cons] at hSize
      obtain ⟨tree₁, hAppend, hTree₁⟩ := hTree.append (by omega) entry
      obtain ⟨tree', hRest, hTree'⟩ := ih tree₁ _ hTree₁ (by
        rw [length_append, length_singleton]
        omega)
      refine ⟨tree', ?_, by simpa using hTree'⟩
      unfold MmrTree.appendAll
      rw [foldlM_cons, hAppend]
      exact hRest
  exact hRun entries _ _ (MmrTree.holds_initialized initialDc) (by
    rw [length_singleton]
    omega)

/-- **The log is a Merkle tree.**  Its root is the Merkle tree hash of all leaves, it has a
peak for each one digit of their number, and each peak is the Merkle tree hash of its
aligned block of leaves. -/
theorem MmrTree.root_eq_treeHash (initialDc : Digest) (entries : List Bytes)
    (h : entries.length < maxTreeSize) : ∃ tree,
      (MmrTree.initialized H initialDc).appendAll H entries = some tree ∧
      tree.treeSize = entries.length + 1 ∧
      tree.root H = some (treeHash (hNode H) (leafHashes H initialDc entries)) ∧
      tree.peaks.length = countOnes 32 tree.treeSize ∧
      Mountains H (oneDigits 32 0 tree.treeSize) tree.peaks.reverse
        (leafHashes H initialDc entries) := by
  obtain ⟨tree, hRun, hTree⟩ : ∃ tree, (MmrTree.initialized H initialDc).appendAll H entries =
      some tree ∧ tree.Holds H (leafHashes H initialDc entries) := MmrTree.holds_appendAll h
  refine ⟨tree, hRun, ?_, hTree.root, hTree.wellFormed, hTree.mountains⟩
  rw [hTree.treeSize, leafHashes, length_cons, length_map]

/-- Three leaves under the identity: a block of two and a block of one. -/
theorem three_leaves_root : ∃ tree,
    (MmrTree.initialized id [7]).appendAll id [[1], [2]] = some tree ∧
      tree.root id = some (hNode id (hNode id (hInit id [7]) (hLeaf id [1])) (hLeaf id [2])) := by
  obtain ⟨tree, hRun, -, -, -, -⟩ := MmrTree.root_eq_treeHash (H := id) [7] [[1], [2]] (by decide)
  refine ⟨tree, hRun, ?_⟩
  obtain rfl := Option.some.inj hRun
  decide

/-! ## Heads -/

theorem countOnes_pos {width n : Nat} (hPos : 0 < n) (hLt : n < 2 ^ width) :
    0 < countOnes width n := by
  induction width generalizing n with
  | zero => omega
  | succ width ih =>
    rw [countOnes]
    by_cases hHalf : 0 < n / 2
    · have hRest := ih hHalf (by rw [pow_succ] at hLt; omega)
      omega
    · omega

/-- A well-formed tree with leaves has a root. -/
theorem exists_root (hTree : tree.WellFormed)
    (hPos : 0 < tree.treeSize) (hLe : tree.treeSize ≤ maxTreeSize) :
    ∃ root, tree.root H = some root := by
  unfold MmrTree.root
  rw [if_pos hTree]
  have hPeaks : 0 < tree.peaks.length := by
    have hOnes : 0 < countOnes 32 tree.treeSize :=
      countOnes_pos hPos (by unfold maxTreeSize at hLe; omega)
    have hLength : tree.peaks.length = countOnes 32 tree.treeSize := hTree
    omega
  unfold foldPeaks
  cases hReverse : tree.peaks.reverse with
  | nil =>
    rw [reverse_eq_nil_iff] at hReverse
    rw [hReverse] at hPeaks
    cases hPeaks
  | cons shortest rest => exact ⟨_, rfl⟩

/-- A tree with a root has a head that passes the checks of a range. -/
theorem exists_treeHead {root : Digest} (hRoot : tree.root H = some root)
    (hSize : tree.treeSize ≠ 0) : ∃ head, tree.treeHead H = some head ∧ head.root = root ∧
      head.verifyForTreeSize H tree.treeSize = true := by
  refine ⟨{ root, treeSize := tree.treeSize, peaks := tree.peaks }, ?_, rfl, ?_⟩
  · unfold MmrTree.treeHead
    rw [hRoot]
    rfl
  · unfold MmrTree.root at hRoot
    split at hRoot
    · rename_i hWellFormed
      have hPeaks : tree.peaks.length = countOnes 32 tree.treeSize := hWellFormed
      simp [TreeHead.verifyForTreeSize, TreeHead.isWellFormed, hSize, hPeaks, hRoot]
    · cases hRoot

theorem toTree_of_treeHead {head : TreeHead} (h : tree.treeHead H = some head) :
    head.toTree = tree := by
  obtain ⟨root, -, h⟩ := Option.bind_eq_some_iff.mp h
  obtain rfl := Option.some.inj h
  rfl

/-- A well-formed head takes an entry unless it has reached the size limit. -/
theorem TreeHead.exists_tryAppend {head : TreeHead} (h : head.isWellFormed H = true)
    (hSize : head.treeSize < maxTreeSize) (entry : Bytes) : ∃ tree head',
      head.toTree.append H entry = some tree ∧ tree.treeHead H = some head' ∧
      head.tryAppend H entry = some head' ∧ head'.isWellFormed H = true ∧
      head'.treeSize = head.treeSize + 1 := by
  obtain ⟨hSome, hPeaks, -⟩ := of_decide_eq_true h
  have hWellFormed : head.toTree.WellFormed := hPeaks
  have hFits : head.isWellFormed H = true ∧ head.treeSize ≠ maxTreeSize := ⟨h, hSize.ne⟩
  obtain ⟨tree, hAppend, hTree, hNext⟩ :
    ∃ tree, head.toTree.appendHash H (hLeaf H entry) = some tree ∧
      tree.WellFormed ∧ tree.treeSize = head.treeSize + 1 :=
    MmrTree.appendHash_eq_some hWellFormed hSize _
  obtain ⟨root, hRoot⟩ : ∃ root, tree.root H = some root := exists_root hTree (by omega) (by omega)
  obtain ⟨head', hHead, -, hVerify⟩ := exists_treeHead hRoot (by omega)
  obtain ⟨hSize', hHeadWellFormed⟩ := of_decide_eq_true hVerify
  have hAppended : head.toTree.append H entry = some tree := by
    unfold MmrTree.append
    rw [if_pos (show 0 < head.toTree.treeSize from Nat.pos_of_ne_zero hSome), hAppend]
  refine ⟨tree, head', hAppended, hHead, ?_, hHeadWellFormed, hSize'.trans hNext⟩
  unfold TreeHead.tryAppend
  rw [if_pos hFits, hAppended]
  exact hHead

/-- **A head appends as its tree.**  On a well-formed head the append fails at the size limit
and is the append of the tree below it, and from the first head on every append up to
the limit succeeds, with the head of the tree of the log. -/
theorem TreeHead.tryAppend_refines_append (H : Bytes → Digest) :
    (∀ (head : TreeHead) (entry : Bytes), head.isWellFormed H = true →
      (head.treeSize < maxTreeSize ∧ ∃ tree head', head.toTree.append H entry = some tree ∧
        tree.treeHead H = some head' ∧ head.tryAppend H entry = some head') ∨
      (maxTreeSize ≤ head.treeSize ∧ head.tryAppend H entry = none)) ∧
    ∀ (initialDc : Digest) (entries : List Bytes), entries.length < maxTreeSize → ∃ tree head,
      (MmrTree.initialized H initialDc).appendAll H entries = some tree ∧
      tree.treeHead H = some head ∧
      entries.foldlM (fun head entry => head.tryAppend H entry) (initialClcState H initialDc) =
        some head := by
  refine ⟨fun head entry hHead => ?_, fun initialDc entries hSize => ?_⟩
  · by_cases hSize : head.treeSize < maxTreeSize
    · obtain ⟨tree, head', hAppend, hTree, hTry, -, -⟩ :=
        TreeHead.exists_tryAppend hHead hSize entry
      exact .inl ⟨hSize, tree, head', hAppend, hTree, hTry⟩
    · refine .inr ⟨Nat.le_of_not_lt hSize, ?_⟩
      unfold TreeHead.tryAppend MmrTree.append MmrTree.appendHash
      have hFull : ¬ (head.toTree.WellFormed ∧ head.toTree.treeSize < maxTreeSize) :=
        fun hFits => hSize hFits.2
      split_ifs <;> rfl
  · -- the head is that of the tree after every entry
    have hRun : ∀ (entries : List Bytes) (head : TreeHead), head.isWellFormed H = true →
        head.treeSize + entries.length ≤ maxTreeSize → ∃ tree head',
          head.toTree.appendAll H entries = some tree ∧ tree.treeHead H = some head' ∧
          entries.foldlM (fun head entry => head.tryAppend H entry) head = some head' := by
      intro entries
      induction entries with
      | nil =>
        intro head hHead _
        obtain ⟨-, hPeaks, hFold⟩ := of_decide_eq_true hHead
        refine ⟨head.toTree, head, rfl, ?_, rfl⟩
        unfold MmrTree.treeHead MmrTree.root
        rw [if_pos (show head.toTree.WellFormed from hPeaks)]
        show (foldPeaks H head.peaks).bind _ = _
        rw [hFold]
        rfl
      | cons entry entries ih =>
        intro head hHead hSize
        rw [length_cons] at hSize
        obtain ⟨tree, head', hAppend, hTree, hTry, hHead', hSize'⟩ :=
          TreeHead.exists_tryAppend hHead (by omega) entry
        obtain ⟨tree', last, hAll, hLast, hTries⟩ := ih head' hHead' (by omega)
        refine ⟨tree', last, ?_, hLast, ?_⟩
        · unfold MmrTree.appendAll
          rw [foldlM_cons, hAppend, ← toTree_of_treeHead hTree]
          exact hAll
        · rw [foldlM_cons, hTry]
          exact hTries
    exact hRun entries (initialClcState H initialDc) (initialClcState_isWellFormed initialDc) (by
      show 1 + entries.length ≤ maxTreeSize
      omega)

/-- A second append, on the head of two leaves. -/
theorem tryAppend_refines_append_second : ∃ head tree head',
    (initialClcState id []).tryAppend id [1] = some head ∧ head.treeSize = 2 ∧
    head.toTree.append id [2] = some tree ∧ tree.treeHead id = some head' ∧
    head.tryAppend id [2] = some head' := by
  have hFirst : (initialClcState id []).isWellFormed id = true := initialClcState_isWellFormed []
  obtain ⟨-, head, -, -, hHead, hWellFormed, hSize⟩ :=
    TreeHead.exists_tryAppend hFirst (by decide) [1]
  have hTwo : head.treeSize = 2 := hSize
  rcases (TreeHead.tryAppend_refines_append id).1 head [2] hWellFormed with
    ⟨-, tree, head', hAppend⟩ | ⟨hFull, -⟩
  · exact ⟨head, tree, head', hHead, hTwo, hAppend⟩
  · rw [hTwo] at hFull
    exact absurd hFull (by decide)

end EncryptedSpaces.Changelog
