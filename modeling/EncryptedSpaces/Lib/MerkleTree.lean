import Mathlib.Algebra.Group.Nat.Defs
import Mathlib.Data.List.Basic
import Mathlib.Data.Nat.Log

/-!
# Left-balanced Merkle trees

The tree over a list of leaves splits at the largest power of two below their
number.  `treeHash_append` says what the root does at such a split.
-/

namespace EncryptedSpaces.Lib.MerkleTree

/-- The largest power of two below `n`, for `2 ≤ n`. -/
def splitSize (n : Nat) : Nat := 2 ^ Nat.log2 (n - 1)

theorem splitSize_eq {n k : Nat} (h : 2 ^ k < n) (h' : n ≤ 2 ^ (k + 1)) : splitSize n = 2 ^ k := by
  have hLog : Nat.log2 (n - 1) = k := (Nat.log2_eq_iff (by omega)).mpr ⟨by omega, by omega⟩
  rw [splitSize, hLog]

theorem exists_splitSize {n : Nat} (h : 2 ≤ n) :
    ∃ k, splitSize n = 2 ^ k ∧ 2 ^ k < n ∧ n ≤ 2 ^ (k + 1) := by
  have hLow : 2 ^ Nat.log2 (n - 1) ≤ n - 1 := Nat.log2_self_le (by omega)
  have hHigh : n - 1 < 2 ^ (Nat.log2 (n - 1) + 1) := Nat.lt_log2_self
  exact ⟨Nat.log2 (n - 1), rfl, by omega, by omega⟩

theorem splitSize_bounds {n : Nat} (h : 2 ≤ n) : 0 < splitSize n ∧ splitSize n < n := by
  obtain ⟨k, hk, hLt, -⟩ := exists_splitSize h
  rw [hk]
  exact ⟨Nat.two_pow_pos k, hLt⟩

variable {α : Type}

/-- A tree splits into a perfect one and a smaller rest. -/
structure Splits (xs ys : List α) : Prop where
  perfect : ∃ k, xs.length = 2 ^ k ∧ ys.length ≤ 2 ^ k
  rest : ys ≠ []

variable {xs ys : List α}

theorem Splits.left_ne_nil (h : Splits xs ys) : xs ≠ [] := by
  obtain ⟨k, hk, -⟩ := h.perfect
  exact List.ne_nil_of_length_pos (hk ▸ Nat.two_pow_pos k)

theorem Splits.two_le (h : Splits xs ys) : 2 ≤ (xs ++ ys).length := by
  have hLeft := List.length_pos_of_ne_nil h.left_ne_nil
  have hRest := List.length_pos_of_ne_nil h.rest
  rw [List.length_append]
  omega

theorem Splits.splitSize (h : Splits xs ys) : splitSize (xs ++ ys).length = xs.length := by
  obtain ⟨k, hk, hLe⟩ := h.perfect
  have hRest := List.length_pos_of_ne_nil h.rest
  rw [List.length_append, hk]
  exact splitSize_eq (by omega) (by omega)

section Trees

variable [Inhabited α] (node : α → α → α)

/-- The Merkle tree hash. -/
def treeHash (leaves : List α) : α :=
  if _ : 2 ≤ leaves.length then
    node (treeHash (leaves.take (splitSize leaves.length)))
      (treeHash (leaves.drop (splitSize leaves.length)))
  else leaves.headD default
termination_by leaves.length
decreasing_by
  all_goals
    have hSize := splitSize_bounds ‹2 ≤ leaves.length›
    simp only [List.length_take, List.length_drop]
    omega

variable {xs ys : List α}

theorem treeHash_singleton (x : α) : treeHash node [x] = x := by
  rw [treeHash]
  rfl

theorem treeHash_append (h : Splits xs ys) :
    treeHash node (xs ++ ys) = node (treeHash node xs) (treeHash node ys) := by
  rw [treeHash, dif_pos h.two_le, h.splitSize, List.take_left, List.drop_left]

end Trees

end EncryptedSpaces.Lib.MerkleTree
