import EncryptedSpaces.Retention.Run

/-!
# Erasure in the symbolic model

An attacker holds the current head group key and every row ever written.
`Descends` orders the terms by derivation; names drawn at different times, or
for different purposes, have no common descendant.
-/

namespace EncryptedSpaces.Retention.Symbolic

open Lib Crypto

/-! ## What an attacker can derive -/

/-- The terms derivable from the head group key and the rows of a history. -/
inductive Derivable (history : List (String × Stored)) (head : Key) : Key → Prop where
  | head : Derivable history head head
  | derive {key : Key} (tag : DerivationTag) :
      Derivable history head key → Derivable history head (suite.derive key tag)
  | decrypt {key : Key} {cell : String} {ct : Ciphertext} :
      (cell, Stored.ciphertext ct) ∈ history → Derivable history head key →
      Derivable history head (suite.decrypt ct key)

/-! ## Descent -/

/-- `Descends root key`: `key` is reached from `root` by derivations. -/
inductive Descends (root : Key) : Key → Prop where
  | refl : Descends root root
  | derive {key : Key} (tag : DerivationTag) : Descends root key → Descends root (.derive key tag)

/-- The name or junk term under all derivations. -/
def Key.base : Key → Key
  | .derive parent _ => parent.base
  | key => key

def Key.depth : Key → Nat
  | .derive parent _ => parent.depth + 1
  | _ => 0

variable {root key : Key} {k k' : Nat}

theorem Descends.base_eq (h : Descends root key) : key.base = root.base := by
  induction h with
  | refl => rfl
  | derive tag _ ih => exact ih

theorem Descends.depth_le (h : Descends root key) : root.depth ≤ key.depth := by
  induction h with
  | refl => exact Nat.le_refl _
  | derive tag _ ih => exact Nat.le_succ_of_le ih

theorem Descends.of_derive {tag : DerivationTag} (h : Descends (.derive root tag) key) :
    Descends root key := by
  induction h with
  | refl => exact .derive tag .refl
  | derive tag' _ ih => exact .derive tag' ih

/-- No key descends from its own derivation. -/
theorem not_descends_derive (key : Key) (tag : DerivationTag) :
    ¬ Descends (.derive key tag) key := by
  intro h
  have hDepth := h.depth_le
  simp only [Key.depth] at hDepth
  omega

theorem Descends.derive_inv {tag : DerivationTag} (h : Descends root (.derive key tag)) :
    root = .derive key tag ∨ Descends root key := by
  cases h with
  | refl => exact .inl rfl
  | derive _ h => exact .inr h

/-- The only key that descends to a name is the name itself. -/
theorem Descends.eq_of_depth_zero (h : Descends root key) (hDepth : key.depth = 0) :
    root = key := by
  cases h with
  | refl => rfl
  | derive tag _ => simp [Key.depth] at hDepth

/-- `key` goes back to a group name drawn before draw `k`. -/
def GroupBefore (k : Nat) (key : Key) : Prop :=
  ∃ draw i, key.base = .group draw i ∧ draw < k

/-- `key` goes back to a data name drawn before draw `k`. -/
def DataBefore (k : Nat) (key : Key) : Prop :=
  ∃ draw, key.base = .data draw ∧ draw < k

theorem GroupBefore.mono (h : GroupBefore k key) (hk : k ≤ k') :
    GroupBefore k' key := by
  obtain ⟨draw, i, hBase, hLt⟩ := h
  exact ⟨draw, i, hBase, by omega⟩

theorem DataBefore.mono (h : DataBefore k key) (hk : k ≤ k') :
    DataBefore k' key := by
  obtain ⟨draw, hBase, hLt⟩ := h
  exact ⟨draw, hBase, by omega⟩

/-- Nothing old descends from a new group name. -/
theorem GroupBefore.not_descends_fresh {i : Nat} (h : GroupBefore k key) :
    ¬ Descends (.group k i) key := by
  intro hDesc
  obtain ⟨draw, j, hBase, hLt⟩ := h
  have hEq : Key.group draw j = .group k i := hBase.symm.trans hDesc.base_eq
  cases hEq
  omega

theorem GroupBefore.not_descends_to_fresh {i : Nat} (h : GroupBefore k root) :
    ¬ Descends root (.group k i) := by
  intro hDesc
  rw [hDesc.eq_of_depth_zero rfl] at h
  exact h.not_descends_fresh .refl

theorem DataBefore.not_descends_fresh (h : DataBefore k key) :
    ¬ Descends (.data k) key := by
  intro hDesc
  obtain ⟨draw, hBase, hLt⟩ := h
  have hEq : Key.data draw = .data k := hBase.symm.trans hDesc.base_eq
  cases hEq
  omega

theorem GroupBefore.not_descends_data (h : GroupBefore k root) (hKey : DataBefore k' key) :
    ¬ Descends root key := by
  intro hDesc
  obtain ⟨draw, i, hBase, _⟩ := h
  obtain ⟨draw', hBase', _⟩ := hKey
  have hEq := hDesc.base_eq
  rw [hBase, hBase'] at hEq
  cases hEq

theorem DataBefore.not_descends_group (h : DataBefore k root) (hKey : GroupBefore k' key) :
    ¬ Descends root key := by
  intro hDesc
  obtain ⟨draw, hBase, _⟩ := h
  obtain ⟨draw', i, hBase', _⟩ := hKey
  have hEq := hDesc.base_eq
  rw [hBase, hBase'] at hEq
  cases hEq

end EncryptedSpaces.Retention.Symbolic
