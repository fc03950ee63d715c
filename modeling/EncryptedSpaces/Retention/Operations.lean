import EncryptedSpaces.Retention.Steps

/-!
# What creation, extend and rekey write

One inversion lemma per operation: on a store that represents a well-formed
chain, a successful operation has exactly the stated writes (`extend_eq`,
`generateGroupKey_eq`).  The stores so described represent the chain moved by
the operation's abstract effect.
-/

namespace EncryptedSpaces.Retention

open Lib Crypto

variable {K C E V P : Type} {S : KeySuite K C E V} {prover : RuntimeProver K C E P} {c : Chain K}

/-! ## Creation -/

/-- A fresh store represents the initial chain, whatever lay under it. -/
theorem represents_new (hS : S.Lawful) (hgk d0 : K) (b : Builder V P) :
    Represents S (SpaceKey.new S hgk d0 b).2.get (Chain.initial hgk d0) where
  layout :=
    { fgkNext := by
        simp [SpaceKey.new, saveGbctRow, loadFgkNext, hS.decodeU64_encodeU64]
      dgkNext := by
        simp [SpaceKey.new, saveGbctRow, loadDgkNext, hS.decodeU64_encodeU64]
      dMin := by simp [SpaceKey.new, saveGbctRow, loadDMin, hS.decodeU64_encodeU64]
      dNext := by simp [SpaceKey.new, saveGbctRow, loadDNext, hS.decodeU64_encodeU64]
      fgkRow := fun o ho => by
        obtain rfl : o = 0 := by simpa using ho
        simp [SpaceKey.new, saveGbctRow, loadFgkRow, hS.decodeU64_encodeU64,
          hS.decodeCommitment_encodeCommitment]
      dgkRow := fun o ho => absurd ho (Nat.not_lt_zero o)
      dRow := fun s hs hs' => by
        obtain rfl : s = 0 := by simpa using hs'
        simp [SpaceKey.new, saveGbctRow, loadDRow, hS.decodeCommitment_encodeCommitment]
      dHead := fun o ho hLive => by
        obtain rfl : o = 0 := by simpa using ho
        simp [SpaceKey.new, saveGbctRow, loadGbctDHead, hS.decodeCiphertext_encodeCiphertext]
      link := fun o ho => by simp at ho }
  hgkCommitment := by
    simp [SpaceKey.new, saveGbctRow, currentHgkCommitment, loadDgkNext, loadFgkNext,
      loadFgkRow, hS.decodeU64_encodeU64, hS.decodeCommitment_encodeCommitment]
  dRow s hs hs' := by
    obtain rfl : s = 0 := by simpa using hs'
    simp [SpaceKey.new, saveGbctRow, loadDRow, hS.decodeCommitment_encodeCommitment]
  dHead o ho hLive := by
    obtain rfl : o = 0 := by simpa using ho
    refine ⟨S.encryptDHead hgk d0, ?_, hS.decrypt_encryptDHead _ _⟩
    simp [SpaceKey.new, saveGbctRow, loadGbctDHead, hS.decodeCiphertext_encodeCiphertext]
  link o ho := by simp at ho

theorem checkedSucc_eq_some {n m : Nat} (h : checkedSucc n = some m) :
    m = n + 1 ∧ n + 1 < 2 ^ 64 := by
  simp only [checkedSucc] at h
  split at h
  · next hLt =>
      cases h
      exact ⟨rfl, hLt⟩
  · cases h

/-! ## Extend -/

/-- The store after an extend. -/
def Builder.afterExtend (S : KeySuite K C E V) (c : Chain K) (proof : P) (b : Builder V P) :
    Builder V P :=
  saveDNext S
    (saveDRow S (b.recordProof proof)
      { seq := c.dNext, commitment := S.commit (S.derive (c.dKey (c.dNext - 1)) .dDerive) })
    (c.dNext + 1)

/-- A successful extend writes the next D row and the counter. -/
theorem extend_eq [DecidableEq C] (hS : S.Lawful) (hWF : c.WF S) {b b' : Builder V P}
    (hRep : Represents S b.get c) {self : SpaceKey K} {id : Nat}
    (h : self.extend S prover b = some (id, b')) :
    id = c.dNext ∧ c.dNext + 1 < 2 ^ 64 ∧ ∃ proof, b' = b.afterExtend S c proof := by
  have hMin := hWF.dMin_lt
  simp only [SpaceKey.extend, hRep.layout.dNext, Option.bind_eq_bind, Option.bind_some] at h
  rw [if_neg (by omega)] at h
  simp only [Option.bind_eq_some_iff] at h
  obtain ⟨currentD, hResolve, dRow, hRow, proof, hProof, next, hNext, hRet⟩ := h
  obtain ⟨rfl, hLt⟩ := checkedSucc_eq_some hNext
  have hHgk := resolveCurrentHgk_of_resolveDKey hS hRep hResolve
  rw [resolveDKey_eq hWF hRep hHgk, if_pos (by omega)] at hResolve
  cases hResolve
  cases hRet
  exact ⟨rfl, hLt, proof, rfl⟩

/-- The store after an extend represents the extended chain. -/
theorem represents_afterExtend (hS : S.Lawful) (hWF : c.WF S) {b : Builder V P}
    (hRep : Represents S b.get c) (hOverflow : c.dNext + 1 < 2 ^ 64) (proof : P) :
    Represents S (b.afterExtend S c proof).get (c.extended S) := by
  apply hRep.extended hWF
  · intro cell hCell
    cases cell with
    | dNext => exact absurd trivial hCell
    | dCommitment s =>
      have hNe : c.dNext ≠ s := fun h => hCell h.symm
      simp [Builder.afterExtend, hNe]
    | _ => simp [Builder.afterExtend]
  · simp [Builder.afterExtend, loadDNext, hS.decodeU64_encodeU64 _ hOverflow]
  · simp [Builder.afterExtend, loadDRow, hS.decodeCommitment_encodeCommitment]

/-! ## Rekey -/

/-- The store after a rekey. -/
def Builder.afterRekey (S : KeySuite K C E V) (c : Chain K) (newGroupKey newDHead : K)
    (proof : P) (b : Builder V P) : Builder V P :=
  let b := saveFgkRow S (b.recordProof proof) c.fgkNext
    { dStart := c.dNext, commitment := S.commit newGroupKey }
  let b := saveGbctRow S b c.fgkNext
    { olderGbKeyCiphertext := some (S.encryptGbChainLink newGroupKey c.hgk)
      dHeadCiphertext := S.encryptDHead newGroupKey newDHead }
  let b := (saveFgkNext S b (c.fgkNext + 1)).markNeedsDelivery
  let b := saveDgkNext S b 0
  let b := saveDRow S b { seq := c.dNext, commitment := S.commit newDHead }
  saveDNext S b (c.dNext + 1)

/-- A successful rekey opens a new segment that links to the old head. -/
theorem generateGroupKey_eq [DecidableEq C] (hS : S.Lawful) (hWF : c.WF S)
    {b b' : Builder V P} (hRep : Represents S b.get c) {self : SpaceKey K}
    {newGroupKey newDHead : K} {out : C × K}
    (h : self.generateGroupKey S prover newGroupKey newDHead b = some (out, b')) :
    out = (S.commit newGroupKey, newGroupKey) ∧ c.fgkNext + 1 < 2 ^ 64 ∧
      c.dNext + 1 < 2 ^ 64 ∧ ∃ proof, b' = b.afterRekey S c newGroupKey newDHead proof := by
  have hMin := hWF.dMin_lt
  simp only [SpaceKey.generateGroupKey, Option.bind_eq_some,
    Builder.get_recordProof, hRep.layout.dNext, hRep.layout.fgkNext] at h
  obtain ⟨oldHgk, hHgk, oldCommitment, _, dNext, hDNext, h⟩ := h
  cases hDNext
  rw [if_neg (by omega)] at h
  simp only [Option.bind_eq_some] at h
  obtain ⟨proof, _, fgkNext, hFgk, fgkCounter, hFgkCounter, dCounter, hDCounter, hRet⟩ := h
  cases hFgk
  obtain ⟨rfl, hFgkLt⟩ := checkedSucc_eq_some hFgkCounter
  obtain ⟨rfl, hDLt⟩ := checkedSucc_eq_some hDCounter
  cases eq_of_resolveCurrentHgk hS hRep hHgk
  cases hRet
  exact ⟨rfl, hFgkLt, hDLt, proof, rfl⟩

/-- The store after a rekey represents the rekeyed chain. -/
theorem represents_afterRekey (hS : S.Lawful) (hWF : c.WF S) {b : Builder V P}
    (hRep : Represents S b.get c) (hFgkLt : c.fgkNext + 1 < 2 ^ 64)
    (hDLt : c.dNext + 1 < 2 ^ 64) (newGroupKey newDHead : K) (proof : P) :
    Represents S (b.afterRekey S c newGroupKey newDHead proof).get
      (c.rekeyed newGroupKey newDHead) := by
  have hNext : c.dNext < 2 ^ 64 := hWF.layout.dNext_lt
  apply hRep.rekeyed hWF
  · intro cell hCell
    cases cell with
    | fgkNext => exact absurd trivial hCell
    | dgkNext => exact absurd trivial hCell
    | dNext => exact absurd trivial hCell
    | dMin => simp [Builder.afterRekey, saveGbctRow]
    | dgkCommitment o => simp [Builder.afterRekey, saveGbctRow]
    | dCommitment s =>
      have hNe : c.dNext ≠ s := fun h => hCell h.symm
      simp [Builder.afterRekey, saveGbctRow, hNe]
    | _ o =>
      have hNe : c.fgkNext ≠ o := fun h => hCell h.symm
      simp [Builder.afterRekey, saveGbctRow, hNe]
  · simp [Builder.afterRekey, saveGbctRow, loadFgkNext, hS.decodeU64_encodeU64 _ hFgkLt]
  · simp [Builder.afterRekey, saveGbctRow, loadDgkNext, hS.decodeU64_encodeU64]
  · simp [Builder.afterRekey, saveGbctRow, loadDNext, hS.decodeU64_encodeU64 _ hDLt]
  · simp [Builder.afterRekey, saveGbctRow, loadFgkRow, hS.decodeU64_encodeU64 _ hNext,
      hS.decodeCommitment_encodeCommitment]
  · simp [Builder.afterRekey, saveGbctRow, loadDRow, hS.decodeCommitment_encodeCommitment]
  · refine ⟨S.encryptDHead newGroupKey newDHead, ?_, hS.decrypt_encryptDHead _ _⟩
    simp [Builder.afterRekey, saveGbctRow, loadGbctDHead, hS.decodeCiphertext_encodeCiphertext]
  · refine ⟨S.encryptGbChainLink newGroupKey c.hgk, ?_, hS.decrypt_encryptGbChainLink _ _⟩
    simp [Builder.afterRekey, saveGbctRow, hS.decodeOptionalCiphertext_encodeCiphertext]

end EncryptedSpaces.Retention
