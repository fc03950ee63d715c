import EncryptedSpaces.Retention.Symbolic

/-!
# Pruned data keys stay out of reach

The proof is a closed-set argument.  `Sealed k history c` describes a history
written by `k` draws that led to the chain `c`: every ciphertext was made
under a group key, no live group key leads to a group key used earlier, and
what opens under a live key is live.  The descendants of live keys then form a
set that contains the head and is closed under derivation and decryption
(`covered_of_derivable`).  A reduce moves keys out of that set, and no later
operation can bring them back, because the roots it adds are fresh.
-/

namespace EncryptedSpaces.Retention.Symbolic

open Lib Crypto

variable {P : Type}

/-- Segment `o` still holds a live sequence number. -/
def LiveSegment (c : Chain Key) (o : Nat) : Prop := o < c.fgkNext ∧ c.dMin < c.bound (o + 1)

def LiveSeq (c : Chain Key) (s : Nat) : Prop := c.dMin ≤ s ∧ s < c.dNext

/-- A live key: the group key of a live segment or the data key of a live
sequence number. -/
def LiveKey (c : Chain Key) (key : Key) : Prop :=
  (∃ o, LiveSegment c o ∧ key = c.gbKey o) ∨ ∃ s, LiveSeq c s ∧ key = c.dKey s

structure Sealed (k : Nat) (history : List (String × Stored)) (c : Chain Key) : Prop where
  /-- ciphertexts are made under a derivation of a group key -/
  keyForm : ∀ cell ct, (cell, Stored.ciphertext ct) ∈ history →
    ∃ g tag, ct.key = .derive g tag ∧ tag ≠ .hgkDerive ∧ GroupBefore k g
  /-- a live group key leads to no other key a ciphertext was made under -/
  frontier : ∀ cell ct, (cell, Stored.ciphertext ct) ∈ history →
    ∀ g tag, ct.key = .derive g tag → ∀ o, LiveSegment c o → Descends (c.gbKey o) g →
      g = c.gbKey o
  /-- what opens under a live group key is live -/
  opens : ∀ cell ct, (cell, Stored.ciphertext ct) ∈ history →
    ∀ o tag, LiveSegment c o → ct.key = .derive (c.gbKey o) tag → LiveKey c ct.message
  gbBase : ∀ o, LiveSegment c o → GroupBefore k (c.gbKey o)
  /-- group keys are derived from each other in one way only -/
  gbTag : ∀ o, LiveSegment c o → ∀ g tag, c.gbKey o = .derive g tag → tag = .hgkDerive
  dBase : ∀ s, s < c.dNext → DataBefore k (c.dKey s)
  /-- derivation only leads to later data keys -/
  order : ∀ s s', s < s' → s' < c.dNext → ¬ Descends (c.dKey s') (c.dKey s)

/-- Terms that descend from a live key or from junk. -/
def Covered (c : Chain Key) (key : Key) : Prop :=
  (∃ root, LiveKey c root ∧ Descends root key) ∨
    ∃ a b d, Descends (.junk a b d) key

/-! ## The closed set -/

section Closed

variable {k : Nat} {history : List (String × Stored)} {c : Chain Key}

/-- Opening any ciphertext of the history with a covered key gives a covered
term. -/
theorem Sealed.covered_decrypt (h : Sealed k history c) {cell : String} {ct : Ciphertext}
    (hMem : (cell, Stored.ciphertext ct) ∈ history) {key : Key} (hKey : Covered c key) :
    Covered c (suite.decrypt ct key) := by
  by_cases hEq : ct.key = key
  · -- the right key: it descends from a live group key, so it is that key's own derivation
    have hOpen : suite.decrypt ct key = ct.message := by simp [suite, hEq]
    obtain ⟨g, tag, hForm, hTag, hGroup⟩ := h.keyForm cell ct hMem
    have hDerived : GroupBefore k (.derive g tag) := hGroup
    rw [hOpen]
    rw [← hEq, hForm] at hKey
    rcases hKey with ⟨root, hLive | hLive, hDesc⟩ | ⟨a, b, d, hDesc⟩
    · obtain ⟨o, hO, rfl⟩ := hLive
      rcases hDesc.derive_inv with hRoot | hDesc'
      · exact absurd (h.gbTag o hO g tag hRoot) hTag
      · have hG := h.frontier cell ct hMem g tag hForm o hO hDesc'
        have hMsg := h.opens cell ct hMem o tag hO (by rw [hForm, hG])
        exact .inl ⟨_, hMsg, .refl⟩
    · obtain ⟨s, hS, rfl⟩ := hLive
      exact absurd hDesc ((h.dBase s hS.2).not_descends_group hDerived)
    · obtain ⟨draw, i, hBase, _⟩ := hDerived
      have hJunk := hDesc.base_eq
      rw [hBase] at hJunk
      cases hJunk
  · have hJunk : suite.decrypt ct key = .junk ct.key ct.message key := by simp [suite, hEq]
    rw [hJunk]
    exact .inr ⟨_, _, _, .refl⟩

/-- Everything derivable from a live key and the history is covered. -/
theorem Sealed.covered_of_derivable (h : Sealed k history c) {head key : Key}
    (hHead : LiveKey c head) (hDer : Derivable history head key) : Covered c key := by
  induction hDer with
  | head => exact .inl ⟨head, hHead, .refl⟩
  | derive tag _ ih =>
    rcases ih with ⟨root, hLive, hDesc⟩ | ⟨a, b, d, hDesc⟩
    · exact .inl ⟨root, hLive, .derive tag hDesc⟩
    · exact .inr ⟨a, b, d, .derive tag hDesc⟩
  | decrypt hMem _ ih => exact h.covered_decrypt hMem ih

/-- A data key is erased when it descends from no live data key. -/
structure Erased (k : Nat) (c : Chain Key) (key : Key) : Prop where
  base : DataBefore k key
  notDescends : ∀ s, LiveSeq c s → ¬ Descends (c.dKey s) key

theorem Sealed.not_derivable_of_erased (h : Sealed k history c) {head key : Key}
    (hHead : LiveKey c head) (hErased : Erased k c key) : ¬ Derivable history head key := by
  intro hDer
  rcases h.covered_of_derivable hHead hDer with ⟨root, hLive | hLive, hDesc⟩ | ⟨a, b, d, hDesc⟩
  · obtain ⟨o, hO, rfl⟩ := hLive
    exact (h.gbBase o hO).not_descends_data hErased.base hDesc
  · obtain ⟨s, hS, rfl⟩ := hLive
    exact hErased.notDescends s hS hDesc
  · obtain ⟨draw, hBase, _⟩ := hErased.base
    have hJunk := hDesc.base_eq
    rw [hBase] at hJunk
    cases hJunk

end Closed

/-! ## Creation -/

section Steps

variable {k : Nat} {c : Chain Key} {b : Builder Stored P}

/-- A group key drawn at draw `k`. -/
theorem groupBefore_group (k i : Nat) : GroupBefore (k + 1) (.group k i) :=
  ⟨k, i, rfl, Nat.lt_succ_self k⟩

theorem dataBefore_data (k : Nat) : DataBefore (k + 1) (.data k) :=
  ⟨k, rfl, Nat.lt_succ_self k⟩

variable {cell : String} {ct : Ciphertext} {proof : P} {o before : Nat}
  {key newGroupKey newDHead : Key} {history : List (String × Stored)}

/-- The only ciphertext a creation adds is the first D head. -/
theorem mem_writes_new {hgk d0 : Key}
    (h : (cell, Stored.ciphertext ct) ∈ (SpaceKey.new suite hgk d0 b).2.writes) :
    (cell, Stored.ciphertext ct) ∈ b.writes ∨
      ct = { key := .derive hgk .dHeadEncrypt, message := d0 } := by
  simp [SpaceKey.new, saveGbctRow, suite, KeySuite.encryptDHead] at h
  rcases h with h | ⟨_, rfl⟩
  · exact .inl h
  · exact .inr rfl

/-- Creating a space over an old history: every old key is out of reach. -/
theorem sealed_new
    (hOld : ∀ cell ct, (cell, Stored.ciphertext ct) ∈ b.writes →
      ∃ g tag, ct.key = .derive g tag ∧ tag ≠ .hgkDerive ∧ GroupBefore k g) :
    Sealed (k + 1) (SpaceKey.new suite (.group k 0) (.data k) b).2.writes
      (Chain.initial (.group k 0) (.data k)) where
  keyForm cell ct hMem := by
    rcases mem_writes_new hMem with hMem | rfl
    · obtain ⟨g, tag, hForm, hTag, hGroup⟩ := hOld cell ct hMem
      exact ⟨g, tag, hForm, hTag, hGroup.mono (Nat.le_succ k)⟩
    · exact ⟨_, _, rfl, by decide, groupBefore_group k 0⟩
  frontier cell ct hMem g tag hForm o hO hDesc := by
    rcases mem_writes_new hMem with hMem | rfl
    · obtain ⟨g', tag', hForm', _, hGroup⟩ := hOld cell ct hMem
      rw [hForm] at hForm'
      cases hForm'
      exact absurd hDesc hGroup.not_descends_fresh
    · cases hForm
      rfl
  opens cell ct hMem o tag hO hKey := by
    rcases mem_writes_new hMem with hMem | rfl
    · obtain ⟨g, tag', hForm, _, hGroup⟩ := hOld cell ct hMem
      rw [hKey] at hForm
      cases hForm
      exact absurd Descends.refl hGroup.not_descends_fresh
    · exact .inr ⟨0, ⟨Nat.le_refl _, Nat.zero_lt_one⟩, rfl⟩
  gbBase o hO := groupBefore_group k 0
  gbTag o hO g tag hEq := by cases hEq
  dBase s hs := dataBefore_data k
  order s s' hLt hs' := by
    rw [Chain.initial_toLayout, Layout.initial_dNext] at hs'
    omega

/-! ## Extend -/

theorem mem_writes_afterExtend
    (h : (cell, Stored.ciphertext ct) ∈ (b.afterExtend suite c proof).writes) :
    (cell, Stored.ciphertext ct) ∈ b.writes := by
  simpa [Builder.afterExtend, suite] using h

theorem LiveSegment.of_extended (hWF : c.WF suite) (h : LiveSegment (c.extended suite) o) :
    LiveSegment c o :=
  ⟨h.1, hWF.layout.live_of_extended h.1 h.2⟩

theorem LiveSegment.extended (h : LiveSegment c o) :
    LiveSegment (c.extended suite) o := by
  refine ⟨h.1, ?_⟩
  have hLive := h.2
  rw [Chain.extended_toLayout, Layout.extended_dMin]
  rcases Layout.bound_extended_succ h.1 with ⟨_, hTop, _⟩ | ⟨_, hSame⟩ <;> omega

theorem LiveKey.extended (h : LiveKey c key) : LiveKey (c.extended suite) key := by
  rcases h with ⟨o, hO, rfl⟩ | ⟨s, ⟨hLo, hHi⟩, rfl⟩
  · exact .inl ⟨o, hO.extended, rfl⟩
  · refine .inr ⟨s, ⟨hLo, Nat.lt_succ_of_lt hHi⟩, ?_⟩
    rw [Chain.extended_dKey, Function.update_of_ne (Nat.ne_of_lt hHi)]

theorem Sealed.extended (hWF : c.WF suite) (h : Sealed k b.writes c) (proof : P) :
    Sealed (k + 1) (b.afterExtend suite c proof).writes (c.extended suite) where
  keyForm cell ct hMem := by
    obtain ⟨g, tag, hForm, hTag, hGroup⟩ := h.keyForm cell ct (mem_writes_afterExtend hMem)
    exact ⟨g, tag, hForm, hTag, hGroup.mono (Nat.le_succ k)⟩
  frontier cell ct hMem g tag hForm o hO :=
    h.frontier cell ct (mem_writes_afterExtend hMem) g tag hForm o (hO.of_extended hWF)
  opens cell ct hMem o tag hO hKey :=
    (h.opens cell ct (mem_writes_afterExtend hMem) o tag (hO.of_extended hWF) hKey).extended
  gbBase o hO := (h.gbBase o (hO.of_extended hWF)).mono (Nat.le_succ k)
  gbTag o hO := h.gbTag o (hO.of_extended hWF)
  dBase s hs := by
    have hMin := hWF.dMin_lt
    rw [Chain.extended_toLayout, Layout.extended_dNext] at hs
    rw [Chain.extended_dKey]
    by_cases hNew : s = c.dNext
    · subst hNew
      rw [Function.update_self]
      exact (h.dBase (c.dNext - 1) (by omega)).mono (Nat.le_succ k)
    · rw [Function.update_of_ne hNew]
      exact (h.dBase s (by omega)).mono (Nat.le_succ k)
  order s s' hLt hs' := by
    rw [Chain.extended_toLayout, Layout.extended_dNext] at hs'
    rw [Chain.extended_dKey, Chain.extended_dKey,
      Function.update_of_ne (show s ≠ c.dNext by omega)]
    by_cases hNew : s' = c.dNext
    · subst hNew
      rw [Function.update_self]
      intro hDesc
      rcases Nat.lt_or_ge s (c.dNext - 1) with hOlder | hLast
      · exact h.order s (c.dNext - 1) hOlder (by omega) (Descends.of_derive hDesc)
      · have hEq : s = c.dNext - 1 := by omega
        subst hEq
        exact not_descends_derive _ _ hDesc
    · rw [Function.update_of_ne hNew]
      exact h.order s s' hLt (by omega)

theorem Erased.extended (hWF : c.WF suite) (h : Erased k c key) :
    Erased (k + 1) (c.extended suite) key where
  base := h.base.mono (Nat.le_succ k)
  notDescends s hs hDesc := by
    have hMin := hWF.dMin_lt
    rw [Chain.extended_dKey] at hDesc
    by_cases hNew : s = c.dNext
    · subst hNew
      rw [Function.update_self] at hDesc
      exact h.notDescends (c.dNext - 1) ⟨by omega, by omega⟩ (Descends.of_derive hDesc)
    · rw [Function.update_of_ne hNew] at hDesc
      obtain ⟨hLo, hHi⟩ := hs
      rw [Chain.extended_toLayout, Layout.extended_dNext] at hHi
      exact h.notDescends s ⟨hLo, by omega⟩ hDesc

/-! ## Rekey -/

theorem mem_writes_afterRekey (h : (cell, Stored.ciphertext ct) ∈
      (b.afterRekey suite c newGroupKey newDHead proof).writes) :
    (cell, Stored.ciphertext ct) ∈ b.writes ∨
      ct = { key := .derive newGroupKey .dHeadEncrypt, message := newDHead } ∨
      ct = { key := .derive newGroupKey .gbChainLink, message := c.hgk } := by
  simp [Builder.afterRekey, saveGbctRow, suite, KeySuite.encryptDHead,
    KeySuite.encryptGbChainLink] at h
  rcases h with h | ⟨_, rfl⟩ | ⟨_, rfl⟩
  · exact .inl h
  · exact .inr (.inl rfl)
  · exact .inr (.inr rfl)

theorem LiveSegment.of_rekeyed (h : LiveSegment (c.rekeyed newGroupKey newDHead) o) :
    o = c.fgkNext ∨ LiveSegment c o := by
  obtain ⟨hO, hLive⟩ := h
  rw [Chain.rekeyed_toLayout, Layout.rekeyed_fgkNext] at hO
  by_cases hNew : o = c.fgkNext
  · exact .inl hNew
  · rw [Chain.rekeyed_toLayout,
      Layout.bound_rekeyed_of_le (show o + 1 ≤ c.fgkNext by omega)] at hLive
    exact .inr ⟨by omega, hLive⟩

theorem LiveSegment.rekeyed (h : LiveSegment c o) :
    LiveSegment (c.rekeyed newGroupKey newDHead) o := by
  refine ⟨Nat.lt_succ_of_lt h.1, ?_⟩
  rw [Chain.rekeyed_toLayout, Layout.bound_rekeyed_of_le (show o + 1 ≤ c.fgkNext from h.1)]
  exact h.2

theorem LiveKey.rekeyed (h : LiveKey c key) :
    LiveKey (c.rekeyed newGroupKey newDHead) key := by
  rcases h with ⟨o, hO, rfl⟩ | ⟨s, ⟨hLo, hHi⟩, rfl⟩
  · refine .inl ⟨o, hO.rekeyed, ?_⟩
    rw [Chain.rekeyed_gbKey, Function.update_of_ne (Nat.ne_of_lt hO.1)]
  · refine .inr ⟨s, ⟨hLo, Nat.lt_succ_of_lt hHi⟩, ?_⟩
    rw [Chain.rekeyed_dKey, Function.update_of_ne (Nat.ne_of_lt hHi)]

/-- The head segment is live and holds the head group key. -/
theorem liveSegment_head (hWF : c.WF suite) : LiveSegment c (c.fgkNext - 1) := by
  have hPos := hWF.layout.fgkNext_pos
  refine ⟨by omega, ?_⟩
  rw [show c.fgkNext - 1 + 1 = c.fgkNext by omega, Layout.bound_fgkNext]
  exact hWF.dMin_lt

theorem liveKey_hgk (hWF : c.WF suite) : LiveKey c c.hgk :=
  .inl ⟨c.fgkNext - 1, liveSegment_head hWF, hWF.head.symm⟩

theorem Sealed.rekeyed (hWF : c.WF suite) (h : Sealed k b.writes c) (proof : P) :
    Sealed (k + 1) (b.afterRekey suite c (.group k 0) (.data k) proof).writes
      (c.rekeyed (.group k 0) (.data k)) where
  keyForm cell ct hMem := by
    rcases mem_writes_afterRekey hMem with hMem | rfl | rfl
    · obtain ⟨g, tag, hForm, hTag, hGroup⟩ := h.keyForm cell ct hMem
      exact ⟨g, tag, hForm, hTag, hGroup.mono (Nat.le_succ k)⟩
    · exact ⟨_, _, rfl, by decide, groupBefore_group k 0⟩
    · exact ⟨_, _, rfl, by decide, groupBefore_group k 0⟩
  frontier cell ct hMem g tag hForm o hO hDesc := by
    rw [Chain.rekeyed_gbKey] at hDesc ⊢
    rcases hO.of_rekeyed with rfl | hO
    · rw [Function.update_self] at hDesc ⊢
      rcases mem_writes_afterRekey hMem with hMem | rfl | rfl
      · obtain ⟨g', tag', hForm', _, hGroup⟩ := h.keyForm cell ct hMem
        rw [hForm] at hForm'
        cases hForm'
        exact absurd hDesc hGroup.not_descends_fresh
      · cases hForm
        rfl
      · cases hForm
        rfl
    · rw [Function.update_of_ne (Nat.ne_of_lt hO.1)] at hDesc ⊢
      rcases mem_writes_afterRekey hMem with hMem | rfl | rfl
      · exact h.frontier cell ct hMem g tag hForm o hO hDesc
      · cases hForm
        exact absurd hDesc (h.gbBase o hO).not_descends_to_fresh
      · cases hForm
        exact absurd hDesc (h.gbBase o hO).not_descends_to_fresh
  opens cell ct hMem o tag hO hKey := by
    rcases mem_writes_afterRekey hMem with hMem | rfl | rfl
    · rw [Chain.rekeyed_gbKey] at hKey
      rcases hO.of_rekeyed with rfl | hO
      · rw [Function.update_self] at hKey
        obtain ⟨g, tag', hForm, _, hGroup⟩ := h.keyForm cell ct hMem
        rw [hKey] at hForm
        cases hForm
        exact absurd Descends.refl hGroup.not_descends_fresh
      · rw [Function.update_of_ne (Nat.ne_of_lt hO.1)] at hKey
        exact (h.opens cell ct hMem o tag hO hKey).rekeyed
    · refine .inr ⟨c.dNext, ⟨Nat.le_of_lt hWF.dMin_lt, Nat.lt_succ_self _⟩, ?_⟩
      rw [Chain.rekeyed_dKey, Function.update_self]
    · exact (liveKey_hgk hWF).rekeyed
  gbBase o hO := by
    rw [Chain.rekeyed_gbKey]
    rcases hO.of_rekeyed with rfl | hO
    · rw [Function.update_self]
      exact groupBefore_group k 0
    · rw [Function.update_of_ne (Nat.ne_of_lt hO.1)]
      exact (h.gbBase o hO).mono (Nat.le_succ k)
  gbTag o hO g tag hEq := by
    rw [Chain.rekeyed_gbKey] at hEq
    rcases hO.of_rekeyed with rfl | hO
    · rw [Function.update_self] at hEq
      cases hEq
    · rw [Function.update_of_ne (Nat.ne_of_lt hO.1)] at hEq
      exact h.gbTag o hO g tag hEq
  dBase s hs := by
    rw [Chain.rekeyed_toLayout, Layout.rekeyed_dNext] at hs
    rw [Chain.rekeyed_dKey]
    by_cases hNew : s = c.dNext
    · subst hNew
      rw [Function.update_self]
      exact dataBefore_data k
    · rw [Function.update_of_ne hNew]
      exact (h.dBase s (by omega)).mono (Nat.le_succ k)
  order s s' hLt hs' := by
    rw [Chain.rekeyed_toLayout, Layout.rekeyed_dNext] at hs'
    rw [Chain.rekeyed_dKey, Chain.rekeyed_dKey,
      Function.update_of_ne (show s ≠ c.dNext by omega)]
    by_cases hNew : s' = c.dNext
    · subst hNew
      rw [Function.update_self]
      exact (h.dBase s hLt).not_descends_fresh
    · rw [Function.update_of_ne hNew]
      exact h.order s s' hLt (by omega)

theorem Erased.rekeyed (h : Erased k c key) :
    Erased (k + 1) (c.rekeyed newGroupKey (.data k)) key where
  base := h.base.mono (Nat.le_succ k)
  notDescends s hs hDesc := by
    rw [Chain.rekeyed_dKey] at hDesc
    by_cases hNew : s = c.dNext
    · subst hNew
      rw [Function.update_self] at hDesc
      exact h.base.not_descends_fresh hDesc
    · rw [Function.update_of_ne hNew] at hDesc
      obtain ⟨hLo, hHi⟩ := hs
      rw [Chain.rekeyed_toLayout, Layout.rekeyed_dNext] at hHi
      exact h.notDescends s ⟨hLo, by omega⟩ hDesc

/-! ## Reduce -/

/-- A reduce adds, for each survivor, its D head and possibly a link to the
next older survivor. -/
theorem mem_writes_afterReduce (hWF : c.WF suite) (hLo : c.dMin < before)
    (hBefore : before < c.dNext) {fresh : Nat → Key}
    (h : (cell, Stored.ciphertext ct) ∈ (b.afterReduce suite c before fresh proof).writes) :
    (cell, Stored.ciphertext ct) ∈ b.writes ∨
      ∃ o tag, LiveSegment (c.reducedFresh suite before fresh) o ∧ tag ≠ .hgkDerive ∧
        ct.key = .derive ((c.reducedFresh suite before fresh).gbKey o) tag ∧
        LiveKey (c.reducedFresh suite before fresh) ct.message := by
  rcases mem_writes_saveGbctRows suite _ _ h with hOld | ⟨row, hRow, hNew⟩
  · left
    simpa [Builder.afterReduceCounters, suite] using hOld
  · right
    obtain ⟨o, hO, hLive, rfl⟩ := hWF.increasing.mem_live (Nat.le_refl _) hRow
    rcases hNew with hHead | ⟨older, hOlder, hLink⟩
    · cases hHead
      refine ⟨o, .dHeadEncrypt, ⟨hO, hLive⟩, by decide, rfl, .inr ⟨_, ⟨?_, ?_⟩, rfl⟩⟩
      · exact Nat.le_max_right _ _
      · have hStart := hWF.layout.max_start_lt_dNext hO
        rw [Chain.reduced_toLayout, Layout.reduced_dNext]
        omega
    · simp only [Layout.reducePair] at hOlder
      split at hOlder
      · next hPrev =>
          cases hOlder
          cases hLink
          obtain ⟨p, rfl⟩ := hWF.layout.exists_eq_succ_of_lt_bound (Nat.le_of_lt hLo) hPrev
          exact ⟨p + 1, .gbChainLink, ⟨hO, hLive⟩, by decide, rfl,
            .inl ⟨p, ⟨Nat.lt_of_succ_lt hO, hPrev⟩, rfl⟩⟩
      · cases hOlder

/-- After a reduce a live segment is protected by the derived head key or by a
key drawn in the reduce. -/
theorem reduced_gbKey_cases (k before o : Nat) :
    (c.reducedFresh suite before (.group k)).gbKey o = .derive c.hgk .hgkDerive ∨
      ∃ i, (c.reducedFresh suite before (.group k)).gbKey o = .group k i := by
  rw [Chain.reduced_gbKey, Chain.reducedKey]
  split
  · exact .inl rfl
  · exact .inr ⟨_, rfl⟩

theorem Sealed.groupBefore_hgk (hWF : c.WF suite) (h : Sealed k history c) :
    GroupBefore k c.hgk := by
  rw [← hWF.head]
  exact h.gbBase _ (liveSegment_head hWF)

/-- The keys a reduce brings in lead to no key used before. -/
theorem Sealed.not_descends_reduced (hWF : c.WF suite) (h : Sealed k history c)
    (hMem : (cell, Stored.ciphertext ct) ∈ history) {g : Key} {tag : DerivationTag}
    (hForm : ct.key = .derive g tag) (before o : Nat) :
    ¬ Descends ((c.reducedFresh suite before (.group k)).gbKey o) g := by
  intro hDesc
  rcases reduced_gbKey_cases k before o with hEq | ⟨i, hEq⟩
  · rw [hEq] at hDesc
    have hG : g = c.hgk := by
      rw [← hWF.head]
      apply h.frontier cell ct hMem g tag hForm _ (liveSegment_head hWF)
      rw [hWF.head]
      exact hDesc.of_derive
    rw [hG] at hDesc
    exact not_descends_derive _ _ hDesc
  · rw [hEq] at hDesc
    obtain ⟨g', tag', hForm', _, hGroup⟩ := h.keyForm cell ct hMem
    rw [hForm] at hForm'
    cases hForm'
    exact hGroup.not_descends_fresh hDesc

/-- The keys a reduce brings in do not lead to each other. -/
theorem Sealed.eq_of_descends_reduced (hWF : c.WF suite) (h : Sealed k history c) {o' : Nat}
    (hDesc : Descends ((c.reducedFresh suite before (.group k)).gbKey o)
      ((c.reducedFresh suite before (.group k)).gbKey o')) :
    (c.reducedFresh suite before (.group k)).gbKey o' =
      (c.reducedFresh suite before (.group k)).gbKey o := by
  rcases reduced_gbKey_cases (c := c) k before o' with hEq' | ⟨i', hEq'⟩
  · rcases reduced_gbKey_cases (c := c) k before o with hEq | ⟨i, hEq⟩
    · rw [hEq, hEq']
    · rw [hEq, hEq'] at hDesc
      have hGroup : GroupBefore k (.derive c.hgk .hgkDerive) := h.groupBefore_hgk hWF
      exact absurd hDesc hGroup.not_descends_fresh
  · rw [hEq'] at hDesc ⊢
    exact (hDesc.eq_of_depth_zero rfl).symm

theorem Sealed.reduced (hWF : c.WF suite) (h : Sealed k b.writes c) (hLo : c.dMin < before)
    (hBefore : before < c.dNext) (proof : P) :
    Sealed (k + 1) (b.afterReduce suite c before (.group k) proof).writes
      (c.reducedFresh suite before (.group k)) := by
  have hBase : ∀ o, GroupBefore (k + 1) ((c.reducedFresh suite before (.group k)).gbKey o) := by
    intro o
    rcases reduced_gbKey_cases (c := c) k before o with hEq | ⟨i, hEq⟩
    · rw [hEq]
      exact (h.groupBefore_hgk hWF).mono (Nat.le_succ k)
    · rw [hEq]
      exact groupBefore_group k i
  exact
    { keyForm := fun cell ct hMem => by
        rcases mem_writes_afterReduce hWF hLo hBefore hMem with hMem | ⟨o, tag, _, hTag, hKey, _⟩
        · obtain ⟨g, tag, hForm, hTag, hGroup⟩ := h.keyForm cell ct hMem
          exact ⟨g, tag, hForm, hTag, hGroup.mono (Nat.le_succ k)⟩
        · exact ⟨_, tag, hKey, hTag, hBase o⟩
      frontier := fun cell ct hMem g tag hForm o _ hDesc => by
        rcases mem_writes_afterReduce hWF hLo hBefore hMem with hMem | ⟨o', tag', _, _, hKey, _⟩
        · exact absurd hDesc (h.not_descends_reduced hWF hMem hForm before o)
        · rw [hForm] at hKey
          cases hKey
          exact h.eq_of_descends_reduced hWF hDesc
      opens := fun cell ct hMem o tag _ hKey => by
        rcases mem_writes_afterReduce hWF hLo hBefore hMem with hMem | ⟨_, _, _, _, _, hLive⟩
        · exact absurd .refl (h.not_descends_reduced hWF hMem hKey before o)
        · exact hLive
      gbBase := fun o _ => hBase o
      gbTag := fun o _ g tag hEq => by
        rcases reduced_gbKey_cases (c := c) k before o with hEq' | ⟨i, hEq'⟩
        · rw [hEq] at hEq'
          cases hEq'
          rfl
        · rw [hEq] at hEq'
          cases hEq'
      dBase := fun s hs => (h.dBase s hs).mono (Nat.le_succ k)
      order := h.order }

theorem Erased.reduced (h : Erased k c key) (hLo : c.dMin < before) (fresh : Nat → Key) :
    Erased (k + 1) (c.reducedFresh suite before fresh) key where
  base := h.base.mono (Nat.le_succ k)
  notDescends s hs := h.notDescends s ⟨Nat.le_trans (Nat.le_of_lt hLo) hs.1, hs.2⟩

/-- A reduce erases every key below its bound. -/
theorem Sealed.erased_reduced (h : Sealed k history c) {s : Nat} (hBefore : before < c.dNext)
    (hs : s < before) (fresh : Nat → Key) :
    Erased (k + 1) (c.reducedFresh suite before fresh) (c.dKey s) where
  base := (h.dBase s (by omega)).mono (Nat.le_succ k)
  notDescends s' hs' := h.order s s' (Nat.lt_of_lt_of_le hs hs'.1) hs'.2

/-- A creation draws a fresh first data key. -/
theorem Erased.new (h : Erased k c key) (hgk : Key) :
    Erased (k + 1) (Chain.initial hgk (.data k)) key where
  base := h.base.mono (Nat.le_succ k)
  notDescends _ _ := h.base.not_descends_fresh

end Steps

/-! ## Runs -/

/-- An operation without its randomness: draw `k` names the keys it draws. -/
inductive SymbolicOp where
  | new
  | extend (localHgk : Key)
  | rekey (localHgk : Key)
  | reduce (localHgk : Key) (before : Nat)

def SymbolicOp.draw (k : Nat) : SymbolicOp → RetentionOp Key
  | .new => .new (.group k 0) (.data k)
  | .extend localHgk => .extend localHgk
  | .rekey localHgk => .rekey localHgk (.group k 0) (.data k)
  | .reduce localHgk before => .reduce localHgk before (.group k)

/-- Operations in order, the first one performing draw `k`. -/
def drawAll (k : Nat) : List SymbolicOp → List (RetentionOp Key)
  | [] => []
  | op :: ops => op.draw k :: drawAll (k + 1) ops

/-- A space created in empty storage by draw zero. -/
def start : RunState Key Stored P :=
  RunState.new suite (.group 0 0) (.data 0) Builder.noop

variable {prover : RuntimeProver Key Commitment Ciphertext P}

/-- One operation keeps the history sealed and erased keys erased. -/
theorem step_sealed {k : Nat} {st st' : RunState Key Stored P} {c : Chain Key}
    (hSim : Simulates suite st c) (h : Sealed k st.store.writes c) {op : SymbolicOp}
    (hStep : st.step suite prover (op.draw k) = some st') :
    Sealed (k + 1) st'.store.writes (c.step suite (op.draw k)) ∧
      ∀ key, Erased k c key → Erased (k + 1) (c.step suite (op.draw k)) key := by
  obtain ⟨hWF, hRep, _⟩ := hSim
  cases op with
  | new =>
    cases hStep
    exact ⟨sealed_new h.keyForm, fun key hErased => hErased.new _⟩
  | extend localHgk =>
    simp only [SymbolicOp.draw, RunState.step, Option.bind_eq_some] at hStep
    obtain ⟨_, _, _, _, ⟨id, store⟩, hExtend, hRet⟩ := hStep
    cases hRet
    obtain ⟨_, _, proof, rfl⟩ := extend_eq suite_lawful hWF hRep hExtend
    exact ⟨h.extended hWF proof, fun key hErased => hErased.extended hWF⟩
  | rekey localHgk =>
    simp only [SymbolicOp.draw, RunState.step, Option.bind_eq_some] at hStep
    obtain ⟨⟨out, store⟩, hRekey, hRet⟩ := hStep
    cases hRet
    obtain ⟨_, _, _, proof, rfl⟩ := generateGroupKey_eq suite_lawful hWF hRep hRekey
    exact ⟨h.rekeyed hWF proof, fun key hErased => hErased.rekeyed⟩
  | reduce localHgk before =>
    simp only [SymbolicOp.draw, RunState.step, Option.bind_eq_some] at hStep
    obtain ⟨store, hReduce, hRet⟩ := hStep
    cases hRet
    obtain ⟨hLo, hHi, _, proof, rfl⟩ := reduce_eq suite_lawful hWF hRep hReduce
    exact ⟨h.reduced hWF hLo hHi proof, fun key hErased => hErased.reduced hLo _⟩

/-- A whole run keeps the history sealed and erased keys erased. -/
theorem run_sealed :
    ∀ (ops : List SymbolicOp) {k : Nat} {st st' : RunState Key Stored P} {c : Chain Key},
      Simulates suite st c → Sealed k st.store.writes c →
      st.runFrom suite prover (drawAll k ops) = some st' →
      ∃ c', Simulates suite st' c' ∧ Sealed (k + ops.length) st'.store.writes c' ∧
        ∀ key, Erased k c key → Erased (k + ops.length) c' key := by
  intro ops
  induction ops with
  | nil =>
    intro k st st' c hSim h hRun
    cases hRun
    exact ⟨c, hSim, h, fun _ hErased => hErased⟩
  | cons op ops ih =>
    intro k st st' c hSim h hRun
    simp only [drawAll, RunState.runFrom, List.foldlM_cons, Option.bind_eq_some] at hRun
    obtain ⟨mid, hStep, hRest⟩ := hRun
    obtain ⟨hSealed, hKeep⟩ := step_sealed hSim h hStep
    obtain ⟨c', hSim', hSealed', hKeep'⟩ :=
      ih (step_simulates suite_lawful hSim hStep) hSealed hRest
    have hLen : k + 1 + ops.length = k + (op :: ops).length := by
      rw [List.length_cons]
      omega
    rw [hLen] at hSealed' hKeep'
    exact ⟨c', hSim', hSealed', fun key hErased => hKeep' key (hKeep key hErased)⟩

theorem start_sealed : Sealed 1 (start (P := P)).store.writes
    (Chain.initial (.group 0 0) (.data 0)) :=
  sealed_new fun _ _ hMem => by cases hMem

/-- Once a reduce below `before` is accepted, no data key created for a
smaller sequence number is derivable from the head group key and every row
ever written, now or after any further operations. -/
theorem reduce_erases (prover : RuntimeProver Key Commitment Ciphertext P)
    (ops₁ ops₂ : List SymbolicOp) (localHgk : Key) (before : Nat)
    (st₁ st : RunState Key Stored P)
    (hRun₁ : start.runFrom suite prover (drawAll 1 ops₁) = some st₁)
    (hRun : st₁.runFrom suite prover
      (drawAll (1 + ops₁.length) (.reduce localHgk before :: ops₂)) = some st)
    (head : Key) (hHead : currentHgkCommitment suite st.store.get = some (suite.commit head))
    (s : Nat) (hs : s < before) (key : Key) (hKey : st₁.created[s]? = some key) :
    ¬ Derivable st.store.writes head key := by
  obtain ⟨c₁, hSim₁, hSealed₁, _⟩ :=
    run_sealed ops₁ (simulates_new suite_lawful _ _ _) start_sealed hRun₁
  simp only [drawAll, RunState.runFrom, List.foldlM_cons, Option.bind_eq_some] at hRun
  obtain ⟨mid, hStep, hRest⟩ := hRun
  have hSimMid := step_simulates suite_lawful hSim₁ hStep
  obtain ⟨hSealedMid, _⟩ := step_sealed hSim₁ hSealed₁ hStep
  -- the reduce itself erases the key
  have hErased : Erased (1 + ops₁.length + 1)
      (c₁.step suite (SymbolicOp.draw (1 + ops₁.length) (.reduce localHgk before))) key := by
    simp only [SymbolicOp.draw, RunState.step, Option.bind_eq_some] at hStep
    obtain ⟨store, hReduce, _⟩ := hStep
    obtain ⟨_, hHi, _⟩ := reduce_eq suite_lawful hSim₁.wf hSim₁.represents hReduce
    have hCreated : key = c₁.dKey s := by
      rw [hSim₁.created] at hKey
      simpa [show s < c₁.dNext by omega] using hKey.symm
    rw [hCreated]
    exact hSealed₁.erased_reduced hHi hs _
  obtain ⟨c, hSim, hSealed, hKeep⟩ := run_sealed ops₂ hSimMid hSealedMid hRest
  have hHeadEq : head = c.hgk := by
    rw [hSim.represents.hgkCommitment] at hHead
    exact suite_lawful.commit_injective (Option.some.inj hHead).symm
  rw [hHeadEq]
  exact hSealed.not_derivable_of_erased (liveKey_hgk hSim.wf) (hKeep key hErased)

/-- A run with every kind of operation: the first data key is created, a
second one derived, a third opened by a rekey, and the first one pruned. -/
theorem reduce_erases_first_key :
    ∃ st₁ st : RunState Key Stored (List UInt8),
      start.runFrom suite noProver
        (drawAll 1 [.extend (.group 0 0), .rekey (.group 0 0)]) = some st₁ ∧
      st₁.runFrom suite noProver
        (drawAll 3 [.reduce (.group 2 0) 1, .extend (.group 2 0)]) = some st ∧
      st₁.created[0]? = some (.data 0) ∧
      ¬ Derivable st.store.writes (.derive (.group 2 0) .hgkDerive) (.data 0) := by
  refine ⟨_, _, rfl, rfl, rfl, ?_⟩
  apply reduce_erases noProver [.extend (.group 0 0), .rekey (.group 0 0)]
    [.extend (.group 2 0)] (.group 2 0) 1
  · exact rfl
  · exact rfl
  · exact rfl
  · exact Nat.zero_lt_one
  · exact rfl

end EncryptedSpaces.Retention.Symbolic
