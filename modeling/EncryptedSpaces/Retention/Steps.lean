import EncryptedSpaces.Retention.LiveChain

/-!
# How an operation moves the chain

Each operation has an abstract effect on the layout and on the chain, and a
set of cells it may write.  A store that changes only in those cells, and
holds the rows the operation is supposed to write, follows the new layout
(`LaysOut.extended`, `LaysOut.rekeyed`, `LaysOut.reduced`) and, when the rows
open to the right keys, represents the new chain (`Represents.extended` and so
on).  Nothing here depends on who wrote the rows: the operations themselves and
the rows a verifier accepts both go through these lemmas.
-/

namespace EncryptedSpaces.Retention

open Lib Crypto

/-! ## Layout steps -/

namespace Layout

@[simps] def initial : Layout :=
  { dMin := 0, dNext := 1, fgkNext := 1, dgkNext := 0, start := fun _ => 0 }

/-- One more number in the newest segment. -/
@[simps] def extended (l : Layout) : Layout := { l with dNext := l.dNext + 1 }

/-- A new segment. -/
@[simps] def rekeyed (l : Layout) : Layout :=
  { dMin := l.dMin, dNext := l.dNext + 1, fgkNext := l.fgkNext + 1, dgkNext := 0
    start := Function.update l.start l.fgkNext l.dNext }

/-- Numbers below `before` are dropped. -/
@[simps] def reduced (l : Layout) (before : Nat) : Layout :=
  { l with dMin := before, dgkNext := l.dgkNext + 1 }

theorem initial_wf : initial.WF where
  fgkNext_pos := by simp
  start_le := Nat.le_refl _
  increasing o ho := by
    obtain rfl : o = 0 := by simpa using ho
    simp [bound]
  dMin_lt := by simp
  dNext_lt := by simp

variable {l : Layout} {o : Nat}

theorem bound_extended_of_lt (h : o < l.fgkNext) :
    l.extended.bound o = l.bound o := by
  simp [bound, h]

/-- The upper end of a segment grows by one for the newest and stays put for
every other. -/
theorem bound_extended_succ (h : o < l.fgkNext) :
    (o + 1 = l.fgkNext ∧ l.extended.bound (o + 1) = l.bound (o + 1) + 1 ∧
        l.bound (o + 1) = l.dNext) ∨
      (o + 1 < l.fgkNext ∧ l.extended.bound (o + 1) = l.bound (o + 1)) := by
  rcases Nat.lt_or_ge (o + 1) l.fgkNext with hlt | hge
  · exact .inr ⟨hlt, bound_extended_of_lt hlt⟩
  · have hEq : o + 1 = l.fgkNext := by omega
    exact .inl ⟨hEq, by simp [hEq, bound],
      by rw [hEq, bound_fgkNext]⟩

theorem WF.extended (h : l.WF) (hOverflow : l.dNext + 1 < 2 ^ 64) :
    l.extended.WF where
  fgkNext_pos := h.fgkNext_pos
  start_le := h.start_le
  increasing o ho := by
    have ho' : o < l.fgkNext := ho
    have hOld := h.increasing o ho'
    rw [bound_extended_of_lt ho']
    rcases bound_extended_succ ho' with ⟨_, hTop, _⟩ | ⟨_, hSame⟩ <;> omega
  dMin_lt := Nat.lt_succ_of_lt h.dMin_lt
  dNext_lt := hOverflow

/-- Extending makes no dead segment live. -/
theorem WF.live_of_extended (h : l.WF) (ho : o < l.fgkNext)
    (hLive : l.dMin < l.extended.bound (o + 1)) : l.dMin < l.bound (o + 1) := by
  have hMin := h.dMin_lt
  rcases bound_extended_succ ho with ⟨_, _, hEnd⟩ | ⟨_, hSame⟩ <;> omega

theorem bound_rekeyed_of_le (h : o ≤ l.fgkNext) :
    l.rekeyed.bound o = l.bound o := by
  rcases Nat.lt_or_ge o l.fgkNext with hlt | hge
  · have hNe : o ≠ l.fgkNext := by omega
    simp [bound, hlt, hNe, show o < l.fgkNext + 1 by omega]
  · have hEq : o = l.fgkNext := by omega
    subst hEq
    simp [bound]

theorem bound_rekeyed_top (l : Layout) : l.rekeyed.bound (l.fgkNext + 1) = l.dNext + 1 := by
  simp [bound]

theorem WF.rekeyed (h : l.WF) (hOverflow : l.dNext + 1 < 2 ^ 64) :
    l.rekeyed.WF where
  fgkNext_pos := Nat.succ_pos _
  start_le := by
    rw [rekeyed_start, Function.update_of_ne (Nat.ne_of_lt h.fgkNext_pos)]
    exact h.start_le
  increasing o ho := by
    have ho' : o ≤ l.fgkNext := Nat.lt_succ_iff.mp ho
    rw [bound_rekeyed_of_le ho']
    rcases Nat.lt_or_ge o l.fgkNext with hlt | hge
    · rw [bound_rekeyed_of_le (show o + 1 ≤ l.fgkNext from hlt)]
      exact h.increasing o hlt
    · have hEq : o = l.fgkNext := by omega
      subst hEq
      rw [bound_rekeyed_top, bound_fgkNext]
      omega
  dMin_lt := Nat.lt_succ_of_lt h.dMin_lt
  dNext_lt := hOverflow

@[simp] theorem bound_reduced (l : Layout) (before o : Nat) :
    (l.reduced before).bound o = l.bound o := rfl

theorem WF.reduced (h : l.WF) {before : Nat} (hLo : l.dMin < before) (hHi : before < l.dNext) :
    (l.reduced before).WF where
  fgkNext_pos := h.fgkNext_pos
  start_le := Nat.le_trans h.start_le (Nat.le_of_lt hLo)
  increasing := h.increasing
  dMin_lt := hHi
  dNext_lt := h.dNext_lt

/-! ## The cells an operation writes -/

end Layout

/-- The next D row and its counter. -/
def extendCells (dNext : Nat) : Cell → Prop
  | .dNext => True
  | .dCommitment seq => seq = dNext
  | _ => False

/-- The rows of a new segment, and the counters. -/
def rekeyCells (fgkNext dNext : Nat) : Cell → Prop
  | .fgkNext | .dgkNext | .dNext => True
  | .fgkDStart o | .fgkCommitment o | .gbctDHead o | .gbctLink o => o = fgkNext
  | .dCommitment seq => seq = dNext
  | _ => False

/-- The next DGK row, the ciphertext rows, and the counters. -/
def reduceCells (dgkNext : Nat) : Cell → Prop
  | .dMin | .dgkNext => True
  | .dgkCommitment o => o = dgkNext
  | .gbctDHead _ | .gbctLink _ => True
  | _ => False

/-- Two readers agree on every cell outside `cells`. -/
def SameOutside {V : Type} (cells : Cell → Prop) (r r' : Reader V) : Prop :=
  ∀ cell, ¬ cells cell → r' cell.key = r cell.key

namespace SameOutside

variable {K C E V : Type} {cells : Cell → Prop} {r r' : Reader V}

section

variable (h : SameOutside cells r r')
include h

theorem loadU64 (S : KeySuite K C E V) {cell : Cell} (hc : ¬ cells cell) :
    loadU64Required S r' cell.key = loadU64Required S r cell.key := by
  simp only [loadU64Required, h _ hc]

theorem loadFgkRow (S : KeySuite K C E V) {o : Nat}
    (hc : ¬ cells (.fgkDStart o)) (hc' : ¬ cells (.fgkCommitment o)) :
    loadFgkRow S r' o = loadFgkRow S r o := by
  simp only [Retention.loadFgkRow, h.loadU64 S hc, loadCommitment, h _ hc']

theorem loadDgkRow (S : KeySuite K C E V) {o : Nat}
    (hc : ¬ cells (.dgkCommitment o)) : loadDgkRow S r' o = loadDgkRow S r o := by
  simp only [Retention.loadDgkRow, loadCommitment, h _ hc]

theorem currentHgkCommitment (S : KeySuite K C E V)
    (hDgkNext : ¬ cells .dgkNext) (hFgkNext : ¬ cells .fgkNext)
    (hDgk : ∀ o, ¬ cells (.dgkCommitment o)) (hStart : ∀ o, ¬ cells (.fgkDStart o))
    (hFgk : ∀ o, ¬ cells (.fgkCommitment o)) :
    currentHgkCommitment S r' = currentHgkCommitment S r := by
  simp only [Retention.currentHgkCommitment, loadDgkNext, loadFgkNext, h.loadU64 S hDgkNext,
    h.loadU64 S hFgkNext, h.loadDgkRow S (hDgk _), h.loadFgkRow S (hStart _) (hFgk _)]

theorem loadDRow (S : KeySuite K C E V) {s : Nat}
    (hc : ¬ cells (.dCommitment s)) : loadDRow S r' s = loadDRow S r s := by
  simp only [Retention.loadDRow, loadCommitment, h _ hc]

theorem loadGbctDHead (S : KeySuite K C E V) {o : Nat}
    (hc : ¬ cells (.gbctDHead o)) : loadGbctDHead S r' o = loadGbctDHead S r o := by
  simp only [Retention.loadGbctDHead, loadCiphertext, h _ hc]

theorem loadLink (S : KeySuite K C E V) {o : Nat} (hc : ¬ cells (.gbctLink o)) :
    loadOptionalCiphertext S r' (Cell.gbctLink o).key =
      loadOptionalCiphertext S r (Cell.gbctLink o).key := by
  simp only [loadOptionalCiphertext, h _ hc]

end

end SameOutside

section LaysOut

variable {K C E V : Type} {S : KeySuite K C E V} {r r' : Reader V} {l : Layout}

theorem LaysOut.extended (hLay : LaysOut S r l) (hWF : l.WF)
    (hSame : SameOutside (extendCells l.dNext) r r') (hNext : loadDNext S r' = some (l.dNext + 1))
    (hRow : ∃ row, loadDRow S r' l.dNext = some row) : LaysOut S r' l.extended where
  fgkNext := (hSame.loadU64 S id).trans hLay.fgkNext
  dgkNext := (hSame.loadU64 S id).trans hLay.dgkNext
  dMin := (hSame.loadU64 S id).trans hLay.dMin
  dNext := hNext
  fgkRow o ho := by
    rw [hSame.loadFgkRow S id id]
    exact hLay.fgkRow o ho
  dgkRow o ho := by
    rw [hSame.loadDgkRow S id]
    exact hLay.dgkRow o ho
  dRow s hs hs' := by
    by_cases hNew : s = l.dNext
    · exact hNew ▸ hRow
    · rw [hSame.loadDRow S hNew]
      exact hLay.dRow s hs (by rw [Layout.extended_dNext] at hs'; omega)
  dHead o ho hLive := by
    rw [hSame.loadGbctDHead S id]
    exact hLay.dHead o ho (hWF.live_of_extended ho hLive)
  link o ho hLive := by
    rw [hSame.loadLink S id]
    exact hLay.link o ho (hWF.live_of_extended (Nat.lt_of_succ_lt ho) hLive)

theorem LaysOut.rekeyed (hLay : LaysOut S r l)
    (hSame : SameOutside (rekeyCells l.fgkNext l.dNext) r r')
    (hFgkNext : loadFgkNext S r' = some (l.fgkNext + 1)) (hDgkNext : loadDgkNext S r' = some 0)
    (hDNext : loadDNext S r' = some (l.dNext + 1))
    (hFgkRow : ∃ commitment, loadFgkRow S r' l.fgkNext = some { dStart := l.dNext, commitment })
    (hDRow : ∃ row, loadDRow S r' l.dNext = some row)
    (hHead : ∃ ct, loadGbctDHead S r' l.fgkNext = some ct)
    (hLink : ∃ ct, loadOptionalCiphertext S r' (Cell.gbctLink l.fgkNext).key = some (some ct)) :
    LaysOut S r' l.rekeyed where
  fgkNext := hFgkNext
  dgkNext := hDgkNext
  dMin := (hSame.loadU64 S id).trans hLay.dMin
  dNext := hDNext
  fgkRow o ho := by
    rw [Layout.rekeyed_start]
    by_cases hNew : o = l.fgkNext
    · subst hNew
      rw [Function.update_self]
      exact hFgkRow
    · rw [Function.update_of_ne hNew, hSame.loadFgkRow S hNew hNew]
      exact hLay.fgkRow o (by rw [Layout.rekeyed_fgkNext] at ho; omega)
  dgkRow o ho := absurd ho (Nat.not_lt_zero o)
  dRow s hs hs' := by
    by_cases hNew : s = l.dNext
    · exact hNew ▸ hDRow
    · rw [hSame.loadDRow S hNew]
      exact hLay.dRow s hs (by rw [Layout.rekeyed_dNext] at hs'; omega)
  dHead o ho hLive := by
    by_cases hNew : o = l.fgkNext
    · exact hNew ▸ hHead
    · have ho' : o + 1 ≤ l.fgkNext := by rw [Layout.rekeyed_fgkNext] at ho; omega
      rw [Layout.bound_rekeyed_of_le ho'] at hLive
      rw [hSame.loadGbctDHead S hNew]
      exact hLay.dHead o ho' hLive
  link o ho hLive := by
    rw [Layout.rekeyed_fgkNext] at ho
    rw [Layout.bound_rekeyed_of_le (show o + 1 ≤ l.fgkNext by omega)] at hLive
    by_cases hNew : o + 1 = l.fgkNext
    · exact hNew ▸ hLink
    · rw [hSame.loadLink S hNew]
      exact hLay.link o (by omega) hLive

theorem LaysOut.reduced (hLay : LaysOut S r l) {before : Nat} (hLo : l.dMin < before)
    (hSame : SameOutside (reduceCells l.dgkNext) r r') (hDMin : loadDMin S r' = some before)
    (hDgkNext : loadDgkNext S r' = some (l.dgkNext + 1))
    (hDgkRow : ∃ row, loadDgkRow S r' l.dgkNext = some row)
    (hHead : ∀ o, o < l.fgkNext → before < l.bound (o + 1) →
      ∃ ct, loadGbctDHead S r' o = some ct)
    (hLink : ∀ o, o + 1 < l.fgkNext → before < l.bound (o + 1) →
      ∃ ct, loadOptionalCiphertext S r' (Cell.gbctLink (o + 1)).key = some (some ct)) :
    LaysOut S r' (l.reduced before) where
  fgkNext := (hSame.loadU64 S id).trans hLay.fgkNext
  dgkNext := hDgkNext
  dMin := hDMin
  dNext := (hSame.loadU64 S id).trans hLay.dNext
  fgkRow o ho := by
    rw [hSame.loadFgkRow S id id]
    exact hLay.fgkRow o ho
  dgkRow o ho := by
    by_cases hNew : o = l.dgkNext
    · exact hNew ▸ hDgkRow
    · rw [hSame.loadDgkRow S hNew]
      exact hLay.dgkRow o (by rw [Layout.reduced_dgkNext] at ho; omega)
  dRow s hs hs' := by
    rw [hSame.loadDRow S id]
    exact hLay.dRow s (Nat.le_trans (Nat.le_of_lt hLo) hs) hs'
  dHead := hHead
  link := hLink

end LaysOut

/-! ## Chain steps -/

namespace Chain

variable {K C E V : Type}

/-- The chain written by `SpaceKey.new`. -/
@[simps toLayout hgk dKey gbKey] def initial (hgk d0 : K) : Chain K :=
  { Layout.initial with hgk, dKey := fun _ => d0, gbKey := fun _ => hgk }

/-- One more key derived in the newest segment. -/
@[simps toLayout hgk dKey gbKey] def extended (S : KeySuite K C E V) (c : Chain K) : Chain K :=
  { c.toLayout.extended with
    hgk := c.hgk
    dKey := Function.update c.dKey c.dNext (S.derive (c.dKey (c.dNext - 1)) .dDerive)
    gbKey := c.gbKey }

/-- A new segment under a fresh group key. -/
@[simps toLayout hgk dKey gbKey] def rekeyed (c : Chain K) (newGroupKey newDHead : K) : Chain K :=
  { c.toLayout.rekeyed with
    hgk := newGroupKey
    dKey := Function.update c.dKey c.dNext newDHead
    gbKey := Function.update c.gbKey c.fgkNext newGroupKey }

/-- Keys below `before` are dropped; the surviving segments get new keys. -/
@[simps toLayout hgk dKey gbKey] def reduced (c : Chain K) (before : Nat) (newHgk : K)
    (newGbKey : Nat → K) : Chain K :=
  { c.toLayout.reduced before with
    hgk := newHgk
    dKey := c.dKey
    gbKey := newGbKey }

variable {S : KeySuite K C E V} {c : Chain K}

theorem initial_wf (S : KeySuite K C E V) (hgk d0 : K) : (initial hgk d0).WF S where
  layout := Layout.initial_wf
  derive_step o ho s hs hs' := by
    obtain rfl : o = 0 := by simpa using ho
    simp [Layout.bound] at hs'
  head := rfl

/-- Extending keeps the chain well formed. -/
theorem WF.extended (h : c.WF S) (hOverflow : c.dNext + 1 < 2 ^ 64) : (c.extended S).WF S where
  layout := h.layout.extended hOverflow
  derive_step o ho s hs hs' := by
    have ho' : o < c.fgkNext := ho
    have hLe := h.increasing.bound_mono (show o + 1 ≤ c.fgkNext from ho') (Nat.le_refl _)
    rw [Layout.bound_fgkNext] at hLe
    rw [extended_toLayout, Layout.bound_extended_of_lt ho', Layout.extended_dMin] at hs
    rw [extended_toLayout] at hs'
    rw [extended_dKey, extended_dKey]
    by_cases hNew : s + 1 = c.dNext
    · -- the step into the new key is the derivation that created it
      have hPrev : s = c.dNext - 1 := by omega
      rw [hNew, Function.update_self, Function.update_of_ne (by omega), hPrev]
    · have hHi : s + 1 < c.bound (o + 1) := by
        rcases Layout.bound_extended_succ ho' with ⟨_, hTop, hEnd⟩ | ⟨_, hSame⟩ <;> omega
      rw [Function.update_of_ne hNew, Function.update_of_ne (by omega),
        h.derive_step o ho' s hs hHi]
  head := h.head

/-- Rekeying keeps the chain well formed. -/
theorem WF.rekeyed (h : c.WF S) (newGroupKey newDHead : K) (hOverflow : c.dNext + 1 < 2 ^ 64) :
    (c.rekeyed newGroupKey newDHead).WF S where
  layout := h.layout.rekeyed hOverflow
  derive_step o ho s hs hs' := by
    have ho' : o ≤ c.fgkNext := Nat.lt_succ_iff.mp ho
    rw [rekeyed_toLayout, Layout.bound_rekeyed_of_le ho', Layout.rekeyed_dMin] at hs
    rw [rekeyed_toLayout] at hs'
    rcases Nat.lt_or_ge o c.fgkNext with hlt | hge
    · rw [Layout.bound_rekeyed_of_le (show o + 1 ≤ c.fgkNext from hlt)] at hs'
      have hLe := h.increasing.bound_mono (show o + 1 ≤ c.fgkNext from hlt) (Nat.le_refl _)
      rw [Layout.bound_fgkNext] at hLe
      rw [rekeyed_dKey, rekeyed_dKey, Function.update_of_ne (by omega),
        Function.update_of_ne (by omega), h.derive_step o hlt s hs hs']
    · -- the new segment holds a single key
      have hEq : o = c.fgkNext := by omega
      subst hEq
      rw [Layout.bound_rekeyed_top] at hs'
      rw [Layout.bound_fgkNext] at hs
      omega
  head := by simp

/-- Reducing keeps the chain well formed. -/
theorem WF.reduced (h : c.WF S) {before : Nat} (hLo : c.dMin < before)
    (hHi : before < c.dNext) {newHgk : K} {newGbKey : Nat → K}
    (hHead : newGbKey (c.fgkNext - 1) = newHgk) : (c.reduced before newHgk newGbKey).WF S where
  layout := h.layout.reduced hLo hHi
  derive_step o ho s hs hs' := by
    rw [reduced_toLayout, Layout.reduced_dMin, Layout.bound_reduced] at hs
    exact h.derive_step o ho s (by omega) hs'
  head := hHead

end Chain

section Represents

variable {K C E V : Type} {S : KeySuite K C E V} {r r' : Reader V} {c : Chain K}

theorem Represents.extended (hRep : Represents S r c) (hWF : c.WF S)
    (hSame : SameOutside (extendCells c.dNext) r r') (hNext : loadDNext S r' = some (c.dNext + 1))
    (hRow : loadDRow S r' c.dNext = some
      { seq := c.dNext, commitment := S.commit (S.derive (c.dKey (c.dNext - 1)) .dDerive) }) :
    Represents S r' (c.extended S) where
  layout := hRep.layout.extended hWF.layout hSame hNext ⟨_, hRow⟩
  hgkCommitment :=
    (hSame.currentHgkCommitment S id id (fun _ => id) (fun _ => id) (fun _ => id)).trans
      hRep.hgkCommitment
  dRow s hs hs' := by
    rw [Chain.extended_dKey]
    by_cases hNew : s = c.dNext
    · subst hNew
      rw [Function.update_self, hRow]
    · rw [Function.update_of_ne hNew, hSame.loadDRow S hNew]
      have hs'' : s < c.dNext + 1 := hs'
      exact hRep.dRow s hs (by omega)
  dHead o ho hLive := by
    obtain ⟨ct, hLoad, hOpen⟩ := hRep.dHead o ho (hWF.layout.live_of_extended ho hLive)
    have hLt := hWF.layout.max_start_lt_dNext ho
    refine ⟨ct, (hSame.loadGbctDHead S id).trans hLoad, ?_⟩
    exact hOpen.trans (Function.update_of_ne (Nat.ne_of_lt hLt) _ _).symm
  link o ho hLive := by
    obtain ⟨ct, hLoad, hOpen⟩ :=
      hRep.link o ho (hWF.layout.live_of_extended (Nat.lt_of_succ_lt ho) hLive)
    exact ⟨ct, (hSame.loadLink S id).trans hLoad, hOpen⟩

theorem Represents.rekeyed (hRep : Represents S r c) (hWF : c.WF S) {newGroupKey newDHead : K}
    (hSame : SameOutside (rekeyCells c.fgkNext c.dNext) r r')
    (hFgkNext : loadFgkNext S r' = some (c.fgkNext + 1)) (hDgkNext : loadDgkNext S r' = some 0)
    (hDNext : loadDNext S r' = some (c.dNext + 1))
    (hFgkRow : loadFgkRow S r' c.fgkNext =
      some { dStart := c.dNext, commitment := S.commit newGroupKey })
    (hDRow : loadDRow S r' c.dNext = some { seq := c.dNext, commitment := S.commit newDHead })
    (hHead : ∃ ct, loadGbctDHead S r' c.fgkNext = some ct ∧
      S.decrypt ct (S.derive newGroupKey .dHeadEncrypt) = newDHead)
    (hLink : ∃ ct, loadOptionalCiphertext S r' (Cell.gbctLink c.fgkNext).key = some (some ct) ∧
      S.decrypt ct (S.derive newGroupKey .gbChainLink) = c.hgk) :
    Represents S r' (c.rekeyed newGroupKey newDHead) where
  layout := by
    obtain ⟨ctHead, hLoadHead, _⟩ := hHead
    obtain ⟨ctLink, hLoadLink, _⟩ := hLink
    exact hRep.layout.rekeyed hSame hFgkNext hDgkNext hDNext ⟨_, hFgkRow⟩ ⟨_, hDRow⟩
      ⟨_, hLoadHead⟩ ⟨_, hLoadLink⟩
  hgkCommitment := by
    simp [currentHgkCommitment, hDgkNext, hFgkNext, hFgkRow]
  dRow s hs hs' := by
    rw [Chain.rekeyed_dKey]
    by_cases hNew : s = c.dNext
    · subst hNew
      rw [Function.update_self, hDRow]
    · rw [Function.update_of_ne hNew, hSame.loadDRow S hNew]
      have hs'' : s < c.dNext + 1 := hs'
      exact hRep.dRow s hs (by omega)
  dHead o ho hLive := by
    have ho' : o < c.fgkNext + 1 := ho
    rw [Chain.rekeyed_gbKey, Chain.rekeyed_dKey, Chain.rekeyed_toLayout, Layout.rekeyed_start,
      Layout.rekeyed_dMin]
    by_cases hNew : o = c.fgkNext
    · subst hNew
      rw [Function.update_self, Function.update_self,
        Nat.max_eq_left (Nat.le_of_lt hWF.dMin_lt), Function.update_self]
      exact hHead
    · have hLive' : c.dMin < c.bound (o + 1) := by
        rw [← Layout.bound_rekeyed_of_le (show o + 1 ≤ c.fgkNext by omega)]
        exact hLive
      obtain ⟨ct, hLoad, hOpen⟩ := hRep.dHead o (by omega) hLive'
      have hLt := hWF.layout.max_start_lt_dNext (show o < c.fgkNext by omega)
      rw [Function.update_of_ne hNew, Function.update_of_ne hNew,
        Function.update_of_ne (Nat.ne_of_lt hLt), hSame.loadGbctDHead S hNew]
      exact ⟨ct, hLoad, hOpen⟩
  link o ho hLive := by
    have ho' : o + 1 < c.fgkNext + 1 := ho
    rw [Chain.rekeyed_gbKey, Chain.rekeyed_gbKey,
      Function.update_of_ne (show o ≠ c.fgkNext by omega)]
    by_cases hNew : o + 1 = c.fgkNext
    · -- the new segment links to the old head
      have hOld : c.gbKey o = c.hgk := by
        rw [← hWF.head, ← hNew, Nat.add_sub_cancel]
      rw [hNew, Function.update_self, hOld]
      exact hLink
    · have hLive' : c.dMin < c.bound (o + 1) := by
        rw [← Layout.bound_rekeyed_of_le (show o + 1 ≤ c.fgkNext by omega)]
        exact hLive
      rw [Function.update_of_ne hNew, hSame.loadLink S hNew]
      exact hRep.link o (by omega) hLive'

theorem Represents.reduced (hRep : Represents S r c) {before : Nat}
    (hLo : c.dMin < before) {newHgk : K} {newGbKey : Nat → K}
    (hSame : SameOutside (reduceCells c.dgkNext) r r') (hDMin : loadDMin S r' = some before)
    (hDgkNext : loadDgkNext S r' = some (c.dgkNext + 1))
    (hDgkRow : loadDgkRow S r' c.dgkNext = some { commitment := S.commit newHgk })
    (hHead : ∀ o, o < c.fgkNext → before < c.bound (o + 1) →
      ∃ ct, loadGbctDHead S r' o = some ct ∧
        S.decrypt ct (S.derive (newGbKey o) .dHeadEncrypt) = c.dKey (max (c.start o) before))
    (hLink : Linked S r' (c.toLayout.reduced before) newGbKey) :
    Represents S r' (c.reduced before newHgk newGbKey) where
  layout := by
    apply hRep.layout.reduced hLo hSame hDMin hDgkNext ⟨_, hDgkRow⟩
    · intro o ho hLive
      obtain ⟨ct, hLoad, _⟩ := hHead o ho hLive
      exact ⟨ct, hLoad⟩
    · intro o ho hLive
      obtain ⟨ct, hLoad, _⟩ := hLink o ho hLive
      exact ⟨ct, hLoad⟩
  hgkCommitment := by
    simp [currentHgkCommitment, hDgkNext, hDgkRow]
  dRow s hs hs' := by
    rw [hSame.loadDRow S id]
    exact hRep.dRow s (Nat.le_trans (Nat.le_of_lt hLo) hs) hs'
  dHead := hHead
  link := hLink

end Represents

end EncryptedSpaces.Retention
