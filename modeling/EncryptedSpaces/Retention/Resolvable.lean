import EncryptedSpaces.Retention.LiveChain

/-!
# A resolvable store represents a chain

A store need not come from honest operations to be usable.  If it follows a
layout and a member holding its current group key resolves every live number,
then the keys the member finds form a chain and the store represents it
(`exists_represents`).  This is how statements about arbitrary stores reach
the chain lemmas.
-/

namespace EncryptedSpaces.Retention

open Lib Crypto

variable {K C E V : Type} {S : KeySuite K C E V} {r : Reader V} {l : Layout}

/-- The group key found `k` links below the head. -/
def gbKeyBelow (S : KeySuite K C E V) (r : Reader V) (l : Layout) (head : K) : Nat → K
  | 0 => head
  | k + 1 =>
    match loadOptionalCiphertext S r (Cell.gbctLink (l.fgkNext - 1 - k)).key with
    | some (some ct) => S.decrypt ct (S.derive (gbKeyBelow S r l head k) .gbChainLink)
    | _ => gbKeyBelow S r l head k

/-- The group key found for a segment. -/
def foundGbKey (S : KeySuite K C E V) (r : Reader V) (l : Layout) (head : K) (o : Nat) : K :=
  gbKeyBelow S r l head (l.fgkNext - 1 - o)

theorem linked_foundGbKey (hLay : LaysOut S r l) (head : K) :
    Linked S r l (foundGbKey S r l head) := by
  intro o ho hLive
  obtain ⟨ct, hLink⟩ := hLay.link o ho hLive
  refine ⟨ct, hLink, ?_⟩
  have hDist : l.fgkNext - 1 - o = (l.fgkNext - 1 - (o + 1)) + 1 := by omega
  have hOrd : l.fgkNext - 1 - (l.fgkNext - 1 - (o + 1)) = o + 1 := by omega
  rw [foundGbKey, foundGbKey, hDist, gbKeyBelow, hOrd, hLink]

/-- A live number lies in one segment only. -/
theorem Layout.Increasing.segment_unique (h : l.Increasing) {o o' s : Nat} (ho : o < l.fgkNext)
    (ho' : o' < l.fgkNext) (hs : l.bound o ≤ s ∧ s < l.bound (o + 1))
    (hs' : l.bound o' ≤ s ∧ s < l.bound (o' + 1)) : o = o' := by
  rcases Nat.lt_trichotomy o o' with hlt | rfl | hgt
  · have := h.bound_mono (show o + 1 ≤ o' from hlt) (Nat.le_of_lt ho')
    omega
  · rfl
  · have := h.bound_mono (show o' + 1 ≤ o from hgt) (Nat.le_of_lt ho)
    omega

theorem seq_of_loadDRow {s : Nat} {row : DTableRow C} (h : loadDRow S r s = some row) :
    row = { seq := s, commitment := row.commitment } := by
  simp only [loadDRow, Option.bind_eq_some] at h
  obtain ⟨commitment, _, hRet⟩ := h
  cases hRet
  rfl

variable [DecidableEq C]

/-- What a successful resolution says about the rows it read. -/
theorem of_resolveDKey_eq_some (hWF : l.WF) (hLay : LaysOut S r l) {head : K}
    (hHead : resolveCurrentHgk S head r = some head) {s : Nat} (hLo : l.dMin ≤ s)
    (hHi : s < l.dNext) {key : K} (hKey : resolveDKey S head s r = some key) :
    loadDRow S r s = some { seq := s, commitment := S.commit key } ∧
      ∀ o, o < l.fgkNext → l.bound o ≤ s → s < l.bound (o + 1) →
        ∃ ct, loadGbctDHead S r o = some ct ∧
          key = S.deriveN .dDerive (s - max (l.bound o) l.dMin)
            (S.decrypt ct (S.derive (foundGbKey S r l head o) .dHeadEncrypt)) := by
  have hLocal : resolveCurrentHgk S head r =
      some (foundGbKey S r l head (l.fgkNext - 1)) := by
    rw [hHead, foundGbKey, Nat.sub_self, gbKeyBelow]
  obtain ⟨ord, ct, row, hOrd, hLoOrd, hHiOrd, hLoad, hRow, hResolve⟩ :=
    resolveDKey_linked hWF hLay (linked_foundGbKey hLay head) hLocal hLo hHi
  rw [hKey] at hResolve
  split at hResolve
  · next hCommit =>
      rw [Option.some.injEq] at hResolve
      refine ⟨?_, ?_⟩
      · rw [hRow, seq_of_loadDRow hRow, hResolve, hCommit]
      · intro o ho hLoO hHiO
        obtain rfl := hWF.increasing.segment_unique ho hOrd ⟨hLoO, hHiO⟩ ⟨hLoOrd, hHiOrd⟩
        exact ⟨ct, hLoad, hResolve⟩
  · cases hResolve

/-- A store in which the holder of the current group key resolves every live
number represents the chain of the keys so found. -/
theorem exists_represents (hWF : l.WF) (hLay : LaysOut S r l) {head : K}
    (hCommit : currentHgkCommitment S r = some (S.commit head))
    (hResolves : ∀ s, l.dMin ≤ s → s < l.dNext → ∃ key, resolveDKey S head s r = some key) :
    ∃ c : Chain K, c.toLayout = l ∧ c.hgk = head ∧ c.WF S ∧ Represents S r c := by
  have hHead : resolveCurrentHgk S head r = some head := by
    simp [resolveCurrentHgk, hCommit]
  let dKey : Nat → K := fun s => (resolveDKey S head s r).getD head
  have hFound : ∀ s, l.dMin ≤ s → s < l.dNext →
      loadDRow S r s = some { seq := s, commitment := S.commit (dKey s) } ∧
        ∀ o, o < l.fgkNext → l.bound o ≤ s → s < l.bound (o + 1) →
          ∃ ct, loadGbctDHead S r o = some ct ∧
            dKey s = S.deriveN .dDerive (s - max (l.bound o) l.dMin)
              (S.decrypt ct (S.derive (foundGbKey S r l head o) .dHeadEncrypt)) := by
    intro s hLo hHi
    obtain ⟨key, hKey⟩ := hResolves s hLo hHi
    have hEq : dKey s = key := by simp only [dKey, hKey, Option.getD_some]
    rw [hEq]
    exact of_resolveDKey_eq_some hWF hLay hHead hLo hHi hKey
  refine ⟨{ l with hgk := head, dKey, gbKey := foundGbKey S r l head }, rfl, rfl, ?_, ?_⟩
  · refine ⟨hWF, ?_, ?_⟩
    · -- two consecutive numbers of a segment are derived from the same head
      intro o ho s hs hs'
      have hEnd := hWF.increasing.bound_mono (show o + 1 ≤ l.fgkNext from ho) (Nat.le_refl _)
      rw [Layout.bound_fgkNext] at hEnd
      have hs₁ : max (l.bound o) l.dMin ≤ s := hs
      have hs₂ : s + 1 < l.bound (o + 1) := hs'
      obtain ⟨ct, hLoad, hKey⟩ :=
        (hFound s (by omega) (by omega)).2 o ho (by omega) (by omega)
      obtain ⟨ct', hLoad', hKey'⟩ :=
        (hFound (s + 1) (by omega) (by omega)).2 o ho (by omega) (by omega)
      rw [hLoad] at hLoad'
      cases hLoad'
      show dKey (s + 1) = S.derive (dKey s) .dDerive
      rw [hKey, hKey', ← KeySuite.deriveN_succ]
      congr 1
      omega
    · show foundGbKey S r l head (l.fgkNext - 1) = head
      rw [foundGbKey, Nat.sub_self, gbKeyBelow]
  · refine ⟨hLay, hCommit, fun s hs hs' => (hFound s hs hs').1, ?_, linked_foundGbKey hLay head⟩
    intro o ho hLive
    have hStart : l.bound o = l.start o := Layout.bound_of_lt ho
    have hNonempty := hWF.increasing o ho
    have hLive' : l.dMin < l.bound (o + 1) := hLive
    have hLt := hWF.max_start_lt_dNext ho
    obtain ⟨ct, hLoad, hKey⟩ :=
      (hFound (max (l.start o) l.dMin) (by omega) hLt).2 o ho (by omega) (by omega)
    refine ⟨ct, hLoad, ?_⟩
    show _ = dKey (max (l.start o) l.dMin)
    rw [hKey, hStart, Nat.sub_self]
    rfl

end EncryptedSpaces.Retention
