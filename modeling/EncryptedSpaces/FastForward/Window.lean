import EncryptedSpaces.FastForward.Sequence

/-!
# The window of recent roots

A change names the root of the log at its parent.  The verifier keeps the last
`MAX_PARENT_DISTANCE` roots with their change ids; this module relates that list
to the list of all roots of the log.
-/

namespace EncryptedSpaces.FastForward

open Encoding Changelog List

/-- Roots with their change ids. -/
def numbered (roots : List Digest) : List (Nat × Digest) := (List.range roots.length).zip roots

/-- The last ten roots. -/
def window (roots : List Digest) : List (Nat × Digest) :=
  (numbered roots).drop (roots.length - maxParentDistance)

theorem length_numbered (roots : List Digest) : (numbered roots).length = roots.length := by
  simp [numbered]

theorem numbered_append (roots : List Digest) (root : Digest) :
    numbered (roots ++ [root]) = numbered roots ++ [(roots.length, root)] := by
  unfold numbered
  rw [length_append, length_singleton, range_succ,
    zip_append (by rw [length_range])]
  rfl

theorem getElem?_numbered (roots : List Digest) (i : Nat) :
    (numbered roots)[i]? = roots[i]?.map fun root => (i, root) := by
  unfold numbered
  by_cases hi : i < roots.length
  · simp [hi]
  · simp [hi]

/-- Pushing the next root moves the window. -/
theorem pushRoot_window (roots : List Digest) (root : Digest) :
    pushRoot (window roots) roots.length root = window (roots ++ [root]) := by
  unfold pushRoot window maxParentDistance
  dsimp only
  rw [numbered_append, length_append, length_append, length_singleton,
    length_singleton, length_drop, length_numbered]
  by_cases hShort : roots.length < 10
  · have hStart : roots.length - 10 = 0 := by omega
    have hPushed : roots.length - 0 + 1 - 10 = 0 := by omega
    have hNext : roots.length + 1 - 10 = 0 := by omega
    rw [hStart, hPushed, hNext, drop_zero, drop_zero, drop_zero]
  · have hPushed : roots.length - (roots.length - 10) + 1 - 10 = 1 := by omega
    have hDrop : 1 ≤ ((numbered roots).drop (roots.length - 10)).length := by
      rw [length_drop, length_numbered]
      omega
    have hNext : roots.length + 1 - 10 ≤ (numbered roots).length := by
      rw [length_numbered]
      omega
    rw [hPushed, drop_append_of_le_length hDrop, drop_append_of_le_length hNext,
      drop_drop]
    congr 2
    omega

variable {roots : List Digest} {root : Digest} {parent : Nat}

theorem getLast?_window (h : roots.getLast? = some root) :
    (window roots).getLast? = some (roots.length - 1, root) := by
  have hPos : 0 < roots.length := by
    apply length_pos_of_ne_nil
    rintro rfl
    cases h
  rw [getLast?_eq_getElem?] at h ⊢
  unfold window
  rw [length_drop, length_numbered, getElem?_drop, getElem?_numbered]
  have hIndex : roots.length - maxParentDistance +
      (roots.length - (roots.length - maxParentDistance) - 1) = roots.length - 1 := by
    unfold maxParentDistance
    omega
  rw [hIndex, h]
  rfl

theorem mem_window_iff : (parent, root) ∈ window roots ↔
    roots[parent]? = some root ∧ roots.length ≤ parent + maxParentDistance := by
  unfold window
  rw [mem_iff_getElem?]
  simp only [getElem?_drop, getElem?_numbered, Option.map_eq_some_iff, Prod.mk.injEq]
  constructor
  · rintro ⟨i, root', hRoot, rfl, rfl⟩
    exact ⟨hRoot, by omega⟩
  · rintro ⟨hRoot, hNear⟩
    refine ⟨parent - (roots.length - maxParentDistance), root, ?_⟩
    have hIndex : roots.length - maxParentDistance + (parent - (roots.length - maxParentDistance)) =
        parent := by omega
    rw [hIndex]
    exact ⟨hRoot, rfl, rfl⟩

/-- The window records the root of each change once. -/
theorem find?_window (hRoot : roots[parent]? = some root)
    (hNear : roots.length ≤ parent + maxParentDistance) :
    (window roots).find? (fun (changeId, _) => changeId = parent) = some (parent, root) := by
  cases hFind : (window roots).find? (fun (changeId, _) => changeId = parent) with
  | none =>
    rw [find?_eq_none] at hFind
    exact absurd (decide_eq_true rfl) (hFind _ (mem_window_iff.mpr ⟨hRoot, hNear⟩))
  | some entry =>
    obtain ⟨changeId, root'⟩ := entry
    have hId : changeId = parent := by simpa using find?_some hFind
    have hSame := (mem_window_iff.mp (mem_of_find?_eq_some hFind)).1
    rw [hId, hRoot, Option.some.injEq] at hSame
    rw [hId, hSame]

/-- A parent among the last ten changes is checked against its own root. -/
theorem validateParentClc_window_iff {clc : Digest} (hParent : parent < roots.length)
    (hNear : roots.length ≤ parent + maxParentDistance) :
    validateParentClc parent clc (window roots) = true ↔ roots[parent]? = some clc := by
  have hRoot : roots[parent]? = some roots[parent] := getElem?_eq_getElem hParent
  unfold validateParentClc
  rw [find?_window hRoot hNear, hRoot, Option.some.injEq]
  exact decide_eq_true_iff

end EncryptedSpaces.FastForward
