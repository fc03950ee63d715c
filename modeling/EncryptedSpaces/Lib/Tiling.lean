import Mathlib.Data.List.Basic
import Mathlib.Order.Lattice

/-!
# Ranges without gaps

A list of closed integer ranges tiles from a start when the first range begins
there, no range is empty and each begins right after the one before.
-/

namespace EncryptedSpaces.Lib

def Tiles : Int → List (Int × Int) → Prop
  | _, [] => True
  | start, range :: rest => range.1 = start ∧ range.1 ≤ range.2 ∧ Tiles (range.2 + 1) rest

/-- Where the next range has to begin. -/
def tilesEnd : Int → List (Int × Int) → Int
  | start, [] => start
  | _, range :: rest => tilesEnd (range.2 + 1) rest

section Tiles

variable {start : Int} {ranges : List (Int × Int)} {range : Int × Int}

theorem tilesEnd_concat (start : Int) (ranges : List (Int × Int)) (range : Int × Int) :
    tilesEnd start (ranges ++ [range]) = range.2 + 1 := by
  induction ranges generalizing start with
  | nil => rfl
  | cons first rest ih => exact ih (first.2 + 1)

theorem tiles_concat : Tiles start (ranges ++ [range]) ↔
    Tiles start ranges ∧ range.1 = tilesEnd start ranges ∧ range.1 ≤ range.2 := by
  induction ranges generalizing start with
  | nil => simp [Tiles, tilesEnd]
  | cons r rest ih =>
    rw [List.cons_append, Tiles, Tiles, tilesEnd, ih]
    simp only [and_assoc]

/-- Every range lies between the start and the end. -/
theorem Tiles.bounds (h : Tiles start ranges) :
    start ≤ tilesEnd start ranges ∧
      ∀ range ∈ ranges, start ≤ range.1 ∧ range.1 ≤ range.2 ∧ range.2 < tilesEnd start ranges := by
  induction ranges generalizing start with
  | nil => exact ⟨le_refl start, fun _ hMem => absurd hMem List.not_mem_nil⟩
  | cons r rest ih =>
    obtain ⟨hStart, hLe, hRest⟩ := h
    obtain ⟨hEnd, hBounds⟩ := ih hRest
    rw [tilesEnd]
    refine ⟨by omega, fun range hMem => ?_⟩
    rcases List.mem_cons.mp hMem with rfl | hMem
    · omega
    · have hRange := hBounds range hMem
      omega

/-- The end comes right after the last range. -/
theorem tilesEnd_eq (start : Int) (ranges : List (Int × Int)) :
    ranges = [] ∧ tilesEnd start ranges = start ∨
      ∃ range ∈ ranges, tilesEnd start ranges = range.2 + 1 := by
  induction ranges generalizing start with
  | nil => exact .inl ⟨rfl, rfl⟩
  | cons r rest ih =>
    right
    rcases ih (r.2 + 1) with ⟨rfl, hEnd⟩ | ⟨range, hMem, hEnd⟩
    · exact ⟨r, List.mem_cons_self, hEnd⟩
    · exact ⟨range, List.mem_cons_of_mem r hMem, hEnd⟩

/-- No point between the start and the end is left out. -/
theorem Tiles.covers (h : Tiles start ranges) {k : Int} (hStart : start ≤ k)
    (hEnd : k < tilesEnd start ranges) : ∃ range ∈ ranges, range.1 ≤ k ∧ k ≤ range.2 := by
  induction ranges generalizing start with
  | nil =>
    rw [tilesEnd] at hEnd
    omega
  | cons r rest ih =>
    obtain ⟨hFirst, _, hRest⟩ := h
    by_cases hHere : k ≤ r.2
    · exact ⟨r, List.mem_cons_self, by omega, hHere⟩
    · obtain ⟨range, hMem, hRange⟩ := ih hRest (by omega) hEnd
      exact ⟨range, List.mem_cons_of_mem r hMem, hRange⟩

theorem Tiles.pairwise (h : Tiles start ranges) : ranges.Pairwise fun a b => a.2 < b.1 := by
  induction ranges generalizing start with
  | nil => exact .nil
  | cons r rest ih =>
    obtain ⟨_, _, hRest⟩ := h
    refine .cons (fun range hMem => ?_) (ih hRest)
    have hRange := hRest.bounds.2 range hMem
    omega

end Tiles

end EncryptedSpaces.Lib
