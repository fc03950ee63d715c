import Mathlib.Data.List.Basic
import Mathlib.Data.List.Range

/-!
# List recursions in closed form

Loops of the source that walk an index range become `List.range` maps here;
these lemmas turn a monadic traversal or a filter over such a range into its
closed form.
-/

namespace EncryptedSpaces.Lib.Lists

open List

variable {α β : Type}

variable {l : List α} {f : α → Option β} {bs : List β} {a : α}

/-- A traversal succeeds with `bs` exactly when every element does, with the
entries of `bs`. -/
theorem mapM_eq_some_iff :
    l.mapM f = some bs ↔ l.map f = bs.map some := by
  induction l generalizing bs with
  | nil => cases bs <;> simp
  | cons a l ih =>
    simp only [mapM_cons, Option.bind_eq_bind, Option.bind_eq_some_iff, map_cons]
    constructor
    · rintro ⟨b, hb, cs, hcs, hRet⟩
      cases hRet
      rw [hb, ih.mp hcs, map_cons]
    · intro h
      cases bs with
      | nil => cases h
      | cons b bs =>
        rw [map_cons, cons.injEq] at h
        exact ⟨b, h.1, bs, ih.mpr h.2, rfl⟩

/-- A traversal that succeeds at every element is a map. -/
theorem mapM_eq_some_map {g : α → β} (h : ∀ a ∈ l, f a = some (g a)) :
    l.mapM f = some (l.map g) := by
  rw [mapM_eq_some_iff, map_map]
  exact map_congr_left h

/-- A traversal succeeds when it succeeds at every element. -/
theorem exists_mapM_eq_some (h : ∀ a ∈ l, ∃ b, f a = some b) :
    ∃ bs, l.mapM f = some bs := by
  induction l with
  | nil => exact ⟨[], rfl⟩
  | cons a l ih =>
    obtain ⟨b, hb⟩ := h a (by simp)
    obtain ⟨bs, hbs⟩ := ih fun a' ha' => h a' (by simp [ha'])
    exact ⟨b :: bs, by simp [mapM_cons, hb, hbs]⟩

/-- A traversal that succeeds does so at every element. -/
theorem exists_of_mapM_eq_some (h : l.mapM f = some bs) (ha : a ∈ l) : ∃ b, f a = some b := by
  rw [mapM_eq_some_iff] at h
  have hMem : f a ∈ bs.map some := h ▸ mem_map_of_mem ha
  obtain ⟨b, _, hb⟩ := mem_map.mp hMem
  exact ⟨b, hb.symm⟩

theorem mem_of_mapM_eq_some (h : l.mapM f = some bs) {b : β} : b ∈ bs ↔ ∃ a ∈ l, f a = some b := by
  rw [← mem_map, mapM_eq_some_iff.mp h]
  simp

/-- Filtering an index range by a predicate that holds exactly below `n`
keeps the first `n` indices. -/
theorem filterMap_range_below {f : Nat → Option β} {g : Nat → β} {n len : Nat}
    (hLen : n ≤ len) (hSome : ∀ i, i < n → f i = some (g i))
    (hNone : ∀ i, n ≤ i → i < len → f i = none) :
    (List.range len).filterMap f = (List.range n).map g := by
  induction len with
  | zero =>
    have : n = 0 := by omega
    subst this; rfl
  | succ len ih =>
    rw [range_succ, filterMap_append]
    by_cases h : n = len + 1
    · subst h
      have hPrev : (range len).filterMap f = (range len).map g := by
        have hAll : ∀ i ∈ range len, f i = some (g i) := by
          intro i hi
          exact hSome i (by have := mem_range.mp hi; omega)
        rw [filterMap_congr hAll]
        exact congrFun filterMap_eq_map _
      rw [hPrev, range_succ, map_append]
      simp [hSome len (by omega)]
    · rw [ih (by omega) fun i hi hl => hNone i hi (by omega)]
      simp [hNone len (by omega) (by omega)]

theorem zipIdx_map_range (f : Nat → α) (n : Nat) :
    ((List.range n).map f).zipIdx = (List.range n).map fun i => (f i, i) := by
  apply ext_getElem
  · simp
  · intro i h₁ h₂
    simp

/-! ## Lists related element by element -/

theorem exists_left_of_forall₂ {R : α → β → Prop} (h : List.Forall₂ R l bs) {b : β} (hb : b ∈ bs) :
    ∃ a ∈ l, R a b := by
  obtain ⟨i, hi, rfl⟩ := getElem_of_mem hb
  have hi' : i < l.length := h.length_eq ▸ hi
  exact ⟨l[i], getElem_mem hi', h.get hi' hi⟩

theorem exists_right_of_forall₂ {R : α → β → Prop} (h : List.Forall₂ R l bs) (ha : a ∈ l) :
    ∃ b ∈ bs, R a b := by
  obtain ⟨i, hi, rfl⟩ := getElem_of_mem ha
  have hi' : i < bs.length := h.length_eq ▸ hi
  exact ⟨bs[i], getElem_mem hi', h.get hi hi'⟩

/-- A list of at most one element has no two. -/
theorem eq_of_length_le_one (h : l.length ≤ 1) {a' : α} (ha : a ∈ l) (ha' : a' ∈ l) :
    a = a' := by
  obtain ⟨i, hi, rfl⟩ := getElem_of_mem ha
  obtain ⟨j, hj, rfl⟩ := getElem_of_mem ha'
  have hIndex : i = j := by omega
  subst hIndex
  rfl

end EncryptedSpaces.Lib.Lists
